import AstralOS.Cpu.ContextSwitch

/-! Switching a task out and in again. The words the restore reads are those of the
context the task handed over to, so it comes back with that task's registers. -/
namespace AstralOS.Cpu
open Foundation Foundation.Aarch64

/-- One call `context_switch(old, new)` with the caller's registers at the call. -/
structure Switch where
  old : Addr
  new : Addr
  regs : Regs

/-- The registers with the two arguments in place. -/
def Switch.args (c : Switch) : Regs :=
  { c.regs with x := Function.update (Function.update c.regs.x 0 c.old) 1 c.new }

def Switch.perform (c : Switch) (m : Memory) : State :=
  run contextSwitch { c.args with mem := m, pc := 0 }

def memoryAfter (m : Memory) (calls : List Switch) : Memory :=
  calls.foldl (fun m c => (c.perform m).mem) m

/-- Execution goes on at the return address of `r` with its callee-saved registers and stack. -/
structure ResumesAs (r : Regs) (t : State) : Prop where
  pc : t.pc = r.x 30
  x : ∀ k : Fin 31, 19 ≤ k.val → k.val ≤ 29 → t.x k = r.x k
  sp : t.sp = r.sp

/-- The 34 words of a call's registers written over its old context. -/
def Switch.lay (m : Memory) (c : Switch) : Memory := overlay m c.old (savedWord c.args) 34

/-- What `a` was switched out with is what the calls have left where `a`'s restore looks:
in the words of the context whose address stands at offset 8 of `a`. -/
structure HandedBack (m : Memory) (out : Switch) (between : List Switch) (back : Switch) : Prop where
  sp : back.regs.sp = out.regs.sp
  x : ∀ k : Fin 31, 19 ≤ k.val →
    load 64 8 ((out :: between ++ [back]).foldl Switch.lay m)
      (load 64 8 ((out :: between ++ [back]).foldl Switch.lay m) (out.old + 8) +
        BitVec.ofNat 64 (8 * k)) = out.regs.x k

theorem args_old (c : Switch) : c.args.x 0 = c.old := by
  change Function.update (Function.update c.regs.x 0 c.old) 1 c.new 0 = c.old
  rw [Function.update_of_ne (by decide), Function.update_self]

theorem args_new (c : Switch) : c.args.x 1 = c.new := by
  change Function.update (Function.update c.regs.x 0 c.old) 1 c.new 1 = c.new
  rw [Function.update_self]

theorem perform_mem (c : Switch) (m : Memory) : (c.perform m).mem = Switch.lay m c := by
  rw [Switch.perform, (contextSwitch_switched _).mem, savedMemory, Switch.lay, ← args_old c]

theorem memoryAfter_eq (m : Memory) (calls : List Switch) :
    memoryAfter m calls = calls.foldl Switch.lay m := by
  rw [memoryAfter]
  simp only [perform_mem]

/-- The registers after the last call, read off the laid-out memory. -/
theorem perform_back (m : Memory) (out : Switch) (between : List Switch) (c : Addr) (r : Regs) :
    let back : Switch := ⟨c, out.old, r⟩
    let image := (out :: between ++ [back]).foldl Switch.lay m
    let t := back.perform (memoryAfter m (out :: between))
    t.sp = r.sp ∧ t.pc = load 64 8 image (load 64 8 image (out.old + 8) + 240) ∧
    ∀ k : Fin 31, 11 ≤ k.val →
      t.x k = load 64 8 image (load 64 8 image (out.old + 8) + BitVec.ofNat 64 (8 * k)) := by
  intro back image t
  have switched := contextSwitch_switched
    { back.args with mem := memoryAfter m (out :: between), pc := 0 }
  have mem : savedMemory { back.args with mem := memoryAfter m (out :: between), pc := 0 } = image := by
    rw [← switched.mem]
    change (back.perform _).mem = _
    rw [perform_mem, memoryAfter_eq]
    exact (List.foldl_concat ..).symm
  have base : restoreBase { back.args with mem := memoryAfter m (out :: between), pc := 0 } =
      load 64 8 image (out.old + 8) := by
    rw [restoreBase, mem, args_new]
  have pc := switched.pc
  have x := switched.x
  rw [mem, base] at pc x
  exact ⟨switched.sp, pc, x⟩

/-! Contexts whose 272-byte save areas do not meet: then the words of a context are those
of its own last save. -/

def SaveApart (a b : Addr) : Prop := ∀ i < 272, 272 ≤ (a + BitVec.ofNat 64 i - b).toNat

/-- Word `k` of the last save into `a`, or what was there before any. -/
def lastWord (m : Memory) (calls : List Switch) (a : Addr) (k : Nat) : BitVec 64 :=
  match calls.reverse.find? (fun c => c.old = a) with
  | some c => savedWord c.args k
  | none => load 64 8 m (a + BitVec.ofNat 64 (8 * k))

theorem load_laid (m : Memory) (calls : List Switch) (a : Addr) {k : Nat} (hk : k < 34)
    (apart : ∀ c ∈ calls, c.old ≠ a → SaveApart a c.old) :
    load 64 8 (calls.foldl Switch.lay m) (a + BitVec.ofNat 64 (8 * k)) = lastWord m calls a k := by
  induction calls using List.reverseRecOn with
  | nil => rfl
  | append_singleton calls c ih =>
      have rest := ih fun d member => apart d (List.mem_append_left [c] member)
      rw [List.foldl_concat, lastWord, List.reverse_concat, List.find?_cons]
      by_cases same : c.old = a
      · subst same
        rw [decide_eq_true rfl]
        exact load_overlay _ c.old (savedWord c.args) hk (by omega)
      · rw [show decide (c.old = a) = false from decide_eq_false same]
        change load 64 8 (Switch.lay _ c) _ = lastWord m calls a k
        rw [← rest]
        refine load_overlay_apart _ _ _ _ fun i hi => ?_
        rw [BitVec.add_assoc, ← BitVec.ofNat_add]
        exact apart c (by simp) same (8 * k + i) (by omega)

/-- No later save goes into the context that is switched out, and no save area of the run meets that one or the
one it hands over to. -/
structure Separate (out : Switch) (between : List Switch) (back : Switch) : Prop where
  kept : ∀ d ∈ between ++ [back], d.old ≠ out.old
  apart : ∀ d ∈ out :: between ++ [back],
    (d.old ≠ out.old → SaveApart out.old d.old) ∧ (d.old ≠ out.new → SaveApart out.new d.old)

/-- With separate save areas the restore reads the task that `out` handed over to: its
owner comes back as itself only if that task was last saved with the same registers. -/
theorem Separate.handedBack_iff {m : Memory} {out back : Switch} {between : List Switch}
    (separate : Separate out between back) :
    HandedBack m out between back ↔
      back.regs.sp = out.regs.sp ∧ ∀ k : Fin 31, 19 ≤ k.val →
        lastWord m (out :: between ++ [back]) out.new k = out.regs.x k := by
  have base : load 64 8 ((out :: between ++ [back]).foldl Switch.lay m) (out.old + 8) = out.new := by
    have word := load_laid m (out :: between ++ [back]) out.old (k := 1) (by omega)
      fun d member => (separate.apart d member).1
    have none : (between ++ [back]).reverse.find? (fun d => d.old = out.old) = none := by
      rw [List.find?_eq_none]
      intro d member
      simpa using separate.kept d (List.mem_reverse.mp member)
    rw [lastWord, List.cons_append, List.reverse_cons, List.find?_append, none, Option.none_or,
      List.find?_cons, decide_eq_true rfl] at word
    exact word.trans (args_new out)
  have word : ∀ k : Fin 31,
      load 64 8 ((out :: between ++ [back]).foldl Switch.lay m)
        (out.new + BitVec.ofNat 64 (8 * k)) = lastWord m (out :: between ++ [back]) out.new k :=
    fun k => load_laid m _ out.new (by omega) fun d member => (separate.apart d member).2
  constructor
  · intro handed
    refine ⟨handed.sp, fun k hk => ?_⟩
    have := handed.x k hk
    rwa [base, word] at this
  · rintro ⟨sp, x⟩
    refine ⟨sp, fun k hk => ?_⟩
    rw [base, word]
    exact x k hk

/-- A task switched out by `context_switch(a, b)` and in again by `context_switch(c, a)` resumes as it was exactly
when its registers happen to be where the restore looks: with separate save areas, when the stack pointer is the same
and the last save into the context that it handed over to was made with its own registers. -/
theorem round_trip_iff (m : Memory) (a b c : Addr) (ra rc : Regs) (between : List Switch) :
    (ResumesAs ra (Switch.perform ⟨c, a, rc⟩ (memoryAfter m (⟨a, b, ra⟩ :: between))) ↔
      HandedBack m ⟨a, b, ra⟩ between ⟨c, a, rc⟩) ∧
    (Separate ⟨a, b, ra⟩ between ⟨c, a, rc⟩ → (HandedBack m ⟨a, b, ra⟩ between ⟨c, a, rc⟩ ↔
      rc.sp = ra.sp ∧ ∀ k : Fin 31, 19 ≤ k.val →
        lastWord m (⟨a, b, ra⟩ :: between ++ [⟨c, a, rc⟩]) b k = ra.x k)) := by
  refine ⟨?_, Separate.handedBack_iff⟩
  obtain ⟨sp, pc, x⟩ := perform_back m ⟨a, b, ra⟩ between c rc
  constructor
  · intro resumes
    refine ⟨sp.symm.trans resumes.sp, fun k hk => ?_⟩
    by_cases is30 : k = 30
    · subst is30
      exact pc.symm.trans resumes.pc
    · have : k.val ≠ 30 := fun h => is30 (Fin.ext h)
      exact (x k (by omega)).symm.trans (resumes.x k hk (by omega))
  · intro handed
    exact ⟨pc.trans (handed.x 30 (by decide)),
      fun k low _ => (x k (by omega)).trans (handed.x k low), sp.trans handed.sp⟩

/-- Registers that are all zero but `x19`. -/
def regsWithX19 (v : BitVec 64) : Regs :=
  ⟨Function.update (fun _ => 0) 19 v, 0, fun _ => 0⟩

/-- Two tasks switch to each other once, with the same registers: the first comes back as it was. -/
theorem equal_registers_resume :
    ResumesAs (regsWithX19 1) (Switch.perform ⟨0x2000, 0x1000, regsWithX19 1⟩
      (memoryAfter (fun _ => 0) [⟨0x1000, 0x2000, regsWithX19 1⟩])) := by
  have apart : SaveApart 0x1000 0x2000 := fun i inside => by bv_omega
  have apart' : SaveApart 0x2000 0x1000 := fun i inside => by bv_omega
  have separate : Separate ⟨0x1000, 0x2000, regsWithX19 1⟩ [] ⟨0x2000, 0x1000, regsWithX19 1⟩ := by
    refine ⟨List.forall_mem_singleton.mpr (by decide), List.forall_mem_cons.mpr ⟨?_, List.forall_mem_singleton.mpr ?_⟩⟩
    · exact ⟨fun other => absurd rfl other, fun _ => apart'⟩
    · exact ⟨fun _ => apart, fun other => absurd rfl other⟩
  obtain ⟨resumes, handed⟩ := round_trip_iff (fun _ => 0) 0x1000 0x2000 0x2000 (regsWithX19 1) (regsWithX19 1) []
  exact resumes.mpr ((handed separate).mpr ⟨rfl, by decide⟩)

/-- Two tasks switch to each other once; the first comes back with the second's `x19`. -/
theorem first_task_loses_x19 :
    ¬ ResumesAs (regsWithX19 1) (Switch.perform ⟨0x2000, 0x1000, regsWithX19 2⟩
      (memoryAfter (fun _ => 0) [⟨0x1000, 0x2000, regsWithX19 1⟩])) := by
  intro resumes
  have x19 := resumes.x 19 (by decide) (by decide)
  rw [(perform_back (fun _ => 0) ⟨0x1000, 0x2000, regsWithX19 1⟩ [] 0x2000 (regsWithX19 2)).2.2 19
    (by decide)] at x19
  exact absurd x19 (by decide)

end AstralOS.Cpu
