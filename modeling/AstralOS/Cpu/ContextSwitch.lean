import AstralOS.Foundation.Aarch64

/-! `context_switch` as assembled, and what a sequence of switches hands back to the
first task. The restore loads its own base register `x1` in its first instruction. -/
namespace AstralOS.Cpu
open Foundation Foundation.Aarch64

/-- `[xn, #imm]` -/
def ofs (n : Fin 31) (imm : Addr) : Operand := ⟨.x n, imm, .offset⟩

def contextSwitch : List Instr :=
  [ .stp (.x 0) (.x 1) (ofs 0 0),
    .stp (.x 2) (.x 3) (ofs 0 16),
    .stp (.x 4) (.x 5) (ofs 0 32),
    .stp (.x 6) (.x 7) (ofs 0 48),
    .stp (.x 8) (.x 9) (ofs 0 64),
    .stp (.x 10) (.x 11) (ofs 0 80),
    .stp (.x 12) (.x 13) (ofs 0 96),
    .stp (.x 14) (.x 15) (ofs 0 112),
    .stp (.x 16) (.x 17) (ofs 0 128),
    .stp (.x 18) (.x 19) (ofs 0 144),
    .stp (.x 20) (.x 21) (ofs 0 160),
    .stp (.x 22) (.x 23) (ofs 0 176),
    .stp (.x 24) (.x 25) (ofs 0 192),
    .stp (.x 26) (.x 27) (ofs 0 208),
    .stp (.x 28) (.x 29) (ofs 0 224),
    .str (.x 30) (ofs 0 240),
    .mrs (.x 10) .spEl0,
    .str (.x 10) (ofs 0 248),
    .mrs (.x 10) .elrEl1,
    .str (.x 10) (ofs 0 256),
    .mrs (.x 10) .spsrEl1,
    .str (.x 10) (ofs 0 264),
    .ldp (.x 0) (.x 1) (ofs 1 0),
    .ldp (.x 2) (.x 3) (ofs 1 16),
    .ldp (.x 4) (.x 5) (ofs 1 32),
    .ldp (.x 6) (.x 7) (ofs 1 48),
    .ldp (.x 8) (.x 9) (ofs 1 64),
    .ldp (.x 10) (.x 11) (ofs 1 80),
    .ldp (.x 12) (.x 13) (ofs 1 96),
    .ldp (.x 14) (.x 15) (ofs 1 112),
    .ldp (.x 16) (.x 17) (ofs 1 128),
    .ldp (.x 18) (.x 19) (ofs 1 144),
    .ldp (.x 20) (.x 21) (ofs 1 160),
    .ldp (.x 22) (.x 23) (ofs 1 176),
    .ldp (.x 24) (.x 25) (ofs 1 192),
    .ldp (.x 26) (.x 27) (ofs 1 208),
    .ldp (.x 28) (.x 29) (ofs 1 224),
    .ldr (.x 30) (ofs 1 240),
    .ldr (.x 10) (ofs 1 248),
    .msr .spEl0 (.x 10),
    .ldr (.x 10) (ofs 1 256),
    .msr .elrEl1 (.x 10),
    .ldr (.x 10) (ofs 1 264),
    .msr .spsrEl1 (.x 10),
    .ret ]

/-- The 34 words the save part stores, in the order of their offsets. -/
def savedWord (r : Regs) (k : Nat) : BitVec 64 :=
  if h : k < 31 then r.x ⟨k, h⟩
  else if k = 31 then r.sys .spEl0
  else if k = 32 then r.sys .elrEl1
  else r.sys .spsrEl1

private def gpr (k : Nat) : Fin 31 := Fin.ofNat 31 k

private def savePairs (n : Nat) : List Instr := (List.range n).map fun i =>
  .stp (.x (gpr (2 * i))) (.x (gpr (2 * i + 1))) (ofs 0 (BitVec.ofNat 64 (16 * i)))

private def saveRest : List Instr :=
  [ .str (.x 30) (ofs 0 240), .mrs (.x 10) .spEl0, .str (.x 10) (ofs 0 248),
    .mrs (.x 10) .elrEl1, .str (.x 10) (ofs 0 256), .mrs (.x 10) .spsrEl1,
    .str (.x 10) (ofs 0 264) ]

private def loadPairs (n : Nat) : List Instr := (List.range n).map fun i =>
  .ldp (.x (gpr (2 * i + 2))) (.x (gpr (2 * i + 3))) (ofs 1 (BitVec.ofNat 64 (16 * i + 16)))

private def loadRest : List Instr :=
  [ .ldr (.x 30) (ofs 1 240), .ldr (.x 10) (ofs 1 248), .msr .spEl0 (.x 10),
    .ldr (.x 10) (ofs 1 256), .msr .elrEl1 (.x 10), .ldr (.x 10) (ofs 1 264),
    .msr .spsrEl1 (.x 10), .ret ]

private theorem contextSwitch_parts : contextSwitch =
    savePairs 15 ++ saveRest ++ [.ldp (.x 0) (.x 1) (ofs 1 0)] ++ loadPairs 14 ++ loadRest := rfl

private theorem savedWord_gpr (r : Regs) {k : Nat} (hk : k < 31) : savedWord r k = r.x (gpr k) := by
  rw [savedWord, dif_pos hk]
  exact congrArg r.x (Fin.ext (Nat.mod_eq_of_lt hk).symm)

private theorem run_savePairs (s : State) {n : Nat} (hn : n ≤ 15) :
    run (savePairs n) s =
      { s with mem := overlay s.mem (s.x 0) (savedWord s.toRegs) (2 * n) } := by
  induction n with
  | zero => simp [savePairs, run]
  | succ n ih =>
      have first := store_overlay s.mem (s.x 0) (savedWord s.toRegs) (n := 2 * n) (by omega)
      have second := store_overlay s.mem (s.x 0) (savedWord s.toRegs) (n := 2 * n + 1) (by omega)
      have address : s.x 0 + BitVec.ofNat 64 (16 * n) + 8 =
          s.x 0 + BitVec.ofNat 64 (8 * (2 * n + 1)) := by
        rw [show 8 * (2 * n + 1) = 16 * n + 8 by omega, BitVec.ofNat_add, BitVec.add_assoc]
        rfl
      rw [show 8 * (2 * n) = 16 * n by omega, savedWord_gpr _ (by omega)] at first
      rw [savedWord_gpr _ (by omega)] at second
      rw [savePairs, List.range_succ, List.map_append, run_append, ← savePairs, ih (by omega)]
      simp only [List.map_cons, List.map_nil, run, List.foldl_cons, List.foldl_nil, exec, ofs,
        Operand.address, Operand.writeback, State.base, State.read, address]
      rw [first, second]
      rfl

/-- The save part: 34 words over the old context, `x10` clobbered, nothing else. -/
private theorem run_save (s : State) :
    run (savePairs 15 ++ saveRest) s =
      { s with
        mem := overlay s.mem (s.x 0) (savedWord s.toRegs) 34
        x := Function.update s.x 10 (s.sys .spsrEl1) } := by
  let laid := overlay s.mem (s.x 0) (savedWord s.toRegs)
  have word30 : store 8 (laid 30) (s.x 0 + 240) (s.x 30) = laid 31 :=
    store_overlay _ _ _ (by omega)
  have word31 : store 8 (laid 31) (s.x 0 + 248) (s.sys .spEl0) = laid 32 :=
    store_overlay _ _ _ (by omega)
  have word32 : store 8 (laid 32) (s.x 0 + 256) (s.sys .elrEl1) = laid 33 :=
    store_overlay _ _ _ (by omega)
  have word33 : store 8 (laid 33) (s.x 0 + 264) (s.sys .spsrEl1) = laid 34 :=
    store_overlay _ _ _ (by omega)
  have keep : ∀ (f : Fin 31 → BitVec 64) (v : BitVec 64), Function.update f 10 v 0 = f 0 := by
    intro f v
    exact Function.update_of_ne (by decide) _ _
  rw [run_append, run_savePairs s (Nat.le_refl 15)]
  simp only [saveRest, run, List.foldl_cons, List.foldl_nil, exec, ofs, Operand.address,
    Operand.writeback, State.base, State.read, State.write, Function.update_self, keep,
    Function.update_idem]
  change { s with
    mem := store 8 (store 8 (store 8 (store 8 (laid 30) _ (s.x 30)) _ _) _ _) _ _
    x := Function.update s.x 10 (s.sys .spsrEl1) } = _
  rw [word30, word31, word32, word33]

private theorem run_loadPairs (s : State) {n : Nat} (hn : n ≤ 14) :
    run (loadPairs n) s =
      { s with x := fun k =>
          if 2 ≤ k.val ∧ k.val < 2 * n + 2 then load 64 8 s.mem (s.x 1 + BitVec.ofNat 64 (8 * k))
          else s.x k } := by
  induction n with
  | zero =>
      have none : ∀ k : Fin 31, ¬ (2 ≤ k.val ∧ k.val < 2 * 0 + 2) := by omega
      simp only [loadPairs, run, List.range_zero, List.map_nil, List.foldl_nil, none, if_false]
  | succ n ih =>
      have low : (gpr (2 * n + 2)).val = 2 * n + 2 := Nat.mod_eq_of_lt (by omega)
      have high : (gpr (2 * n + 3)).val = 2 * n + 3 := Nat.mod_eq_of_lt (by omega)
      have second : s.x 1 + BitVec.ofNat 64 (16 * n + 16) + 8 =
          s.x 1 + BitVec.ofNat 64 (8 * (2 * n + 3)) := by
        rw [show 8 * (2 * n + 3) = 16 * n + 16 + 8 by omega, BitVec.ofNat_add (16 * n + 16) 8,
          BitVec.add_assoc]
        rfl
      have first : 16 * n + 16 = 8 * (2 * n + 2) := by omega
      rw [loadPairs, List.range_succ, List.map_append, run_append, ← loadPairs, ih (by omega)]
      simp only [List.map_cons, List.map_nil, run, List.foldl_cons, List.foldl_nil, exec, ofs,
        Operand.address, Operand.writeback, State.base, State.write]
      congr 2
      funext k
      have base : ¬ (2 ≤ (1 : Fin 31).val ∧ (1 : Fin 31).val < 2 * n + 2) := by simp
      rw [if_neg base, second, first]
      by_cases isHigh : k = gpr (2 * n + 3)
      · rw [isHigh, Function.update_self, high, if_pos (by omega)]
      · rw [Function.update_of_ne isHigh]
        by_cases isLow : k = gpr (2 * n + 2)
        · rw [isLow, Function.update_self, low, if_pos (by omega)]
        · rw [Function.update_of_ne isLow]
          have notHigh : k.val ≠ 2 * n + 3 := fun h => isHigh (Fin.ext (h.trans high.symm))
          have notLow : k.val ≠ 2 * n + 2 := fun h => isLow (Fin.ext (h.trans low.symm))
          have same : 2 ≤ k.val ∧ k.val < 2 * n + 2 ↔ 2 ≤ k.val ∧ k.val < 2 * (n + 1) + 2 := by
            omega
          simp only [same]

private theorem run_loadRest (s : State) :
    (run loadRest s).mem = s.mem ∧ (run loadRest s).sp = s.sp ∧
    (run loadRest s).pc = load 64 8 s.mem (s.x 1 + 240) ∧
    ∀ k : Fin 31, k ≠ 10 → (run loadRest s).x k =
      if k = 30 then load 64 8 s.mem (s.x 1 + 240) else s.x k := by
  have keep30 : ∀ (f : Fin 31 → BitVec 64) (v : BitVec 64), Function.update f 30 v 1 = f 1 := by
    intro f v
    exact Function.update_of_ne (by decide) _ _
  have keep10 : ∀ (f : Fin 31 → BitVec 64) (v : BitVec 64), Function.update f 10 v 1 = f 1 := by
    intro f v
    exact Function.update_of_ne (by decide) _ _
  have keepReturn : ∀ (f : Fin 31 → BitVec 64) (v : BitVec 64),
      Function.update f 10 v 30 = f 30 := by
    intro f v
    exact Function.update_of_ne (by decide) _ _
  simp only [loadRest, run, List.foldl_cons, List.foldl_nil, exec, ofs, Operand.address,
    Operand.writeback, State.base, State.write, State.read, Function.update_self, keep30, keep10,
    keepReturn, Function.update_idem, true_and]
  intro k not10
  rw [Function.update_of_ne not10]
  by_cases is30 : k = 30
  · rw [if_pos is30, is30, Function.update_self]
  · rw [if_neg is30, Function.update_of_ne is30]

/-- Memory after the save part. -/
def savedMemory (s : State) : Memory := overlay s.mem (s.x 0) (savedWord s.toRegs) 34

/-- The base of every load after the first: the word at offset 8 of the new context. -/
def restoreBase (s : State) : Addr := load 64 8 (savedMemory s) (s.x 1 + 8)

structure Switched (s t : State) : Prop where
  mem : t.mem = savedMemory s
  sp : t.sp = s.sp
  pc : t.pc = load 64 8 (savedMemory s) (restoreBase s + 240)
  x : ∀ k : Fin 31, 11 ≤ k.val →
    t.x k = load 64 8 (savedMemory s) (restoreBase s + BitVec.ofNat 64 (8 * k))

/-- What the whole routine does to memory, the stack pointer, the return address and
the callee-saved registers. -/
theorem contextSwitch_switched (s : State) : Switched s (run contextSwitch s) := by
  rw [contextSwitch_parts, run_append, run_append, run_append, run_save]
  have first : run [.ldp (.x 0) (.x 1) (ofs 1 0)]
      { s with
        mem := savedMemory s
        x := Function.update s.x 10 (s.sys .spsrEl1) } =
      { s with
        mem := savedMemory s
        x := Function.update (Function.update (Function.update s.x 10 (s.sys .spsrEl1)) 0
          (load 64 8 (savedMemory s) (s.x 1))) 1 (restoreBase s) } := by
    have keep : Function.update s.x 10 (s.sys .spsrEl1) 1 = s.x 1 :=
      Function.update_of_ne (by decide) _ _
    simp only [run, List.foldl_cons, List.foldl_nil, exec, ofs, Operand.address,
      Operand.writeback, State.base, State.write, keep]
    rw [show s.x 1 + 0 = s.x 1 from BitVec.add_zero _]
    rfl
  have loads := run_loadPairs
    { s with
      mem := savedMemory s
      x := Function.update (Function.update (Function.update s.x 10 (s.sys .spsrEl1)) 0
        (load 64 8 (savedMemory s) (s.x 1))) 1 (restoreBase s) } (Nat.le_refl 14)
  simp only [Function.update_self] at loads
  change Switched s (run loadRest (run (loadPairs 14) (run [.ldp (.x 0) (.x 1) (ofs 1 0)]
    { s with
      mem := savedMemory s
      x := Function.update s.x 10 (s.sys .spsrEl1) })))
  rw [first, loads]
  obtain ⟨mem, sp, pc, x⟩ := run_loadRest
    { s with
      mem := savedMemory s
      x := fun k : Fin 31 =>
        if 2 ≤ k.val ∧ k.val < 2 * 14 + 2 then
          load 64 8 (savedMemory s) (restoreBase s + BitVec.ofNat 64 (8 * k))
        else Function.update (Function.update (Function.update s.x 10 (s.sys .spsrEl1)) 0
          (load 64 8 (savedMemory s) (s.x 1))) 1 (restoreBase s) k }
  have base : ¬ (2 ≤ (1 : Fin 31).val ∧ (1 : Fin 31).val < 2 * 14 + 2) := by simp
  simp only [if_neg base, Function.update_self] at pc x
  refine ⟨mem, sp, pc, fun k hk => ?_⟩
  rw [x k (by rintro rfl; exact absurd hk (by decide))]
  by_cases is30 : k = 30
  · rw [if_pos is30, is30]
    rfl
  · have below : k.val < 30 := by
      have : k.val ≠ 30 := fun h => is30 (Fin.ext h)
      omega
    rw [if_neg is30, if_pos (by omega)]

private theorem writes_savePairs (s : State) {n : Nat} (hn : n ≤ 15) :
    writes (savePairs n) s =
      (List.range n).map fun i => (s.x 0 + BitVec.ofNat 64 (16 * i), 16) := by
  induction n with
  | zero => rfl
  | succ n ih =>
      rw [savePairs, List.range_succ, List.map_append, writes_append, ← savePairs, ih (by omega),
        run_savePairs s (by omega), List.map_append]
      rfl

/-- The save part stores 272 bytes from the old context on, and nothing else is stored. -/
theorem writes_contextSwitch (s : State) : writes contextSwitch s =
    (List.range 15).map (fun i => (s.x 0 + BitVec.ofNat 64 (16 * i), 16)) ++
      (List.range 4).map (fun i => (s.x 0 + BitVec.ofNat 64 (240 + 8 * i), 8)) := by
  have keep : ∀ (f : Fin 31 → BitVec 64) (v : BitVec 64), Function.update f 10 v 0 = f 0 := by
    intro f v
    exact Function.update_of_ne (by decide) _ _
  have rest : ∀ t : State, writes saveRest t =
      (List.range 4).map fun i => (t.x 0 + BitVec.ofNat 64 (240 + 8 * i), 8) := by
    intro t
    simp only [writes, saveRest, stored, exec, ofs, Operand.address, Operand.writeback, State.base,
      State.write, keep, List.nil_append, List.cons_append]
    rfl
  have loads : ∀ i ∈ [.ldp (.x 0) (.x 1) (ofs 1 0)] ++ loadPairs 14 ++ loadRest, ∀ t,
      stored t i = [] := by
    intro i member t
    simp only [loadPairs, loadRest, List.mem_append, List.mem_cons, List.mem_map, List.not_mem_nil,
      or_false] at member
    rcases member with (rfl | ⟨_, _, rfl⟩) | rfl | rfl | rfl | rfl | rfl | rfl | rfl | rfl <;> rfl
  rw [contextSwitch_parts, List.append_assoc, List.append_assoc, ← List.append_assoc _ _ loadRest,
    writes_append, writes_append, writes_savePairs s (Nat.le_refl 15), rest,
    run_savePairs s (Nat.le_refl 15), writes_eq_nil loads, List.append_nil]

end AstralOS.Cpu
