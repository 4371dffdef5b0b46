import AstralOS.Sched.Kernel

/-! What `sched_create_task` leaves in the heap: a control block with the task's own values,
and everybody else's blocks as they were. -/
namespace AstralOS.Sched
open Foundation Foundation.FirstFit AstralOS.Kmalloc

/-- What the control block holds before its page table is there. -/
structure Task.Filled (t : Task) (s : System) : Prop where
  id : get 32 4 s t.tcb 0 = t.id
  sp : get 64 8 s t.tcb 8 = t.stackBase + t.stackSize - 16#64
  lr : get 64 8 s t.tcb 16 = t.func
  stackBase : get 64 8 s t.tcb 120 = t.stackBase
  stackSize : get 64 8 s t.tcb 128 = t.stackSize

/-- The control block is allocated and holds what the task was given. -/
structure Task.Held (t : Task) (s : System) : Prop extends Task.Filled t s where
  live : t.tcb ∈ s.live
  size : 144 ≤ payloadSize s.mem t.tcb
  stack : t.stackBase ∈ s.live
  ttbr0El1 : get 64 8 s t.tcb 136 = t.ttbr0El1

section
variable {heapStart heapSize : BitVec 64} {s s' : System} {old : List Addr} {blocks : List Block}
  {t : Task} {p : Addr}

theorem get_put_same {w n k : Nat} {v : BitVec w} (fits : w ≤ 8 * n) (small : n ≤ 2 ^ 64) :
    get w n (put n s p k v) p k = v :=
  load_store_same fits small _ _ _

theorem get_put_other {w w' n n' k k' : Nat} {v : BitVec w} (apart : k + n ≤ k' ∨ k' + n' ≤ k)
    (small : k + n < 2 ^ 63 ∧ k' + n' < 2 ^ 63) :
    get w' n' (put n s p k v) p k' = get w' n' s p k' :=
  load_store_other apart small

theorem get_kept (keeps : Keeps heapStart heapSize old s s') (member : p ∈ old) {w n k : Nat}
    (within : k + n ≤ payloadSize s.mem p) : get w n s' p k = get w n s p k :=
  keeps.same.load member within

theorem size_kept (keeps : Keeps heapStart heapSize old s s') (member : p ∈ old) :
    payloadSize s'.mem p = payloadSize s.mem p :=
  (keeps.same p member).1

theorem Task.Filled.kept (filled : t.Filled s) (keeps : Keeps heapStart heapSize old s s')
    (member : t.tcb ∈ old) (size : 144 ≤ payloadSize s.mem t.tcb) : t.Filled s' where
  id := (get_kept keeps member (by omega)).trans filled.id
  sp := (get_kept keeps member (by omega)).trans filled.sp
  lr := (get_kept keeps member (by omega)).trans filled.lr
  stackBase := (get_kept keeps member (by omega)).trans filled.stackBase
  stackSize := (get_kept keeps member (by omega)).trans filled.stackSize

theorem Task.Held.kept (held : t.Held s) (keeps : Keeps heapStart heapSize old s s')
    (member : t.tcb ∈ old) (stack : t.stackBase ∈ old) : t.Held s' where
  toFilled := held.toFilled.kept keeps member held.size
  live := keeps.live _ member
  stack := keeps.live _ stack
  size := (size_kept keeps member).symm ▸ held.size
  ttbr0El1 := (get_kept keeps member (by have := held.size; omega)).trans held.ttbr0El1

/-- A block of the client's own, among others that are left alone. -/
structure Own (heapStart heapSize : BitVec 64) (old : List Addr) (p : Addr) (n : Nat) (s : System) :
    Prop where
  layout : ∃ blocks, Layout heapStart heapSize s blocks
  live : p ∈ s.live
  size : n ≤ payloadSize s.mem p
  others : ∀ q ∈ old, q ∈ s.live ∧ q ≠ p

theorem put_spec (bound : heapStart.toNat + heapSize.toNat < 2 ^ 64) {n w : Nat} (len k : Nat)
    (v : BitVec w) (own : Own heapStart heapSize old p n s) (within : k + len ≤ n) :
    Own heapStart heapSize old p n (put len s p k v) ∧
      Keeps heapStart heapSize old s (put len s p k v) ∧
      ∀ room, Room heapStart heapSize s room → Room heapStart heapSize (put len s p k v) room := by
  obtain ⟨blocks, layout⟩ := own.layout
  have fits := own.size
  have fills := fillsOnly_store (v := v) (Nat.le_trans within fits)
  obtain ⟨keeps, size⟩ := fill_spec bound layout own.live fills
  refine ⟨⟨keeps.layout, own.live, size.symm ▸ fits, own.others⟩, keeps.sub fun q member => ?_,
    fun room left => fill_room bound left own.live fills⟩
  obtain ⟨isLive, other⟩ := own.others q member
  exact List.mem_filter.mpr ⟨isLive, decide_eq_true other⟩

theorem Own.kept {n : Nat} (own : Own heapStart heapSize old p n s)
    (keeps : Keeps heapStart heapSize s.live s s') : Own heapStart heapSize old p n s' where
  layout := keeps.layout
  live := keeps.live _ own.live
  size := (size_kept keeps own.live).symm ▸ own.size
  others := fun q member => ⟨keeps.live _ (own.others q member).1, (own.others q member).2⟩

/-- The copy loop stays in the page. -/
theorem copy_outside (m : Memory) (f : Nat → BitVec 64) {x : Addr} (far : 4096 ≤ (x - p).toNat)
    {indices : List Nat} (inside : ∀ i ∈ indices, i < 512) :
    indices.foldl (fun m i => store 8 m (p + BitVec.ofNat 64 (8 * i)) (f i)) m x = m x := by
  induction indices generalizing m with
  | nil => rfl
  | cons i rest ih =>
      have first := inside i List.mem_cons_self
      rw [List.foldl_cons, ih _ fun j member => inside j (List.mem_cons_of_mem i member)]
      exact store_field_outside (by omega) (by omega) far

theorem fillsOnly_pagetable {m : Memory} (f : Nat → BitVec 64) (size : 4096 ≤ payloadSize m p) :
    FillsOnly m (pagetable f m p) p := by
  intro x far
  unfold pagetable
  have out : 4096 ≤ (x - p).toNat := Nat.le_trans size far
  rw [copy_outside _ f out fun i member => List.mem_range.mp member]
  exact if_neg (Nat.not_lt.mpr out)

theorem vmCreateTaskPagetable_spec (nonzero : heapStart ≠ 0#64)
    (bound : heapStart.toNat + heapSize.toNat < 2 ^ 64) (kernelL1 : Nat → BitVec 64)
    (layout : Layout heapStart heapSize s blocks) :
    ∃ q t, vmCreateTaskPagetable kernelL1 s = some (q, t) ∧ Keeps heapStart heapSize s.live s t := by
  obtain ⟨q, t, blocks', ran, layout', keeps, _, new, _⟩ := alloc_spec nonzero bound layout pageSize
  rw [vmCreateTaskPagetable, ran, Option.map_some]
  by_cases null : q = 0#64
  · exact ⟨q, t, congrArg some (if_pos null), keeps⟩
  · obtain ⟨live, out, size⟩ := new null
    refine ⟨_, _, congrArg some (if_neg null), keeps.trans ?_⟩
    refine (fill_spec bound layout' (live ▸ List.mem_cons_self)
      (fillsOnly_pagetable kernelL1 size)).1.sub fun p member => ?_
    refine List.mem_filter.mpr ⟨live ▸ List.mem_cons_of_mem q member, decide_eq_true ?_⟩
    rintro rfl
    exact out member

/-- The two ways a stage of the creation ends. -/
structure Created (heapStart heapSize : BitVec 64) (old : List Addr) (s : System)
    (result : Option (Option Task × System)) (given : Task → Prop) : Prop where
  done : ∃ r s', result = some (r, s') ∧ Keeps heapStart heapSize old s s' ∧
    ∀ u, r = some u → u.Held s' ∧ u.tcb ∉ old ∧ given u

theorem createPagetable_spec (nonzero : heapStart ≠ 0#64)
    (bound : heapStart.toNat + heapSize.toNat < 2 ^ 64) (kernelL1 : Nat → BitVec 64)
    (own : Own heapStart heapSize old t.tcb 144 s) (filled : t.Filled s)
    (stack : t.stackBase ∈ s.live ∧ t.stackBase ≠ t.tcb ∧ t.stackBase ∉ old) :
    Created heapStart heapSize old s (createPagetable kernelL1 t s)
      fun u => ∃ q, u = { t with ttbr0El1 := q } := by
  obtain ⟨blocks, layout⟩ := own.layout
  obtain ⟨q, s₁, ran, keeps₁⟩ := vmCreateTaskPagetable_spec nonzero bound kernelL1 layout
  have own₁ := own.kept keeps₁
  have filled₁ := filled.kept keeps₁ own.live own.size
  have notOld : t.tcb ∉ old := fun member => (own.others _ member).2 rfl
  have intoOld := keeps₁.sub fun p member => (own.others p member).1
  obtain ⟨own₂, keeps₂, _⟩ := put_spec bound 8 136 q own₁ (by omega)
  have filled₂ : t.Filled (put 8 s₁ t.tcb 136 q) := by
    constructor <;> rw [get_put_other (by omega) (by omega)]
    exacts [filled₁.id, filled₁.sp, filled₁.lr, filled₁.stackBase, filled₁.stackSize]
  have table : get 64 8 (put 8 s₁ t.tcb 136 q) t.tcb 136 = q := get_put_same (by omega) (by omega)
  rw [createPagetable, ran, Option.bind_some]
  simp only [table, filled₂.stackBase]
  by_cases null : q = 0#64
  · rw [if_pos null]
    have stackLive : t.stackBase ∈ (put 8 s₁ t.tcb 136 q).live := keeps₁.live _ stack.1
    obtain ⟨blocks₂, layout₂⟩ := own₂.layout
    obtain ⟨s₃, freed₃, keeps₃⟩ := release_spec nonzero bound layout₂ stackLive
    obtain ⟨blocks₃, layout₃⟩ := keeps₃.layout
    have tcbLive : t.tcb ∈ s₃.live :=
      keeps₃.live _ (List.mem_filter.mpr ⟨own₂.live, decide_eq_true stack.2.1.symm⟩)
    obtain ⟨s₄, freed₄, keeps₄⟩ := release_spec nonzero bound layout₃ tcbLive
    refine ⟨none, s₄, by rw [freed₃, Option.bind_some, freed₄]; rfl, ?_, fun u eq => (nomatch eq)⟩
    have old₃ : ∀ p ∈ old, p ∈ (put 8 s₁ t.tcb 136 q).live.filter (· ≠ t.stackBase) := by
      intro p member
      refine List.mem_filter.mpr ⟨(own₂.others p member).1, decide_eq_true ?_⟩
      rintro rfl
      exact stack.2.2 member
    have old₄ : ∀ p ∈ old, p ∈ s₃.live.filter (· ≠ t.tcb) := fun p member =>
      List.mem_filter.mpr ⟨keeps₃.live p (old₃ p member), decide_eq_true (own₂.others p member).2⟩
    exact ((intoOld.trans keeps₂).trans (keeps₃.sub old₃)).trans (keeps₄.sub old₄)
  · rw [if_neg null]
    refine ⟨_, _, rfl, intoOld.trans keeps₂, fun u eq => ?_⟩
    cases eq
    exact ⟨⟨⟨filled₂.id, filled₂.sp, filled₂.lr, filled₂.stackBase, filled₂.stackSize⟩, own₂.live,
      own₂.size, keeps₁.live _ stack.1, table⟩, notOld, q, rfl⟩

/-- Filling the context in stays inside the control block. -/
theorem putContext_own (bound : heapStart.toNat + heapSize.toNat < 2 ^ 64)
    (own : Own heapStart heapSize old t.tcb 144 s) :
    Own heapStart heapSize old t.tcb 144 (putContext t s) ∧
      Keeps heapStart heapSize old s (putContext t s) ∧
      ∀ room, Room heapStart heapSize s room → Room heapStart heapSize (putContext t s) room := by
  obtain ⟨own₁, keeps₁, left₁⟩ := put_spec bound 8 128 t.stackSize own (by omega)
  obtain ⟨own₂, keeps₂, left₂⟩ := put_spec bound 8 8
    (get 64 8 (put 8 s t.tcb 128 t.stackSize) t.tcb 120 + t.stackSize - 16#64) own₁ (by omega)
  obtain ⟨own₃, keeps₃, left₃⟩ := put_spec bound 8 16 t.func own₂ (by omega)
  obtain ⟨own₄, keeps₄, left₄⟩ := put_spec bound 8 104 _ own₃ (by omega)
  exact ⟨own₄, ((keeps₁.trans keeps₂).trans keeps₃).trans keeps₄,
    fun room left => left₄ _ (left₃ _ (left₂ _ (left₁ _ left)))⟩

theorem putContext_filled (id : get 32 4 s t.tcb 0 = t.id)
    (base : get 64 8 s t.tcb 120 = t.stackBase) : t.Filled (putContext t s) := by
  have base₁ : get 64 8 (put 8 s t.tcb 128 t.stackSize) t.tcb 120 = t.stackBase := by
    rw [get_put_other (by omega) (by omega), base]
  have same : putContext t s = put 8 (put 8 (put 8 (put 8 s t.tcb 128 t.stackSize) t.tcb 8
      (t.stackBase + t.stackSize - 16#64)) t.tcb 16 t.func) t.tcb 104
      (t.stackBase + t.stackSize - 16#64) := by
    have base₃ : get 64 8 (put 8 (put 8 (put 8 s t.tcb 128 t.stackSize) t.tcb 8
        (t.stackBase + t.stackSize - 16#64)) t.tcb 16 t.func) t.tcb 120 = t.stackBase := by
      rw [get_put_other (by omega) (by omega), get_put_other (by omega) (by omega), base₁]
    simp only [putContext, base₁, base₃]
  rw [same]
  constructor
  all_goals simp (disch := omega) only [get_put_other, get_put_same]
  exacts [id, base]

theorem createStack_spec (nonzero : heapStart ≠ 0#64)
    (bound : heapStart.toNat + heapSize.toNat < 2 ^ 64) (kernelL1 : Nat → BitVec 64)
    (own : Own heapStart heapSize old t.tcb 144 s) (id : get 32 4 s t.tcb 0 = t.id) :
    Created heapStart heapSize old s (createStack kernelL1 t s)
      fun u => ∃ b q, u = { t with stackBase := b, ttbr0El1 := q } ∧ b ∉ old := by
  obtain ⟨blocks, layout⟩ := own.layout
  obtain ⟨b, s₁, blocks₁, ran, layout₁, keeps₁, _, new, _⟩ := alloc_spec nonzero bound layout t.stackSize
  have own₁ := own.kept keeps₁
  have id₁ := (get_kept (w := 32) (n := 4) (k := 0) keeps₁ own.live (by have := own.size; omega)).trans id
  have intoOld := keeps₁.sub fun p member => (own.others p member).1
  obtain ⟨own₂, keeps₂, _⟩ := put_spec bound 8 120 b own₁ (by omega)
  have base : get 64 8 (put 8 s₁ t.tcb 120 b) t.tcb 120 = b := get_put_same (by omega) (by omega)
  rw [createStack, ran, Option.bind_some]
  simp only [base]
  by_cases null : b = 0#64
  · rw [if_pos null]
    obtain ⟨blocks₂, layout₂⟩ := own₂.layout
    obtain ⟨s₃, freed, keeps₃⟩ := release_spec nonzero bound layout₂ own₂.live
    refine ⟨none, s₃, by rw [freed]; rfl, ?_, fun u eq => (nomatch eq)⟩
    exact (intoOld.trans keeps₂).trans (keeps₃.sub fun p member =>
      List.mem_filter.mpr ⟨(own₂.others p member).1, decide_eq_true (own₂.others p member).2⟩)
  · rw [if_neg null]
    obtain ⟨live, out, _⟩ := new null
    have notOld : b ∉ old := fun member => out (own.others b member).1
    have apart : b ≠ t.tcb := fun same => out (same ▸ own.live)
    have id₂ : get 32 4 (put 8 s₁ t.tcb 120 b) t.tcb 0 = t.id := by
      rw [get_put_other (by omega) (by omega), id₁]
    obtain ⟨own₃, keeps₃, _⟩ := putContext_own (t := { t with stackBase := b }) bound own₂
    have filled := putContext_filled (t := { t with stackBase := b }) id₂ base
    have bLive : b ∈ (putContext { t with stackBase := b } (put 8 s₁ t.tcb 120 b)).live :=
      live ▸ List.mem_cons_self
    obtain ⟨r, s₄, ran₄, keeps₄, given⟩ := (createPagetable_spec nonzero bound kernelL1 own₃ filled
      ⟨bLive, apart, notOld⟩).done
    refine ⟨r, s₄, ran₄, ((intoOld.trans keeps₂).trans keeps₃).trans keeps₄, fun u eq => ?_⟩
    obtain ⟨held, tcb, q, rfl⟩ := given u eq
    exact ⟨held, tcb, b, q, rfl, notOld⟩

/-- A creation keeps the blocks that are held, and a task it makes is new among them. -/
theorem createTask_spec (nonzero : heapStart ≠ 0#64)
    (bound : heapStart.toNat + heapSize.toNat < 2 ^ 64) (kernelL1 : Nat → BitVec 64)
    (layout : Layout heapStart heapSize s blocks) (numTasks : Int) (func : Addr)
    (stackSize : BitVec 64) :
    Created heapStart heapSize s.live s (createTask kernelL1 numTasks func stackSize s)
      fun u => u.id = BitVec.ofInt 32 numTasks ∧ u.func = func ∧ u.stackSize = stackSize ∧
        u.stackBase ∉ s.live ∧ u.tcb ≠ 0#64 := by
  obtain ⟨p, s₁, blocks₁, ran, layout₁, keeps₁, _, new, _⟩ := alloc_spec nonzero bound layout tcbSize
  rw [createTask, ran, Option.bind_some]
  by_cases null : p = 0#64
  · exact ⟨none, s₁, if_pos null, keeps₁, fun u eq => (nomatch eq)⟩
  · rw [if_neg null]
    obtain ⟨live, out, size⟩ := new null
    have others : ∀ q ∈ s.live, q ∈ s₁.live ∧ q ≠ p := by
      intro q member
      refine ⟨live ▸ List.mem_cons_of_mem p member, ?_⟩
      rintro rfl
      exact out member
    have own : Own heapStart heapSize s.live p 144 s₁ :=
      ⟨⟨blocks₁, layout₁⟩, live ▸ List.mem_cons_self, size, others⟩
    obtain ⟨own₂, keeps₂, _⟩ := put_spec bound 4 0 (BitVec.ofInt 32 numTasks) own (by omega)
    have id := get_put_same (s := s₁) (p := p) (w := 32) (n := 4) (k := 0)
      (v := BitVec.ofInt 32 numTasks) (by omega) (by omega)
    obtain ⟨r, s₃, ran₃, keeps₃, given⟩ := (createStack_spec
      (t := ⟨p, BitVec.ofInt 32 numTasks, func, 0#64, stackSize, 0#64⟩) nonzero bound kernelL1 own₂
      id).done
    refine ⟨r, s₃, ran₃, (keeps₁.trans keeps₂).trans keeps₃, fun u eq => ?_⟩
    obtain ⟨held, tcb, b, q, rfl, notOld⟩ := given u eq
    exact ⟨held, tcb, rfl, rfl, rfl, notOld, null⟩

/-! With room left in the heap a creation succeeds. -/

theorem createPagetable_room (nonzero : heapStart ≠ 0#64)
    (bound : heapStart.toNat + heapSize.toNat < 2 ^ 64) (kernelL1 : Nat → BitVec 64) {room : Nat}
    (own : Own heapStart heapSize old t.tcb 144 s) (left : Room heapStart heapSize s room)
    (enough : 4096 + 24 < room) : ∃ q s', createPagetable kernelL1 t s =
      some (some { t with ttbr0El1 := q }, s') ∧ Room heapStart heapSize s' (room - 4096 - 24) := by
  have page : (roundUp pageSize).toNat = 4096 := by decide
  obtain ⟨q, s₁, ran, got, live, out, size, keeps, left₁⟩ :=
    alloc_room nonzero bound left (n := pageSize) (by decide) (by rw [page]; exact enough)
  rw [page] at size left₁
  have own₁ := own.kept keeps
  have fills := fillsOnly_pagetable (m := s₁.mem) kernelL1 size
  have isLive : q ∈ s₁.live := live ▸ List.mem_cons_self
  have left₂ := fill_room bound left₁ isLive fills
  have own₂ : Own heapStart heapSize old t.tcb 144
      (s₁.withMem (pagetable kernelL1 s₁.mem q)) := by
    obtain ⟨blocks, layout⟩ := own₁.layout
    have filled := (fill_spec bound layout isLive fills).1
    have member : t.tcb ∈ s₁.live.filter (· ≠ q) := by
      refine List.mem_filter.mpr ⟨own₁.live, decide_eq_true ?_⟩
      rintro same
      exact out (same ▸ own.live)
    refine ⟨filled.layout, filled.live _ member, (size_kept filled member).symm ▸ own₁.size, ?_⟩
    rw [withMem_live]
    exact own₁.others
  obtain ⟨_, _, left₃⟩ := put_spec bound 8 136 q own₂ (by omega)
  refine ⟨q, _, ?_, left₃ _ left₂⟩
  have made : vmCreateTaskPagetable kernelL1 s = some (q, s₁.withMem ((List.range 512).foldl
      (fun m i => store 8 m (q + BitVec.ofNat 64 (8 * i)) (kernelL1 i)) (zeroed s₁.mem q 4096))) := by
    rw [vmCreateTaskPagetable, ran, Option.map_some]
    exact congrArg some (if_neg got)
  rw [createPagetable, made, Option.bind_some]
  simp (disch := omega) only [get_put_same]
  exact if_neg got

/-- What a task takes from the room: three blocks and their headers. -/
def taskRoom (stackSize : BitVec 64) : Nat := 144 + (roundUp stackSize).toNat + 4096 + 72

theorem createTask_room (nonzero : heapStart ≠ 0#64)
    (bound : heapStart.toNat + heapSize.toNat < 2 ^ 64) (kernelL1 : Nat → BitVec 64) {room : Nat}
    (left : Room heapStart heapSize s room) (numTasks : Int) (func : Addr) {stackSize : BitVec 64}
    (some : stackSize ≠ 0#64) (enough : taskRoom stackSize < room) :
    ∃ u s', createTask kernelL1 numTasks func stackSize s = Option.some (Option.some u, s') ∧
      Room heapStart heapSize s' (room - taskRoom stackSize) := by
  unfold taskRoom at enough ⊢
  have tcb : (roundUp tcbSize).toNat = 144 := by decide
  obtain ⟨p, s₁, ran, got, live, out, size, keeps, left₁⟩ :=
    alloc_room nonzero bound left (n := tcbSize) (by decide) (by omega)
  rw [tcb] at size left₁
  have own₁ : Own heapStart heapSize [] p 144 s₁ :=
    ⟨keeps.layout, live ▸ List.mem_cons_self, size, List.forall_mem_nil _⟩
  obtain ⟨own₂, _, left₂⟩ := put_spec bound 4 0 (BitVec.ofInt 32 numTasks) own₁ (by omega)
  obtain ⟨b, s₃, ran₃, got₃, live₃, out₃, size₃, keeps₃, left₃⟩ :=
    alloc_room nonzero bound (left₂ _ left₁) some (by omega)
  have own₃ := own₂.kept keeps₃
  obtain ⟨own₄, _, left₄⟩ := put_spec bound 8 120 b own₃ (by omega)
  let t : Task := ⟨p, BitVec.ofInt 32 numTasks, func, b, stackSize, 0#64⟩
  obtain ⟨own₅, _, left₅⟩ := putContext_own (t := t) bound own₄
  obtain ⟨q, s₆, ran₆, left₆⟩ :=
    createPagetable_room nonzero bound kernelL1 own₅ (left₅ _ (left₄ _ left₃)) (by omega)
  refine ⟨{ t with ttbr0El1 := q }, s₆, ?_, ?_⟩
  · rw [createTask, ran, Option.bind_some, if_neg got, createStack, ran₃, Option.bind_some]
    simp (disch := omega) only [get_put_same]
    rw [if_neg got₃]
    exact ran₆
  · have rest : room - (144 + (roundUp stackSize).toNat + 4096 + 72) =
        room - 144 - 24 - (roundUp stackSize).toNat - 24 - 4096 - 24 := by omega
    rw [rest]
    exact left₆

end
end AstralOS.Sched
