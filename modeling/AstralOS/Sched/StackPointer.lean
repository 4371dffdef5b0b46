import AstralOS.Sched.TaskBlocks

/-! Where the initial stack pointer of a task lies in its stack. -/
namespace AstralOS.Sched
open Foundation Foundation.FirstFit AstralOS.Kmalloc

/-- `context.sp` is a multiple of 16 and lies in the stack block, its end included. -/
structure SpUsable (s : System) (tcb : Addr) : Prop where
  aligned : (get 64 8 s tcb 8).toNat % 16 = 0
  low : get 64 8 s tcb 120 ≤ get 64 8 s tcb 8
  high : (get 64 8 s tcb 8).toNat ≤ (get 64 8 s tcb 120).toNat + payloadSize s.mem (get 64 8 s tcb 120)

/-- The block the stack comes from: the first one that suits, once the control block is taken. -/
structure StackBlock (stackSize : BitVec 64) (blocks : List Block) (b : Block) : Prop where
  first : ∃ tcb, allocate 24 144 blocks = some tcb ∧ b ∈ tcb.2 ∧ Suits (roundUp stackSize).toNat b ∧
    ∀ c ∈ tcb.2, Suits (roundUp stackSize).toNat c → b.addr ≤ c.addr

/-- The size holds the first frame without wrapping, and with the header of its block it makes up
a multiple of 16. -/
structure StackFits (stackSize : BitVec 64) (header : Nat) : Prop where
  low : 16 ≤ stackSize.toNat
  high : stackSize.toNat + 7 < 2 ^ 64
  multiple : stackSize.toNat % 8 = 0
  phase : stackSize.toNat % 16 = 0 ↔ header % 16 = 8

section
variable {heapStart heapSize : BitVec 64} {s : System} {blocks rest : List Block} {stackSize : BitVec 64}
  {tcb stack table a e : Nat} {b c : Block}

theorem StackBlock.unique (first : StackBlock stackSize blocks b) (other : StackBlock stackSize blocks c) :
    b.addr = c.addr := by
  obtain ⟨_, found, member, suits, low⟩ := first
  obtain ⟨_, found', member', suits', low'⟩ := other
  cases found.symm.trans found'
  exact Nat.le_antisymm (low c member' suits') (low' b member suits)

/-- The stack lies behind the header of its block, which is as large as was asked for. -/
theorem taskBlocks_stack (tiles : Tiles 24 a blocks e) (aligned : Aligned 8 blocks)
    (found : taskBlocks stackSize blocks = some (tcb, stack, table, rest)) :
    ∃ b taken, StackBlock stackSize blocks b ∧ stack = b.addr + 24 ∧ b.addr % 8 = a % 8 ∧
      Held rest taken ∧ taken.addr = b.addr ∧ (roundUp stackSize).toNat ≤ taken.size := by
  obtain ⟨first, foundTcb, found⟩ := Option.bind_eq_some_iff.mp found
  by_cases zero : stackSize = 0#64
  · rw [if_pos zero] at found
    cases found
  rw [if_neg zero] at found
  obtain ⟨second, foundStack, found⟩ := Option.bind_eq_some_iff.mp found
  obtain ⟨third, foundTable, eq⟩ := Option.map_eq_some_iff.mp found
  cases eq
  have tiles₁ := tiles_allocate tiles foundTcb
  have aligned₁ := (aligned_allocate aligned (by decide) (by decide) foundTcb).1
  obtain ⟨b, member, suits, address, low⟩ := allocate_first tiles₁ foundStack
  obtain ⟨taken, address', enough, _, _, held⟩ := held_allocate tiles₁ (by decide) foundStack
  obtain ⟨_, _, _, _, _, held'⟩ := held_allocate (tiles_allocate tiles₁ foundStack) (by decide) foundTable
  exact ⟨b, taken, ⟨_, foundTcb, member, suits, low⟩, address, tiles₁.addr_mod (by decide) aligned₁ member,
    (held' taken).mpr (.inr ((held taken).mpr (.inl rfl))), by omega, enough⟩

/-- `stack_base + stack_size - 16` for a stack of `size` bytes behind the header. -/
theorem sp_iff {base : BitVec 64} {header size : Nat} (place : base.toNat = header + 24)
    (inside : header + 24 + size < 2 ^ 64) (enough : (roundUp stackSize).toNat ≤ size)
    (aligned : header % 8 = 0) :
    ((base + stackSize - 16#64).toNat % 16 = 0 ∧ base ≤ base + stackSize - 16#64 ∧
      (base + stackSize - 16#64).toNat ≤ base.toNat + size) ↔ StackFits stackSize header := by
  have below := stackSize.isLt
  have sum : (base + stackSize - 16#64).toNat = (header + 24 + stackSize.toNat + (2 ^ 64 - 16)) % 2 ^ 64 := by
    rw [BitVec.toNat_sub, BitVec.toNat_add, place, BitVec.toNat_ofNat]
    omega
  rw [roundUp_toNat] at enough
  rw [BitVec.le_def, sum, place]
  constructor
  · rintro ⟨multiple, low, high⟩
    exact ⟨by omega, by omega, by omega, by omega⟩
  · rintro ⟨low, high, multiple, phase⟩
    omega

variable {k k' : Kernel} {kernelL1 : Nat → BitVec 64} {func : Addr}

/-- A creation that adds a task took its three blocks, and the new entry is its control block. -/
theorem create_added (nonzero : heapStart ≠ 0#64) (bound : heapStart.toNat + heapSize.toNat < 2 ^ 64)
    (reachable : Kmalloc.Reachable heapStart heapSize k.heap) (layout : Layout heapStart heapSize k.heap blocks)
    (sound : Sound k.sched) (ran : k.create kernelL1 func stackSize = some k')
    (added : k'.sched.numTasks = k.sched.numTasks + 1) :
    ∃ (t : Task) (tcb stack table : Nat) (rest : List Block),
      taskBlocks stackSize blocks = some (tcb, stack, table, rest) ∧ t.stackBase = BitVec.ofNat 64 stack ∧ t.stackSize = stackSize ∧ t.Held k'.heap ∧
      Layout heapStart heapSize k'.heap rest ∧
      ∀ i : Fin maxTasks, k.sched.numTasks = (i : Nat) → k'.sched.taskList i = t.tcb := by
  obtain ⟨r, heap, made, ⟨_, rfl⟩ | ⟨t, s, c, rfl, listed, rfl⟩⟩ := create_cases ran
  · have added : k.sched.numTasks = k.sched.numTasks + 1 := added
    omega
  · obtain ⟨_, _, made', _, given⟩ :=
      (createTask_spec nonzero bound kernelL1 layout k.sched.numTasks func stackSize).done
    cases made.symm.trans made'
    obtain ⟨held, _⟩ := given t rfl
    rcases createTask_blocks nonzero bound kernelL1 reachable layout k.sched.numTasks func stackSize with
      ⟨_, _, none_, _⟩ | ⟨tcb, stack, table, rest, found, _, some_, _, staged⟩
    · cases made.symm.trans none_
    cases made.symm.trans some_
    refine ⟨_, tcb, stack, table, rest, found, rfl, rfl, held, staged.layout, fun i place => ?_⟩
    have added : s.numTasks = k.sched.numTasks + 1 := added
    cases did_addTask sound.unlocked listed with
    | full _ same many =>
        rw [same] at added
        omega
    | added _ j place' same =>
        have slot : i = j := Fin.ext (Int.ofNat_inj.mp (place.symm.trans place'))
        rw [same, slot]
        exact Function.update_self _ _ _
    | alone _ dispatch => exact absurd dispatch (by simp)
    | switched _ _ dispatch => exact absurd dispatch (by simp)

end

/-- For every heap and stack size with which a task is added, its stack pointer is aligned and in
its stack block, if and only if the size is at least 16 and does not wrap when it is rounded, and is
a multiple of 8 that is one of 16 just when the block's header is at an odd multiple of 8. -/
theorem stack_pointer_usable_iff {heapStart heapSize : BitVec 64} (nonzero : heapStart ≠ 0#64)
    (header : 24 ≤ heapSize.toNat) (bound : heapStart.toNat + heapSize.toNat < 2 ^ 64)
    (aligned : heapStart.toNat % 16 = 0) (kernelL1 : Nat → BitVec 64) {k k' : Kernel}
    (reachable : Kmalloc.Reachable heapStart heapSize k.heap) (sound : Sound k.sched) (func : Addr)
    (stackSize : BitVec 64) (ran : k.create kernelL1 func stackSize = some k')
    (added : k'.sched.numTasks = k.sched.numTasks + 1) {i : Fin maxTasks}
    (last : k.sched.numTasks = (i : Nat)) :
    SpUsable k'.heap (k'.sched.taskList i) ↔ ∃ blocks b, blockList k.heap.heap = some blocks ∧
      StackBlock stackSize blocks b ∧ StackFits stackSize b.addr := by
  obtain ⟨blocks, listed⟩ := reachable_listed nonzero header bound reachable
  obtain ⟨t, tcb, stack, table, rest, found, base, size, held, layout, entry⟩ :=
    create_added nonzero bound reachable listed.toLayout sound ran added
  obtain ⟨b, taken, first, rfl, phase, heldB, address, enough⟩ :=
    taskBlocks_stack listed.tiles listed.aligned found
  have inside := layout.tiles.inside heldB.1
  have place : (BitVec.ofNat 64 (b.addr + 24)).toNat = b.addr + 24 := by
    rw [BitVec.toNat_ofNat, Nat.mod_eq_of_lt (by omega)]
  have payload : payloadSize k'.heap.mem (BitVec.ofNat 64 (b.addr + 24)) = taken.size := by
    rw [← address]
    exact payloadSize_eq layout.linked heldB.1 (by omega)
  have usable : SpUsable k'.heap t.tcb ↔ StackFits stackSize b.addr := by
    rw [← sp_iff place (by omega) enough (by omega)]
    have sp := held.sp
    have stackBase := held.stackBase
    rw [base] at sp stackBase
    rw [size] at sp
    constructor
    · rintro ⟨multiple, low, high⟩
      rw [sp] at multiple low high
      rw [stackBase] at low high
      rw [payload] at high
      exact ⟨multiple, low, high⟩
    · rintro ⟨multiple, low, high⟩
      refine ⟨?_, ?_, ?_⟩
      · rw [sp]
        exact multiple
      · rw [sp, stackBase]
        exact low
      · rw [sp, stackBase, payload]
        exact high
  rw [entry i last, usable]
  constructor
  · intro fits
    exact ⟨blocks, b, listed.blockList nonzero bound, first, fits⟩
  · rintro ⟨blocks', b', list, first', fits⟩
    cases (listed.blockList nonzero bound).symm.trans list
    rw [first.unique first']
    exact fits

/-- The first of the kernel's two tasks. -/
theorem first_created : ∃ k, bootKernel.create (fun _ => 0#64) 0x40080000#64 4096#64 = some k ∧
    k.Listed ∧ k.Intact 0x80000000#64 0x10000000#64 ∧ k.sched.numTasks = 1 ∧
    Room 0x80000000#64 0x10000000#64 k.heap (0x10000000 - 24 - taskRoom 4096#64) := by
  have some_ : (4096#64 : BitVec 64) ≠ 0#64 := by decide
  obtain ⟨t, k, ran, listed, intact, left, tasks, _⟩ := create_adds (by decide) (by decide) (fun _ => 0#64)
    bootKernel_listed bootKernel_intact bootHeap_room (by decide) 0x40080000#64 some_ (by decide)
  refine ⟨k, ran, listed, intact, ?_, left⟩
  rw [← listed.count, tasks]
  rfl

theorem stack_pointer_usable_iff_first : ∃ k, bootKernel.create (fun _ => 0#64) 0x40080000#64 4096#64 = some k ∧
    (SpUsable k.heap (k.sched.taskList ⟨0, by decide⟩) ↔ ∃ blocks b,
      blockList bootKernel.heap.heap = some blocks ∧ StackBlock 4096#64 blocks b ∧ StackFits 4096#64 b.addr) := by
  obtain ⟨k, ran, _, _, count, _⟩ := first_created
  exact ⟨k, ran, stack_pointer_usable_iff (by decide) (by decide) (by decide) (by decide) (fun _ => 0#64)
    bootKernel_reachable bootKernel_listed.sound 0x40080000#64 4096#64 ran count rfl⟩

/-- The stack pointer of the second one is not a multiple of 16. -/
theorem second_stack_pointer_misaligned : ∃ k k',
    bootKernel.create (fun _ => 0#64) 0x40080000#64 4096#64 = some k ∧
    k.create (fun _ => 0#64) 0x40081000#64 4096#64 = some k' ∧ k'.sched.numTasks = 2 ∧
    ¬ SpUsable k'.heap (k'.sched.taskList ⟨1, by decide⟩) := by
  have some_ : (4096#64 : BitVec 64) ≠ 0#64 := by decide
  obtain ⟨k, ran, listed, intact, one, left⟩ := first_created
  obtain ⟨t, k', ran', listed', _, _, tasks, _⟩ := create_adds (by decide) (by decide) (fun _ => 0#64)
    listed intact left (by rw [one]; decide) 0x40081000#64 some_ (by decide)
  have two : k'.sched.numTasks = k.sched.numTasks + 1 := by
    rw [← listed'.count, ← listed.count, tasks, List.length_append]
    rfl
  refine ⟨k, k', ran, ran', two.trans (by rw [one]; rfl), fun usable => ?_⟩
  obtain ⟨_, _, _, _, rest, found, _, _, _, layout, _⟩ := create_added (by decide) (by decide)
    bootKernel_reachable bootKernel_layout bootKernel_listed.sound ran one
  cases (show taskBlocks 4096#64 [⟨0x80000000, 0x0fffffe8, true⟩] = some (0x80000018, 0x800000c0, 0x800010d8,
    [⟨0x80000000, 144, false⟩, ⟨0x800000a8, 4096, false⟩, ⟨0x800010c0, 4096, false⟩,
      ⟨0x800020d8, 0x0fffdf10, true⟩]) from rfl).symm.trans found
  have reachable := create_reachable (by decide) (by decide) (by decide) bootKernel_reachable ran
  obtain ⟨t, tcb, stack, table, rest', found', base, size, held, _, entry⟩ := create_added (by decide)
    (by decide) reachable layout listed.sound ran' two
  have place : stack = 0x80002198 := by
    have same := congrArg (Option.map fun r => r.2.1) found'
    exact (Option.some.inj same).symm
  have aligned := usable.aligned
  rw [entry ⟨1, by decide⟩ one, held.sp, base, size, place] at aligned
  exact absurd aligned (by decide)

end AstralOS.Sched
