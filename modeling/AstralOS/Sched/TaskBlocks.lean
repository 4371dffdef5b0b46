import AstralOS.Memory.KmallocPolicy
import AstralOS.Sched.TaskIdentity

/-! The three blocks `sched_create_task` asks the heap for, and what becomes of them when the
task list is full. -/
namespace AstralOS.Sched
open Foundation Foundation.FirstFit AstralOS.Kmalloc

/-- The addresses of the control block, the stack and the page table, and the blocks of the heap
once they are taken; nothing when one of the three requests fails. -/
def taskBlocks (stackSize : BitVec 64) (blocks : List Block) : Option (Nat × Nat × Nat × List Block) :=
  (allocate 24 144 blocks).bind fun tcb =>
    if stackSize = 0#64 then none
    else (allocate 24 (roundUp stackSize).toNat tcb.2).bind fun stack =>
      (allocate 24 4096 stack.2).map fun table => (tcb.1, stack.1, table.1, table.2)

/-- A task's page table, stack and control block. -/
def Task.blocks (t : Task) : List Addr := [t.ttbr0El1, t.stackBase, t.tcb]

/-- The list has one more entry, and the heap the three blocks of that task. -/
structure TaskAdded (k k' : Kernel) (func : Addr) (stackSize : BitVec 64) (t : Task) : Prop where
  count : k'.sched.numTasks = k.sched.numTasks + 1
  entry : ∃ i : Fin maxTasks, k.sched.numTasks = (i : Nat) ∧
    k'.sched.taskList = Function.update k.sched.taskList i t.tcb
  held : t.Held k'.heap
  func : t.func = func
  stackSize : t.stackSize = stackSize
  distinct : t.blocks.Nodup
  fresh : ∀ p ∈ t.blocks, p ∉ k.heap.live
  live : ∀ p, p ∈ k'.heap.live ↔ p ∈ t.blocks ∨ p ∈ k.heap.live

structure NothingLeft (k k' : Kernel) : Prop where
  count : k'.sched.numTasks = k.sched.numTasks
  list : k'.sched.taskList = k.sched.taskList
  live : ∀ p, p ∈ k'.heap.live ↔ p ∈ k.heap.live

/-- `sched_create_task` adds a task or leaves nothing behind. -/
def AddsOrNothing (k k' : Kernel) (func : Addr) (stackSize : BitVec 64) : Prop :=
  (∃ t, TaskAdded k k' func stackSize t) ∨ NothingLeft k k'

section
variable {heapStart heapSize : BitVec 64} {s s' : System} {old : List Addr} {blocks : List Block}
  {t : Task} {p : Addr} {kernelL1 : Nat → BitVec 64}

theorem put_live {w : Nat} (n k : Nat) (v : BitVec w) : (put n s p k v).live = s.live := rfl

/-- The control block among the blocks of a heap its clients can bring about. -/
structure Staged (heapStart heapSize : BitVec 64) (s : System) (blocks : List Block) (p : Addr) : Prop where
  reachable : Kmalloc.Reachable heapStart heapSize s
  layout : Layout heapStart heapSize s blocks
  live : p ∈ s.live
  size : 144 ≤ payloadSize s.mem p

theorem Staged.put (staged : Staged heapStart heapSize s blocks p)
    (bound : heapStart.toNat + heapSize.toNat < 2 ^ 64) {w : Nat} (len k : Nat) (v : BitVec w)
    (within : k + len ≤ 144) : Staged heapStart heapSize (put len s p k v) blocks p := by
  have fills := fillsOnly_store (v := v) (Nat.le_trans within staged.size)
  exact ⟨staged.reachable.fill bound staged.layout staged.live fills,
    (fill_layout bound staged.layout staged.live fills).1, staged.live,
    (fill_spec bound staged.layout staged.live fills).2.symm ▸ staged.size⟩

theorem Staged.putContext (staged : Staged heapStart heapSize s blocks t.tcb)
    (bound : heapStart.toNat + heapSize.toNat < 2 ^ 64) :
    Staged heapStart heapSize (putContext t s) blocks t.tcb :=
  (((staged.put bound 8 128 _ (by decide)).put bound 8 8 _ (by decide)).put bound 8 16 _ (by decide)).put
    bound 8 104 _ (by decide)

/-- Another block is taken. -/
theorem Staged.kept (staged : Staged heapStart heapSize s blocks p) {blocks' : List Block} {n : BitVec 64}
    {q : Addr} (ran : s.alloc n = some (q, s')) (layout : Layout heapStart heapSize s' blocks')
    (keeps : Kmalloc.Keeps heapStart heapSize s.live s s') : Staged heapStart heapSize s' blocks' p :=
  ⟨staged.reachable.alloc ran, layout, keeps.live p staged.live,
    (size_kept keeps staged.live).symm ▸ staged.size⟩

/-- Another block is filled. -/
theorem Staged.fill (staged : Staged heapStart heapSize s blocks p)
    (bound : heapStart.toNat + heapSize.toNat < 2 ^ 64) {q : Addr} (isLive : q ∈ s.live) (apart : p ≠ q)
    {m : Memory} (fills : FillsOnly s.mem m q) : Staged heapStart heapSize (s.withMem m) blocks p := by
  have keeps := (fill_spec bound staged.layout isLive fills).1
  have member : p ∈ s.live.filter (· ≠ q) := List.mem_filter.mpr ⟨staged.live, decide_eq_true apart⟩
  exact ⟨staged.reachable.fill bound staged.layout isLive fills,
    (fill_layout bound staged.layout isLive fills).1, staged.live, (size_kept keeps member).symm ▸ staged.size⟩

theorem filter_head {a : Addr} {rest : List Addr} (nodup : (a :: rest).Nodup) :
    (a :: rest).filter (· ≠ a) = rest := by
  rw [List.filter_cons_of_neg (by simp)]
  refine List.filter_eq_self.mpr fun x member => decide_eq_true ?_
  rintro rfl
  exact (List.nodup_cons.mp nodup).1 member

theorem createPagetable_granted (nonzero : heapStart ≠ 0#64)
    (bound : heapStart.toNat + heapSize.toNat < 2 ^ 64)
    (staged : Staged heapStart heapSize s blocks t.tcb) {result : Nat × List Block}
    (found : allocate 24 4096 blocks = some result) :
    ∃ s', createPagetable kernelL1 t s =
        some (some { t with ttbr0El1 := BitVec.ofNat 64 result.1 }, s') ∧
      s'.live = BitVec.ofNat 64 result.1 :: s.live ∧ Staged heapStart heapSize s' result.2 t.tcb := by
  obtain ⟨s₁, ran, layout₁, notNull, live, size, keeps⟩ :=
    alloc_granted nonzero bound staged.layout (n := pageSize) (by decide) found
  have staged₁ := staged.kept ran layout₁ keeps
  have fills := fillsOnly_pagetable (m := s₁.mem) kernelL1 size
  have isLive : BitVec.ofNat 64 result.1 ∈ s₁.live := live ▸ List.mem_cons_self
  have apart : t.tcb ≠ BitVec.ofNat 64 result.1 := by
    intro same
    have nodup := layout₁.nodup
    rw [live] at nodup
    exact (List.nodup_cons.mp nodup).1 (same ▸ staged.live)
  have staged₂ := staged₁.fill bound isLive apart fills
  have made : vmCreateTaskPagetable kernelL1 s = some (BitVec.ofNat 64 result.1,
      s₁.withMem (pagetable kernelL1 s₁.mem (BitVec.ofNat 64 result.1))) := by
    rw [vmCreateTaskPagetable, ran, Option.map_some]
    dsimp only
    rw [if_neg notNull]
  have staged₃ := staged₂.put bound 8 136 (BitVec.ofNat 64 result.1) (by decide)
  refine ⟨_, ?_, ?_, staged₃⟩
  · rw [createPagetable, made, Option.bind_some]
    simp (disch := omega) only [get_put_same]
    rw [if_neg notNull]
  · rw [put_live, withMem_live]
    exact live

/-- Without a page table the stack and the control block are given back. -/
theorem createPagetable_refused (nonzero : heapStart ≠ 0#64)
    (bound : heapStart.toNat + heapSize.toNat < 2 ^ 64)
    (staged : Staged heapStart heapSize s blocks t.tcb) (base : get 64 8 s t.tcb 120 = t.stackBase)
    (live : s.live = t.stackBase :: t.tcb :: old) (full : allocate 24 4096 blocks = none) :
    ∃ s', createPagetable kernelL1 t s = some (none, s') ∧ s'.live = old ∧
      Kmalloc.Reachable heapStart heapSize s' := by
  have made : vmCreateTaskPagetable kernelL1 s = some (0#64, s) := by
    rw [vmCreateTaskPagetable, alloc_refused nonzero bound staged.layout (n := pageSize) (.inr full),
      Option.map_some]
    rfl
  have staged₁ := staged.put bound 8 136 0#64 (by decide)
  have nodup := staged₁.layout.nodup
  rw [put_live, live] at nodup
  have stackLive : t.stackBase ∈ (put 8 s t.tcb 136 0#64).live := by
    rw [put_live, live]
    exact List.mem_cons_self
  obtain ⟨s₂, blocks₂, freed₂, layout₂, live₂⟩ := release_layout nonzero bound staged₁.layout stackLive
  rw [put_live, live, filter_head nodup] at live₂
  have tcbLive : t.tcb ∈ s₂.live := by
    rw [live₂]
    exact List.mem_cons_self
  obtain ⟨s₃, blocks₃, freed₃, _, live₃⟩ := release_layout nonzero bound layout₂ tcbLive
  rw [live₂, filter_head (List.nodup_cons.mp nodup).2] at live₃
  refine ⟨s₃, ?_, live₃, (staged₁.reachable.release stackLive freed₂).release tcbLive freed₃⟩
  rw [createPagetable, made, Option.bind_some]
  simp (disch := omega) only [get_put_same, get_put_other, base]
  rw [if_pos trivial, freed₂, Option.bind_some, freed₃]
  rfl

theorem createStack_granted (nonzero : heapStart ≠ 0#64)
    (bound : heapStart.toNat + heapSize.toNat < 2 ^ 64)
    (staged : Staged heapStart heapSize s blocks t.tcb) (some_ : t.stackSize ≠ 0#64)
    {result : Nat × List Block} (found : allocate 24 (roundUp t.stackSize).toNat blocks = some result) :
    ∃ s', createStack kernelL1 t s =
        createPagetable kernelL1 { t with stackBase := BitVec.ofNat 64 result.1 } s' ∧
      s'.live = BitVec.ofNat 64 result.1 :: s.live ∧ Staged heapStart heapSize s' result.2 t.tcb ∧
      get 64 8 s' t.tcb 120 = BitVec.ofNat 64 result.1 := by
  obtain ⟨s₁, ran, layout₁, notNull, live, _, keeps⟩ := alloc_granted nonzero bound staged.layout some_ found
  have staged₂ := (staged.kept ran layout₁ keeps).put bound 8 120 (BitVec.ofNat 64 result.1) (by decide)
  have base : get 64 8 (put 8 s₁ t.tcb 120 (BitVec.ofNat 64 result.1)) t.tcb 120 =
      BitVec.ofNat 64 result.1 := get_put_same (by omega) (by omega)
  refine ⟨putContext { t with stackBase := BitVec.ofNat 64 result.1 }
    (put 8 s₁ t.tcb 120 (BitVec.ofNat 64 result.1)), ?_, live,
    staged₂.putContext (t := { t with stackBase := BitVec.ofNat 64 result.1 }) bound, ?_⟩
  · rw [createStack, ran, Option.bind_some]
    simp only [base]
    rw [if_neg notNull]
  · rw [putContext]
    simp (disch := omega) only [get_put_other, base]

/-- Without a stack the control block is given back. -/
theorem createStack_refused (nonzero : heapStart ≠ 0#64)
    (bound : heapStart.toNat + heapSize.toNat < 2 ^ 64)
    (staged : Staged heapStart heapSize s blocks t.tcb) (live : s.live = t.tcb :: old)
    (full : t.stackSize = 0#64 ∨ allocate 24 (roundUp t.stackSize).toNat blocks = none) :
    ∃ s', createStack kernelL1 t s = some (none, s') ∧ s'.live = old ∧
      Kmalloc.Reachable heapStart heapSize s' := by
  have staged₁ := staged.put bound 8 120 0#64 (by decide)
  obtain ⟨s₂, _, freed, _, live₂⟩ := release_layout nonzero bound staged₁.layout staged₁.live
  have nodup := staged₁.layout.nodup
  rw [put_live, live] at nodup
  rw [put_live, live, filter_head nodup] at live₂
  refine ⟨s₂, ?_, live₂, staged₁.reachable.release staged₁.live freed⟩
  rw [createStack, alloc_refused nonzero bound staged.layout full, Option.bind_some]
  simp (disch := omega) only [get_put_same]
  rw [if_pos trivial, freed]
  rfl

/-- A creation makes a task if and only if its three blocks can be had, and then it holds
exactly these. -/
theorem createTask_blocks (nonzero : heapStart ≠ 0#64)
    (bound : heapStart.toNat + heapSize.toNat < 2 ^ 64) (kernelL1 : Nat → BitVec 64) (reachable : Kmalloc.Reachable heapStart heapSize s)
    (layout : Layout heapStart heapSize s blocks) (numTasks : Int) (func : Addr) (stackSize : BitVec 64) :
    (taskBlocks stackSize blocks = none ∧
      ∃ s', createTask kernelL1 numTasks func stackSize s = some (none, s') ∧ s'.live = s.live ∧
        Kmalloc.Reachable heapStart heapSize s') ∨
    ∃ tcb stack table rest, taskBlocks stackSize blocks = some (tcb, stack, table, rest) ∧
      ∃ s', createTask kernelL1 numTasks func stackSize s = some (some ⟨BitVec.ofNat 64 tcb,
          BitVec.ofInt 32 numTasks, func, BitVec.ofNat 64 stack, stackSize, BitVec.ofNat 64 table⟩, s') ∧
        s'.live = BitVec.ofNat 64 table :: BitVec.ofNat 64 stack :: BitVec.ofNat 64 tcb :: s.live ∧
        Staged heapStart heapSize s' rest (BitVec.ofNat 64 tcb) := by
  have tcbRound : (roundUp tcbSize).toNat = 144 := by decide
  rw [taskBlocks]
  cases found : allocate 24 144 blocks with
  | none =>
      refine .inl ⟨rfl, s, ?_, rfl, reachable⟩
      rw [createTask, alloc_refused nonzero bound layout (.inr (tcbRound ▸ found))]
      rfl
  | some tcb =>
      obtain ⟨s₁, ran, layout₁, notNull, live₁, size, keeps⟩ :=
        alloc_granted nonzero bound layout (n := tcbSize) (by decide) (tcbRound ▸ found)
      rw [tcbRound] at size
      have staged : Staged heapStart heapSize s₁ tcb.2 (BitVec.ofNat 64 tcb.1) :=
        ⟨reachable.alloc ran, layout₁, live₁ ▸ List.mem_cons_self, size⟩
      have staged := staged.put bound 4 0 (BitVec.ofInt 32 numTasks) (by decide)
      have began : createTask kernelL1 numTasks func stackSize s = createStack kernelL1
          ⟨BitVec.ofNat 64 tcb.1, BitVec.ofInt 32 numTasks, func, 0#64, stackSize, 0#64⟩
          (put 4 s₁ (BitVec.ofNat 64 tcb.1) 0 (BitVec.ofInt 32 numTasks)) := by
        rw [createTask, ran, Option.bind_some]
        dsimp only
        rw [if_neg notNull]
      rw [began, Option.bind_some]
      by_cases zero : stackSize = 0#64
      · rw [if_pos zero]
        exact .inl ⟨rfl, createStack_refused nonzero bound staged live₁ (.inl zero)⟩
      rw [if_neg zero]
      set t : Task := ⟨BitVec.ofNat 64 tcb.1, BitVec.ofInt 32 numTasks, func, 0#64, stackSize, 0#64⟩
      cases foundStack : allocate 24 (roundUp stackSize).toNat tcb.2 with
      | none => exact .inl ⟨rfl, createStack_refused nonzero bound staged live₁ (.inr foundStack)⟩
      | some stack =>
          obtain ⟨s₂, went, live₂, staged₂, base⟩ :=
            createStack_granted (t := t) nonzero bound staged zero foundStack
          rw [went, Option.bind_some]
          rw [put_live, live₁] at live₂
          cases foundTable : allocate 24 4096 stack.2 with
          | none =>
              exact .inl ⟨rfl, createPagetable_refused (t := { t with stackBase := BitVec.ofNat 64 stack.1 })
                nonzero bound staged₂ base live₂ foundTable⟩
          | some table =>
              obtain ⟨s₃, made, live₃, staged₃⟩ :=
                createPagetable_granted (t := { t with stackBase := BitVec.ofNat 64 stack.1 }) nonzero bound
                  staged₂ foundTable
              rw [live₂] at live₃
              exact .inr ⟨_, _, _, _, rfl, s₃, made, live₃, staged₃⟩

variable {k : Kernel} {func : Addr} {stackSize : BitVec 64}

theorem addsOrNothing_refused (nonzero : heapStart ≠ 0#64)
    (bound : heapStart.toNat + heapSize.toNat < 2 ^ 64) (kernelL1 : Nat → BitVec 64) (func : Addr)
    (reachable : Kmalloc.Reachable heapStart heapSize k.heap) (layout : Layout heapStart heapSize k.heap blocks)
    (full : taskBlocks stackSize blocks = none) :
    ∃ k', k.create kernelL1 func stackSize = some k' ∧ NothingLeft k k' := by
  rcases createTask_blocks nonzero bound kernelL1 reachable layout k.sched.numTasks func stackSize with
    ⟨_, heap, made, live, _⟩ | ⟨_, _, _, _, found, _⟩
  · refine ⟨{ k with heap := heap }, ?_, rfl, rfl, fun p => ?_⟩
    · rw [Kernel.create, made]
      rfl
    · change p ∈ heap.live ↔ _
      rw [live]
  · rw [full] at found
    cases found

/-- With its three blocks to be had, the task is added unless the list is full. -/
theorem addsOrNothing_granted (nonzero : heapStart ≠ 0#64)
    (bound : heapStart.toNat + heapSize.toNat < 2 ^ 64) (kernelL1 : Nat → BitVec 64) (func : Addr)
    (reachable : Kmalloc.Reachable heapStart heapSize k.heap) (layout : Layout heapStart heapSize k.heap blocks)
    (sound : Sound k.sched) (granted : taskBlocks stackSize blocks ≠ none) :
    ∃ k', k.create kernelL1 func stackSize = some k' ∧
      (k.sched.numTasks < maxTasks → ∃ t, TaskAdded k k' func stackSize t) ∧
      ((maxTasks : Int) ≤ k.sched.numTasks → ¬ AddsOrNothing k k' func stackSize) := by
  rcases createTask_blocks nonzero bound kernelL1 reachable layout k.sched.numTasks func stackSize with
    ⟨full, _⟩ | ⟨tcb, stack, table, rest, _, heap, made, live, staged⟩
  · exact absurd full granted
  set t : Task := ⟨BitVec.ofNat 64 tcb, BitVec.ofInt 32 k.sched.numTasks, func, BitVec.ofNat 64 stack,
    stackSize, BitVec.ofNat 64 table⟩
  obtain ⟨r, heap', made', _, given⟩ :=
    (createTask_spec nonzero bound kernelL1 layout k.sched.numTasks func stackSize).done
  cases made.symm.trans made'
  obtain ⟨held, _⟩ := given t rfl
  obtain ⟨⟨s, c⟩, added⟩ := Option.isSome_iff_exists.mp (addTask_isSome sound t.tcb)
  have live : heap.live = t.blocks ++ k.heap.live := live
  have nodup := staged.layout.nodup
  rw [live] at nodup
  obtain ⟨distinct, _, apart⟩ := List.nodup_append.mp nodup
  have fresh : ∀ p ∈ t.blocks, p ∉ k.heap.live := fun p member old => apart p member p old rfl
  have members : ∀ p, p ∈ heap.live ↔ p ∈ t.blocks ∨ p ∈ k.heap.live := fun p => by
    rw [live, List.mem_append]
  set k' : Kernel := { k with
    heap := heap
    sched := s
    tasks := if k.sched.numTasks ≥ maxTasks then k.tasks else k.tasks ++ [t] }
  have ran : k.create kernelL1 func stackSize = some k' := by
    rw [Kernel.create, made, Option.bind_some]
    dsimp only
    rw [added]
    rfl
  refine ⟨k', ran, ?_⟩
  cases did_addTask sound.unlocked added with
  | full _ same many =>
      refine ⟨fun few => absurd few (Int.not_lt.mpr many), fun _ => ?_⟩
      rintro (⟨u, added⟩ | left)
      · have count : s.numTasks = k.sched.numTasks + 1 := added.count
        rw [same] at count
        omega
      · have member : t.tcb ∈ t.blocks := by simp [Task.blocks]
        exact fresh _ member ((left.live _).mp ((members _).mpr (.inl member)))
  | added _ i place same =>
      have below := i.isLt
      refine ⟨fun _ => ⟨t, ?_, ⟨i, place, ?_⟩, held, rfl, rfl, distinct, fresh, members⟩, fun many => ?_⟩
      · exact congrArg Scheduler.numTasks same
      · exact congrArg Scheduler.taskList same
      · omega
  | alone _ dispatch => exact absurd dispatch (by simp)
  | switched _ _ dispatch => exact absurd dispatch (by simp)

end

section
variable {heapStart heapSize : BitVec 64} {k k' : Kernel} {kernelL1 : Nat → BitVec 64} {func : Addr}
  {stackSize : BitVec 64}

theorem create_reachable (nonzero : heapStart ≠ 0#64) (header : 24 ≤ heapSize.toNat)
    (bound : heapStart.toNat + heapSize.toNat < 2 ^ 64)
    (reachable : Kmalloc.Reachable heapStart heapSize k.heap)
    (ran : k.create kernelL1 func stackSize = some k') : Kmalloc.Reachable heapStart heapSize k'.heap := by
  obtain ⟨blocks, layout⟩ := reachable_layout nonzero header bound reachable
  obtain ⟨r, heap, made, result⟩ := create_cases ran
  have same : k'.heap = heap := by
    obtain ⟨_, rfl⟩ | ⟨_, _, _, _, _, rfl⟩ := result
    · rfl
    · rfl
  rw [same]
  rcases createTask_blocks nonzero bound kernelL1 reachable layout k.sched.numTasks func stackSize with
    ⟨_, _, made', _, later⟩ | ⟨_, _, _, _, _, _, made', _, staged⟩
  · cases made.symm.trans made'
    exact later
  · cases made.symm.trans made'
    exact staged.reachable

/-- With room for them that many tasks are made one after another. -/
theorem create_run (nonzero : heapStart ≠ 0#64) (header : 24 ≤ heapSize.toNat)
    (bound : heapStart.toNat + heapSize.toNat < 2 ^ 64) (kernelL1 : Nat → BitVec 64) (func : Addr)
    (some_ : stackSize ≠ 0#64) (n : Nat) {k : Kernel} {room : Nat} (listed : k.Listed)
    (intact : k.Intact heapStart heapSize) (reachable : Kmalloc.Reachable heapStart heapSize k.heap)
    (left : Room heapStart heapSize k.heap room) (few : k.sched.numTasks + n ≤ maxTasks)
    (enough : n * taskRoom stackSize < room) :
    ∃ k', (List.replicate n (Call.createTask func stackSize)).foldl (step kernelL1) (some k) = some k' ∧
      k'.Listed ∧ Kmalloc.Reachable heapStart heapSize k'.heap ∧
      Room heapStart heapSize k'.heap (room - n * taskRoom stackSize) ∧
      k'.sched.numTasks = k.sched.numTasks + n := by
  induction n generalizing k room with
  | zero =>
      rw [Nat.zero_mul, Nat.sub_zero]
      exact ⟨k, rfl, listed, reachable, left, (Int.add_zero _).symm⟩
  | succ n ih =>
      rw [Nat.succ_mul] at enough
      obtain ⟨t, k₁, ran, listed₁, intact₁, left₁, tasks, _⟩ :=
        create_adds nonzero bound kernelL1 listed intact left (by omega) func some_ (by omega)
      have count : k₁.sched.numTasks = k.sched.numTasks + 1 := by
        rw [← listed₁.count, ← listed.count, tasks, List.length_append]
        rfl
      obtain ⟨k', rest, listed', reachable', left', count'⟩ := ih listed₁ intact₁
        (create_reachable nonzero header bound reachable ran) left₁ (by omega) (by omega)
      refine ⟨k', ?_, listed', reachable', ?_, by omega⟩
      · rw [List.replicate_succ, List.foldl_cons]
        change List.foldl _ (k.create kernelL1 func stackSize) _ = _
        rw [ran]
        exact rest
      · rw [Nat.succ_mul, Nat.add_comm, ← Nat.sub_sub]
        exact left'

end

/-- In any heap and with any list of tasks `sched_create_task` adds a task with its three blocks or
changes neither, if and only if the list has room or one of the three requests fails. -/
theorem create_adds_or_nothing_iff {heapStart heapSize : BitVec 64} (nonzero : heapStart ≠ 0#64)
    (header : 24 ≤ heapSize.toNat) (bound : heapStart.toNat + heapSize.toNat < 2 ^ 64)
    (kernelL1 : Nat → BitVec 64) {k : Kernel} (reachable : Kmalloc.Reachable heapStart heapSize k.heap)
    (sound : Sound k.sched) (func : Addr) (stackSize : BitVec 64) :
    ∃ k', k.create kernelL1 func stackSize = some k' ∧ (AddsOrNothing k k' func stackSize ↔
      k.sched.numTasks < maxTasks ∨
        ∀ blocks, blockList k.heap.heap = some blocks → taskBlocks stackSize blocks = none) := by
  obtain ⟨blocks, listed⟩ := reachable_listed nonzero header bound reachable
  have list := listed.blockList nonzero bound
  by_cases granted : taskBlocks stackSize blocks = none
  · obtain ⟨k', ran, nothing⟩ := addsOrNothing_refused nonzero bound kernelL1 func reachable
      listed.toLayout granted
    refine ⟨k', ran, iff_of_true (.inr nothing) (.inr fun blocks' same => ?_)⟩
    rw [list] at same
    exact Option.some.inj same ▸ granted
  · obtain ⟨k', ran, few, many⟩ :=
      addsOrNothing_granted nonzero bound kernelL1 func reachable listed.toLayout sound granted
    refine ⟨k', ran, ?_⟩
    by_cases room : k.sched.numTasks < maxTasks
    · exact iff_of_true (.inl (few room)) (.inl room)
    · refine iff_of_false (many (Int.not_lt.mp room)) ?_
      rintro (room' | none_)
      · exact room room'
      · exact granted (none_ blocks list)

/-- The kernel before it makes its first task. -/
def bootKernel : Kernel := ⟨bootHeap, schedInit boot, 0#64, [], [], []⟩

theorem bootKernel_listed : bootKernel.Listed := ⟨sound_init, rfl, fun i t found => by cases found⟩

theorem bootKernel_layout : Layout 0x80000000#64 0x10000000#64 bootKernel.heap
    [⟨0x80000000, 0x0fffffe8, true⟩] := layout_init (by decide) (by decide) _

theorem bootKernel_intact : bootKernel.Intact 0x80000000#64 0x10000000#64 :=
  ⟨⟨_, bootKernel_layout⟩, List.forall_mem_nil _⟩

theorem bootKernel_reachable : Kmalloc.Reachable 0x80000000#64 0x10000000#64 bootKernel.heap :=
  .init fun _ => 0

theorem create_adds_or_nothing_iff_boot : ∃ k', bootKernel.create (fun _ => 0#64) 0x40080000#64 4096#64 = some k' ∧
    (AddsOrNothing bootKernel k' 0x40080000#64 4096#64 ↔ bootKernel.sched.numTasks < maxTasks ∨
      ∀ blocks, blockList bootKernel.heap.heap = some blocks → taskBlocks 4096#64 blocks = none) :=
  create_adds_or_nothing_iff (by decide) (by decide) (by decide) (fun _ => 0#64) bootKernel_reachable
    bootKernel_listed.sound 0x40080000#64 4096#64

/-- The ninth task is not listed, and its three blocks stay allocated. -/
theorem ninth_task_leaks : ∃ k k', (List.replicate 8 (Call.createTask 0x40080000#64 4096#64)).foldl
      (step fun _ => 0#64) (start bootHeap) = some k ∧
    k.create (fun _ => 0#64) 0x40080000#64 4096#64 = some k' ∧
    ¬ AddsOrNothing k k' 0x40080000#64 4096#64 := by
  have some_ : (4096#64 : BitVec 64) ≠ 0#64 := by decide
  obtain ⟨k, ran, listed, reachable, left, count⟩ := create_run (by decide) (by decide) (by decide)
    (fun _ => 0#64) 0x40080000#64 some_ 8 bootKernel_listed bootKernel_intact bootKernel_reachable bootHeap_room
    (by decide) (by decide)
  obtain ⟨used, a, size, layout, _⟩ := left.last
  have granted : taskBlocks 4096#64 (used ++ [⟨a, size, true⟩]) ≠ none := by
    intro full
    obtain ⟨u, heap, made, _⟩ := createTask_room (by decide) (by decide) (fun _ => 0#64) left
      k.sched.numTasks 0x40080000#64 some_ (by decide)
    rcases createTask_blocks (by decide) (by decide) (fun _ => 0#64) reachable layout k.sched.numTasks
      0x40080000#64 4096#64 with ⟨_, heap', made', _⟩ | ⟨_, _, _, _, found, _⟩
    · cases made.symm.trans made'
    · rw [full] at found
      cases found
  obtain ⟨k', created, _, many⟩ := addsOrNothing_granted (by decide) (by decide) (fun _ => 0#64) 0x40080000#64
    reachable layout listed.sound granted
  refine ⟨k, k', ran, created, many ?_⟩
  rw [count]
  decide

end AstralOS.Sched
