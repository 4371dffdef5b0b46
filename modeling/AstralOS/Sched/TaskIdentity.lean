import AstralOS.Foundation.Runs
import AstralOS.Sched.Creation
import AstralOS.Sched.RoundRobin

/-! What `context_switch` does to the control blocks of tasks: its save area is 272 bytes,
the context it is given 104. -/
namespace AstralOS.Sched
open Foundation Foundation.Aarch64 Foundation.FirstFit AstralOS.Kmalloc AstralOS.Cpu

/-- The control blocks behind the list hold the values given at creation. -/
def Kernel.IdsKept (k : Kernel) : Prop :=
  ∀ i : Fin maxTasks, (i : Nat) < k.sched.numTasks → ∃ t, k.tasks[i.val]? = some t ∧
    k.sched.taskList i = t.tcb ∧ get 32 4 k.heap t.tcb 0 = t.id ∧
    get 64 8 k.heap t.tcb 120 = t.stackBase ∧ get 64 8 k.heap t.tcb 128 = t.stackSize ∧
    get 64 8 k.heap t.tcb 136 = t.ttbr0El1

/-- Every byte a switch stored to is one of the old task's context. -/
def Kernel.SavesInside (k : Kernel) : Prop :=
  ∀ save ∈ k.saves, ∀ range ∈ save.2, ∀ i < range.2,
    (range.1 + BitVec.ofNat 64 i - save.1).toNat < contextSize

def IdentityKept (k : Option Kernel) : Prop := ∀ s, k = some s → s.IdsKept ∧ s.SavesInside

/-- The call comes to a `context_switch`, from a null task too when it is `sched_yield`. -/
def Call.Switches (s : Scheduler) : Call → Prop
  | .createTask _ _ => False
  | .schedule _ => s.currentTask ≠ 0#64 ∧ 1 < s.numTasks
  | .yield _ => 1 < s.numTasks

def NoSwitch (k : Option Kernel) (c : Call) : Prop := ∀ s, k = some s → ¬ c.Switches s.sched

/-- The list and the record of its tasks go together. -/
structure Kernel.Listed (k : Kernel) : Prop where
  sound : Sound k.sched
  count : (k.tasks.length : Int) = k.sched.numTasks
  entry : ∀ (i : Fin maxTasks) t, k.tasks[i.val]? = some t → k.sched.taskList i = t.tcb

/-- The heap is in order and holds the control blocks. -/
structure Kernel.Intact (heapStart heapSize : BitVec 64) (k : Kernel) : Prop where
  layout : ∃ blocks, Layout heapStart heapSize k.heap blocks
  held : ∀ t ∈ k.tasks, t.Held k.heap ∧ t.tcb ≠ 0#64

section
variable {heapStart heapSize : BitVec 64} {k k' : Kernel} {kernelL1 : Nat → BitVec 64}

theorem Kernel.Listed.find (listed : k.Listed) {i : Fin maxTasks}
    (below : (i : Nat) < k.sched.numTasks) : ∃ t, k.tasks[i.val]? = some t ∧ t ∈ k.tasks ∧
      k.sched.taskList i = t.tcb := by
  have count := listed.count
  have inside : i.val < k.tasks.length := by omega
  have found := List.getElem?_eq_getElem inside
  exact ⟨_, found, List.getElem_mem inside, listed.entry i _ found⟩

theorem Kernel.Intact.idsKept (intact : k.Intact heapStart heapSize) (listed : k.Listed) :
    k.IdsKept := by
  intro i below
  obtain ⟨t, found, member, entry⟩ := listed.find below
  obtain ⟨held, _⟩ := intact.held t member
  exact ⟨t, found, entry, held.id, held.stackBase, held.stackSize, held.ttbr0El1⟩

theorem Kernel.Listed.noNull (listed : k.Listed) (notNull : ∀ t ∈ k.tasks, t.tcb ≠ 0#64) :
    NoNull k.sched := by
  intro i below
  obtain ⟨t, _, member, entry⟩ := listed.find below
  exact entry ▸ notNull t member

theorem Kernel.Intact.noNull (intact : k.Intact heapStart heapSize) (listed : k.Listed) :
    NoNull k.sched :=
  listed.noNull fun t member => (intact.held t member).2

/-- A creation that ends is a failed one or adds its task at the end of the list. -/
theorem create_cases {func : Addr} {stackSize : BitVec 64}
    (ran : k.create kernelL1 func stackSize = some k') :
    ∃ r heap, createTask kernelL1 k.sched.numTasks func stackSize k.heap = some (r, heap) ∧
      ((r = none ∧ k' = { k with heap := heap }) ∨
        ∃ t s c, r = some t ∧ schedAddTask t.tcb k.sched = some (s, c) ∧ k' = { k with
          heap := heap
          sched := s
          tasks := if k.sched.numTasks ≥ maxTasks then k.tasks else k.tasks ++ [t] }) := by
  obtain ⟨⟨r, heap⟩, made, rest⟩ := Option.bind_eq_some_iff.mp ran
  refine ⟨r, heap, made, ?_⟩
  cases r with
  | none =>
      cases rest
      exact .inl ⟨rfl, rfl⟩
  | some t =>
      obtain ⟨⟨s, c⟩, added, eq⟩ := Option.map_eq_some_iff.mp rest
      cases eq
      exact .inr ⟨t, s, c, rfl, added, rfl⟩

theorem listed_create {func : Addr} {stackSize : BitVec 64} (listed : k.Listed)
    (ran : k.create kernelL1 func stackSize = some k') : k'.Listed := by
  obtain ⟨r, heap, made, ⟨rfl, rfl⟩ | ⟨t, s, c, rfl, added, rfl⟩⟩ := create_cases ran
  · exact ⟨listed.sound, listed.count, listed.entry⟩
  · have did := did_addTask listed.sound.unlocked added
    have sound := did.sound listed.sound
    have count := listed.count
    cases did with
    | full _ same many =>
        subst same
        refine ⟨sound, ?_, fun i u found => ?_⟩
        · rw [if_pos many]
          exact count
        · rw [if_pos many] at found
          exact listed.entry i u found
    | alone _ dispatch => exact absurd dispatch (by simp)
    | switched _ _ dispatch => exact absurd dispatch (by simp)
    | added _ j place same =>
        subst same
        have inside := j.isLt
        have few : ¬ k.sched.numTasks ≥ maxTasks := by omega
        refine ⟨sound, ?_, fun i u found => ?_⟩
        · rw [if_neg few, List.length_append, List.length_singleton]
          change ((k.tasks.length + 1 : Nat) : Int) = k.sched.numTasks + 1
          omega
        · rw [if_neg few] at found
          change Function.update k.sched.taskList j t.tcb i = u.tcb
          by_cases last : i = j
          · have length : j.val = k.tasks.length := by omega
            rw [last, length, List.getElem?_concat_length] at found
            cases found
            rw [last, Function.update_self]
          · have earlier : i.val < k.tasks.length := by
              have := (List.getElem?_eq_some_iff.mp found).1
              have other : i.val ≠ j.val := fun eq => last (Fin.ext eq)
              rw [List.length_append, List.length_singleton] at this
              omega
            rw [List.getElem?_append_left earlier] at found
            rw [Function.update_of_ne last]
            exact listed.entry i u found

/-- A creation keeps the blocks of the tasks there are. -/
theorem intact_create {func : Addr} {stackSize : BitVec 64} (nonzero : heapStart ≠ 0#64)
    (bound : heapStart.toNat + heapSize.toNat < 2 ^ 64) (intact : k.Intact heapStart heapSize)
    (ran : k.create kernelL1 func stackSize = some k') : k'.Intact heapStart heapSize := by
  obtain ⟨blocks, layout⟩ := intact.layout
  obtain ⟨r, heap, made, keeps, given⟩ :=
    (createTask_spec nonzero bound kernelL1 layout k.sched.numTasks func stackSize).done
  obtain ⟨r', heap', made', cases⟩ := create_cases ran
  cases made.symm.trans made'
  have old : ∀ t ∈ k.tasks, t.Held heap ∧ t.tcb ≠ 0#64 := fun t member =>
    let ⟨held, notNull⟩ := intact.held t member
    ⟨held.kept keeps held.live held.stack, notNull⟩
  obtain ⟨rfl, rfl⟩ | ⟨t, s, c, rfl, added, rfl⟩ := cases
  · exact ⟨keeps.layout, old⟩
  · obtain ⟨held, _, _, _, _, _, notNull⟩ := given t rfl
    refine ⟨keeps.layout, fun u member => ?_⟩
    change u ∈ (if k.sched.numTasks ≥ maxTasks then k.tasks else k.tasks ++ [t]) at member
    by_cases many : k.sched.numTasks ≥ maxTasks
    · rw [if_pos many] at member
      exact old u member
    · rw [if_neg many] at member
      rcases List.mem_append.mp member with before | new
      · exact old u before
      · rw [List.mem_singleton.mp new]
        exact ⟨held, notNull⟩

theorem leave_sched (k : Kernel) (regs : Regs) (s : Scheduler) (c : Control) :
    (k.leave regs s c).sched = s ∧ (k.leave regs s c).tasks = k.tasks := by
  cases c <;> exact ⟨rfl, rfl⟩

theorem Did.list {s s' : Scheduler} {op : Op} {c : Control} (did : Did s s' op c)
    (dispatch : op = .yield ∨ op = .schedule) :
    s'.taskList = s.taskList ∧ s'.numTasks = s.numTasks := by
  cases did with
  | full task h many => exact h ▸ ⟨rfl, rfl⟩
  | halted h none => exact h ▸ ⟨rfl, rfl⟩
  | alone op dispatch h few => exact h ▸ ⟨rfl, rfl⟩
  | branched i first some idle task h => exact h ▸ ⟨rfl, rfl⟩
  | switched op i dispatch many turn task h => exact h ▸ ⟨rfl, rfl⟩
  | added task i place h => exact absurd dispatch (by simp)

theorem listed_leave {op : Op} {s : Scheduler} {c : Control} (listed : k.Listed)
    (did : Did k.sched s op c) (dispatch : op = .yield ∨ op = .schedule) (regs : Regs) :
    (k.leave regs s c).Listed := by
  obtain ⟨sched, tasks⟩ := leave_sched k regs s c
  obtain ⟨list, count⟩ := did.list dispatch
  refine ⟨by rw [sched]; exact did.sound listed.sound, ?_, fun i t found => ?_⟩
  · rw [sched, tasks, count]
    exact listed.count
  · rw [tasks] at found
    rw [sched, list]
    exact listed.entry i t found

/-- A call is a creation or one of the two dispatching functions. -/
theorem call_cases {c : Call} (ran : k.call kernelL1 c = some k') :
    (∃ func stackSize, c = .createTask func stackSize ∧ k.create kernelL1 func stackSize = some k') ∨
    ∃ op regs s d, (op = .yield ∨ op = .schedule) ∧ Sched.call op k.sched = some (s, d) ∧
      k' = k.leave regs s d ∧
      (c.Switches k.sched ↔ (op = .yield ∨ k.sched.currentTask ≠ 0#64) ∧ 1 < k.sched.numTasks) := by
  cases c with
  | createTask func stackSize => exact .inl ⟨func, stackSize, rfl, ran⟩
  | schedule regs =>
      obtain ⟨⟨s, d⟩, called, eq⟩ := Option.map_eq_some_iff.mp ran
      exact .inr ⟨.schedule, regs, s, d, .inr rfl, called, eq.symm, by simp [Call.Switches]⟩
  | yield regs =>
      obtain ⟨⟨s, d⟩, called, eq⟩ := Option.map_eq_some_iff.mp ran
      exact .inr ⟨.yield, regs, s, d, .inl rfl, called, eq.symm, by simp [Call.Switches]⟩

theorem listed_call {c : Call} (listed : k.Listed) (ran : k.call kernelL1 c = some k') :
    k'.Listed := by
  obtain ⟨func, stackSize, rfl, made⟩ | ⟨op, regs, s, d, dispatch, called, rfl, _⟩ := call_cases ran
  · exact listed_create listed made
  · exact listed_leave listed (call_did listed.sound called) dispatch regs

/-- Without a switch only creations touch the heap. -/
theorem leave_heap (k : Kernel) (regs : Regs) (s : Scheduler) {d : Control}
    (stays : ∀ old new, d ≠ .switches old new) :
    (k.leave regs s d).heap = k.heap ∧ (k.leave regs s d).saves = k.saves := by
  cases d with
  | switches old new => exact absurd rfl (stays old new)
  | returns => exact ⟨rfl, rfl⟩
  | halts => exact ⟨rfl, rfl⟩
  | branches task => exact ⟨rfl, rfl⟩
  | yields => exact ⟨rfl, rfl⟩

theorem Did.stays {s s' : Scheduler} {op : Op} {d : Control} (did : Did s s' op d)
    (none : ¬ ((op = .yield ∨ s.currentTask ≠ 0#64) ∧ 1 < s.numTasks)) (old new : Addr) :
    d ≠ .switches old new := by
  rintro rfl
  cases did with
  | switched op i dispatch many => exact none ⟨dispatch.imp_right And.right, many⟩

theorem intact_call {c : Call} (nonzero : heapStart ≠ 0#64)
    (bound : heapStart.toNat + heapSize.toNat < 2 ^ 64) (listed : k.Listed)
    (intact : k.Intact heapStart heapSize) (none : ¬ c.Switches k.sched)
    (ran : k.call kernelL1 c = some k') : k'.Intact heapStart heapSize ∧ k'.saves = k.saves := by
  obtain ⟨func, stackSize, rfl, made⟩ | ⟨op, regs, s, d, dispatch, called, rfl, switches⟩ :=
    call_cases ran
  · refine ⟨intact_create nonzero bound intact made, ?_⟩
    obtain ⟨r, heap, _, ⟨_, rfl⟩ | ⟨t, s, c, _, _, rfl⟩⟩ := create_cases made
    · rfl
    · rfl
  · have did := call_did listed.sound called
    obtain ⟨heap, saves⟩ := leave_heap k regs s (did.stays fun h => none (switches.mpr h))
    refine ⟨⟨by rw [heap]; exact intact.layout, fun t member => ?_⟩, saves⟩
    rw [(leave_sched k regs s d).2] at member
    rw [heap]
    exact intact.held t member

/-- There are tasks to switch between: `sched_yield` switches, and `sched_schedule` with one current. -/
theorem switches_of_many {s : Scheduler} {op : Op} (dispatch : op = .yield ∨ op = .schedule ∧ s.currentTask ≠ 0#64)
    (sound : Sound s) (filled : NoNull s) (many : 1 < s.numTasks) :
    ∃ s' i, Sched.call op s = some (s', .switches s.currentTask (s.taskList i)) ∧
      s'.currentTaskIndex = (i : Nat) ∧ (i : Nat) < s.numTasks ∧
      (s.currentTaskIndex + 1).tmod s.numTasks = (i : Nat) := by
  obtain ⟨⟨s', d⟩, ran⟩ := Option.isSome_iff_exists.mp (call_isSome sound filled op)
  have did := call_did sound ran
  have sound' := did.sound sound
  cases did with
  | full task h many => exact absurd dispatch (by simp)
  | added task i place h => exact absurd dispatch (by simp)
  | halted h none => omega
  | branched i first some idle task h => exact absurd idle (dispatch.resolve_left (by simp)).2
  | alone op dispatch h few => omega
  | switched op i dispatch many turn task h =>
      refine ⟨s', i, ran, h ▸ rfl, ?_, turn⟩
      rw [← turn]
      exact Int.tmod_lt_of_pos _ (by omega)

theorem call_switches (kernelL1 : Nat → BitVec 64) {c : Call} (listed : k.Listed)
    (filled : NoNull k.sched) (switches : c.Switches k.sched) : ∃ regs s i,
      (c = .schedule regs ∨ c = .yield regs) ∧ k.call kernelL1 c =
        some (k.leave regs s (.switches k.sched.currentTask (k.sched.taskList i))) ∧
      s.currentTaskIndex = (i : Nat) ∧ (i : Nat) < k.sched.numTasks ∧
      (k.sched.currentTaskIndex + 1).tmod k.sched.numTasks = (i : Nat) := by
  cases c with
  | createTask func stackSize => exact absurd switches id
  | schedule regs =>
      obtain ⟨s, i, ran, place⟩ :=
        switches_of_many (.inr ⟨rfl, switches.1⟩) listed.sound filled switches.2
      refine ⟨regs, s, i, .inl rfl, ?_, place⟩
      change (schedSchedule k.sched).map _ = _
      rw [show schedSchedule k.sched = _ from ran, Option.map_some]
  | yield regs =>
      obtain ⟨s, i, ran, place⟩ :=
        switches_of_many (.inl rfl) listed.sound filled switches
      refine ⟨regs, s, i, .inr rfl, ?_, place⟩
      change (schedYield k.sched).map _ = _
      rw [show schedYield k.sched = _ from ran, Option.map_some]

/-- The eighth store of a switch is behind the context. -/
theorem switch_not_inside (k : Kernel) (regs : Regs) (s : Scheduler) (old new : Addr) :
    ¬ (k.leave regs s (.switches old new)).SavesInside := by
  intro inside
  have stored : (contextOf old + BitVec.ofNat 64 112, 16) ∈ writes contextSwitch
      { (switchOf old new regs).args with mem := k.heap.mem, pc := 0 } := by
    rw [writes_contextSwitch]
    refine List.mem_append_left _ (List.mem_map.mpr ⟨7, by simp, ?_⟩)
    rw [← show (switchOf old new regs).args.x 0 = contextOf old from args_old _]
  have := inside _ (List.mem_append_right _ (List.mem_singleton.mpr rfl)) _ stored 0 (Nat.succ_pos 15)
  change (contextOf old + BitVec.ofNat 64 112 + BitVec.ofNat 64 0 - contextOf old).toNat < 104 at this
  rw [BitVec.add_assoc, ← BitVec.ofNat_add, toNat_sub_self_add _ (by decide)] at this
  omega

theorem leave_switches_mem (k : Kernel) (regs : Regs) (s : Scheduler) (old new : Addr) :
    (k.leave regs s (.switches old new)).heap.mem =
      Switch.lay k.heap.mem (switchOf old new regs) := by
  rw [← perform_mem, Switch.perform, Kernel.leave, withMem_mem]

/-- The fields behind the context take the words stored over them: `x14`, `x15` and `x16`. -/
theorem switch_overwrites (k : Kernel) (regs : Regs) (s : Scheduler) (old new : Addr) :
    get 64 8 (k.leave regs s (.switches old new)).heap old 120 = regs.x 14 ∧
      get 64 8 (k.leave regs s (.switches old new)).heap old 128 = regs.x 15 ∧
      get 64 8 (k.leave regs s (.switches old new)).heap old 136 = regs.x 16 := by
  have word : ∀ n, n < 34 → get 64 8 (k.leave regs s (.switches old new)).heap old (8 + 8 * n) =
      savedWord (switchOf old new regs).args n := by
    intro n small
    rw [get, leave_switches_mem, BitVec.ofNat_add, ← BitVec.add_assoc]
    exact load_overlay k.heap.mem (contextOf old) (savedWord (switchOf old new regs).args) small
      (by decide)
  have kept : ∀ n : Fin 31, 2 ≤ n.val → (switchOf old new regs).args.x n = regs.x n := by
    intro n high
    change Function.update (Function.update regs.x 0 _) 1 _ n = regs.x n
    rw [Function.update_of_ne, Function.update_of_ne]
    · rintro rfl
      exact absurd high (by decide)
    · rintro rfl
      exact absurd high (by decide)
  exact ⟨(word 14 (by decide)).trans (kept 14 (by decide)),
    (word 15 (by decide)).trans (kept 15 (by decide)),
    (word 16 (by decide)).trans (kept 16 (by decide))⟩

/-- Identity is kept by exactly the calls that do not come to a switch. -/
theorem identity_step {s : Option Kernel} {c : Call} (nonzero : heapStart ≠ 0#64)
    (bound : heapStart.toNat + heapSize.toNat < 2 ^ 64)
    (good : ∀ k, s = some k → k.Listed ∧ k.Intact heapStart heapSize) (kept : IdentityKept s) :
    IdentityKept (step kernelL1 s c) ↔ NoSwitch s c := by
  constructor
  · rintro after k rfl switches
    obtain ⟨listed, intact⟩ := good k rfl
    have filled := intact.noNull listed
    obtain ⟨regs, s', i, _, ran, _⟩ := call_switches kernelL1 listed filled switches
    exact switch_not_inside k regs s' _ _ (after _ ran).2
  · intro none k' ran
    obtain ⟨k, rfl, called⟩ := Option.bind_eq_some_iff.mp ran
    obtain ⟨listed, intact⟩ := good k rfl
    obtain ⟨intact', saves⟩ := intact_call nonzero bound listed intact (none k rfl) called
    refine ⟨intact'.idsKept (listed_call listed called), ?_⟩
    rw [Kernel.SavesInside, saves]
    exact (kept k rfl).2

/-- Along every run the tasks keep their values, and switches stay inside the context they
save to, if and only if no call comes to a switch. -/
theorem identity_kept_iff (nonzero : heapStart ≠ 0#64) (header : 24 ≤ heapSize.toNat)
    (bound : heapStart.toNat + heapSize.toNat < 2 ^ 64) (kernelL1 : Nat → BitVec 64)
    {heap : System} (reachable : Kmalloc.Reachable heapStart heapSize heap) (calls : List Call) :
    Always (step kernelL1) IdentityKept (start heap) calls ↔
      Admitted (step kernelL1) NoSwitch (start heap) calls := by
  refine always_iff_admitted_while
    (fun s => ∀ k, s = some k → k.Listed ∧ k.Intact heapStart heapSize) ?_
    (fun s c good kept => identity_step nonzero bound good kept) ?_ ?_
  · rintro s c good none k' ran
    obtain ⟨k, rfl, called⟩ := Option.bind_eq_some_iff.mp ran
    obtain ⟨listed, intact⟩ := good k rfl
    exact ⟨listed_call listed called,
      (intact_call nonzero bound listed intact (none k rfl) called).1⟩
  · rintro k eq
    cases eq
    exact ⟨⟨sound_init, rfl, fun i t found => (nomatch found)⟩,
      reachable_layout nonzero header bound reachable, List.forall_mem_nil _⟩
  · rintro k eq
    cases eq
    refine ⟨fun i below => ?_, List.forall_mem_nil _⟩
    change ((i : Nat) : Int) < 0 at below
    omega

/-! A run with two tasks. -/

/-- With room in the heap and in the list a creation adds its task. -/
theorem create_adds (nonzero : heapStart ≠ 0#64)
    (bound : heapStart.toNat + heapSize.toNat < 2 ^ 64) (kernelL1 : Nat → BitVec 64) {room : Nat}
    (listed : k.Listed) (intact : k.Intact heapStart heapSize)
    (left : Room heapStart heapSize k.heap room) (few : k.sched.numTasks < maxTasks) (func : Addr)
    {stackSize : BitVec 64} (some : stackSize ≠ 0#64) (enough : taskRoom stackSize < room) :
    ∃ t k', k.create kernelL1 func stackSize = Option.some k' ∧ k'.Listed ∧
      k'.Intact heapStart heapSize ∧ Room heapStart heapSize k'.heap (room - taskRoom stackSize) ∧
      k'.tasks = k.tasks ++ [t] ∧ k'.sched.currentTask = k.sched.currentTask ∧
      k'.entered = k.entered ∧ t.func = func ∧ t.stackSize = stackSize ∧
      t.stackBase ∉ k.heap.live := by
  obtain ⟨blocks, layout⟩ := intact.layout
  obtain ⟨t, heap, made, left'⟩ :=
    createTask_room nonzero bound kernelL1 left k.sched.numTasks func some enough
  obtain ⟨r, heap', made', keeps, given⟩ :=
    (createTask_spec nonzero bound kernelL1 layout k.sched.numTasks func stackSize).done
  cases made.symm.trans made'
  obtain ⟨_, _, _, isFunc, isSize, newStack, _⟩ := given t rfl
  have filled := intact.noNull listed
  obtain ⟨⟨s, c⟩, added⟩ :=
    Option.isSome_iff_exists.mp (call_isSome listed.sound filled (.addTask t.tcb))
  have did := did_addTask listed.sound.unlocked added
  have ran : k.create kernelL1 func stackSize = Option.some { k with
      heap := heap
      sched := s
      tasks := if k.sched.numTasks ≥ maxTasks then k.tasks else k.tasks ++ [t] } := by
    rw [Kernel.create, made, Option.bind_some]
    change (schedAddTask t.tcb k.sched).map _ = _
    rw [show schedAddTask t.tcb k.sched = _ from added, Option.map_some]
  refine ⟨t, _, ran, listed_create listed ran, intact_create nonzero bound intact ran, left',
    if_neg (Int.not_le.mpr few), ?_, rfl, isFunc, isSize, newStack⟩
  change s.currentTask = k.sched.currentTask
  cases did with
  | full _ same many => rw [same]
  | added _ j place same => rw [same]
  | alone _ dispatch => exact absurd dispatch (by simp)
  | switched _ _ dispatch => exact absurd dispatch (by simp)

/-- The first `sched_schedule` branches to the first task. -/
theorem schedule_first (kernelL1 : Nat → BitVec 64) (listed : k.Listed) (filled : NoNull k.sched)
    (some : 0 < k.sched.numTasks) (idle : k.sched.currentTask = 0#64) (regs : Regs) :
    ∃ s, k.call kernelL1 (.schedule regs) =
        Option.some (k.leave regs s (.branches (k.sched.taskList ⟨0, by decide⟩))) ∧
      s.currentTask ≠ 0#64 ∧ s.currentTaskIndex = 0 ∧ s.numTasks = k.sched.numTasks := by
  obtain ⟨⟨s, d⟩, ran⟩ :=
    Option.isSome_iff_exists.mp (call_isSome listed.sound filled .schedule)
  have called : k.call kernelL1 (.schedule regs) = Option.some (k.leave regs s d) := by
    change (schedSchedule k.sched).map _ = _
    rw [show schedSchedule k.sched = _ from ran, Option.map_some]
  have did := call_did listed.sound ran
  cases did with
  | halted h none => omega
  | branched i first _ _ task h =>
      have zero : i = ⟨0, by decide⟩ := Fin.ext first
      subst zero
      exact ⟨s, called, h ▸ task, h ▸ rfl, h ▸ rfl⟩
  | alone op dispatch h few => exact absurd idle (dispatch.resolve_left (by simp)).2.2
  | switched op i dispatch many turn task h => exact absurd idle (dispatch.resolve_left (by simp)).2

/-- Two creations on a heap with room for both. -/
theorem two_created (nonzero : heapStart ≠ 0#64)
    (bound : heapStart.toNat + heapSize.toNat < 2 ^ 64) (kernelL1 : Nat → BitVec 64) {heap : System}
    {room : Nat} (left : Room heapStart heapSize heap room) (f g : Addr) (stackSize : BitVec 64)
    (some : stackSize ≠ 0#64) (enough : 2 * taskRoom stackSize < room) :
    ∃ t u k, [.createTask f stackSize, .createTask g stackSize].foldl (step kernelL1) (start heap) =
        Option.some k ∧ k.Listed ∧ k.Intact heapStart heapSize ∧ k.sched.currentTask = 0#64 ∧ k.tasks = [t, u] ∧
      k.entered = [] ∧ t.func = f ∧ t.stackSize = stackSize ∧ t.stackBase ≠ u.stackBase ∧ u.func = g ∧
      u.stackSize = stackSize := by
  have layout : ∃ blocks, Layout heapStart heapSize heap blocks := by
    obtain ⟨used, a, size, layout, _⟩ := left.last
    exact ⟨_, layout⟩
  obtain ⟨t, k₁, ran₁, listed₁, intact₁, left₁, tasks₁, current₁, entered₁, tf, ts, _⟩ :=
    create_adds nonzero bound kernelL1 (k := ⟨heap, schedInit boot, 0#64, [], [], []⟩)
      ⟨sound_init, rfl, fun i t found => (nomatch found)⟩ ⟨layout, List.forall_mem_nil _⟩
      left (show (0 : Int) < 8 by decide) f some (by omega)
  have one : k₁.sched.numTasks = 1 := listed₁.count.symm.trans (by rw [tasks₁]; rfl)
  obtain ⟨u, k₂, ran₂, listed₂, intact₂, left₂, tasks₂, current₂, entered₂, uf, us, newStack⟩ :=
    create_adds nonzero bound kernelL1 listed₁ intact₁ left₁ (by rw [one]; decide) g some
      (by omega)
  refine ⟨t, u, k₂, ?_, listed₂, intact₂, current₂.trans current₁, tasks₂.trans (by rw [tasks₁]; rfl),
    entered₂.trans entered₁, tf, ts, ?_, uf, us⟩
  · simp only [List.foldl_cons, List.foldl_nil, step, start, Option.bind_some, Kernel.call, ran₁]
    exact ran₂
  · intro same
    have held := (intact₁.held t (by rw [tasks₁]; exact List.mem_append_right _ (List.mem_singleton.mpr rfl))).1
    exact newStack (same ▸ held.stack)

/-- Without a current task the first `sched_schedule` is no switch. -/
theorem not_switches_of_idle {s : Scheduler} (idle : s.currentTask = 0#64) (regs : Regs) :
    ¬ (Call.schedule regs).Switches s := fun switches => switches.1 idle

/-- Behind them the first dispatch. -/
theorem two_tasks (nonzero : heapStart ≠ 0#64)
    (bound : heapStart.toNat + heapSize.toNat < 2 ^ 64) (kernelL1 : Nat → BitVec 64) {heap : System}
    {room : Nat} (left : Room heapStart heapSize heap room) (f g : Addr) (stackSize : BitVec 64)
    (some : stackSize ≠ 0#64) (enough : 2 * taskRoom stackSize < room) (regs : Regs) :
    ∃ t u k, [.createTask f stackSize, .createTask g stackSize, .schedule regs].foldl
        (step kernelL1) (start heap) = Option.some k ∧ k.Listed ∧ k.Intact heapStart heapSize ∧
      k.sched.currentTask ≠ 0#64 ∧ k.sched.currentTaskIndex = 0 ∧ k.tasks = [t, u] ∧
      k.entered = [⟨0, f, t.stackBase + stackSize - 16#64⟩] ∧ t.stackBase ≠ u.stackBase ∧
      u.func = g ∧ u.stackSize = stackSize := by
  obtain ⟨t, u, k, ran, listed, intact, idle, both, entered, tf, ts, apart, uf, us⟩ :=
    two_created nonzero bound kernelL1 left f g stackSize some enough
  have two : k.sched.numTasks = 2 := listed.count.symm.trans (by rw [both]; rfl)
  obtain ⟨s, ran', busy, index, count⟩ := schedule_first kernelL1 listed (intact.noNull listed)
    (by rw [two]; decide) idle regs
  have intact' := (intact_call nonzero bound listed intact (not_switches_of_idle idle regs) ran').1
  refine ⟨t, u, _, ?_, listed_call listed ran', intact', busy, index, both, ?_, apart, uf, us⟩
  · change step kernelL1 ([.createTask f stackSize, .createTask g stackSize].foldl (step kernelL1) (start heap))
      (.schedule regs) = _
    rw [ran]
    exact ran'
  · have first : k.sched.taskList ⟨0, by decide⟩ = t.tcb := listed.entry _ t (by rw [both]; rfl)
    have held := (intact.held t (by rw [both]; exact List.mem_cons_self)).1
    change k.entered ++ [⟨s.currentTaskIndex, get 64 8 k.heap _ 16, get 64 8 k.heap _ 8⟩] = _
    rw [entered, index, first, held.lr, held.sp, tf, ts]
    rfl

end

def idleRegs : Regs := ⟨fun _ => 0#64, 0#64, fun _ => 0#64⟩

/-- The heap of a kernel without a memory node in its device tree. -/
def bootHeap : System := ⟨kmallocInit 0x80000000#64 0x10000000#64 fun _ => 0, []⟩

theorem bootHeap_room : Room 0x80000000#64 0x10000000#64 bootHeap (0x10000000 - 24) :=
  room_init (by decide) (by decide) _

/-- The kernel's own two tasks: the second dispatch stores behind the first one's context. -/
theorem second_dispatch_leaves_context : ¬ Always (step fun _ => 0#64) IdentityKept (start bootHeap)
    [.createTask 0x40080000#64 4096#64, .createTask 0x40081000#64 4096#64, .schedule idleRegs,
      .yield idleRegs] := by
  intro always
  obtain ⟨t, u, k, ran, listed, intact, busy, _, tasks, _⟩ := two_tasks (by decide) (by decide)
    (fun _ => 0#64) bootHeap_room 0x40080000#64 0x40081000#64 4096#64 (by decide) (by decide) idleRegs
  have two : k.sched.numTasks = 2 := listed.count.symm.trans (by rw [tasks]; rfl)
  have switches : (Call.yield idleRegs).Switches k.sched := by
    rw [Call.Switches, two]
    decide
  obtain ⟨regs, s, i, _, called, _⟩ :=
    call_switches (fun _ => 0#64) listed (intact.noNull listed) switches
  have last := always.last
  rw [show ∀ a b c d : Call, [a, b, c, d] = [a, b, c] ++ [d] from fun _ _ _ _ => rfl,
    List.foldl_append, ran] at last
  exact switch_not_inside k regs s _ _ (last _ called).2

/-- Two tasks are created and the first is dispatched. -/
theorem identity_kept_first_dispatch : ∃ t u k,
    [.createTask 0x40080000#64 4096#64, .createTask 0x40081000#64 4096#64, .schedule idleRegs].foldl
      (step fun _ => 0#64) (start bootHeap) = some k ∧ k.tasks = [t, u] ∧ k.sched.currentTask ≠ 0#64 ∧
    Always (step fun _ => 0#64) IdentityKept (start bootHeap)
      [.createTask 0x40080000#64 4096#64, .createTask 0x40081000#64 4096#64, .schedule idleRegs] := by
  obtain ⟨_, _, k, ran, _, _, idle, _⟩ := two_created (by decide) (by decide)
    (fun _ => 0#64) bootHeap_room 0x40080000#64 0x40081000#64 4096#64 (by decide) (by decide)
  obtain ⟨t, u, k', ran', _, _, busy, _, tasks, _⟩ := two_tasks (by decide) (by decide)
    (fun _ => 0#64) bootHeap_room 0x40080000#64 0x40081000#64 4096#64 (by decide) (by decide) idleRegs
  have noSwitch : NoSwitch (some k) (.schedule idleRegs) := by
    rintro _ ⟨⟩
    exact not_switches_of_idle idle idleRegs
  have admitted : Admitted (step fun _ => 0#64) NoSwitch (start bootHeap)
      ([.createTask 0x40080000#64 4096#64, .createTask 0x40081000#64 4096#64] ++ [.schedule idleRegs]) := by
    refine admitted_append.mpr ⟨⟨fun _ _ => id, fun _ _ => id, trivial⟩, ?_, trivial⟩
    rw [ran]
    exact noSwitch
  exact ⟨t, u, k', ran', tasks, busy,
    (identity_kept_iff (by decide) (by decide) (by decide) _ (.init fun _ => 0) _).mpr admitted⟩

end AstralOS.Sched
