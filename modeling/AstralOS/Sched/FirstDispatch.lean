import AstralOS.Sched.TaskIdentity

/-! Where a task goes on when it is dispatched for the first time: by the branch, at its
entry with its own stack; by `context_switch`, wherever the restore happens to look. -/
namespace AstralOS.Sched
open Foundation Foundation.Aarch64 Foundation.FirstFit AstralOS.Kmalloc AstralOS.Cpu

/-- The first dispatch of list entry `i`. -/
def Kernel.firstEntry (k : Kernel) (i : Nat) : Option Entry :=
  k.entered.find? fun e => e.index = (i : Int)

/-- The top of the stack a task is given. -/
def Task.top (t : Task) : BitVec 64 := t.stackBase + t.stackSize - 16#64

/-- Whatever has been dispatched began at its entry point on its own stack. -/
def StartsAlike (k : Option Kernel) : Prop :=
  ∀ s, k = some s → ∀ (i : Nat) t e, s.tasks[i]? = some t → s.firstEntry i = some e →
    e.pc = t.func ∧ e.sp = t.top

/-- The word `context_switch` returns to: 240 bytes behind the address in the new context's
`lr`, after the old registers have been stored. -/
def returnWord (m : Memory) (old new : Addr) (regs : Regs) : Addr :=
  let saved := Switch.lay m (switchOf old new regs)
  load 64 8 saved (load 64 8 saved (contextOf new + 8) + 240)

/-- The caller's registers as words: `x0` and `x1` hold the two contexts, `x30` is followed by
`sp_el0`, `elr_el1` and `spsr_el1`. -/
def callerWord (old new : Addr) (regs : Regs) : Nat → BitVec 64
  | 0 => contextOf old
  | 1 => contextOf new
  | 31 => regs.sys .spEl0
  | 32 => regs.sys .elrEl1
  | 33 => regs.sys .spsrEl1
  | n => if h : n < 31 then regs.x ⟨n, h⟩ else 0#64

/-- A byte of memory before the call, or of the caller's registers in the 272 bytes from its context on. -/
def inputByte (m : Memory) (old new : Addr) (regs : Regs) (x : Addr) : Byte :=
  let place := (x - contextOf old).toNat
  if place < 272 then leByte (callerWord old new regs (place / 8)) (place % 8) else m x

def WordAt (bytes : Addr → Byte) (p : Addr) (v : BitVec 64) : Prop :=
  ∀ i < 8, bytes (p + BitVec.ofNat 64 i) = leByte v i

/-- 240 bytes behind the address in the new context's `lr` slot stands the entry point. -/
def EntryFound (m : Memory) (old : Addr) (t : Task) (regs : Regs) : Prop :=
  ∃ base, WordAt (inputByte m old t.tcb regs) (contextOf t.tcb + 8) base ∧
    WordAt (inputByte m old t.tcb regs) (base + 240) t.func

/-- A call that switches to a task for the first time has the task's entry point in that place, and
the stack pointer already at the top of the task's stack. -/
def EntersRight (k : Option Kernel) (c : Call) : Prop :=
  ∀ s regs, k = some s → c = .schedule regs ∨ c = .yield regs → c.Switches s.sched →
    ∀ (i : Nat) t, (s.sched.currentTaskIndex + 1).tmod s.sched.numTasks = i →
      s.tasks[i]? = some t → s.firstEntry i = none →
        EntryFound s.heap.mem s.sched.currentTask t regs ∧ regs.sp = t.top

/-- What every call keeps, whatever switches have done to memory. -/
structure Kernel.Ready (heapStart heapSize : BitVec 64) (k : Kernel) : Prop where
  listed : k.Listed
  notNull : ∀ t ∈ k.tasks, t.tcb ≠ 0#64
  known : ∀ e ∈ k.entered, ∃ n : Nat, e.index = n ∧ n < k.tasks.length
  fresh : k.sched.currentTask = 0#64 → k.Intact heapStart heapSize ∧ k.entered = []

section
variable {heapStart heapSize : BitVec 64} {k k' : Kernel} {kernelL1 : Nat → BitVec 64}

theorem createPagetable_tcb {t u : Task} {s s' : System}
    (made : createPagetable kernelL1 t s = some (some u, s')) : u.tcb = t.tcb := by
  obtain ⟨r, _, rest⟩ := Option.bind_eq_some_iff.mp made
  by_cases null : get 64 8 (put 8 r.2 t.tcb 136 r.1) t.tcb 136 = 0#64
  · rw [if_pos null] at rest
    obtain ⟨s₁, _, rest⟩ := Option.bind_eq_some_iff.mp rest
    obtain ⟨s₂, _, eq⟩ := Option.map_eq_some_iff.mp rest
    cases eq
  · rw [if_neg null] at rest
    cases rest
    rfl

theorem createStack_tcb {t u : Task} {s s' : System}
    (made : createStack kernelL1 t s = some (some u, s')) : u.tcb = t.tcb := by
  obtain ⟨r, _, rest⟩ := Option.bind_eq_some_iff.mp made
  by_cases null : get 64 8 (put 8 r.2 t.tcb 120 r.1) t.tcb 120 = 0#64
  · rw [if_pos null] at rest
    obtain ⟨s₂, _, eq⟩ := Option.map_eq_some_iff.mp rest
    cases eq
  · rw [if_neg null] at rest
    have same := createPagetable_tcb rest
    exact same

/-- A task that is made has a control block, on whatever heap. -/
theorem createTask_notNull {numTasks : Int} {func : Addr} {stackSize : BitVec 64} {u : Task}
    {s s' : System} (made : createTask kernelL1 numTasks func stackSize s = some (some u, s')) :
    u.tcb ≠ 0#64 := by
  obtain ⟨r, _, rest⟩ := Option.bind_eq_some_iff.mp made
  by_cases null : r.1 = 0#64
  · rw [if_pos null] at rest
    cases rest
  · rw [if_neg null] at rest
    have same := createStack_tcb rest
    rw [same]
    exact null

/-- What a creation leaves of the scheduler's side. -/
theorem create_extends {func : Addr} {stackSize : BitVec 64} (listed : k.Listed)
    (ran : k.create kernelL1 func stackSize = some k') :
    k'.sched.currentTask = k.sched.currentTask ∧ k'.entered = k.entered ∧
      (k'.tasks = k.tasks ∨ ∃ t, k'.tasks = k.tasks ++ [t] ∧ t.tcb ≠ 0#64) := by
  obtain ⟨r, heap, made, ⟨rfl, rfl⟩ | ⟨t, s, c, rfl, added, rfl⟩⟩ := create_cases ran
  · exact ⟨rfl, rfl, .inl rfl⟩
  · have did := did_addTask listed.sound.unlocked added
    refine ⟨?_, rfl, ?_⟩
    · change s.currentTask = k.sched.currentTask
      cases did with
      | full _ same many => rw [same]
      | added _ j place same => rw [same]
      | alone _ dispatch => exact absurd dispatch (by simp)
      | switched _ _ dispatch => exact absurd dispatch (by simp)
    · by_cases many : k.sched.numTasks ≥ maxTasks
      · exact .inl (if_pos many)
      · exact .inr ⟨t, if_neg many, createTask_notNull made⟩

theorem ready_create {func : Addr} {stackSize : BitVec 64} (nonzero : heapStart ≠ 0#64)
    (bound : heapStart.toNat + heapSize.toNat < 2 ^ 64) (ready : k.Ready heapStart heapSize)
    (ran : k.create kernelL1 func stackSize = some k') : k'.Ready heapStart heapSize := by
  obtain ⟨current, entered, tasks⟩ := create_extends ready.listed ran
  refine ⟨listed_create ready.listed ran, fun t member => ?_, fun e member => ?_, fun idle => ?_⟩
  · obtain same | ⟨u, longer, notNull⟩ := tasks
    · exact ready.notNull t (same ▸ member)
    · rw [longer] at member
      rcases List.mem_append.mp member with old | new
      · exact ready.notNull t old
      · rw [List.mem_singleton.mp new]
        exact notNull
  · obtain ⟨n, index, below⟩ := ready.known e (entered ▸ member)
    refine ⟨n, index, ?_⟩
    obtain same | ⟨u, longer, _⟩ := tasks
    · rwa [same]
    · rw [longer, List.length_append]
      omega
  · obtain ⟨intact, none⟩ := ready.fresh (current ▸ idle)
    exact ⟨intact_create nonzero bound intact ran, entered.trans none⟩

theorem ready_leave {op : Op} {s : Scheduler} {d : Control} (ready : k.Ready heapStart heapSize)
    (did : Did k.sched s op d) (dispatch : op = .yield ∨ op = .schedule) (regs : Regs) :
    (k.leave regs s d).Ready heapStart heapSize := by
  have listed := listed_leave ready.listed did dispatch regs
  have tasks := (leave_sched k regs s d).2
  have count := ready.listed.count
  refine ⟨listed, fun t member => ready.notNull t (tasks ▸ member), ?_, ?_⟩
  · rw [tasks]
    cases did with
    | full task h many => exact ready.known
    | added task i place h => exact ready.known
    | halted h none => exact ready.known
    | alone op dispatch h few => exact ready.known
    | branched i first some idle task h =>
        intro e member
        rcases List.mem_append.mp member with old | new
        · exact ready.known e old
        · rw [List.mem_singleton.mp new, h]
          exact ⟨0, rfl, by omega⟩
    | switched op i dispatch many turn task h =>
        intro e member
        rcases List.mem_append.mp member with old | new
        · exact ready.known e old
        · have below : (i : Int) < k.sched.numTasks := turn ▸ Int.tmod_lt_of_pos _ (by omega)
          rw [List.mem_singleton.mp new, h]
          exact ⟨i, rfl, by omega⟩
  · intro idle
    rw [(leave_sched k regs s d).1] at idle
    cases did with
    | full task h many => exact absurd dispatch (by simp)
    | added task i place h => exact absurd dispatch (by simp)
    | halted h none =>
        obtain ⟨intact, entered⟩ := ready.fresh (h ▸ idle)
        exact ⟨⟨intact.layout, intact.held⟩, entered⟩
    | alone op dispatch h few =>
        obtain ⟨intact, entered⟩ := ready.fresh (h ▸ idle)
        exact ⟨⟨intact.layout, intact.held⟩, entered⟩
    | branched i first some _ task h =>
        rw [h] at idle
        exact absurd idle task
    | switched op i dispatch many turn task h =>
        rw [h] at idle
        exact absurd idle task

theorem ready_call {c : Call} (nonzero : heapStart ≠ 0#64)
    (bound : heapStart.toNat + heapSize.toNat < 2 ^ 64) (ready : k.Ready heapStart heapSize)
    (ran : k.call kernelL1 c = some k') : k'.Ready heapStart heapSize := by
  obtain ⟨func, stackSize, rfl, made⟩ | ⟨op, regs, s, d, dispatch, called, rfl, _⟩ := call_cases ran
  · exact ready_create nonzero bound ready made
  · exact ready_leave ready (call_did ready.listed.sound called) dispatch regs

/-- A switch returns to the word the restore finds, on the stack it was called on. -/
theorem leave_switches_entered (k : Kernel) (regs : Regs) (s : Scheduler) (old new : Addr) :
    (k.leave regs s (.switches old new)).entered =
      k.entered ++ [⟨s.currentTaskIndex, returnWord k.heap.mem old new regs, regs.sp⟩] := by
  have switched := contextSwitch_switched
    { (switchOf old new regs).args with mem := k.heap.mem, pc := 0 }
  have laid : savedMemory { (switchOf old new regs).args with mem := k.heap.mem, pc := 0 } =
      Switch.lay k.heap.mem (switchOf old new regs) := by
    rw [← switched.mem]
    exact perform_mem (switchOf old new regs) k.heap.mem
  have pc := switched.pc
  rw [restoreBase, laid] at pc
  rw [Kernel.leave]
  exact congrArg (fun e => k.entered ++ [e])
    (congrArg₂ (Entry.mk s.currentTaskIndex) pc switched.sp)

/-! Where the restore looks, in terms of the call's inputs. -/

theorem wordAt_iff {m : Memory} {p : Addr} {v : BitVec 64} : WordAt m p v ↔ Foundation.load 64 8 m p = v := by
  constructor
  · intro bytes
    exact le_eq_of_bytes (n := 8) (by decide) v bytes
  · rintro rfl i small
    exact (leByte_le (w := 64) (n := 8) (m.view p) (by decide) small).symm

theorem inputByte_eq (m : Memory) (old new : Addr) (regs : Regs) :
    inputByte m old new regs = Switch.lay m (switchOf old new regs) := by
  have word : ∀ n < 34, callerWord old new regs n = savedWord (switchOf old new regs).args n := by
    intro n small
    by_cases first : n = 0
    · rw [first]
      exact (args_old (switchOf old new regs)).symm
    by_cases second : n = 1
    · rw [second]
      exact (args_new (switchOf old new regs)).symm
    by_cases general : n < 31
    · rw [callerWord, savedWord, dif_pos general, dif_pos general]
      · change _ = Function.update (Function.update regs.x 0 _) 1 _ _
        rw [Function.update_of_ne, Function.update_of_ne]
        · exact fun same => first (congrArg Fin.val same)
        · exact fun same => second (congrArg Fin.val same)
      all_goals omega
    · obtain rfl | rfl | rfl : n = 31 ∨ n = 32 ∨ n = 33 := by omega
      · rfl
      · rfl
      · rfl
  funext x
  change _ = if (x - contextOf old).toNat < 272 then _ else m x
  by_cases near : (x - contextOf old).toNat < 272
  · rw [inputByte, if_pos near, if_pos near, word _ (by omega)]
    rfl
  · rw [inputByte, if_neg near, if_neg near]

theorem entryFound_iff {m : Memory} {old : Addr} {t : Task} {regs : Regs} :
    EntryFound m old t regs ↔ returnWord m old t.tcb regs = t.func := by
  unfold EntryFound returnWord
  simp only [inputByte_eq, wordAt_iff]
  constructor
  · rintro ⟨_, rfl, entry⟩
    exact entry
  · intro entry
    exact ⟨_, rfl, entry⟩

theorem firstEntry_append {k k' : Kernel} {e : Entry} (entered : k'.entered = k.entered ++ [e])
    (i : Nat) : k'.firstEntry i =
      (k.firstEntry i).or (if e.index = (i : Int) then some e else none) := by
  rw [Kernel.firstEntry, entered, List.find?_append]
  congr 1
  by_cases same : e.index = (i : Int)
  · simp only [List.find?_cons, same, decide_true, if_pos]
  · simp only [List.find?_cons, same, decide_false, List.find?_nil, if_false]

/-- A call that does not switch begins no task wrongly. -/
theorem starts_of_stays {c : Call} (ready : k.Ready heapStart heapSize)
    (started : StartsAlike (some k)) (none : ¬ c.Switches k.sched)
    (ran : k.call kernelL1 c = some k') : StartsAlike (some k') := by
  rintro _ ⟨⟩ i t e listed first
  obtain ⟨func, stackSize, rfl, made⟩ | ⟨op, regs, s, d, dispatch, called, rfl, switches⟩ :=
    call_cases ran
  · obtain ⟨_, entered, tasks⟩ := create_extends ready.listed made
    rw [Kernel.firstEntry, entered] at first
    obtain ⟨n, index, below⟩ := ready.known e (List.mem_of_find?_eq_some first)
    have same : e.index = (i : Int) := by simpa using List.find?_some first
    have before : k.tasks[i]? = some t := by
      obtain same | ⟨u, longer, _⟩ := tasks
      · rwa [same] at listed
      · rwa [longer, List.getElem?_append_left (by omega)] at listed
    exact started k rfl i t e before first
  · have did := call_did ready.listed.sound called
    rw [(leave_sched k regs s d).2] at listed
    cases did with
    | full task h many => exact started k rfl i t e listed first
    | added task j place h => exact started k rfl i t e listed first
    | halted h none => exact started k rfl i t e listed first
    | alone op dispatch h few => exact started k rfl i t e listed first
    | switched op j dispatch many turn task h =>
        exact absurd (switches.mpr ⟨dispatch.imp_right And.right, many⟩) none
    | branched j zero some idle task h =>
        obtain ⟨intact, entered⟩ := ready.fresh idle
        rw [firstEntry_append rfl, Kernel.firstEntry, entered, List.find?_nil, Option.none_or] at first
        by_cases isZero : (0 : Int) = i
        · rw [h] at first
          rw [if_pos isZero] at first
          cases first
          have same : j.val = i := by omega
          have entry := ready.listed.entry j t (same ▸ listed)
          have held := (intact.held t (List.mem_of_getElem? listed)).1
          rw [entry]
          exact ⟨held.lr, held.sp⟩
        · rw [h] at first
          rw [if_neg isZero] at first
          cases first

theorem starts_step {s : Option Kernel} {c : Call}
    (ready : ∀ k, s = some k → k.Ready heapStart heapSize) (started : StartsAlike s) :
    StartsAlike (step kernelL1 s c) ↔ EntersRight s c := by
  cases s with
  | none => exact ⟨fun _ _ _ eq => (nomatch eq), fun _ _ eq => (nomatch eq)⟩
  | some k =>
      have good := ready k rfl
      by_cases switches : c.Switches k.sched
      · obtain ⟨regs, s, i, isCall, ran, index, below, turn⟩ := call_switches kernelL1 good.listed
          (good.listed.noNull good.notNull) switches
        obtain ⟨t, listed, _, entry⟩ := good.listed.find below
        have entered := leave_switches_entered k regs s k.sched.currentTask (k.sched.taskList i)
        rw [entry] at entered ran
        have firsts := firstEntry_append entered
        change StartsAlike (k.call kernelL1 c) ↔ _
        rw [ran]
        constructor
        · rintro after _ regs' ⟨⟩ isCall' _ j u turn' listed' unseen
          have same : j = i := by omega
          subst same
          cases listed.symm.trans listed'
          have sameRegs : regs = regs' := by
            rcases isCall with rfl | rfl <;> simpa using isCall'
          subst sameRegs
          have first := firsts i
          rw [unseen, Option.none_or, if_pos index] at first
          have kept : (k.leave regs s (.switches k.sched.currentTask t.tcb)).tasks[i.val]? = some t := by
            rw [(leave_sched k regs s _).2]
            exact listed
          have began := after _ rfl _ _ _ kept first
          exact ⟨entryFound_iff.mpr began.1, began.2⟩
        · rintro right _ ⟨⟩ j u e listed' first
          rw [firsts] at first
          cases seen : k.firstEntry j with
          | some e' =>
              rw [seen] at first
              cases first
              exact started k rfl j u e listed' seen
          | none =>
              rw [seen, Option.none_or] at first
              by_cases same : s.currentTaskIndex = (j : Int)
              · rw [if_pos same] at first
                cases first
                have isI : j = i := by omega
                subst isI
                cases listed.symm.trans listed'
                obtain ⟨found, top⟩ := right k regs rfl isCall switches _ t turn listed seen
                exact ⟨entryFound_iff.mp found, top⟩
              · rw [if_neg same] at first
                cases first
      · constructor
        · rintro _ _ _ ⟨⟩ _ absurdly
          exact absurd absurdly switches
        · rintro _ k' ran
          exact starts_of_stays good started switches ran k' rfl

/-- Along every run each task begins at its entry on its own stack, whichever path dispatches
it first, if and only if every switch to a task that has not run is made with the entry point in
the place the restore looks at, and on the task's own stack. -/
theorem starts_alike_iff (nonzero : heapStart ≠ 0#64) (header : 24 ≤ heapSize.toNat)
    (bound : heapStart.toNat + heapSize.toNat < 2 ^ 64) (kernelL1 : Nat → BitVec 64)
    {heap : System} (reachable : Kmalloc.Reachable heapStart heapSize heap) (calls : List Call) :
    Always (step kernelL1) StartsAlike (start heap) calls ↔
      Admitted (step kernelL1) EntersRight (start heap) calls := by
  refine always_iff_admitted_while (fun s => ∀ k, s = some k → k.Ready heapStart heapSize) ?_
    (fun s c ready started => starts_step ready started) ?_ ?_
  · rintro s c ready _ k' ran
    obtain ⟨k, rfl, called⟩ := Option.bind_eq_some_iff.mp ran
    exact ready_call nonzero bound (ready k rfl) called
  · rintro _ ⟨⟩
    exact ⟨⟨sound_init, rfl, fun i t found => (nomatch found)⟩, List.forall_mem_nil _,
      List.forall_mem_nil _, fun _ => ⟨⟨reachable_layout nonzero header bound reachable,
        List.forall_mem_nil _⟩, rfl⟩⟩
  · rintro _ ⟨⟩ i t e listed
    cases listed

end

/-- The kernel's own two tasks: the first yields on the stack it was started with, and the
second goes on there. -/
theorem second_task_starts_on_first_stack : ∃ k sp,
    [.createTask 0x40080000#64 4096#64, .createTask 0x40081000#64 4096#64, .schedule idleRegs].foldl
      (step fun _ => 0#64) (start bootHeap) = some k ∧ k.entered = [⟨0, 0x40080000#64, sp⟩] ∧
    ¬ Always (step fun _ => 0#64) StartsAlike (start bootHeap)
      [.createTask 0x40080000#64 4096#64, .createTask 0x40081000#64 4096#64, .schedule idleRegs,
        .yield { idleRegs with sp := sp }] := by
  obtain ⟨t, u, k, ran, listed, intact, _, index, tasks, entered, other, _, us⟩ :=
    two_tasks (by decide) (by decide) (fun _ => 0#64) bootHeap_room 0x40080000#64 0x40081000#64
      4096#64 (by decide) (by decide) idleRegs
  refine ⟨k, _, ran, entered, fun always => ?_⟩
  have two : k.sched.numTasks = 2 := listed.count.symm.trans (by rw [tasks]; rfl)
  obtain ⟨regs, s, i, isCall, called, place, _, turn⟩ := call_switches (fun _ => 0#64)
    (c := .yield { idleRegs with sp := t.stackBase + 4096#64 - 16#64 }) listed
    (intact.noNull listed) (by rw [Call.Switches, two]; decide)
  have sameRegs : { idleRegs with sp := t.stackBase + 4096#64 - 16#64 } = regs := by
    simpa using isCall
  rw [index, two] at turn
  have one : s.currentTaskIndex = (1 : Nat) := place.trans turn.symm
  have last := always.last
  rw [show ∀ a b c d : Call, [a, b, c, d] = [a, b, c] ++ [d] from fun _ _ _ _ => rfl,
    List.foldl_append, ran] at last
  have first : (k.leave regs s (.switches k.sched.currentTask (k.sched.taskList i))).firstEntry 1 =
      some ⟨s.currentTaskIndex, returnWord k.heap.mem k.sched.currentTask (k.sched.taskList i) regs,
        regs.sp⟩ := by
    rw [firstEntry_append (leave_switches_entered _ _ _ _ _), Kernel.firstEntry, entered]
    exact if_pos one
  have second : (k.leave regs s (.switches k.sched.currentTask (k.sched.taskList i))).tasks[1]? =
      some u := by
    rw [(leave_sched k regs s _).2, tasks]
    rfl
  have began := (last _ called 1 u _ second first).2
  rw [← sameRegs, Task.top, us] at began
  exact other (add_right_cancel (sub_left_injective began))

/-- Two tasks are created, and the first is dispatched by the branch. -/
theorem starts_alike_first_dispatch : ∃ t u k,
    [.createTask 0x40080000#64 4096#64, .createTask 0x40081000#64 4096#64, .schedule idleRegs].foldl
      (step fun _ => 0#64) (start bootHeap) = some k ∧ k.tasks = [t, u] ∧
    k.entered = [⟨0, 0x40080000#64, t.stackBase + 4096#64 - 16#64⟩] ∧
    Always (step fun _ => 0#64) StartsAlike (start bootHeap)
      [.createTask 0x40080000#64 4096#64, .createTask 0x40081000#64 4096#64, .schedule idleRegs] := by
  obtain ⟨_, _, k, ran, _, _, idle, _⟩ := two_created (by decide) (by decide)
    (fun _ => 0#64) bootHeap_room 0x40080000#64 0x40081000#64 4096#64 (by decide) (by decide)
  obtain ⟨t, u, k', ran', _, _, _, _, tasks, entered, _⟩ := two_tasks (by decide) (by decide)
    (fun _ => 0#64) bootHeap_room 0x40080000#64 0x40081000#64 4096#64 (by decide) (by decide) idleRegs
  have right : EntersRight (some k) (.schedule idleRegs) := by
    rintro _ _ ⟨⟩ _ switches
    exact absurd switches (not_switches_of_idle idle idleRegs)
  have admitted : Admitted (step fun _ => 0#64) EntersRight (start bootHeap)
      ([.createTask 0x40080000#64 4096#64, .createTask 0x40081000#64 4096#64] ++ [.schedule idleRegs]) := by
    refine admitted_append.mpr ⟨⟨fun _ _ _ _ no => no.elim, fun _ _ _ _ no => no.elim, trivial⟩, ?_, trivial⟩
    rw [ran]
    exact right
  exact ⟨t, u, k', ran', tasks, entered,
    (starts_alike_iff (by decide) (by decide) (by decide) _ (.init fun _ => 0) _).mpr admitted⟩

end AstralOS.Sched
