import AstralOS.Foundation.SpinLock
import AstralOS.Sched.Interrupts
import AstralOS.Sched.RoundRobin

/-! Several cores in the scheduler: `spinlock_acquire` instruction by instruction (`load` is `ldaxr`,
`store` is `stxr`, and each has its `cbnz` behind it), and what is done under `sched_lock` statement
by statement. Which call a core makes next is left open, so `sched_yield` after `yields` is one of them. -/
namespace AstralOS.Sched
open Foundation Foundation.SpinLock

/-- The next statement under `sched_lock`, with the local variables it needs. -/
inductive Stmt where
  | addTest (task : Addr)
  | addStore (task : Addr)
  | addCount
  | scheduleTest
  | scheduleCurrent
  | scheduleIndex
  | schedulePick
  | scheduleTable
  | yieldTest
  | yieldOld
  | yieldIndex (old : Addr)
  | yieldPick (old : Addr)
  | yieldTable (old : Addr)

/-- The first statement after `spinlock_acquire`. -/
def Stmt.entry : Op → Stmt
  | .addTask task => addTest task
  | .schedule => scheduleTest
  | .yield => yieldTest

/-- One statement. `ttbr0_el1` is read through the task that was picked; `old_context` is only an address. -/
def Stmt.step (s : Scheduler) : Stmt → Option (Scheduler × (Stmt ⊕ Control))
  | addTest task => if s.numTasks ≥ maxTasks then some (s, .inr .returns) else some (s, .inl (addStore task))
  | addStore task => (slot s.numTasks).map fun i =>
      ({ s with taskList := Function.update s.taskList i task }, .inl addCount)
  | addCount => some ({ s with numTasks := s.numTasks + 1 }, .inr .returns)
  | scheduleTest => if s.numTasks = 0 then some (s, .inr .halts) else some (s, .inl scheduleCurrent)
  | scheduleCurrent => if s.currentTask = 0#64 then some (s, .inl scheduleIndex) else some (s, .inr .yields)
  | scheduleIndex => some ({ s with currentTaskIndex := 0 }, .inl schedulePick)
  | schedulePick => (slot s.currentTaskIndex).map fun i =>
      ({ s with currentTask := s.taskList i }, .inl scheduleTable)
  | scheduleTable => if s.currentTask = 0#64 then none else some (s, .inr (.branches s.currentTask))
  | yieldTest => if s.numTasks ≤ 1 then some (s, .inr .returns) else some (s, .inl yieldOld)
  | yieldOld => some (s, .inl (yieldIndex s.currentTask))
  | yieldIndex old =>
      some ({ s with currentTaskIndex := (s.currentTaskIndex + 1).tmod s.numTasks }, .inl (yieldPick old))
  | yieldPick old => (slot s.currentTaskIndex).map fun i =>
      ({ s with currentTask := s.taskList i }, .inl (yieldTable old))
  | yieldTable old => if s.currentTask = 0#64 then none else some (s, .inr (.switches old s.currentTask))

/-- A statement that is a test. -/
theorem test_lock {test : Prop} [Decidable test] {s s' : Scheduler} {yes no next : Stmt ⊕ Control}
    (stepped : (if test then some (s, yes) else some (s, no)) = some (s', next)) : s'.schedLock = s.schedLock := by
  by_cases taken : test
  · cases (if_pos taken).symm.trans stepped
    rfl
  · cases (if_neg taken).symm.trans stepped
    rfl

/-- A statement that does not write the lock word. -/
theorem write_lock {s s' t : Scheduler} {next last : Stmt ⊕ Control} (stepped : some (t, last) = some (s', next))
    (kept : t.schedLock = s.schedLock) : s'.schedLock = s.schedLock := by
  cases stepped
  exact kept

/-- A statement that goes through a pointer. -/
theorem through_lock {null : Prop} [Decidable null] {s s' t : Scheduler} {next last : Stmt ⊕ Control}
    (stepped : (if null then none else some (t, last)) = some (s', next)) (kept : t.schedLock = s.schedLock) :
    s'.schedLock = s.schedLock := by
  by_cases fault : null
  · cases (if_pos fault).symm.trans stepped
  · exact write_lock ((if_neg fault).symm.trans stepped) kept

/-- A statement that reads or writes an entry. -/
theorem slot_lock {k : Int} {f : Fin maxTasks → Scheduler × (Stmt ⊕ Control)} {s s' : Scheduler}
    {next : Stmt ⊕ Control} (stepped : (slot k).map f = some (s', next))
    (kept : ∀ i, (f i).1.schedLock = s.schedLock) : s'.schedLock = s.schedLock := by
  obtain ⟨i, _, same⟩ := Option.map_eq_some_iff.mp stepped
  exact (congrArg (fun r => r.1.schedLock) same).symm.trans (kept i)

theorem step_lock {p : Stmt} {s s' : Scheduler} {next : Stmt ⊕ Control} (stepped : p.step s = some (s', next)) :
    s'.schedLock = s.schedLock := by
  cases p with
  | addTest task => exact test_lock stepped
  | addStore task => exact slot_lock stepped fun _ => rfl
  | addCount => exact write_lock stepped rfl
  | scheduleTest => exact test_lock stepped
  | scheduleCurrent => exact test_lock stepped
  | scheduleIndex => exact write_lock stepped rfl
  | schedulePick => exact slot_lock stepped fun _ => rfl
  | scheduleTable => exact through_lock stepped rfl
  | yieldTest => exact test_lock stepped
  | yieldOld => exact write_lock stepped rfl
  | yieldIndex old => exact write_lock stepped rfl
  | yieldPick old => exact slot_lock stepped fun _ => rfl
  | yieldTable old => exact through_lock stepped rfl

/-- The scheduler's statics under `sched_lock`. -/
def sections : Code Scheduler Op Stmt Control where
  word := Scheduler.schedLock
  setWord s w := { s with schedLock := w }
  entry := Stmt.entry
  step p s := p.step s
  word_setWord _ _ := rfl
  word_step := step_lock

/-- Any number of cores in the scheduler. -/
abbrev Cores (ι : Type) := State ι Scheduler Op Stmt Control

/-- After `sched_init`. -/
def idleCores (ι : Type) : Cores ι := ⟨schedInit boot, fun _ => false, fun _ => .idle, []⟩

/-! A section without other cores. -/

section
variable {s t : Scheduler} {r : Control} {i : Fin maxTasks}

theorem step_addStore (found : slot s.numTasks = some i) (task : Addr) : sections.step (.addStore task) s =
    some ({ s with taskList := Function.update s.taskList i task }, .inl .addCount) := by
  change Option.map _ (slot s.numTasks) = _
  rw [found]
  rfl

theorem step_scheduleIndex (s : Scheduler) :
    sections.step .scheduleIndex s = some ({ s with currentTaskIndex := 0 }, .inl .schedulePick) := rfl

theorem step_yieldOld (s : Scheduler) :
    sections.step .yieldOld s = some (s, .inl (.yieldIndex s.currentTask)) := rfl

theorem step_yieldIndex (s : Scheduler) (old : Addr) : sections.step (.yieldIndex old) s =
    some ({ s with currentTaskIndex := (s.currentTaskIndex + 1).tmod s.numTasks }, .inl (.yieldPick old)) := rfl

theorem step_schedulePick (found : slot s.currentTaskIndex = some i) :
    sections.step .schedulePick s = some ({ s with currentTask := s.taskList i }, .inl .scheduleTable) := by
  change Option.map _ (slot s.currentTaskIndex) = _
  rw [found]
  rfl

theorem step_yieldPick (found : slot s.currentTaskIndex = some i) (old : Addr) :
    sections.step (.yieldPick old) s = some ({ s with currentTask := s.taskList i }, .inl (.yieldTable old)) := by
  change Option.map _ (slot s.currentTaskIndex) = _
  rw [found]
  rfl

theorem addTask_finishes (task : Addr) : sections.Finishes (.addTest task) s r t ↔ addTaskLocked task s = some (t, r) := by
  unfold addTaskLocked
  by_cases many : s.numTasks ≥ maxTasks
  · rw [finishes_last (if_pos many), if_pos many, Option.some.injEq]
  rw [finishes_step (if_neg many), if_neg many]
  cases found : slot s.numTasks with
  | none =>
      refine iff_of_false (finishes_fault ?_) fun h => nomatch h
      change Option.map _ (slot s.numTasks) = none
      rw [found]
      rfl
  | some i => rw [finishes_step (step_addStore found task), finishes_last rfl, Option.map_some, Option.some.injEq]

theorem schedule_finishes : sections.Finishes .scheduleTest s r t ↔ scheduleLocked s = some (t, r) := by
  unfold scheduleLocked
  by_cases none_ : s.numTasks = 0
  · rw [finishes_last (if_pos none_), if_pos none_, Option.some.injEq]
  rw [finishes_step (if_neg none_), if_neg none_]
  by_cases idle : s.currentTask = 0#64
  · have first : slot 0 = some ⟨0, by decide⟩ := slot_of_lt (by decide)
    rw [finishes_step (if_pos idle), finishes_step (step_scheduleIndex s), finishes_step (step_schedulePick first),
      if_pos idle, first, Option.bind_some]
    by_cases null : s.taskList ⟨0, by decide⟩ = 0#64
    · rw [if_pos null]
      exact iff_of_false (finishes_fault (if_pos null)) fun h => nomatch h
    · rw [if_neg null, finishes_last (if_neg null), Option.some.injEq]
  · rw [finishes_last (if_neg idle), if_neg idle, Option.some.injEq]

theorem yieldLocked_many (many : ¬ s.numTasks ≤ 1) : yieldLocked s =
    (slot ((s.currentTaskIndex + 1).tmod s.numTasks)).bind fun i =>
      if s.taskList i = 0#64 then none
      else some ({ s with
        currentTaskIndex := (s.currentTaskIndex + 1).tmod s.numTasks
        currentTask := s.taskList i }, .switches s.currentTask (s.taskList i)) := if_neg many

theorem yield_finishes : sections.Finishes .yieldTest s r t ↔ yieldLocked s = some (t, r) := by
  by_cases few : s.numTasks ≤ 1
  · rw [finishes_last (if_pos few), yieldLocked, if_pos few, Option.some.injEq]
  rw [finishes_step (if_neg few), finishes_step (step_yieldOld s),
    finishes_step (step_yieldIndex s s.currentTask), yieldLocked_many few]
  cases found : slot ((s.currentTaskIndex + 1).tmod s.numTasks) with
  | none =>
      refine iff_of_false (finishes_fault ?_) fun h => nomatch h
      change Option.map _ (slot ((s.currentTaskIndex + 1).tmod s.numTasks)) = none
      rw [found]
      rfl
  | some i =>
      rw [finishes_step (step_yieldPick found s.currentTask), Option.bind_some]
      by_cases null : s.taskList i = 0#64
      · rw [if_pos null]
        exact iff_of_false (finishes_fault (if_pos null)) fun h => nomatch h
      · rw [if_neg null, finishes_last (if_neg null), Option.some.injEq]

theorem finishes_iff (op : Op) : sections.Finishes (sections.entry op) s r t ↔ body op s = some (t, r) := by
  cases op with
  | addTask task => exact addTask_finishes task
  | schedule => exact schedule_finishes
  | yield => exact yield_finishes

end

/-- One call after another in the atomic model, each with what it came to. -/
def replay : List (Op × Control) → Scheduler → Option Scheduler
  | [], s => some s
  | (op, r) :: rest, s => (locked (body op) s).bind fun q => if q.2 = r then replay rest q.1 else none

/-- The tasks that have been added, in the order of the calls. -/
def additions (done : List (Op × Control)) : List Addr :=
  done.filterMap fun q =>
    match q.1 with
    | .addTask task => some task
    | _ => none

/-- The first eight additions are in the list: none is lost, and none is there twice. -/
structure Lists (done : List (Op × Control)) (s : Scheduler) : Prop where
  count : s.numTasks = (min (additions done).length maxTasks : Nat)
  entries : ∀ (i : Fin maxTasks) (task : Addr), (additions done)[(i : Nat)]? = some task → s.taskList i = task
  index : -1 ≤ s.currentTaskIndex

/-- What `spinlock_acquire` and `spinlock_release` are for. The statics are those of the finished
calls of the atomic model, one after another, and of the part that the core with the lock has done
of its own. With no null task added, the core with the lock can give it back and any core that waits
can then take it. -/
structure TakeTurns {ι : Type} [DecidableEq ι] (m : Cores ι) : Prop where
  excludes : ∀ i j, (m.point i).Holds → (m.point j).Holds → i = j
  turns : ∃ s, replay m.done (schedInit boot) = some s ∧ Lists m.done s ∧ sections.Turn m s
  leaves : 0#64 ∉ additions m.done → ∀ i, (m.point i).Holds → ∃ m', Alone sections i m m' ∧ m'.point i = .idle
  enters : 0#64 ∉ additions m.done → ∀ i op, (m.point i).Waits op →
    ∃ m₁ m₂, (m₁ = m ∨ ∃ j, Alone sections j m m₁) ∧ Alone sections i m₁ m₂ ∧ m₂.point i = .inside op (Stmt.entry op)

section
variable {s t u start : Scheduler} {r : Control} {op : Op} {done : List (Op × Control)}

/-! The finished calls in the atomic model. -/

theorem replay_snoc (before : replay done s = some t) (next : locked (body op) t = some (u, r)) :
    replay (done ++ [(op, r)]) s = some u := by
  induction done generalizing s with
  | nil =>
      cases before
      rw [List.nil_append, replay, next, Option.bind_some, if_pos rfl]
      rfl
  | cons q rest ih =>
      obtain ⟨first, ran, later⟩ := Option.bind_eq_some_iff.mp before
      by_cases same : first.2 = q.2
      · rw [List.cons_append, replay, ran, Option.bind_some, if_pos same]
        exact ih ((if_pos same).symm.trans later)
      · cases (if_neg same).symm.trans later

theorem performs_iff : sections.Performs op s r t ↔
    ∃ u, body op { s with schedLock := 1#32 } = some (u, r) ∧ t = spinlockRelease u := by
  constructor
  · rintro ⟨u, finishes, rfl⟩
    exact ⟨u, (finishes_iff op).mp finishes, rfl⟩
  · rintro ⟨u, ran, rfl⟩
    exact ⟨u, (finishes_iff op).mpr ran, rfl⟩

theorem serial_replays (serial : Serial sections start done s) (unlocked : start.schedLock = 0#32) :
    replay done start = some s ∧ s.schedLock = 0#32 := by
  induction serial with
  | start => exact ⟨rfl, unlocked⟩
  | next _ performs ih =>
      obtain ⟨before, free⟩ := ih
      obtain ⟨u, ran, rfl⟩ := performs_iff.mp performs
      exact ⟨replay_snoc before (locked_eq_some.mpr ⟨free, u, ran, rfl⟩), rfl⟩

/-! The additions. -/

theorem additions_add (done : List (Op × Control)) (task : Addr) (r : Control) :
    additions (done ++ [(.addTask task, r)]) = additions done ++ [task] := List.filterMap_append

theorem Lists.lock (lists : Lists done s) (w : BitVec 32) : Lists done { s with schedLock := w } :=
  ⟨lists.count, lists.entries, lists.index⟩

theorem additions_dispatch (done : List (Op × Control)) (dispatch : op = .schedule ∨ op = .yield) (r : Control) :
    additions (done ++ [(op, r)]) = additions done := by
  rcases dispatch with rfl | rfl
  · exact List.filterMap_append.trans (List.append_nil _)
  · exact List.filterMap_append.trans (List.append_nil _)

/-- A call that only dispatches. -/
theorem Lists.dispatch (lists : Lists done s) (dispatch : op = .schedule ∨ op = .yield)
    (count : t.numTasks = s.numTasks) (list : t.taskList = s.taskList) (index : -1 ≤ t.currentTaskIndex) :
    Lists (done ++ [(op, r)]) t := by
  have other := additions_dispatch done dispatch r
  refine ⟨?_, fun i task found => ?_, index⟩
  · rw [other, count]
    exact lists.count
  · rw [other] at found
    rw [list]
    exact lists.entries i task found

theorem addTask_lists (lists : Lists done s) {task : Addr} (ran : addTaskLocked task s = some (t, r)) :
    Lists (done ++ [(.addTask task, r)]) t := by
  have count := lists.count
  by_cases many : s.numTasks ≥ maxTasks
  · cases (if_pos many).symm.trans ran
    refine ⟨?_, fun i other found => ?_, lists.index⟩
    · rw [additions_add, List.length_append, List.length_singleton]
      omega
    · have inside := i.isLt
      rw [additions_add, List.getElem?_append_left (by omega)] at found
      exact lists.entries i other found
  · obtain ⟨k, found, same⟩ := Option.map_eq_some_iff.mp ((if_neg many).symm.trans ran)
    cases same
    have place := slot_eq_some found
    have last : (additions done).length = (k : Nat) := by omega
    refine ⟨?_, fun i other entry => ?_, lists.index⟩
    · have inside := k.isLt
      change s.numTasks + 1 = _
      rw [additions_add, List.length_append, List.length_singleton]
      omega
    · change Function.update s.taskList k task i = other
      rw [additions_add] at entry
      rcases lt_trichotomy (i : Nat) (additions done).length with below | here | above
      · rw [List.getElem?_append_left below] at entry
        rw [Function.update_of_ne fun same : i = k => by omega]
        exact lists.entries i other entry
      · rw [List.getElem?_append_right here.ge, here, Nat.sub_self] at entry
        obtain rfl : i = k := Fin.ext (here.trans last)
        cases entry
        exact Function.update_self ..
      · rw [List.getElem?_append_right above.le, List.getElem?_eq_none (Nat.sub_pos_of_lt above)] at entry
        cases entry

theorem schedule_lists (lists : Lists done s) (ran : scheduleLocked s = some (t, r)) :
    Lists (done ++ [(.schedule, r)]) t := by
  unfold scheduleLocked at ran
  by_cases none_ : s.numTasks = 0
  · rw [if_pos none_] at ran
    cases ran
    exact lists.dispatch (.inl rfl) rfl rfl lists.index
  rw [if_neg none_] at ran
  by_cases idle : s.currentTask = 0#64
  · rw [if_pos idle] at ran
    obtain ⟨i, _, ran⟩ := Option.bind_eq_some_iff.mp ran
    by_cases null : s.taskList i = 0#64
    · cases (if_pos null).symm.trans ran
    · cases (if_neg null).symm.trans ran
      exact lists.dispatch (.inl rfl) rfl rfl (Int.negSucc_lt_zero 0).le
  · rw [if_neg idle] at ran
    cases ran
    exact lists.dispatch (.inl rfl) rfl rfl lists.index

theorem yield_index (lists : Lists done s) : 0 ≤ (s.currentTaskIndex + 1).tmod s.numTasks := by
  have index := lists.index
  exact Int.tmod_nonneg _ (by omega)

theorem yield_lists (lists : Lists done s) (ran : yieldLocked s = some (t, r)) : Lists (done ++ [(.yield, r)]) t := by
  by_cases few : s.numTasks ≤ 1
  · cases (if_pos few).symm.trans ran
    exact lists.dispatch (.inr rfl) rfl rfl lists.index
  · rw [yieldLocked_many few] at ran
    obtain ⟨i, _, ran⟩ := Option.bind_eq_some_iff.mp ran
    by_cases null : s.taskList i = 0#64
    · cases (if_pos null).symm.trans ran
    · cases (if_neg null).symm.trans ran
      exact lists.dispatch (.inr rfl) rfl rfl ((by decide : (-1 : Int) ≤ 0).trans (yield_index lists))

theorem body_lists (lists : Lists done s) (ran : body op s = some (t, r)) : Lists (done ++ [(op, r)]) t := by
  cases op with
  | addTask task => exact addTask_lists lists ran
  | schedule => exact schedule_lists lists ran
  | yield => exact yield_lists lists ran

theorem serial_lists (serial : Serial sections (schedInit boot) done s) : Lists done s := by
  induction serial with
  | start => exact ⟨rfl, fun i task found => (nomatch found), le_rfl⟩
  | next _ performs ih =>
      obtain ⟨u, ran, rfl⟩ := performs_iff.mp performs
      exact (body_lists (ih.lock 1#32) ran).lock 0#32

/-! Calls come to an end. -/

theorem Lists.noNull (lists : Lists done s) (tasks : 0#64 ∉ additions done) : NoNull s := by
  intro i below null
  have count := lists.count
  have inside : (i : Nat) < (additions done).length := by omega
  have entry := lists.entries i _ (List.getElem?_eq_getElem inside)
  rw [null] at entry
  exact tasks (entry ▸ List.getElem_mem inside)

theorem body_runs (lists : Lists done s) (tasks : 0#64 ∉ additions done) (op : Op) :
    ∃ t r, body op s = some (t, r) := by
  have count := lists.count
  have filled := lists.noNull tasks
  cases op with
  | addTask task =>
      by_cases many : s.numTasks ≥ maxTasks
      · exact ⟨s, .returns, if_pos many⟩
      · obtain ⟨n, place⟩ := Int.eq_ofNat_of_zero_le (by omega : 0 ≤ s.numTasks)
        have found : slot s.numTasks = some ⟨n, by omega⟩ := place ▸ slot_of_lt (by omega)
        change ∃ t r, addTaskLocked task s = some (t, r)
        rw [addTaskLocked, if_neg many, found]
        exact ⟨_, _, rfl⟩
  | schedule =>
      by_cases none_ : s.numTasks = 0
      · exact ⟨s, .halts, if_pos none_⟩
      by_cases idle : s.currentTask = 0#64
      · have task := filled ⟨0, by decide⟩ (by change (0 : Int) < s.numTasks; omega)
        exact ⟨_, _, (if_neg none_).trans ((if_pos idle).trans (if_neg task))⟩
      · exact ⟨s, .yields, (if_neg none_).trans (if_neg idle)⟩
  | yield =>
      by_cases few : s.numTasks ≤ 1
      · exact ⟨s, .returns, if_pos few⟩
      · obtain ⟨n, place⟩ := Int.eq_ofNat_of_zero_le (yield_index lists)
        have below : (n : Int) < s.numTasks := place ▸ Int.tmod_lt_of_pos _ (by omega)
        have found : slot ((s.currentTaskIndex + 1).tmod s.numTasks) = some ⟨n, by omega⟩ :=
          place ▸ slot_of_lt (by omega)
        change ∃ t r, yieldLocked s = some (t, r)
        rw [yieldLocked_many few, found]
        exact ⟨_, _, if_neg (filled ⟨n, by omega⟩ below)⟩

end

/-- Any number of cores, in every order of their instructions. -/
theorem cores_take_turns {ι : Type} [DecidableEq ι] {m : Cores ι} (reached : Reached sections (idleCores ι) m) :
    TakeTurns m := by
  have ordered : Ordered sections (schedInit boot) m := ordered_reached (fun _ => rfl) rfl rfl reached
  obtain ⟨_, s, serial, _, turn⟩ := id ordered
  have lists := serial_lists serial
  have completes : 0#64 ∉ additions m.done → ∀ j, (m.point j).Holds → sections.Completes m.shared (m.point j) := by
    intro tasks j holds
    refine partway_completes (turn.partway holds).1 fun op _ => ?_
    obtain ⟨t, r, ran⟩ := body_runs (lists.lock 1#32) tasks op
    exact ⟨r, t, (finishes_iff op).mpr ran⟩
  refine ⟨fun i j => turn.alone, ⟨s, (serial_replays serial rfl).1, lists, turn⟩, ?_, ?_⟩
  · exact fun tasks i holds => holder_leaves holds (completes tasks i holds)
  · exact fun tasks i op waits => waits_gets ordered waits (completes tasks)

/-- Both cores have found the lock free, and the exclusive store of the second has failed. -/
theorem cores_take_turns_two : ∃ m : Cores (Fin 2), (m.point 0).Holds ∧ (m.point 1).Waits (.addTask 0x2000#64) ∧
    TakeTurns m := by
  have called : Reached sections (idleCores (Fin 2)) _ :=
    .step (.call 1 (.addTask 0x2000#64)) (.step (.call 0 (.addTask 0x1000#64)) .start rfl) rfl
  have tested : Reached sections (idleCores (Fin 2)) _ :=
    .step (.advance 1) (.step (.advance 0) (.step (.advance 1) (.step (.advance 0) called rfl) rfl) rfl) rfl
  have stored : Reached sections (idleCores (Fin 2)) _ := .step (.advance 1) (.step (.advance 0) tested rfl) rfl
  refine ⟨_, ?_, ?_, cores_take_turns stored⟩
  · exact (rfl : (0#32 : BitVec 32) = 0#32)
  · exact (⟨rfl, by decide⟩ : _ ∧ 1#32 ≠ 0#32)

end AstralOS.Sched
