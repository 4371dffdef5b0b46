import AstralOS.Foundation.Rotation
import AstralOS.Sched.Scheduler

/-! Dispatch by `sched_yield` goes round the task list and leaves nobody out. -/
namespace AstralOS.Sched
open Foundation

/-- What holds between calls. -/
structure Sound (s : Scheduler) : Prop where
  unlocked : s.schedLock = 0#32
  count : 0 ≤ s.numTasks ∧ s.numTasks ≤ maxTasks
  index : -1 ≤ s.currentTaskIndex
  current : s.currentTask ≠ 0#64 → ∃ i : Fin maxTasks, s.currentTaskIndex = (i : Nat) ∧
    (i : Nat) < s.numTasks ∧ s.currentTask = s.taskList i

/-- The entries of `s` are entries of `s'`. -/
def Keeps (s s' : Scheduler) : Prop :=
  s.numTasks ≤ s'.numTasks ∧
    ∀ i : Fin maxTasks, (i : Nat) < s.numTasks → s'.taskList i = s.taskList i

/-- Everything a call can do to a sound scheduler. -/
inductive Did (s s' : Scheduler) : Op → Control → Prop
  | full (task : Addr) (h : s' = s) (many : (maxTasks : Int) ≤ s.numTasks) : Did s s' (.addTask task) .returns
  | added (task : Addr) (i : Fin maxTasks) (place : s.numTasks = (i : Nat))
      (h : s' = { s with taskList := Function.update s.taskList i task, numTasks := s.numTasks + 1 }) :
      Did s s' (.addTask task) .returns
  | halted (h : s' = s) (none : s.numTasks = 0) : Did s s' .schedule .halts
  | branched (i : Fin maxTasks) (first : (i : Nat) = 0) (some : 0 < s.numTasks)
      (idle : s.currentTask = 0#64) (task : s.taskList i ≠ 0#64)
      (h : s' = { s with currentTaskIndex := 0, currentTask := s.taskList i }) :
      Did s s' .schedule (.branches (s.taskList i))
  | alone (op : Op) (dispatch : op = .yield ∨ op = .schedule ∧ 0 < s.numTasks ∧ s.currentTask ≠ 0#64)
      (h : s' = s) (few : s.numTasks ≤ 1) : Did s s' op .returns
  | switched (op : Op) (i : Fin maxTasks) (dispatch : op = .yield ∨ op = .schedule ∧ s.currentTask ≠ 0#64)
      (many : 1 < s.numTasks)
      (turn : (s.currentTaskIndex + 1).tmod s.numTasks = (i : Nat)) (task : s.taskList i ≠ 0#64)
      (h : s' = { s with currentTaskIndex := (i : Nat), currentTask := s.taskList i }) :
      Did s s' op (.switches s.currentTask (s.taskList i))

/-- The entry a call dispatches through `context_switch`, which only `sched_yield` does. -/
def dispatched (s : Scheduler) : Control → List Int
  | .switches _ _ => [s.currentTaskIndex]
  | _ => []

/-- The state after a run of calls, and the entries dispatched by `sched_yield` on the way. -/
def exec : List Op → Scheduler → Option (Scheduler × List Int)
  | [], s => some (s, [])
  | op :: rest, s => (call op s).bind fun r =>
      (exec rest r.1).map fun q => (q.1, dispatched r.1 r.2 ++ q.2)

/-- The list as a ring with the current entry under its cursor. -/
def ring (s : Scheduler) : Ring := ⟨s.numTasks.toNat, s.currentTaskIndex.toNat⟩

section
variable {s s' t : Scheduler} {c : Control} {op : Op} {ops : List Op} {log : List Int}

theorem did_addTask (unlocked : s.schedLock = 0#32) {task : Addr}
    (ran : schedAddTask task s = some (s', c)) : Did s s' (.addTask task) c := by
  obtain ⟨_, t, body, rfl⟩ := locked_eq_some.mp ran
  obtain ⟨current, list, n, index, lock⟩ := s
  obtain rfl : lock = 0#32 := unlocked
  unfold addTaskLocked at body
  by_cases many : n ≥ maxTasks
  · rw [if_pos many] at body
    cases body
    exact .full task rfl many
  · rw [if_neg many, Option.map_eq_some_iff] at body
    obtain ⟨i, found, eq⟩ := body
    cases eq
    exact .added task i (slot_eq_some found) rfl

theorem did_yield (unlocked : s.schedLock = 0#32) (ran : schedYield s = some (s', c))
    (dispatch : op = .yield ∨ op = .schedule ∧ 0 < s.numTasks ∧ s.currentTask ≠ 0#64) :
    Did s s' op c := by
  obtain ⟨_, t, body, rfl⟩ := locked_eq_some.mp ran
  obtain ⟨current, list, n, index, lock⟩ := s
  obtain rfl : lock = 0#32 := unlocked
  unfold yieldLocked at body
  by_cases few : n ≤ 1
  · rw [if_pos few] at body
    cases body
    exact .alone op dispatch rfl few
  · rw [if_neg few, Option.bind_eq_some_iff] at body
    obtain ⟨i, found, eq⟩ := body
    by_cases null : list i = 0#64
    · rw [if_pos null] at eq
      cases eq
    · rw [if_neg null] at eq
      cases eq
      have place := slot_eq_some found
      exact .switched op i (dispatch.imp_right fun busy => ⟨busy.1, busy.2.2⟩) (Int.not_le.mp few) place null
        (by rw [← place]; rfl)

theorem did_schedule (unlocked : s.schedLock = 0#32) (count : 0 ≤ s.numTasks)
    (ran : schedSchedule s = some (s', c)) : Did s s' .schedule c := by
  obtain ⟨⟨t, d⟩, first, rest⟩ := Option.bind_eq_some_iff.mp ran
  obtain ⟨_, u, body, rfl⟩ := locked_eq_some.mp first
  obtain ⟨current, list, n, index, lock⟩ := s
  obtain rfl : lock = 0#32 := unlocked
  unfold scheduleLocked at body
  by_cases none : n = 0
  · rw [if_pos none] at body
    cases body
    cases rest
    exact .halted rfl none
  · rw [if_neg none] at body
    by_cases idle : current = 0#64
    · rw [if_pos idle, Option.bind_eq_some_iff] at body
      obtain ⟨i, found, eq⟩ := body
      have place := slot_eq_some found
      by_cases null : list i = 0#64
      · rw [if_pos null] at eq
        cases eq
      · rw [if_neg null] at eq
        cases eq
        cases rest
        refine .branched i ?_ ?_ idle null rfl
        · omega
        · change 0 < n
          change 0 ≤ n at count
          omega
    · rw [if_neg idle] at body
      cases body
      refine did_yield rfl rest (.inr ⟨rfl, ?_, idle⟩)
      change 0 < n
      change 0 ≤ n at count
      omega

theorem call_did (sound : Sound s) (ran : call op s = some (s', c)) : Did s s' op c := by
  cases op with
  | addTask task => exact did_addTask sound.unlocked ran
  | schedule => exact did_schedule sound.unlocked sound.count.1 ran
  | yield => exact did_yield sound.unlocked ran (.inl rfl)

theorem sound_init : Sound (schedInit boot) := ⟨rfl, by decide, le_rfl, fun busy => absurd rfl busy⟩

theorem Did.sound (did : Did s s' op c) (sound : Sound s) : Sound s' := by
  cases did with
  | full task h many => exact h ▸ sound
  | halted h none => exact h ▸ sound
  | alone op dispatch h few => exact h ▸ sound
  | added task i place h =>
      subst h
      have inside := i.isLt
      refine ⟨sound.unlocked, ⟨?_, ?_⟩, sound.index, fun busy => ?_⟩
      · change 0 ≤ s.numTasks + 1
        omega
      · change s.numTasks + 1 ≤ maxTasks
        omega
      · obtain ⟨k, index, below, task⟩ := sound.current busy
        have other : k ≠ i := by
          rintro rfl
          omega
        refine ⟨k, index, ?_, ?_⟩
        · change (k : Int) < s.numTasks + 1
          omega
        · change s.currentTask = Function.update s.taskList i _ k
          rw [Function.update_of_ne other]
          exact task
  | branched i first some idle task h =>
      subst h
      have zero : (-1 : Int) ≤ 0 := by decide
      exact ⟨sound.unlocked, sound.count, zero, fun _ => ⟨i, by simp [first], by simpa [first] using some, rfl⟩⟩
  | switched op i dispatch many turn task h =>
      subst h
      refine ⟨sound.unlocked, sound.count, (by decide : (-1 : Int) ≤ 0).trans (Int.natCast_nonneg _), fun _ => ⟨i, rfl, ?_, rfl⟩⟩
      change (i : Int) < s.numTasks
      rw [← turn]
      exact Int.tmod_lt_of_pos _ (by omega)

theorem Did.keeps (did : Did s s' op c) : Keeps s s' := by
  cases did with
  | added task i place h =>
      subst h
      refine ⟨Int.le_add_one le_rfl, fun k below => Function.update_of_ne ?_ _ _⟩
      rintro rfl
      omega
  | full task h many => exact h ▸ ⟨le_rfl, fun _ _ => rfl⟩
  | halted h none => exact h ▸ ⟨le_rfl, fun _ _ => rfl⟩
  | alone op dispatch h few => exact h ▸ ⟨le_rfl, fun _ _ => rfl⟩
  | branched i first some idle task h => exact h ▸ ⟨le_rfl, fun _ _ => rfl⟩
  | switched op i dispatch many turn task h => exact h ▸ ⟨le_rfl, fun _ _ => rfl⟩

/-- The index `sched_yield` computes is the seat the ring turns to. -/
theorem visit_turn (sound : Sound s) (busy : s.currentTask ≠ 0#64) {i : Nat}
    (turn : (s.currentTaskIndex + 1).tmod s.numTasks = i) : (ring s).visit .turn = [i] := by
  obtain ⟨k, index, _, _⟩ := sound.current busy
  have positive := sound.count.1
  have cast : ((s.currentTaskIndex.toNat + 1 : Nat) : Int) = s.currentTaskIndex + 1 := by omega
  have size : (s.numTasks.toNat : Int) = s.numTasks := by omega
  rw [← cast, ← size, ← Int.ofNat_tmod] at turn
  exact congrArg (fun n => [n]) (Int.ofNat.inj turn)

/-- While a task is current a call turns the ring, grows it or leaves it alone. -/
theorem Did.ring (did : Did s s' op c) (sound : Sound s) (busy : s.currentTask ≠ 0#64) :
    s'.currentTask ≠ 0#64 ∧ ∃ a, ring s' = (ring s).step a ∧
      dispatched s' c = ((ring s).visit a).map Nat.cast := by
  cases did with
  | full task h many => exact ⟨h ▸ busy, .idle, h ▸ rfl, rfl⟩
  | halted h none => exact ⟨h ▸ busy, .idle, h ▸ rfl, rfl⟩
  | alone op dispatch h few => exact ⟨h ▸ busy, .idle, h ▸ rfl, rfl⟩
  | branched i first some idle task h => exact absurd idle busy
  | added task i place h =>
      subst h
      have count : (s.numTasks + 1).toNat = s.numTasks.toNat + 1 := by
        have := sound.count.1
        omega
      exact ⟨busy, .grow, by simp only [Sched.ring, Ring.step, count], rfl⟩
  | switched op i dispatch many turn task h =>
      subst h
      have visited := visit_turn sound busy turn
      refine ⟨task, .turn, ?_, ?_⟩
      · have moved := List.singleton_injective visited
        simp only [Ring.step, moved]
        rfl
      · rw [visited]
        rfl

theorem exec_cons (ran : exec (op :: ops) s = some (s', log)) :
    ∃ t c seen, call op s = some (t, c) ∧ exec ops t = some (s', seen) ∧
      log = dispatched t c ++ seen := by
  obtain ⟨⟨t, c⟩, first, rest⟩ := Option.bind_eq_some_iff.mp ran
  obtain ⟨⟨u, seen⟩, later, eq⟩ := Option.map_eq_some_iff.mp rest
  cases eq
  exact ⟨t, c, seen, first, later, rfl⟩

theorem Keeps.trans (first : Keeps s t) (second : Keeps t s') : Keeps s s' :=
  ⟨first.1.trans second.1, fun i below =>
    (second.2 i (below.trans_le first.1)).trans (first.2 i below)⟩

theorem exec_keeps (sound : Sound s) (ran : exec ops s = some (s', log)) :
    Sound s' ∧ Keeps s s' := by
  induction ops generalizing s log with
  | nil =>
      cases ran
      exact ⟨sound, le_rfl, fun _ _ => rfl⟩
  | cons op rest ih =>
      obtain ⟨t, c, seen, first, later, _⟩ := exec_cons ran
      have did := call_did sound first
      obtain ⟨sound', kept⟩ := ih (did.sound sound) later
      exact ⟨sound', did.keeps.trans kept⟩

/-- While a task is current, a run of calls is a run of the ring. -/
theorem exec_ring (sound : Sound s) (busy : s.currentTask ≠ 0#64)
    (ran : exec ops s = some (s', log)) : s'.currentTask ≠ 0#64 ∧
      ∃ acts, ring s' = acts.foldl Ring.step (ring s) ∧ log = ((ring s).visits acts).map Nat.cast := by
  induction ops generalizing s log with
  | nil =>
      cases ran
      exact ⟨busy, [], rfl, rfl⟩
  | cons op rest ih =>
      obtain ⟨t, c, seen, first, later, rfl⟩ := exec_cons ran
      have did := call_did sound first
      obtain ⟨busyT, a, moved, visited⟩ := did.ring sound busy
      obtain ⟨busy', acts, ran', seen'⟩ := ih (did.sound sound) busyT later
      rw [moved] at ran' seen'
      exact ⟨busy', a :: acts, ran', by rw [visited, seen', ← List.map_append]; rfl⟩

/-- A dispatch by `sched_yield` turns the ring to the entry it dispatches, from a current task or
from none. -/
theorem exec_dispatch (sound : Sound s) {k : Int} (ran : exec [op] s = some (t, [k])) :
    ∃ i : Nat, k = i ∧ i < s.numTasks ∧ (s.currentTask ≠ 0#64 → (ring s).visit .turn = [i]) ∧
      ring t = ⟨s.numTasks.toNat, i⟩ ∧ t.currentTask ≠ 0#64 := by
  obtain ⟨t', c, seen, first, later, eq⟩ := exec_cons ran
  cases later
  rw [List.append_nil] at eq
  have did := call_did sound first
  cases did with
  | switched op i dispatch many turn task h =>
      subst h
      have below : (i : Int) < s.numTasks := turn ▸ Int.tmod_lt_of_pos _ (by omega)
      exact ⟨i, List.singleton_injective eq, below, fun busy => visit_turn sound busy turn, rfl, task⟩
  | full task h many => cases eq
  | added task i place h => cases eq
  | halted h none => cases eq
  | branched i first some idle task h => cases eq
  | alone op dispatch h few => cases eq

/-- Between two dispatches of entry `k` in a row, every other entry known at the first is
dispatched once. -/
theorem fair_between_dispatches (sound : Sound s) {k : Int} (first : exec [op] s = some (t, [k]))
    {u v : Scheduler} {seen : List Int} (between : exec ops t = some (u, seen)) (away : k ∉ seen)
    {op' : Op} (second : exec [op'] u = some (v, [k])) {j : Int} (old : 0 ≤ j ∧ j < s.numTasks)
    (other : j ≠ k) : seen.count j = 1 := by
  have soundT := (exec_keeps sound first).1
  have soundU := (exec_keeps soundT between).1
  obtain ⟨i, rfl, below, _, start, busyT⟩ := exec_dispatch sound first
  obtain ⟨busyU, acts, reached, rfl⟩ := exec_ring soundT busyT between
  obtain ⟨i', eq, _, turn, _⟩ := exec_dispatch soundU second
  obtain rfl : i = i' := Int.ofNat.inj eq
  have back := turn busyU
  obtain ⟨n, rfl⟩ := Int.eq_ofNat_of_zero_le old.1
  rw [start] at reached away ⊢
  rw [reached] at back
  rw [List.count_map_of_injective _ _ Nat.cast_injective]
  have absent : i ∉ Ring.visits ⟨s.numTasks.toNat, i⟩ acts := fun seen =>
    away (List.mem_map_of_mem seen)
  exact Ring.fair_between_visits (by omega) absent back (by omega) fun same => other (by rw [same])

/-- `sched_init` starts runs in which the current task is an entry of the list, entries stay,
and dispatch goes round. -/
theorem round_robin (ops : List Op) (ran : exec ops (schedInit boot) = some (s, log)) :
    (s.currentTask ≠ 0#64 → 0 ≤ s.currentTaskIndex ∧ s.currentTaskIndex < s.numTasks ∧
      s.numTasks ≤ maxTasks ∧ (slot s.currentTaskIndex).map s.taskList = some s.currentTask) ∧
    (∀ more t seen, exec more s = some (t, seen) → Keeps s t) ∧
    ∀ op t k between u seen op' v, exec [op] s = some (t, [k]) → exec between t = some (u, seen) →
      k ∉ seen → exec [op'] u = some (v, [k]) →
      ∀ j, 0 ≤ j ∧ j < s.numTasks → j ≠ k → seen.count j = 1 := by
  have sound := (exec_keeps sound_init ran).1
  refine ⟨fun busy => ?_, fun more t seen later => (exec_keeps sound later).2,
    fun op t k between u seen op' v first mid away second j old other =>
      fair_between_dispatches sound first mid away second old other⟩
  obtain ⟨i, index, below, task⟩ := sound.current busy
  rw [index, slot_of_lt i.isLt, task]
  exact ⟨Int.natCast_nonneg _, below, sound.count.2, rfl⟩

/-- The wrap falls between the two dispatches of entry 1, and so does an addition. -/
theorem round_robin_wraps : ∃ s t u log seen,
    exec [.addTask 0x100#64, .schedule, .addTask 0x200#64, .addTask 0x300#64]
      (schedInit boot) = some (s, log) ∧ exec [.yield] s = some (t, [1]) ∧
    exec [.addTask 0x400#64, .yield, .schedule, .yield] t = some (u, seen) ∧
    ∀ j, 0 ≤ j ∧ j < s.numTasks → j ≠ 1 → seen.count j = 1 := by
  refine ⟨_, _, _, _, _, rfl, rfl, rfl, ?_⟩
  refine (round_robin [.addTask 0x100#64, .schedule, .addTask 0x200#64, .addTask 0x300#64]
    rfl).2.2 .yield _ 1 [.addTask 0x400#64, .yield, .schedule, .yield] _ _ .yield _ rfl rfl ?_ rfl
  decide

/-- The callers' side: tasks are not null. -/
def Proper : Op → Prop
  | .addTask task => task ≠ 0#64
  | _ => True

def NoNull (s : Scheduler) : Prop := ∀ i : Fin maxTasks, (i : Nat) < s.numTasks → s.taskList i ≠ 0#64

theorem locked_isSome {body : Scheduler → Option (Scheduler × Control)}
    (unlocked : s.schedLock = 0#32) (runs : (body { s with schedLock := 1#32 }).isSome) :
    (locked body s).isSome := by
  obtain ⟨⟨t, c⟩, ran⟩ := Option.isSome_iff_exists.mp runs
  exact Option.isSome_iff_exists.mpr ⟨_, locked_eq_some.mpr ⟨unlocked, t, ran, rfl⟩⟩

theorem yield_isSome (sound : Sound s) (filled : NoNull s) : (schedYield s).isSome := by
  refine locked_isSome sound.unlocked ?_
  unfold yieldLocked
  by_cases few : s.numTasks ≤ 1
  · rw [if_pos few]
    rfl
  · have index := sound.index
    have count := sound.count
    have low : 0 ≤ (s.currentTaskIndex + 1).tmod s.numTasks := Int.tmod_nonneg _ (by omega)
    have high : (s.currentTaskIndex + 1).tmod s.numTasks < s.numTasks := Int.tmod_lt_of_pos _ (by omega)
    obtain ⟨i, place⟩ := Int.eq_ofNat_of_zero_le low
    have inside : i < maxTasks := by omega
    have task := filled ⟨i, inside⟩ (place ▸ high)
    rw [if_neg few]
    simp only [place, slot_of_lt inside, Option.bind_some]
    rw [if_neg task]
    rfl

/-- With a task current, `sched_schedule` is `sched_yield`. -/
theorem schedule_eq_yield (unlocked : s.schedLock = 0#32) (some : s.numTasks ≠ 0)
    (busy : s.currentTask ≠ 0#64) : schedSchedule s = schedYield s := by
  obtain ⟨current, list, n, index, lock⟩ := s
  obtain rfl : lock = 0#32 := unlocked
  have first : locked scheduleLocked ⟨current, list, n, index, 0#32⟩ =
      Option.some (⟨current, list, n, index, 0#32⟩, .yields) := by
    refine locked_eq_some.mpr ⟨rfl, ⟨current, list, n, index, 1#32⟩, ?_, rfl⟩
    rw [scheduleLocked, if_neg some, if_neg busy]
  rw [schedSchedule, first]
  rfl

theorem schedule_isSome (sound : Sound s) (filled : NoNull s) : (schedSchedule s).isSome := by
  by_cases busy : s.numTasks ≠ 0 ∧ s.currentTask ≠ 0#64
  · rw [schedule_eq_yield sound.unlocked busy.1 busy.2]
    exact yield_isSome sound filled
  · have first : ∃ t c, locked scheduleLocked s = some (t, c) ∧ c ≠ .yields := by
      by_cases none : s.numTasks = 0
      · exact ⟨_, .halts, locked_eq_some.mpr ⟨sound.unlocked, _, if_pos none, rfl⟩, by decide⟩
      · have idle : s.currentTask = 0#64 := not_not.mp fun task => busy ⟨none, task⟩
        have task := filled ⟨0, by decide⟩ (lt_of_le_of_ne sound.count.1 (Ne.symm none))
        have body : scheduleLocked { s with schedLock := 1#32 } =
            some (⟨s.taskList ⟨0, by decide⟩, s.taskList, s.numTasks, 0, 1#32⟩,
              .branches (s.taskList ⟨0, by decide⟩)) := by
          rw [scheduleLocked, if_neg none, if_pos idle]
          exact if_neg task
        exact ⟨_, _, locked_eq_some.mpr ⟨sound.unlocked, _, body, rfl⟩, by simp⟩
    obtain ⟨t, c, ran, other⟩ := first
    rw [schedSchedule, ran, Option.bind_some, if_neg other]
    rfl

theorem addTask_isSome (sound : Sound s) (task : Addr) : (schedAddTask task s).isSome := by
  refine locked_isSome sound.unlocked ?_
  unfold addTaskLocked
  by_cases many : s.numTasks ≥ maxTasks
  · rw [if_pos many]
    rfl
  · obtain ⟨n, place⟩ := Int.eq_ofNat_of_zero_le sound.count.1
    rw [if_neg many, Option.isSome_map]
    simp only [place]
    rw [slot_of_lt (by omega)]
    rfl

/-- No call spins or goes to a null task. -/
theorem call_isSome (sound : Sound s) (filled : NoNull s) (op : Op) : (call op s).isSome := by
  cases op with
  | yield => exact yield_isSome sound filled
  | addTask task => exact addTask_isSome sound task
  | schedule => exact schedule_isSome sound filled

theorem Did.noNull (did : Did s s' op c) (filled : NoNull s) (proper : Proper op) :
    NoNull s' := by
  cases did with
  | added task i place h =>
      subst h
      intro k below
      by_cases same : k = i
      · subst same
        change Function.update s.taskList k task k ≠ 0#64
        rw [Function.update_self]
        exact proper
      · change Function.update s.taskList i task k ≠ 0#64
        rw [Function.update_of_ne same]
        refine filled k ?_
        change (k : Int) < s.numTasks + 1 at below
        omega
  | full task h many => exact h ▸ filled
  | halted h none => exact h ▸ filled
  | alone op dispatch h few => exact h ▸ filled
  | branched i first some idle task h => exact h ▸ filled
  | switched op i dispatch many turn task h => exact h ▸ filled

/-- The runs callers make go on to their end. -/
theorem exec_isSome (sound : Sound s) (filled : NoNull s) (proper : ∀ op ∈ ops, Proper op) :
    (exec ops s).isSome := by
  induction ops generalizing s with
  | nil => rfl
  | cons op rest ih =>
      obtain ⟨first, others⟩ := List.forall_mem_cons.mp proper
      obtain ⟨⟨t, c⟩, ran⟩ := Option.isSome_iff_exists.mp (call_isSome sound filled op)
      have did := call_did sound ran
      have later := ih (did.sound sound) (did.noNull filled first) others
      rw [exec, ran, Option.bind_some, Option.isSome_map]
      exact later

end
end AstralOS.Sched
