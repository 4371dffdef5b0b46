import AstralOS.Sched.Interrupts

/-! The end of `kernel_main`: interrupts are on before the first task is current, and a switch
saves through the current task. -/
namespace AstralOS.Sched
open Foundation

/-- How far `kernel_main` has come, and `tasks` once a branch has left it for the first task. -/
inductive Phase where
  | enabling
  | calling
  | scheduling
  | tasks
  deriving DecidableEq

structure Machine where
  core : Core
  phase : Phase

/-- The next step of `kernel_main`'s own code: `cpu_enable_interrupts()`, the call of
`sched_schedule()`, and `cpu_set_state(CPU_STATE_HALTED)` in a loop. -/
def Machine.mainStep (m : Machine) : Option Machine :=
  match m.core.running with
  | [⟨false, saved, .outside⟩] =>
      match m.phase with
      | .enabling => (m.core.next .enableInterrupts).map fun c => ⟨c, .calling⟩
      | .calling => (m.core.next (.call .schedule)).map fun c => ⟨c, .scheduling⟩
      | .scheduling => some { m with
          core := { m.core with enabled := false, running := [⟨false, saved, .halted⟩] } }
      | .tasks => none
  | _ => none

/-- The coming step is the branch to the first task. -/
def Core.branching (c : Core) : Bool :=
  match c.running with
  | ⟨_, _, .leave (.branches _)⟩ :: _ => true
  | _ => false

inductive Move where
  | main
  | core (e : Event)

/-- Before the branch the core's own steps are those of a call in progress and the timer's;
tasks call what they like. -/
def Machine.next (m : Machine) : Move → Option Machine
  | .main => m.mainStep
  | .core e =>
      if m.phase = .tasks ∨ e = .advance ∨ e = .irq then
        (m.core.next e).map fun c => ⟨c, if e = .advance ∧ m.core.branching then .tasks else m.phase⟩
      else none

def move (m : Option Machine) (e : Move) : Option Machine := m.bind fun m => m.next e

/-- `sched_add_task` for each task in turn, interrupts still masked. -/
def addTasks : List Addr → Scheduler → Option Scheduler
  | [], s => some s
  | task :: rest, s => (schedAddTask task s).bind fun r => addTasks rest r.1

/-- `kernel_main` before `cpu_enable_interrupts`. -/
def beforeInterrupts (tasks : List Addr) : Option Machine :=
  (addTasks tasks (schedInit boot)).map fun s =>
    ⟨⟨s, false, [.code .outside], fun _ => [.code .outside]⟩, .enabling⟩

/-- The coming step is `sched_yield`'s switch, and the old context is that of a null task. -/
def Core.SavesThroughNull (c : Core) : Prop :=
  ∃ f rest, c.running = f :: rest ∧ f.point = .update .yield ∧ 1 < c.sched.numTasks ∧
    c.sched.currentTask = 0#64

def NeverThroughNull (m : Option Machine) : Prop := ∀ s, m = some s → ¬ s.core.SavesThroughNull

/-- An interrupt is taken that `sched_yield` will switch on with no task current: there are two
tasks and the lock is free. -/
structure Core.Exposed (c : Core) : Prop where
  enabled : c.enabled = true
  many : 1 < c.sched.numTasks
  idle : c.sched.currentTask = 0#64
  unlocked : c.sched.schedLock = 0#32

def TakenSafely (m : Option Machine) (e : Move) : Prop :=
  ∀ s, m = some s → e = .core .irq → ¬ s.core.Exposed

section
variable {c c' : Core} {m m' : Machine} {f : Frame} {rest : List Frame} {s : Scheduler}

/-- No critical section takes the current task away. -/
theorem body_current {op : Op} {r : Scheduler × Control} (current : s.currentTask ≠ 0#64)
    (ran : body op s = some r) : r.1.currentTask ≠ 0#64 := by
  cases op with
  | addTask task =>
      change addTaskLocked task s = some r at ran
      unfold addTaskLocked at ran
      by_cases many : s.numTasks ≥ maxTasks
      · rw [if_pos many] at ran
        cases ran
        exact current
      · rw [if_neg many, Option.map_eq_some_iff] at ran
        obtain ⟨i, _, rfl⟩ := ran
        exact current
  | schedule =>
      change scheduleLocked s = some r at ran
      unfold scheduleLocked at ran
      rw [if_neg current] at ran
      by_cases none : s.numTasks = 0
      · rw [if_pos none] at ran
        cases ran
        exact current
      · rw [if_neg none] at ran
        cases ran
        exact current
  | yield =>
      change yieldLocked s = some r at ran
      unfold yieldLocked at ran
      by_cases few : s.numTasks ≤ 1
      · rw [if_pos few] at ran
        cases ran
        exact current
      · rw [if_neg few, Option.bind_eq_some_iff] at ran
        obtain ⟨i, _, ran⟩ := ran
        by_cases null : s.taskList i = 0#64
        · rw [if_pos null] at ran
          cases ran
        · rw [if_neg null] at ran
          cases ran
          exact null

theorem leave_keeps (d : Control) : (c.leave f rest d).sched = c.sched := by
  cases d with
  | returns => rfl
  | halts => rfl
  | branches task => rfl
  | switches old new => rfl
  | yields => rfl

theorem advance_current (current : c.sched.currentTask ≠ 0#64) (ran : c.advance f rest = some c') :
    c'.sched.currentTask ≠ 0#64 := by
  obtain ⟨handler, saved, point⟩ := f
  cases point with
  | outside =>
      simp only [Core.advance] at ran
      split at ran
      · cases ran
        exact current
      · cases ran
  | acquire op =>
      simp only [Core.advance, spinlockAcquire] at ran
      by_cases unlocked : c.sched.schedLock = 0#32
      · rw [if_pos unlocked] at ran
        cases ran
        exact current
      · rw [if_neg unlocked] at ran
        cases ran
        exact current
  | update op =>
      obtain ⟨r, updated, rfl⟩ := Option.map_eq_some_iff.mp ran
      exact body_current current updated
  | release d =>
      cases ran
      exact current
  | leave d =>
      cases ran
      rw [leave_keeps]
      exact current
  | halted => cases ran

theorem next_current {e : Event} (current : c.sched.currentTask ≠ 0#64) (ran : c.next e = some c') :
    c'.sched.currentTask ≠ 0#64 := by
  cases e with
  | call op =>
      simp only [Core.next] at ran
      split at ran
      · cases ran
        exact current
      · cases ran
  | enableInterrupts =>
      simp only [Core.next] at ran
      split at ran
      · cases ran
        exact current
      · cases ran
  | advance =>
      simp only [Core.next] at ran
      split at ran
      · exact advance_current current ran
      · cases ran
  | irq =>
      simp only [Core.next] at ran
      split at ran
      · cases ran
        exact current
      · cases ran

/-- Where code can stand while no task is current. -/
def Point.Early : Point → Prop
  | .outside | .acquire .schedule | .acquire .yield | .update .schedule | .update .yield => True
  | .release .returns | .release .halts | .leave .returns | .leave .halts | .halted => True
  | _ => False

/-- No task is current, and there are too few to switch between. -/
structure Core.Few (c : Core) : Prop where
  idle : c.sched.currentTask = 0#64
  few : c.sched.numTasks ≤ 1
  early : ∀ g ∈ c.running, g.point.Early

/-- There are tasks to switch between and none is current: only `kernel_main` runs, before the
lock or inside it, or a handler spins on the lock that `kernel_main` holds. -/
inductive Core.Many (c : Core) : Prop
  | before {f : Frame} (idle : c.sched.currentTask = 0#64) (many : 1 < c.sched.numTasks)
      (unlocked : c.sched.schedLock = 0#32) (running : c.running = [f]) (code : f.handler = false)
      (waiting : f.point = .outside ∨ f.point = .acquire .schedule ∨ f.point = .halted)
  | inside {f : Frame} (idle : c.sched.currentTask = 0#64) (many : 1 < c.sched.numTasks)
      (locked : c.sched.schedLock ≠ 0#32) (running : c.running = [f]) (code : f.handler = false)
      (updating : f.point = .update .schedule)
  | spinning (idle : c.sched.currentTask = 0#64) (many : 1 < c.sched.numTasks)
      (locked : c.sched.schedLock ≠ 0#32) (masked : c.enabled = false) (spins : c.Spins)

theorem few_push (few : c.Few) {g : Frame} (early : g.point.Early) (enabled : Bool)
    (below : ∀ h ∈ rest, h ∈ c.running) : Core.Few { c with enabled := enabled, running := g :: rest } :=
  ⟨few.idle, few.few, List.forall_mem_cons.mpr ⟨early, fun h member => few.early h (below h member)⟩⟩

/-- The schedule's update makes a task current, or finds none to run. -/
theorem scheduleLocked_early {r : Scheduler × Control} (idle : s.currentTask = 0#64)
    (ran : scheduleLocked s = some r) :
    r.1.currentTask ≠ 0#64 ∨ s.numTasks = 0 ∧ r = (s, .halts) := by
  unfold scheduleLocked at ran
  by_cases none_left : s.numTasks = 0
  · rw [if_pos none_left] at ran
    cases ran
    exact .inr ⟨none_left, rfl⟩
  · rw [if_neg none_left, if_pos idle, Option.bind_eq_some_iff] at ran
    obtain ⟨i, _, ran⟩ := ran
    by_cases null : s.taskList i = 0#64
    · rw [if_pos null] at ran
      cases ran
    · rw [if_neg null] at ran
      cases ran
      exact .inl null

/-- With at most one task the steps before the first branch switch nothing. -/
theorem few_advance (few : c.Few) (running : c.running = f :: rest) (ran : c.advance f rest = some c') :
    c'.sched.currentTask ≠ 0#64 ∨ c'.Few := by
  obtain ⟨early, below⟩ := List.forall_mem_cons.mp (running ▸ few.early)
  have stays (s : Scheduler) (same : s.currentTask = c.sched.currentTask ∧ s.numTasks = c.sched.numTasks)
      (enabled : Bool) (p : Point) (ok : p.Early) :
      Core.Few { c with sched := s, enabled := enabled, running := { f with point := p } :: rest } :=
    ⟨same.1.trans few.idle, same.2 ▸ few.few, List.forall_mem_cons.mpr ⟨ok, below⟩⟩
  obtain ⟨handler, saved, point⟩ := f
  cases point with
  | outside =>
      simp only [Core.advance] at ran
      split at ran
      · cases ran
        exact .inr ⟨few.idle, few.few, below⟩
      · cases ran
  | acquire op =>
      simp only [Core.advance, spinlockAcquire] at ran
      by_cases unlocked : c.sched.schedLock = 0#32
      · rw [if_pos unlocked] at ran
        cases ran
        refine .inr (stays { c.sched with schedLock := 1#32 } ⟨rfl, rfl⟩ _ _ ?_)
        cases op with
        | addTask task => exact early.elim
        | schedule => trivial
        | yield => trivial
      · rw [if_neg unlocked] at ran
        cases ran
        exact .inr few
  | update op =>
      obtain ⟨r, updated, rfl⟩ := Option.map_eq_some_iff.mp ran
      cases op with
      | addTask task => exact early.elim
      | schedule =>
          rcases scheduleLocked_early few.idle updated with current | ⟨_, rfl⟩
          · exact .inl current
          · exact .inr (stays _ ⟨rfl, rfl⟩ _ _ trivial)
      | yield =>
          change yieldLocked c.sched = some r at updated
          rw [yieldLocked, if_pos few.few] at updated
          cases updated
          exact .inr (stays _ ⟨rfl, rfl⟩ _ _ trivial)
  | release d =>
      cases ran
      refine .inr (stays (spinlockRelease c.sched) ⟨rfl, rfl⟩ _ _ ?_)
      cases d with
      | returns => trivial
      | halts => trivial
      | branches task => exact early.elim
      | switches old new => exact early.elim
      | yields => exact early.elim
  | leave d =>
      cases ran
      cases d with
      | returns => exact .inr (stays _ ⟨rfl, rfl⟩ _ _ trivial)
      | halts => exact .inr (stays _ ⟨rfl, rfl⟩ _ _ trivial)
      | branches task => exact early.elim
      | switches old new => exact early.elim
      | yields => exact early.elim
  | halted => cases ran

theorem few_not_branching (few : c.Few) : c.branching = false := by
  unfold Core.branching
  split
  · rename_i running
    have := few.early
    rw [running] at this
    exact (List.forall_mem_cons.mp this).1.elim
  · rfl

/-- What the core does before the branch, with at most one task. -/
theorem few_next (few : c.Few) {e : Event} (early : e = .advance ∨ e = .irq) (ran : c.next e = some c') :
    c'.sched.currentTask ≠ 0#64 ∨ c'.Few := by
  rcases early with rfl | rfl
  · simp only [Core.next] at ran
    split at ran
    case h_1 f rest running => exact few_advance few running ran
    case h_2 => cases ran
  · simp only [Core.next] at ran
    split at ran
    · cases ran
      refine .inr (few_push few ?_ false fun h member => member)
      trivial
    · cases ran

/-- With more tasks and none current, no interrupt taken in the open lets a handler pass. -/
theorem many_next (many : c.Many) {e : Event} (early : e = .advance ∨ e = .irq)
    (safe : e = .irq → ¬ c.Exposed) (ran : c.next e = some c') :
    c'.sched.currentTask ≠ 0#64 ∨ c'.Many := by
  cases many with
  | @before f idle many unlocked running code waiting =>
      rcases early with rfl | rfl
      · simp only [Core.next, running, Core.advance] at ran
        rcases waiting with out | acquiring | halted
        · simp [out, code] at ran
        · simp only [acquiring, spinlockAcquire, if_pos unlocked] at ran
          cases ran
          have taken : (1#32 : BitVec 32) ≠ 0#32 := by decide
          exact .inr (.inside idle many taken rfl code rfl)
        · simp [halted] at ran
      · simp only [Core.next] at ran
        split at ran
        case isTrue enabled => exact absurd ⟨enabled, many, idle, unlocked⟩ (safe rfl)
        case isFalse => cases ran
  | @inside f idle many locked running code updating =>
      rcases early with rfl | rfl
      · simp only [Core.next, running, Core.advance, updating] at ran
        obtain ⟨r, updated, rfl⟩ := Option.map_eq_some_iff.mp ran
        rcases scheduleLocked_early idle updated with current | ⟨zero, _⟩
        · exact .inl current
        · omega
      · simp only [Core.next] at ran
        split at ran
        · cases ran
          refine .inr (.spinning idle many locked rfl ((spins_interrupt running).mpr ?_))
          rw [Frame.Holds, updating]
          trivial
        · cases ran
  | spinning idle many locked masked spins =>
      have same := spins_forever spins locked masked ran
      exact .inr (same ▸ .spinning idle many locked masked spins)

theorem many_not_branching (many : c.Many) : c.branching = false := by
  unfold Core.branching
  split
  · rename_i running
    cases many with
    | before idle many unlocked one code waiting =>
        rw [running] at one
        cases one
        simp at waiting
    | inside idle many locked one code updating =>
        rw [running] at one
        cases one
        cases updating
    | spinning idle many locked masked spins =>
        obtain ⟨h, g, below, stack, _, waits, _⟩ := spins
        rw [running] at stack
        cases stack
        cases waits
  · rfl

theorem many_not_through_null (many : c.Many) : ¬ c.SavesThroughNull := by
  rintro ⟨g, below, stack, updating, _⟩
  cases many with
  | before idle many unlocked running code waiting =>
      rw [running] at stack
      cases stack
      simp [updating] at waiting
  | inside idle many locked running code inside =>
      rw [running] at stack
      cases stack
      rw [inside] at updating
      cases updating
  | spinning idle many locked masked spins =>
      obtain ⟨h, f, rest, running, _, waits, _⟩ := spins
      rw [running] at stack
      cases stack
      rw [waits] at updating
      cases updating

/-- `kernel_main`'s own steps, with at most one task. -/
theorem few_mainStep (few : m.core.Few) (early : m.phase ≠ .tasks) (ran : m.mainStep = some m') :
    m'.core.Few ∧ m'.phase ≠ .tasks := by
  unfold Machine.mainStep at ran
  split at ran
  case h_1 saved running =>
    split at ran
    case h_1 =>
      simp only [Core.next, running, Option.map_some] at ran
      cases ran
      exact ⟨⟨few.idle, few.few, running ▸ few.early⟩, Phase.noConfusion⟩
    case h_2 =>
      simp only [Core.next, running, Option.map_some] at ran
      cases ran
      refine ⟨few_push few ?_ _ (List.forall_mem_nil _), Phase.noConfusion⟩
      trivial
    case h_3 =>
      cases ran
      refine ⟨few_push few ?_ _ (List.forall_mem_nil _), early⟩
      trivial
    case h_4 => cases ran
  case h_2 => cases ran

theorem many_mainStep (many : m.core.Many) (early : m.phase ≠ .tasks) (ran : m.mainStep = some m') :
    m'.core.Many ∧ m'.phase ≠ .tasks := by
  unfold Machine.mainStep at ran
  split at ran
  case h_1 saved running =>
    cases many with
    | before idle many unlocked one code waiting =>
        split at ran
        case h_1 =>
          simp only [Core.next, running, Option.map_some] at ran
          cases ran
          exact ⟨.before idle many unlocked rfl rfl (.inl rfl), Phase.noConfusion⟩
        case h_2 =>
          simp only [Core.next, running, Option.map_some] at ran
          cases ran
          exact ⟨.before idle many unlocked rfl rfl (.inr (.inl rfl)), Phase.noConfusion⟩
        case h_3 =>
          cases ran
          exact ⟨.before idle many unlocked rfl rfl (.inr (.inr rfl)), early⟩
        case h_4 => cases ran
    | inside idle many locked one code updating =>
        rw [running] at one
        cases one
        cases updating
    | spinning idle many locked masked spins =>
        obtain ⟨h, g, below, stack, _⟩ := spins
        rw [running] at stack
        cases stack
  case h_2 => cases ran

/-- A task is current, or `kernel_main` is still running with none. -/
def Machine.Sound (early : Core → Prop) (m : Machine) : Prop :=
  m.core.sched.currentTask ≠ 0#64 ∨ early m.core ∧ m.phase ≠ .tasks

/-- One move keeps it, when the steps before the first branch keep `early`. -/
theorem sound_next {early : Core → Prop} (unbranched : ∀ c, early c → c.branching = false)
    (main : ∀ m m' : Machine, early m.core → m.phase ≠ .tasks → m.mainStep = some m' →
      early m'.core ∧ m'.phase ≠ .tasks)
    (sound : m.Sound early) {e : Move}
    (core : ∀ e' c', e = .core e' → early m.core → (e' = .advance ∨ e' = .irq) → m.core.next e' = some c' →
      c'.sched.currentTask ≠ 0#64 ∨ early c')
    (ran : m.next e = some m') : m'.Sound early := by
  cases e with
  | main =>
      rcases sound with current | ⟨start, phase⟩
      · refine .inl ?_
        change m.mainStep = some m' at ran
        unfold Machine.mainStep at ran
        split at ran
        · split at ran
          · obtain ⟨c', next, rfl⟩ := Option.map_eq_some_iff.mp ran
            exact next_current current next
          · obtain ⟨c', next, rfl⟩ := Option.map_eq_some_iff.mp ran
            exact next_current current next
          · cases ran
            exact current
          · cases ran
        · cases ran
      · exact .inr (main m m' start phase ran)
  | core e =>
      simp only [Machine.next] at ran
      split at ran
      case isTrue possible =>
        obtain ⟨c', next, rfl⟩ := Option.map_eq_some_iff.mp ran
        rcases sound with current | ⟨start, phase⟩
        · exact .inl (next_current current next)
        · rcases core e c' rfl start (possible.resolve_left phase) next with current | later
          · exact .inl current
          · refine .inr ⟨later, ?_⟩
            simp only [unbranched _ start, Bool.false_eq_true, and_false, if_false]
            exact phase
      case isFalse => cases ran

/-- The machine, when it has not got stuck, is sound. -/
def AllSound (early : Core → Prop) (m : Option Machine) : Prop := ∀ s, m = some s → s.Sound early

theorem few_keeps {m : Option Machine} {e : Move} (sound : AllSound Core.Few m) :
    AllSound Core.Few (move m e) := by
  intro s' ran
  obtain ⟨s, rfl, next⟩ := Option.bind_eq_some_iff.mp ran
  exact sound_next (fun _ => few_not_branching) (fun _ _ => few_mainStep) (sound s rfl)
    (fun _ _ _ few early => few_next few early) next

theorem many_keeps {m : Option Machine} {e : Move} (safe : TakenSafely m e)
    (sound : AllSound Core.Many m) : AllSound Core.Many (move m e) := by
  intro s' ran
  obtain ⟨s, rfl, next⟩ := Option.bind_eq_some_iff.mp ran
  refine sound_next (fun _ => many_not_branching) (fun _ _ => many_mainStep) (sound s rfl) ?_ next
  intro e' c' which many early
  exact many_next many early fun timer => safe s rfl (by rw [which, timer])

theorem few_not_through_null (few : c.Few) : ¬ c.SavesThroughNull := by
  rintro ⟨_, _, _, _, many, _⟩
  have := few.few
  omega

theorem Machine.Sound.never {early : Core → Prop} (safe : ∀ c, early c → ¬ c.SavesThroughNull)
    (sound : m.Sound early) : ¬ m.core.SavesThroughNull := by
  rcases sound with current | ⟨start, _⟩
  · rintro ⟨_, _, _, _, _, idle⟩
    exact current idle
  · exact safe _ start

/-- An exposed interrupt is followed by a switch from a null task. -/
theorem exposed_saves (exposed : m.core.Exposed) :
    ∃ s, move (move (some m) (.core .irq)) (.core .advance) = some s ∧ s.core.SavesThroughNull := by
  have taken : m.core.next .irq = some m.core.interrupt := if_pos exposed.enabled
  have free : spinlockAcquire m.core.sched = some { m.core.sched with schedLock := 1#32 } :=
    if_pos exposed.unlocked
  set passed : Core := { m.core.interrupt with
    sched := { m.core.sched with schedLock := 1#32 }
    running := ⟨true, m.core.enabled, .update .yield⟩ :: m.core.running } with passed_eq
  have acquired : m.core.interrupt.next .advance = some passed := by
    simp only [Core.next, Core.interrupt, Core.advance, free, passed_eq]
  refine ⟨⟨passed, m.phase⟩, ?_, _, _, rfl, rfl, exposed.many, exposed.idle⟩
  have first : move (some m) (.core .irq) = some ⟨m.core.interrupt, m.phase⟩ := by
    simp [move, Machine.next, taken]
  have straight : m.core.interrupt.branching = false := rfl
  rw [first]
  simp [move, Machine.next, acquired, straight]

/-! The tasks that were created before. -/

theorem addTasks_spec {tasks : List Addr} {n : Nat} (unlocked : s.schedLock = 0#32)
    (idle : s.currentTask = 0#64) (count : s.numTasks = n) (room : n ≤ maxTasks) :
    ∃ t, addTasks tasks s = some t ∧ t.schedLock = 0#32 ∧ t.currentTask = 0#64 ∧
      t.numTasks = min (n + tasks.length) maxTasks := by
  induction tasks generalizing s n with
  | nil =>
      refine ⟨s, rfl, unlocked, idle, ?_⟩
      rw [count, List.length_nil]
      omega
  | cons task rest ih =>
      by_cases full : n = maxTasks
      · have added : schedAddTask task s = some (s, .returns) := by
          refine locked_eq_some.mpr ⟨unlocked, { s with schedLock := 1#32 }, ?_, ?_⟩
          · rw [addTaskLocked, if_pos (by rw [count]; omega)]
          · rw [spinlockRelease, ← unlocked]
        obtain ⟨t, ran, free, none_, total⟩ := ih unlocked idle count room
        refine ⟨t, ?_, free, none_, ?_⟩
        · rw [addTasks, added]
          exact ran
        · rw [total, List.length_cons]
          omega
      · have inside : n < maxTasks := by omega
        have added : schedAddTask task s = some
            ({ s with taskList := Function.update s.taskList ⟨n, inside⟩ task, numTasks := s.numTasks + 1 },
              .returns) := by
          refine locked_eq_some.mpr ⟨unlocked, { s with schedLock := 1#32, taskList := Function.update s.taskList ⟨n, inside⟩ task, numTasks := s.numTasks + 1 }, ?_, ?_⟩
          · rw [addTaskLocked, if_neg (by rw [count]; omega), count, slot_of_lt inside]
            rfl
          · rw [spinlockRelease, ← unlocked]
        obtain ⟨t, ran, free, none_, total⟩ := ih
          (s := { s with taskList := Function.update s.taskList ⟨n, inside⟩ task, numTasks := s.numTasks + 1 })
          (n := n + 1) unlocked idle (by simp [count]) inside
        refine ⟨t, ?_, free, none_, ?_⟩
        · rw [addTasks, added]
          exact ran
        · rw [total, List.length_cons]
          omega

theorem beforeInterrupts_spec (tasks : List Addr) : ∃ s : Scheduler,
    beforeInterrupts tasks = some ⟨⟨s, false, [.code .outside], fun _ => [.code .outside]⟩, .enabling⟩ ∧
    s.schedLock = 0#32 ∧ s.currentTask = 0#64 ∧ s.numTasks = min tasks.length maxTasks := by
  obtain ⟨s, ran, free, idle, count⟩ := @addTasks_spec (schedInit boot) tasks 0 rfl rfl rfl (Nat.zero_le _)
  refine ⟨s, ?_, free, idle, ?_⟩
  · rw [beforeInterrupts, ran]
    rfl
  · rw [count, Nat.zero_add]

end

/-- From `cpu_enable_interrupts` on, no switch saves through a null task as long as no timer
interrupt is taken while there are two tasks, none is current and the lock is free; after such an
interrupt the next step of the handler leads to one. Whatever the timer does, there is none if and
only if at most one task was created. -/
theorem never_through_null_iff (tasks : List Addr) :
    (∀ moves, Admitted move TakenSafely (beforeInterrupts tasks) moves →
      Always move NeverThroughNull (beforeInterrupts tasks) moves) ∧
    (∀ moves, ¬ TakenSafely (moves.foldl move (beforeInterrupts tasks)) (.core .irq) →
      ¬ Always move NeverThroughNull (beforeInterrupts tasks) (moves ++ [.core .irq, .core .advance])) ∧
    ((∀ moves, Always move NeverThroughNull (beforeInterrupts tasks) moves) ↔ tasks.length ≤ 1) := by
  obtain ⟨s, start, unlocked, idle, count⟩ := beforeInterrupts_spec tasks
  have spoiled : ∀ moves, ¬ TakenSafely (moves.foldl move (beforeInterrupts tasks)) (.core .irq) →
      ¬ Always move NeverThroughNull (beforeInterrupts tasks) (moves ++ [.core .irq, .core .advance]) := by
    intro moves taken always
    simp only [TakenSafely, not_forall, not_not] at taken
    obtain ⟨m, reached, _, exposed⟩ := taken
    obtain ⟨bad, ran, saves⟩ := exposed_saves exposed
    have last := always.last
    rw [List.foldl_append, reached] at last
    exact last bad ran saves
  have alone (few : s.numTasks ≤ 1) (moves : List Move) :
      Always move NeverThroughNull (beforeInterrupts tasks) moves := by
    have sound : AllSound Core.Few (beforeInterrupts tasks) := by
      intro m here
      cases start.symm.trans here
      refine .inr ⟨⟨idle, few, List.forall_mem_singleton.mpr ?_⟩, Phase.noConfusion⟩
      trivial
    have all : Admitted move (fun _ _ => True) (beforeInterrupts tasks) moves := admitted_true
    exact (always_of_admitted (fun _ _ sound _ => few_keeps sound) sound all).mono
      fun m sound s here => (sound s here).never fun _ => few_not_through_null
  refine ⟨fun moves safe => ?_, spoiled, ?_, ?_⟩
  · by_cases many : 1 < s.numTasks
    · have sound : AllSound Core.Many (beforeInterrupts tasks) := by
        intro m here
        cases start.symm.trans here
        exact .inr ⟨.before idle many unlocked rfl rfl (.inl rfl), Phase.noConfusion⟩
      exact (always_of_admitted (fun _ _ sound ok => many_keeps ok sound) sound safe).mono
        fun m sound s here => (sound s here).never fun _ => many_not_through_null
    · exact alone (Int.not_lt.mp many) moves
  · intro always
    by_contra several
    have exposed : ¬ TakenSafely ([Move.main].foldl move (beforeInterrupts tasks)) (.core .irq) := by
      rw [start]
      refine fun safe => safe _ rfl rfl ⟨rfl, ?_, idle, unlocked⟩
      change 1 < s.numTasks
      rw [count]
      simp only [maxTasks]
      omega
    exact spoiled [.main] exposed (always _)
  · intro few
    refine alone ?_
    rw [count]
    omega

/-- Two tasks, and the timer between `cpu_enable_interrupts` and `sched_schedule`. -/
theorem irq_before_schedule_saves_through_null :
    ¬ Always move NeverThroughNull (beforeInterrupts [0x1000#64, 0x2000#64])
      [.main, .core .irq, .core .advance] := by
  intro always
  refine always.last _ rfl ⟨_, _, rfl, rfl, ?_, rfl⟩
  decide

end AstralOS.Sched
