import AstralOS.Foundation.Runs
import AstralOS.Sched.Scheduler
import Mathlib.Logic.Function.Basic

/-! One core that runs the scheduler's functions step by step, with a timer interrupt that may
come between any two steps. The handler takes the lock its own core may be holding. -/
namespace AstralOS.Sched
open Foundation

/-- Where code stands: outside the scheduler, or at the next step of one of its functions. -/
inductive Point where
  | outside
  | acquire (op : Op)
  | update (op : Op)
  | release (c : Control)
  | leave (c : Control)
  | halted
  deriving DecidableEq

/-- One activation on a stack: task or boot code, or a handler on top of what it interrupted
with the interrupt enable of `spsr_el1`. -/
structure Frame where
  handler : Bool
  saved : Bool
  point : Point
  deriving DecidableEq

def Frame.code (p : Point) : Frame := ⟨false, false, p⟩

/-- The frame is between `spinlock_acquire` and `spinlock_release`. -/
def Frame.Holds (f : Frame) : Prop :=
  match f.point with
  | .update _ => True
  | .release _ => True
  | _ => False

instance (f : Frame) : Decidable f.Holds := by
  unfold Frame.Holds
  split <;> infer_instance

/-- `running` is the stack in use, innermost frame first; `suspended` has one for each control
block. The interrupt mask belongs to the core and is not switched. -/
structure Core where
  sched : Scheduler
  enabled : Bool
  running : List Frame
  suspended : Addr → List Frame

inductive Event where
  | call (op : Op)
  | enableInterrupts
  | advance
  | irq
  deriving DecidableEq

def body : Op → Scheduler → Option (Scheduler × Control)
  | .addTask task => addTaskLocked task
  | .schedule => scheduleLocked
  | .yield => yieldLocked

/-- Control leaves: back to the caller, on to `sched_yield`, to the first task, or into the
stack of another task, which goes on behind its own `context_switch`. -/
def Core.leave (c : Core) (f : Frame) (rest : List Frame) : Control → Core
  | .returns => { c with running := { f with point := .outside } :: rest }
  | .halts => { c with enabled := false, running := { f with point := .halted } :: rest }
  | .yields => { c with running := { f with point := .acquire .yield } :: rest }
  | .branches _ => { c with running := [.code .outside] }
  | .switches old new =>
      let suspended := Function.update c.suspended old ({ f with point := .outside } :: rest)
      { c with running := suspended new, suspended := suspended }

/-- The next step of frame `f`. A held lock is tried again; a handler that is done returns
with `eret`. -/
def Core.advance (c : Core) (f : Frame) (rest : List Frame) : Option Core :=
  match f.point with
  | .outside => if f.handler then some { c with enabled := f.saved, running := rest } else none
  | .acquire op =>
      match spinlockAcquire c.sched with
      | none => some c
      | some s => some { c with sched := s, running := { f with point := .update op } :: rest }
  | .update op => (body op c.sched).map fun r =>
      { c with sched := r.1, running := { f with point := .release r.2 } :: rest }
  | .release d => some { c with
      sched := spinlockRelease c.sched
      running := { f with point := .leave d } :: rest }
  | .leave d => some (c.leave f rest d)
  | .halted => none

/-- The handler saves the context and reloads the timer; its first shared step is
`sched_yield`'s `spinlock_acquire`. -/
def Core.interrupt (c : Core) : Core :=
  { c with enabled := false, running := ⟨true, c.enabled, .acquire .yield⟩ :: c.running }

/-- `none`: the event cannot happen here. -/
def Core.next (c : Core) : Event → Option Core
  | .call op =>
      match c.running with
      | ⟨false, saved, .outside⟩ :: rest => some { c with running := ⟨false, saved, .acquire op⟩ :: rest }
      | _ => none
  | .enableInterrupts =>
      match c.running with
      | ⟨false, _, .outside⟩ :: _ => some { c with enabled := true }
      | _ => none
  | .advance =>
      match c.running with
      | f :: rest => c.advance f rest
      | [] => none
  | .irq => if c.enabled then some c.interrupt else none

def tick (c : Option Core) (e : Event) : Option Core := c.bind fun c => c.next e

/-- Boot code after `sched_init`, with interrupts still masked. -/
def bootCore : Core := ⟨schedInit boot, false, [.code .outside], fun _ => [.code .outside]⟩

/-- A handler at `spinlock_acquire` has interrupted code that holds the lock. -/
def Core.Spins (c : Core) : Prop :=
  ∃ h f rest, c.running = h :: f :: rest ∧ h.handler = true ∧ h.point = .acquire .yield ∧ f.Holds

def NeverSpins (c : Option Core) : Prop := ∀ s, c = some s → ¬ s.Spins

/-- A timer interrupt that is taken does not find the running code inside the lock. -/
def TakenOutside (c : Option Core) (e : Event) : Prop :=
  ∀ s, c = some s → e = .irq → s.enabled = true → ∀ f rest, s.running = f :: rest → ¬ f.Holds

/-- Nobody on the stack is inside the lock. -/
def Clear (frames : List Frame) : Prop := ∀ f ∈ frames, ¬ f.Holds

/-- The lock is free and nobody is inside, or the running frame is, alone. -/
inductive Core.Calm : Core → Prop
  | free {s : Scheduler} {enabled : Bool} {running : List Frame} {suspended : Addr → List Frame}
      (unlocked : s.schedLock = 0#32) (clear : Clear running) (others : ∀ t, Clear (suspended t)) :
      Calm ⟨s, enabled, running, suspended⟩
  | inside {s : Scheduler} {enabled : Bool} {f : Frame} {rest : List Frame}
      {suspended : Addr → List Frame} (locked : s.schedLock = 1#32) (holds : f.Holds)
      (clear : Clear rest) (others : ∀ t, Clear (suspended t)) :
      Calm ⟨s, enabled, f :: rest, suspended⟩

section
variable {c c' : Core} {f : Frame} {rest : List Frame} {s : Scheduler}

theorem clear_cons : Clear (f :: rest) ↔ ¬ f.Holds ∧ Clear rest := List.forall_mem_cons

theorem Core.Calm.not_spins (calm : c.Calm) : ¬ c.Spins := by
  rintro ⟨h, f, rest, running, _, waits, holds⟩
  cases calm with
  | free unlocked clear others =>
      obtain rfl := running
      exact clear f (List.mem_cons_of_mem h List.mem_cons_self) holds
  | inside locked inside clear others =>
      cases running
      simp [Frame.Holds, waits] at inside

/-- The critical sections leave the lock word alone. -/
theorem body_lock {op : Op} {r : Scheduler × Control} (ran : body op s = some r) :
    r.1.schedLock = s.schedLock := by
  cases op with
  | addTask task =>
      change addTaskLocked task s = some r at ran
      unfold addTaskLocked at ran
      by_cases many : s.numTasks ≥ maxTasks
      · rw [if_pos many] at ran
        cases ran
        rfl
      · rw [if_neg many, Option.map_eq_some_iff] at ran
        obtain ⟨i, _, rfl⟩ := ran
        rfl
  | schedule =>
      change scheduleLocked s = some r at ran
      unfold scheduleLocked at ran
      by_cases none : s.numTasks = 0
      · rw [if_pos none] at ran
        cases ran
        rfl
      · rw [if_neg none] at ran
        by_cases idle : s.currentTask = 0#64
        · rw [if_pos idle, Option.bind_eq_some_iff] at ran
          obtain ⟨i, _, ran⟩ := ran
          by_cases null : s.taskList i = 0#64
          · rw [if_pos null] at ran
            cases ran
          · rw [if_neg null] at ran
            cases ran
            rfl
        · rw [if_neg idle] at ran
          cases ran
          rfl
  | yield =>
      change yieldLocked s = some r at ran
      unfold yieldLocked at ran
      by_cases few : s.numTasks ≤ 1
      · rw [if_pos few] at ran
        cases ran
        rfl
      · rw [if_neg few, Option.bind_eq_some_iff] at ran
        obtain ⟨i, _, ran⟩ := ran
        by_cases null : s.taskList i = 0#64
        · rw [if_pos null] at ran
          cases ran
        · rw [if_neg null] at ran
          cases ran
          rfl

theorem clear_update {suspended : Addr → List Frame} (others : ∀ t, Clear (suspended t)) (old : Addr)
    {frames : List Frame} (clear : Clear frames) (t : Addr) :
    Clear (Function.update suspended old frames t) := by
  by_cases same : t = old
  · rw [same, Function.update_self]
    exact clear
  · rw [Function.update_of_ne same]
    exact others t

/-- With the lock free, every way of leaving keeps it free. -/
theorem calm_leave {suspended : Addr → List Frame} {enabled : Bool} (unlocked : s.schedLock = 0#32)
    (clear : Clear rest) (others : ∀ t, Clear (suspended t)) (running : List Frame) (d : Control) :
    (Core.leave ⟨s, enabled, running, suspended⟩ f rest d).Calm := by
  have out : ∀ p : Point, ¬ Frame.Holds { f with point := p } → Clear ({ f with point := p } :: rest) :=
    fun p notHolds => clear_cons.mpr ⟨notHolds, clear⟩
  cases d with
  | returns => exact .free unlocked (out .outside id) others
  | halts => exact .free unlocked (out .halted id) others
  | branches task => exact .free unlocked (clear_cons.mpr ⟨id, List.forall_mem_nil _⟩) others
  | yields => exact .free unlocked (out (.acquire .yield) id) others
  | switches old new =>
      have others' := clear_update others old (out .outside id)
      exact .free unlocked (others' new) others'

theorem calm_advance (calm : Core.Calm c) (running : c.running = f :: rest)
    (ran : c.advance f rest = some c') : c'.Calm := by
  cases calm with
  | free unlocked clear others =>
      obtain rfl := running
      obtain ⟨out, below⟩ := clear_cons.mp clear
      obtain ⟨handler, saved, point⟩ := f
      cases point with
      | outside =>
          change (if handler = true then _ else none) = some c' at ran
          cases handler with
          | true =>
              cases ran
              exact .free unlocked below others
          | false => cases ran
      | acquire op =>
          simp only [Core.advance, spinlockAcquire, if_pos unlocked] at ran
          cases ran
          exact .inside rfl trivial below others
      | update op => exact absurd trivial out
      | release d => exact absurd trivial out
      | leave d =>
          cases ran
          exact calm_leave unlocked below others _ d
      | halted => cases ran
  | inside locked holds clear others =>
      cases running
      obtain ⟨handler, saved, point⟩ := f
      cases point with
      | update op =>
          obtain ⟨r, updated, rfl⟩ := Option.map_eq_some_iff.mp ran
          exact .inside ((body_lock updated).trans locked) trivial clear others
      | release d =>
          cases ran
          exact .free rfl (clear_cons.mpr ⟨id, clear⟩) others
      | outside => exact absurd holds id
      | acquire op => exact absurd holds id
      | leave d => exact absurd holds id
      | halted => exact absurd holds id

/-- Code that is outside the scheduler finds the lock free. -/
theorem Core.Calm.outside (calm : c.Calm) {handler saved : Bool}
    (running : c.running = ⟨handler, saved, .outside⟩ :: rest) :
    c.sched.schedLock = 0#32 ∧ Clear c.running ∧ ∀ t, Clear (c.suspended t) := by
  cases calm with
  | free unlocked clear others => exact ⟨unlocked, clear, others⟩
  | inside locked holds clear others =>
      cases running
      exact absurd holds id

/-- The interrupt waits for the code it interrupted exactly when that code is inside. -/
theorem spins_interrupt (running : c.running = f :: rest) : c.interrupt.Spins ↔ f.Holds := by
  constructor
  · rintro ⟨h, g, below, stack, _, _, holds⟩
    rw [Core.interrupt, running] at stack
    cases stack
    exact holds
  · intro holds
    exact ⟨_, f, rest, by rw [Core.interrupt, running], rfl, rfl, holds⟩

theorem calm_next {e : Event} (calm : c.Calm) (outside : TakenOutside (some c) e)
    (ran : c.next e = some c') : c'.Calm := by
  cases e with
  | call op =>
      simp only [Core.next] at ran
      split at ran
      case h_1 saved rest running =>
        cases ran
        obtain ⟨unlocked, clear, others⟩ := calm.outside running
        rw [running] at clear
        exact .free unlocked (clear_cons.mpr ⟨id, (clear_cons.mp clear).2⟩) others
      case h_2 => cases ran
  | enableInterrupts =>
      simp only [Core.next] at ran
      split at ran
      case h_1 saved rest running =>
        cases ran
        obtain ⟨unlocked, clear, others⟩ := calm.outside running
        exact .free unlocked clear others
      case h_2 => cases ran
  | advance =>
      simp only [Core.next] at ran
      split at ran
      case h_1 f rest running => exact calm_advance calm running ran
      case h_2 => cases ran
  | irq =>
      by_cases enabled : c.enabled = true
      · simp only [Core.next, if_pos enabled] at ran
        cases ran
        cases calm with
        | free unlocked clear others => exact .free unlocked (clear_cons.mpr ⟨id, clear⟩) others
        | inside locked holds clear others => exact absurd holds (outside _ rfl rfl enabled _ _ rfl)
      · simp only [Core.next, if_neg enabled] at ran
        cases ran

/-- Undisturbed, the three steps inside are the critical section of the whole call. -/
theorem advance_locked {op : Op} {saved handler : Bool} (unlocked : c.sched.schedLock = 0#32)
    (running : c.running = ⟨handler, saved, .acquire op⟩ :: rest) :
    [Event.advance, .advance, .advance].foldl tick (some c) =
      (locked (body op) c.sched).map fun r =>
        { c with sched := r.1, running := ⟨handler, saved, .leave r.2⟩ :: rest } := by
  have taken : spinlockAcquire c.sched = some { c.sched with schedLock := 1#32 } := if_pos unlocked
  simp only [List.foldl_cons, List.foldl_nil, tick, Option.bind_some, Core.next, running,
    Core.advance, taken, locked]
  cases body op { c.sched with schedLock := 1#32 } with
  | none => rfl
  | some r => rfl

/-- In a run the handler never waits for the code it interrupted if and only if no interrupt is
taken inside the lock. -/
theorem run_never_spins_iff (events : List Event) :
    Always tick NeverSpins (some bootCore) events ↔
      Admitted tick TakenOutside (some bootCore) events := by
  refine always_iff_admitted_while (fun c => ∀ s, c = some s → s.Calm) ?_ ?_ ?_ ?_
  · rintro c e calm outside s' ran
    obtain ⟨s, rfl, next⟩ := Option.bind_eq_some_iff.mp ran
    exact calm_next (calm s rfl) outside next
  · intro c e calm _
    constructor
    · rintro never s rfl rfl enabled f rest running holds
      refine never s.interrupt ?_ ((spins_interrupt running).mpr holds)
      exact if_pos enabled
    · rintro outside s' ran
      obtain ⟨s, rfl, next⟩ := Option.bind_eq_some_iff.mp ran
      exact (calm_next (calm s rfl) outside next).not_spins
  · rintro _ ⟨⟩
    have clear : Clear [Frame.code .outside] := clear_cons.mpr ⟨id, List.forall_mem_nil _⟩
    exact .free rfl clear fun _ => clear
  · rintro _ ⟨⟩ ⟨h, f, rest, running, _⟩
    cases running

/-- A handler that spins spins forever: nothing else can happen on the core. -/
theorem spins_forever (spins : c.Spins) (locked : c.sched.schedLock ≠ 0#32)
    (masked : c.enabled = false) {e : Event} (ran : c.next e = some c') : c' = c := by
  obtain ⟨⟨handler, saved, point⟩, f, rest, running, isHandler, waits, _⟩ := spins
  obtain rfl : handler = true := isHandler
  obtain rfl : point = .acquire .yield := waits
  cases e with
  | call op =>
      simp only [Core.next, running] at ran
      cases ran
  | enableInterrupts =>
      simp only [Core.next, running] at ran
      cases ran
  | advance =>
      simp only [Core.next, running, Core.advance, spinlockAcquire, if_neg locked] at ran
      cases ran
      rfl
  | irq =>
      simp only [Core.next, masked] at ran
      cases ran

end
end AstralOS.Sched
