import AstralOS.Foundation.Memory
import Mathlib.Logic.Function.Basic

/-! The scheduler's statics and the functions that change them under `sched_lock`. A result
`none` is a call that does not go on: it spins on the lock or goes through a null pointer. -/
namespace AstralOS.Sched
open Foundation

def maxTasks : Nat := 8

structure Scheduler where
  currentTask : Addr
  taskList : Fin maxTasks → Addr
  numTasks : Int
  currentTaskIndex : Int
  schedLock : BitVec 32

/-- The statics as the kernel image initialises them. -/
def boot : Scheduler := ⟨0#64, fun _ => 0#64, 0, -1, 0#32⟩

def schedInit (s : Scheduler) : Scheduler :=
  { s with taskList := fun _ => 0#64, numTasks := 0, currentTaskIndex := -1, schedLock := 0#32 }

/-- How control leaves a call; `yields` is `sched_schedule` going on with `sched_yield()`. -/
inductive Control where
  | returns
  | halts
  | branches (task : Addr)
  | switches (old new : Addr)
  | yields
  deriving DecidableEq

def spinlockAcquire (s : Scheduler) : Option Scheduler :=
  if s.schedLock = 0#32 then some { s with schedLock := 1#32 } else none

def spinlockRelease (s : Scheduler) : Scheduler := { s with schedLock := 0#32 }

/-- The element `task_list[i]` stands for, inside the array. -/
def slot (i : Int) : Option (Fin maxTasks) :=
  if h : 0 ≤ i ∧ i < maxTasks then some ⟨i.toNat, by omega⟩ else none

/-! What each function does between `spinlock_acquire` and `spinlock_release`. -/

def addTaskLocked (task : Addr) (s : Scheduler) : Option (Scheduler × Control) :=
  if s.numTasks ≥ maxTasks then some (s, .returns)
  else (slot s.numTasks).map fun i =>
    ({ s with taskList := Function.update s.taskList i task, numTasks := s.numTasks + 1 }, .returns)

/-- `current_task->ttbr0_el1` is read before the lock is released. -/
def scheduleLocked (s : Scheduler) : Option (Scheduler × Control) :=
  if s.numTasks = 0 then some (s, .halts)
  else if s.currentTask = 0#64 then
    (slot 0).bind fun i =>
      let task := s.taskList i
      if task = 0#64 then none
      else some ({ s with currentTaskIndex := 0, currentTask := task }, .branches task)
  else some (s, .yields)

/-- C's `%` truncates. `old_context` is only an address, also with no current task; `ttbr0_el1` is
loaded from the new task. -/
def yieldLocked (s : Scheduler) : Option (Scheduler × Control) :=
  if s.numTasks ≤ 1 then some (s, .returns)
  else
    let index := (s.currentTaskIndex + 1).tmod s.numTasks
    (slot index).bind fun i =>
      let task := s.taskList i
      if task = 0#64 then none
      else some ({ s with currentTaskIndex := index, currentTask := task },
        .switches s.currentTask task)

def locked (body : Scheduler → Option (Scheduler × Control)) (s : Scheduler) :
    Option (Scheduler × Control) :=
  (spinlockAcquire s).bind fun s => (body s).map fun r => (spinlockRelease r.1, r.2)

def schedAddTask (task : Addr) : Scheduler → Option (Scheduler × Control) :=
  locked (addTaskLocked task)

def schedYield : Scheduler → Option (Scheduler × Control) := locked yieldLocked

def schedSchedule (s : Scheduler) : Option (Scheduler × Control) :=
  (locked scheduleLocked s).bind fun r => if r.2 = .yields then schedYield r.1 else some r

inductive Op where
  | addTask (task : Addr)
  | schedule
  | yield
  deriving DecidableEq

def call : Op → Scheduler → Option (Scheduler × Control)
  | .addTask task => schedAddTask task
  | .schedule => schedSchedule
  | .yield => schedYield

section
variable {s s' : Scheduler} {c : Control}

theorem slot_of_lt {n : Nat} (inside : n < maxTasks) : slot n = some ⟨n, inside⟩ :=
  dif_pos ⟨Int.natCast_nonneg n, Int.ofNat_lt.mpr inside⟩

theorem slot_eq_some {i : Int} {k : Fin maxTasks} (found : slot i = some k) : i = (k : Nat) := by
  unfold slot at found
  by_cases inside : 0 ≤ i ∧ i < maxTasks
  · rw [dif_pos inside] at found
    have := congrArg Fin.val (Option.some.inj found)
    change i.toNat = k at this
    omega
  · rw [dif_neg inside] at found
    cases found

/-- A free lock is free again when the call is over, and a held one is never passed. -/
theorem locked_eq_some {body : Scheduler → Option (Scheduler × Control)} :
    locked body s = some (s', c) ↔ s.schedLock = 0#32 ∧
      ∃ t, body { s with schedLock := 1#32 } = some (t, c) ∧ s' = spinlockRelease t := by
  unfold locked spinlockAcquire
  by_cases unlocked : s.schedLock = 0#32
  · rw [if_pos unlocked, Option.bind_some, Option.map_eq_some_iff]
    constructor
    · rintro ⟨⟨t, d⟩, ran, eq⟩
      cases eq
      exact ⟨unlocked, t, ran, rfl⟩
    · rintro ⟨_, t, ran, rfl⟩
      exact ⟨(t, c), ran, rfl⟩
  · rw [if_neg unlocked]
    exact ⟨fun h => (nomatch h), fun h => absurd h.1 unlocked⟩

end
end AstralOS.Sched
