import Mathlib.Data.List.Nodup
import Mathlib.Tactic.Common

/-! A cursor that goes round a ring of seats while the ring grows at its end: between two
visits of one seat, every seat that was there at the first is visited once. -/
namespace Foundation

structure Ring where
  size : Nat
  cursor : Nat

inductive Ring.Act where
  | grow | turn | idle
  deriving DecidableEq

namespace Ring

def step (r : Ring) : Act → Ring
  | .grow => { r with size := r.size + 1 }
  | .turn => { r with cursor := (r.cursor + 1) % r.size }
  | .idle => r

/-- The seat a step moves the cursor to. -/
def visit (r : Ring) : Act → List Nat
  | .turn => [(r.cursor + 1) % r.size]
  | _ => []

def visits : Ring → List Act → List Nat
  | _, [] => []
  | r, a :: rest => r.visit a ++ visits (r.step a) rest

/-- The seats visited since the cursor left `k`, when the ring had `m` seats: those behind
`k` up to the cursor, or all of them behind `k` and those from 0 up to the cursor. -/
inductive Lap (k m : Nat) : Ring → List Nat → Prop
  | ahead {r : Ring} (old : m ≤ r.size) (within : r.cursor < r.size) (after : k ≤ r.cursor) :
      Lap k m r (List.range' (k + 1) (r.cursor - k))
  | wrapped {r : Ring} (n : Nat) (old : m ≤ n) (behind : k < n) (grown : n ≤ r.size)
      (before : r.cursor < k) :
      Lap k m r (List.range' (k + 1) (n - (k + 1)) ++ List.range (r.cursor + 1))

variable {k m : Nat} {r : Ring} {seen : List Nat}

theorem Lap.start (inside : k < m) : Lap k m ⟨m, k⟩ [] := by
  have first := Lap.ahead (k := k) (m := m) (r := ⟨m, k⟩) (Nat.le_refl _) inside (Nat.le_refl _)
  rwa [Nat.sub_self] at first

theorem Lap.grow (lap : Lap k m r seen) : Lap k m (r.step .grow) seen := by
  cases lap with
  | ahead old within after => exact .ahead (Nat.le_succ_of_le old) (Nat.lt_succ_of_lt within) after
  | wrapped n old behind grown before => exact .wrapped n old behind (Nat.le_succ_of_le grown) before

theorem Lap.turn (lap : Lap k m r seen) (other : (r.cursor + 1) % r.size ≠ k) :
    Lap k m (r.step .turn) (seen ++ r.visit .turn) := by
  cases lap with
  | ahead old within after =>
      by_cases last : r.cursor + 1 = r.size
      · have home : (r.cursor + 1) % r.size = 0 := by rw [last, Nat.mod_self]
        have before : 0 < k := by omega
        have length : r.cursor - k = r.size - (k + 1) := by omega
        have next := Lap.wrapped (k := k) (m := m) (r := r.step .turn) r.size old (by omega) (Nat.le_refl _)
          (by simpa only [step, home] using before)
        simpa only [visit, step, home, length, List.range_succ, List.range_zero, List.nil_append] using next
      · have further : (r.cursor + 1) % r.size = r.cursor + 1 := Nat.mod_eq_of_lt (by omega)
        have length : r.cursor + 1 - k = r.cursor - k + 1 := by omega
        have place : k + 1 + (r.cursor - k) = r.cursor + 1 := by omega
        have next := Lap.ahead (k := k) (m := m) (r := r.step .turn) old
          (by simp only [step, further]; omega) (by simp only [step, further]; omega)
        simpa only [visit, step, further, length, List.range'_1_concat, place] using next
  | wrapped n old behind grown before =>
      have further : (r.cursor + 1) % r.size = r.cursor + 1 := Nat.mod_eq_of_lt (by omega)
      have next := Lap.wrapped (k := k) (m := m) (r := r.step .turn) n old behind grown
        (by simp only [step, further]; omega)
      simpa only [visit, step, further, List.range_succ, List.append_assoc] using next

/-- A run that does not come back to `k` stays on its lap. -/
theorem Lap.run (acts : List Act) : ∀ {r : Ring} {seen : List Nat}, Lap k m r seen →
    k ∉ r.visits acts → Lap k m (acts.foldl step r) (seen ++ r.visits acts) := by
  induction acts with
  | nil =>
      intro r seen lap _
      rwa [visits, List.append_nil]
  | cons a rest ih =>
      intro r seen lap away
      rw [visits, List.mem_append, not_or] at away
      rw [visits, ← List.append_assoc]
      cases a with
      | grow => simpa [visit] using ih lap.grow away.2
      | turn => exact ih (lap.turn fun back => away.1 (by simp [visit, back])) away.2
      | idle => simpa [visit, step] using ih lap away.2

/-- When the lap closes, every other seat of its start has been visited once. -/
theorem Lap.closes (lap : Lap k m r seen) (back : (r.cursor + 1) % r.size = k) {j : Nat}
    (old : j < m) (other : j ≠ k) : seen.count j = 1 := by
  cases lap with
  | ahead known within after =>
      have last : r.cursor + 1 = r.size := by
        by_contra inner
        rw [Nat.mod_eq_of_lt (by omega)] at back
        omega
      have first : k = 0 := by rw [← back, last, Nat.mod_self]
      refine List.count_eq_one_of_mem List.nodup_range' ?_
      rw [List.mem_range'_1]
      omega
  | wrapped n known behind grown before =>
      rw [Nat.mod_eq_of_lt (by omega)] at back
      rw [List.count_append]
      by_cases low : j < k
      · have absent : j ∉ List.range' (k + 1) (n - (k + 1)) := by
          rw [List.mem_range'_1]
          omega
        have present : j ∈ List.range (r.cursor + 1) := List.mem_range.mpr (by omega)
        rw [List.count_eq_zero_of_not_mem absent, List.count_eq_one_of_mem List.nodup_range present]
      · have absent : j ∉ List.range (r.cursor + 1) := by
          rw [List.mem_range]
          omega
        have present : j ∈ List.range' (k + 1) (n - (k + 1)) := by
          rw [List.mem_range'_1]
          omega
        rw [List.count_eq_zero_of_not_mem absent, List.count_eq_one_of_mem List.nodup_range' present]

/-- Between two consecutive visits of `k`, every other seat of the first is visited once. -/
theorem fair_between_visits {acts : List Act} (inside : k < m)
    (away : k ∉ visits ⟨m, k⟩ acts)
    (back : visit (acts.foldl step ⟨m, k⟩) .turn = [k]) {j : Nat} (old : j < m)
    (other : j ≠ k) : (visits ⟨m, k⟩ acts).count j = 1 := by
  have lap := (Lap.start inside).run acts away
  rw [List.nil_append] at lap
  exact lap.closes (List.singleton_injective back) old other

end Ring
end Foundation
