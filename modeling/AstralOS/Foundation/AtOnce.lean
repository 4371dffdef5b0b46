import Mathlib.Data.List.Basic

/-! What is seen of a run that is cut short: steps that do not show, and runs that show at once. -/
namespace Foundation

section
variable {σ α β : Type*} (step : σ → α → σ) (seen : σ → β)

/-- No matter where it is cut, nothing of the run shows. -/
def Unseen (s : σ) (inputs : List α) : Prop := ∀ k, seen ((inputs.take k).foldl step s) = seen s

/-- No matter where it is cut, nothing of the run shows or all of it. -/
def AtOnce (s : σ) (inputs : List α) : Prop :=
  ∀ k, seen ((inputs.take k).foldl step s) = seen s ∨
    seen ((inputs.take k).foldl step s) = seen (inputs.foldl step s)

variable {step seen} {s : σ} {a : α} {inputs later : List α}

theorem unseen_nil : Unseen step seen s [] := by
  intro k
  rw [List.take_nil]
  rfl

theorem Unseen.cons (first : seen (step s a) = seen s) (rest : Unseen step seen (step s a) inputs) :
    Unseen step seen s (a :: inputs) := by
  intro k
  cases k with
  | zero => rfl
  | succ k => exact (rest k).trans first

theorem Unseen.whole (unseen : Unseen step seen s inputs) : seen (inputs.foldl step s) = seen s := by
  have all := unseen inputs.length
  rwa [List.take_length] at all

theorem Unseen.atOnce (unseen : Unseen step seen s inputs) : AtOnce step seen s inputs :=
  fun k => .inl (unseen k)

/-- After the step that shows, nothing does. -/
theorem Unseen.after (rest : Unseen step seen (step s a) inputs) : AtOnce step seen s (a :: inputs) := by
  intro k
  cases k with
  | zero => exact .inl rfl
  | succ k => exact .inr ((rest k).trans rest.whole.symm)

theorem atOnce_single : AtOnce step seen s [a] := unseen_nil.after

/-- Before the steps that show, nothing does. -/
theorem AtOnce.append (first : Unseen step seen s inputs)
    (rest : AtOnce step seen (inputs.foldl step s) later) : AtOnce step seen s (inputs ++ later) := by
  intro k
  rw [List.take_append, List.foldl_append, List.foldl_append]
  by_cases within : k ≤ inputs.length
  · rw [Nat.sub_eq_zero_of_le within, List.take_zero]
    exact .inl (first k)
  · rw [List.take_of_length_le (by omega)]
    refine (rest (k - inputs.length)).imp_left fun nothing => ?_
    exact nothing.trans first.whole

end
end Foundation
