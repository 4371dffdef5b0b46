import Mathlib.Data.List.Forall2

/-! Patterns met one after another in a sequence, each at the first element that fits it. -/
namespace Foundation
variable {α β : Type}

theorem sublistForall₂_tail {fits : α → β → Prop} {a : α} {rest : List α} {elements : List β}
    (met : List.SublistForall₂ fits (a :: rest) elements) : List.SublistForall₂ fits rest elements := by
  induction elements with
  | nil => cases met
  | cons b elements ih =>
      cases met with
      | cons _ later => exact .cons_right later
      | cons_right later => exact .cons_right (ih later)

variable (fits : α → β → Prop) [∀ a b, Decidable (fits a b)]

/-- The patterns still to be met after one more element. -/
def advance : List α → β → List α
  | [], _ => []
  | a :: rest, b => if fits a b then rest else a :: rest

/-- Nothing is lost by meeting each pattern as soon as one can. -/
theorem foldl_advance_eq_nil_iff {patterns : List α} {elements : List β} :
    elements.foldl (advance fits) patterns = [] ↔ List.SublistForall₂ fits patterns elements := by
  induction elements generalizing patterns with
  | nil =>
      constructor
      · rintro rfl
        exact .nil
      · intro met
        cases met
        rfl
  | cons b elements ih =>
      rw [List.foldl_cons, ih]
      cases patterns with
      | nil => exact iff_of_true .nil .nil
      | cons a rest =>
          rw [advance]
          split_ifs with here
          · constructor
            · exact .cons here
            · intro met
              cases met with
              | cons _ later => exact later
              | cons_right later => exact sublistForall₂_tail later
          · constructor
            · exact .cons_right
            · intro met
              cases met with
              | cons fit _ => exact absurd fit here
              | cons_right later => exact later

end Foundation
