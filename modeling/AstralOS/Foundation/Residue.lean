import AstralOS.Foundation.Runs
import Mathlib.Data.Set.Basic

/-! Two stores that differ in what a secret source wrote, and the places where its bytes
still lie. -/
namespace Foundation

section
variable {κ β : Type*} {related : β → β → Prop} {marked filled filled' : Set κ} {secret : Prop}
  {f g f' g' : κ → β} {x : κ}

/-- The places that hold a secret after `filled` was written from a source that is secret or not. -/
def stamp (secret : Prop) (marked filled : Set κ) : Set κ :=
  {x | (x ∈ filled ∧ secret) ∨ (x ∉ filled ∧ x ∈ marked)}

theorem stamp_inside (inside : x ∈ filled) : x ∈ stamp secret marked filled ↔ secret :=
  ⟨fun h => (h.resolve_right fun outside => outside.1 inside).2, fun h => .inl ⟨inside, h⟩⟩

theorem stamp_outside (outside : x ∉ filled) : x ∈ stamp secret marked filled ↔ x ∈ marked :=
  ⟨fun h => (h.resolve_left fun inside => outside inside.1).2, fun h => .inr ⟨outside, h⟩⟩

theorem stamp_empty : stamp secret marked ∅ = marked :=
  Set.ext fun _ => stamp_outside (Set.notMem_empty _)

theorem stamp_public : stamp False marked filled = marked \ filled := by
  ext x
  by_cases inside : x ∈ filled
  · rw [stamp_inside inside]
    exact ⟨False.elim, fun h => h.2 inside⟩
  · rw [stamp_outside inside]
    exact ⟨fun h => ⟨h, inside⟩, fun h => h.1⟩

/-- Two writes of one source are one write. -/
theorem stamp_stamp : stamp secret (stamp secret marked filled) filled' = stamp secret marked (filled ∪ filled') := by
  ext x
  by_cases later : x ∈ filled'
  · rw [stamp_inside later, stamp_inside (.inr later)]
  by_cases earlier : x ∈ filled
  · rw [stamp_outside later, stamp_inside earlier, stamp_inside (.inl earlier)]
  · have neither : x ∉ filled ∪ filled' := fun either => either.elim earlier later
    rw [stamp_outside later, stamp_outside earlier, stamp_outside neither]

/-- Equal off the marked places, and related on them. -/
structure Alike (related : β → β → Prop) (marked : Set κ) (f g : κ → β) : Prop where
  outside : ∀ x ∉ marked, g x = f x
  inside : ∀ x ∈ marked, related (f x) (g x)

/-- Writing the same places of both, from buffers that are related or equal. -/
theorem Alike.write (alike : Alike related marked f g)
    (off : ∀ x ∉ filled, f' x = f x ∧ g' x = g x)
    (secretly : secret → ∀ x ∈ filled, related (f' x) (g' x))
    (openly : ¬ secret → ∀ x ∈ filled, g' x = f' x) :
    Alike related (stamp secret marked filled) f' g' := by
  constructor
  · intro x unmarked
    by_cases new : x ∈ filled
    · exact openly (fun h => unmarked ((stamp_inside new).mpr h)) x new
    · obtain ⟨left, right⟩ := off x new
      rw [left, right]
      exact alike.outside x fun old => unmarked ((stamp_outside new).mpr old)
  · intro x mark
    by_cases new : x ∈ filled
    · exact secretly ((stamp_inside new).mp mark) x new
    · obtain ⟨left, right⟩ := off x new
      rw [left, right]
      exact alike.inside x ((stamp_outside new).mp mark)

end

end Foundation
