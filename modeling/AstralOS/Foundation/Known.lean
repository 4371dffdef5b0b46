import Mathlib.Data.Set.Basic

/-! What an observer of a store knows of it: the values at some of its places, which writes add
to and a loss of places takes from. -/
namespace Foundation

/-- The values at the places where one is known. -/
def Known (κ β : Type*) := κ → Option β

namespace Known
variable {κ β : Type*} {known news : Known κ β} {places places' part : Set κ} {held held' : κ → β → Prop}
  {x : κ} {b : β}

def nothing : Known κ β := fun _ => none

/-- What is new replaces what was known. -/
def learn (known news : Known κ β) : Known κ β := fun x => (news x).or (known x)

open Classical in
/-- What is known on a part of the places. -/
noncomputable def only (known : Known κ β) (part : Set κ) : Known κ β := fun x =>
  if x ∈ part then known x else none

theorem only_eq_some : known.only part x = some b ↔ x ∈ part ∧ known x = some b := by
  unfold only
  by_cases inside : x ∈ part
  · simp [inside]
  · simp [inside]

theorem learn_eq_some : known.learn news x = some b ↔ news x = some b ∨ news x = none ∧ known x = some b := by
  unfold learn
  cases news x with
  | none => simp
  | some b' => simp

/-- On the places that count, the store holds what is known. -/
def Right (known : Known κ β) (places : Set κ) (held : κ → β → Prop) : Prop :=
  ∀ x ∈ places, ∀ b, known x = some b → held x b

theorem right_nothing : (nothing : Known κ β).Right places held := by
  intro x _ b found
  cases found

/-- A step that keeps the values of a part, whose places counted before. -/
theorem Right.only (right : known.Right places held) (counted : part ⊆ places)
    (keeps : ∀ x ∈ part, ∀ b, held x b → held' x b) : (known.only part).Right places' held' := by
  intro x _ b found
  obtain ⟨inside, before⟩ := only_eq_some.mp found
  exact keeps x inside b (right x (counted inside) b before)

/-- A write stores the news and keeps the values of a part, up to where it stored something. -/
theorem Right.learn (right : known.Right places held) (counted : part ⊆ places)
    (stored : ∀ x ∈ places', ∀ b, news x = some b → held' x b)
    (keeps : ∀ x ∈ part, news x = none → ∀ b, held x b → held' x b) :
    ((known.only part).learn news).Right places' held' := by
  intro x member b found
  rcases learn_eq_some.mp found with new | ⟨old, before⟩
  · exact stored x member b new
  · obtain ⟨inside, before⟩ := only_eq_some.mp before
    exact keeps x inside old b (right x (counted inside) b before)

end Known
end Foundation
