/-! Loops that may not end: what they give once they have been cut off late enough. -/
namespace Foundation
variable {σ α : Type}

/-- The loop, cut off after `n` turns. A turn gives the next state, or the result. -/
def turns (turn : σ → σ ⊕ α) : Nat → σ → Option α
  | 0, _ => none
  | n + 1, s =>
      match turn s with
      | .inl next => turns turn n next
      | .inr result => some result

variable {turn : σ → σ ⊕ α} {s : σ} {result result' : α}

theorem turns_more {n more : Nat} (enough : n ≤ more) (ended : turns turn n s = some result) :
    turns turn more s = some result := by
  induction n generalizing more s with
  | zero => cases ended
  | succ n ih =>
      obtain ⟨more, rfl⟩ := Nat.exists_eq_add_of_le' (Nat.one_le_of_lt enough)
      rw [turns] at ended ⊢
      cases next : turn s with
      | inl s' =>
          rw [next] at ended
          exact ih (Nat.le_of_succ_le_succ enough) ended
      | inr last =>
          rw [next] at ended
          exact ended

theorem turns_unique {n n' : Nat} (ended : turns turn n s = some result) (ended' : turns turn n' s = some result') :
    result = result' :=
  Option.some.inj ((turns_more (Nat.le_max_left n n') ended).symm.trans (turns_more (Nat.le_max_right n n') ended'))

end Foundation
