import Mathlib

/-! Chains of links in a store: a first element, a `next` for each, and null at the end. -/
namespace Foundation

section
variable {α : Type*} {null : α}

/-- From `p` on the links run through the list and end in null. -/
def Chained (null : α) (next : α → α) : α → List α → Prop
  | p, [] => p = null
  | p, x :: rest => p = x ∧ x ≠ null ∧ Chained null next (next x) rest

variable {next next' : α → α} {p x n : α} {l : List α} {fuel : Nat}

theorem Chained.start (chained : Chained null next p l) : p = null ↔ l = [] := by
  cases l with
  | nil => exact iff_of_true chained rfl
  | cons y rest =>
      obtain ⟨rfl, used, _⟩ := chained
      exact iff_of_false used (List.cons_ne_nil _ _)

theorem Chained.congr (chained : Chained null next p l) (same : ∀ y ∈ l, next' y = next y) :
    Chained null next' p l := by
  induction l generalizing p with
  | nil => exact chained
  | cons y rest ih =>
      obtain ⟨first, later⟩ := List.forall_mem_cons.mp same
      refine ⟨chained.1, chained.2.1, ?_⟩
      rw [first]
      exact ih chained.2.2 later

variable [DecidableEq α]

/-- `while (next(p)) p = next(p);` -/
def lastLink (null : α) (next : α → α) : Nat → α → Option α
  | 0, _ => none
  | fuel + 1, p => if next p = null then some p else lastLink null next fuel (next p)

/-- `while (p) { if (test(p)) return p; p = next(p); } return null;` -/
def findLink (null : α) (next : α → α) (test : α → Bool) : Nat → α → Option α
  | 0, _ => none
  | fuel + 1, p =>
      if p = null then some null
      else if test p then some p
      else findLink null next test fuel (next p)

/-- A new last element, linked to from the one that was last. -/
theorem Chained.append (chained : Chained null next p (l ++ [x])) (distinct : (l ++ [x]).Nodup)
    (fresh : n ∉ l ++ [x]) (used : n ≠ null) (last : next n = null) :
    Chained null (Function.update next x n) p (l ++ [x, n]) := by
  induction l generalizing p with
  | nil =>
      obtain ⟨start, notNull, _⟩ := chained
      have apart : n ≠ x := fun same => fresh (by rw [same]; exact List.mem_singleton_self x)
      refine ⟨start, notNull, ?_, used, ?_⟩
      · rw [Function.update_self]
      · rw [Function.update_of_ne apart]
        exact last
  | cons y rest ih =>
      obtain ⟨start, notNull, later⟩ := chained
      obtain ⟨other, distinct⟩ := List.nodup_cons.mp distinct
      have apart : y ≠ x := fun same => other (by rw [same]; exact List.mem_append_right _ (List.mem_singleton_self x))
      refine ⟨start, notNull, ?_⟩
      rw [Function.update_of_ne apart]
      exact ih later distinct fun member => fresh (List.mem_cons_of_mem y member)

theorem lastLink_chained (chained : Chained null next p (l ++ [x])) (enough : l.length < fuel) :
    lastLink null next fuel p = some x := by
  induction l generalizing p fuel with
  | nil =>
      obtain ⟨fuel, rfl⟩ := Nat.exists_eq_succ_of_ne_zero (Nat.ne_of_gt enough)
      obtain ⟨rfl, _, ends⟩ := chained
      have noMore : next p = null := ends
      rw [lastLink, if_pos noMore]
  | cons y rest ih =>
      obtain ⟨fuel, rfl⟩ := Nat.exists_eq_succ_of_ne_zero (Nat.ne_zero_of_lt enough)
      obtain ⟨rfl, _, later⟩ := chained
      have more : next p ≠ null := fun ends => by
        have empty := later.start.mp ends
        simp at empty
      rw [lastLink, if_neg more]
      exact ih later (by simpa using enough)

theorem findLink_chained (chained : Chained null next p l) (test : α → Bool) (enough : l.length < fuel) :
    findLink null next test fuel p = some ((l.find? test).getD null) := by
  induction l generalizing p fuel with
  | nil =>
      obtain ⟨fuel, rfl⟩ := Nat.exists_eq_succ_of_ne_zero (Nat.ne_of_gt enough)
      have none_left : p = null := chained
      rw [findLink, if_pos none_left]
      rfl
  | cons y rest ih =>
      obtain ⟨fuel, rfl⟩ := Nat.exists_eq_succ_of_ne_zero (Nat.ne_zero_of_lt enough)
      obtain ⟨rfl, used, later⟩ := chained
      rw [findLink, if_neg used]
      by_cases found : test p = true
      · simp [found]
      · simp only [found, Bool.false_eq_true, if_false]
        rw [ih later (by simpa using enough), List.find?_cons_of_neg found]

end

/-- Pointers that are distinct and not null are fewer than there are words. -/
theorem length_lt_of_distinct {w : Nat} {l : List (BitVec w)} (distinct : l.Nodup) (used : 0#w ∉ l) :
    l.length < 2 ^ w := by
  have injective : Function.Injective (BitVec.toFin : BitVec w → Fin (2 ^ w)) := fun _ _ same =>
    BitVec.eq_of_toFin_eq same
  have all : ((0#w :: l).map BitVec.toFin).Nodup := (List.nodup_cons.mpr ⟨used, distinct⟩).map injective
  have := all.length_le_card
  rwa [Fintype.card_fin, List.length_map, List.length_cons] at this

end Foundation
