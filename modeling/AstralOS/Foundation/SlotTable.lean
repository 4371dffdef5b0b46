import Mathlib.Data.Set.Card
import Mathlib.Data.Set.Finite.Range
import Mathlib.Logic.Function.Basic

/-! Tables of slots that are free or hold a key with a value. With no key in two slots such
a table is a finite map. -/
namespace Foundation

abbrev SlotTable (σ κ ν : Type*) := σ → Option (κ × ν)

namespace SlotTable
variable {σ κ ν : Type*} {t : SlotTable σ κ ν} {s s' : σ} {k k' : κ} {v v' : ν}

def Binds (t : SlotTable σ κ ν) (k : κ) (v : ν) : Prop := ∃ s, t s = some (k, v)

/-- No key is in two slots. -/
def Distinct (t : SlotTable σ κ ν) : Prop :=
  ∀ s s' k v v', t s = some (k, v) → t s' = some (k, v') → s = s'

def keys (t : SlotTable σ κ ν) : Set κ := {k | ∃ v, t.Binds k v}

theorem Distinct.functional (distinct : t.Distinct) (first : t.Binds k v) (second : t.Binds k v') :
    v = v' := by
  obtain ⟨s, held⟩ := first
  obtain ⟨s', held'⟩ := second
  obtain rfl := distinct s s' k v v' held held'
  exact congrArg Prod.snd (Option.some.inj (held.symm.trans held'))

theorem finite_keys [Finite σ] (t : SlotTable σ κ ν) : t.keys.Finite := by
  have image := Set.finite_range fun s => (t s).map Prod.fst
  refine (image.preimage (Option.some_injective κ).injOn).subset ?_
  rintro k ⟨v, s, held⟩
  exact ⟨s, by simp [held]⟩

/-- There are no more keys than slots. -/
theorem ncard_keys_le [Finite σ] (t : SlotTable σ κ ν) : t.keys.ncard ≤ Nat.card σ := by
  have image : (some '' t.keys).ncard ≤ (Set.range fun s => (t s).map Prod.fst).ncard := by
    refine Set.ncard_le_ncard ?_ (Set.finite_range _)
    rintro _ ⟨k, ⟨v, s, held⟩, rfl⟩
    exact ⟨s, by simp [held]⟩
  rw [Set.ncard_image_of_injective _ (Option.some_injective κ)] at image
  have range := Set.ncard_image_le (f := fun s => (t s).map Prod.fst) (Set.finite_univ)
  rw [Set.image_univ, Set.ncard_univ] at range
  exact image.trans range

section Update
variable [DecidableEq σ]

theorem binds_fill (free : t s = none) :
    Binds (Function.update t s (some (k, v))) k' v' ↔ t.Binds k' v' ∨ (k' = k ∧ v' = v) := by
  constructor
  · rintro ⟨x, held⟩
    by_cases same : x = s
    · subst same
      rw [Function.update_self] at held
      cases held
      exact .inr ⟨rfl, rfl⟩
    · rw [Function.update_of_ne same] at held
      exact .inl ⟨x, held⟩
  · rintro (⟨x, held⟩ | ⟨rfl, rfl⟩)
    · have other : x ≠ s := by
        rintro rfl
        rw [free] at held
        cases held
      exact ⟨x, by rw [Function.update_of_ne other, held]⟩
    · exact ⟨s, Function.update_self _ _ _⟩

theorem distinct_fill (distinct : t.Distinct) (new : k ∉ t.keys) :
    Distinct (Function.update t s (some (k, v))) := by
  intro x y key a b heldX heldY
  by_cases sameX : x = s
  · by_cases sameY : y = s
    · rw [sameX, sameY]
    · subst sameX
      rw [Function.update_self] at heldX
      rw [Function.update_of_ne sameY] at heldY
      cases heldX
      exact absurd ⟨b, y, heldY⟩ new
  · rw [Function.update_of_ne sameX] at heldX
    by_cases sameY : y = s
    · subst sameY
      rw [Function.update_self] at heldY
      cases heldY
      exact absurd ⟨a, x, heldX⟩ new
    · rw [Function.update_of_ne sameY] at heldY
      exact distinct x y key a b heldX heldY

theorem binds_clear (distinct : t.Distinct) (held : t s = some (k, v)) :
    Binds (Function.update t s none) k' v' ↔ t.Binds k' v' ∧ k' ≠ k := by
  constructor
  · rintro ⟨x, heldX⟩
    by_cases same : x = s
    · subst same
      rw [Function.update_self] at heldX
      cases heldX
    · rw [Function.update_of_ne same] at heldX
      refine ⟨⟨x, heldX⟩, ?_⟩
      rintro rfl
      exact same (distinct x s _ _ _ heldX held)
  · rintro ⟨⟨x, heldX⟩, other⟩
    have apart : x ≠ s := by
      rintro rfl
      rw [held] at heldX
      cases heldX
      exact other rfl
    exact ⟨x, by rw [Function.update_of_ne apart, heldX]⟩

theorem distinct_clear (distinct : t.Distinct) : Distinct (Function.update t s none) := by
  have before : ∀ x e, Function.update t s none x = some e → t x = some e := by
    intro x e held
    by_cases same : x = s
    · subst same
      rw [Function.update_self] at held
      cases held
    · rwa [Function.update_of_ne same] at held
  exact fun x y key a b heldX heldY => distinct x y key a b (before x _ heldX) (before y _ heldY)

theorem keys_fill (free : t s = none) :
    keys (Function.update t s (some (k, v))) = insert k t.keys := by
  ext key
  constructor
  · rintro ⟨a, bound⟩
    rcases (binds_fill free).mp bound with before | ⟨rfl, _⟩
    · exact .inr ⟨a, before⟩
    · exact .inl rfl
  · rintro (rfl | ⟨a, bound⟩)
    · exact ⟨v, (binds_fill free).mpr (.inr ⟨rfl, rfl⟩)⟩
    · exact ⟨a, (binds_fill free).mpr (.inl bound)⟩

theorem keys_clear (distinct : t.Distinct) (held : t s = some (k, v)) :
    keys (Function.update t s none) = t.keys \ {k} := by
  ext key
  constructor
  · rintro ⟨a, bound⟩
    obtain ⟨before, other⟩ := (binds_clear distinct held).mp bound
    exact ⟨⟨a, before⟩, other⟩
  · rintro ⟨⟨a, bound⟩, other⟩
    exact ⟨a, (binds_clear distinct held).mpr ⟨bound, other⟩⟩

theorem ncard_keys_fill [Finite σ] (free : t s = none) (new : k ∉ t.keys) :
    (keys (Function.update t s (some (k, v)))).ncard = t.keys.ncard + 1 := by
  rw [keys_fill free, Set.ncard_insert_of_notMem new t.finite_keys]

theorem ncard_keys_clear [Finite σ] (distinct : t.Distinct) (held : t s = some (k, v)) :
    (keys (Function.update t s none)).ncard + 1 = t.keys.ncard := by
  have member : k ∈ t.keys := ⟨v, s, held⟩
  rw [keys_clear distinct held, Set.ncard_sdiff_singleton_add_one member t.finite_keys]

end Update
end SlotTable
end Foundation
