import AstralOS.Foundation.Bytes

/-! Bit arrays as sets of numbers: bit `k - 1` says whether `k` is in the set. -/
namespace Foundation

/-- The numbers from 1 to `n` whose bits are set. -/
def bitSet (f : Bytes) (n : Nat) : Set Nat := {k | k ∈ Set.Icc 1 n ∧ testBit f (k - 1) = true}

section
variable {f : Bytes} {n i : Nat}

theorem bitSet_subset (f : Bytes) (n : Nat) : bitSet f n ⊆ Set.Icc 1 n := fun _ member => member.1

theorem bitSet_setBit (below : i < n) : bitSet (setBit f i) n = insert (i + 1) (bitSet f n) := by
  ext k
  rw [Set.mem_insert_iff, bitSet, bitSet, Set.mem_ofPred_eq, Set.mem_ofPred_eq, testBit_setBit, Bool.or_eq_true,
    decide_eq_true_eq]
  constructor
  · rintro ⟨⟨low, high⟩, new | old⟩
    · exact .inl (by omega)
    · exact .inr ⟨⟨low, high⟩, old⟩
  · rintro (rfl | ⟨range, old⟩)
    · exact ⟨⟨by omega, by omega⟩, .inl rfl⟩
    · exact ⟨range, .inr old⟩

theorem bitSet_clearBit (f : Bytes) (n i : Nat) : bitSet (clearBit f i) n = bitSet f n \ {i + 1} := by
  ext k
  rw [Set.mem_sdiff, Set.mem_singleton_iff, bitSet, bitSet, Set.mem_ofPred_eq, Set.mem_ofPred_eq, testBit_clearBit,
    Bool.and_eq_true, Bool.not_eq_true', decide_eq_false_iff_not]
  constructor
  · rintro ⟨⟨low, high⟩, other, old⟩
    exact ⟨⟨⟨low, high⟩, old⟩, by omega⟩
  · rintro ⟨⟨⟨low, high⟩, old⟩, other⟩
    exact ⟨⟨low, high⟩, by omega, old⟩

/-- The scan for a clear bit finds the least number that is not in the set. -/
theorem firstClear_isLeast (found : firstClear f n = some i) : IsLeast (Set.Icc 1 n \ bitSet f n) (i + 1) := by
  obtain ⟨below, clear, before⟩ := firstClear_eq_some.mp found
  refine ⟨⟨⟨by omega, by omega⟩, fun member => ?_⟩, ?_⟩
  · have set_ : testBit f i = true := member.2
    rw [clear] at set_
    cases set_
  · rintro k ⟨⟨low, high⟩, out⟩
    by_contra less
    exact out ⟨⟨low, high⟩, before (k - 1) (by omega)⟩

theorem firstClear_none_iff : firstClear f n = none ↔ bitSet f n = Set.Icc 1 n := by
  rw [firstClear_eq_none]
  constructor
  · intro full
    refine (bitSet_subset f n).antisymm fun k range => ⟨range, full (k - 1) ?_⟩
    have := range.1
    have := range.2
    omega
  · intro all i below
    have member : i + 1 ∈ bitSet f n := all ▸ ⟨by omega, by omega⟩
    exact member.2

end
end Foundation
