import AstralOS.Foundation.Memory

/-! The stage 1 table walk of ARMv8-A with the 4KB granule, for the lower address range and
48-bit output addresses, and tables as arrays of descriptors in memory. -/
namespace Foundation.PageWalk

/-- What a walk yields. `attrIndx` selects a field of `MAIR_EL1`. -/
structure Translation where
  pa : BitVec 64
  attrIndx : BitVec 3
  pxn : Bool
  uxn : Bool
  deriving DecidableEq

/-- Bits `[47:shift]` of a descriptor or base register, the bits below zero. -/
def addressBits (shift : Nat) (d : BitVec 64) : Nat := d.toNat % 2 ^ 48 / 2 ^ shift * 2 ^ shift

def tableAddress (d : BitVec 64) : Addr := BitVec.ofNat 64 (addressBits 12 d)

/-- The nine index bits above bit `shift`. -/
def indexOf (shift : Nat) (va : BitVec 64) : Nat := va.toNat / 2 ^ shift % 512

def descriptor (m : Memory) (table : Addr) (i : Nat) : BitVec 64 := load 64 8 m (table + BitVec.ofNat 64 (8 * i))

/-- A block or page descriptor; without the access flag it faults. -/
def leaf (shift : Nat) (d va : BitVec 64) (pxn uxn : Bool) : Option Translation :=
  if d.getLsbD 10 then some
    { pa := BitVec.ofNat 64 (addressBits shift d + va.toNat % 2 ^ shift)
      attrIndx := d.extractLsb' 2 3
      pxn := pxn || d.getLsbD 53
      uxn := uxn || d.getLsbD 54 }
  else none

/-- The walk with `left` levels below the current one, so level 3 has none. There are blocks at
levels 1 and 2; tables hand `PXNTable` and `UXNTable` down. -/
def walkFrom (m : Memory) (va : BitVec 64) : Nat → Bool → Bool → Addr → Option Translation
  | 0, pxn, uxn, table =>
      let d := descriptor m table (indexOf 12 va)
      if d.getLsbD 0 ∧ d.getLsbD 1 then leaf 12 d va pxn uxn else none
  | left + 1, pxn, uxn, table =>
      let shift := 12 + 9 * (left + 1)
      let d := descriptor m table (indexOf shift va)
      if d.getLsbD 0 then
        if d.getLsbD 1 then walkFrom m va left (pxn || d.getLsbD 59) (uxn || d.getLsbD 60) (tableAddress d)
        else if left < 2 then leaf shift d va pxn uxn
        else none
      else none

/-- `TCR_EL1.T0SZ` selects the size of the range and with it the first level: 16 to 24 start at
level 0, 25 to 33 at level 1, 34 to 39 at level 2. The first table may be a part of a page. -/
def walk (m : Memory) (tcr ttbr0 va : BitVec 64) : Option Translation :=
  let t0sz := tcr.toNat % 64
  if t0sz < 16 ∨ 39 < t0sz ∨ 2 ^ (64 - t0sz) ≤ va.toNat then none
  else
    let level := (t0sz - 16) / 9
    walkFrom m va (3 - level) false false (BitVec.ofNat 64 (addressBits (28 + 9 * level - t0sz) ttbr0))

/-- Writes `n` descriptors in order. -/
def fillTable (base : Addr) (entry : Nat → BitVec 64) (n : Nat) (m : Memory) : Memory :=
  (List.range n).foldl (fun m i => store 8 m (base + BitVec.ofNat 64 (8 * i)) (entry i)) m

section
variable {m m' : Memory} {va d : BitVec 64} {table base : Addr} {pxn uxn : Bool} {left n k : Nat}
  {entry : Nat → BitVec 64}

theorem indexOf_lt (shift : Nat) (va : BitVec 64) : indexOf shift va < 512 := Nat.mod_lt _ (by decide)

/-- A table descriptor: the walk goes on below. -/
theorem walkFrom_table (here : descriptor m table (indexOf (12 + 9 * (left + 1)) va) = d)
    (valid : d.getLsbD 0 = true) (isTable : d.getLsbD 1 = true) :
    walkFrom m va (left + 1) pxn uxn table =
      walkFrom m va left (pxn || d.getLsbD 59) (uxn || d.getLsbD 60) (tableAddress d) := by
  rw [walkFrom]
  simp only [here, valid, isTable, if_true]

theorem walkFrom_block (here : descriptor m table (indexOf (12 + 9 * (left + 1)) va) = d)
    (valid : d.getLsbD 0 = true) (isBlock : d.getLsbD 1 = false) (low : left < 2) :
    walkFrom m va (left + 1) pxn uxn table = leaf (12 + 9 * (left + 1)) d va pxn uxn := by
  rw [walkFrom]
  simp only [here, valid, isBlock, low, if_true, Bool.false_eq_true, if_false]

/-- With 48-bit addresses the walk starts at level 0, from a whole page. -/
theorem walk_level0 {tcr ttbr0 : BitVec 64} (t0sz : tcr.toNat % 64 = 16) :
    walk m tcr ttbr0 va =
      if 2 ^ 48 ≤ va.toNat then none else walkFrom m va 3 false false (tableAddress ttbr0) := by
  unfold walk
  rw [t0sz]
  by_cases high : 2 ^ 48 ≤ va.toNat
  · rw [if_pos high]
    exact if_pos (.inr (.inr high))
  · rw [if_neg high]
    refine if_neg ?_
    rintro (small | large | out)
    · omega
    · omega
    · exact high out

/-- A walk depends on its first table through one descriptor. -/
theorem walkFrom_same_entry {table' : Addr} (same : ∀ i < 512, descriptor m table i = descriptor m table' i) :
    walkFrom m va left pxn uxn table = walkFrom m va left pxn uxn table' := by
  cases left with
  | zero => rw [walkFrom, walkFrom, same _ (indexOf_lt 12 va)]
  | succ left => rw [walkFrom, walkFrom, same _ (indexOf_lt _ va)]

/-- An aligned address below `2 ^ 48` is all address bits. -/
theorem addressBits_aligned (aligned : base.toNat % 4096 = 0) (physical : base.toNat < 2 ^ 48) :
    addressBits 12 base = base.toNat := by
  rw [addressBits, Nat.mod_eq_of_lt physical]
  omega

theorem tableAddress_aligned (aligned : base.toNat % 4096 = 0) (physical : base.toNat < 2 ^ 48) :
    tableAddress base = base := by
  rw [tableAddress, addressBits_aligned aligned physical]
  simp

/-- The type bits of a table descriptor stand where the address has none. -/
theorem tableAddress_typed (aligned : base.toNat % 4096 = 0) (physical : base.toNat < 2 ^ 48) :
    tableAddress (base ||| 2#64 ||| 1#64) = base := by
  have typed : (base ||| 2#64 ||| 1#64).toNat = base.toNat + 3 := by
    obtain ⟨q, split⟩ : ∃ q, base.toNat = 2 ^ 12 * q := ⟨base.toNat / 4096, by omega⟩
    rw [BitVec.or_assoc, BitVec.toNat_or, split]
    exact (Nat.two_pow_add_eq_or_of_lt (by decide) q).symm
  rw [tableAddress, addressBits, typed]
  have : (base.toNat + 3) % 2 ^ 48 / 2 ^ 12 * 2 ^ 12 = base.toNat := by omega
  rw [this]
  simp

/-- A descriptor that is an address and the type bits hands down nothing but the address. -/
theorem walkFrom_typed (aligned : base.toNat % 4096 = 0) (physical : base.toNat < 2 ^ 48)
    (here : descriptor m table (indexOf (12 + 9 * (left + 1)) va) = base ||| 2#64 ||| 1#64) :
    walkFrom m va (left + 1) pxn uxn table = walkFrom m va left pxn uxn base := by
  have high (i : Nat) (above : 48 ≤ i) : base.getLsbD i = false :=
    Nat.testBit_lt_two_pow (Nat.lt_of_lt_of_le physical (Nat.pow_le_pow_right (by decide) above))
  have plain (i : Nat) (above : 48 ≤ i) (clear : (2#64).getLsbD i = false ∧ (1#64).getLsbD i = false) :
      (base ||| 2#64 ||| 1#64).getLsbD i = false := by
    rw [BitVec.getLsbD_or, BitVec.getLsbD_or, high i above, clear.1, clear.2]
    rfl
  rw [walkFrom_table here (by simp) (by simp), plain 59 (by decide) (by decide), plain 60 (by decide) (by decide),
    Bool.or_false, Bool.or_false, tableAddress_typed aligned physical]

/-- Clearing the offset in a page leaves an aligned address. -/
theorem clear_offset_typed (aligned : base.toNat % 4096 = 0) :
    (base ||| 2#64 ||| 1#64) &&& ~~~0xFFF#64 = base := by
  obtain ⟨q, split⟩ : ∃ q, base.toNat = 2 ^ 12 * q := ⟨base.toNat / 4096, by omega⟩
  have mask : ∀ i < 64, (0xFFF#64).getLsbD i = decide (i < 12) := by decide
  have types : ∀ i < 64, (2#64 ||| 1#64).getLsbD i = decide (i < 2) := by decide
  refine BitVec.eq_of_getLsbD_eq fun i inside => ?_
  rw [BitVec.or_assoc, BitVec.getLsbD_and, BitVec.getLsbD_or, BitVec.getLsbD_not, mask i inside, types i inside,
    decide_eq_true inside, Bool.true_and]
  by_cases low : i < 12
  · have clear : base.getLsbD i = false := by
      rw [BitVec.getLsbD, split, Nat.testBit_two_pow_mul, decide_eq_false (Nat.not_le_of_lt low), Bool.false_and]
    simp [low, clear]
  · have high : ¬ i < 2 := by omega
    simp [low, high]

theorem descriptor_congr (same : ∀ x : Addr, base.toNat ≤ x.toNat → x.toNat < base.toNat + 8 * n → m' x = m x)
    (fits : base.toNat + 8 * n ≤ 2 ^ 64) (inside : k < n) : descriptor m' base k = descriptor m base k := by
  refine load_congr fun i hi => ?_
  rw [BitVec.add_assoc, ← BitVec.ofNat_add]
  have place := toNat_add_ofNat (a := base) (i := 8 * k + i) (by omega)
  exact same _ (by omega) (by omega)

/-- Only the table changes. -/
theorem fillTable_outside (fits : base.toNat + 8 * n ≤ 2 ^ 64) {x : Addr}
    (out : x.toNat < base.toNat ∨ base.toNat + 8 * n ≤ x.toNat) : fillTable base entry n m x = m x := by
  induction n with
  | zero => rfl
  | succ n ih =>
      have place := toNat_add_ofNat (a := base) (i := 8 * n) (by omega)
      rw [fillTable, List.range_succ, List.foldl_append]
      exact (store_apply (by omega) (by omega)).trans (ih (by omega) (by omega))

theorem descriptor_fillTable (fits : base.toNat + 8 * n ≤ 2 ^ 64) (inside : k < n) :
    descriptor (fillTable base entry n m) base k = entry k := by
  induction n with
  | zero => exact absurd inside (Nat.not_lt_zero k)
  | succ n ih =>
      have place := toNat_add_ofNat (a := base) (i := 8 * n) (by omega)
      rw [fillTable, List.range_succ, List.foldl_append]
      by_cases last : k = n
      · rw [last]
        exact load_store_same (by omega) (by omega) _ _ _
      · have earlier : k < n := by omega
        have placeK := toNat_add_ofNat (a := base) (i := 8 * k) (by omega)
        exact (load_store_disjoint (by omega) (by omega) (by omega)).trans (ih (by omega) earlier)

end
end Foundation.PageWalk
