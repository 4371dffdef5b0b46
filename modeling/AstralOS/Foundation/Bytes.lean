import Mathlib

/-! Byte sequences, little-endian words and bit arrays. Nothing here refers to a
particular program: a sequence is read from some origin on, and the readers and
writers below are the usual ones on it. -/
namespace Foundation

abbrev Byte := BitVec 8

/-- The bytes found from some origin on; index 0 is the byte at the origin. -/
abbrev Bytes := Nat → Byte

def Bytes.drop (f : Bytes) (k : Nat) : Bytes := fun i => f (k + i)

/-- `len` bytes of `src` written over `f` from offset `off` on. -/
def Bytes.splice (f : Bytes) (off len : Nat) (src : Bytes) : Bytes := fun i =>
  if off ≤ i ∧ i < off + len then src (i - off) else f i

theorem splice_inside (f src : Bytes) {off len i : Nat} (hi : i < len) :
    f.splice off len src (off + i) = src i := by
  simp [Bytes.splice, hi]

theorem splice_outside (f src : Bytes) {off len i : Nat} (hi : i < off ∨ off + len ≤ i) :
    f.splice off len src i = f i := by
  have : ¬ (off ≤ i ∧ i < off + len) := by omega
  simp [Bytes.splice, this]

def leNat : Nat → Bytes → Nat
  | 0, _ => 0
  | n+1, f => (f 0).toNat + 256 * leNat n (fun i => f (i + 1))

/-- The little-endian word of width `w` in the first `n` bytes. -/
def le (w n : Nat) (f : Bytes) : BitVec w := BitVec.ofNat w (leNat n f)

/-- Byte `i` of a word, least significant first. -/
def leByte {w : Nat} (v : BitVec w) : Bytes := fun i => BitVec.ofNat 8 (v.toNat / 256 ^ i)

theorem leNat_congr {n : Nat} {f g : Bytes} (h : ∀ i < n, f i = g i) : leNat n f = leNat n g := by
  induction n generalizing f g with
  | zero => rfl
  | succ n ih =>
      rw [leNat, leNat, h 0 (Nat.zero_lt_succ n), ih fun i hi => h (i + 1) (by omega)]

theorem le_congr {w n : Nat} {f g : Bytes} (h : ∀ i < n, f i = g i) : le w n f = le w n g :=
  congrArg (BitVec.ofNat w) (leNat_congr h)

theorem leNat_digits (n v : Nat) :
    leNat n (fun i => BitVec.ofNat 8 (v / 256 ^ i)) = v % 256 ^ n := by
  induction n generalizing v with
  | zero => simp [leNat, Nat.mod_one]
  | succ n ih =>
      have shifted : (fun i => BitVec.ofNat 8 (v / 256 ^ (i + 1))) =
          fun i => BitVec.ofNat 8 (v / 256 / 256 ^ i) := by
        funext i
        rw [Nat.div_div_eq_div_mul, pow_succ, mul_comm]
      rw [leNat, shifted, ih, pow_succ, mul_comm (256 ^ n), Nat.mod_mul]
      simp

theorem le_leByte {w n : Nat} (hw : w ≤ 8 * n) (v : BitVec w) : le w n (leByte v) = v := by
  apply BitVec.eq_of_toNat_eq
  have fits : v.toNat < 256 ^ n := by
    calc v.toNat < 2 ^ w := v.isLt
      _ ≤ 2 ^ (8 * n) := Nat.pow_le_pow_right (by omega) hw
      _ = 256 ^ n := by rw [pow_mul]; norm_num
  unfold le leByte
  rw [leNat_digits, Nat.mod_eq_of_lt fits, BitVec.toNat_ofNat,
    Nat.mod_eq_of_lt v.isLt]

/-- A word is read back from any sequence that holds its bytes. -/
theorem le_eq_of_bytes {w n : Nat} (hw : w ≤ 8 * n) (v : BitVec w) {f : Bytes}
    (h : ∀ i < n, f i = leByte v i) : le w n f = v :=
  (le_congr h).trans (le_leByte hw v)

theorem leNat_byte {n i : Nat} (f : Bytes) (hi : i < n) : leNat n f / 256 ^ i % 256 = (f i).toNat := by
  induction n generalizing f i with
  | zero => omega
  | succ n ih =>
      have low := (f 0).isLt
      rw [leNat]
      cases i with
      | zero =>
          rw [pow_zero, Nat.div_one]
          omega
      | succ i =>
          have shift : ((f 0).toNat + 256 * leNat n fun i => f (i + 1)) / 256 =
              leNat n fun i => f (i + 1) := by omega
          rw [pow_succ', ← Nat.div_div_eq_div_mul, shift]
          exact ih (fun i => f (i + 1)) (by omega)

/-- A byte of a word that is wide enough is the byte it was read from. -/
theorem leByte_le {w n i : Nat} (f : Bytes) (hw : 8 * n ≤ w) (hi : i < n) :
    leByte (le w n f) i = f i := by
  apply BitVec.eq_of_toNat_eq
  have digits : leNat n f < 256 ^ n := by
    have fits := leNat_digits n (leNat n f)
    have same : leNat n (fun i => BitVec.ofNat 8 (leNat n f / 256 ^ i)) = leNat n f := by
      refine leNat_congr fun i hi => BitVec.eq_of_toNat_eq ?_
      rw [BitVec.toNat_ofNat]
      exact leNat_byte f hi
    rw [← fits.symm.trans same]
    exact Nat.mod_lt _ (Nat.pow_pos (by decide))
  have small : leNat n f < 2 ^ w := by
    calc leNat n f < 256 ^ n := digits
      _ = 2 ^ (8 * n) := by rw [pow_mul]; norm_num
      _ ≤ 2 ^ w := Nat.pow_le_pow_right (by decide) hw
  rw [leByte, le, BitVec.toNat_ofNat, BitVec.toNat_ofNat, Nat.mod_eq_of_lt small]
  exact leNat_byte f hi

theorem le_zero (w n : Nat) : le w n (fun _ => 0#8) = 0#w := by
  have : leNat n (fun _ => 0#8) = 0 := by
    induction n with
    | zero => rfl
    | succ n ih => simpa [leNat] using ih
  rw [le, this]

/-! Bit arrays, one bit per index and eight to the byte. -/

/-- `(f[i / 8] >> (i % 8)) & 1` -/
def testBit (f : Bytes) (i : Nat) : Bool := (f (i / 8) >>> (i % 8)) &&& 1#8 != 0#8

/-- `f[i / 8] |= 1 << (i % 8)` -/
def setBit (f : Bytes) (i : Nat) : Bytes :=
  Function.update f (i / 8) (f (i / 8) ||| 1#8 <<< (i % 8))

/-- `f[i / 8] &= ~(1 << (i % 8))` -/
def clearBit (f : Bytes) (i : Nat) : Bytes :=
  Function.update f (i / 8) (f (i / 8) &&& ~~~(1#8 <<< (i % 8)))

theorem testBit_eq (f : Bytes) (i : Nat) : testBit f i = (f (i / 8)).getLsbD (i % 8) := by
  rw [testBit, Bool.eq_iff_iff, bne_iff_ne, ne_eq, BitVec.and_one_eq_setWidth_ofBool_getLsbD]
  cases h : (f (i / 8)).getLsbD (i % 8) <;> simp [h]

theorem testBit_congr {f g : Bytes} {i : Nat} (h : f (i / 8) = g (i / 8)) :
    testBit f i = testBit g i := by
  rw [testBit, testBit, h]

theorem testBit_zero (i : Nat) : testBit (fun _ => 0#8) i = false := by
  rw [testBit_eq]
  exact BitVec.getLsbD_zero

theorem single_bit (k j : Nat) (hj : j < 8) : (1#8 <<< k).getLsbD j = decide (k = j) := by
  rw [BitVec.getLsbD_shiftLeft]
  by_cases h : k = j
  · subst h; simp [hj]
  · rcases Nat.lt_or_ge j k with lt | ge
    · simp [lt, h]
    · have : j - k ≠ 0 := by omega
      simp [BitVec.getLsbD_one, this, h]

@[simp] theorem testBit_setBit (f : Bytes) (i j : Nat) :
    testBit (setBit f i) j = (decide (i = j) || testBit f j) := by
  rw [testBit_eq, testBit_eq, setBit]
  by_cases byte : j / 8 = i / 8
  · rw [byte, Function.update_self, BitVec.getLsbD_or, single_bit _ _ (Nat.mod_lt j (by omega)),
      Bool.or_comm]
    have : i % 8 = j % 8 ↔ i = j := by omega
    simp only [this]
  · have : i ≠ j := by rintro rfl; exact byte rfl
    rw [Function.update_of_ne byte]
    simp [this]

@[simp] theorem testBit_clearBit (f : Bytes) (i j : Nat) :
    testBit (clearBit f i) j = (!decide (i = j) && testBit f j) := by
  rw [testBit_eq, testBit_eq, clearBit]
  by_cases byte : j / 8 = i / 8
  · have hj := Nat.mod_lt j (show 8 > 0 by omega)
    rw [byte, Function.update_self, BitVec.getLsbD_and, BitVec.getLsbD_not,
      single_bit _ _ hj, Bool.and_comm]
    have : i % 8 = j % 8 ↔ i = j := by omega
    simp [this, hj]
  · have : i ≠ j := by rintro rfl; exact byte rfl
    rw [Function.update_of_ne byte]
    simp [this]

/-- The least clear bit below `n`, as a scan from index 0 up finds it. -/
def firstClear (f : Bytes) (n : Nat) : Option Nat := (List.range n).find? fun i => !testBit f i

theorem firstClear_eq_some {f : Bytes} {n i : Nat} :
    firstClear f n = some i ↔ i < n ∧ testBit f i = false ∧ ∀ j < i, testBit f j = true := by
  rw [firstClear, List.find?_range_eq_some]
  simp only [Bool.not_eq_true', List.mem_range, Bool.not_not]
  tauto

theorem firstClear_eq_none {f : Bytes} {n : Nat} :
    firstClear f n = none ↔ ∀ i < n, testBit f i = true := by
  simp [firstClear]

/-- How many of the first `n` bits are clear. -/
def clearBits (f : Bytes) (n : Nat) : Nat :=
  ((Finset.range n).filter fun i => testBit f i = false).card

theorem clearBits_congr {f g : Bytes} {n : Nat} (same : ∀ i < n, testBit f i = testBit g i) :
    clearBits f n = clearBits g n := by
  refine congrArg Finset.card (Finset.filter_congr fun i member => ?_)
  rw [same i (Finset.mem_range.mp member)]

theorem clearBits_setBit {f : Bytes} {n i : Nat} (clear : testBit f i = false) (below : i < n) :
    clearBits (setBit f i) n + 1 = clearBits f n := by
  have rest : ((Finset.range n).filter fun j => testBit (setBit f i) j = false) =
      ((Finset.range n).filter fun j => testBit f j = false).erase i := by
    ext j
    rw [Finset.mem_filter, Finset.mem_erase, Finset.mem_filter, testBit_setBit]
    by_cases same : i = j
    · simp [same]
    · simp [same, Ne.symm same]
  have member : i ∈ (Finset.range n).filter fun j => testBit f j = false :=
    Finset.mem_filter.mpr ⟨Finset.mem_range.mpr below, clear⟩
  rw [clearBits, rest, Finset.card_erase_add_one member, clearBits]

theorem clearBits_clearBit {f : Bytes} {n i : Nat} (set : testBit f i = true) (below : i < n) :
    clearBits (clearBit f i) n = clearBits f n + 1 := by
  have clear : testBit (clearBit f i) i = false := by
    rw [testBit_clearBit]
    simp
  have back : clearBits (setBit (clearBit f i) i) n = clearBits f n := by
    refine clearBits_congr fun j _ => ?_
    rw [testBit_setBit, testBit_clearBit]
    by_cases same : i = j
    · rw [← same, set]
      simp
    · simp [same]
  rw [← clearBits_setBit clear below, back]

end Foundation
