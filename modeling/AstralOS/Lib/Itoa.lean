import AstralOS.Lib.CString
import Mathlib.Data.Nat.Digits.Lemmas
import Mathlib.Logic.Function.Basic

/-! `itoa`: digits produced the least first, and reversed in place. -/
namespace AstralOS.Lib
open Foundation

/-- `(tmp_val > 9) ? (char)(tmp_val - 10 + 'a') : (char)(tmp_val + '0')` -/
def digitChar (tmpVal : Int) : Byte :=
  if 9 < tmpVal then BitVec.ofInt 8 (tmpVal - 10 + 0x61) else BitVec.ofInt 8 (tmpVal + 0x30)

/-- The loop over the digits, with the pointer past the last one; `/` and `%` round towards zero. -/
def itoaDigits (base : Nat) [base.AtLeastTwo] (num : Int) (str : Bytes) (ptr : Nat) : Bytes × Nat :=
  if num = 0 then (str, ptr)
  else itoaDigits base (num.tdiv base) (Function.update str ptr (digitChar (num.tmod base))) (ptr + 1)
termination_by num.natAbs
decreasing_by
  rw [Int.natAbs_tdiv]
  exact Nat.div_lt_self (Int.natAbs_pos.mpr ‹_›) (Nat.AtLeastTwo.prop (n := base))

/-- The two pointers that cross. -/
def itoaReverse (str : Bytes) (ptr1 ptr : Nat) : Bytes :=
  if ptr1 < ptr then
    itoaReverse (Function.update (Function.update str ptr (str ptr1)) ptr1 (str ptr)) (ptr1 + 1) (ptr - 1)
  else str
termination_by ptr - ptr1

/-- `itoa`; `-num` does not overflow for the `int` that is printed in base ten. -/
def itoa (num : Int) (str : Bytes) (base : Nat) [base.AtLeastTwo] : Bytes :=
  if num = 0 then Function.update (Function.update str 0 0x30#8) 1 0#8
  else
    let isNegative := num < 0 ∧ base = 10
    let num := if isNegative then -num else num
    let (str, ptr) := itoaDigits base num str 0
    let (str, ptr) := if isNegative then (Function.update str ptr 0x2D#8, ptr + 1) else (str, ptr)
    itoaReverse (Function.update str ptr 0#8) 0 (ptr - 1)

/-- The characters of a list laid over some bytes. -/
def lay (f : Bytes) (off : Nat) (chars : List Byte) : Bytes := f.splice off chars.length (chars.getD · 0#8)

theorem lay_apply (f : Bytes) (off : Nat) (chars : List Byte) (i : Nat) :
    lay f off chars i = if off ≤ i ∧ i < off + chars.length then chars.getD (i - off) 0#8 else f i := rfl

theorem lay_nil (f : Bytes) (off : Nat) : lay f off [] = f := by
  funext i
  exact splice_outside f _ (by rw [List.length_nil]; omega)

theorem lay_cons (f : Bytes) (off : Nat) (c : Byte) (chars : List Byte) :
    lay (Function.update f off c) (off + 1) chars = lay f off (c :: chars) := by
  funext i
  rw [lay_apply, lay_apply, List.length_cons]
  by_cases here : i = off
  · subst here
    simp
  · rw [Function.update_of_ne here]
    by_cases inside : off + 1 ≤ i ∧ i < off + 1 + chars.length
    · have next : i - off = (i - (off + 1)) + 1 := by omega
      rw [if_pos inside, if_pos (by omega), next, List.getD_cons_succ]
    · rw [if_neg inside, if_neg (by omega)]

theorem lay_concat (f : Bytes) (off : Nat) (chars : List Byte) (c : Byte) :
    Function.update (lay f off chars) (off + chars.length) c = lay f off (chars ++ [c]) := by
  funext i
  rw [lay_apply, List.length_append, List.length_singleton]
  by_cases last : i = off + chars.length
  · subst last
    rw [Function.update_self, if_pos (by omega), Nat.add_sub_cancel_left, List.getD_append_right _ _ _ _ le_rfl]
    simp
  · rw [Function.update_of_ne last, lay_apply]
    by_cases inside : off ≤ i ∧ i < off + chars.length
    · rw [if_pos inside, if_pos (by omega), List.getD_append _ _ _ _ (by omega)]
    · rw [if_neg inside, if_neg (by omega)]

/-- What the digit loop writes: the digits of the magnitude, each with the sign of the number. -/
def signedDigits (base : Nat) (num : Int) : List Byte :=
  (Nat.digits base num.natAbs).map fun d : Nat => digitChar (num.sign * d)

theorem signedDigits_step (base : Nat) [two : base.AtLeastTwo] {num : Int} (nonzero : num ≠ 0) :
    signedDigits base num = digitChar (num.tmod base) :: signedDigits base (num.tdiv base) := by
  have positive : 0 < num.natAbs := Int.natAbs_pos.mpr nonzero
  have first : num.sign * ((num.natAbs % base : Nat) : Int) = num.tmod base := by
    obtain ⟨n, rfl | rfl⟩ := Int.eq_nat_or_neg num
    · have positive : 0 < n := by omega
      rw [Int.natAbs_natCast, Int.sign_natCast_of_ne_zero (by omega), one_mul]
      exact Int.ofNat_tmod n base
    · have positive : 0 < n := by omega
      rw [Int.natAbs_neg, Int.natAbs_natCast, Int.sign_neg, Int.sign_natCast_of_ne_zero (by omega), neg_one_mul,
        Int.neg_tmod]
      exact congrArg _ (Int.ofNat_tmod n base)
  rw [signedDigits, Nat.digits_of_two_le_of_pos two.prop positive, List.map_cons, first, signedDigits, Int.natAbs_tdiv]
  congr 1
  refine List.map_congr_left fun d member => ?_
  rw [Int.sign_tdiv]
  split_ifs with small
  · have none : num.natAbs / base = 0 := Nat.div_eq_of_lt small
    rw [none] at member
    exact absurd member (by simp)
  · rw [Int.sign_natCast_of_ne_zero (by have := two.prop; omega), mul_one]

/-- The digit loop ends and has written these digits. -/
theorem itoaDigits_lay (base : Nat) [base.AtLeastTwo] (num : Int) (str : Bytes) (ptr : Nat) :
    itoaDigits base num str ptr = (lay str ptr (signedDigits base num), ptr + (signedDigits base num).length) := by
  induction num, str, ptr using itoaDigits.induct base with
  | case1 str ptr =>
      rw [itoaDigits, if_pos rfl]
      simp [signedDigits, lay_nil]
  | case2 num str ptr nonzero ih =>
      rw [itoaDigits, if_neg nonzero, ih, signedDigits_step base nonzero, lay_cons, List.length_cons]
      congr 1
      omega

theorem itoaReverse_apply (str : Bytes) (ptr1 ptr k : Nat) :
    itoaReverse str ptr1 ptr k = if ptr1 ≤ k ∧ k ≤ ptr then str (ptr1 + ptr - k) else str k := by
  induction str, ptr1, ptr using itoaReverse.induct with
  | case1 str ptr1 ptr apart ih =>
      rw [itoaReverse, if_pos apart, ih]
      have inner : ptr1 + 1 + (ptr - 1) - k = ptr1 + ptr - k := by omega
      rw [inner]
      by_cases first : k = ptr1
      · subst first
        rw [if_neg (by omega), if_pos (by omega), Function.update_self, Nat.add_sub_cancel_left]
      rw [Function.update_of_ne first]
      by_cases last : k = ptr
      · subst last
        rw [if_neg (by omega), if_pos (by omega), Function.update_self, Nat.add_sub_cancel]
      rw [Function.update_of_ne last]
      by_cases inside : ptr1 ≤ k ∧ k ≤ ptr
      · rw [if_pos (by omega), if_pos inside, Function.update_of_ne (by omega), Function.update_of_ne (by omega)]
      · rw [if_neg (by omega), if_neg inside]
  | case2 str ptr1 ptr crossed =>
      rw [itoaReverse, if_neg crossed]
      split_ifs with inside
      · have same : ptr1 + ptr - k = k := by omega
        rw [same]
      · rfl

/-- The text that is left in the buffer. -/
def itoaText (base : Nat) (num : Int) : List Byte :=
  if num = 0 then [0x30#8]
  else if num < 0 ∧ base = 10 then 0x2D#8 :: (signedDigits base (-num)).reverse
  else (signedDigits base num).reverse

theorem signedDigits_ne_nil (base : Nat) {num : Int} (nonzero : num ≠ 0) : signedDigits base num ≠ [] := by
  rw [signedDigits, ne_eq, List.map_eq_nil_iff]
  exact Nat.digits_ne_nil_iff_ne_zero.mpr (Int.natAbs_ne_zero.mpr nonzero)

/-- Characters laid from the start, with a terminator, and reversed. -/
theorem reverse_laid (str : Bytes) {chars : List Byte} (some_ : chars ≠ []) {i : Nat} (inside : i ≤ chars.length) :
    itoaReverse (Function.update (lay str 0 chars) chars.length 0#8) 0 (chars.length - 1) i =
      chars.reverse.getD i 0#8 := by
  have positive : 0 < chars.length := List.length_pos_iff.mpr some_
  rw [itoaReverse_apply]
  by_cases last : i = chars.length
  · subst last
    rw [if_neg (by omega), Function.update_self, List.getD_eq_default _ _ (by rw [List.length_reverse])]
  · have mirrored : chars.length - 1 - i < chars.length := by omega
    have laid : lay str 0 chars (0 + (chars.length - 1 - i)) = _ := splice_inside str (chars.getD · 0#8) mirrored
    rw [Nat.zero_add] at laid
    rw [if_pos (by omega), Nat.zero_add, Function.update_of_ne (by omega)]
    refine laid.trans ?_
    rw [List.getD_eq_getElem _ _ mirrored, List.getD_eq_getElem _ _ (by rw [List.length_reverse]; omega),
      List.getElem_reverse]

theorem itoa_bytes (base : Nat) [base.AtLeastTwo] (num : Int) (str : Bytes) {i : Nat}
    (inside : i ≤ (itoaText base num).length) : itoa num str base i = (itoaText base num).getD i 0#8 := by
  rw [itoa, itoaText] at *
  by_cases zero : num = 0
  · rw [if_pos zero] at inside ⊢
    rw [if_pos zero]
    have cases_ : i = 0 ∨ i = 1 := by
      have : i ≤ 1 := inside
      omega
    rcases cases_ with rfl | rfl <;> rfl
  · rw [if_neg zero] at inside ⊢
    rw [if_neg zero]
    dsimp only
    rw [itoaDigits_lay]
    by_cases negative : num < 0 ∧ base = 10
    · have some_ := signedDigits_ne_nil base (neg_ne_zero.mpr zero)
      rw [if_pos negative, List.length_cons, List.length_reverse] at inside
      rw [if_pos negative, if_pos negative, if_pos negative]
      dsimp only
      have signed := lay_concat str 0 (signedDigits base (-num)) 0x2D#8
      have length : (signedDigits base (-num) ++ [0x2D#8]).length = 0 + (signedDigits base (-num)).length + 1 := by
        rw [List.length_append, List.length_singleton, Nat.zero_add]
      rw [signed, ← length]
      refine (reverse_laid str (by simp) (by omega)).trans ?_
      rw [List.reverse_append]
      rfl
    · have some_ := signedDigits_ne_nil base zero
      rw [if_neg negative, List.length_reverse] at inside
      rw [if_neg negative, if_neg negative, if_neg negative]
      dsimp only
      rw [Nat.zero_add]
      exact reverse_laid str some_ inside

/-! Numerals. -/

/-- The digit of a value below sixteen. -/
def digit (d : Nat) : Byte := if d < 10 then BitVec.ofNat 8 (0x30 + d) else BitVec.ofNat 8 (0x57 + d)

/-- The canonical numeral of a number: no leading zeros, and lower-case letters. -/
def numeral (base n : Nat) : List Byte := if n = 0 then [digit 0] else (Nat.digits base n).reverse.map digit

/-- The canonical decimal numeral of an integer. -/
def decimal (v : Int) : List Byte := if v < 0 then 0x2D#8 :: numeral 10 v.natAbs else numeral 10 v.natAbs

theorem digitChar_eq {d : Nat} (small : d < 16) : digitChar d = digit d := by
  interval_cases d <;> rfl

theorem signedDigits_eq {base : Nat} {num : Int} (bases : 2 ≤ base) (small : base ≤ 16) (positive : 0 < num) :
    (signedDigits base num).reverse = numeral base num.natAbs := by
  have nonzero : num.natAbs ≠ 0 := by omega
  rw [numeral, if_neg nonzero, signedDigits, ← List.map_reverse, Int.sign_eq_one_of_pos positive]
  refine List.map_congr_left fun d member => ?_
  have below := Nat.digits_lt_base bases (List.mem_reverse.mp member)
  rw [one_mul]
  exact digitChar_eq (by omega)

/-- Base ten gives the decimal numeral of any number. -/
theorem itoaText_ten (num : Int) : itoaText 10 num = decimal num := by
  rw [itoaText, decimal]
  by_cases zero : num = 0
  · subst zero
    rfl
  rw [if_neg zero]
  by_cases negative : num < 0
  · rw [if_pos ⟨negative, rfl⟩, if_pos negative, signedDigits_eq (by omega) (by omega) (by omega), Int.natAbs_neg]
  · rw [if_neg fun both => negative both.1, if_neg negative]
    exact signedDigits_eq (by omega) (by omega) (by omega)

/-- Base sixteen gives the hexadecimal numeral of a number that is not negative. -/
theorem itoaText_sixteen {num : Int} (nonnegative : 0 ≤ num) : itoaText 16 num = numeral 16 num.natAbs := by
  rw [itoaText]
  by_cases zero : num = 0
  · subst zero
    rfl
  rw [if_neg zero, if_neg fun both => absurd both.1 (by omega)]
  exact signedDigits_eq (by omega) (by omega) (by omega)

theorem digitChar_low {d : Nat} (positive : 0 < d) (small : d < 16) : (digitChar (-d)).toNat < 0x30 := by
  interval_cases d <;> decide

theorem digitChar_nonzero {d : Int} (low : -16 < d) (high : d < 16) : digitChar d ≠ 0#8 := by
  interval_cases d <;> decide

/-- Otherwise the first character is no digit. -/
theorem itoaText_negative {num : Int} (negative : num < 0) :
    ∃ c rest, itoaText 16 num = c :: rest ∧ c.toNat < 0x30 := by
  have nonzero : num.natAbs ≠ 0 := by omega
  have some_ : Nat.digits 16 num.natAbs ≠ [] := Nat.digits_ne_nil_iff_ne_zero.mpr nonzero
  have top := Nat.getLast_digit_ne_zero 16 nonzero
  have below := Nat.digits_lt_base (by decide) (List.getLast_mem some_)
  have split := List.dropLast_append_getLast some_
  set d := (Nat.digits 16 num.natAbs).getLast some_
  rw [itoaText, if_neg (by omega), if_neg fun both => absurd both.2 (by decide), signedDigits, ← split, List.map_append,
    List.reverse_append, Int.sign_eq_neg_one_of_neg negative]
  rw [List.map_singleton, List.reverse_singleton, neg_one_mul, List.singleton_append]
  exact ⟨_, _, rfl, digitChar_low (by omega) below⟩

/-- The text and its terminator fit a buffer of 32 bytes. -/
theorem itoaText_length {base : Nat} {num : Int} (base_ : base = 10 ∨ base = 16) (low : -2 ^ 63 ≤ num) (high : num < 2 ^ 63) :
    (itoaText base num).length < 32 := by
  have digits : (Nat.digits base num.natAbs).length ≤ 20 := by
    rcases base_ with rfl | rfl
    · exact (Nat.digits_length_le_iff (by decide) _).mpr (by omega)
    · exact (Nat.digits_length_le_iff (by decide) _).mpr (by omega)
  rw [itoaText]
  split_ifs
  · decide
  · rw [List.length_cons, List.length_reverse, signedDigits, List.length_map, Int.natAbs_neg]
    omega
  · rw [List.length_reverse, signedDigits, List.length_map]
    omega

theorem signedDigits_nonzero {base : Nat} {num : Int} (bases : 2 ≤ base) (small : base ≤ 16) :
    ∀ c ∈ signedDigits base num, c ≠ 0#8 := by
  intro c member
  obtain ⟨d, digit_, rfl⟩ := List.mem_map.mp member
  have below := Nat.digits_lt_base bases digit_
  rcases Int.lt_trichotomy num 0 with negative | zero | positive
  · rw [Int.sign_eq_neg_one_of_neg negative]
    exact digitChar_nonzero (by omega) (by omega)
  · rw [zero, Int.sign_zero, zero_mul]
    decide
  · rw [Int.sign_eq_one_of_pos positive]
    exact digitChar_nonzero (by omega) (by omega)

theorem itoaText_nonzero {base : Nat} {num : Int} (bases : 2 ≤ base) (small : base ≤ 16) :
    ∀ c ∈ itoaText base num, c ≠ 0#8 := by
  rw [itoaText]
  split_ifs
  · decide
  · refine List.forall_mem_cons.mpr ⟨by decide, fun c member => ?_⟩
    exact signedDigits_nonzero bases small c (List.mem_reverse.mp member)
  · exact fun c member => signedDigits_nonzero bases small c (List.mem_reverse.mp member)

/-- The string in a buffer of 32 bytes that `itoa` has filled. -/
theorem itoa_string {base : Nat} [base.AtLeastTwo] {num : Int} (base_ : base = 10 ∨ base = 16) (low : -2 ^ 63 ≤ num)
    (high : num < 2 ^ 63) (str : Bytes) : (CString.ofField 32 (itoa num str base)).chars = itoaText base num := by
  have bases : 2 ≤ base := Nat.AtLeastTwo.prop
  have small : base ≤ 16 := by omega
  let text : CString := ⟨itoaText base num, itoaText_nonzero bases small⟩
  have short : strlen text < 32 := itoaText_length base_ low high
  have held : strcmp (itoa num str base) text = 0 := strcmp_eq_zero.mpr fun i inside => itoa_bytes base num str inside
  exact congrArg CString.chars ((strcmp_eq_zero_iff_ofField short).mp held)

end AstralOS.Lib
