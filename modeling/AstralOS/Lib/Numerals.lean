import AstralOS.Foundation.Traced
import AstralOS.Lib.Itoa

/-! Numerals as what a reader makes of them, and which numbers `itoa` prints canonically. -/
namespace AstralOS.Lib
open Foundation

def minusSign : Byte := 0x2D#8

/-- The value of a digit. -/
def digitValue (base : Nat) (c : Byte) : Option Nat := (List.range base).find? fun d => digit d = c

/-- The number some digits stand for, the greatest first. -/
def parseDigits (base : Nat) (chars : List Byte) : Option Nat :=
  if chars = [] then none else (chars.mapM (digitValue base)).map fun ds => Nat.ofDigits base ds.reverse

/-- What a numeral has besides its sign. -/
def magnitude (chars : List Byte) : List Byte := if chars.head? = some minusSign then chars.tail else chars

def parse (base : Nat) (chars : List Byte) : Option Int :=
  (parseDigits base (magnitude chars)).map fun n : Nat => if chars.head? = some minusSign then -(n : Int) else n

/-- A numeral that is read back as the number, with no leading zeros and no negative zero. -/
structure Canonical (base : Nat) (v : Int) (chars : List Byte) : Prop where
  parsed : parse base chars = some v
  leading : (magnitude chars).head? = some (digit 0) → chars = [digit 0]

/-- The numeral with its sign. -/
def signedNumeral (base : Nat) (v : Int) : List Byte :=
  if v < 0 then minusSign :: numeral base v.natAbs else numeral base v.natAbs

section
variable {base n d : Nat} {c : Byte} {v : Int} {chars : List Byte} {ds : List Nat}

theorem digit_injective {e : Nat} (small : d < 16) (small' : e < 16) (same : digit d = digit e) : d = e := by
  interval_cases d <;> interval_cases e <;> first | rfl | exact absurd same (by decide)

theorem digit_ne_minusSign (small : d < 16) : digit d ≠ minusSign := by
  interval_cases d <;> decide

theorem digitValue_eq_some (small : base ≤ 16) : digitValue base c = some d ↔ d < base ∧ digit d = c := by
  rw [digitValue, List.find?_range_eq_some]
  simp only [decide_eq_true_eq, List.mem_range, Bool.not_eq_true', decide_eq_false_iff_not]
  constructor
  · rintro ⟨is, below, _⟩
    exact ⟨below, is⟩
  · rintro ⟨below, rfl⟩
    refine ⟨rfl, below, fun e less same => ?_⟩
    exact less.ne (digit_injective (by omega) (by omega) same)

theorem mapM_digitValue (small : base ≤ 16) :
    chars.mapM (digitValue base) = some ds ↔ (∀ d ∈ ds, d < base) ∧ chars = ds.map digit := by
  induction chars generalizing ds with
  | nil =>
      cases ds with
      | nil => simp
      | cons d ds => simp
  | cons c chars ih =>
      rw [List.mapM_cons]
      cases ds with
      | nil => simp [Option.bind_eq_some_iff]
      | cons d ds =>
          simp only [Option.bind_eq_bind, Option.pure_def, Option.bind_eq_some_iff, Option.some.injEq,
            List.cons.injEq, List.map_cons, List.forall_mem_cons]
          constructor
          · rintro ⟨d', first, ds', later, rfl, rfl⟩
            obtain ⟨below, rfl⟩ := (digitValue_eq_some small).mp first
            obtain ⟨all, rfl⟩ := ih.mp later
            exact ⟨⟨below, all⟩, rfl, rfl⟩
          · rintro ⟨⟨below, all⟩, rfl, rfl⟩
            exact ⟨d, (digitValue_eq_some small).mpr ⟨below, rfl⟩, ds, ih.mpr ⟨all, rfl⟩, rfl, rfl⟩

theorem parseDigits_eq_some (small : base ≤ 16) : parseDigits base chars = some n ↔
    ∃ ds, ds ≠ [] ∧ (∀ d ∈ ds, d < base) ∧ chars = ds.map digit ∧ Nat.ofDigits base ds.reverse = n := by
  rw [parseDigits]
  by_cases empty : chars = []
  · rw [if_pos empty]
    refine iff_of_false (fun none_ => nomatch none_) ?_
    rintro ⟨ds, some_, _, spelled, _⟩
    exact some_ (List.map_eq_nil_iff.mp (spelled.symm.trans empty))
  · rw [if_neg empty, Option.map_eq_some_iff]
    refine exists_congr fun ds => ?_
    rw [mapM_digitValue small, and_assoc]
    refine ⟨fun ⟨all, spelled, value⟩ => ⟨?_, all, spelled, value⟩, fun ⟨_, rest⟩ => rest⟩
    rintro rfl
    exact empty spelled

/-- Digits with no leading zero are the numeral of the number they stand for. -/
theorem numeral_iff (two : 2 ≤ base) (small : base ≤ 16) :
    (parseDigits base chars = some n ∧ (chars.head? = some (digit 0) → chars = [digit 0])) ↔ chars = numeral base n := by
  constructor
  · rintro ⟨parsed, leading⟩
    obtain ⟨ds, some_, all, rfl, rfl⟩ := (parseDigits_eq_some small).mp parsed
    obtain ⟨d, ds, rfl⟩ := List.exists_cons_of_ne_nil some_
    by_cases zero : d = 0
    · subst zero
      have single : ds = [] := List.map_eq_nil_iff.mp (List.cons.inj (leading rfl)).2
      subst single
      rfl
    · have digits : Nat.digits base (Nat.ofDigits base (d :: ds).reverse) = (d :: ds).reverse := by
        refine Nat.digits_ofDigits base two _ (fun e member => all e (List.mem_reverse.mp member)) fun nonempty => ?_
        rw [List.getLast_reverse]
        exact zero
      have nonzero : Nat.ofDigits base (d :: ds).reverse ≠ 0 := by
        intro none_
        rw [none_, Nat.digits_zero] at digits
        exact List.cons_ne_nil d ds (List.reverse_eq_nil_iff.mp digits.symm)
      rw [numeral, if_neg nonzero, digits, List.reverse_reverse]
  · rintro rfl
    rw [numeral]
    by_cases zero : n = 0
    · subst zero
      rw [if_pos rfl, parseDigits_eq_some small]
      exact ⟨⟨[0], List.cons_ne_nil _ _, by simp; omega, rfl, by simp⟩, fun _ => rfl⟩
    · have some_ : Nat.digits base n ≠ [] := Nat.digits_ne_nil_iff_ne_zero.mpr zero
      rw [if_neg zero, parseDigits_eq_some small]
      refine ⟨⟨(Nat.digits base n).reverse, List.reverse_ne_nil_iff.mpr some_, ?_, rfl, ?_⟩, fun leading => ?_⟩
      · exact fun d member => Nat.digits_lt_base two (List.mem_reverse.mp member)
      · rw [List.reverse_reverse, Nat.ofDigits_digits]
      · rw [List.head?_map, List.head?_reverse, List.getLast?_eq_some_getLast some_] at leading
        have below := Nat.digits_lt_base two (List.getLast_mem some_)
        have top := digit_injective (by omega) (by decide) (Option.some.inj leading)
        exact absurd top (Nat.getLast_digit_ne_zero base zero)

theorem numeral_head (two : 2 ≤ base) (small : base ≤ 16) (nonzero : n ≠ 0) :
    (numeral base n).head? ≠ some (digit 0) := by
  intro zero
  have own : ∀ n, parseDigits base (numeral base n) = some n := fun n => ((numeral_iff two small).mpr rfl).1
  have same : numeral base n = numeral base 0 := ((numeral_iff two small).mpr rfl).2 zero
  have value := own n
  rw [same, own 0] at value
  exact nonzero (Option.some.inj value).symm

theorem magnitude_minus (chars : List Byte) : magnitude (minusSign :: chars) = chars := if_pos rfl

theorem magnitude_numeral (two : 2 ≤ base) (small : base ≤ 16) (n : Nat) :
    (numeral base n).head? ≠ some minusSign ∧ magnitude (numeral base n) = numeral base n := by
  have plain : (numeral base n).head? ≠ some minusSign := by
    obtain ⟨ds, some_, all, spelled, _⟩ := (parseDigits_eq_some small).mp ((numeral_iff two small).mpr rfl).1
    obtain ⟨d, ds, rfl⟩ := List.exists_cons_of_ne_nil some_
    have below := all d List.mem_cons_self
    rw [spelled]
    exact fun minus => digit_ne_minusSign (by omega) (Option.some.inj minus)
  exact ⟨plain, if_neg plain⟩

/-- There is one canonical numeral of a number. -/
theorem canonical_iff (two : 2 ≤ base) (small : base ≤ 16) : Canonical base v chars ↔ chars = signedNumeral base v := by
  constructor
  · rintro ⟨parsed, leading⟩
    rw [parse] at parsed
    obtain ⟨n, value, rfl⟩ := Option.map_eq_some_iff.mp parsed
    by_cases minus : chars.head? = some minusSign
    · obtain ⟨chars, rfl⟩ := List.head?_eq_some_iff.mp minus
      rw [magnitude_minus] at value leading
      have some_ : chars.head? ≠ some (digit 0) := fun zero => by
        exact absurd (List.cons.inj (leading zero)).1 (by decide)
      have spelled := (numeral_iff two small).mp ⟨value, fun zero => absurd zero some_⟩
      have positive : n ≠ 0 := by
        rintro rfl
        exact some_ (spelled ▸ rfl)
      rw [if_pos minus, signedNumeral, if_pos (by omega), Int.natAbs_neg, Int.natAbs_natCast, ← spelled]
    · rw [magnitude, if_neg minus] at value leading
      rw [if_neg minus, signedNumeral, if_neg (by omega), Int.natAbs_natCast]
      exact (numeral_iff two small).mp ⟨value, leading⟩
  · rintro rfl
    rw [signedNumeral]
    by_cases negative : v < 0
    · obtain ⟨value, leading⟩ := (numeral_iff (n := v.natAbs) two small).mpr rfl
      rw [if_pos negative]
      refine ⟨?_, fun zero => ?_⟩
      · rw [parse, magnitude_minus, value, Option.map_some, List.head?_cons, if_pos rfl]
        exact congrArg some (by omega)
      · rw [magnitude_minus] at zero
        exact absurd zero (numeral_head two small (by omega))
    · obtain ⟨plain, whole⟩ := magnitude_numeral two small v.natAbs
      obtain ⟨value, leading⟩ := (numeral_iff (n := v.natAbs) two small).mpr rfl
      rw [if_neg negative]
      refine ⟨?_, ?_⟩
      · rw [parse, whole, value, Option.map_some, if_neg plain]
        exact congrArg some (by omega)
      · rw [whole]
        exact leading

end

/-! `itoa` with the indices it writes to. -/
namespace Traced
open Foundation.Traced

/-- `*ptr = c` -/
def put (str : Bytes) (ptr : Nat) (c : Byte) : Traced Nat Bytes := event ptr (Function.update str ptr c)

def itoaDigits (base : Nat) [base.AtLeastTwo] (num : Int) (str : Bytes) (ptr : Nat) : Traced Nat (Bytes × Nat) :=
  if num = 0 then pure (str, ptr)
  else do
    let str ← put str ptr (digitChar (num.tmod base))
    itoaDigits base (num.tdiv base) str (ptr + 1)
termination_by num.natAbs
decreasing_by
  rw [Int.natAbs_tdiv]
  exact Nat.div_lt_self (Int.natAbs_pos.mpr ‹_›) (Nat.AtLeastTwo.prop (n := base))

def itoaReverse (str : Bytes) (ptr1 ptr : Nat) : Traced Nat Bytes :=
  if ptr1 < ptr then do
    let tmpChar := str ptr
    let str ← put str ptr (str ptr1)
    let str ← put str ptr1 tmpChar
    itoaReverse str (ptr1 + 1) (ptr - 1)
  else pure str
termination_by ptr - ptr1

def itoa (num : Int) (str : Bytes) (base : Nat) [base.AtLeastTwo] : Traced Nat Bytes :=
  if num = 0 then do
    let str ← put str 0 0x30#8
    put str 1 0#8
  else do
    let isNegative := num < 0 ∧ base = 10
    let num := if isNegative then -num else num
    let (str, ptr) ← itoaDigits base num str 0
    let (str, ptr) ← if isNegative then do
        let str ← put str ptr 0x2D#8
        pure (str, ptr + 1)
      else pure (str, ptr)
    let str ← put str ptr 0#8
    itoaReverse str 0 (ptr - 1)

theorem itoaDigits_value (base : Nat) [base.AtLeastTwo] (num : Int) (str : Bytes) (ptr : Nat) :
    (itoaDigits base num str ptr).value = Lib.itoaDigits base num str ptr := by
  induction num, str, ptr using Lib.itoaDigits.induct base with
  | case1 str ptr => rw [itoaDigits, if_pos rfl, Lib.itoaDigits, if_pos rfl, value_pure]
  | case2 num str ptr nonzero ih =>
      rw [itoaDigits, if_neg nonzero, Lib.itoaDigits, if_neg nonzero, value_bind]
      exact ih

theorem itoaReverse_value (str : Bytes) (ptr1 ptr : Nat) :
    (itoaReverse str ptr1 ptr).value = Lib.itoaReverse str ptr1 ptr := by
  induction str, ptr1, ptr using Lib.itoaReverse.induct with
  | case1 str ptr1 ptr apart ih =>
      rw [itoaReverse, if_pos apart, Lib.itoaReverse, if_pos apart, value_bind, value_bind]
      exact ih
  | case2 str ptr1 ptr crossed => rw [itoaReverse, if_neg crossed, Lib.itoaReverse, if_neg crossed, value_pure]

theorem itoa_value (num : Int) (str : Bytes) (base : Nat) [base.AtLeastTwo] :
    (itoa num str base).value = Lib.itoa num str base := by
  rw [itoa, Lib.itoa]
  by_cases zero : num = 0
  · rw [if_pos zero, if_pos zero]
    rfl
  · rw [if_neg zero, if_neg zero]
    simp only [value_bind, itoaDigits_value]
    by_cases negative : num < 0 ∧ base = 10
    · simp only [if_pos negative]
      exact itoaReverse_value _ _ _
    · simp only [if_neg negative]
      exact itoaReverse_value _ _ _

theorem itoaDigits_logs (base : Nat) [base.AtLeastTwo] {limit : Nat} {num : Int} (str : Bytes) {ptr : Nat}
    (room : ptr + (signedDigits base num).length ≤ limit) : Logs (· < limit) (itoaDigits base num str ptr) := by
  induction num, str, ptr using Lib.itoaDigits.induct base with
  | case1 str ptr =>
      rw [itoaDigits, if_pos rfl]
      exact logs_pure _
  | case2 num str ptr nonzero ih =>
      rw [signedDigits_step base nonzero, List.length_cons] at room
      rw [itoaDigits, if_neg nonzero, logs_bind, put, logs_event]
      exact ⟨by omega, ih (by omega)⟩

theorem itoaReverse_logs {limit : Nat} (str : Bytes) {ptr1 ptr : Nat} (room : ptr < limit) :
    Logs (· < limit) (itoaReverse str ptr1 ptr) := by
  induction str, ptr1, ptr using Lib.itoaReverse.induct with
  | case1 str ptr1 ptr apart ih =>
      rw [itoaReverse, if_pos apart, logs_bind, put, logs_event, logs_bind, put, logs_event]
      exact ⟨room, by omega, ih (by omega)⟩
  | case2 str ptr1 ptr crossed =>
      rw [itoaReverse, if_neg crossed]
      exact logs_pure _

/-- The text and its terminator are all that is written. -/
theorem itoa_logs (base : Nat) [base.AtLeastTwo] {limit : Nat} (num : Int) (str : Bytes)
    (room : (itoaText base num).length < limit) : Logs (· < limit) (itoa num str base) := by
  rw [itoaText] at room
  rw [itoa]
  by_cases zero : num = 0
  · rw [if_pos zero] at room ⊢
    rw [logs_bind, put, logs_event, put, logs_event]
    have room : 1 < limit := room
    omega
  · rw [if_neg zero] at room ⊢
    by_cases negative : num < 0 ∧ base = 10
    · rw [if_pos negative, List.length_cons, List.length_reverse] at room
      simp only [if_pos negative]
      rw [logs_bind, itoaDigits_value, itoaDigits_lay]
      refine ⟨itoaDigits_logs base str (by omega), ?_⟩
      simp only [logs_bind, put, logs_event, logs_pure, value_pure, true_and]
      exact ⟨by omega, by omega, itoaReverse_logs _ (by omega)⟩
    · rw [if_neg negative, List.length_reverse] at room
      simp only [if_neg negative]
      rw [logs_bind, itoaDigits_value, itoaDigits_lay]
      refine ⟨itoaDigits_logs base str (by omega), ?_⟩
      simp only [logs_bind, put, logs_event, logs_pure, value_pure, true_and]
      exact ⟨by omega, itoaReverse_logs _ (by omega)⟩

end Traced

/-- A number as `vsnprintf` prints it: an `int` for `%d` and `%i`, a `uint64_t` for `%x` and `%p`. -/
inductive Number where
  | int (v : BitVec 32)
  | word (v : BitVec 64)

namespace Number

def base : Number → Nat
  | int _ => 10
  | word _ => 16

instance (n : Number) : n.base.AtLeastTwo := by
  cases n with
  | int v => exact inferInstanceAs (Nat.AtLeastTwo 10)
  | word v => exact inferInstanceAs (Nat.AtLeastTwo 16)

def value : Number → Int
  | int v => v.toInt
  | word v => v.toNat

/-- What arrives in the `long long` of `itoa`. -/
def passed : Number → Int
  | int v => v.toInt
  | word v => v.toInt

/-- The string is the canonical numeral, and nothing past the 32 bytes of `num_buf` is written. -/
structure PrintedRight (n : Number) (numBuf : Bytes) : Prop where
  canonical : Canonical n.base n.value (CString.ofField 32 (itoa n.passed numBuf n.base)).chars
  inside : Traced.Logs (· < 32) (Traced.itoa n.passed numBuf n.base)

/-- A `uint64_t` that is no negative `long long`. -/
def Small : Number → Prop
  | int _ => True
  | word v => v.toNat < 2 ^ 63

theorem bases (n : Number) : n.base = 10 ∨ n.base = 16 := by
  cases n with
  | int v => exact .inl rfl
  | word v => exact .inr rfl

theorem passed_range (n : Number) : -2 ^ 63 ≤ n.passed ∧ n.passed < 2 ^ 63 := by
  cases n with
  | int v =>
      have low := BitVec.le_toInt v
      have high := BitVec.toInt_lt (x := v)
      rw [passed]
      omega
  | word v => exact ⟨BitVec.le_toInt v, BitVec.toInt_lt⟩

theorem string_eq (n : Number) (numBuf : Bytes) :
    (CString.ofField 32 (itoa n.passed numBuf n.base)).chars = itoaText n.base n.passed :=
  itoa_string n.bases n.passed_range.1 n.passed_range.2 numBuf

theorem inside (n : Number) (numBuf : Bytes) : Traced.Logs (· < 32) (Traced.itoa n.passed numBuf n.base) :=
  Traced.itoa_logs n.base n.passed numBuf (itoaText_length n.bases n.passed_range.1 n.passed_range.2)

theorem word_passed {v : BitVec 64} (small : v.toNat < 2 ^ 63) : (word v).passed = v.toNat :=
  BitVec.toInt_eq_toNat_of_lt (by omega)

theorem word_negative {v : BitVec 64} (large : ¬ v.toNat < 2 ^ 63) : (word v).passed < 0 := by
  rw [passed, BitVec.toInt_eq_toNat_cond, if_neg (by omega)]
  have := v.isLt
  omega

/-- A number that is small is printed as its numeral. -/
theorem text_small {n : Number} (small : n.Small) : itoaText n.base n.passed = signedNumeral n.base n.value := by
  cases n with
  | int v => exact itoaText_ten v.toInt
  | word v =>
      have same : (word v).passed = (word v).value := word_passed small
      have nonnegative : 0 ≤ (word v).value := Int.natCast_nonneg _
      rw [same, signedNumeral, if_neg (not_lt.mpr nonnegative)]
      exact itoaText_sixteen nonnegative

/-- Otherwise what is printed is no numeral. -/
theorem text_large {v : BitVec 64} (large : ¬ v.toNat < 2 ^ 63) :
    itoaText (word v).base (word v).passed ≠ signedNumeral (word v).base (word v).value := by
  intro same
  obtain ⟨c, rest, text, low⟩ := itoaText_negative (word_negative large)
  have nonnegative : 0 ≤ (word v).value := Int.natCast_nonneg _
  have printed : c :: rest = numeral 16 (word v).value.natAbs := by
    rw [← text]
    exact same.trans (if_neg (not_lt.mpr nonnegative))
  obtain ⟨ds, some_, all, spelled, _⟩ := (parseDigits_eq_some le_rfl).mp ((numeral_iff (by decide) le_rfl).mpr printed).1
  obtain ⟨d, ds, rfl⟩ := List.exists_cons_of_ne_nil some_
  have first : c = digit d := (List.cons.inj spelled).1
  have high : ∀ d < 16, 0x30 ≤ (digit d).toNat := by decide
  have := high d (all d List.mem_cons_self)
  rw [← first] at this
  omega

end Number

/-- `itoa` leaves the canonical numeral of every `int`, and of a `uint64_t` if and only if it is below 2 ^ 63. -/
theorem numbers_canonical_iff (n : Number) (numBuf : Bytes) : n.PrintedRight numBuf ↔ n.Small := by
  have two : 2 ≤ n.base := Nat.AtLeastTwo.prop
  have small : n.base ≤ 16 := by
    rcases n.bases with ten | sixteen
    · omega
    · omega
  have canonical : Canonical n.base n.value (CString.ofField 32 (itoa n.passed numBuf n.base)).chars ↔
      itoaText n.base n.passed = signedNumeral n.base n.value := by
    rw [canonical_iff two small, n.string_eq]
  constructor
  · intro right
    have same := canonical.mp right.canonical
    cases n with
    | int v => trivial
    | word v =>
        by_contra large
        exact Number.text_large large same
  · intro below
    exact ⟨canonical.mpr (Number.text_small below), n.inside numBuf⟩

/-- The top of the address space is printed as the character before "0". -/
theorem top_word_misprinted : ¬ ∀ (n : Number) (numBuf : Bytes), n.PrintedRight numBuf := by
  intro right
  have canonical := (right (.word 0xFFFFFFFFFFFFFFFF#64) fun _ => 0#8).canonical
  have same := (canonical_iff (by decide) le_rfl).mp canonical
  rw [Number.string_eq] at same
  exact Number.text_large (by decide) same

end AstralOS.Lib
