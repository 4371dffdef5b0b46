import AstralOS.Lib.Truncation

/-! Formats written together with their arguments, and which of them are printed as they should be. -/
namespace AstralOS.Lib
open Foundation

/-- A literal character, or a directive of the kernel with its argument. -/
inductive Conversion where
  | literal (c : Byte) (plain : c ≠ percentSign) (nonzero : c ≠ 0#8)
  | str (v : CString)
  | dec (v : BitVec 32)
  | int (v : BitVec 32)
  | char (v : BitVec 32)
  | hex (v : BitVec 64)
  | ptr (v : BitVec 64)
  | percent
  | longHex (v : BitVec 64)

namespace Conversion

/-- How it is written in the format. -/
def spelling : Conversion → List Byte
  | literal c _ _ => [c]
  | str _ => [percentSign, 0x73#8]
  | dec _ => [percentSign, 0x64#8]
  | int _ => [percentSign, 0x69#8]
  | char _ => [percentSign, 0x63#8]
  | hex _ => [percentSign, 0x78#8]
  | ptr _ => [percentSign, 0x70#8]
  | percent => [percentSign, percentSign]
  | longHex _ => [percentSign, 0x6C#8, 0x6C#8, 0x78#8]

/-- What it should be printed as. -/
def rendering : Conversion → List Byte
  | literal c _ _ => [c]
  | str v => v.chars
  | dec v => decimal v.toInt
  | int v => decimal v.toInt
  | char v => [v.setWidth 8]
  | hex v => numeral 16 v.toNat
  | ptr v => numeral 16 v.toNat
  | percent => [percentSign]
  | longHex v => numeral 16 v.toNat

/-- The number of slots of its argument. -/
def takes : Conversion → Nat
  | literal _ _ _ => 0
  | percent => 0
  | _ => 1

/-- Its argument is in slot `n`. -/
def Passed (ap : VaList) (n : Nat) : Conversion → Prop
  | literal _ _ _ => True
  | str v => strlen v < 2 ^ 64 ∧ ∀ k ≤ strlen v, ap.mem.view (ap.slots n) k = v.bytes k
  | dec v => ap.int n = v
  | int v => ap.int n = v
  | char v => ap.int n = v
  | hex v => ap.word n = v
  | ptr v => ap.word n = v
  | percent => True
  | longHex v => ap.word n = v

/-- The conversions that are printed as they should be. -/
def Faithful : Conversion → Prop
  | hex v => v.toNat < 2 ^ 63
  | ptr v => v.toNat < 2 ^ 63
  | longHex _ => False
  | _ => True

/-- The pieces that the format is taken for. -/
def taken : Conversion → List Piece
  | literal c _ _ => [.literal c]
  | str _ => [.directive 0x73#8]
  | dec _ => [.directive 0x64#8]
  | int _ => [.directive 0x69#8]
  | char _ => [.directive 0x63#8]
  | hex _ => [.directive 0x78#8]
  | ptr _ => [.directive 0x70#8]
  | percent => [.directive percentSign]
  | longHex _ => [.directive 0x6C#8, .literal 0x6C#8, .literal 0x78#8]

theorem spelling_nonzero (item : Conversion) : ∀ c ∈ item.spelling, c ≠ 0#8 := by
  cases item with
  | literal c plain nonzero => simpa [spelling] using nonzero
  | _ => simp [spelling, percentSign]

end Conversion

/-- The format of some conversions. -/
def written (items : List Conversion) : CString :=
  ⟨items.flatMap Conversion.spelling, fun c member =>
    have ⟨item, _, spelled⟩ := List.mem_flatMap.mp member
    item.spelling_nonzero c spelled⟩

/-- The arguments are passed in the slots from `n` on. -/
def Arguments (ap : VaList) : Nat → List Conversion → Prop
  | _, [] => True
  | n, item :: rest => item.Passed ap n ∧ Arguments ap (n + item.takes) rest

theorem pieces_literal {c : Byte} (plain : c ≠ percentSign) (rest : List Byte) :
    pieces (c :: rest) = (.literal c :: (pieces rest).1, (pieces rest).2) := by
  cases rest with
  | nil => exact if_neg plain
  | cons d rest => exact if_neg plain

theorem pieces_spelling (item : Conversion) (rest : List Byte) :
    pieces (item.spelling ++ rest) = (item.taken ++ (pieces rest).1, (pieces rest).2) := by
  cases item with
  | literal c plain nonzero => exact pieces_literal plain rest
  | longHex v =>
      change (Piece.directive 0x6C#8 :: (pieces (0x6C#8 :: 0x78#8 :: rest)).1, (pieces (0x6C#8 :: 0x78#8 :: rest)).2) = _
      rw [pieces_literal (by decide), pieces_literal (by decide)]
      rfl
  | _ => rfl

theorem pieces_written (items : List Conversion) :
    pieces (written items).chars = (items.flatMap Conversion.taken, false) := by
  induction items with
  | nil => rfl
  | cons item rest ih =>
      change pieces (item.spelling ++ (written rest).chars) = _
      rw [pieces_spelling, ih]
      rfl

theorem texts_append (ap : VaList) (n : Nat) (before after : List Piece) :
    texts ap n (before ++ after) = texts ap n before ++ texts ap (n + (before.map Piece.count).sum) after := by
  induction before generalizing n with
  | nil => rfl
  | cons q rest ih =>
      rw [List.cons_append, texts, texts, ih, List.append_assoc, List.map_cons, List.sum_cons, Nat.add_assoc]

/-- The first place at which two texts differ. -/
def Diverge (actual expected : List Byte) : Prop :=
  ∃ pre c d rest rest', actual = pre ++ c :: rest ∧ expected = pre ++ d :: rest' ∧ c ≠ d

theorem numeral_sixteen (n : Nat) : ∃ d rest, numeral 16 n = digit d :: rest ∧ d < 16 := by
  rw [numeral]
  split_ifs with zero
  · exact ⟨0, [], rfl, by decide⟩
  · have some_ : Nat.digits 16 n ≠ [] := Nat.digits_ne_nil_iff_ne_zero.mpr zero
    have below := Nat.digits_lt_base (by decide) (List.getLast_mem some_)
    have split := List.dropLast_append_getLast some_
    rw [← split, List.reverse_append]
    exact ⟨_, _, rfl, below⟩

theorem digit_bounds {d : Nat} (small : d < 16) : 0x30 ≤ (digit d).toNat ∧ digit d ≠ 0x6C#8 := by
  interval_cases d <;> decide

namespace Conversion
variable {ap : VaList} {n : Nat}

theorem pointer_eq {v : CString} (passed : (str v).Passed ap n) : ap.pointer n = v :=
  (strcmp_eq_zero_iff_ofField passed.1).mp (strcmp_eq_zero.mpr passed.2)

theorem texts_faithful {item : Conversion} (passed : item.Passed ap n) (faithful : item.Faithful) :
    texts ap n item.taken = item.rendering ∧ (item.taken.map Piece.count).sum = item.takes := by
  have sixteen {v : BitVec 64} (small : v.toNat < 2 ^ 63) : itoaText 16 v.toInt = numeral 16 v.toNat := by
    rw [BitVec.toInt_eq_toNat_of_lt (by omega)]
    exact itoaText_sixteen (Int.natCast_nonneg _)
  cases item with
  | literal c plain nonzero => exact ⟨rfl, rfl⟩
  | str v =>
      refine ⟨?_, rfl⟩
      change (ap.pointer n).chars ++ [] = _
      rw [List.append_nil, pointer_eq passed]
      rfl
  | dec v =>
      refine ⟨?_, rfl⟩
      change itoaText 10 (ap.int n).toInt ++ [] = _
      rw [List.append_nil, show ap.int n = v from passed, itoaText_ten]
      rfl
  | int v =>
      refine ⟨?_, rfl⟩
      change itoaText 10 (ap.int n).toInt ++ [] = _
      rw [List.append_nil, show ap.int n = v from passed, itoaText_ten]
      rfl
  | char v =>
      refine ⟨?_, rfl⟩
      change [(ap.int n).setWidth 8] = _
      rw [show ap.int n = v from passed]
      rfl
  | hex v =>
      refine ⟨?_, rfl⟩
      change itoaText 16 (ap.word n).toInt ++ [] = _
      rw [List.append_nil, show ap.word n = v from passed, sixteen faithful]
      rfl
  | ptr v =>
      refine ⟨?_, rfl⟩
      change itoaText 16 (ap.word n).toInt ++ [] = _
      rw [List.append_nil, show ap.word n = v from passed, sixteen faithful]
      rfl
  | percent => exact ⟨rfl, rfl⟩
  | longHex v => exact faithful.elim

/-- A word with its sign bit set is printed with a character first that is no digit. -/
theorem diverge_signed {v : BitVec 64} (large : ¬ v.toNat < 2 ^ 63) (rest rest' : List Byte) :
    Diverge (itoaText 16 v.toInt ++ rest) (numeral 16 v.toNat ++ rest') := by
  have negative : v.toInt < 0 := by
    rw [BitVec.toInt_eq_toNat_cond]
    omega
  obtain ⟨c, more, text, low⟩ := itoaText_negative negative
  obtain ⟨d, more', expected, small⟩ := numeral_sixteen v.toNat
  rw [text, expected]
  refine ⟨[], c, digit d, more ++ rest, more' ++ rest', rfl, rfl, fun same => ?_⟩
  have := (digit_bounds small).1
  rw [← same] at this
  omega

theorem texts_unfaithful {item : Conversion} (passed : item.Passed ap n) (unfaithful : ¬ item.Faithful) (rest : List Piece)
    (rest' : List Byte) : Diverge (texts ap n (item.taken ++ rest)) (item.rendering ++ rest') := by
  cases item with
  | hex v =>
      change Diverge (itoaText 16 (ap.word n).toInt ++ _) _
      rw [show ap.word n = v from passed]
      exact diverge_signed unfaithful _ _
  | ptr v =>
      change Diverge (itoaText 16 (ap.word n).toInt ++ _) _
      rw [show ap.word n = v from passed]
      exact diverge_signed unfaithful _ _
  | longHex v =>
      obtain ⟨d, more, expected, small⟩ := numeral_sixteen v.toNat
      change Diverge (0x6C#8 :: 0x78#8 :: _) (numeral 16 v.toNat ++ rest')
      rw [expected]
      exact ⟨[], 0x6C#8, digit d, _, more ++ rest', rfl, rfl, (digit_bounds small).2.symm⟩
  | _ => exact absurd trivial unfaithful

end Conversion

/-- Up to the first conversion that is not printed as it should be, every one gets its own argument. -/
theorem texts_written {ap : VaList} {n : Nat} {items : List Conversion} (passed : Arguments ap n items) :
    (∀ item ∈ items, item.Faithful) ∧ texts ap n (items.flatMap Conversion.taken) = items.flatMap Conversion.rendering ∨
      (¬ ∀ item ∈ items, item.Faithful) ∧
        Diverge (texts ap n (items.flatMap Conversion.taken)) (items.flatMap Conversion.rendering) := by
  induction items generalizing n with
  | nil => exact .inl ⟨List.forall_mem_nil _, rfl⟩
  | cons item rest ih =>
      rw [List.forall_mem_cons, List.flatMap_cons, List.flatMap_cons]
      by_cases faithful : item.Faithful
      · obtain ⟨text, count⟩ := Conversion.texts_faithful passed.1 faithful
        rw [texts_append, text, count]
        rcases ih passed.2 with ⟨all, same⟩ | ⟨notAll, pre, c, d, more, more', same, expected, differ⟩
        · exact .inl ⟨⟨faithful, all⟩, congrArg _ same⟩
        · refine .inr ⟨fun both => notAll both.2, item.rendering ++ pre, c, d, more, more', ?_, ?_, differ⟩
          · rw [same, List.append_assoc]
          · rw [expected, List.append_assoc]
      · exact .inr ⟨fun both => faithful both.1, Conversion.texts_unfaithful passed.1 faithful _ _⟩

/-- Every conversion prints its own argument, unless one is `%llx` or prints a word with its sign bit set. -/
theorem conversions_print_iff {f : Bytes} {items : List Conversion} (spells : Spells f (written items)) {ap : VaList}
    (passed : Arguments ap 0 items) :
    (∀ size str numBuf, (items.flatMap Conversion.rendering).length < size → ∃ r, Returns str size f ap numBuf r ∧
      r.terminator = some (items.flatMap Conversion.rendering).length ∧
      ∀ k < (items.flatMap Conversion.rendering).length, r.str k = (items.flatMap Conversion.rendering).getD k 0#8) ↔
      ∀ item ∈ items, item.Faithful := by
  have paired : endsUnpaired (written items) = false := congrArg Prod.snd (pieces_written items)
  have taken : (pieces (written items).chars).1 = items.flatMap Conversion.taken := congrArg Prod.fst (pieces_written items)
  set expected := items.flatMap Conversion.rendering
  rcases texts_written passed with ⟨all, same⟩ | ⟨notAll, pre, c, d, more, more', actual, wanted, differ⟩
  · refine iff_of_true (fun size str numBuf large => ?_) all
    obtain ⟨r, ran, cut, _⟩ := vsnprintf_cut str ap numBuf (Nat.zero_lt_of_lt large) spells paired
    have whole : min expected.length (size - 1) = expected.length := by omega
    rw [taken, same] at cut
    refine ⟨r, ran, ?_, fun k inside => cut.bytes k (whole.symm ▸ inside)⟩
    rw [cut.terminator, whole]
  · refine iff_of_false (fun prints => ?_) notAll
    obtain ⟨r, ran, _, bytes⟩ := prints (expected.length + 1) (fun _ => 0#8) (fun _ => 0#8) (Nat.lt_succ_self _)
    obtain ⟨r', ran', cut, _⟩ :=
      vsnprintf_cut (fun _ => 0#8) ap (fun _ => 0#8) (Nat.succ_pos expected.length) spells paired
    rw [taken, actual] at cut
    have inside : pre.length < expected.length := by
      rw [show expected = _ from wanted, List.length_append, List.length_cons]
      omega
    have inside' : pre.length < min (pre ++ c :: more).length (expected.length + 1 - 1) := by
      rw [List.length_append, List.length_cons]
      omega
    have printed := cut.bytes _ inside'
    rw [← ran.unique ran', bytes _ inside, show expected = _ from wanted, List.getD_append_right _ _ _ _ le_rfl,
      List.getD_append_right _ _ _ _ le_rfl, Nat.sub_self] at printed
    exact differ printed.symm

def sixteenSeven : List Conversion := [.longHex 0x10#64, .dec 7#32]

def sixteenSevenPassed : VaList := ⟨fun n => if n = 0 then 0x10#64 else 7#64, fun _ => 0#8⟩

def hexThenDec : List Conversion := [.hex 0x10#64, .dec 7#32, .percent]

theorem hexThenDec_rendering : hexThenDec.flatMap Conversion.rendering = [0x31#8, 0x30#8, 0x37#8, 0x25#8] := by
  change numeral 16 16 ++ (decimal 7 ++ ([percentSign] ++ [])) = _
  simp [decimal, numeral, digit, percentSign]

/-- `vsnprintf(str, 9, "%x%d%%", 16, 7)` prints `107%`. -/
theorem conversions_print_hex_dec : ∃ r,
    Returns (fun _ => 0#8) 9 (written hexThenDec).bytes sixteenSevenPassed (fun _ => 0#8) r ∧ r.terminator = some 4 ∧
      ∀ k < 4, r.str k = [0x31#8, 0x30#8, 0x37#8, 0x25#8].getD k 0#8 := by
  have spells : Spells (written hexThenDec).bytes (written hexThenDec) := fun _ _ => rfl
  have passed : Arguments sixteenSevenPassed 0 hexThenDec := ⟨rfl, rfl, trivial, trivial⟩
  have faithful : ∀ item ∈ hexThenDec, item.Faithful := by
    simp [hexThenDec, Conversion.Faithful]
  have prints := (conversions_print_iff spells passed).mpr faithful 9 (fun _ => 0#8) fun _ => 0#8
  rw [hexThenDec_rendering] at prints
  exact prints (by decide)

theorem sixteenSeven_rendering : sixteenSeven.flatMap Conversion.rendering = [0x31#8, 0x30#8, 0x37#8] := by
  change numeral 16 16 ++ (decimal 7 ++ []) = _
  simp [decimal, numeral, digit]

theorem sixteenSeven_texts : texts sixteenSevenPassed 0 (sixteenSeven.flatMap Conversion.taken) =
    [0x6C#8, 0x78#8, 0x31#8, 0x36#8] := by
  change 0x6C#8 :: 0x78#8 :: (itoaText 10 16 ++ []) = _
  rw [itoaText_ten]
  simp [decimal, numeral, digit]

/-- "%llx%d" with 16 and 7 is printed as "lx16": the 16 goes to the directive after it. -/
theorem sixteen_seven_shifted : ¬ ∀ size str numBuf, (sixteenSeven.flatMap Conversion.rendering).length < size →
    ∃ r, Returns str size (written sixteenSeven).bytes sixteenSevenPassed numBuf r ∧
      r.terminator = some (sixteenSeven.flatMap Conversion.rendering).length ∧
      ∀ k < (sixteenSeven.flatMap Conversion.rendering).length,
        r.str k = (sixteenSeven.flatMap Conversion.rendering).getD k 0#8 := by
  rw [sixteenSeven_rendering]
  intro prints
  have spells : Spells (written sixteenSeven).bytes (written sixteenSeven) := fun _ _ => rfl
  have paired : endsUnpaired (written sixteenSeven) = false := congrArg Prod.snd (pieces_written sixteenSeven)
  obtain ⟨r, ran, ended, _⟩ := prints 9 (fun _ => 0#8) (fun _ => 0#8) (by decide)
  obtain ⟨r', ran', cut, _⟩ :=
    vsnprintf_cut (fun _ => 0#8) sixteenSevenPassed (fun _ => 0#8) (by decide : 0 < 9) spells paired
  rw [pieces_written, sixteenSeven_texts] at cut
  have four := cut.terminator
  rw [← ran.unique ran', ended] at four
  exact absurd four (by decide)

end AstralOS.Lib
