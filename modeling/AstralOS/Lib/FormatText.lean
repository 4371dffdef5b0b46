import AstralOS.Lib.Vsnprintf

/-! What a format means: its literals and directives, the text each stands for, and how much of the
whole text `vsnprintf` leaves in a buffer of any size. -/
namespace AstralOS.Lib
open Foundation

/-- A character that is printed as it is, or a `%` with the letter after it. -/
inductive Piece where
  | literal (c : Byte)
  | directive (letter : Byte)

/-- The pieces of a format, and whether a `%` is left over at its end. -/
def pieces : List Byte → List Piece × Bool
  | [] => ([], false)
  | [c] => if c = percentSign then ([], true) else ([.literal c], false)
  | c :: d :: rest =>
      if c = percentSign then
        let r := pieces rest
        (.directive d :: r.1, r.2)
      else
        let r := pieces (d :: rest)
        (.literal c :: r.1, r.2)

/-- Does the format end in an unpaired `%`? -/
def endsUnpaired (format : CString) : Bool := (pieces format.chars).2

namespace Piece

/-- Does the directive fetch an argument? -/
def fetches : Piece → Bool
  | literal _ => false
  | directive letter =>
      letter = 0x73#8 ∨ letter = 0x64#8 ∨ letter = 0x69#8 ∨ letter = 0x78#8 ∨ letter = 0x70#8 ∨ letter = 0x63#8

/-- The number of arguments fetched. -/
def count (q : Piece) : Nat := if q.fetches then 1 else 0

/-- What the piece is replaced by, with the argument in slot `i`. -/
def text (ap : VaList) (i : Nat) : Piece → List Byte
  | literal c => [c]
  | directive letter =>
      if letter = 0x73#8 then (ap.pointer i).chars
      else if letter = 0x64#8 ∨ letter = 0x69#8 then itoaText 10 (ap.int i).toInt
      else if letter = 0x78#8 ∨ letter = 0x70#8 then itoaText 16 (ap.word i).toInt
      else if letter = 0x63#8 then [(ap.int i).setWidth 8]
      else if letter = percentSign then [percentSign]
      else []

end Piece

/-- The text of some pieces, with their arguments in the slots from `i` on. -/
def texts (ap : VaList) : Nat → List Piece → List Byte
  | _, [] => []
  | i, q :: rest => q.text ap i ++ texts ap (i + q.count) rest

/-- A literal comes up when all but the last byte of the buffer is used. -/
def Fills (ap : VaList) (size : Nat) : Nat → Nat → List Piece → Prop
  | _, _, [] => False
  | i, n, q :: rest => (∃ c, q = .literal c ∧ size ≤ n + 1) ∨ Fills ap size (i + q.count) (n + (q.text ap i).length) rest

/-- The buffer holds what there is room for of the text, with a byte to spare, and nothing is written past it. -/
structure Holds (size : Nat) (str : Bytes) (text : List Byte) (p : Printf) : Prop where
  pointer : p.strPtr = p.written
  written : p.written = min text.length (size - 1)
  bytes : ∀ i < p.written, p.str i = text.getD i 0#8
  outside : ∀ i, size ≤ i → p.str i = str i

/-- A literal has taken the last byte of the buffer. -/
structure Filled (size : Nat) (str : Bytes) (text : List Byte) (p : Printf) : Prop where
  pointer : p.strPtr = p.written
  written : p.written = size
  long : size ≤ text.length
  bytes : ∀ i < size - 1, p.str i = text.getD i 0#8
  outside : ∀ i, size ≤ i → p.str i = str i

section
variable {size : Nat} {str : Bytes} {done : List Byte} {p : Printf} {c : Byte}

theorem Holds.lt (holds : Holds size str done p) (some_ : 0 < size) : p.written < size := by
  have := holds.written
  omega

/-- A string is cut where the buffer ends. -/
theorem Holds.copy (holds : Holds size str done p) (some_ : 0 < size) (s : List Byte) :
    Holds size str (done ++ s) (p.copy size s) := by
  obtain ⟨pointer, written, bytes, outside⟩ := holds
  have length : (done ++ s).length = done.length + s.length := List.length_append
  set sLen := if size ≤ p.written + s.length then size - p.written - 1 else s.length with sLen_eq
  have short : sLen ≤ s.length := by
    rw [sLen_eq]
    split_ifs <;> omega
  have total : p.written + sLen = min (done ++ s).length (size - 1) := by
    rw [length, sLen_eq]
    split_ifs <;> omega
  have taken : (s.take sLen).length = sLen := List.length_take_of_le short
  refine ⟨?_, total, fun i inside => ?_, fun i beyond => ?_⟩
  · change p.strPtr + sLen = p.written + sLen
    rw [pointer]
  · have inside : i < p.written + sLen := inside
    change lay p.str p.strPtr (s.take sLen) i = _
    rw [lay_apply, taken, pointer]
    by_cases before : i < p.written
    · rw [if_neg (by omega), bytes i before, List.getD_append _ _ _ _ (by omega)]
    · have room : p.written = done.length := by
        have : 0 < sLen := by omega
        rw [sLen_eq] at this
        split_ifs at this <;> omega
      have within : i - p.written < (s.take sLen).length := by omega
      have later : i - done.length < s.length := by omega
      rw [if_pos (by omega), List.getD_append_right _ _ _ _ (by omega), List.getD_eq_getElem _ _ within,
        List.getElem_take, List.getD_eq_getElem _ _ later]
      simp only [room]
  · change lay p.str p.strPtr (s.take sLen) i = _
    rw [lay_apply, taken, pointer, if_neg (by omega)]
    exact outside i beyond

/-- One character is a string of one character. -/
theorem putIfRoom_eq (small : p.written < size) (c : Byte) : p.putIfRoom size c = p.copy size [c] := by
  rw [Printf.putIfRoom, Printf.copy]
  by_cases room : p.written + 1 < size
  · have long : ¬ size ≤ p.written + [c].length := Nat.not_le.mpr room
    have one := lay_concat p.str p.strPtr [] c
    rw [lay_nil] at one
    rw [if_pos room, if_neg long, Printf.put]
    simp only [List.take_length]
    exact congrArg (fun b => { p with str := b, strPtr := p.strPtr + 1, written := p.written + 1 }) one
  · have long : size ≤ p.written + [c].length := Nat.not_lt.mp room
    have none_ : size - p.written - 1 = 0 := by omega
    rw [if_neg room, if_pos long, none_, List.take_zero, lay_nil]
    rfl

theorem Holds.put (holds : Holds size str done p) (c : Byte) (room : ¬ size ≤ done.length + 1) :
    Holds size str (done ++ [c]) (p.put c) := by
  obtain ⟨pointer, written, bytes, outside⟩ := holds
  have small : p.written = done.length := by omega
  refine ⟨?_, ?_, fun i inside => ?_, fun i beyond => ?_⟩
  · change p.strPtr + 1 = p.written + 1
    rw [pointer]
  · change p.written + 1 = _
    rw [List.length_append, List.length_singleton]
    omega
  · have inside : i < p.written + 1 := inside
    change Function.update p.str p.strPtr c i = _
    rw [pointer]
    by_cases last : i = p.written
    · rw [last, Function.update_self, small, List.getD_append_right _ _ _ _ le_rfl]
      simp
    · rw [Function.update_of_ne last, bytes i (by omega), List.getD_append _ _ _ _ (by omega)]
  · change Function.update p.str p.strPtr c i = _
    rw [pointer, Function.update_of_ne (by omega)]
    exact outside i beyond

/-- The last byte of the buffer is for the terminator, but a literal takes it. -/
theorem Holds.fill (holds : Holds size str done p) (some_ : 0 < size) (c : Byte) (full : size ≤ done.length + 1) :
    Filled size str (done ++ [c]) (p.put c) := by
  obtain ⟨pointer, written, bytes, outside⟩ := holds
  have last : p.written = size - 1 := by omega
  refine ⟨?_, ?_, ?_, fun i inside => ?_, fun i beyond => ?_⟩
  · change p.strPtr + 1 = p.written + 1
    rw [pointer]
  · change p.written + 1 = size
    omega
  · rw [List.length_append, List.length_singleton]
    exact full
  · change Function.update p.str p.strPtr c i = _
    rw [pointer, Function.update_of_ne (by omega), bytes i (by omega), List.getD_append _ _ _ _ (by omega)]
  · change Function.update p.str p.strPtr c i = _
    rw [pointer, Function.update_of_ne (by omega)]
    exact outside i beyond

theorem Filled.append (filled : Filled size str done p) (more : List Byte) : Filled size str (done ++ more) p := by
  obtain ⟨pointer, written, long, bytes, outside⟩ := filled
  refine ⟨pointer, written, ?_, fun i inside => ?_, outside⟩
  · rw [List.length_append]
    omega
  · rw [bytes i inside, List.getD_append _ _ _ _ (by omega)]

variable {f numBuf : Bytes} {ap : VaList} {format : CString}

/-- The fields that only the loop itself changes. -/
structure Directed (p q : Printf) (letter : Byte) : Prop where
  format : q.format = p.format
  reads : q.reads = p.reads
  ap : q.ap = p.ap + (Piece.directive letter).count

theorem directive_holds (holds : Holds size str done p) (some_ : 0 < size) (ap : VaList) (numBuf : Bytes) (letter : Byte) :
    Holds size str (done ++ (Piece.directive letter).text ap p.ap) (directive ap numBuf size letter p) ∧
      Directed p (directive ap numBuf size letter p) letter := by
  have small := holds.lt some_
  have ten : (CString.ofField 32 (itoa (ap.int p.ap).toInt numBuf 10)).chars = itoaText 10 (ap.int p.ap).toInt := by
    have low := BitVec.le_toInt (ap.int p.ap)
    have high := BitVec.toInt_lt (x := ap.int p.ap)
    exact itoa_string (.inl rfl) (by omega) (by omega) numBuf
  have sixteen : (CString.ofField 32 (itoa (ap.word p.ap).toInt numBuf 16)).chars = itoaText 16 (ap.word p.ap).toInt := by
    have low := BitVec.le_toInt (ap.word p.ap)
    have high := BitVec.toInt_lt (x := ap.word p.ap)
    exact itoa_string (.inr rfl) (by omega) (by omega) numBuf
  have keep {s : List Byte} (n : Nat) : Holds size str (done ++ s) { p.copy size s with ap := n } :=
    ⟨(holds.copy some_ s).pointer, (holds.copy some_ s).written, (holds.copy some_ s).bytes, (holds.copy some_ s).outside⟩
  rw [directive, Piece.text, ten, sixteen, putIfRoom_eq small, putIfRoom_eq small]
  split_ifs with s d x c percent
  · exact ⟨keep _, rfl, rfl, by simp [Piece.count, Piece.fetches, s]⟩
  · exact ⟨keep _, rfl, rfl, by rcases d with d | d <;> simp [Piece.count, Piece.fetches, d]⟩
  · exact ⟨keep _, rfl, rfl, by rcases x with x | x <;> simp [Piece.count, Piece.fetches, x]⟩
  · exact ⟨keep _, rfl, rfl, by simp [Piece.count, Piece.fetches, c]⟩
  · exact ⟨holds.copy some_ _, rfl, rfl, by subst percent; rfl⟩
  · rw [List.append_nil]
    exact ⟨holds, rfl, rfl, by simp_all [Piece.count, Piece.fetches]⟩

/-- The bytes from the format's start to its terminator. -/
def Spells (f : Bytes) (format : CString) : Prop := ∀ i ≤ strlen format, f i = format.bytes i

/-- The characters from the pointer on, with no read past the terminator so far. -/
structure Placed (format : CString) (chars : List Byte) (p : Printf) : Prop where
  inside : p.format ≤ strlen format
  chars : format.chars.drop p.format = chars
  reads : ∀ i ∈ p.reads, i ≤ strlen format

theorem Placed.nil (placed : Placed format [] p) (spells : Spells f format) :
    p.format = strlen format ∧ f p.format = 0#8 := by
  have past := List.drop_eq_nil_iff.mp placed.chars
  have here : p.format = strlen format := Nat.le_antisymm placed.inside past
  rw [spells _ placed.inside]
  exact ⟨here, List.getD_eq_default _ _ past⟩

theorem Placed.cons {chars : List Byte} (placed : Placed format (c :: chars) p) (spells : Spells f format) :
    f p.format = c ∧ c ≠ 0#8 ∧ p.format < strlen format ∧ format.chars.drop (p.format + 1) = chars := by
  have inside : p.format < format.chars.length := by
    by_contra past
    have := List.drop_eq_nil_iff.mpr (Nat.le_of_not_lt past)
    rw [placed.chars] at this
    cases this
  have split := List.drop_eq_getElem_cons inside
  rw [placed.chars] at split
  obtain ⟨here, later⟩ := List.cons.inj split
  rw [spells _ placed.inside, CString.bytes, List.getD_eq_getElem _ _ inside, ← here]
  exact ⟨rfl, by rw [here]; exact format.nonzero _ (List.getElem_mem inside), inside, later.symm⟩

theorem look_reads (placed : p.format ≤ strlen format) (reads : ∀ i ∈ p.reads, i ≤ strlen format) :
    ∀ i ∈ p.look.reads, i ≤ strlen format :=
  List.forall_mem_append.mpr ⟨reads, List.forall_mem_singleton.mpr placed⟩

theorem printLoop_turn (ap : VaList) (numBuf : Bytes) (more : f p.format ≠ 0#8) (room : p.written < size) (fuel : Nat) :
    printLoop f ap numBuf size (fuel + 1) p = printLoop f ap numBuf size fuel (turn f ap numBuf size p.look) :=
  if_pos ⟨more, room⟩

theorem printLoop_stop (ended : ¬ (f p.format ≠ 0#8 ∧ p.written < size)) (fuel : Nat) :
    printLoop f ap numBuf size (fuel + 1) p = some p.look :=
  if_neg ended

theorem turn_literal (here : f p.format = c) (plain : c ≠ percentSign) :
    turn f ap numBuf size p.look = { p.look.put c with format := p.format + 1 } := by
  have here : f p.look.format = c := here
  rw [turn, here, if_neg plain]
  rfl

theorem turn_directive (here : f p.format = percentSign) :
    turn f ap numBuf size p.look =
      let q := directive ap numBuf size (f (p.format + 1)) { p.look with format := p.format + 1 }.look
      { q with format := q.format + 1 } := by
  have here : f p.look.format = percentSign := here
  rw [turn, here, if_pos rfl]
  rfl

/-- How the loop goes over some pieces: it ends when a literal fills the buffer, or it comes to the end of them. -/
def Outcome (f numBuf : Bytes) (ap : VaList) (size : Nat) (str : Bytes) (format : CString) (done : List Byte) (p : Printf)
    (r : List Piece × Bool) : Prop :=
  (Fills ap size p.ap done.length r.1 ∧ ∃ fuel q, printLoop f ap numBuf size fuel p = some q ∧
    Filled size str (done ++ texts ap p.ap r.1) q ∧ ∀ i ∈ q.reads, i ≤ strlen format) ∨
  (¬ Fills ap size p.ap done.length r.1 ∧ ∃ q, (∀ fuel, printLoop f ap numBuf size (r.1.length + fuel) p =
    printLoop f ap numBuf size fuel q) ∧ Holds size str (done ++ texts ap p.ap r.1) q ∧
    Placed format (if r.2 then [percentSign] else []) q)

/-- A piece that does not fill the buffer is followed by the rest. -/
theorem Outcome.cons {piece : Piece} {ps : List Piece} {unpaired : Bool} {q : Printf}
    (turned : ∀ fuel, printLoop f ap numBuf size (fuel + 1) p = printLoop f ap numBuf size fuel q)
    (fetched : q.ap = p.ap + piece.count) (room : ¬ ∃ c, piece = .literal c ∧ size ≤ done.length + 1)
    (later : Outcome f numBuf ap size str format (done ++ piece.text ap p.ap) q (ps, unpaired)) :
    Outcome f numBuf ap size str format done p (piece :: ps, unpaired) := by
  have fills : Fills ap size p.ap done.length (piece :: ps) ↔
      Fills ap size q.ap (done ++ piece.text ap p.ap).length ps := by
    rw [Fills, or_iff_right room, fetched, List.length_append]
  have whole : done ++ texts ap p.ap (piece :: ps) = done ++ piece.text ap p.ap ++ texts ap q.ap ps := by
    rw [texts, fetched, List.append_assoc]
  rw [Outcome, fills, whole]
  rcases later with ⟨full, fuel, last, run, filled, reads⟩ | ⟨roomy, last, run, holds, placed⟩
  · exact .inl ⟨full, fuel + 1, last, (turned fuel).trans run, filled, reads⟩
  · refine .inr ⟨roomy, last, fun fuel => ?_, holds, placed⟩
    have step := turned (ps.length + fuel)
    rw [List.length_cons, show ps.length + 1 + fuel = ps.length + fuel + 1 by omega, step]
    exact run fuel

/-- A literal is printed, and the loop ends if it was the last that could be. -/
theorem outcome_literal {chars : List Byte} {ps : List Piece} {unpaired : Bool} (some_ : 0 < size)
    (spells : Spells f format) (placed : Placed format (c :: chars) p) (plain : c ≠ percentSign)
    (holds : Holds size str done p)
    (later : ∀ {p done}, Placed format chars p → Holds size str done p →
      Outcome f numBuf ap size str format done p (ps, unpaired)) :
    Outcome f numBuf ap size str format done p (.literal c :: ps, unpaired) := by
  obtain ⟨here, nonzero, inside, rest⟩ := placed.cons spells
  have more : f p.format ≠ 0#8 := here ▸ nonzero
  have reads := look_reads placed.inside placed.reads
  have turned := fun fuel => (printLoop_turn ap numBuf more (holds.lt some_) fuel).trans
    (congrArg _ (turn_literal here plain))
  have looked : Holds size str done p.look := ⟨holds.pointer, holds.written, holds.bytes, holds.outside⟩
  set q : Printf := { p.look.put c with format := p.format + 1 }
  by_cases full : size ≤ done.length + 1
  · have filled : Filled size str (done ++ [c]) (p.look.put c) := looked.fill some_ c full
    have filled : Filled size str (done ++ [c]) q.look := ⟨filled.pointer, filled.written, filled.long, filled.bytes, filled.outside⟩
    have ended : ¬ (f q.format ≠ 0#8 ∧ q.written < size) := fun both => absurd both.2 (by
      have : q.written = size := filled.written
      omega)
    refine .inl ⟨.inl ⟨c, rfl, full⟩, 2, q.look, (turned 1).trans (printLoop_stop ended 0), ?_, look_reads inside reads⟩
    rw [texts, ← List.append_assoc]
    exact filled.append _
  · have next : Holds size str (done ++ [c]) (p.look.put c) := looked.put c full
    have next : Holds size str (done ++ [c]) q := ⟨next.pointer, next.written, next.bytes, next.outside⟩
    refine Outcome.cons turned rfl ?_ (later ⟨inside, rest, reads⟩ next)
    rintro ⟨d, _, again⟩
    exact full again

theorem outcome_directive {chars : List Byte} {letter : Byte} {ps : List Piece} {unpaired : Bool} (some_ : 0 < size)
    (spells : Spells f format) (placed : Placed format (percentSign :: letter :: chars) p) (holds : Holds size str done p)
    (later : ∀ {p done}, Placed format chars p → Holds size str done p →
      Outcome f numBuf ap size str format done p (ps, unpaired)) :
    Outcome f numBuf ap size str format done p (.directive letter :: ps, unpaired) := by
  obtain ⟨here, nonzero, inside, rest⟩ := placed.cons spells
  have more : f p.format ≠ 0#8 := here ▸ nonzero
  have reads := look_reads placed.inside placed.reads
  set q : Printf := { p.look with format := p.format + 1 }.look
  have placed1 : Placed format (letter :: chars) q := ⟨inside, rest, look_reads inside reads⟩
  obtain ⟨here1, _, inside1, rest1⟩ := placed1.cons spells
  have here1 : f (p.format + 1) = letter := here1
  have looked : Holds size str done q := ⟨holds.pointer, holds.written, holds.bytes, holds.outside⟩
  obtain ⟨next, directed⟩ := directive_holds looked some_ ap numBuf letter
  have turned := fun fuel => (printLoop_turn ap numBuf more (holds.lt some_) fuel).trans
    (congrArg _ (turn_directive here))
  rw [here1] at turned
  refine Outcome.cons turned directed.ap (fun ⟨d, literal, _⟩ => nomatch literal) (later ⟨?_, ?_, ?_⟩ ?_)
  · change (directive ap numBuf size letter q).format + 1 ≤ _
    rw [directed.format]
    exact inside1
  · change format.chars.drop ((directive ap numBuf size letter q).format + 1) = _
    rw [directed.format]
    exact rest1
  · change ∀ i ∈ (directive ap numBuf size letter q).reads, _
    rw [directed.reads]
    exact placed1.reads
  · exact ⟨next.pointer, next.written, next.bytes, next.outside⟩

/-- Past the last piece the loop has what the format ends with before it. -/
theorem outcome_nil {unpaired : Bool} (placed : Placed format (if unpaired then [percentSign] else []) p)
    (holds : Holds size str done p) : Outcome f numBuf ap size str format done p ([], unpaired) := by
  refine .inr ⟨id, p, fun fuel => ?_, ?_, placed⟩
  · rw [List.length_nil, Nat.zero_add]
  · rw [texts, List.append_nil]
    exact holds

theorem outcome_pieces (some_ : 0 < size) (spells : Spells f format) {chars : List Byte}
    (placed : Placed format chars p) (holds : Holds size str done p) :
    Outcome f numBuf ap size str format done p (pieces chars) := by
  induction chars using pieces.induct generalizing p done with
  | case1 => exact outcome_nil placed holds
  | case2 =>
    rw [pieces, if_pos rfl]
    exact outcome_nil placed holds
  | case3 c plain =>
    rw [pieces, if_neg plain]
    exact outcome_literal some_ spells placed plain holds fun placed holds => outcome_nil placed holds
  | case4 letter chars ih =>
    rw [pieces, if_pos rfl]
    exact outcome_directive some_ spells placed holds ih
  | case5 c d chars plain ih =>
    rw [pieces, if_neg plain]
    exact outcome_literal some_ spells placed plain holds ih

end
end AstralOS.Lib
