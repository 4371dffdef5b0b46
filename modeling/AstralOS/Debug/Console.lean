import AstralOS.Debug.Kprintf

/-! What the console is for: the screen is a window on the end of the text that was printed.
The text is laid out in lines, and `kprintf` keeps the pixels equal to the picture of the last
lines. -/
namespace AstralOS.Debug
open Foundation AstralOS.Lib

def white : BitVec 32 := 0xFFFFFFFF#32
def black : BitVec 32 := 0#32

/-- Lines that are complete, and the one being written. -/
structure Text where
  done : List (List Byte)
  current : List Byte

namespace Text

def endLine (t : Text) : Text := ⟨t.done ++ [t.current], []⟩

def append (t : Text) (c : Byte) : Text := ⟨t.done, t.current ++ [c]⟩

/-- A line ends at a newline, or once it holds `columns` characters. -/
def put (columns : Nat) (t : Text) (c : Byte) : Text :=
  if c = newline then t.endLine
  else if t.current.length + 1 = columns then (t.append c).endLine
  else t.append c

def lines (t : Text) : List (List Byte) := t.done ++ [t.current]

/-- The last `rows` lines. -/
def shown (rows : Nat) (t : Text) : List (List Byte) := t.lines.drop (t.lines.length - rows)

end Text

def layOut (columns : Nat) (chars : List Byte) : Text := chars.foldl (Text.put columns) ⟨[], []⟩

def printable (c : Byte) : Prop := 32 ≤ c.toNat ∧ c.toNat ≤ 126

instance (c : Byte) : Decidable (printable c) := inferInstanceAs (Decidable (_ ∧ _))

/-- A character's cell; `x` and `y` count from its corner. -/
def cell (c : Byte) (x y : Nat) : BitVec 32 := if printable c ∧ lit c y x then white else black

/-- Lines drawn from the top in cells of eight by eight. -/
def picture (lines : List (List Byte)) (x y : Nat) : BitVec 32 :=
  match (lines.getD (y / 8) [])[x / 8]? with
  | some c => cell c (x % 8) (y % 8)
  | none => black

section
variable {rows : Nat} {t : Text} {front rest : List (List Byte)} {last : List Byte} {c : Byte} {x y : Nat}

theorem shown_eq (positive : 0 < rows) :
    t.shown rows = t.done.drop (t.done.length - (rows - 1)) ++ [t.current] := by
  have start : t.lines.length - rows = t.done.length - (rows - 1) := by
    rw [Text.lines, List.length_append, List.length_singleton]
    omega
  rw [Text.shown, start, Text.lines, List.drop_append_of_le_length (Nat.sub_le _ _)]

theorem front_length : (t.done.drop (t.done.length - (rows - 1))).length = min t.done.length (rows - 1) := by
  rw [List.length_drop]
  omega

/-- While there is room a new line goes below, -/
theorem shown_endLine_room (room : t.done.length + 1 < rows) :
    t.endLine.shown rows = t.shown rows ++ [[]] := by
  have all : t.lines.length - rows = 0 := by
    rw [Text.lines, List.length_append, List.length_singleton]
    omega
  have next : t.endLine.lines = t.lines ++ [[]] := rfl
  have nextAll : t.endLine.lines.length - rows = 0 := by
    rw [next, List.length_append, Text.lines, List.length_append, List.length_singleton, List.length_singleton]
    omega
  rw [Text.shown, nextAll, Text.shown, all, next]
  rfl

/-- and on a full screen the top line makes place for it. -/
theorem shown_endLine_full (positive : 0 < rows) (full : rows ≤ t.done.length + 1) :
    t.endLine.shown rows = (t.shown rows).drop 1 ++ [[]] := by
  have next : t.endLine.lines = t.lines ++ [[]] := rfl
  have count : t.lines.length = t.done.length + 1 := by rw [Text.lines, List.length_append, List.length_singleton]
  have start : t.endLine.lines.length - rows = t.lines.length - rows + 1 := by
    rw [next, List.length_append, List.length_singleton]
    omega
  rw [Text.shown, start, next, List.drop_append_of_le_length (by omega), Text.shown, List.drop_drop]

theorem picture_blank : picture (front ++ [[]]) x y = picture front x y := by
  have same : (front ++ [[]]).getD (y / 8) [] = front.getD (y / 8) [] := by
    rw [List.getD_eq_getElem?_getD, List.getD_eq_getElem?_getD]
    grind
  rw [picture, same, ← picture]

theorem picture_down : picture (rest.drop 1) x y = picture rest x (y + 8) := by
  have lower : (y + 8) / 8 = y / 8 + 1 := by omega
  have cellRow : (y + 8) % 8 = y % 8 := by omega
  have same : (rest.drop 1).getD (y / 8) [] = rest.getD (y / 8 + 1) [] := by
    rw [List.getD_eq_getElem?_getD, List.getD_eq_getElem?_getD, List.getElem?_drop, Nat.add_comm]
  rw [picture, picture, lower, cellRow, same]

/-- Below the lines there is nothing. -/
theorem picture_below (below : 8 * front.length ≤ y) : picture front x y = black := by
  have none : front.getD (y / 8) [] = [] := List.getD_eq_default _ _ (by omega)
  rw [picture, none]
  rfl

/-- A character added to the last line changes its own cell, which was black. -/
theorem picture_append : picture (front ++ [last ++ [c]]) x y =
    if y / 8 = front.length ∧ x / 8 = last.length then cell c (x % 8) (y % 8) else picture (front ++ [last]) x y := by
  by_cases row : y / 8 = front.length
  · have written : (front ++ [last ++ [c]]).getD (y / 8) [] = last ++ [c] := by
      rw [row, List.getD_eq_getElem?_getD, List.getElem?_concat_length]
      rfl
    have before : (front ++ [last]).getD (y / 8) [] = last := by
      rw [row, List.getD_eq_getElem?_getD, List.getElem?_concat_length]
      rfl
    rw [picture, picture, written, before]
    by_cases column : x / 8 = last.length
    · rw [if_pos ⟨row, column⟩, column, List.getElem?_concat_length]
    · rw [if_neg fun both => column both.2]
      have same (i : Nat) (other : i ≠ last.length) : (last ++ [c])[i]? = last[i]? := by
        rw [List.getElem?_append]
        grind
      rw [same (x / 8) column]
  · have same : (front ++ [last ++ [c]]).getD (y / 8) [] = (front ++ [last]).getD (y / 8) [] := by
      rw [List.getD_eq_getElem?_getD, List.getD_eq_getElem?_getD]
      grind
    rw [if_neg fun both => row both.1, picture, same, ← picture]

theorem picture_cell (row : y / 8 = front.length) (column : x / 8 = last.length) :
    picture (front ++ [last]) x y = black := by
  have before : (front ++ [last]).getD (y / 8) [] = last := by
    rw [row, List.getD_eq_getElem?_getD, List.getElem?_concat_length]
    rfl
  rw [picture, before, List.getElem?_eq_none (Nat.le_of_eq column.symm)]

end

namespace Kprintf

/-- Where the framebuffer is and its shape, which printing does not change. -/
def geometry (k : Kprintf) : Addr × BitVec 32 × BitVec 32 × BitVec 32 := (k.framebuffer, k.fbWidth, k.fbHeight, k.fbPitch)

def columns (k : Kprintf) : Nat := k.fbWidth.toNat / 8
def rows (k : Kprintf) : Nat := k.fbHeight.toNat / 8

def word (k : Kprintf) (x y : Nat) : BitVec 32 := wordAt k.framebuffer k.stride.toNat k.mem x y

/-- The cursor is at the end of the text and every word of the framebuffer is that of the picture. -/
structure Shows (k : Kprintf) (t : Text) : Prop where
  sound : k.Sound
  cursorX : k.cursorX.toNat = 8 * t.current.length
  cursorY : k.cursorY.toNat = 8 * min t.done.length (k.rows - 1)
  words : ∀ x < k.stride.toNat, ∀ y < k.fbHeight.toNat, k.word x y = picture (t.shown k.rows) x y

/-- To the start of the next line, wherever that is. -/
def endLine (k : Kprintf) : Kprintf := { k with cursorX := 0#32, cursorY := k.cursorY + fontHeight }

variable {k : Kprintf} {t : Text} {c : Byte}

theorem Sound.of_geometry {k' : Kprintf} (sound : k.Sound) (same : k'.geometry = k.geometry) : k'.Sound := by
  obtain ⟨fb, width, height, pitch, _, _, _, _⟩ := k
  obtain ⟨fb', width', height', pitch', _, _, _, _⟩ := k'
  simp only [geometry, Prod.mk.injEq] at same
  obtain ⟨rfl, rfl, rfl, rfl⟩ := same
  exact ⟨sound.screen, sound.width, sound.height, sound.column⟩

theorem Sound.rows_pos (sound : k.Sound) : 0 < k.rows := Nat.div_pos sound.height (by decide)

theorem drawChar_geometry (x y color : BitVec 32) : (kprintfDrawChar x y c color k).geometry = k.geometry := by
  rw [kprintfDrawChar]
  split_ifs <;> rfl

theorem drawChar_cursor (x y color : BitVec 32) :
    (kprintfDrawChar x y c color k).cursorX = k.cursorX ∧ (kprintfDrawChar x y c color k).cursorY = k.cursorY := by
  rw [kprintfDrawChar]
  split_ifs <;> exact ⟨rfl, rfl⟩

theorem word_of_geometry {k' : Kprintf} (same : k'.geometry = k.geometry) (x y : Nat) :
    k'.word x y = wordAt k.framebuffer k.stride.toNat k'.mem x y := by
  simp only [geometry, Prod.mk.injEq] at same
  rw [word, stride, same.1, same.2.2.2, ← stride]

/-- Pixels of a printed character: those of its cell where the glyph is lit. -/
theorem inGlyph_iff {left top x y : Nat} :
    InGlyph c (8 * left) (8 * top) x y ↔ (y / 8 = top ∧ x / 8 = left) ∧ lit c (y % 8) (x % 8) := by
  constructor
  · rintro ⟨fromLeft, toRight, fromTop, toBottom, on⟩
    have inRow : y - 8 * top = y % 8 := by omega
    have inColumn : x - 8 * left = x % 8 := by omega
    rw [inRow, inColumn] at on
    exact ⟨⟨by omega, by omega⟩, on⟩
  · rintro ⟨⟨rfl, rfl⟩, on⟩
    have inRow : y - 8 * (y / 8) = y % 8 := by omega
    have inColumn : x - 8 * (x / 8) = x % 8 := by omega
    refine ⟨by omega, by omega, by omega, by omega, ?_⟩
    rwa [inRow, inColumn]

/-- What is drawn at the end of the text completes the picture of one character more. -/
theorem Shows.drawn (shows_ : k.Shows t) (room : t.current.length < k.columns) {x y : Nat} (inX : x < k.stride.toNat)
    (inY : y < k.fbHeight.toNat) :
    wordAt k.framebuffer k.stride.toNat (kprintfDrawChar k.cursorX k.cursorY c white k).mem x y =
      picture ((t.append c).shown k.rows) x y := by
  have sound := shows_.sound
  have positive := sound.rows_pos
  have before := shows_.words x inX y inY
  rw [shown_eq positive] at before ⊢
  set front := t.done.drop (t.done.length - (k.rows - 1)) with frontEq
  have count : front.length = min t.done.length (k.rows - 1) := front_length
  have extended : (t.append c).done.drop ((t.append c).done.length - (k.rows - 1)) ++ [(t.append c).current] =
      front ++ [t.current ++ [c]] := rfl
  rw [extended, picture_append]
  by_cases seen : printable c
  · have inScreenX : k.cursorX.toNat + 8 ≤ k.fbWidth.toNat := by
      rw [shows_.cursorX]
      have := room
      rw [columns] at this
      omega
    have inScreenY : k.cursorY.toNat + 8 ≤ k.fbHeight.toNat := by
      have := positive
      rw [shows_.cursorY]
      rw [rows] at this ⊢
      omega
    have known : ¬ (c.toNat < 32 ∨ 126 < c.toNat) := by
      rintro (low | high)
      · exact absurd seen.1 (by omega)
      · exact absurd seen.2 (by omega)
    have ⟨paint, keep⟩ := drawChar_painted white sound known inScreenX inScreenY x inX y inY
    rw [shows_.cursorX, shows_.cursorY, ← count, inGlyph_iff] at paint keep
    by_cases here : y / 8 = front.length ∧ x / 8 = t.current.length
    · rw [if_pos here]
      by_cases on : lit c (y % 8) (x % 8)
      · rw [cell, if_pos ⟨seen, on⟩]
        exact paint ⟨here, on⟩
      · rw [cell, if_neg fun both => on both.2, keep fun both => on both.2]
        exact before.trans (picture_cell here.1 here.2)
    · rw [if_neg here, keep fun both => here both.1]
      exact before
  · have unknown : c.toNat < 32 ∨ 126 < c.toNat := by
      by_contra neither
      exact seen ⟨by omega, by omega⟩
    rw [kprintfDrawChar, if_neg sound.screen.nonnull, if_pos unknown]
    by_cases here : y / 8 = front.length ∧ x / 8 = t.current.length
    · rw [if_pos here, cell, if_neg fun both => seen both.1]
      exact before.trans (picture_cell here.1 here.2)
    · rw [if_neg here]
      exact before

theorem rows_of_geometry {k' : Kprintf} (same : k'.geometry = k.geometry) : k'.rows = k.rows ∧ k'.columns = k.columns := by
  simp only [geometry, Prod.mk.injEq] at same
  rw [rows, columns, same.2.1, same.2.2.1]
  exact ⟨rfl, rfl⟩

/-- The same screen with the same words, and the cursor where another text ends. -/
theorem Shows.of_words {k' : Kprintf} {t' : Text} (shows_ : k.Shows t) (same : k'.geometry = k.geometry)
    (atX : k'.cursorX.toNat = 8 * t'.current.length) (atY : k'.cursorY.toNat = 8 * min t'.done.length (k.rows - 1))
    (words : ∀ x < k.stride.toNat, ∀ y < k.fbHeight.toNat,
      wordAt k.framebuffer k.stride.toNat k'.mem x y = picture (t'.shown k.rows) x y) : k'.Shows t' := by
  have shape := same
  simp only [geometry, Prod.mk.injEq] at shape
  have strides : k'.stride = k.stride := by rw [stride, shape.2.2.2, ← stride]
  refine ⟨shows_.sound.of_geometry same, atX, ?_, ?_⟩
  · rw [(rows_of_geometry same).1]
    exact atY
  · intro x inX y inY
    rw [strides] at inX
    rw [shape.2.2.1] at inY
    rw [word_of_geometry same, (rows_of_geometry same).1]
    exact words x inX y inY

theorem advanceCursor_geometry : (advanceCursor c k).geometry = k.geometry := by
  rw [advanceCursor]
  split_ifs
  · rfl
  · exact drawChar_geometry k.cursorX k.cursorY 0xFFFFFFFF#32

theorem Shows.advance (shows_ : k.Shows t) (room : t.current.length < k.columns) (other : c ≠ newline) :
    (advanceCursor c k).Shows (t.append c) := by
  have narrow := shows_.sound.shaped.small_width
  have moved : advanceCursor c k = { kprintfDrawChar k.cursorX k.cursorY c white k with
      cursorX := (kprintfDrawChar k.cursorX k.cursorY c white k).cursorX + fontWidth } := if_neg other
  have ⟨keptX, keptY⟩ := drawChar_cursor (c := c) (k := k) k.cursorX k.cursorY white
  refine shows_.of_words advanceCursor_geometry ?_ ?_ ?_
  · have atX := shows_.cursorX
    have inside : t.current.length < k.fbWidth.toNat / 8 := room
    rw [moved, Text.append, List.length_append, List.length_singleton]
    dsimp only
    rw [keptX, BitVec.toNat_add, atX]
    change (_ + 8) % 2 ^ 32 = _
    omega
  · rw [moved]
    dsimp only
    rw [keptY]
    exact shows_.cursorY
  · intro x inX y inY
    rw [moved]
    exact shows_.drawn room inX inY

theorem scrollUp_geometry : (scrollUp k).geometry = k.geometry := by
  rw [scrollUp, kprintfScroll]
  split_ifs <;> rfl

theorem endLine_done : t.endLine.done.length = t.done.length + 1 := by
  rw [Text.endLine, List.length_append, List.length_singleton]

theorem Shows.nextLine (shows_ : k.Shows t) :
    (k.cursorY + fontHeight).toNat = 8 * min t.done.length (k.rows - 1) + 8 ∧
      (k.cursorY + fontHeight + fontHeight).toNat = 8 * min t.done.length (k.rows - 1) + 16 := by
  have short := shows_.sound.shaped.small_height
  have rowsEq : k.rows = k.fbHeight.toNat / 8 := rfl
  have lower : (k.cursorY + fontHeight).toNat = 8 * min t.done.length (k.rows - 1) + 8 := by
    have atY := shows_.cursorY
    rw [BitVec.toNat_add, atY]
    change (_ + 8) % 2 ^ 32 = _
    omega
  refine ⟨lower, ?_⟩
  rw [BitVec.toNat_add, lower]
  change (_ + 8) % 2 ^ 32 = _
  omega

theorem Shows.ended_room (shows_ : k.Shows t) (room : t.done.length + 1 < k.rows) :
    (scrollUp (endLine k)).Shows t.endLine := by
  have rowsEq : k.rows = k.fbHeight.toNat / 8 := rfl
  have ⟨lower, lowest⟩ := shows_.nextLine
  have stays : scrollUp (endLine k) = endLine k := by
    refine if_neg fun beyond => ?_
    have : k.fbHeight.toNat < (k.cursorY + fontHeight + fontHeight).toNat := beyond
    omega
  refine shows_.of_words scrollUp_geometry ?_ ?_ fun x inX y inY => ?_
  · rw [stays]
    rfl
  · rw [stays, endLine_done]
    refine lower.trans ?_
    omega
  · rw [stays, shown_endLine_room room, picture_blank]
    exact shows_.words x inX y inY

theorem Shows.ended_full (shows_ : k.Shows t) (full : k.rows ≤ t.done.length + 1) :
    (scrollUp (endLine k)).Shows t.endLine := by
  have sound := shows_.sound
  have positive := sound.rows_pos
  have rowsEq : k.rows = k.fbHeight.toNat / 8 := rfl
  have ⟨lower, lowest⟩ := shows_.nextLine
  have beyond : k.fbHeight < k.cursorY + fontHeight + fontHeight := by
    show k.fbHeight.toNat < (k.cursorY + fontHeight + fontHeight).toNat
    omega
  have scrolled : scrollUp (endLine k) =
      { kprintfScroll (endLine k) with cursorY := k.cursorY + fontHeight - fontHeight } := by
    refine (if_pos beyond).trans ?_
    rw [kprintfScroll, if_neg (show (endLine k).framebuffer ≠ 0#64 from sound.screen.nonnull)]
    rfl
  refine shows_.of_words scrollUp_geometry ?_ ?_ fun x inX y inY => ?_
  · rw [scrolled, kprintfScroll, if_neg (show (endLine k).framebuffer ≠ 0#64 from sound.screen.nonnull)]
    rfl
  · rw [scrolled, endLine_done]
    dsimp only
    rw [BitVec.add_sub_cancel, shows_.cursorY]
    omega
  · have moved := scroll_word (k := endLine k) (sound.of_geometry rfl) (x := x) (y := y) inX inY
    rw [scrolled, shown_endLine_full positive full, picture_blank]
    refine moved.trans ?_
    by_cases above : y + 8 < k.fbHeight.toNat
    · refine (if_pos above).trans ?_
      rw [picture_down]
      exact shows_.words x inX (y + 8) above
    · have lines : (t.shown k.rows).length ≤ k.rows := by
        rw [shown_eq positive, List.length_append, front_length, List.length_singleton]
        omega
      refine (if_neg above).trans (picture_below ?_).symm
      rw [List.length_drop]
      omega

/-- The end of a line moves the picture only when the screen is full. -/
theorem Shows.ended (shows_ : k.Shows t) : (scrollUp (endLine k)).Shows t.endLine := by
  by_cases room : t.done.length + 1 < k.rows
  · exact shows_.ended_room room
  · exact shows_.ended_full (Nat.le_of_not_lt room)

theorem wrapLine_geometry : (wrapLine k).geometry = k.geometry := by
  rw [wrapLine]
  split_ifs <;> rfl

theorem printChar_geometry : (printChar k c).geometry = k.geometry := by
  rw [printChar]
  split_ifs
  · rfl
  · rfl
  · rw [scrollUp_geometry, wrapLine_geometry, advanceCursor_geometry]

theorem Shows.within (shows_ : k.Shows t) : scrollUp k = k := by
  have positive := shows_.sound.rows_pos
  have short := shows_.sound.shaped.small_height
  have atY := shows_.cursorY
  have rowsEq : k.rows = k.fbHeight.toNat / 8 := rfl
  refine if_neg fun beyond => ?_
  have : k.fbHeight.toNat < (k.cursorY + fontHeight).toNat := beyond
  rw [BitVec.toNat_add] at this
  change k.fbHeight.toNat < (_ + 8) % 2 ^ 32 at this
  omega

/-- The line wraps exactly when it is full. -/
theorem Shows.wraps (shows_ : k.Shows t) (inLine : t.current.length ≤ k.columns) :
    wrapLine k = if t.current.length = k.columns then endLine k else k := by
  have narrow := shows_.sound.shaped.small_width
  have atX := shows_.cursorX
  have columnsEq : k.columns = k.fbWidth.toNat / 8 := rfl
  have next : (k.cursorX + fontWidth).toNat = 8 * t.current.length + 8 := by
    rw [BitVec.toNat_add, atX]
    change (_ + 8) % 2 ^ 32 = _
    omega
  have same : k.fbWidth < k.cursorX + fontWidth ↔ t.current.length = k.columns := by
    change k.fbWidth.toNat < (k.cursorX + fontWidth).toNat ↔ _
    omega
  rw [wrapLine]
  exact if_congr same rfl rfl

theorem columns_pos (sound : k.Sound) : 0 < k.columns := Nat.div_pos sound.column (by decide)

/-- One character more on the screen is one character more in the text. -/
theorem Shows.printed (shows_ : k.Shows t) (room : t.current.length < k.columns) :
    (printChar k c).Shows (t.put k.columns c) := by
  have nonnull : k.framebuffer ≠ 0#64 := shows_.sound.screen.nonnull
  rw [Text.put, printChar, if_neg nonnull]
  by_cases ending : c = newline
  · have advanced : advanceCursor c k = endLine k := if_pos ending
    have columnsEq : k.columns = k.fbWidth.toNat / 8 := rfl
    have stays : wrapLine (endLine k) = endLine k := by
      refine if_neg fun wraps => ?_
      have : k.fbWidth.toNat < (0#32 + fontWidth).toNat := wraps
      change k.fbWidth.toNat < 8 at this
      exact absurd shows_.sound.column (by omega)
    rw [if_pos ending, advanced, stays]
    exact shows_.ended
  · have advanced := shows_.advance room ending
    have sameColumns := (rows_of_geometry (advanceCursor_geometry (c := c) (k := k))).2
    have count : (t.append c).current.length = t.current.length + 1 := by
      rw [Text.append, List.length_append, List.length_singleton]
    rw [if_neg ending, advanced.wraps (by omega), count, sameColumns]
    by_cases full : t.current.length + 1 = k.columns
    · rw [if_pos full, if_pos full]
      exact advanced.ended
    · rw [if_neg full, if_neg full, advanced.within]
      exact advanced

theorem put_room (positive : 0 < k.columns) (room : t.current.length < k.columns) :
    (t.put k.columns c).current.length < k.columns := by
  rw [Text.put]
  split_ifs with ending full
  · exact positive
  · exact positive
  · rw [Text.append, List.length_append, List.length_singleton]
    omega

/-- Any number of characters. -/
theorem Shows.print (chars : List Byte) (shows_ : k.Shows t) (room : t.current.length < k.columns) :
    (chars.foldl printChar k).Shows (chars.foldl (Text.put k.columns) t) ∧
      (chars.foldl printChar k).geometry = k.geometry := by
  induction chars generalizing k t with
  | nil => exact ⟨shows_, rfl⟩
  | cons c rest ih =>
      have same := printChar_geometry (k := k) (c := c)
      have sameColumns := (rows_of_geometry same).2
      have later := ih (shows_.printed (c := c) room) (by
        rw [sameColumns]
        exact put_room (columns_pos shows_.sound) room)
      rw [sameColumns] at later
      exact ⟨later.1, later.2.trans same⟩

end Kprintf

theorem kprintfVarg_foldl (strings : List CString) (k : Kprintf) :
    strings.foldl (fun k s => kprintfVarg s k) k = (strings.flatMap CString.chars).foldl printChar k := by
  rw [List.foldl_flatMap]
  rfl

/-- The pixel `x` of row `y`, with `pitch` bytes to a row. -/
def pixel (fb : Addr) (pitch : Nat) (m : Memory) (x y : Nat) : BitVec 32 :=
  load 32 4 m (fb + BitVec.ofNat 64 (y * pitch + 4 * x))

/-- The console shows the tail of everything printed since `kprintfInit`. -/
theorem kprintf_shows_tail (fb : Addr) (width height pitch : BitVec 32) (k : Kprintf) (strings : List CString)
    (nonnull : fb ≠ 0#64) (wide : 8 ≤ width.toNat) (tall : 8 ≤ height.toNat) (whole : pitch.toNat % 4 = 0)
    (inPitch : 4 * width.toNat ≤ pitch.toNat) (bytes : height.toNat * pitch.toNat < 2 ^ 32)
    (fits : fb.toNat + height.toNat * pitch.toNat ≤ 2 ^ 64)
    (zero : ∀ i < height.toNat * (pitch.toNat / 4), load 32 4 k.mem (fb + BitVec.ofNat 64 (4 * i)) = 0#32)
    {x y : Nat} (inX : x < width.toNat) (inY : y < height.toNat) :
    pixel fb pitch.toNat (strings.foldl (fun k s => kprintfVarg s k) (kprintfInit fb width height pitch k)).mem x y =
      picture ((layOut (width.toNat / 8) (strings.flatMap CString.chars)).shown (height.toNat / 8)) x y := by
  set start := kprintfInit fb width height pitch k with startEq
  have stride : start.stride.toNat = pitch.toNat / 4 := BitVec.toNat_udiv
  have row : pitch.toNat = 4 * start.stride.toNat := by omega
  have area : height.toNat * pitch.toNat = 4 * (height.toNat * start.stride.toNat) := by
    rw [row]
    exact Nat.mul_left_comm ..
  have sound : start.Sound := {
    screen := ⟨nonnull, area ▸ bytes, area ▸ fits⟩
    width := show width.toNat ≤ start.stride.toNat by omega
    height := tall
    column := wide }
  have first : start.Shows ⟨[], []⟩ := by
    refine ⟨sound, rfl, (Nat.mul_eq_zero.mpr (Or.inr (Nat.zero_min _))).symm, fun px inPx py inPy => ?_⟩
    have inside : py * start.stride.toNat + px < height.toNat * start.stride.toNat := by
      have := row_inside start.stride.toNat (show py < height.toNat from inPy)
      omega
    have blank : Text.shown start.rows ⟨[], []⟩ = [] ++ [[]] :=
      (shown_eq (t := ⟨[], []⟩) sound.rows_pos).trans (congrArg (· ++ [[]]) List.drop_nil)
    rw [blank, picture_blank]
    exact zero _ (stride ▸ inside)
  have ⟨last, same⟩ := first.print (strings.flatMap CString.chars) (Kprintf.columns_pos sound)
  have place : y * pitch.toNat + 4 * x = 4 * (y * start.stride.toNat + x) := by
    rw [row, Nat.mul_left_comm, ← Nat.mul_add]
  have shape := same
  simp only [Kprintf.geometry, Prod.mk.injEq] at shape
  have words := last.words x (by
    rw [Kprintf.stride, shape.2.2.2, ← Kprintf.stride]
    omega) y (shape.2.2.1 ▸ inY)
  rw [Kprintf.word_of_geometry same, (Kprintf.rows_of_geometry same).1] at words
  rw [kprintfVarg_foldl, pixel, place]
  exact words

def unset : Kprintf := ⟨0#64, 0#32, 0#32, 0#32, 0#32, 0#32, fun _ => 0#8, []⟩
def letter : CString := ⟨[0x49#8, newline], by decide⟩
def marks : CString := ⟨[0x21#8, 0x21#8], by decide⟩

/-- On four cells the full second line has pushed the letter off the screen. -/
theorem kprintf_shows_tail_sixteen :
    pixel 0x1000#64 64 ([letter, marks].foldl (fun k s => kprintfVarg s k)
      (kprintfInit 0x1000#64 16#32 16#32 64#32 unset)).mem 3 0 = white := by
  have shown := kprintf_shows_tail 0x1000#64 16#32 16#32 64#32 unset [letter, marks] (by decide) (by decide) (by decide)
    (by decide) (by decide) (by decide) (by decide) (fun _ _ => (by decide : load 32 4 (fun _ => 0#8) (0#64) = 0#32))
    (x := 3) (y := 0) (by decide) (by decide)
  exact shown.trans (by decide)

end AstralOS.Debug
