import AstralOS.Debug.Console
import AstralOS.Foundation.Runs
import AstralOS.Foundation.Traced

/-! The console's arithmetic and its accesses to the framebuffer, as the events of a traced
`kprintf`: none of them leaves the framebuffer or its 32 bits. -/
namespace AstralOS.Debug
open Foundation Foundation.Traced AstralOS.Lib

/-- An operation on 32-bit numbers, or an access to a number of bytes from a word of the framebuffer on. -/
inductive Effect where
  | add (a b : BitVec 32)
  | sub (a b : BitVec 32)
  | mul (a b : BitVec 32)
  | touch (start : BitVec 32) (bytes : Nat)

/-- Nothing wraps, and the words are among the first `words`. -/
def Effect.Fine (words : Nat) : Effect → Prop
  | add a b => a.toNat + b.toNat < 2 ^ 32
  | sub a b => b.toNat ≤ a.toNat
  | mul a b => a.toNat * b.toNat < 2 ^ 32
  | touch start bytes => start.toNat + (bytes + 3) / 4 ≤ words

namespace Traced

def add (a b : BitVec 32) : Traced Effect (BitVec 32) := event (.add a b) (a + b)
def sub (a b : BitVec 32) : Traced Effect (BitVec 32) := event (.sub a b) (a - b)
def mul (a b : BitVec 32) : Traced Effect (BitVec 32) := event (.mul a b) (a * b)
def touch (start : BitVec 32) (bytes : Nat) : Traced Effect Unit := event (.touch start bytes) ()

/-! The functions of `kprintf`, operation by operation. -/

def drawPixel (k : Kprintf) (px py : BitVec 32) (color : BitVec 32) (m : Memory) : Traced Effect Memory :=
  if px < k.fbWidth ∧ py < k.fbHeight then do
    let row ← mul py k.stride
    let index ← add row px
    touch index 4
    pure (store 4 m (k.element index) color)
  else pure m

def kprintfDrawChar (x y : BitVec 32) (c : Byte) (color : BitVec 32) (k : Kprintf) : Traced Effect Kprintf :=
  if k.framebuffer = 0#64 then pure (uartPutc c k)
  else if c.toNat < 32 ∨ 126 < c.toNat then pure k
  else do
    let mem ← (List.range fontHeight.toNat).foldlM (fun m row =>
      (List.range fontWidth.toNat).foldlM (fun m col =>
        if lit c row col then do
          let px ← add x (BitVec.ofNat 32 col)
          let py ← add y (BitVec.ofNat 32 row)
          drawPixel k px py color m
        else pure m) m) k.mem
    pure { k with mem := mem }

def kprintfScroll (k : Kprintf) : Traced Effect Kprintf :=
  if k.framebuffer = 0#64 then pure k
  else do
    let _lineSize ← mul k.fbWidth 4#32
    let scrollAmount ← mul fontHeight k.stride
    let rows ← sub k.fbHeight fontHeight
    let kept ← mul rows k.stride
    let moved ← mul kept 4#32
    touch scrollAmount moved.toNat
    touch 0#32 moved.toNat
    let cleared ← mul scrollAmount 4#32
    touch kept cleared.toNat
    let m := memcpy moved.toNat k.framebuffer (k.element scrollAmount) k.mem
    pure { k with mem := memset 0#8 cleared.toNat (k.element kept) m }

def advanceCursor (c : Byte) (k : Kprintf) : Traced Effect Kprintf :=
  if c = newline then do
    let y ← add k.cursorY fontHeight
    pure { k with cursorX := 0#32, cursorY := y }
  else do
    let k ← kprintfDrawChar k.cursorX k.cursorY c 0xFFFFFFFF#32 k
    let x ← add k.cursorX fontWidth
    pure { k with cursorX := x }

def wrapLine (k : Kprintf) : Traced Effect Kprintf := do
  let edge ← add k.cursorX fontWidth
  if k.fbWidth < edge then do
    let y ← add k.cursorY fontHeight
    pure { k with cursorX := 0#32, cursorY := y }
  else pure k

def scrollUp (k : Kprintf) : Traced Effect Kprintf := do
  let edge ← add k.cursorY fontHeight
  if k.fbHeight < edge then do
    let k ← kprintfScroll k
    let y ← sub k.cursorY fontHeight
    pure { k with cursorY := y }
  else pure k

def printChar (k : Kprintf) (c : Byte) : Traced Effect Kprintf :=
  if k.framebuffer = 0#64 then
    let k := uartPutc c k
    pure (if c = newline then uartPutc carriageReturn k else k)
  else do
    let k ← advanceCursor c k
    let k ← wrapLine k
    scrollUp k

def kprintfVarg (buffer : CString) (k : Kprintf) : Traced Effect Kprintf := buffer.chars.foldlM printChar k

/-! Without its events each is the function it is named after. -/

variable {k : Kprintf} {c : Byte} {x y px py color : BitVec 32} {m : Memory} {words : Nat}

@[simp] theorem value_add (a b : BitVec 32) : (add a b).value = a + b := rfl
@[simp] theorem value_sub (a b : BitVec 32) : (sub a b).value = a - b := rfl
@[simp] theorem value_mul (a b : BitVec 32) : (mul a b).value = a * b := rfl

theorem drawPixel_value : (drawPixel k px py color m).value = Debug.drawPixel k px py color m := by
  rw [drawPixel, Debug.drawPixel]
  split_ifs <;> simp

theorem drawChar_value : (kprintfDrawChar x y c color k).value = Debug.kprintfDrawChar x y c color k := by
  have pixel (row col : Nat) (m : Memory) :
      (if lit c row col then do
          let px ← add x (BitVec.ofNat 32 col)
          let py ← add y (BitVec.ofNat 32 row)
          drawPixel k px py color m
        else pure m : Traced Effect Memory).value =
      if lit c row col then Debug.drawPixel k (x + BitVec.ofNat 32 col) (y + BitVec.ofNat 32 row) color m else m := by
    split_ifs
    · simp [drawPixel_value]
    · simp
  rw [kprintfDrawChar, Debug.kprintfDrawChar]
  split_ifs
  · simp
  · simp
  · simp [pixel]

theorem scroll_value : (kprintfScroll k).value = Debug.kprintfScroll k := by
  rw [kprintfScroll, Debug.kprintfScroll]
  split_ifs <;> simp

theorem advanceCursor_value : (advanceCursor c k).value = Debug.advanceCursor c k := by
  rw [advanceCursor, Debug.advanceCursor]
  split_ifs <;> simp [drawChar_value]

theorem wrapLine_value : (wrapLine k).value = Debug.wrapLine k := by
  rw [wrapLine, Debug.wrapLine, value_bind, value_add]
  split_ifs <;> simp

theorem scrollUp_value : (scrollUp k).value = Debug.scrollUp k := by
  rw [scrollUp, Debug.scrollUp, value_bind, value_add]
  split_ifs <;> simp [scroll_value]

theorem printChar_value (k : Kprintf) (c : Byte) : (printChar k c).value = Debug.printChar k c := by
  rw [printChar, Debug.printChar]
  split_ifs <;> simp [advanceCursor_value, wrapLine_value, scrollUp_value]

theorem kprintfVarg_value (buffer : CString) (k : Kprintf) :
    (kprintfVarg buffer k).value = Debug.kprintfVarg buffer k := by
  simp [kprintfVarg, Debug.kprintfVarg, printChar_value]

/-! Where the events are fine. -/

section
variable (shaped : k.Shaped)
include shaped

theorem drawPixel_fine : Logs (Effect.Fine (k.fbHeight.toNat * k.stride.toNat)) (drawPixel k px py color m) := by
  rw [drawPixel]
  split_ifs with inside
  · obtain ⟨inX, inY⟩ := inside
    have inRow : px.toNat < k.stride.toNat := Nat.lt_of_lt_of_le inX shaped.width
    have row := row_inside k.stride.toNat (show py.toNat < k.fbHeight.toNat from inY)
    have words := shaped.words
    have index := Kprintf.index_toNat shaped inRow inY
    have product : (py * k.stride).toNat = py.toNat * k.stride.toNat := by
      rw [BitVec.toNat_mul]
      exact Nat.mod_eq_of_lt (by omega)
    simp only [logs_bind, mul, add, touch, logs_event, logs_pure, and_true, Effect.Fine]
    rw [product, index]
    omega
  · exact logs_pure m

theorem drawChar_fine (inX : x.toNat + 8 ≤ k.fbWidth.toNat) (inY : y.toNat + 8 ≤ k.fbHeight.toNat) :
    Logs (Effect.Fine (k.fbHeight.toNat * k.stride.toNat)) (kprintfDrawChar x y c color k) := by
  have small := k.fbWidth.isLt
  have short := k.fbHeight.isLt
  rw [kprintfDrawChar, if_neg shaped.nonnull]
  split_ifs
  · exact logs_pure k
  · refine (logs_bind _ _).mpr ⟨logs_foldlM_any (fun row rowMember m => ?_) _, logs_pure _⟩
    refine logs_foldlM_any (fun col colMember m => ?_) _
    have rowBound : row < 8 := List.mem_range.mp rowMember
    have colBound : col < 8 := List.mem_range.mp colMember
    split_ifs
    · simp only [logs_bind, add, logs_event, Effect.Fine, BitVec.toNat_ofNat]
      exact ⟨by omega, by omega, drawPixel_fine shaped⟩
    · exact logs_pure m

theorem scroll_fine : Logs (Effect.Fine (k.fbHeight.toNat * k.stride.toNat)) (kprintfScroll k) := by
  have words := shaped.words
  have tall := shaped.height
  have split : (k.fbHeight.toNat - 8) * k.stride.toNat + 8 * k.stride.toNat = k.fbHeight.toNat * k.stride.toNat := by
    rw [← Nat.add_mul, Nat.sub_add_cancel tall]
  have line : 8 * k.fbWidth.toNat ≤ k.fbHeight.toNat * k.stride.toNat := Nat.mul_le_mul tall shaped.width
  have top := Kprintf.fontHeight_mul shaped
  have kept := Kprintf.kept_toNat shaped
  have less : (k.fbHeight - fontHeight).toNat = k.fbHeight.toNat - 8 :=
    BitVec.toNat_sub_of_le (show fontHeight ≤ k.fbHeight from tall)
  have moved : ((k.fbHeight - fontHeight) * k.stride * 4#32).toNat = 4 * ((k.fbHeight - fontHeight) * k.stride).toNat :=
    Kprintf.bytes_toNat (by rw [kept]; omega)
  have cleared : (fontHeight * k.stride * 4#32).toNat = 4 * (fontHeight * k.stride).toNat :=
    Kprintf.bytes_toNat (by rw [top]; omega)
  rw [kprintfScroll, if_neg shaped.nonnull]
  simp only [logs_bind, mul, sub, touch, logs_event, logs_pure, and_true, Effect.Fine]
  rw [moved, cleared, kept, top, less]
  have font : fontHeight.toNat = 8 := rfl
  have four : (4#32).toNat = 4 := rfl
  have zero : (0#32).toNat = 0 := rfl
  rw [font, four, zero]
  refine ⟨by omega, by omega, tall, by omega, by omega, ?_⟩
  omega

end

end Traced

namespace Kprintf

/-- The cell at the cursor is on the screen. -/
structure InBounds (k : Kprintf) : Prop where
  column : k.cursorX.toNat + fontWidth.toNat ≤ k.fbWidth.toNat
  row : k.cursorY.toNat + fontHeight.toNat ≤ k.fbHeight.toNat

/-- The cursor is on a row of the screen, or right below the last one. -/
def OnRow (k : Kprintf) : Prop :=
  k.cursorY.toNat + 8 ≤ k.fbHeight.toNat ∨ 8 ≤ k.cursorY.toNat ∧ k.cursorY.toNat ≤ k.fbHeight.toNat

/-- After a character, before the checks: at most one of the two edges is reached. -/
structure Advanced (k : Kprintf) : Prop where
  column : k.cursorX.toNat ≤ k.fbWidth.toNat
  row : k.OnRow
  apart : k.cursorX.toNat + 8 ≤ k.fbWidth.toNat ∨ k.cursorY.toNat + 8 ≤ k.fbHeight.toNat

variable {k k' : Kprintf} {c : Byte}

theorem Shaped.of_geometry (shaped : k.Shaped) (same : k'.geometry = k.geometry) : k'.Shaped := by
  obtain ⟨fb, width, height, pitch, _, _, _, _⟩ := k
  obtain ⟨fb', width', height', pitch', _, _, _, _⟩ := k'
  simp only [geometry, Prod.mk.injEq] at same
  obtain ⟨rfl, rfl, rfl, rfl⟩ := same
  exact ⟨shaped.nonnull, shaped.words, shaped.width, shaped.height, shaped.column⟩

theorem sizes_of_geometry (same : k'.geometry = k.geometry) :
    k'.fbWidth = k.fbWidth ∧ k'.fbHeight = k.fbHeight ∧ k'.stride = k.stride := by
  simp only [geometry, Prod.mk.injEq] at same
  exact ⟨same.2.1, same.2.2.1, by rw [stride, same.2.2.2, ← stride]⟩

/-- A step of eight on a screen of this shape does not wrap. -/
theorem toNat_add_font {a b : BitVec 32} (small : a.toNat ≤ b.toNat) (bound : b.toNat < 2 ^ 27) :
    (a + 8#32).toNat = a.toNat + 8 := by
  rw [BitVec.toNat_add]
  exact Nat.mod_eq_of_lt (by change _ + 8 < _; omega)

theorem advanceCursor_bounds (shaped : k.Shaped) (inside : k.InBounds) : (advanceCursor c k).Advanced := by
  have column : k.cursorX.toNat + 8 ≤ k.fbWidth.toNat := inside.column
  have row : k.cursorY.toNat + 8 ≤ k.fbHeight.toNat := inside.row
  have wide := shaped.column
  have same : (advanceCursor c k).geometry = k.geometry := advanceCursor_geometry
  have down : (k.cursorY + fontHeight).toNat = k.cursorY.toNat + 8 := toNat_add_font (by omega) shaped.small_height
  have right : (k.cursorX + fontWidth).toNat = k.cursorX.toNat + 8 := toNat_add_font (by omega) shaped.small_width
  rw [advanceCursor]
  split_ifs
  · refine ⟨Nat.zero_le _, .inr ?_, .inl ?_⟩
    · dsimp only
      omega
    · exact wide
  · obtain ⟨sameX, sameY⟩ := drawChar_cursor (k := k) (c := c) k.cursorX k.cursorY 0xFFFFFFFF#32
    have sizes := drawChar_geometry (k := k) (c := c) k.cursorX k.cursorY 0xFFFFFFFF#32
    simp only [geometry, Prod.mk.injEq] at sizes
    obtain ⟨_, width, height, _⟩ := sizes
    refine ⟨?_, .inl ?_, .inr ?_⟩
    · dsimp only
      rw [sameX, width]
      omega
    · dsimp only
      rwa [sameY, height]
    · dsimp only
      rwa [sameY, height]

theorem wrapLine_bounds (shaped : k.Shaped) (advanced : k.Advanced) :
    (wrapLine k).cursorX.toNat + 8 ≤ (wrapLine k).fbWidth.toNat ∧ (wrapLine k).OnRow := by
  have wide := shaped.column
  have right : (k.cursorX + fontWidth).toNat = k.cursorX.toNat + 8 := toNat_add_font advanced.column shaped.small_width
  rw [wrapLine]
  split_ifs with full
  · have full : k.fbWidth.toNat < (k.cursorX + fontWidth).toNat := full
    have row := advanced.apart.resolve_left (by omega)
    have down : (k.cursorY + fontHeight).toNat = k.cursorY.toNat + 8 := toNat_add_font (by omega) shaped.small_height
    refine ⟨wide, .inr ?_⟩
    dsimp only
    omega
  · have room : ¬ k.fbWidth.toNat < (k.cursorX + fontWidth).toNat := full
    exact ⟨by omega, advanced.row⟩

theorem scrollUp_bounds (shaped : k.Shaped) (column : k.cursorX.toNat + 8 ≤ k.fbWidth.toNat) (row : k.OnRow) :
    (scrollUp k).InBounds := by
  have tall := shaped.height
  have inScreen : k.cursorY.toNat ≤ k.fbHeight.toNat := by
    rcases row with above | below
    · omega
    · exact below.2
  have down : (k.cursorY + fontHeight).toNat = k.cursorY.toNat + 8 := toNat_add_font inScreen shaped.small_height
  have font : fontHeight.toNat = 8 := rfl
  rw [scrollUp]
  split_ifs with full
  · have full : k.fbHeight.toNat < (k.cursorY + fontHeight).toNat := full
    have below := row.resolve_left (by omega)
    have up : (k.cursorY - fontHeight).toNat = k.cursorY.toNat - 8 := BitVec.toNat_sub_of_le below.1
    rw [kprintfScroll, if_neg shaped.nonnull]
    refine ⟨column, ?_⟩
    dsimp only
    omega
  · have room : ¬ k.fbHeight.toNat < (k.cursorY + fontHeight).toNat := full
    exact ⟨column, by omega⟩

end Kprintf

namespace Traced
variable {k : Kprintf} {c : Byte}

theorem advanceCursor_fine (shaped : k.Shaped) (inside : k.InBounds) :
    Logs (Effect.Fine (k.fbHeight.toNat * k.stride.toNat)) (advanceCursor c k) := by
  have column : k.cursorX.toNat + 8 ≤ k.fbWidth.toNat := inside.column
  have row : k.cursorY.toNat + 8 ≤ k.fbHeight.toNat := inside.row
  have narrow := shaped.small_width
  have short := shaped.small_height
  rw [advanceCursor]
  split_ifs
  · simp only [logs_bind, add, logs_event, logs_pure, and_true, Effect.Fine]
    change _ + 8 < _
    omega
  · simp only [logs_bind, add, logs_event, logs_pure, and_true, Effect.Fine, drawChar_value]
    refine ⟨drawChar_fine shaped column row, ?_⟩
    rw [(Kprintf.drawChar_cursor _ _ _).1]
    change _ + 8 < _
    omega

theorem wrapLine_fine (shaped : k.Shaped) (advanced : k.Advanced) :
    Logs (Effect.Fine (k.fbHeight.toNat * k.stride.toNat)) (wrapLine k) := by
  have column := advanced.column
  have narrow := shaped.small_width
  have short := shaped.small_height
  have right : (k.cursorX + fontWidth).toNat = k.cursorX.toNat + 8 := Kprintf.toNat_add_font column narrow
  rw [wrapLine, logs_bind, value_add]
  refine ⟨(logs_event _ _).mpr (by change _ + 8 < _; omega), ?_⟩
  split_ifs with full
  · have full : k.fbWidth.toNat < (k.cursorX + fontWidth).toNat := full
    have row := advanced.apart.resolve_left (by omega)
    simp only [logs_bind, add, logs_event, logs_pure, and_true, Effect.Fine]
    change _ + 8 < _
    omega
  · exact logs_pure k

theorem scrollUp_fine (shaped : k.Shaped) (row : k.OnRow) :
    Logs (Effect.Fine (k.fbHeight.toNat * k.stride.toNat)) (scrollUp k) := by
  have short := shaped.small_height
  have inScreen : k.cursorY.toNat ≤ k.fbHeight.toNat := by
    rcases row with above | below
    · omega
    · exact below.2
  have down : (k.cursorY + fontHeight).toNat = k.cursorY.toNat + 8 := Kprintf.toNat_add_font inScreen short
  rw [scrollUp, logs_bind, value_add]
  refine ⟨(logs_event _ _).mpr (by change _ + 8 < _; omega), ?_⟩
  split_ifs with full
  · have full : k.fbHeight.toNat < (k.cursorY + fontHeight).toNat := full
    have below := row.resolve_left (by omega)
    simp only [logs_bind, sub, logs_event, logs_pure, and_true, scroll_value, Effect.Fine]
    refine ⟨scroll_fine shaped, ?_⟩
    rw [Debug.kprintfScroll, if_neg shaped.nonnull]
    exact below.1
  · exact logs_pure k

/-- One character. -/
theorem printChar_fine (shaped : k.Shaped) (inside : k.InBounds) (c : Byte) :
    Logs (Effect.Fine (k.fbHeight.toNat * k.stride.toNat)) (printChar k c) := by
  have advanced := Kprintf.advanceCursor_bounds shaped inside (c := c)
  have same1 : (Debug.advanceCursor c k).geometry = k.geometry := Kprintf.advanceCursor_geometry
  have shaped1 := shaped.of_geometry same1
  have wrapped := (Kprintf.wrapLine_bounds shaped1 advanced).2
  have same2 : (Debug.wrapLine (Debug.advanceCursor c k)).geometry = k.geometry := Kprintf.wrapLine_geometry.trans same1
  have shaped2 := shaped.of_geometry same2
  obtain ⟨_, height1, stride1⟩ := Kprintf.sizes_of_geometry same1
  obtain ⟨_, height2, stride2⟩ := Kprintf.sizes_of_geometry same2
  have wrap := wrapLine_fine shaped1 advanced
  have scroll := scrollUp_fine shaped2 wrapped
  rw [height1, stride1] at wrap
  rw [height2, stride2] at scroll
  rw [printChar, if_neg shaped.nonnull]
  simp only [logs_bind, advanceCursor_value, wrapLine_value]
  exact ⟨advanceCursor_fine shaped inside, wrap, scroll⟩

end Traced

namespace Kprintf
variable {k k' : Kprintf} {c : Byte}

theorem printChar_bounds (shaped : k.Shaped) (inside : k.InBounds) (c : Byte) : (printChar k c).InBounds := by
  have advanced := advanceCursor_bounds shaped inside (c := c)
  have same1 : (advanceCursor c k).geometry = k.geometry := advanceCursor_geometry
  obtain ⟨column, row⟩ := wrapLine_bounds (shaped.of_geometry same1) advanced
  have same2 : (wrapLine (advanceCursor c k)).geometry = k.geometry := wrapLine_geometry.trans same1
  rw [printChar, if_neg shaped.nonnull]
  exact scrollUp_bounds (shaped.of_geometry same2) column row

end Kprintf

/-- A screen of at least one cell whose rows of `pitch` bytes have room for its pixels. -/
structure Geometry (width height pitch : BitVec 32) : Prop where
  wide : 8 ≤ width.toNat
  tall : 8 ≤ height.toNat
  whole : pitch.toNat % 4 = 0
  inPitch : 4 * width.toNat ≤ pitch.toNat
  bytes : height.toNat * pitch.toNat < 2 ^ 32

section
variable {fb : Addr} {width height pitch : BitVec 32}

theorem Geometry.shaped (geometry : Geometry width height pitch) (nonnull : fb ≠ 0#64) (k : Kprintf) :
    (kprintfInit fb width height pitch k).Shaped := by
  have stride : (kprintfInit fb width height pitch k).stride.toNat = pitch.toNat / 4 := BitVec.toNat_udiv
  have whole := geometry.whole
  have row : pitch.toNat = 4 * (pitch.toNat / 4) := by omega
  have area : height.toNat * pitch.toNat = 4 * (height.toNat * (pitch.toNat / 4)) := by
    rw [Nat.mul_left_comm, ← row]
  have bytes := geometry.bytes
  have inPitch := geometry.inPitch
  refine ⟨nonnull, ?_, ?_, geometry.tall, geometry.wide⟩
  · rw [stride]
    exact area ▸ bytes
  · rw [stride]
    change width.toNat ≤ _
    omega

/-- The console between two characters. -/
structure Kprintf.Settled (width height : BitVec 32) (words : Nat) (k : Kprintf) : Prop where
  shaped : k.Shaped
  inside : k.InBounds
  width : k.fbWidth = width
  height : k.fbHeight = height
  words : k.fbHeight.toNat * k.stride.toNat = words

namespace Kprintf.Settled
variable {words : Nat} {k : Kprintf}

theorem start (geometry : Geometry width height pitch) (nonnull : fb ≠ 0#64) (k : Kprintf) :
    (kprintfInit fb width height pitch k).Settled width height (height.toNat * (pitch.toNat / 4)) := by
  have stride : (kprintfInit fb width height pitch k).stride.toNat = pitch.toNat / 4 := BitVec.toNat_udiv
  refine ⟨geometry.shaped nonnull k, ⟨?_, ?_⟩, rfl, rfl, by rw [stride]; rfl⟩
  · exact geometry.wide
  · exact geometry.tall

theorem step (settled : k.Settled width height words) (c : Byte) : (printChar k c).Settled width height words := by
  have same : (printChar k c).geometry = k.geometry := printChar_geometry
  obtain ⟨sameWidth, sameHeight, sameStride⟩ := sizes_of_geometry same
  refine ⟨settled.shaped.of_geometry same, printChar_bounds settled.shaped settled.inside c, ?_, ?_, ?_⟩
  · rw [sameWidth, settled.width]
  · rw [sameHeight, settled.height]
  · rw [sameHeight, sameStride, settled.words]

theorem fine (settled : k.Settled width height words) (c : Byte) :
    Logs (Effect.Fine words) (Traced.printChar k c) := by
  rw [← settled.words]
  exact Traced.printChar_fine settled.shaped settled.inside c

end Kprintf.Settled
end

/-- Whatever is printed, the cursor's cell stays on the screen, nothing wraps, and no word beyond the
framebuffer is touched. -/
theorem console_in_bounds {fb : Addr} {width height pitch : BitVec 32} (nonnull : fb ≠ 0#64)
    (geometry : Geometry width height pitch) (k : Kprintf) (strings : List CString) :
    let start := kprintfInit fb width height pitch k
    let traced := strings.foldlM (fun k s => Traced.kprintfVarg s k) start
    traced.value = strings.foldl (fun k s => kprintfVarg s k) start ∧
      Logs (Effect.Fine (height.toNat * (pitch.toNat / 4))) traced ∧
      Always printChar (fun k => k.cursorX.toNat + fontWidth.toNat ≤ width.toNat ∧
        k.cursorY.toNat + fontHeight.toNat ≤ height.toNat) start (strings.flatMap CString.chars) := by
  intro start traced
  have settled : start.Settled width height (height.toNat * (pitch.toNat / 4)) := .start geometry nonnull k
  refine ⟨?_, ?_, ?_⟩
  · simp [traced, Traced.kprintfVarg_value]
  · refine (logs_foldlM (Kprintf.Settled width height (height.toNat * (pitch.toNat / 4)))
      (fun s _ k settled => ?_) settled).1
    refine logs_foldlM _ (fun c _ k settled => ⟨settled.fine c, ?_⟩) settled
    rw [Traced.printChar_value]
    exact settled.step c
  · have keeps : ∀ k c, k.Settled width height (height.toNat * (pitch.toNat / 4)) → True →
        (printChar k c).Settled width height (height.toNat * (pitch.toNat / 4)) := fun k c settled _ => settled.step c
    refine (always_of_admitted keeps settled admitted_true).mono fun k settled => ?_
    rw [← settled.width, ← settled.height]
    exact ⟨settled.inside.column, settled.inside.row⟩

theorem console_in_bounds_sixteen :
    let start := kprintfInit 0x1000#64 20#32 19#32 96#32 unset
    let traced := [letter, marks].foldlM (fun k s => Traced.kprintfVarg s k) start
    traced.value = [letter, marks].foldl (fun k s => kprintfVarg s k) start ∧
      Logs (Effect.Fine ((19#32).toNat * ((96#32).toNat / 4))) traced ∧
      Always printChar (fun k => k.cursorX.toNat + fontWidth.toNat ≤ (20#32).toNat ∧
        k.cursorY.toNat + fontHeight.toNat ≤ (19#32).toNat) start ([letter, marks].flatMap CString.chars) :=
  console_in_bounds (by decide) ⟨by decide, by decide, by decide, by decide, by decide⟩ unset [letter, marks]

end AstralOS.Debug
