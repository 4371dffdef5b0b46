import AstralOS.Lib.CString
import AstralOS.Lib.FontData
import AstralOS.Lib.Mem

/-! `kprintf` on the framebuffer: characters drawn at a cursor, and scrolling by a move of the
pixels. Without a framebuffer everything goes to the UART. -/
namespace AstralOS.Debug
open Foundation AstralOS.Lib

/-- The statics of `kprintf`, the memory the framebuffer is in, and what the UART was sent. -/
structure Kprintf where
  framebuffer : Addr
  fbWidth : BitVec 32
  fbHeight : BitVec 32
  fbPitch : BitVec 32
  cursorX : BitVec 32
  cursorY : BitVec 32
  mem : Memory
  uart : List Byte

namespace Kprintf
variable (k : Kprintf)

/-- Words in a row. -/
def stride : BitVec 32 := k.fbPitch / 4#32

/-- `kprintf_framebuffer + index`; the index is a `uint32_t`. -/
def element (index : BitVec 32) : Addr := k.framebuffer + index.setWidth 64 * 4#64

end Kprintf

def uartPutc (c : Byte) (k : Kprintf) : Kprintf := { k with uart := k.uart ++ [c] }

def glyphRow (c : Byte) (row : Nat) : Byte := (proggyClean.getD (c.toNat - 32) []).getD row 0#8

/-- `glyph[row] & (0x80 >> col)` -/
def lit (c : Byte) (row col : Nat) : Prop := glyphRow c row &&& (0x80#8 >>> col) ≠ 0#8

instance (c : Byte) (row col : Nat) : Decidable (lit c row col) := inferInstanceAs (Decidable (_ ≠ _))

/-- A pixel, unless it is outside the screen. -/
def drawPixel (k : Kprintf) (px py : BitVec 32) (color : BitVec 32) (m : Memory) : Memory :=
  if px < k.fbWidth ∧ py < k.fbHeight then store 4 m (k.element (py * k.stride + px)) color else m

def kprintfDrawChar (x y : BitVec 32) (c : Byte) (color : BitVec 32) (k : Kprintf) : Kprintf :=
  if k.framebuffer = 0#64 then uartPutc c k
  else if c.toNat < 32 ∨ 126 < c.toNat then k
  else { k with
    mem := (List.range fontHeight.toNat).foldl (fun m row =>
      (List.range fontWidth.toNat).foldl (fun m col =>
        if lit c row col then drawPixel k (x + BitVec.ofNat 32 col) (y + BitVec.ofNat 32 row) color m else m) m) k.mem }

def kprintfScroll (k : Kprintf) : Kprintf :=
  if k.framebuffer = 0#64 then k
  else
    let scrollAmount := fontHeight * k.stride
    let kept := (k.fbHeight - fontHeight) * k.stride
    let m := memcpy (kept * 4#32).toNat k.framebuffer (k.element scrollAmount) k.mem
    { k with mem := memset 0#8 (fontHeight * k.stride * 4#32).toNat (k.element kept) m }

def kprintfInit (fb : Addr) (width height pitch : BitVec 32) (k : Kprintf) : Kprintf :=
  { k with
    framebuffer := fb
    fbWidth := width
    fbHeight := height
    fbPitch := pitch
    cursorX := 0#32
    cursorY := 0#32 }

def newline : Byte := 0x0A#8
def carriageReturn : Byte := 0x0D#8

/-- The character and where the cursor goes from it. -/
def advanceCursor (c : Byte) (k : Kprintf) : Kprintf :=
  if c = newline then { k with cursorX := 0#32, cursorY := k.cursorY + fontHeight }
  else
    let k := kprintfDrawChar k.cursorX k.cursorY c 0xFFFFFFFF#32 k
    { k with cursorX := k.cursorX + fontWidth }

def wrapLine (k : Kprintf) : Kprintf :=
  if k.fbWidth < k.cursorX + fontWidth then { k with cursorX := 0#32, cursorY := k.cursorY + fontHeight } else k

def scrollUp (k : Kprintf) : Kprintf :=
  if k.fbHeight < k.cursorY + fontHeight then
    let k := kprintfScroll k
    { k with cursorY := k.cursorY - fontHeight }
  else k

/-- One turn of the loop in `kprintf_varg`. -/
def printChar (k : Kprintf) (c : Byte) : Kprintf :=
  if k.framebuffer = 0#64 then
    let k := uartPutc c k
    if c = newline then uartPutc carriageReturn k else k
  else scrollUp (wrapLine (advanceCursor c k))

/-- `kprintf_varg` from the text that `vsnprintf` has left in the buffer. -/
def kprintfVarg (buffer : CString) (k : Kprintf) : Kprintf := buffer.chars.foldl printChar k

/-! The framebuffer as rows of words. -/

/-- The word `x` of row `y`, with `stride` words to a row. -/
def wordAt (fb : Addr) (stride : Nat) (m : Memory) (x y : Nat) : BitVec 32 :=
  load 32 4 m (fb + BitVec.ofNat 64 (4 * (y * stride + x)))

/-- A framebuffer of `height` rows that fits the address space and 32-bit sizes. -/
structure Screen (fb : Addr) (stride height : Nat) : Prop where
  nonnull : fb ≠ 0#64
  words : 4 * (height * stride) < 2 ^ 32
  fits : fb.toNat + 4 * (height * stride) ≤ 2 ^ 64

section
variable {fb : Addr} {stride height x y px py : Nat} {m : Memory} {v : BitVec 32}

theorem row_inside (stride : Nat) (inside : y < height) : y * stride + stride ≤ height * stride := by
  have := Nat.mul_le_mul_right stride (Nat.succ_le_of_lt inside)
  rwa [Nat.succ_mul] at this

theorem word_address (screen : Screen fb stride height) (inX : x < stride) (inY : y < height) {i : Nat} (inside : i < 4) :
    (fb + BitVec.ofNat 64 (4 * (y * stride + x) + i)).toNat = fb.toNat + 4 * (y * stride + x) + i := by
  have row := row_inside stride inY
  have := screen.fits
  rw [toNat_add_ofNat (by omega), Nat.add_assoc]

/-- Two places in rows have one index only when they are the same place. -/
theorem index_inj (inX : x < stride) (inPx : px < stride) :
    y * stride + x = py * stride + px ↔ x = px ∧ y = py := by
  have positive : 0 < stride := Nat.zero_lt_of_lt inX
  constructor
  · intro same
    have rows : y = py := by
      have := congrArg (· / stride) same
      simpa [Nat.mul_comm _ stride, Nat.mul_add_div positive, Nat.div_eq_of_lt inX, Nat.div_eq_of_lt inPx] using this
    subst rows
    exact ⟨by omega, rfl⟩
  · rintro ⟨rfl, rfl⟩
    rfl

theorem wordAt_store (screen : Screen fb stride height) (inX : x < stride) (inY : y < height)
    (inPx : px < stride) (inPy : py < height) :
    wordAt fb stride (store 4 m (fb + BitVec.ofNat 64 (4 * (py * stride + px))) v) x y =
      if x = px ∧ y = py then v else wordAt fb stride m x y := by
  by_cases same : x = px ∧ y = py
  · obtain ⟨rfl, rfl⟩ := same
    rw [if_pos ⟨rfl, rfl⟩]
    exact load_store_same (by omega) (by omega) _ _ _
  · have apart : y * stride + x ≠ py * stride + px := fun one => same ((index_inj inX inPx).mp one)
    have rowX := row_inside stride inY
    have rowP := row_inside stride inPy
    have fits := screen.fits
    have at_ := toNat_add_ofNat (a := fb) (i := 4 * (y * stride + x)) (by omega)
    have atP := toNat_add_ofNat (a := fb) (i := 4 * (py * stride + px)) (by omega)
    rw [if_neg same]
    exact load_store_disjoint (by omega) (by omega) (by omega)

end

/-- The words of `Q` have taken the colour and the other words of the screen are as they were. -/
def Painted (fb : Addr) (stride height : Nat) (color : BitVec 32) (Q : Nat → Nat → Prop) (m m' : Memory) : Prop :=
  ∀ x < stride, ∀ y < height, (Q x y → wordAt fb stride m' x y = color) ∧
    (¬ Q x y → wordAt fb stride m' x y = wordAt fb stride m x y)

section
variable {fb : Addr} {stride height : Nat} {color : BitVec 32} {m m' m'' : Memory} {Q R : Nat → Nat → Prop}

theorem painted_none (empty : ∀ x y, ¬ Q x y) : Painted fb stride height color Q m m :=
  fun x _ y _ => ⟨fun inside => absurd inside (empty x y), fun _ => rfl⟩

theorem Painted.trans (first : Painted fb stride height color Q m m') (second : Painted fb stride height color R m' m'') :
    Painted fb stride height color (fun x y => Q x y ∨ R x y) m m'' := by
  intro x inX y inY
  have ⟨paint, keep⟩ := first x inX y inY
  have ⟨paint', keep'⟩ := second x inX y inY
  constructor
  · intro either
    by_cases later : R x y
    · exact paint' later
    · rw [keep' later]
      exact paint (either.resolve_right later)
  · intro neither
    rw [keep' fun later => neither (Or.inr later)]
    exact keep fun earlier => neither (Or.inl earlier)

theorem Painted.congr (painted : Painted fb stride height color Q m m') (same : ∀ x y, Q x y ↔ R x y) :
    Painted fb stride height color R m m' :=
  (funext fun x => funext fun y => propext (same x y) : Q = R) ▸ painted

/-- Painting one set after another paints their union. -/
theorem painted_foldl {f : Memory → Nat → Memory} {S : Nat → Nat → Nat → Prop} (steps : List Nat)
    (each : ∀ i ∈ steps, ∀ m, Painted fb stride height color (S i) m (f m i)) :
    Painted fb stride height color (fun x y => ∃ i ∈ steps, S i x y) m (steps.foldl f m) := by
  induction steps generalizing m with
  | nil => exact painted_none fun x y ⟨_, member, _⟩ => absurd member List.not_mem_nil
  | cons i rest ih =>
      have first := each i List.mem_cons_self m
      have second := ih (fun j member => each j (List.mem_cons_of_mem i member)) (m := f m i)
      refine (first.trans second).congr fun x y => ?_
      simp only [List.mem_cons, exists_eq_or_imp]

end

/-- A framebuffer with rows at least as wide as the screen. -/
structure Kprintf.Sound (k : Kprintf) : Prop where
  screen : Screen k.framebuffer k.stride.toNat k.fbHeight.toNat
  width : k.fbWidth.toNat ≤ k.stride.toNat
  height : 8 ≤ k.fbHeight.toNat
  column : 8 ≤ k.fbWidth.toNat

/-- The shape of such a framebuffer, wherever it is. -/
structure Kprintf.Shaped (k : Kprintf) : Prop where
  nonnull : k.framebuffer ≠ 0#64
  words : 4 * (k.fbHeight.toNat * k.stride.toNat) < 2 ^ 32
  width : k.fbWidth.toNat ≤ k.stride.toNat
  height : 8 ≤ k.fbHeight.toNat
  column : 8 ≤ k.fbWidth.toNat

theorem Kprintf.Sound.shaped {k : Kprintf} (sound : k.Sound) : k.Shaped :=
  ⟨sound.screen.nonnull, sound.screen.words, sound.width, sound.height, sound.column⟩

namespace Kprintf
variable {k : Kprintf} {m : Memory} {c : Byte} {x y : BitVec 32} {color : BitVec 32}

theorem element_eq (index : BitVec 32) : k.element index = k.framebuffer + BitVec.ofNat 64 (4 * index.toNat) := by
  have bound := index.isLt
  have scaled : index.setWidth 64 * 4#64 = BitVec.ofNat 64 (4 * index.toNat) := by
    refine BitVec.eq_of_toNat_eq ?_
    rw [BitVec.toNat_mul, BitVec.toNat_setWidth, BitVec.toNat_ofNat, BitVec.toNat_ofNat]
    omega
  rw [element, scaled]

theorem index_toNat (shaped : k.Shaped) {px py : BitVec 32} (inX : px.toNat < k.stride.toNat) (inY : py.toNat < k.fbHeight.toNat) :
    (py * k.stride + px).toNat = py.toNat * k.stride.toNat + px.toNat := by
  have row := row_inside k.stride.toNat inY
  have words := shaped.words
  rw [BitVec.toNat_add, BitVec.toNat_mul, Nat.mod_eq_of_lt (a := py.toNat * k.stride.toNat) (by omega), Nat.mod_eq_of_lt (by omega)]

theorem drawPixel_painted (sound : k.Sound) {px py : BitVec 32} (inX : px.toNat < k.fbWidth.toNat)
    (inY : py.toNat < k.fbHeight.toNat) :
    Painted k.framebuffer k.stride.toNat k.fbHeight.toNat color (fun x y => x = px.toNat ∧ y = py.toNat) m
      (drawPixel k px py color m) := by
  have inRow := Nat.lt_of_lt_of_le inX sound.width
  have stored : drawPixel k px py color m =
      store 4 m (k.framebuffer + BitVec.ofNat 64 (4 * (py.toNat * k.stride.toNat + px.toNat))) color := by
    rw [drawPixel, if_pos ⟨inX, inY⟩, element_eq, index_toNat sound.shaped inRow inY]
  intro x boundX y boundY
  rw [stored, wordAt_store sound.screen boundX boundY inRow inY]
  exact ⟨fun here => if_pos here, fun elsewhere => if_neg elsewhere⟩

/-- The pixels of the glyph of `c` in the cell whose corner is `(left, top)`. -/
def InGlyph (c : Byte) (left top x y : Nat) : Prop :=
  left ≤ x ∧ x < left + 8 ∧ top ≤ y ∧ y < top + 8 ∧ lit c (y - top) (x - left)

theorem drawChar_painted (color : BitVec 32) (sound : k.Sound) (printable : ¬ (c.toNat < 32 ∨ 126 < c.toNat))
    (inX : x.toNat + 8 ≤ k.fbWidth.toNat) (inY : y.toNat + 8 ≤ k.fbHeight.toNat) :
    Painted k.framebuffer k.stride.toNat k.fbHeight.toNat color (InGlyph c x.toNat y.toNat) k.mem
      (kprintfDrawChar x y c color k).mem := by
  have widthBound := k.fbWidth.isLt
  have heightBound := k.fbHeight.isLt
  rw [kprintfDrawChar, if_neg sound.screen.nonnull, if_neg printable]
  have pixels : ∀ row < 8, ∀ col < 8, ∀ m, Painted k.framebuffer k.stride.toNat k.fbHeight.toNat color
      (fun px py => lit c row col ∧ px = x.toNat + col ∧ py = y.toNat + row) m
      (if lit c row col then drawPixel k (x + BitVec.ofNat 32 col) (y + BitVec.ofNat 32 row) color m else m) := by
    intro row rowBound col colBound m
    have atX : (x + BitVec.ofNat 32 col).toNat = x.toNat + col := by
      rw [BitVec.toNat_add, BitVec.toNat_ofNat]
      omega
    have atY : (y + BitVec.ofNat 32 row).toNat = y.toNat + row := by
      rw [BitVec.toNat_add, BitVec.toNat_ofNat]
      omega
    by_cases on : lit c row col
    · rw [if_pos on]
      refine (drawPixel_painted sound (by omega) (by omega)).congr fun px py => ?_
      rw [atX, atY]
      exact (and_iff_right on).symm
    · rw [if_neg on]
      exact painted_none fun px py inside => on inside.1
  have rows := painted_foldl (m := k.mem) (List.range fontHeight.toNat) fun row rowMember m =>
    painted_foldl (m := m) (List.range fontWidth.toNat) fun col colMember m =>
      pixels row (List.mem_range.mp rowMember) col (List.mem_range.mp colMember) m
  refine rows.congr fun px py => ?_
  constructor
  · rintro ⟨row, rowMember, col, colMember, on, rfl, rfl⟩
    have rowBound : row < 8 := List.mem_range.mp rowMember
    have colBound : col < 8 := List.mem_range.mp colMember
    refine ⟨by omega, by omega, by omega, by omega, ?_⟩
    rwa [Nat.add_sub_cancel_left, Nat.add_sub_cancel_left]
  · rintro ⟨left, right, above, below, on⟩
    refine ⟨py - y.toNat, List.mem_range.mpr ?_, px - x.toNat, List.mem_range.mpr ?_, on, by omega, by omega⟩
    · change py - y.toNat < 8
      omega
    · change px - x.toNat < 8
      omega

theorem Shaped.small_height (shaped : k.Shaped) : k.fbHeight.toNat < 2 ^ 27 := by
  have wide := Nat.le_trans shaped.column shaped.width
  have product := Nat.mul_le_mul_left k.fbHeight.toNat wide
  have words := shaped.words
  omega

theorem Shaped.small_width (shaped : k.Shaped) : k.fbWidth.toNat < 2 ^ 27 := by
  have product := Nat.mul_le_mul shaped.height shaped.width
  have words := shaped.words
  omega

theorem fontHeight_mul (shaped : k.Shaped) : (fontHeight * k.stride).toNat = 8 * k.stride.toNat := by
  have rows := Nat.mul_le_mul_right k.stride.toNat shaped.height
  have words := shaped.words
  rw [BitVec.toNat_mul]
  exact Nat.mod_eq_of_lt (by change 8 * _ < _; omega)

theorem kept_toNat (shaped : k.Shaped) :
    ((k.fbHeight - fontHeight) * k.stride).toNat = (k.fbHeight.toNat - 8) * k.stride.toNat := by
  have less : (k.fbHeight - fontHeight).toNat = k.fbHeight.toNat - 8 :=
    BitVec.toNat_sub_of_le (show fontHeight ≤ k.fbHeight from shaped.height)
  have rows := Nat.mul_le_mul_right k.stride.toNat (Nat.sub_le k.fbHeight.toNat 8)
  have words := shaped.words
  rw [BitVec.toNat_mul, less, Nat.mod_eq_of_lt (by omega)]

theorem bytes_toNat {words : BitVec 32} (small : 4 * words.toNat < 2 ^ 32) : (words * 4#32).toNat = 4 * words.toNat := by
  rw [BitVec.toNat_mul, Nat.mul_comm]
  exact Nat.mod_eq_of_lt small

/-- What `kprintfScroll` does, with the sizes in `Nat`. -/
theorem kprintfScroll_mem (sound : k.Sound) :
    (kprintfScroll k).mem = memset 0#8 (4 * (8 * k.stride.toNat))
      (k.framebuffer + BitVec.ofNat 64 (4 * ((k.fbHeight.toNat - 8) * k.stride.toNat)))
      (memcpy (4 * ((k.fbHeight.toNat - 8) * k.stride.toNat)) k.framebuffer
        (k.framebuffer + BitVec.ofNat 64 (4 * (8 * k.stride.toNat))) k.mem) := by
  have words := sound.screen.words
  have rows := Nat.mul_le_mul_right k.stride.toNat sound.height
  have fewer := Nat.mul_le_mul_right k.stride.toNat (Nat.sub_le k.fbHeight.toNat 8)
  have top := fontHeight_mul sound.shaped
  have kept := kept_toNat sound.shaped
  rw [kprintfScroll, if_neg sound.screen.nonnull]
  dsimp only
  rw [bytes_toNat (by omega), bytes_toNat (by omega), element_eq, element_eq, top, kept]

/-- The rows move up by eight, and the last eight become zero. -/
theorem scroll_word (sound : k.Sound) {x y : Nat} (inX : x < k.stride.toNat) (inY : y < k.fbHeight.toNat) :
    wordAt k.framebuffer k.stride.toNat (kprintfScroll k).mem x y =
      if y + 8 < k.fbHeight.toNat then wordAt k.framebuffer k.stride.toNat k.mem x (y + 8) else 0#32 := by
  have screen := sound.screen
  have tall := sound.height
  have split : (k.fbHeight.toNat - 8) * k.stride.toNat + 8 * k.stride.toNat = k.fbHeight.toNat * k.stride.toNat := by
    rw [← Nat.add_mul, Nat.sub_add_cancel tall]
  have fits := screen.fits
  rw [kprintfScroll_mem sound]
  set kept := (k.fbHeight.toNat - 8) * k.stride.toNat with keptEq
  set moved := 8 * k.stride.toNat
  have wide : 0 < k.stride.toNat := Nat.zero_lt_of_lt inX
  have lower := toNat_add_ofNat (a := k.framebuffer) (i := 4 * kept) (by omega)
  by_cases above : y + 8 < k.fbHeight.toNat
  · rw [if_pos above]
    refine le_congr fun i inside => ?_
    have row := row_inside k.stride.toNat (show y < k.fbHeight.toNat - 8 by omega)
    have next : (y + 8) * k.stride.toNat = y * k.stride.toNat + moved := Nat.add_mul ..
    have upper := toNat_add_ofNat (a := k.framebuffer) (i := 4 * moved) (by omega)
    have here := word_address screen inX inY inside
    rw [Memory.view, Memory.view, BitVec.add_assoc, ← BitVec.ofNat_add, BitVec.add_assoc, ← BitVec.ofNat_add, next]
    rw [memset_outside (by omega) (by omega), memcpy_down (by omega) (by omega) (by omega) (by omega)]
    congr 1
    refine BitVec.eq_of_toNat_eq ?_
    rw [BitVec.toNat_add, BitVec.toNat_sub, here, upper, toNat_add_ofNat (by omega)]
    omega
  · rw [if_neg above]
    have zeros : load 32 4 (fun _ => 0#8) (0#64) = 0#32 := by decide
    rw [← zeros]
    refine le_congr fun i inside => ?_
    have row : kept ≤ y * k.stride.toNat := Nat.mul_le_mul_right _ (by omega)
    have rowEnd := row_inside k.stride.toNat inY
    have here := word_address screen inX inY inside
    rw [Memory.view, BitVec.add_assoc, ← BitVec.ofNat_add]
    exact memset_inside (by omega) (by omega) (by omega)

end Kprintf
end AstralOS.Debug
