import AstralOS.Debug.Console
import AstralOS.Lib.Conversions

/-! `kprintf` from a format and its arguments to the screen, or to the UART while there is no screen. -/
namespace AstralOS.Debug
open Foundation AstralOS.Lib

def kprintfBufferSize : Nat := 256

/-- A call, with what `buffer` and `num_buf` hold before they are written. -/
structure KprintfCall where
  format : Bytes
  ap : VaList
  buffer : Bytes
  numBuf : Bytes

/-- `kprintf`, the loop in `vsnprintf` cut off after `fuel` turns. -/
def kprintf (fuel : Nat) (c : KprintfCall) (k : Kprintf) : Option Kprintf :=
  (vsnprintf fuel c.buffer kprintfBufferSize c.format c.ap c.numBuf).map fun r =>
    kprintfVarg (CString.ofField kprintfBufferSize r.str) k

def kprintfAll (fuel : Nat) (calls : List KprintfCall) (k : Kprintf) : Option Kprintf :=
  calls.foldlM (fun k c => kprintf fuel c k) k

/-- `fb[i] = 0x00000000` in the loop of `kernel_main`. -/
def clearFramebuffer (fb : Addr) (height pitch : BitVec 32) (m : Memory) : Memory :=
  (List.range ((height * pitch) / 4#32).toNat).foldl
    (fun m i => store 4 m (fb + BitVec.ofNat 64 (4 * i)) (0#32 : BitVec 32)) m

/-- How `kernel_main` sets the console up. -/
def startConsole (fb : Addr) (width height pitch : BitVec 32) (k : Kprintf) : Kprintf :=
  let k := kprintfInit fb width height pitch k
  { k with mem := clearFramebuffer fb height pitch k.mem }

/-- What is printed of a text in a buffer of `size` bytes: up to the end of the buffer, or to a zero
that a `%c` has put in. -/
def printed (size : Nat) (text : List Byte) : CString :=
  ⟨(text.take (size - 1)).takeWhile (· ≠ 0#8), fun c member => by simpa using List.mem_takeWhile_imp member⟩

/-- A call whose format asks for conversions that are printed as they should be, with their arguments. -/
structure PrintCall where
  call : KprintfCall
  items : List Conversion
  spells : Spells call.format (written items)
  passed : Arguments call.ap 0 items
  faithful : ∀ item ∈ items, item.Faithful

def PrintCall.text (p : PrintCall) : CString := printed kprintfBufferSize (p.items.flatMap Conversion.rendering)

/-- The text of some calls, one after the other. -/
def textOf (calls : List PrintCall) : List Byte := calls.flatMap fun p => p.text.chars

section
variable {f : Bytes} {size limit : Nat} {text chars : List Byte}

theorem charsIn_eq (short : chars.length < limit) (bytes : ∀ i < chars.length, f i = chars.getD i 0#8)
    (ended : f chars.length = 0#8) : charsIn limit f = chars.takeWhile (· ≠ 0#8) := by
  induction chars generalizing f limit with
  | nil =>
      obtain ⟨limit, rfl⟩ := Nat.exists_eq_add_of_le' (Nat.one_le_of_lt short)
      rw [charsIn, if_pos (show f 0 = 0#8 from ended), List.takeWhile_nil]
  | cons c rest ih =>
      obtain ⟨limit, rfl⟩ := Nat.exists_eq_add_of_le' (Nat.one_le_of_lt short)
      have first : f 0 = c := bytes 0 (Nat.succ_pos _)
      rw [charsIn, first, List.takeWhile_cons]
      by_cases zero : c = 0#8
      · rw [if_pos zero, if_neg (by simpa using zero)]
      · rw [if_neg zero, if_pos (by simpa using zero)]
        refine congrArg _ (ih (Nat.lt_of_succ_lt_succ short) (fun i inside => ?_) ?_)
        · have later := bytes (i + 1) (Nat.succ_lt_succ inside)
          rw [Bytes.drop, Nat.add_comm]
          exact later
        · rw [Bytes.drop, Nat.add_comm]
          exact ended

/-- The string that `vsnprintf` leaves in the buffer. -/
theorem cut_string {str : Bytes} {r : Printed} (cut : Cut size str text r) (some_ : 0 < size) :
    CString.ofField size r.str = printed size text := by
  have count : (text.take (size - 1)).length = min text.length (size - 1) := by
    rw [List.length_take, Nat.min_comm]
  have short : (text.take (size - 1)).length < size := by omega
  have bytes (i : Nat) (inside : i < (text.take (size - 1)).length) :
      r.str i = (text.take (size - 1)).getD i 0#8 := by
    rw [count] at inside
    rw [cut.bytes i inside, List.getD_eq_getElem?_getD, List.getD_eq_getElem?_getD, List.getElem?_take_of_lt (by omega)]
  exact CString.ext (charsIn_eq short bytes (count ▸ cut.ended))

end

/-- With turns enough a call prints its text. -/
theorem PrintCall.prints (p : PrintCall) :
    ∃ enough, ∀ fuel, enough ≤ fuel → ∀ k, kprintf fuel p.call k = some (kprintfVarg p.text k) := by
  have paired : endsUnpaired (written p.items) = false := congrArg Prod.snd (pieces_written p.items)
  obtain ⟨r, ⟨enough, ran⟩, cut, _⟩ :=
    vsnprintf_cut p.call.buffer p.call.ap p.call.numBuf (by decide : 0 < kprintfBufferSize) p.spells paired
  have text : texts p.call.ap 0 (pieces (written p.items).chars).1 = p.items.flatMap Conversion.rendering := by
    rw [pieces_written]
    rcases texts_written p.passed with ⟨_, same⟩ | ⟨unfaithful, _⟩
    · exact same
    · exact absurd p.faithful unfaithful
  rw [text] at cut
  refine ⟨enough, fun fuel more k => ?_⟩
  obtain ⟨q, loop, rfl⟩ := Option.map_eq_some_iff.mp ran
  rw [kprintf, vsnprintf, printLoop_more more loop, Option.map_some, Option.map_some, cut_string cut (by decide), PrintCall.text]

/-- So do any number of them. -/
theorem kprintfAll_prints (calls : List PrintCall) : ∃ enough, ∀ fuel, enough ≤ fuel → ∀ k,
    kprintfAll fuel (calls.map PrintCall.call) k = some ((textOf calls).foldl printChar k) := by
  induction calls with
  | nil => exact ⟨0, fun _ _ _ => rfl⟩
  | cons p rest ih =>
      obtain ⟨enough, prints⟩ := p.prints
      obtain ⟨enough', later⟩ := ih
      refine ⟨max enough enough', fun fuel more k => ?_⟩
      have first := prints fuel (Nat.le_trans (Nat.le_max_left _ _) more) k
      have then_ := later fuel (Nat.le_trans (Nat.le_max_right _ _) more) (kprintfVarg p.text k)
      rw [List.map_cons, kprintfAll, List.foldlM_cons, first]
      have split : textOf (p :: rest) = p.text.chars ++ textOf rest := List.flatMap_cons
      rw [split, List.foldl_append]
      exact then_

/-! On the screen. -/

/-- A framebuffer that `kernel_main` may be given. -/
structure Mode where
  fb : Addr
  width : BitVec 32
  height : BitVec 32
  pitch : BitVec 32
  nonnull : fb ≠ 0#64
  wide : 8 ≤ width.toNat
  tall : 8 ≤ height.toNat
  whole : pitch.toNat % 4 = 0
  inPitch : 4 * width.toNat ≤ pitch.toNat
  bytes : height.toNat * pitch.toNat < 2 ^ 32
  fits : fb.toNat + height.toNat * pitch.toNat ≤ 2 ^ 64

namespace Mode

/-- The console as `kernel_main` sets it up. -/
def start (d : Mode) (k : Kprintf) : Kprintf := startConsole d.fb d.width d.height d.pitch k

variable (d : Mode) (k : Kprintf)

theorem stride : (d.start k).stride.toNat = d.pitch.toNat / 4 := BitVec.toNat_udiv

theorem row : d.pitch.toNat = 4 * (d.start k).stride.toNat := by
  have := d.stride k
  have := d.whole
  omega

theorem area : d.height.toNat * d.pitch.toNat = 4 * (d.height.toNat * (d.start k).stride.toNat) := by
  rw [d.row k]
  exact Nat.mul_left_comm ..

theorem sound : (d.start k).Sound := {
  screen := ⟨d.nonnull, d.area k ▸ d.bytes, d.area k ▸ d.fits⟩
  width := by
    have := d.row k
    have := d.inPitch
    exact show d.width.toNat ≤ (d.start k).stride.toNat by omega
  height := d.tall
  column := d.wide }

end Mode

/-- Words stored from the start of the framebuffer on stay zero. -/
theorem clear_words {fb : Addr} {m : Memory} {n : Nat} (fits : fb.toNat + 4 * n ≤ 2 ^ 64) {i : Nat} (inside : i < n) :
    load 32 4 ((List.range n).foldl (fun m i => store 4 m (fb + BitVec.ofNat 64 (4 * i)) (0#32 : BitVec 32)) m)
      (fb + BitVec.ofNat 64 (4 * i)) = 0#32 := by
  induction n with
  | zero => exact absurd inside (Nat.not_lt_zero i)
  | succ n ih =>
      rw [List.range_succ, List.foldl_append, List.foldl_cons, List.foldl_nil]
      by_cases last : i = n
      · rw [last]
        exact load_store_same (by decide) (by decide) _ _ _
      · have at_ := toNat_add_ofNat (a := fb) (i := 4 * i) (by omega)
        have stored := toNat_add_ofNat (a := fb) (i := 4 * n) (by omega)
        rw [load_store_disjoint (by omega) (by omega) (by omega)]
        exact ih (by omega) (by omega)

/-- After `kernel_main` has cleared the framebuffer the screen shows no text. -/
theorem Mode.start_shows (d : Mode) (k : Kprintf) : (d.start k).Shows ⟨[], []⟩ := by
  have sound := d.sound k
  have count : ((d.height * d.pitch) / 4#32).toNat = d.height.toNat * (d.start k).stride.toNat := by
    have area := d.area k
    have bytes := d.bytes
    rw [BitVec.toNat_udiv, BitVec.toNat_mul, Nat.mod_eq_of_lt bytes, area]
    exact Nat.mul_div_cancel_left _ (by decide)
  refine ⟨sound, rfl, (Nat.mul_eq_zero.mpr (Or.inr (Nat.zero_min _))).symm, fun x inX y inY => ?_⟩
  have inside : y * (d.start k).stride.toNat + x < d.height.toNat * (d.start k).stride.toNat := by
    have := row_inside (d.start k).stride.toNat (show y < d.height.toNat from inY)
    omega
  have blank : Text.shown (d.start k).rows ⟨[], []⟩ = [] ++ [[]] :=
    (shown_eq (t := ⟨[], []⟩) sound.rows_pos).trans (congrArg (· ++ [[]]) List.drop_nil)
  rw [blank, picture_blank]
  exact clear_words (count ▸ sound.screen.fits) (count ▸ inside)

/-- From the formats and their arguments to the pixels: the screen shows the tail of all that the calls
have printed since the boot has cleared it. -/
theorem printed_text_on_screen (d : Mode) (k : Kprintf) (calls : List PrintCall) :
    ∃ enough, ∀ fuel, enough ≤ fuel → ∃ k', kprintfAll fuel (calls.map PrintCall.call) (d.start k) = some k' ∧
      ∀ x < d.width.toNat, ∀ y < d.height.toNat, pixel d.fb d.pitch.toNat k'.mem x y =
        picture ((layOut (d.width.toNat / 8) (textOf calls)).shown (d.height.toNat / 8)) x y := by
  obtain ⟨enough, prints⟩ := kprintfAll_prints calls
  refine ⟨enough, fun fuel more => ⟨_, prints fuel more _, fun x inX y inY => ?_⟩⟩
  have sound := d.sound k
  obtain ⟨last, same⟩ := (d.start_shows k).print (textOf calls) (Kprintf.columns_pos sound)
  have shape := same
  simp only [Kprintf.geometry, Prod.mk.injEq] at shape
  have place : y * d.pitch.toNat + 4 * x = 4 * (y * (d.start k).stride.toNat + x) := by
    rw [d.row k, Nat.mul_left_comm, ← Nat.mul_add]
  have words := last.words x (by
    rw [Kprintf.stride, shape.2.2.2, ← Kprintf.stride]
    exact Nat.lt_of_lt_of_le inX sound.width) y (shape.2.2.1 ▸ inY)
  rw [Kprintf.word_of_geometry same, (Kprintf.rows_of_geometry same).1] at words
  rw [pixel, place]
  exact words

/-! On the serial line. -/

/-- What the UART is sent for a text: a carriage return after each newline. -/
def serialText (chars : List Byte) : List Byte :=
  chars.flatMap fun c => if c = newline then [c, carriageReturn] else [c]

theorem printChar_serial {k : Kprintf} (none_ : k.framebuffer = 0#64) (c : Byte) :
    printChar k c = { k with uart := k.uart ++ serialText [c] } := by
  have sent : serialText [c] = if c = newline then [c, carriageReturn] else [c] := List.append_nil _
  rw [printChar, if_pos none_, sent]
  split
  · change { k with uart := k.uart ++ [c] ++ [carriageReturn] } = _
    rw [List.append_assoc]
    rfl
  · rfl

theorem printChars_serial {k : Kprintf} (none_ : k.framebuffer = 0#64) (chars : List Byte) :
    chars.foldl printChar k = { k with uart := k.uart ++ serialText chars } := by
  induction chars generalizing k with
  | nil => rw [serialText, List.flatMap_nil, List.append_nil, List.foldl_nil]
  | cons c rest ih =>
      have split : serialText (c :: rest) = serialText [c] ++ serialText rest := @List.flatMap_append _ _ [c] rest _
      rw [List.foldl_cons, printChar_serial none_, split, ← List.append_assoc]
      exact ih none_

end AstralOS.Debug
