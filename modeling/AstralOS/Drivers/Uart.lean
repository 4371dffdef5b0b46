import AstralOS.Debug.PrintedText
import AstralOS.Foundation.Delivery

/-! The PL011 UART: `uart_init`, `uart_putc`, and what reaches the line while the device empties its FIFO at
a pace of its own. -/
namespace AstralOS.Drivers
open Foundation AstralOS.Lib AstralOS.Debug

def uartFrTxff : BitVec 32 := 1#32 <<< 5
def uartCrUarten : BitVec 32 := 1#32 <<< 0
def uartCrTxe : BitVec 32 := 1#32 <<< 8
def uartCrRxe : BitVec 32 := 1#32 <<< 9
def uartLcrhFen : BitVec 32 := 1#32 <<< 4
def uartLcrhWlen8bit : BitVec 32 := 3#32 <<< 5

/-- The registers that `uart_init` writes, the transmit FIFO, what has been sent on the line, and what was
written while there was no room for it. -/
structure Pl011 where
  cr : BitVec 32
  ibrd : BitVec 32
  fbrd : BitVec 32
  lcrh : BitVec 32
  fifo : List Byte
  wire : List Byte
  lost : List Byte

namespace Pl011
variable (d : Pl011)

/-- Out of reset: nothing written yet. -/
def reset (cr ibrd fbrd lcrh : BitVec 32) : Pl011 := ⟨cr, ibrd, fbrd, lcrh, [], [], []⟩

/-- The places for characters: `depth` once the FIFOs are enabled. -/
def places (depth : Nat) : Nat := if d.lcrh &&& uartLcrhFen = 0#32 then 1 else depth

/-- A read of `UART_FR`, as far as the driver looks at it. -/
def fr (depth : Nat) : BitVec 32 := if d.fifo.length < d.places depth then 0#32 else uartFrTxff

/-- A write of `UART_DR`. -/
def writeDr (depth : Nat) (v : BitVec 32) : Pl011 :=
  if d.fifo.length < d.places depth then { d with fifo := d.fifo ++ [v.setWidth 8] }
  else { d with lost := d.lost ++ [v.setWidth 8] }

/-- The data bits of a character, five to eight. -/
def dataBits : Nat := 5 + ((d.lcrh >>> 5) &&& 3#32).toNat

def transmits : Prop := d.cr &&& uartCrUarten ≠ 0#32 ∧ d.cr &&& uartCrTxe ≠ 0#32

instance : Decidable d.transmits := inferInstanceAs (Decidable (_ ∧ _))

/-- The device sends the next character, if it is enabled and has one. -/
def transmit : Pl011 :=
  if d.transmits then
    match d.fifo with
    | [] => d
    | c :: rest => { d with fifo := rest, wire := d.wire ++ [c &&& BitVec.ofNat 8 (2 ^ d.dataBits - 1)] }
  else d

end Pl011

def uartInit (d : Pl011) : Pl011 :=
  let d := { d with cr := 0#32 }
  let d := { d with ibrd := 13#32 }
  let d := { d with fbrd := 1#32 }
  let d := { d with lcrh := uartLcrhFen ||| uartLcrhWlen8bit }
  { d with cr := uartCrUarten ||| uartCrTxe ||| uartCrRxe }

/-- The characters that `uart_putc` has still to be called with; `passed` is set once the loop of the
current call has ended. -/
structure Serial where
  device : Pl011
  passed : Bool
  left : List Byte

/-- A turn of the loop in `uart_putc`, or the store after it. -/
def uartPutcTurn (depth : Nat) (s : Serial) : Serial :=
  match s.left with
  | [] => s
  | c :: rest =>
      if s.passed then ⟨s.device.writeDr depth (c.setWidth 32), false, rest⟩
      else if s.device.fr depth &&& uartFrTxff ≠ 0#32 then s
      else { s with passed := true }

/-- The processor's turn, or the device's. -/
def Serial.turn (depth : Nat) (s : Serial) : Turn → Serial
  | .produce => uartPutcTurn depth s
  | .consume => { s with device := s.device.transmit }

/-- The device after some turns, with `text` to be sent from `d` on. -/
def sent (depth : Nat) (d : Pl011) (text : List Byte) (turns : List Turn) : Pl011 :=
  (turns.foldl (Serial.turn depth) ⟨d, false, text⟩).device

/-- In any order of the driver's and the device's turns the line has carried the beginning of the text, and
when both have had theirs in three rounds for every character it has carried it all. -/
structure Delivers (depth : Nat) (d : Pl011) (text : List Byte) : Prop where
  safe : ∀ turns, (sent depth d text turns).wire <+: text ∧ (sent depth d text turns).lost = []
  live : ∀ rounds : List (List Turn), (∀ r ∈ rounds, ∀ t, t ∈ r) → 3 * text.length ≤ rounds.length →
    (sent depth d text rounds.flatten).wire = text

/-- The driver and the device as a line with a queue. -/
def Serial.line (s : Serial) : Line Byte := ⟨s.device.wire, s.device.fifo, s.passed, s.left, s.device.lost⟩

/-- The registers are as `uart_init` leaves them. -/
structure Pl011.Ready (d : Pl011) : Prop where
  lcrh : d.lcrh = uartLcrhFen ||| uartLcrhWlen8bit
  cr : d.cr = uartCrUarten ||| uartCrTxe ||| uartCrRxe

section
variable {d : Pl011} {s : Serial} {depth : Nat}

theorem uartInit_ready (d : Pl011) : (uartInit d).Ready := ⟨rfl, rfl⟩

namespace Pl011

theorem Ready.places (ready : d.Ready) : d.places depth = depth := by
  rw [Pl011.places, ready.lcrh]
  exact if_neg (by decide)

/-- The flag is set when the FIFO is full. -/
theorem Ready.full_iff (ready : d.Ready) : d.fr depth &&& uartFrTxff ≠ 0#32 ↔ ¬ d.fifo.length < depth := by
  rw [fr, ready.places]
  by_cases room : d.fifo.length < depth
  · rw [if_pos room]
    exact iff_of_false (not_not.mpr (by decide)) (not_not.mpr room)
  · rw [if_neg room]
    exact iff_of_true (by decide) room

theorem Ready.transmits (ready : d.Ready) : d.transmits := by
  rw [Pl011.transmits, ready.cr]
  decide

/-- Characters of eight bits go out whole. -/
theorem Ready.mask (ready : d.Ready) (c : Byte) : c &&& BitVec.ofNat 8 (2 ^ d.dataBits - 1) = c := by
  have bits : d.dataBits = 8 := by
    rw [dataBits, ready.lcrh]
    decide
  rw [bits]
  exact BitVec.and_allOnes

end Pl011

theorem putc_look (d : Pl011) (c : Byte) (rest : List Byte) : uartPutcTurn depth ⟨d, false, c :: rest⟩ =
    if d.fr depth &&& uartFrTxff ≠ 0#32 then ⟨d, false, c :: rest⟩ else ⟨d, true, c :: rest⟩ := rfl

theorem putc_store (d : Pl011) (c : Byte) (rest : List Byte) :
    uartPutcTurn depth ⟨d, true, c :: rest⟩ = ⟨d.writeDr depth (c.setWidth 32), false, rest⟩ := rfl

theorem line_mk (d : Pl011) (passed : Bool) (left : List Byte) :
    Serial.line ⟨d, passed, left⟩ = ⟨d.wire, d.fifo, passed, left, d.lost⟩ := rfl

/-- One turn of the driver or the device is that turn of the line. -/
theorem Serial.line_turn (ready : s.device.Ready) (t : Turn) :
    (s.turn depth t).line = s.line.turn depth t ∧ (s.turn depth t).device.Ready := by
  obtain ⟨d, passed, left⟩ := s
  cases t with
  | produce =>
      cases left with
      | nil => exact ⟨rfl, ready⟩
      | cons c rest =>
          rw [turn, Line.turn]
          cases passed with
          | false =>
              rw [putc_look, line_mk d false (c :: rest), Line.produce_look]
              by_cases room : d.fifo.length < depth
              · rw [if_neg (fun set => ready.full_iff.mp set room), decide_eq_true room]
                exact ⟨rfl, ready⟩
              · rw [if_pos (ready.full_iff.mpr room), decide_eq_false room]
                exact ⟨rfl, ready⟩
          | true =>
              have whole : (c.setWidth 32).setWidth 8 = c :=
                (BitVec.setWidth_setWidth_of_le c (by decide)).trans (BitVec.setWidth_eq c)
              rw [putc_store, line_mk d true (c :: rest), Line.produce_put, Pl011.writeDr, ready.places, whole]
              split
              · exact ⟨rfl, ready.lcrh, ready.cr⟩
              · exact ⟨rfl, ready.lcrh, ready.cr⟩
  | consume =>
      obtain ⟨cr, ibrd, fbrd, lcrh, fifo, wire, lost⟩ := d
      rw [turn, Pl011.transmit, if_pos ready.transmits]
      cases fifo with
      | nil => exact ⟨rfl, ready⟩
      | cons c rest =>
          dsimp only
          rw [ready.mask c]
          exact ⟨rfl, ready.lcrh, ready.cr⟩

theorem Serial.line_run (ready : s.device.Ready) (turns : List Turn) :
    (turns.foldl (Serial.turn depth) s).line = turns.foldl (Line.turn depth) s.line := by
  induction turns generalizing s with
  | nil => rfl
  | cons t rest ih =>
      obtain ⟨same, kept⟩ := @Serial.line_turn s depth ready t
      rw [List.foldl_cons, List.foldl_cons, ← same]
      exact ih kept

theorem line_start (depth : Nat) (text : List Byte) (fifo : d.fifo = []) (wire : d.wire = []) (lost : d.lost = []) :
    (Serial.line ⟨d, false, text⟩).Sound depth text := by
  rw [line_mk, fifo, wire, lost]
  exact ⟨rfl, rfl, Nat.zero_le _, fun seen => absurd seen Bool.false_ne_true⟩

/-- A device that is set up and has nothing in it delivers any text. -/
theorem Pl011.Ready.delivers (ready : d.Ready) (some_ : 0 < depth) (fifo : d.fifo = []) (wire : d.wire = [])
    (lost : d.lost = []) (text : List Byte) : Delivers depth d text where
  safe turns := by
    have kept := (line_start depth text fifo wire lost).run turns
    rw [← Serial.line_run (s := ⟨d, false, text⟩) ready turns] at kept
    exact ⟨⟨_, kept.whole⟩, kept.lost⟩
  live rounds fair long := by
    have work : (Serial.line ⟨d, false, text⟩).work = 3 * text.length := by
      rw [line_mk, Line.work_unready, fifo]
      rfl
    have all := (line_start depth text fifo wire lost).delivered some_ fair (work ▸ long)
    rw [← Serial.line_run (s := ⟨d, false, text⟩) ready rounds.flatten] at all
    exact all

end

/-- What is printed before there is a screen reaches the serial line, whatever the pace of the device. -/
theorem serial_console_delivers {depth : Nat} (some_ : 0 < depth) (cr ibrd fbrd lcrh : BitVec 32) {k : Kprintf}
    (noScreen : k.framebuffer = 0#64) (silent : k.uart = []) (calls : List PrintCall) :
    ∃ enough, ∀ fuel, enough ≤ fuel → ∃ k', kprintfAll fuel (calls.map PrintCall.call) k = some k' ∧
      k'.uart = serialText (textOf calls) ∧ Delivers depth (uartInit (Pl011.reset cr ibrd fbrd lcrh)) k'.uart := by
  obtain ⟨enough, prints⟩ := kprintfAll_prints calls
  refine ⟨enough, fun fuel more => ⟨_, prints fuel more k, ?_, ?_⟩⟩
  · rw [printChars_serial noScreen, silent, List.nil_append]
  · exact (uartInit_ready _).delivers some_ rfl rfl rfl _

/-- The call `kprintf("%d%%", 16)`. -/
def percentage : PrintCall where
  call := ⟨(written [.dec 16#32, .percent]).bytes, sixteenSevenPassed, fun _ => 0#8, fun _ => 0#8⟩
  items := [.dec 16#32, .percent]
  spells := fun _ _ => rfl
  passed := ⟨rfl, trivial, trivial⟩
  faithful := List.forall_mem_cons.mpr ⟨trivial, List.forall_mem_cons.mpr ⟨trivial, List.forall_mem_nil _⟩⟩

theorem serial_console_delivers_percentage :
    ∃ enough, ∀ fuel, enough ≤ fuel → ∃ k', kprintfAll fuel ([percentage].map PrintCall.call) unset = some k' ∧
      k'.uart = serialText (textOf [percentage]) ∧ Delivers 16 (uartInit (Pl011.reset 0x300#32 0#32 0#32 0#32)) k'.uart :=
  serial_console_delivers (by decide) 0x300#32 0#32 0#32 0#32 rfl rfl [percentage]

end AstralOS.Drivers
