import AstralOS.Boot.ClearBss
import AstralOS.Boot.DeviceTree
import AstralOS.Cpu.Cores
import AstralOS.Drivers.Uart
import AstralOS.Memory.Kmalloc
import AstralOS.Memory.Mmu
import AstralOS.Memory.VmMaps

/-! From `_start` through `kernel_main` to the lookup of the framebuffer, and `crash_core_panic`. What comes
after the lookup is a parameter. -/
namespace AstralOS.Boot
open Foundation AstralOS.Lib AstralOS.Debug AstralOS.Drivers AstralOS.Cpu

/-- The UART, the memory with the registers of its translation, and the static variables. -/
structure Kernel where
  uart : Pl011
  machine : Mmu.Machine
  states : CpuStates
  vmMap : VmMaps.VmMap
  dtb : Globals
  heapStartPtr : Addr
  totalHeapSize : BitVec 64
  console : Kprintf

/-- What a call of `kprintf` finds on the stack. -/
structure Frame where
  ap : VaList
  buffer : Bytes
  numBuf : Bytes

def Frame.call (f : Frame) (format : CString) : KprintfCall := ⟨format.bytes, f.ap, f.buffer, f.numBuf⟩

/-- Where a core ends up: in the loop of `cpu_set_state`, or in the one after it. -/
inductive Ending where
  | halted (k : Kernel)
  | spinning (k : Kernel)

def Ending.kernel : Ending → Kernel
  | halted k => k
  | spinning k => k

/-- The console and the rest of the kernel have one memory. -/
def Kernel.print (fuel : Nat) (c : KprintfCall) (k : Kernel) : Option Kernel :=
  (kprintf fuel c { k.console with mem := k.machine.mem }).map fun console =>
    { k with console := console, machine := { k.machine with mem := console.mem } }

/-- "kernel panic: " -/
def kernelPanic : CString :=
  ⟨[0x6B#8, 0x65#8, 0x72#8, 0x6E#8, 0x65#8, 0x6C#8, 0x20#8, 0x70#8, 0x61#8, 0x6E#8, 0x69#8, 0x63#8, 0x3A#8, 0x20#8],
    by decide⟩

/-- "\n" -/
def newlineString : CString := ⟨[newline], by decide⟩

/-- "framebuffer info not found in dtb!\n" -/
def framebufferNotFound : CString :=
  ⟨[0x66#8, 0x72#8, 0x61#8, 0x6D#8, 0x65#8, 0x62#8, 0x75#8, 0x66#8, 0x66#8, 0x65#8, 0x72#8, 0x20#8, 0x69#8, 0x6E#8,
    0x66#8, 0x6F#8, 0x20#8, 0x6E#8, 0x6F#8, 0x74#8, 0x20#8, 0x66#8, 0x6F#8, 0x75#8, 0x6E#8, 0x64#8, 0x20#8, 0x69#8,
    0x6E#8, 0x20#8, 0x64#8, 0x74#8, 0x62#8, 0x21#8, newline], by decide⟩

/-- `cpu_set_state(CPU_STATE_HALTED); while (1);` -/
def stop (mpidr : BitVec 64) (k : Kernel) : Ending :=
  match cpuSetState mpidr .halted k.states with
  | (.halts, states) => .halted { k with states := states }
  | (_, states) => .spinning { k with states := states }

/-- The frames are those of the two calls of `kprintf`. -/
def crashCorePanic (fuel : Nat) (mpidr : BitVec 64) (before after : Frame) (c : KprintfCall) (k : Kernel) :
    Option Ending := do
  let k ← k.print fuel (before.call kernelPanic)
  let k ← k.print fuel c
  let k ← k.print fuel (after.call newlineString)
  return stop mpidr k

/-- `cpu_enable_mmu` asks `kmalloc` for a page when the first gigabyte is mapped. -/
def enableMmu (l1 l2 : Addr) (k : Kernel) : Option Kernel :=
  (Kmalloc.kmalloc Mmu.pageSize ⟨k.heapStartPtr, k.totalHeapSize, Mmu.mapFirstGigabyte l1 l2 k.machine.mem⟩).map fun r =>
    { k with machine := Mmu.cpuEnableMmu (fun _ _ => (r.1, r.2.mem)) l1 l2 k.machine }

theorem chosenPath_nonzero : ∀ c ∈ 0x2F#8 :: chosenName.chars, c ≠ 0#8 := by
  decide

/-- "/chosen" -/
def chosenPath : CString := ⟨0x2F#8 :: chosenName.chars, chosenPath_nonzero⟩

/-- The part of `kernel_main` before the lookup. -/
def prepare (mpidr : BitVec 64) (l1 l2 dtbAddr : Addr) (states : CpuStates) (k : Kernel) : Option Kernel :=
  let k := { k with
    states := (cpuSetState mpidr .running states).2
    vmMap := VmMaps.vmInit k.vmMap }
  (enableMmu l1 l2 k).map fun k => { k with dtb := dtbInit k.machine.mem dtbAddr k.dtb }

/-- `kernel_main`; `rest` gets the base, width, height and pitch of the framebuffer, and `frames` are those of
the calls of `kprintf` in a panic. -/
def kernelMain (fuel : Nat) (mpidr : BitVec 64) (l1 l2 dtbAddr : Addr) (frames : Fin 3 → Frame)
    (rest : Kernel → Addr → BitVec 32 → BitVec 32 → BitVec 32 → Option Ending) (k : Kernel) : Option Ending :=
  let k := { k with uart := uartInit k.uart }
  match checkAndHaltCore mpidr k.states with
  | (.returns, states) => do
      let k ← prepare mpidr l1 l2 dtbAddr states k
      let m := k.machine.mem
      match ← dtbGetProperty fuel m k.dtb chosenPath framebuffer.name with
      | (p, some len) =>
          if p ≠ 0#64 ∧ 16#32 ≤ len then
            rest k ((cell m p).setWidth 64) (cell m (p + 4#64)) (cell m (p + 8#64)) (cell m (p + 12#64))
          else crashCorePanic fuel mpidr (frames 0) (frames 2) ((frames 1).call framebufferNotFound) k
      | (_, none) => crashCorePanic fuel mpidr (frames 0) (frames 2) ((frames 1).call framebufferNotFound) k
  | (_, states) => some (.halted { k with states := states })

/-- The kernel as the linker lays it out: two pages of tables in `.bss`. -/
structure Image extends Bss where
  low : 0x80000 ≤ start.toNat
  fits : start.toNat + size.toNat + 0x6000 ≤ 2 ^ 48
  l1 : Addr
  l2 : Addr
  alignedL1 : l1.toNat % 4096 = 0
  alignedL2 : l2.toNat % 4096 = 0
  apart : l1 ≠ l2
  insideL1 : start.toNat ≤ l1.toNat ∧ l1.toNat + 4096 ≤ start.toNat + size.toNat
  insideL2 : start.toNat ≤ l2.toNat ∧ l2.toNat + 4096 ≤ start.toNat + size.toNat

/-- The static variables once `.bss` has been cleared. -/
def cleared (uart : Pl011) (machine : Mmu.Machine) : Kernel where
  uart := uart
  machine := machine
  states := fun _ => .idle
  vmMap := fun _ => ⟨0, 0, 0, 0⟩
  dtb := .start
  heapStartPtr := 0#64
  totalHeapSize := 0#64
  console := ⟨0#64, 0#32, 0#32, 0#32, 0#32, 0#32, machine.mem, []⟩

/-- `_start` of a core that gets past its test. -/
def start (fuel : Nat) (image : Image) (mpidr : BitVec 64) (frames : Fin 3 → Frame)
    (rest : Kernel → Addr → BitVec 32 → BitVec 32 → BitVec 32 → Option Ending) (uart : Pl011) (machine : Mmu.Machine)
    (s : Aarch64.State) : Option Ending := do
  let s ← clearBss image.toBss fuel s
  let s := loadDtbPtr image.toBss s
  kernelMain fuel mpidr image.l1 image.l2 (s.x 0) frames rest (cleared uart { machine with mem := s.mem })

/-! Calls with a fixed text. -/

/-- A text without conversions as a format. -/
def literals (s : CString) (plain : ∀ c ∈ s.chars, c ≠ percentSign) : List Conversion :=
  s.chars.attach.map fun c => .literal c.1 (plain c.1 c.2) (s.nonzero c.1 c.2)

section
variable {s : CString} {plain : ∀ c ∈ s.chars, c ≠ percentSign}

theorem literals_flatMap {f : Conversion → List Byte} (same : ∀ c plain nonzero, f (.literal c plain nonzero) = [c]) :
    (literals s plain).flatMap f = s.chars := by
  have chars : (literals s plain).flatMap f = s.chars.attach.map Subtype.val := by
    rw [literals, List.flatMap_map, List.map_eq_flatMap]
    exact congrArg (List.flatMap · _) (funext fun c => same c.1 _ _)
  rw [chars, List.attach_map_subtype_val]

theorem arguments_literal {ap : VaList} {items : List Conversion}
    (literal : ∀ item ∈ items, ∃ c plain nonzero, item = .literal c plain nonzero) (n : Nat) : Arguments ap n items := by
  induction items generalizing n with
  | nil => trivial
  | cons item rest ih =>
      obtain ⟨⟨c, plain, nonzero, rfl⟩, later⟩ := List.forall_mem_cons.mp literal
      exact ⟨trivial, ih later _⟩

theorem literals_literal : ∀ item ∈ literals s plain, ∃ c plain nonzero, item = .literal c plain nonzero := by
  intro item member
  obtain ⟨c, _, rfl⟩ := List.mem_map.mp member
  exact ⟨c.1, _, _, rfl⟩

end

/-- A call with a fixed text. -/
def Frame.prints (f : Frame) (s : CString) (plain : ∀ c ∈ s.chars, c ≠ percentSign) : PrintCall where
  call := f.call s
  items := literals s plain
  spells i _ := by
    have same : written (literals s plain) = s := CString.ext (literals_flatMap fun _ _ _ => rfl)
    rw [same]
    rfl
  passed := arguments_literal literals_literal 0
  faithful item member := by
    obtain ⟨c, _, _, rfl⟩ := literals_literal item member
    trivial

theorem Frame.prints_text (f : Frame) {s : CString} (plain : ∀ c ∈ s.chars, c ≠ percentSign) (short : strlen s ≤ 255) :
    (f.prints s plain).text = s := by
  have rendering : (literals s plain).flatMap Conversion.rendering = s.chars := literals_flatMap fun _ _ _ => rfl
  have whole : s.chars.take (kprintfBufferSize - 1) = s.chars := List.take_of_length_le short
  have text : (f.prints s plain).text.chars =
      (((literals s plain).flatMap Conversion.rendering).take (kprintfBufferSize - 1)).takeWhile (· ≠ 0#8) := rfl
  refine CString.ext ?_
  rw [text, rendering, whole]
  exact List.takeWhile_eq_self_iff.mpr fun c member => decide_eq_true (s.nonzero c member)

section
variable {k : Kernel} {m : Memory} {g : Globals} {mpidr : BitVec 64} {l1 l2 dtbAddr : Addr} {frames : Fin 3 → Frame}

/-- Printing while there is no screen. -/
def Kernel.sends (k : Kernel) (text : List Byte) : Kernel :=
  { k with console := { k.console with mem := k.machine.mem, uart := k.console.uart ++ serialText text } }

theorem print_sends (p : PrintCall) : ∃ enough, ∀ fuel, enough ≤ fuel → ∀ k : Kernel, k.console.framebuffer = 0#64 →
    k.print fuel p.call = some (k.sends p.text.chars) := by
  obtain ⟨enough, prints⟩ := p.prints
  refine ⟨enough, fun fuel more k none_ => ?_⟩
  rw [Kernel.print, prints fuel more, Option.map_some, kprintfVarg]
  rw [printChars_serial (k := { k.console with mem := k.machine.mem }) none_]
  rfl

/-- A panic prints its message and stops the core. -/
theorem panic_stops (mpidr : BitVec 64) (before after : Frame) (p : PrintCall) : ∃ enough, ∀ fuel, enough ≤ fuel →
    ∀ k : Kernel, k.console.framebuffer = 0#64 → crashCorePanic fuel mpidr before after p.call k =
      some (stop mpidr (((k.sends kernelPanic.chars).sends p.text.chars).sends newlineString.chars)) := by
  have panicPlain : ∀ c ∈ kernelPanic.chars, c ≠ percentSign := by decide
  have newlinePlain : ∀ c ∈ newlineString.chars, c ≠ percentSign := by decide
  obtain ⟨enough₁, first⟩ := print_sends (before.prints kernelPanic panicPlain)
  obtain ⟨enough₂, second⟩ := print_sends p
  obtain ⟨enough₃, third⟩ := print_sends (after.prints newlineString newlinePlain)
  rw [before.prints_text panicPlain (by decide)] at first
  rw [after.prints_text newlinePlain (by decide)] at third
  refine ⟨enough₁ + enough₂ + enough₃, fun fuel more k none_ => ?_⟩
  have one : k.print fuel (before.call kernelPanic) = some (k.sends kernelPanic.chars) := first fuel (by omega) k none_
  have two := second fuel (by omega) (k.sends kernelPanic.chars) none_
  have three : ((k.sends kernelPanic.chars).sends p.text.chars).print fuel (after.call newlineString) = some _ :=
    third fuel (by omega) _ none_
  simp only [crashCorePanic, one, two, three, Option.bind_eq_bind, Option.bind_some]
  rfl

/-! The heap is not set up yet when `cpu_enable_mmu` asks it for a page. -/

theorem kmallocLoop_null {need : BitVec 64} {fuel : Nat} (some_ : 0 < fuel) :
    Kmalloc.kmallocLoop need fuel m 0#64 = some (0#64, m) := by
  cases fuel with
  | zero => exact absurd some_ (Nat.lt_irrefl 0)
  | succ fuel => exact if_pos rfl

theorem kmalloc_null {n totalHeapSize : BitVec 64} (asked : n ≠ 0#64) :
    Kmalloc.kmalloc n ⟨0#64, totalHeapSize, m⟩ = some (0#64, ⟨0#64, totalHeapSize, m⟩) := by
  have loop : Kmalloc.kmallocLoop (Kmalloc.roundUp n) Kmalloc.loopBound m 0#64 = some (0#64, m) :=
    kmallocLoop_null (Nat.two_pow_pos 64)
  rw [Kmalloc.kmalloc, if_neg asked, loop]
  rfl

/-- The machine after `cpu_enable_mmu` has got a null pointer for the framebuffer's table. -/
def translated (l1 l2 : Addr) (machine : Mmu.Machine) : Mmu.Machine :=
  Mmu.cpuEnableMmu (fun _ _ => (0#64, Mmu.mapFirstGigabyte l1 l2 machine.mem)) l1 l2 machine

theorem enableMmu_eq (noHeap : k.heapStartPtr = 0#64) :
    enableMmu l1 l2 k = some { k with machine := translated l1 l2 k.machine } := by
  rw [enableMmu, noHeap, kmalloc_null (by decide), Option.map_some, translated]

theorem mapFramebuffer_first (m : Memory) : cell (Mmu.mapFramebuffer 0#64 m) 0#64 = 0x01070040#32 := by
  have stores : Mmu.mapFramebuffer 0#64 m = (List.range 7).foldl
      (fun m i => store 8 m (BitVec.ofNat 64 (8 * (i + 1)))
        ((Mmu.fbBasePa + BitVec.ofNat 64 (i + 1) * Mmu.blockSize) ||| Mmu.fbAttributes))
      (store 8 m 0#64 (Mmu.fbBasePa ||| Mmu.fbAttributes)) := rfl
  have kept (x : Addr) (low : x.toNat < 8) :
      Mmu.mapFramebuffer 0#64 m x = store 8 m 0#64 (Mmu.fbBasePa ||| Mmu.fbAttributes) x := by
    rw [stores]
    refine List.foldlRecOn (motive := fun m' : Memory => m' x = store 8 m 0#64 (Mmu.fbBasePa ||| Mmu.fbAttributes) x)
      (List.range 7) _ rfl fun m' same i member => ?_
    have few := List.mem_range.mp member
    have place : (BitVec.ofNat 64 (8 * (i + 1))).toNat = 8 * (i + 1) := by
      rw [BitVec.toNat_ofNat]
      omega
    exact (store_apply (by omega) (by omega)).trans same
  have first : load 32 4 (Mmu.mapFramebuffer 0#64 m) 0#64 =
      load 32 4 (store 8 (fun _ => 0#8) 0#64 (Mmu.fbBasePa ||| Mmu.fbAttributes)) 0#64 := by
    refine load_congr fun i few => ?_
    have place : (0#64 + BitVec.ofNat 64 i).toNat = i := by
      rw [BitVec.zero_add, BitVec.toNat_ofNat]
      omega
    have inside : (0#64 + BitVec.ofNat 64 i - 0#64).toNat < 8 := by
      rw [BitVec.sub_zero, place]
      omega
    rw [kept _ (by omega), store, store, if_pos inside, if_pos inside]
  rw [cell, first]
  decide

/-- The framebuffer's table from a null pointer. -/
def nullTable (l1 : Addr) (m : Memory) : Memory := Mmu.fbTable (fun _ _ => (0#64, m)) l1 m

theorem nullTable_page (placed : Mmu.Placed l1 l2) (used1 : l1 ≠ 0#64) (used2 : l2 ≠ 0#64)
    (tables : Mmu.FirstGigabyte l1 l2 m) (absent : PageWalk.descriptor m l1 Mmu.l1Idx = 0#64) :
    PageWalk.descriptor (nullTable l1 m) l1 Mmu.l1Idx &&& ~~~0xFFF#64 = 0#64 := by
  have gives : Mmu.GivesPage l1 l2 m (0#64, m) := ⟨Nat.zero_mod 4096, used1.symm, used2.symm, fun _ _ => rfl⟩
  have entry : PageWalk.descriptor (nullTable l1 m) l1 Mmu.l1Idx = 0#64 ||| Mmu.pteTable ||| Mmu.pteValid :=
    (@Mmu.fbTable_spec l1 l2 m placed (fun _ _ => (0#64, m)) tables absent gives).2
  rw [entry]
  decide

/-- The table is at 0, so that no device tree is found there. -/
theorem translated_first (placed : Mmu.Placed l1 l2) (used1 : l1 ≠ 0#64) (used2 : l2 ≠ 0#64) (machine : Mmu.Machine) :
    cell (translated l1 l2 machine).mem 0#64 = 0x01070040#32 := by
  obtain ⟨tables, absent⟩ := Mmu.mapFirstGigabyte_spec placed machine.mem
  have mem : (translated l1 l2 machine).mem = Mmu.mapFramebuffer
      (PageWalk.descriptor (nullTable l1 (Mmu.mapFirstGigabyte l1 l2 machine.mem)) l1 Mmu.l1Idx &&& ~~~0xFFF#64)
      (nullTable l1 (Mmu.mapFirstGigabyte l1 l2 machine.mem)) := by
    rw [translated, Mmu.cpuEnableMmu, nullTable]
  rw [mem, nullTable_page placed used1 used2 tables absent]
  exact mapFramebuffer_first _

/-! The boot. -/

theorem checkAndHaltCore_master (master : startTest mpidr = .returns) (states : CpuStates) :
    checkAndHaltCore mpidr states = (.returns, states) := by
  have zero := startTest_returns.mp master
  have number := @cpuGetCoreId_toNat mpidr
  rw [zero] at number
  rw [checkAndHaltCore]
  by_cases first : cpuGetCoreId mpidr = 0#64
  · rw [if_neg (not_not.mpr first)]
  · have many : ¬ (cpuGetCoreId mpidr).toNat < maxCores := by
      intro few
      refine first (BitVec.eq_of_toNat_eq ?_)
      change (cpuGetCoreId mpidr).toNat = 0
      simp only [maxCores, BitVec.toNat_ofNat, Nat.zero_mod] at few number
      omega
    rw [if_pos first, cpuSetState, slotOf, dif_neg many]

theorem dtbGetProperty_more {fuel more : Nat} {path name : CString} {answer : Answer} (enough : fuel ≤ more)
    (found : dtbGetProperty fuel m g path name = some answer) : dtbGetProperty more m g path name = some answer := by
  rw [dtbGetProperty] at found ⊢
  split at found
  · rw [if_pos ‹_›]
    exact found
  · rw [if_neg ‹_›]
    rw [walkFrom_eq_turns] at found ⊢
    exact turns_more enough found

/-- What a panic about the framebuffer sends. -/
def panicText : List Byte :=
  serialText kernelPanic.chars ++ serialText framebufferNotFound.chars ++ serialText newlineString.chars

/-- Where the lookup finds nothing the boot ends in a panic, whatever was to come after it. -/
theorem kernelMain_panics (master : startTest mpidr = .returns) (noScreen : k.console.framebuffer = 0#64)
    (noHeap : k.heapStartPtr = 0#64) (frames : Fin 3 → Frame) {fuel : Nat}
    (unfound : dtbGetProperty fuel (translated l1 l2 k.machine).mem
      (dtbInit (translated l1 l2 k.machine).mem dtbAddr k.dtb) chosenPath framebuffer.name = some (0#64, none)) :
    ∃ enough k', k'.uart = uartInit k.uart ∧ k'.console.uart = k.console.uart ++ panicText ∧
      ∀ fuel, enough ≤ fuel → ∀ rest, kernelMain fuel mpidr l1 l2 dtbAddr frames rest k = some (stop mpidr k') := by
  have plain : ∀ c ∈ framebufferNotFound.chars, c ≠ percentSign := by decide
  obtain ⟨enough, panics⟩ := panic_stops mpidr (frames 0) (frames 2) ((frames 1).prints framebufferNotFound plain)
  rw [(frames 1).prints_text plain (by decide)] at panics
  set ready : Kernel := { k with
    uart := uartInit k.uart
    states := (cpuSetState mpidr .running k.states).2
    vmMap := VmMaps.vmInit k.vmMap
    machine := translated l1 l2 k.machine
    dtb := dtbInit (translated l1 l2 k.machine).mem dtbAddr k.dtb } with readyEq
  have text : (((ready.sends kernelPanic.chars).sends framebufferNotFound.chars).sends newlineString.chars).console.uart =
      k.console.uart ++ panicText := by
    change k.console.uart ++ _ ++ _ ++ _ = _
    rw [panicText, List.append_assoc, List.append_assoc, List.append_assoc]
  refine ⟨max enough fuel, _, rfl, text, fun fuel' more rest => ?_⟩
  · have looked := dtbGetProperty_more (Nat.le_trans (Nat.le_max_right _ _) more) unfound
    have prepared : prepare mpidr l1 l2 dtbAddr k.states { k with uart := uartInit k.uart } = some ready := by
      rw [prepare]
      exact congrArg (Option.map _) (enableMmu_eq (k := { k with
        uart := uartInit k.uart
        states := (cpuSetState mpidr .running k.states).2
        vmMap := VmMaps.vmInit k.vmMap }) noHeap)
    rw [kernelMain]
    dsimp only
    rw [checkAndHaltCore_master master]
    dsimp only
    rw [prepared]
    dsimp only [Option.bind_eq_bind, Option.bind_some]
    rw [looked]
    exact panics fuel' (Nat.le_trans (Nat.le_max_left _ _) more) ready noScreen

namespace Image
variable (image : Image)

theorem placed : Mmu.Placed image.l1 image.l2 where
  alignedL1 := image.alignedL1
  alignedL2 := image.alignedL2
  physicalL1 := by
    have := image.insideL1
    have := image.fits
    omega
  physicalL2 := by
    have := image.insideL2
    have := image.fits
    omega
  apart := image.apart

theorem used : image.l1 ≠ 0#64 ∧ image.l2 ≠ 0#64 := by
  have low := image.low
  have inside1 := image.insideL1
  have inside2 := image.insideL2
  constructor
  · intro null
    rw [null] at inside1
    change _ ≤ 0 ∧ _ at inside1
    omega
  · intro null
    rw [null] at inside2
    change _ ≤ 0 ∧ _ at inside2
    omega

/-- Two tables make `.bss` large enough for the pointer to the device tree to be cleared with it. -/
theorem large : 2928 ≤ image.size.toNat := by
  have apart := Mmu.pages_apart image.alignedL1 image.alignedL2 image.apart
  have inside1 := image.insideL1
  have inside2 := image.insideL2
  omega

end Image

theorem clearBss_more {b : Bss} {fuel more : Nat} {s s' : Aarch64.State} (enough : fuel ≤ more)
    (ended : clearBss b fuel s = some s') : clearBss b more s = some s' := by
  rw [clearBss] at ended ⊢
  split at ended
  · rw [if_pos ‹_›]
    exact ended
  · rw [if_neg ‹_›]
    exact turns_more enough ended

/-- No core gets past the lookup of the framebuffer. From whatever memory, device and device tree the boot
starts, it ends with the panic message on the serial line. -/
theorem boot_ends_in_panic (image : Image) (master : startTest mpidr = .returns) (frames : Fin 3 → Frame)
    (cr ibrd fbrd lcrh : BitVec 32) (machine : Mmu.Machine) (s : Aarch64.State) :
    ∃ enough k, k.console.uart = panicText ∧ (∀ depth, 0 < depth → Delivers depth k.uart k.console.uart) ∧
      ∀ fuel, enough ≤ fuel → ∀ rest,
        start fuel image mpidr frames rest (Pl011.reset cr ibrd fbrd lcrh) machine s = some (stop mpidr k) := by
  obtain ⟨enough, s', ended, _⟩ := clearBss_mem image.toBss s
  have lost := dtb_pointer_lost (lt_of_le_of_lt image.fits (by decide)).le image.large ended
  set k := cleared (Pl011.reset cr ibrd fbrd lcrh) { machine with mem := s'.mem } with kEq
  have unfound : dtbGetProperty 0 (translated image.l1 image.l2 k.machine).mem
      (dtbInit (translated image.l1 image.l2 k.machine).mem 0#64 k.dtb) chosenPath framebuffer.name = some (0#64, none) := by
    have other : cell (translated image.l1 image.l2 k.machine).mem 0#64 ≠ fdtMagic := by
      rw [translated_first image.placed image.used.1 image.used.2]
      decide
    rw [dtbInit, if_pos other, dtbGetProperty, if_pos (Or.inl rfl)]
  obtain ⟨enough', k', uart, sent, panics⟩ := kernelMain_panics (k := k) master rfl rfl frames unfound
  refine ⟨max enough enough', k', sent, fun depth some_ => ?_, fun fuel more rest => ?_⟩
  · rw [uart]
    exact (uartInit_ready _).delivers some_ rfl rfl rfl _
  · rw [start, clearBss_more (Nat.le_trans (Nat.le_max_left _ _) more) ended]
    dsimp only [Option.bind_eq_bind, Option.bind_some]
    rw [lost]
    exact panics fuel (Nat.le_trans (Nat.le_max_right _ _) more) rest

/-- With the right pointer and a well-formed tree in memory it is no different. -/
theorem every_tree_ends_in_panic (master : startTest mpidr = .returns) (noScreen : k.console.framebuffer = 0#64)
    (noHeap : k.heapStartPtr = 0#64) (frames : Fin 3 → Frame) (blob : Blob (translated l1 l2 k.machine).mem dtbAddr) :
    ∃ enough k', k'.uart = uartInit k.uart ∧ k'.console.uart = k.console.uart ++ panicText ∧
      ∀ fuel, enough ≤ fuel → ∀ rest, kernelMain fuel mpidr l1 l2 dtbAddr frames rest k = some (stop mpidr k') :=
  kernelMain_panics master noScreen noHeap frames (dtbGetProperty_null blob (by decide) (by decide) framebuffer.name)

end

/-- Two tables at 0xA0000 and eight kilobytes of other variables. -/
def smallImage : Image where
  start := 0xA0000#64
  size := 0x4000#32
  aligned := by decide
  multiple := by decide
  low := by decide
  fits := by decide
  l1 := 0xA0000#64
  l2 := 0xA1000#64
  alignedL1 := by decide
  alignedL2 := by decide
  apart := by decide
  insideL1 := by decide
  insideL2 := by decide

def emptyFrame : Frame := ⟨noArguments, fun _ => 0#8, fun _ => 0#8⟩

theorem boot_ends_in_panic_core_zero :
    ∃ enough k, k.console.uart = panicText ∧ (∀ depth, 0 < depth → Delivers depth k.uart k.console.uart) ∧
      ∀ fuel, enough ≤ fuel → ∀ rest,
        start fuel smallImage 0x80000000#64 (fun _ => emptyFrame) rest (Pl011.reset 0x300#32 0#32 0#32 0#32)
          ⟨fun _ => 0#8, 0, 0, 0, 0⟩ filledState = some (stop 0x80000000#64 k) :=
  boot_ends_in_panic smallImage (by decide) (fun _ => emptyFrame) 0x300#32 0#32 0#32 0#32 ⟨fun _ => 0#8, 0, 0, 0, 0⟩
    filledState

end AstralOS.Boot
