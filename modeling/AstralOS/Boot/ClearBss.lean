import AstralOS.Foundation.Aarch64
import AstralOS.Foundation.Loops

/-! `clear_bss` in `_start`: eight bytes a turn, and one off the counter, which is in bytes. -/
namespace AstralOS.Boot
open Foundation Foundation.Aarch64

/-- `__bss_start` and `__bss_size` as the linker lays `.bss` out. -/
structure Bss where
  start : Addr
  size : BitVec 32
  aligned : start.toNat % 8 = 0
  multiple : size.toNat % 8 = 0

/-- The register `w` of the same number. -/
def readW (s : State) (n : Fin 31) : BitVec 32 := (s.x n).setWidth 32

def writeW (s : State) (n : Fin 31) (v : BitVec 32) : State := s.write (.x n) (v.setWidth 64)

/-- `str xzr, [x1], #8; sub w2, w2, #1` -/
def clearBssBody (s : State) : State :=
  let s := exec s (.str .zr ⟨.x 1, 8#64, .post⟩)
  writeW s 2 (readW s 2 - 1#32)

/-- `cbnz w2, clear_bss` -/
def clearBssTurn (s : State) : State ⊕ State :=
  let s := clearBssBody s
  if readW s 2 ≠ 0#32 then .inl s else .inr s

/-- From `ldr x1, =__bss_start` to `done_bss`, the loop cut off after `fuel` turns. -/
def clearBss (b : Bss) (fuel : Nat) (s : State) : Option State :=
  let s := s.write (.x 1) b.start
  let s := writeW s 2 b.size
  if readW s 2 = 0#32 then some s else turns clearBssTurn fuel s

/-- `__stack_start`, after `. = ALIGN(0x1000)`. -/
def stackStart (b : Bss) : Addr := (b.start + b.size.setWidth 64 + 0xFFF#64) &&& ~~~0xFFF#64

/-- `_dtb_ptr`: the stack is a multiple of 0x1000 long. -/
def dtbPtr (b : Bss) : Addr := stackStart b + 0x4000#64

/-- `ldr x0, =_dtb_ptr; ldr x0, [x0]` -/
def loadDtbPtr (b : Bss) (s : State) : State := exec (s.write (.x 0) (dtbPtr b)) (.ldr (.x 0) ⟨.x 0, 0#64, .offset⟩)

/-- A byte of `.bss`. -/
def Bss.Holds (b : Bss) (a : Addr) : Prop := (a - b.start).toNat < b.size.toNat

/-- The loop ends with `.bss` zero and everything else as it was. -/
def ClearsExactly (b : Bss) (s : State) : Prop :=
  ∃ fuel s', clearBss b fuel s = some s' ∧ (∀ a, b.Holds a → s'.mem a = 0#8) ∧ ∀ a, ¬ b.Holds a → s'.mem a = s.mem a

section
variable {s s' : State} {m : Memory} {start a : Addr} {size : BitVec 32} {k : Nat}

/-- After `k` turns. -/
structure Clearing (m : Memory) (start : Addr) (size : BitVec 32) (k : Nat) (s : State) : Prop where
  address : s.x 1 = start + BitVec.ofNat 64 (8 * k)
  counter : (readW s 2).toNat = size.toNat - k
  mem : s.mem = overlay m start (fun _ => 0#64) k

theorem readW_writeW (s : State) (n : Fin 31) (v : BitVec 32) : readW (writeW s n v) n = v := by
  rw [readW, writeW, State.write]
  dsimp only
  rw [Function.update_self, BitVec.setWidth_setWidth_of_le _ (by decide), BitVec.setWidth_eq]

/-- The step lemma. -/
theorem Clearing.turn (clearing : Clearing m start size k s) (more : k < size.toNat) :
    Clearing m start size (k + 1) (clearBssBody s) := by
  obtain ⟨address, counter, mem⟩ := clearing
  have small := size.isLt
  refine ⟨?_, ?_, ?_⟩
  · change s.x 1 + 8#64 = _
    rw [address, BitVec.add_assoc, Nat.mul_succ, BitVec.ofNat_add]
  · have same : readW (exec s (.str .zr ⟨.x 1, 8#64, .post⟩)) 2 = readW s 2 := rfl
    rw [clearBssBody, readW_writeW, same, BitVec.toNat_sub, counter]
    change (2 ^ 32 - 1 + (size.toNat - k)) % 2 ^ 32 = _
    omega
  · change store 8 s.mem (s.x 1) 0#64 = _
    rw [address, mem]
    exact store_overlay m start (fun _ => 0#64) (by omega)

/-- The run lemma: as many turns as the counter says. -/
theorem Clearing.run {n : Nat} (clearing : Clearing m start size k s) (left : size.toNat = k + (n + 1)) :
    ∃ s', turns clearBssTurn (n + 1) s = some s' ∧ s'.mem = overlay m start (fun _ => 0#64) size.toNat := by
  have next := clearing.turn (by omega)
  induction n generalizing k s with
  | zero =>
      have zero : readW (clearBssBody s) 2 = 0#32 := BitVec.eq_of_toNat_eq (by rw [next.counter, left]; exact Nat.sub_self _)
      refine ⟨clearBssBody s, ?_, left ▸ next.mem⟩
      rw [turns, clearBssTurn, if_neg (not_not.mpr zero)]
  | succ n ih =>
      have nonzero : readW (clearBssBody s) 2 ≠ 0#32 := by
        intro zero
        have counter := next.counter
        rw [zero, left] at counter
        change 0 = _ at counter
        omega
      obtain ⟨s', ended, mem⟩ := ih next (by omega) (next.turn (by omega))
      refine ⟨s', ?_, mem⟩
      rw [turns, clearBssTurn, if_pos nonzero]
      exact ended

theorem overlay_zeros (m : Memory) (start : Addr) (k : Nat) (a : Addr) :
    overlay m start (fun _ => 0#64) k a = if (a - start).toNat < 8 * k then 0#8 else m a := by
  rw [overlay]
  congr 1
  rw [leByte, BitVec.toNat_ofNat, Nat.zero_mod, Nat.zero_div]

/-- The loop ends, and has cleared eight times the size. -/
theorem clearBss_mem (b : Bss) (s : State) : ∃ fuel s', clearBss b fuel s = some s' ∧
    ∀ a, s'.mem a = if (a - b.start).toNat < 8 * b.size.toNat then 0#8 else s.mem a := by
  by_cases empty : b.size = 0#32
  · refine ⟨0, writeW (s.write (.x 1) b.start) 2 b.size, ?_, fun a => ?_⟩
    · rw [clearBss, readW_writeW, if_pos empty]
    · have size : b.size.toNat = 0 := congrArg BitVec.toNat empty
      rw [size, if_neg (Nat.not_lt_zero _)]
      rfl
  · obtain ⟨n, size⟩ : ∃ n, b.size.toNat = n + 1 :=
      Nat.exists_eq_succ_of_ne_zero fun zero => empty (BitVec.eq_of_toNat_eq zero)
    have started : Clearing s.mem b.start b.size 0 (writeW (s.write (.x 1) b.start) 2 b.size) := by
      refine ⟨?_, by rw [readW_writeW, Nat.sub_zero], (overlay_zero _ _ _).symm⟩
      exact (BitVec.add_zero b.start).symm
    obtain ⟨s', ended, mem⟩ := started.run (n := n) (by omega)
    refine ⟨n + 1, s', ?_, fun a => by rw [mem, overlay_zeros]⟩
    rw [clearBss, readW_writeW, if_neg empty]
    exact ended

theorem clearBss_unique {b : Bss} {fuel fuel' : Nat} {s₁ s₂ : State} (ended : clearBss b fuel s = some s₁)
    (ended' : clearBss b fuel' s = some s₂) : s₁ = s₂ := by
  rw [clearBss] at ended ended'
  by_cases empty : readW (writeW (s.write (.x 1) b.start) 2 b.size) 2 = 0#32
  · rw [if_pos empty] at ended ended'
    exact Option.some.inj (ended.symm.trans ended')
  · rw [if_neg empty] at ended ended'
    exact turns_unique ended ended'

/-- What lies after `.bss` is cleared too. -/
theorem ClearsExactly.zero {b : Bss} (exact_ : ClearsExactly b s) (after : b.size.toNat ≤ (a - b.start).toNat)
    (within : (a - b.start).toNat < 8 * b.size.toNat) : s.mem a = 0#8 := by
  obtain ⟨fuel, s', ended, _, kept⟩ := exact_
  obtain ⟨fuel', s₂, ended', cleared⟩ := clearBss_mem b s
  obtain rfl := clearBss_unique ended ended'
  rw [← kept a (Nat.not_lt.mpr after), cleared, if_pos within]

theorem loadDtbPtr_x0 (b : Bss) (s : State) : (loadDtbPtr b s).x 0 = load 64 8 s.mem (dtbPtr b) := by
  simp only [loadDtbPtr, exec, Operand.address, Operand.writeback, State.write, State.base, Function.update_self,
    BitVec.add_zero]

/-- With 2928 bytes of `.bss` or more the device tree's address is cleared before it is loaded. -/
theorem dtb_pointer_lost {b : Bss} {fuel : Nat} (fits : b.start.toNat + b.size.toNat + 0x6000 ≤ 2 ^ 64)
    (large : 2928 ≤ b.size.toNat) (ended : clearBss b fuel s = some s') : (loadDtbPtr b s').x 0 = 0#64 := by
  obtain ⟨fuel', s₂, ended', cleared⟩ := clearBss_mem b s
  obtain rfl := clearBss_unique ended ended'
  have short := b.size.isLt
  have bssEnd : (b.start + b.size.setWidth 64).toNat = b.start.toNat + b.size.toNat := by
    rw [← BitVec.ofNat_toNat]
    exact toNat_add_ofNat (by omega)
  have up : (b.start + b.size.setWidth 64 + 0xFFF#64).toNat = b.start.toNat + b.size.toNat + 0xFFF := by
    rw [← bssEnd]
    exact toNat_add_ofNat (i := 0xFFF) (by omega)
  have stack : (stackStart b).toNat = (b.start.toNat + b.size.toNat + 0xFFF) / 2 ^ 12 * 2 ^ 12 := by
    rw [← up]
    exact toNat_clear 12 _
  have place : (dtbPtr b).toNat = (stackStart b).toNat + 0x4000 := toNat_add_ofNat (i := 0x4000) (by omega)
  have zeros : load 64 8 s'.mem (dtbPtr b) = load 64 8 (fun _ => 0#8) (dtbPtr b) := by
    refine load_congr fun i inside => ?_
    have byte : (dtbPtr b + BitVec.ofNat 64 i).toNat = (dtbPtr b).toNat + i := toNat_add_ofNat (by omega)
    have within : (dtbPtr b + BitVec.ofNat 64 i - b.start).toNat < 8 * b.size.toNat := by
      rw [BitVec.toNat_sub]
      omega
    rw [cleared, if_pos within]
  rw [loadDtbPtr_x0, zeros]
  exact le_zero 64 8

end

/-- The loop clears `.bss` and no more if and only if seven times as much after it is zero already. -/
theorem clears_exactly_bss_iff (b : Bss) (s : State) : ClearsExactly b s ↔
    ∀ a, b.size.toNat ≤ (a - b.start).toNat → (a - b.start).toNat < 8 * b.size.toNat → s.mem a = 0#8 := by
  constructor
  · intro exact_ a after within
    exact exact_.zero after within
  · intro zero
    obtain ⟨fuel, s', ended, cleared⟩ := clearBss_mem b s
    refine ⟨fuel, s', ended, fun a inside => ?_, fun a out => ?_⟩
    · have inside : (a - b.start).toNat < b.size.toNat := inside
      rw [cleared, if_pos (by omega)]
    · rw [cleared]
      by_cases within : (a - b.start).toNat < 8 * b.size.toNat
      · rw [if_pos within, zero a (Nat.not_lt.mp out) within]
      · rw [if_neg within]

/-- Sixteen bytes from 0x90000 on. -/
def smallBss : Bss := ⟨0x90000#64, 16#32, by decide, by decide⟩

def filledState : State where
  x := fun _ => 0#64
  sp := 0#64
  sys := fun _ => 0#64
  mem := fun _ => 0xFF#8
  pc := 0#64

/-- The byte after `.bss` is cleared as well. -/
theorem byte_after_bss_cleared : ¬ ∀ (b : Bss) (s : State), ClearsExactly b s := by
  intro exact_
  have zero := (exact_ smallBss filledState).zero (a := 0x90010#64) (by decide) (by decide)
  exact absurd zero (by decide)

end AstralOS.Boot
