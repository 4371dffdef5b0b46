import Mathlib.Data.Finset.Basic
import Mathlib.Logic.Function.Basic

/-! The cores at boot: the number a core has from `mpidr_el1`, and which cores the test in
`_start` and `check_and_halt_core` let through. -/
namespace AstralOS.Cpu

def maxCores : Nat := 8

inductive CpuState where
  | idle
  | running
  | halted
  deriving DecidableEq

/-- `cpu_states` -/
abbrev CpuStates := Fin maxCores → CpuState

/-- How a call ends; `waits` is the loop on `CPU_STATE_IDLE`, which another core can end. -/
inductive Flow where
  | returns
  | waits
  | halts
  deriving DecidableEq

def cpuGetCoreId (mpidr : BitVec 64) : BitVec 64 :=
  (mpidr &&& 0xff#64) ||| ((mpidr >>> 8) &&& 0xff00#64)

/-- The element of `cpu_states` that is the core's. -/
def slotOf (mpidr : BitVec 64) : Option (Fin maxCores) :=
  if h : (cpuGetCoreId mpidr).toNat < maxCores then some ⟨(cpuGetCoreId mpidr).toNat, h⟩ else none

def cpuSetState (mpidr : BitVec 64) (state : CpuState) (states : CpuStates) : Flow × CpuStates :=
  match slotOf mpidr with
  | none => (.returns, states)
  | some i =>
      let states := Function.update states i state
      match state with
      | .idle => (.waits, states)
      | .halted => (.halts, states)
      | .running => (.returns, states)

def checkAndHaltCore (mpidr : BitVec 64) (states : CpuStates) : Flow × CpuStates :=
  if cpuGetCoreId mpidr ≠ 0#64 then cpuSetState mpidr .halted states else (.returns, states)

/-- `and x1, x1, #0xff; cbz x1, master_core; b halt` -/
def startTest (mpidr : BitVec 64) : Flow :=
  if mpidr &&& 0xff#64 = 0#64 then .returns else .halts

/-- The core gets past both tests, whatever the others have left in `cpu_states`. -/
def GetsPast (mpidr : BitVec 64) : Prop :=
  startTest mpidr = .returns ∧ ∃ states, (checkAndHaltCore mpidr states).1 = .returns

structure Affinity where
  aff3 : BitVec 8
  aff2 : BitVec 8
  aff1 : BitVec 8
  aff0 : BitVec 8
  deriving DecidableEq

/-- The affinity fields of `mpidr_el1`. -/
def affinity (mpidr : BitVec 64) : Affinity :=
  ⟨mpidr.extractLsb' 32 8, mpidr.extractLsb' 16 8, mpidr.extractLsb' 8 8, mpidr.extractLsb' 0 8⟩

/-- One core boots, and no two cores have one number or one element of `cpu_states`. -/
structure OneCoreBoots (cores : Finset (BitVec 64)) : Prop where
  alone : ∀ a ∈ cores, ∀ b ∈ cores, GetsPast a → GetsPast b → a = b
  numbers : ∀ a ∈ cores, ∀ b ∈ cores, cpuGetCoreId a = cpuGetCoreId b → a = b
  slots : ∀ a ∈ cores, ∀ b ∈ cores, ∀ i, slotOf a = some i → slotOf b = some i → a = b

/-- Any two cores differ in `Aff2` or `Aff0`, and at most one has `Aff0` zero. -/
structure Numbered (cores : Finset (BitVec 64)) : Prop where
  differ : ∀ a ∈ cores, ∀ b ∈ cores, (affinity a).aff2 = (affinity b).aff2 →
    (affinity a).aff0 = (affinity b).aff0 → a = b
  zero : ∀ a ∈ cores, ∀ b ∈ cores, (affinity a).aff0 = 0#8 → (affinity b).aff0 = 0#8 → a = b

section
variable {mpidr a b : BitVec 64}

/-- The number is `Aff2` above `Aff0`; `Aff1` and `Aff3` are not in it. -/
theorem cpuGetCoreId_fields :
    cpuGetCoreId mpidr = ((affinity mpidr).aff2 ++ (affinity mpidr).aff0).setWidth 64 := by
  have low : ∀ i < 64, (0xff#64).getLsbD i = decide (i < 8) := by decide
  have high : ∀ i < 64, (0xff00#64).getLsbD i = decide (8 ≤ i ∧ i < 16) := by decide
  refine BitVec.eq_of_getLsbD_eq fun i inside => ?_
  simp only [cpuGetCoreId, affinity, BitVec.getLsbD_or, BitVec.getLsbD_and, BitVec.getLsbD_ushiftRight,
    BitVec.getLsbD_setWidth, BitVec.getLsbD_append, BitVec.getLsbD_extractLsb', low i inside, high i inside]
  by_cases inLow : i < 8
  · simp [inLow, Nat.not_le_of_lt inLow, inside]
  · by_cases inHigh : i < 16
    · have position : 16 + (i - 8) = 8 + i := by omega
      have narrow : i - 8 < 8 := by omega
      simp [inLow, inHigh, inside, position, narrow, Nat.le_of_not_lt inLow]
    · have wide : ¬ i - 8 < 8 := by omega
      simp [inLow, inHigh, wide]

theorem cpuGetCoreId_toNat :
    (cpuGetCoreId mpidr).toNat = 256 * (affinity mpidr).aff2.toNat + (affinity mpidr).aff0.toNat := by
  have low := (affinity mpidr).aff0.isLt
  have high := (affinity mpidr).aff2.isLt
  rw [cpuGetCoreId_fields, BitVec.toNat_setWidth, BitVec.toNat_append, ← Nat.shiftLeft_add_eq_or_of_lt low,
    Nat.shiftLeft_eq]
  omega

theorem cpuGetCoreId_inj : cpuGetCoreId a = cpuGetCoreId b ↔
    (affinity a).aff2 = (affinity b).aff2 ∧ (affinity a).aff0 = (affinity b).aff0 := by
  constructor
  · intro same
    have numbers := congrArg BitVec.toNat same
    rw [cpuGetCoreId_toNat, cpuGetCoreId_toNat] at numbers
    have lowA := (affinity a).aff0.isLt
    have lowB := (affinity b).aff0.isLt
    exact ⟨BitVec.eq_of_toNat_eq (by omega), BitVec.eq_of_toNat_eq (by omega)⟩
  · rintro ⟨high, low⟩
    rw [cpuGetCoreId_fields, cpuGetCoreId_fields, high, low]

theorem startTest_returns : startTest mpidr = .returns ↔ (affinity mpidr).aff0 = 0#8 := by
  have field : mpidr &&& 0xff#64 = (affinity mpidr).aff0.setWidth 64 := by
    have low : ∀ i < 64, (0xff#64).getLsbD i = decide (i < 8) := by decide
    refine BitVec.eq_of_getLsbD_eq fun i inside => ?_
    simp only [affinity, BitVec.getLsbD_and, BitVec.getLsbD_setWidth, BitVec.getLsbD_extractLsb', low i inside]
    simp [inside, Bool.and_comm]
  rw [startTest, field]
  by_cases zero : (affinity mpidr).aff0 = 0#8
  · simp [zero]
  · have used : (affinity mpidr).aff0.setWidth 64 ≠ 0#64 := by
      intro vanishes
      have := congrArg BitVec.toNat vanishes
      rw [BitVec.toNat_setWidth, BitVec.toNat_ofNat] at this
      have small := (affinity mpidr).aff0.isLt
      refine zero (BitVec.eq_of_toNat_eq ?_)
      rw [BitVec.toNat_ofNat]
      omega
    simp [used, zero]

/-- A core whose number has no element is told to halt and goes on: with `Aff0` zero every core
gets past both tests. -/
theorem getsPast_iff : GetsPast mpidr ↔ (affinity mpidr).aff0 = 0#8 := by
  rw [GetsPast, startTest_returns]
  refine ⟨fun past => past.1, fun zero => ⟨zero, fun _ => .idle, ?_⟩⟩
  rw [checkAndHaltCore]
  by_cases master : cpuGetCoreId mpidr = 0#64
  · rw [if_neg (not_not.mpr master)]
  · have number := @cpuGetCoreId_toNat mpidr
    have many : ¬ (cpuGetCoreId mpidr).toNat < maxCores := by
      intro few
      rw [zero] at number
      refine master (BitVec.eq_of_toNat_eq ?_)
      change (cpuGetCoreId mpidr).toNat = 0
      simp only [maxCores, BitVec.toNat_ofNat, Nat.zero_mod] at few number
      omega
    rw [if_pos master, cpuSetState, slotOf, dif_neg many]

end

/-- Among any cores, with distinct affinities or not, one boots and the numbers are distinct if
and only if the cores differ in the fields the number is made of and at most one has `Aff0` zero. -/
theorem one_core_boots_iff (cores : Finset (BitVec 64)) : OneCoreBoots cores ↔ Numbered cores := by
  constructor
  · intro boots
    refine ⟨fun a inA b inB high low => boots.numbers a inA b inB (cpuGetCoreId_inj.mpr ⟨high, low⟩), ?_⟩
    exact fun a inA b inB zeroA zeroB => boots.alone a inA b inB (getsPast_iff.mpr zeroA) (getsPast_iff.mpr zeroB)
  · intro numbered
    have numbers : ∀ a ∈ cores, ∀ b ∈ cores, cpuGetCoreId a = cpuGetCoreId b → a = b := by
      intro a inA b inB same
      obtain ⟨high, low⟩ := cpuGetCoreId_inj.mp same
      exact numbered.differ a inA b inB high low
    refine ⟨fun a inA b inB pastA pastB => ?_, numbers, fun a inA b inB i here there => ?_⟩
    · exact numbered.zero a inA b inB (getsPast_iff.mp pastA) (getsPast_iff.mp pastB)
    · have position {m : BitVec 64} (found : slotOf m = some i) : (cpuGetCoreId m).toNat = i := by
        unfold slotOf at found
        split at found
        · exact congrArg Fin.val (Option.some.inj found)
        · cases found
      exact numbers a inA b inB (BitVec.eq_of_toNat_eq ((position here).trans (position there).symm))

/-- Two clusters: affinities 0.0.0.0 and 0.0.1.0. -/
theorem second_cluster_boots :
    Set.InjOn affinity ({0x80000000#64, 0x80000100#64} : Finset (BitVec 64)) ∧
      ¬ OneCoreBoots {0x80000000#64, 0x80000100#64} := by
  constructor
  · intro a inA b inB same
    simp only [Finset.coe_insert, Finset.coe_singleton, Set.mem_insert_iff, Set.mem_singleton_iff] at inA inB
    rcases inA with rfl | rfl
    · rcases inB with rfl | rfl
      · rfl
      · exact absurd same (by decide)
    · rcases inB with rfl | rfl
      · exact absurd same (by decide)
      · rfl
  · intro boots
    have same := boots.numbers 0x80000000#64 (by simp) 0x80000100#64 (by simp) (by decide)
    exact absurd same (by decide)

end AstralOS.Cpu
