import Mathlib

/-! The virtual memory map: the table of tracked mappings and the five calls on it. -/
namespace AstralOS.VmMaps

def maxVmMapEntries : Nat := 64
def allocAlign : Nat := 0x100000
def initialMappingBase : Nat := 0x40000000

abbrev ProtFlags := BitVec 32

def vmProtRead : ProtFlags := 0x01
def vmProtWrite : ProtFlags := 0x02
def vmProtExec : ProtFlags := 0x04
def vmProtKernel : ProtFlags := 0x08
def vmProtFree : ProtFlags := 0x10

structure VmMapEntry where
  virtualAddress : BitVec 64
  physicalAddress : BitVec 64
  size : BitVec 64
  protectionFlags : ProtFlags
  deriving DecidableEq

abbrev Slot := Fin maxVmMapEntries

/-- `vm_map_entries` -/
abbrev VmMap := Slot → VmMapEntry

def VmMapEntry.Live (e : VmMapEntry) : Prop := e.protectionFlags ≠ vmProtFree

instance (e : VmMapEntry) : Decidable e.Live := inferInstanceAs (Decidable (_ ≠ _))

def findFreeVmMapEntrySlot (m : VmMap) : Option Slot :=
  (List.finRange maxVmMapEntries).find? fun i => (m i).protectionFlags = vmProtFree

/-- One comparison of `check_range_overlap`; both ends are 64-bit sums and may wrap. -/
def overlapsEntry (va size : BitVec 64) (e : VmMapEntry) : Bool :=
  va < e.virtualAddress + e.size && e.virtualAddress < va + size

def checkRangeOverlap (m : VmMap) (va size : BitVec 64) : Bool :=
  (List.finRange maxVmMapEntries).any fun i =>
    (m i).protectionFlags != vmProtFree && overlapsEntry va size (m i)

def vmMapAddEntry (m : VmMap) (va pa size : BitVec 64) (flags : ProtFlags) : VmMap :=
  if checkRangeOverlap m va size then m
  else match findFreeVmMapEntrySlot m with
    | none => m
    | some index => Function.update m index ⟨va, pa, size, flags⟩

def vmInit (m : VmMap) : VmMap :=
  vmMapAddEntry (fun i => { m i with protectionFlags := vmProtFree }) 0 0 0x40000000
    (vmProtRead ||| vmProtWrite ||| vmProtExec ||| vmProtKernel)

def vmMap (m : VmMap) (va pa size : BitVec 64) (flags : ProtFlags) : Int × VmMap :=
  (0, vmMapAddEntry m va pa size flags)

/-- The slot `vm_unmap` and `vm_protect` select: the first live entry that starts at `va`. -/
def findEntry (m : VmMap) (va : BitVec 64) : Option Slot :=
  (List.finRange maxVmMapEntries).find? fun i =>
    (m i).virtualAddress = va ∧ (m i).protectionFlags ≠ vmProtFree

def setFlags (m : VmMap) (i : Slot) (flags : ProtFlags) : VmMap :=
  Function.update m i { m i with protectionFlags := flags }

/-- The size parameter is ignored, as in the source. -/
def vmUnmap (m : VmMap) (va _size : BitVec 64) : Int × VmMap :=
  match findEntry m va with
  | some i => (0, setFlags m i vmProtFree)
  | none => (-1, m)

def vmProtect (m : VmMap) (va _size : BitVec 64) (newFlags : ProtFlags) : Int × VmMap :=
  match findEntry m va with
  | some i => (0, setFlags m i newFlags)
  | none => (-1, m)

/-- `INITIAL_MAPPING_BASE + (index * ALLOC_ALIGN)`; the sum is far from overflowing an `int`. -/
def allocatedVa (index : Slot) : BitVec 64 :=
  BitVec.ofNat 64 (initialMappingBase + index * allocAlign)

def vmMapAllocate (m : VmMap) (size : BitVec 64) (flags : ProtFlags) : BitVec 64 × VmMap :=
  match findFreeVmMapEntrySlot m with
  | none => (0, m)
  | some index =>
      (allocatedVa index, vmMapAddEntry m (allocatedVa index) (allocatedVa index) size flags)

def vmMapDeallocate (m : VmMap) (va : BitVec 64) : Int × VmMap := vmUnmap m va 0

inductive Call where
  | map (va pa size : BitVec 64) (flags : ProtFlags)
  | unmap (va size : BitVec 64)
  | protect (va size : BitVec 64) (flags : ProtFlags)
  | allocate (size : BitVec 64) (flags : ProtFlags)
  | deallocate (va : BitVec 64)

/-- The table a call leaves. -/
def step (m : VmMap) : Call → VmMap
  | .map va pa size flags => (vmMap m va pa size flags).2
  | .unmap va size => (vmUnmap m va size).2
  | .protect va size flags => (vmProtect m va size flags).2
  | .allocate size flags => (vmMapAllocate m size flags).2
  | .deallocate va => (vmMapDeallocate m va).2

/-! What the searches return. -/

theorem findFree_some {m : VmMap} {i : Slot} (h : findFreeVmMapEntrySlot m = some i) :
    ¬ (m i).Live := by
  have := List.find?_some h
  simpa [VmMapEntry.Live] using this

theorem findFree_none {m : VmMap} (h : findFreeVmMapEntrySlot m = none) (i : Slot) :
    (m i).Live := by
  have := List.find?_eq_none.mp h i (List.mem_finRange i)
  simpa [VmMapEntry.Live] using this

theorem findEntry_some {m : VmMap} {va : BitVec 64} {i : Slot} (h : findEntry m va = some i) :
    (m i).virtualAddress = va ∧ (m i).Live := by
  have := List.find?_some h
  simpa [VmMapEntry.Live] using this

theorem checkRangeOverlap_eq_false {m : VmMap} {va size : BitVec 64} :
    checkRangeOverlap m va size = false ↔
      ∀ i, (m i).Live → overlapsEntry va size (m i) = false := by
  simp [checkRangeOverlap, VmMapEntry.Live]

/-- A request that `vm_map_add_entry` does not refuse. -/
def Accepts (m : VmMap) (va size : BitVec 64) : Prop :=
  checkRangeOverlap m va size = false ∧ ∃ i, ¬ (m i).Live

/-- All that `vm_map_add_entry` can do. -/
theorem vmMapAddEntry_cases (m : VmMap) (va pa size : BitVec 64) (flags : ProtFlags) :
    (¬ Accepts m va size ∧ vmMapAddEntry m va pa size flags = m) ∨
    (Accepts m va size ∧ ∃ i, findFreeVmMapEntrySlot m = some i ∧
      vmMapAddEntry m va pa size flags = Function.update m i ⟨va, pa, size, flags⟩) := by
  unfold vmMapAddEntry
  cases overlap : checkRangeOverlap m va size with
  | true => exact .inl ⟨by simp [Accepts, overlap], rfl⟩
  | false =>
      cases found : findFreeVmMapEntrySlot m with
      | none =>
          refine .inl ⟨?_, rfl⟩
          rintro ⟨_, i, free⟩
          exact free (findFree_none found i)
      | some i => exact .inr ⟨⟨overlap, i, findFree_some found⟩, i, rfl, rfl⟩

end AstralOS.VmMaps
