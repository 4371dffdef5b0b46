import AstralOS.Memory.VmMaps
import AstralOS.Foundation.Runs

/-! Separation of live mappings over runs, and what the mapping calls report.
The overlap test compares 64-bit ends; it decides every pair of ranges except
those where one is empty or reaches the top of the address space. -/
namespace AstralOS.VmMaps
open Foundation

/-- The addresses `va, ..., va + size - 1`, wrapping at `2 ^ 64`. -/
def rangeOf (va size : BitVec 64) : Set (BitVec 64) :=
  { a | ∃ i < size.toNat, a = va + BitVec.ofNat 64 i }

def VmMapEntry.range (e : VmMapEntry) : Set (BitVec 64) := rangeOf e.virtualAddress e.size

/-- The ranges the overlap test cannot decide: empty, or with an end at or past `2 ^ 64`. -/
def Edge (va size : BitVec 64) : Prop := size = 0 ∨ 2 ^ 64 ≤ va.toNat + size.toNat

def Apart (va size : BitVec 64) (e : VmMapEntry) : Prop :=
  Disjoint (rangeOf va size) e.range ∧ va ≠ e.virtualAddress

structure Separated (m : VmMap) : Prop where
  disjoint : ∀ i j, i ≠ j → (m i).Live → (m j).Live → Disjoint (m i).range (m j).range
  keys : ∀ i j, i ≠ j → (m i).Live → (m j).Live →
    (m i).virtualAddress ≠ (m j).virtualAddress

theorem mem_rangeOf {va size a : BitVec 64} : a ∈ rangeOf va size ↔ (a - va).toNat < size.toNat := by
  constructor
  · rintro ⟨i, hi, rfl⟩
    have : (va + BitVec.ofNat 64 i - va).toNat = i := by
      rw [BitVec.add_comm, BitVec.add_sub_cancel, BitVec.toNat_ofNat]
      exact Nat.mod_eq_of_lt (Nat.lt_trans hi size.isLt)
    rw [this]
    exact hi
  · intro h
    refine ⟨_, h, ?_⟩
    rw [BitVec.ofNat_toNat, BitVec.setWidth_eq, BitVec.add_comm, BitVec.sub_add_cancel]

theorem mem_rangeOf_inside {va size a : BitVec 64} (inside : ¬ Edge va size) :
    a ∈ rangeOf va size ↔ va.toNat ≤ a.toNat ∧ a.toNat < va.toNat + size.toNat := by
  have hv := va.isLt
  have ha := a.isLt
  have top : va.toNat + size.toNat < 2 ^ 64 := Nat.lt_of_not_le fun h => inside (.inr h)
  rw [mem_rangeOf, BitVec.toNat_sub]
  omega

/-- Away from the edges the comparison of `check_range_overlap` is complete. -/
theorem apart_of_no_overlap {va size : BitVec 64} {e : VmMapEntry} (new : ¬ Edge va size)
    (old : ¬ Edge e.virtualAddress e.size) (passed : overlapsEntry va size e = false) :
    Apart va size e := by
  have sizes : 0 < size.toNat ∧ 0 < e.size.toNat := by
    constructor <;> apply Nat.pos_of_ne_zero <;> intro zero
    · exact new (.inl (BitVec.eq_of_toNat_eq zero))
    · exact old (.inl (BitVec.eq_of_toNat_eq zero))
  have newTop : va.toNat + size.toNat < 2 ^ 64 := Nat.lt_of_not_le fun h => new (.inr h)
  have oldTop : e.virtualAddress.toNat + e.size.toNat < 2 ^ 64 :=
    Nat.lt_of_not_le fun h => old (.inr h)
  have order : e.virtualAddress.toNat + e.size.toNat ≤ va.toNat ∨
      va.toNat + size.toNat ≤ e.virtualAddress.toNat := by
    simp only [overlapsEntry, Bool.and_eq_false_iff, decide_eq_false_iff_not, BitVec.lt_def,
      BitVec.toNat_add, Nat.mod_eq_of_lt newTop, Nat.mod_eq_of_lt oldTop] at passed
    omega
  constructor
  · rw [Set.disjoint_left]
    intro a inNew inOld
    rw [mem_rangeOf_inside new] at inNew
    rw [VmMapEntry.range, mem_rangeOf_inside old] at inOld
    omega
  · rintro rfl
    omega

/-- No live entry meets the request in a pair the overlap test cannot decide. -/
def ClearAtEdges (m : VmMap) (va size : BitVec 64) : Prop :=
  ∀ j, (m j).Live → Edge va size ∨ Edge (m j).virtualAddress (m j).size → Apart va size (m j)

def RequestOk (m : VmMap) (va size : BitVec 64) (flags : ProtFlags) : Prop :=
  flags ≠ vmProtFree → Accepts m va size → ClearAtEdges m va size

/-- The condition on a call and the table it meets. -/
def CallOk (m : VmMap) : Call → Prop
  | .map va _ size flags => RequestOk m va size flags
  | .allocate size flags => ∀ i, findFreeVmMapEntrySlot m = some i →
      RequestOk m (allocatedVa i) size flags
  | _ => True

theorem accepted_apart {m : VmMap} {va size : BitVec 64} (accepted : Accepts m va size)
    (edges : ClearAtEdges m va size) (j : Slot) (live : (m j).Live) : Apart va size (m j) := by
  by_cases edge : Edge va size ∨ Edge (m j).virtualAddress (m j).size
  · exact edges j live edge
  · rw [not_or] at edge
    exact apart_of_no_overlap edge.1 edge.2 (checkRangeOverlap_eq_false.mp accepted.1 j live)

/-- One entry changes: separation of the others stays, the changed one is checked alone. -/
theorem separated_update {m : VmMap} (separated : Separated m) (i : Slot) (e : VmMapEntry)
    (apart : e.Live → ∀ j, j ≠ i → (m j).Live → Apart e.virtualAddress e.size (m j)) :
    Separated (Function.update m i e) := by
  constructor
  · intro a b different liveA liveB
    rcases eq_or_ne a i with rfl | ha
    · rw [Function.update_self] at liveA ⊢
      rw [Function.update_of_ne different.symm] at liveB ⊢
      exact (apart liveA b different.symm liveB).1
    · rw [Function.update_of_ne ha] at liveA ⊢
      rcases eq_or_ne b i with rfl | hb
      · rw [Function.update_self] at liveB ⊢
        exact (apart liveB a ha liveA).1.symm
      · rw [Function.update_of_ne hb] at liveB ⊢
        exact separated.disjoint a b different liveA liveB
  · intro a b different liveA liveB
    rcases eq_or_ne a i with rfl | ha
    · rw [Function.update_self] at liveA ⊢
      rw [Function.update_of_ne different.symm] at liveB ⊢
      exact (apart liveA b different.symm liveB).2
    · rw [Function.update_of_ne ha] at liveA ⊢
      rcases eq_or_ne b i with rfl | hb
      · rw [Function.update_self] at liveB ⊢
        exact (apart liveB a ha liveA).2.symm
      · rw [Function.update_of_ne hb] at liveB ⊢
        exact separated.keys a b different liveA liveB

/-- Freeing an entry or changing the flags of a live one moves no range. -/
theorem separated_setFlags {m : VmMap} (separated : Separated m) {i : Slot} (live : (m i).Live)
    (flags : ProtFlags) : Separated (setFlags m i flags) :=
  separated_update separated i _ fun _ j different liveJ =>
    ⟨separated.disjoint i j different.symm live liveJ,
      separated.keys i j different.symm live liveJ⟩

theorem separated_vmUnmap {m : VmMap} (separated : Separated m) (va size : BitVec 64) :
    Separated (vmUnmap m va size).2 := by
  unfold vmUnmap
  cases found : findEntry m va with
  | none => exact separated
  | some i => exact separated_setFlags separated (findEntry_some found).2 vmProtFree

theorem separated_vmProtect {m : VmMap} (separated : Separated m) (va size : BitVec 64)
    (flags : ProtFlags) : Separated (vmProtect m va size flags).2 := by
  unfold vmProtect
  cases found : findEntry m va with
  | none => exact separated
  | some i => exact separated_setFlags separated (findEntry_some found).2 flags

theorem separated_addEntry_iff {m : VmMap} (separated : Separated m) (va pa size : BitVec 64)
    (flags : ProtFlags) :
    Separated (vmMapAddEntry m va pa size flags) ↔ RequestOk m va size flags := by
  rcases vmMapAddEntry_cases m va pa size flags with ⟨refused, same⟩ | ⟨accepted, i, free, added⟩
  · rw [same]
    exact ⟨fun _ _ accepted => absurd accepted refused, fun _ => separated⟩
  · have free := findFree_some free
    rw [added]
    constructor
    · intro after isLive _ j live _
      have different : i ≠ j := by rintro rfl; exact free live
      have liveI : (Function.update m i ⟨va, pa, size, flags⟩ i).Live := by
        rw [Function.update_self]; exact isLive
      have liveJ : (Function.update m i ⟨va, pa, size, flags⟩ j).Live := by
        rw [Function.update_of_ne different.symm]; exact live
      have disjoint := after.disjoint i j different liveI liveJ
      have keys := after.keys i j different liveI liveJ
      rw [Function.update_self, Function.update_of_ne different.symm] at disjoint keys
      exact ⟨disjoint, keys⟩
    · intro ok
      exact separated_update separated i _ fun isLive j _ live =>
        accepted_apart accepted (ok isLive accepted) j live

theorem separated_step_iff (m : VmMap) (c : Call) (separated : Separated m) :
    Separated (step m c) ↔ CallOk m c := by
  cases c with
  | map va pa size flags => exact separated_addEntry_iff separated va pa size flags
  | unmap va size => exact iff_of_true (separated_vmUnmap separated va size) trivial
  | protect va size flags => exact iff_of_true (separated_vmProtect separated va size flags) trivial
  | deallocate va => exact iff_of_true (separated_vmUnmap separated va 0) trivial
  | allocate size flags =>
      simp only [step, vmMapAllocate, CallOk]
      cases found : findFreeVmMapEntrySlot m with
      | none => simpa using separated
      | some i =>
          simpa using separated_addEntry_iff separated (allocatedVa i) (allocatedVa i) size flags

theorem separated_vmInit (m : VmMap) : Separated (vmInit m) := by
  have cleared : Separated fun i => { m i with protectionFlags := vmProtFree } :=
    ⟨fun _ _ _ live => absurd rfl live, fun _ _ _ live => absurd rfl live⟩
  exact (separated_addEntry_iff cleared _ _ _ _).mpr
    fun _ _ _ live => absurd rfl live

/-- Along every run from `vm_init`, live mappings stay disjoint with distinct starts
exactly when no accepted request touches a live entry at an edge. -/
theorem run_separated_iff (m : VmMap) (calls : List Call) :
    Always step Separated (vmInit m) calls ↔ Admitted step CallOk (vmInit m) calls :=
  always_iff_admitted separated_step_iff (separated_vmInit m)

/-- The last page of the address space is mapped twice: its end wraps to 0, so the second
request passes the overlap test. -/
theorem top_page_mapped_twice :
    ¬ Separated ([Call.map 0xFFFFFFFFFFFFF000 0x1000 0x1000 vmProtRead,
      Call.map 0xFFFFFFFFFFFFF000 0x2000 0x1000 vmProtRead].foldl step
        (vmInit fun _ => ⟨0, 0, 0, 0⟩)) := by
  intro separated
  exact separated.keys ⟨1, by decide⟩ ⟨2, by decide⟩ (by decide) (by decide) (by decide) (by decide)

end AstralOS.VmMaps
