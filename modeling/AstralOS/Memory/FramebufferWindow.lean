import AstralOS.Memory.VmMapsResults
import AstralOS.Memory.Mmu

/-! What `vm_map_allocate` hands out against the framebuffer that `cpu_enable_mmu` maps. Both start at
`INITIAL_MAPPING_BASE`, so that the addresses of the first sixteen slots lie in it. -/
namespace AstralOS.VmMaps
open Foundation

/-- The 16 MB that `cpu_enable_mmu` maps as device memory. -/
def framebufferWindow : Set (BitVec 64) := rangeOf Mmu.fbBasePa Mmu.fbSize

/-- What an allocation hands out is apart from the framebuffer. -/
def AllocatesClear (m : VmMap) : Call → Prop
  | .allocate size flags => size ≠ 0 → (vmMapAllocate m size flags).1 ≠ 0 →
      Disjoint (rangeOf (vmMapAllocate m size flags).1 size) framebufferWindow
  | _ => True

/-- The first sixteen slots are in use, and the range does not come around to the framebuffer from above. -/
def PastWindow (m : VmMap) : Call → Prop
  | .allocate size _ => size ≠ 0 → ∀ i, findFreeVmMapEntrySlot m = some i →
      16 ≤ i.val ∧ (allocatedVa i).toNat + size.toNat ≤ 2 ^ 64 + 0x40000000
  | _ => True

section
variable {m : VmMap} {a size : BitVec 64} {flags : ProtFlags} {i : Slot}

theorem mem_framebufferWindow : a ∈ framebufferWindow ↔ 0x40000000 ≤ a.toNat ∧ a.toNat < 0x41000000 :=
  mem_rangeOf_inside (not_or.mpr ⟨by decide, by decide⟩)

/-- The window is the blocks for which the loop of `cpu_enable_mmu` makes an entry. -/
theorem framebufferWindow_blocks : a ∈ framebufferWindow ↔ ∃ k < Mmu.fbSize.toNat / Mmu.blockSize.toNat,
    a ∈ rangeOf (Mmu.fbBasePa + BitVec.ofNat 64 k * Mmu.blockSize) Mmu.blockSize := by
  have blocks : Mmu.fbSize.toNat / Mmu.blockSize.toNat = 8 := by decide
  have start {k : Nat} (few : k < 8) :
      (Mmu.fbBasePa + BitVec.ofNat 64 k * Mmu.blockSize).toNat = 0x40000000 + k * 0x200000 := by
    rw [BitVec.toNat_add, BitVec.toNat_mul, BitVec.toNat_ofNat]
    change (0x40000000 + k % 2 ^ 64 * 0x200000 % 2 ^ 64) % 2 ^ 64 = _
    omega
  have size : Mmu.blockSize.toNat = 0x200000 := rfl
  rw [mem_framebufferWindow, blocks]
  constructor
  · rintro ⟨low, high⟩
    have few : (a.toNat - 0x40000000) / 0x200000 < 8 := by omega
    refine ⟨_, few, mem_rangeOf.mpr ?_⟩
    rw [BitVec.toNat_sub, start few, size]
    omega
  · rintro ⟨k, few, inside⟩
    rw [mem_rangeOf, BitVec.toNat_sub, start few, size] at inside
    have := a.isLt
    omega

/-- The address of a slot against the window. -/
theorem allocated_disjoint_iff (some_ : size ≠ 0) : Disjoint (rangeOf (allocatedVa i) size) framebufferWindow ↔
    16 ≤ i.val ∧ (allocatedVa i).toNat + size.toNat ≤ 2 ^ 64 + 0x40000000 := by
  have va := allocatedVa_toNat i
  have slots : i.val < 64 := i.isLt
  have positive : 0 < size.toNat := Nat.pos_of_ne_zero fun zero => some_ (BitVec.eq_of_toNat_eq zero)
  rw [Set.disjoint_left]
  constructor
  · intro apart
    have past : 16 ≤ i.val := by
      by_contra early
      have first : allocatedVa i ∈ rangeOf (allocatedVa i) size := by
        rw [mem_rangeOf, BitVec.sub_self]
        exact positive
      exact apart first (mem_framebufferWindow.mpr ⟨by omega, by omega⟩)
    refine ⟨past, ?_⟩
    by_contra around
    have base : 0x40000000#64 ∈ rangeOf (allocatedVa i) size := by
      rw [mem_rangeOf, BitVec.toNat_sub]
      change (2 ^ 64 - (allocatedVa i).toNat + 0x40000000) % 2 ^ 64 < _
      omega
    exact apart base (mem_framebufferWindow.mpr (by decide))
  · rintro ⟨past, below⟩ a inside window
    rw [mem_rangeOf, BitVec.toNat_sub] at inside
    rw [mem_framebufferWindow] at window
    omega

/-- One call is clear of the framebuffer exactly when the first sixteen slots are in use. -/
theorem allocatesClear_iff (m : VmMap) (c : Call) : AllocatesClear m c ↔ PastWindow m c := by
  cases c with
  | allocate size flags =>
      refine imp_congr_right fun some_ => ?_
      cases found : findFreeVmMapEntrySlot m with
      | none =>
          have null : (vmMapAllocate m size flags).1 = 0 := by rw [vmMapAllocate, found]
          exact iff_of_true (fun nonnull => absurd null nonnull) fun i none_ => absurd none_ (Option.some_ne_none i).symm
      | some i =>
          have address : (vmMapAllocate m size flags).1 = allocatedVa i := by rw [vmMapAllocate, found]
          rw [address, allocated_disjoint_iff some_, forall_prop_of_true (allocatedVa_ne_zero i)]
          refine ⟨fun past j same => ?_, fun past => past i rfl⟩
          cases same
          exact past
  | map va pa size flags => exact Iff.rfl
  | unmap va size => exact Iff.rfl
  | protect va size flags => exact Iff.rfl
  | deallocate va => exact Iff.rfl

end

/-- Along every run from `vm_init` the allocations are clear of the framebuffer exactly when each is made while
the first sixteen slots are in use, for a size that does not take it around the address space to it. -/
theorem allocations_clear_iff (m : VmMap) (calls : List Call) :
    Admitted step AllocatesClear (vmInit m) calls ↔ Admitted step PastWindow (vmInit m) calls :=
  admitted_congr (fun _ => True) (fun _ _ _ _ => trivial) (fun m c _ _ => allocatesClear_iff m c) trivial
    admitted_true

/-- The first allocation after `vm_init` is the second megabyte of the framebuffer. -/
theorem first_allocation_in_framebuffer :
    ¬ ∀ (m : VmMap) (calls : List Call), Admitted step AllocatesClear (vmInit m) calls := by
  intro clear
  have first := (clear (fun _ => ⟨0, 0, 0, 0⟩) [.allocate 0x1000 vmProtRead]).1
  have past := (allocatesClear_iff _ _).mp first (by decide) ⟨1, by decide⟩ (by decide)
  exact absurd past.1 (by decide)

end AstralOS.VmMaps
