import AstralOS.Memory.VmMapsSafety

/-! What `vm_map` and `vm_map_allocate` report against what they did to the table.
Both ignore that `vm_map_add_entry` may refuse, so their results are truthful exactly
where it does not. -/
namespace AstralOS.VmMaps
open Foundation

/-- `m'` is `m` plus the one new live entry `e`. -/
def AddsLive (m m' : VmMap) (e : VmMapEntry) : Prop :=
  e.Live ∧ ∃ i, ¬ (m i).Live ∧ m' = Function.update m i e

structure MapTruthful (m : VmMap) (va pa size : BitVec 64) (flags : ProtFlags) : Prop where
  success : (vmMap m va pa size flags).1 = 0 →
    AddsLive m (vmMap m va pa size flags).2 ⟨va, pa, size, flags⟩
  failure : (vmMap m va pa size flags).1 ≠ 0 → (vmMap m va pa size flags).2 = m

structure AllocateTruthful (m : VmMap) (size : BitVec 64) (flags : ProtFlags) : Prop where
  success : (vmMapAllocate m size flags).1 ≠ 0 →
    AddsLive m (vmMapAllocate m size flags).2
      ⟨(vmMapAllocate m size flags).1, (vmMapAllocate m size flags).1, size, flags⟩
  apart : (vmMapAllocate m size flags).1 ≠ 0 → ∀ j, (m j).Live →
    Disjoint (rangeOf (vmMapAllocate m size flags).1 size) (m j).range
  failure : (vmMapAllocate m size flags).1 = 0 → (vmMapAllocate m size flags).2 = m

/-- The range ends at or past `2 ^ 64`, where its 64-bit end has wrapped. -/
def ReachesTop (va size : BitVec 64) : Prop := 2 ^ 64 ≤ va.toNat + size.toNat

/-- The address of the next free slot passes the overlap test, and no live entry
shares an address with it in a pair where one range reaches the top. -/
def AllocateOk (m : VmMap) (size : BitVec 64) : Prop :=
  ∀ i, findFreeVmMapEntrySlot m = some i →
    checkRangeOverlap m (allocatedVa i) size = false ∧
    ∀ j, (m j).Live →
      ReachesTop (allocatedVa i) size ∨ ReachesTop (m j).virtualAddress (m j).size →
      Disjoint (rangeOf (allocatedVa i) size) (m j).range

/-- The calls that free no entry. -/
def Call.Keeps : Call → Prop
  | .unmap _ _ | .deallocate _ => False
  | .protect _ _ flags => flags ≠ vmProtFree
  | .map .. | .allocate .. => True

theorem allocatedVa_toNat (i : Slot) :
    (allocatedVa i).toNat = 0x40000000 + i.val * 0x100000 := by
  have hi : i.val < 64 := i.isLt
  rw [allocatedVa, BitVec.toNat_ofNat, initialMappingBase, allocAlign]
  exact Nat.mod_eq_of_lt (by omega)

theorem allocatedVa_ne_zero (i : Slot) : allocatedVa i ≠ 0 := by
  intro h
  have := allocatedVa_toNat i
  rw [h] at this
  change 0 = _ at this
  omega

theorem allocatedVa_injective {i j : Slot} (h : allocatedVa i = allocatedVa j) : i = j := by
  have := congrArg BitVec.toNat h
  rw [allocatedVa_toNat, allocatedVa_toNat] at this
  exact Fin.ext (by omega)

theorem rangeOf_zero (va : BitVec 64) : rangeOf va 0 = ∅ := by
  ext a
  simp [rangeOf]

/-- A range that passes the test is disjoint from every live entry, when the pairs
with wrapped ends are. -/
theorem disjoint_of_passed {m : VmMap} {va size : BitVec 64}
    (passed : checkRangeOverlap m va size = false)
    (top : ∀ j, (m j).Live → ReachesTop va size ∨ ReachesTop (m j).virtualAddress (m j).size →
      Disjoint (rangeOf va size) (m j).range) (j : Slot) (live : (m j).Live) :
    Disjoint (rangeOf va size) (m j).range := by
  by_cases wraps : ReachesTop va size ∨ ReachesTop (m j).virtualAddress (m j).size
  · exact top j live wraps
  · rw [not_or] at wraps
    by_cases empty : size = 0 ∨ (m j).size = 0
    · rcases empty with rfl | zero
      · rw [rangeOf_zero]
        exact Set.empty_disjoint _
      · rw [VmMapEntry.range, zero, rangeOf_zero]
        exact Set.disjoint_empty _
    · rw [not_or] at empty
      exact (apart_of_no_overlap (not_or.mpr ⟨empty.1, wraps.1⟩) (not_or.mpr ⟨empty.2, wraps.2⟩)
        (checkRangeOverlap_eq_false.mp passed j live)).1

/-- A full or refused table is no table with one more live entry. -/
theorem not_addsLive_self (m : VmMap) (e : VmMapEntry) : ¬ AddsLive m m e := by
  rintro ⟨live, i, free, same⟩
  apply free
  rw [congrFun same i, Function.update_self]
  exact live

theorem mapTruthful_iff (m : VmMap) (va pa size : BitVec 64) {flags : ProtFlags}
    (live : flags ≠ vmProtFree) : MapTruthful m va pa size flags ↔ Accepts m va size := by
  rcases vmMapAddEntry_cases m va pa size flags with ⟨refused, same⟩ | ⟨accepted, i, free, added⟩
  · refine iff_of_false (fun truthful => ?_) refused
    have := truthful.success rfl
    rw [vmMap, same] at this
    exact not_addsLive_self m _ this
  · refine iff_of_true ⟨fun _ => ?_, fun failed => absurd rfl failed⟩ accepted
    exact ⟨live, i, findFree_some free, added⟩

theorem allocateTruthful_iff (m : VmMap) (size : BitVec 64) {flags : ProtFlags}
    (live : flags ≠ vmProtFree) : AllocateTruthful m size flags ↔ AllocateOk m size := by
  cases found : findFreeVmMapEntrySlot m with
  | none =>
      have result : vmMapAllocate m size flags = (0, m) := by rw [vmMapAllocate, found]
      refine iff_of_true ⟨?_, ?_, ?_⟩ fun i some => by rw [found] at some; cases some
      · rw [result]; exact fun nonzero => absurd rfl nonzero
      · rw [result]; exact fun nonzero => absurd rfl nonzero
      · rw [result]; exact fun _ => rfl
  | some i =>
      have result : vmMapAllocate m size flags =
          (allocatedVa i, vmMapAddEntry m (allocatedVa i) (allocatedVa i) size flags) := by
        rw [vmMapAllocate, found]
      have nonzero : (vmMapAllocate m size flags).1 ≠ 0 := by
        rw [result]; exact allocatedVa_ne_zero i
      rcases vmMapAddEntry_cases m (allocatedVa i) (allocatedVa i) size flags with
        ⟨refused, same⟩ | ⟨accepted, k, free, added⟩
      · refine iff_of_false (fun truthful => ?_) fun ok =>
          refused ⟨(ok i found).1, i, findFree_some found⟩
        have := truthful.success nonzero
        rw [result, same] at this
        exact not_addsLive_self m _ this
      · constructor
        · intro truthful j slot
          obtain rfl : i = j := Option.some.inj (found.symm.trans slot)
          refine ⟨accepted.1, fun j live _ => ?_⟩
          have := truthful.apart nonzero j live
          rwa [result] at this
        · intro ok
          refine ⟨fun _ => ?_, fun _ j liveJ => ?_, fun zero => absurd zero nonzero⟩
          · rw [result, added]
            exact ⟨live, k, findFree_some free, rfl⟩
          · rw [result]
            exact disjoint_of_passed (ok i found).1 (ok i found).2 j liveJ

/-- A call that frees nothing keeps a live slot live. -/
theorem live_step {m : VmMap} {i : Slot} {c : Call} (keeps : c.Keeps) (live : (m i).Live) :
    (step m c i).Live := by
  have adds : ∀ va pa size flags, (vmMapAddEntry m va pa size flags i).Live := by
    intro va pa size flags
    rcases vmMapAddEntry_cases m va pa size flags with ⟨_, same⟩ | ⟨_, k, free, added⟩
    · rw [same]; exact live
    · have : i ≠ k := by rintro rfl; exact findFree_some free live
      rw [added, Function.update_of_ne this]
      exact live
  cases c with
  | unmap va size => exact keeps.elim
  | deallocate va => exact keeps.elim
  | map va pa size flags => exact adds va pa size flags
  | allocate size flags =>
      simp only [step, vmMapAllocate]
      cases findFreeVmMapEntrySlot m with
      | none => exact live
      | some k => exact adds _ _ _ _
  | protect va size flags =>
      simp only [step, vmProtect]
      cases findEntry m va with
      | none => exact live
      | some k =>
          rcases eq_or_ne i k with rfl | different
          · simpa [setFlags, VmMapEntry.Live, Call.Keeps] using keeps
          · simpa [setFlags, Function.update_of_ne different] using live

theorem live_run {m : VmMap} {i : Slot} {calls : List Call} (keeps : ∀ c ∈ calls, c.Keeps)
    (live : (m i).Live) : (calls.foldl step m i).Live := by
  induction calls generalizing m with
  | nil => exact live
  | cons c rest ih =>
      exact ih (fun d member => keeps d (List.mem_cons_of_mem c member))
        (live_step (keeps c List.mem_cons_self) live)

/-- No address is handed out twice while the first allocation lives. -/
theorem allocate_fresh {m : VmMap} {size : BitVec 64} {flags : ProtFlags}
    (live : flags ≠ vmProtFree) (ok : AllocateOk m size) {between : List Call}
    (keeps : ∀ c ∈ between, c.Keeps) (size' : BitVec 64) (flags' : ProtFlags)
    (nonzero : (vmMapAllocate m size flags).1 ≠ 0) :
    (vmMapAllocate (between.foldl step (vmMapAllocate m size flags).2) size' flags').1 ≠
      (vmMapAllocate m size flags).1 := by
  have truthful := (allocateTruthful_iff m size live).mpr ok
  cases found : findFreeVmMapEntrySlot m with
  | none => exact absurd (by rw [vmMapAllocate, found]) nonzero
  | some i =>
      have first : (vmMapAllocate m size flags).1 = allocatedVa i := by rw [vmMapAllocate, found]
      have taken : ((vmMapAllocate m size flags).2 i).Live := by
        have accepted : Accepts m (allocatedVa i) size := ⟨(ok i found).1, i, findFree_some found⟩
        rcases vmMapAddEntry_cases m (allocatedVa i) (allocatedVa i) size flags with
          ⟨refused, _⟩ | ⟨_, k, free, added⟩
        · exact absurd accepted refused
        · obtain rfl : i = k := Option.some.inj (found.symm.trans free)
          simp only [vmMapAllocate, found, added, Function.update_self]
          exact live
      have stays := live_run keeps taken
      rw [first]
      cases again : findFreeVmMapEntrySlot (between.foldl step (vmMapAllocate m size flags).2) with
      | none =>
          rw [vmMapAllocate, again]
          exact (allocatedVa_ne_zero i).symm
      | some k =>
          rw [vmMapAllocate, again]
          intro same
          obtain rfl := allocatedVa_injective same
          exact findFree_some again stays

/-- In every reachable table the results of `vm_map` and `vm_map_allocate` are truthful
exactly on these conditions, and then no address is handed out twice. -/
theorem results_truthful_iff (m : VmMap) (calls : List Call) :
    (∀ va pa size flags, flags ≠ vmProtFree →
      (MapTruthful (calls.foldl step (vmInit m)) va pa size flags ↔
        Accepts (calls.foldl step (vmInit m)) va size)) ∧
    (∀ size flags, flags ≠ vmProtFree →
      (AllocateTruthful (calls.foldl step (vmInit m)) size flags ↔
        AllocateOk (calls.foldl step (vmInit m)) size)) ∧
    (∀ size flags (between : List Call) size' flags', flags ≠ vmProtFree →
      AllocateOk (calls.foldl step (vmInit m)) size → (∀ c ∈ between, Call.Keeps c) →
      (vmMapAllocate (calls.foldl step (vmInit m)) size flags).1 ≠ 0 →
      (vmMapAllocate (between.foldl step
        (vmMapAllocate (calls.foldl step (vmInit m)) size flags).2) size' flags').1 ≠
        (vmMapAllocate (calls.foldl step (vmInit m)) size flags).1) := by
  refine ⟨fun va pa size _ live => mapTruthful_iff _ va pa size live,
    fun size _ live => allocateTruthful_iff _ size live, ?_⟩
  intro size flags between size' flags' live ok keeps nonzero
  exact allocate_fresh live ok keeps size' flags' nonzero

/-- Right after `vm_init`, mapping inside the kernel's first gigabyte is refused and
still reported as a success. -/
theorem refused_map_reports_success :
    ¬ MapTruthful (vmInit fun _ => ⟨0, 0, 0, 0⟩) 0 0 0x1000 vmProtRead := by
  intro truthful
  have refused : checkRangeOverlap (vmInit fun _ => ⟨0, 0, 0, 0⟩) 0 0x1000 = true := by decide
  have added := truthful.success rfl
  rw [vmMap, vmMapAddEntry, if_pos refused] at added
  exact not_addsLive_self _ _ added

end AstralOS.VmMaps
