import AstralOS.Memory.VmMapsSafety

/-! The write-xor-execute policy: what `security_enforce_wx` achieves over a range. -/
namespace AstralOS.Security
open Foundation VmMaps

/-- The flags that `security_enforce_wx` acts on. -/
def WriteExec (flags : ProtFlags) : Prop := flags &&& vmProtWrite ≠ 0 ∧ flags &&& vmProtExec ≠ 0

instance (flags : ProtFlags) : Decidable (WriteExec flags) := inferInstanceAs (Decidable (_ ∧ _))

def securityEnforceWx (m : VmMap) (addr size : BitVec 64) (currentProtFlags : ProtFlags) : VmMap :=
  if WriteExec currentProtFlags then
    (vmProtect m addr size (currentProtFlags &&& ~~~vmProtExec)).2
  else m

/-- No live entry with an address in the range is writable and executable afterwards, and
the live entries with none there are as they were. -/
structure Enforced (m m' : VmMap) (addr size : BitVec 64) : Prop where
  exclusive : ∀ j, (m' j).Live → ¬ Disjoint (m' j).range (rangeOf addr size) →
    ¬ WriteExec (m' j).protectionFlags
  frame : ∀ j, (m j).Live → Disjoint (m j).range (rangeOf addr size) → m' j = m j

/-- The slot of the first live entry that starts at `addr`. -/
structure FirstAt (m : VmMap) (addr : BitVec 64) (j : Slot) : Prop where
  live : (m j).Live
  start : (m j).virtualAddress = addr
  first : ∀ i < j, (m i).Live → (m i).virtualAddress ≠ addr

/-- The one writable and executable entry that the range may meet is the first that starts at
`addr`; and that first entry, when it is empty, already carries the flags it will be given. -/
structure Enforceable (m : VmMap) (addr size : BitVec 64) (flags : ProtFlags) : Prop where
  selected : ∀ j, (m j).Live → ¬ Disjoint (m j).range (rangeOf addr size) →
    WriteExec (m j).protectionFlags → FirstAt m addr j
  spared : ∀ j, FirstAt m addr j → (m j).size ≠ 0 ∨ (m j).protectionFlags = flags &&& ~~~vmProtExec

variable {m : VmMap} {addr size : BitVec 64} {flags : ProtFlags} {i j : Slot}

theorem FirstAt.unique (one : FirstAt m addr i) (other : FirstAt m addr j) : i = j := by
  rcases lt_trichotomy i j with before | same | after
  · exact absurd one.start (other.first i before one.live)
  · exact same
  · exact absurd other.start (one.first j after other.live)

theorem findEntry_first (found : findEntry m addr = some i) : FirstAt m addr i := by
  obtain ⟨start, live⟩ := findEntry_some found
  refine ⟨live, start, fun k before liveK same => ?_⟩
  have missed := (List.find?_eq_some_iff_getElem.mp found).2
  obtain ⟨at_, inside, here, skipped⟩ := missed
  rw [List.getElem_finRange] at here
  have position : at_ = i.val := congrArg Fin.val here
  have := skipped k.val (by rw [position]; exact before)
  rw [List.getElem_finRange] at this
  simp only [Fin.cast_mk, Fin.eta] at this
  simp [same] at this
  exact liveK this

theorem not_first_of_none (missing : findEntry m addr = none) : ¬ FirstAt m addr j := by
  rintro ⟨live, start, _⟩
  have := List.find?_eq_none.mp missing j (List.mem_finRange j)
  simp [start] at this
  exact live this

/-- Without the execute bit the flags are not both, and still those of a live entry. -/
theorem enforced_flags (both : WriteExec flags) :
    ¬ WriteExec (flags &&& ~~~vmProtExec) ∧ flags &&& ~~~vmProtExec ≠ vmProtFree := by
  constructor
  · rintro ⟨_, exec⟩
    have gone : ~~~vmProtExec &&& vmProtExec = 0 := by decide
    rw [BitVec.and_assoc, gone] at exec
    exact exec BitVec.and_zero
  · intro free
    have kept : ~~~vmProtExec &&& vmProtWrite = vmProtWrite := by decide
    have none_left : vmProtFree &&& vmProtWrite = 0 := by decide
    rw [← free, BitVec.and_assoc, kept] at none_left
    exact both.1 none_left

theorem start_mem_range (nonempty : size ≠ 0) : addr ∈ rangeOf addr size := by
  have positive : 0 < size.toNat := Nat.pos_of_ne_zero fun zero => nonempty (BitVec.eq_of_toNat_eq zero)
  exact ⟨0, positive, by simp⟩

/-- An entry that starts at the start of the range meets it unless the entry is empty. -/
theorem FirstAt.disjoint_iff (first : FirstAt m addr j) (nonempty : size ≠ 0) :
    Disjoint (m j).range (rangeOf addr size) ↔ (m j).size = 0 := by
  constructor
  · intro apart
    by_contra filled
    have inside : addr ∈ (m j).range := by
      rw [VmMapEntry.range, first.start]
      exact start_mem_range filled
    exact Set.disjoint_left.mp apart inside (start_mem_range nonempty)
  · intro empty
    have none_there : (m j).range = ∅ := by
      rw [VmMapEntry.range, empty]
      ext a
      simp [rangeOf]
    rw [none_there]
    exact Set.empty_disjoint _

/-- All that `security_enforce_wx` does: the first entry at `addr`, if any, gets new flags. -/
theorem securityEnforceWx_cases (both : WriteExec flags) :
    (findEntry m addr = none ∧ securityEnforceWx m addr size flags = m) ∨
    ∃ i, FirstAt m addr i ∧
      securityEnforceWx m addr size flags = setFlags m i (flags &&& ~~~vmProtExec) := by
  rw [securityEnforceWx, if_pos both, vmProtect]
  cases found : findEntry m addr with
  | none => exact .inl ⟨rfl, rfl⟩
  | some i => exact .inr ⟨i, findEntry_first found, rfl⟩

/-- No entry is selected: nothing changes, so nothing may need to. -/
theorem enforced_same_iff (missing : findEntry m addr = none) :
    Enforced m m addr size ↔ Enforceable m addr size flags := by
  constructor
  · intro enforced
    refine ⟨fun j live meets both => absurd both (enforced.exclusive j live meets), fun j first => ?_⟩
    exact absurd first (not_first_of_none missing)
  · intro ok
    refine ⟨fun j live meets both => ?_, fun _ _ _ => rfl⟩
    exact not_first_of_none missing (ok.selected j live meets both)

/-- The selected entry gets the flags; what holds of the others held before. -/
theorem enforced_setFlags_iff (both : WriteExec flags) (nonempty : size ≠ 0) (first : FirstAt m addr i) :
    Enforced m (setFlags m i (flags &&& ~~~vmProtExec)) addr size ↔ Enforceable m addr size flags := by
  have own : setFlags m i (flags &&& ~~~vmProtExec) i = { m i with protectionFlags := flags &&& ~~~vmProtExec } :=
    Function.update_self ..
  have others {j : Slot} (apart : j ≠ i) : setFlags m i (flags &&& ~~~vmProtExec) j = m j :=
    Function.update_of_ne apart ..
  constructor
  · intro enforced
    constructor
    · intro j live meets bothJ
      by_cases here : j = i
      · exact here ▸ first
      · have after := enforced.exclusive j
        rw [others here] at after
        exact absurd bothJ (after live meets)
    · intro j firstJ
      obtain rfl := first.unique firstJ
      refine or_iff_not_imp_left.mpr fun empty => ?_
      have same := enforced.frame i first.live ((first.disjoint_iff nonempty).mpr (Classical.not_not.mp empty))
      rw [own] at same
      exact (congrArg VmMapEntry.protectionFlags same).symm
  · intro ok
    constructor
    · intro j live meets bothJ
      by_cases here : j = i
      · rw [here, own] at bothJ
        exact (enforced_flags both).1 bothJ
      · rw [others here] at live meets bothJ
        exact here ((ok.selected j live meets bothJ).unique first)
    · intro j live apart
      by_cases here : j = i
      · rw [here] at apart ⊢
        have empty := (first.disjoint_iff nonempty).mp apart
        have already := (ok.spared i first).resolve_left fun filled => filled empty
        rw [own, ← already]
      · exact others here

theorem enforced_iff (both : WriteExec flags) (nonempty : size ≠ 0) :
    Enforced m (securityEnforceWx m addr size flags) addr size ↔ Enforceable m addr size flags := by
  rcases @securityEnforceWx_cases m addr size flags both with
    ⟨missing, same⟩ | ⟨i, first, changed⟩
  · rw [same]
    exact enforced_same_iff missing
  · rw [changed]
    exact enforced_setFlags_iff both nonempty first

/-- In every table that mapping calls make of the initial one, the policy holds over the range
after the call exactly when its one violation was the entry the call selects. -/
theorem write_exec_enforced_iff (m : VmMap) (calls : List Call) (addr size : BitVec 64) (flags : ProtFlags)
    (nonempty : size ≠ 0) (both : WriteExec flags) :
    Enforced (calls.foldl step (vmInit m)) (securityEnforceWx (calls.foldl step (vmInit m)) addr size flags)
        addr size ↔
      Enforceable (calls.foldl step (vmInit m)) addr size flags :=
  enforced_iff both nonempty

theorem write_exec_enforced_iff_kernel :
    Enforced (vmInit fun _ => ⟨0, 0, 0, 0⟩) (securityEnforceWx (vmInit fun _ => ⟨0, 0, 0, 0⟩) 0 0x40000000 6)
        0 0x40000000 ↔
      Enforceable (vmInit fun _ => ⟨0, 0, 0, 0⟩) 0 0x40000000 6 :=
  write_exec_enforced_iff (fun _ => ⟨0, 0, 0, 0⟩) [] 0 0x40000000 6 (by decide) (by decide)

/-- The range starts inside the kernel's mapping, so no entry is selected and the mapping stays
writable and executable. -/
theorem kernel_page_stays_write_exec :
    ¬ Enforced (vmInit fun _ => ⟨0, 0, 0, 0⟩)
      (securityEnforceWx (vmInit fun _ => ⟨0, 0, 0, 0⟩) 0x1000 0x1000 6) 0x1000 0x1000 := by
  intro enforced
  have inside : 0x1000#64 ∈ rangeOf 0 0x40000000 := ⟨0x1000, by decide, by decide⟩
  refine enforced.exclusive ⟨0, by decide⟩ (by decide) (fun apart => ?_) (by decide)
  exact Set.disjoint_left.mp apart inside (start_mem_range (by decide))

end AstralOS.Security
