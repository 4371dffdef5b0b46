import AstralOS.Fs.Directory

/-! The directories of the file system refine finite maps from names to inode numbers. -/
namespace AstralOS.Fs
open Foundation AstralOS.Lib

/-- The inodes in use, those of them that are directories, and what each directory binds. -/
structure Catalog where
  inodes : Set (BitVec 32)
  directories : Set (BitVec 32)
  entry : BitVec 32 → CString → Option (BitVec 32)

namespace Catalog

/-- A root that binds nothing. -/
def fresh : Catalog := ⟨{1#32}, {1#32}, fun _ _ => none⟩

def bind (c : Catalog) (d : BitVec 32) (name : CString) (id : BitVec 32) (type : BitVec 16) :
    Catalog where
  inodes := insert id c.inodes
  directories := if type = fsInodeTypeDir then insert id c.directories else c.directories
  entry := Function.update c.entry d (Function.update (c.entry d) name (some id))

def unbind (c : Catalog) (d : BitVec 32) (name : CString) (id : BitVec 32) : Catalog where
  inodes := c.inodes \ {id}
  directories := c.directories \ {id}
  entry := Function.update (Function.update c.entry id fun _ => none) d
    (Function.update (c.entry d) name none)

/-- A creation that must fail. -/
def Refuses (c : Catalog) (d : BitVec 32) (name : CString) : Prop :=
  fsMaxFilenameLen < strlen name ∨ d ∉ c.directories ∨ c.entry d name ≠ none ∨
    ∀ id, ValidId id → id ∈ c.inodes

/-- What a call returns and does. -/
def Allows (c : Catalog) : Call → Int → Catalog → Prop
  | .create d name type _, r, c' =>
      (c.Refuses d name → r = 0 ∧ c' = c) ∧
      (¬ c.Refuses d name → ∃ id, ValidId id ∧ id ∉ c.inodes ∧ r = id.toNat ∧ c' = c.bind d name id type)
  | .delete d name, r, c' =>
      match c.entry d name with
      | none => r = -1 ∧ c' = c
      | some id => r = 0 ∧ c' = c.unbind d name id
  | .lookup d name, r, c' => r = (((c.entry d name).getD 0#32).toNat : Int) ∧ c' = c
  | .read _ _ _, _, c' => c' = c
  | .write _ _ _ _, _, c' => c' = c

end Catalog

/-- Distinct names of legal length, none of them for the directory itself, and the size. -/
structure Tidy (v : Volume) (d : BitVec 32) : Prop where
  distinct : (v.slots d).Distinct
  short : ∀ name ∈ (v.slots d).keys, strlen name ≤ fsMaxFilenameLen
  proper : ∀ name, ¬ (v.slots d).Binds name d
  size : (v.inode d).size.toNat = dirEntrySize * (v.slots d).keys.ncard

structure Depicts (v : Volume) (live : Set (BitVec 32)) (c : Catalog) : Prop where
  inodes : c.inodes = live
  directories : ∀ d, d ∈ c.directories ↔ d ∈ live ∧ isDir (v.inode d)
  entries : ∀ d ∈ c.directories, ∀ name id, c.entry d name = some id ↔ (v.slots d).Binds name id
  others : ∀ d ∉ c.directories, ∀ name, c.entry d name = none
  tidy : ∀ d ∈ c.directories, Tidy v d

section
variable {v v' : Volume} {live : Set (BitVec 32)} {c : Catalog} {d id : BitVec 32} {name : CString}
  {s : Slot}

theorem Catalog.not_refuses (short : strlen name ≤ fsMaxFilenameLen) (dir : d ∈ c.directories)
    (unbound : c.entry d name = none) (valid : ValidId id) (unused : id ∉ c.inodes) :
    ¬ c.Refuses d name := by
  rintro (long | other | bound | full)
  · exact absurd short (Nat.not_le.mpr long)
  · exact other dir
  · exact bound unbound
  · exact unused (full id valid)

theorem Tidy.congr (tidy : Tidy v d) (slots : v'.slots d = v.slots d)
    (size : (v'.inode d).size = (v.inode d).size) : Tidy v' d := by
  obtain ⟨distinct, short, proper, sizeOf⟩ := tidy
  rw [← slots] at distinct short proper sizeOf
  exact ⟨distinct, short, proper, by rw [size]; exact sizeOf⟩

theorem Tidy.ncard_le (tidy : Tidy v d) : (v.inode d).size.toNat ≤ dirEntrySize * 1130 := by
  have := (v.slots d).ncard_keys_le
  rw [tidy.size]
  exact Nat.mul_le_mul_left _ (this.trans_eq (by simp))

theorem Tidy.fill (tidy : Tidy v d) (free : v.slots d s = none) (new : name ∉ (v.slots d).keys)
    (short : strlen name ≤ fsMaxFilenameLen) (apart : id ≠ d)
    (edited : Edited v v' live d s (some (name, id)) ((v.inode d).size + BitVec.ofNat 64 dirEntrySize)) :
    Tidy v' d := by
  have bound := tidy.ncard_le
  refine ⟨?_, fun key member => ?_, fun key bound => ?_, ?_⟩
  · rw [edited.slots]
    exact SlotTable.distinct_fill tidy.distinct new
  · rw [edited.slots, SlotTable.keys_fill free] at member
    rcases member with rfl | before
    · exact short
    · exact tidy.short key before
  · rw [edited.slots, SlotTable.binds_fill free] at bound
    rcases bound with before | ⟨_, self⟩
    · exact tidy.proper key before
    · exact apart self.symm
  · rw [edited.size, edited.slots, SlotTable.ncard_keys_fill free new, Nat.mul_add, ← tidy.size,
      BitVec.toNat_add, BitVec.toNat_ofNat]
    rw [dirEntrySize] at bound ⊢
    omega

theorem Tidy.clear (tidy : Tidy v d) (held : v.slots d s = some (name, id))
    (edited : Edited v v' live d s none ((v.inode d).size - BitVec.ofNat 64 dirEntrySize)) :
    Tidy v' d := by
  have count := SlotTable.ncard_keys_clear tidy.distinct held
  have size := tidy.size
  have bound := tidy.ncard_le
  refine ⟨?_, fun key member => ?_, fun key bound => ?_, ?_⟩
  · rw [edited.slots]
    exact SlotTable.distinct_clear tidy.distinct
  · rw [edited.slots, SlotTable.keys_clear tidy.distinct held] at member
    exact tidy.short key member.1
  · rw [edited.slots, SlotTable.binds_clear tidy.distinct held] at bound
    exact tidy.proper key bound.1
  · rw [edited.size, edited.slots, BitVec.toNat_sub, BitVec.toNat_ofNat]
    rw [← count] at size
    rw [dirEntrySize] at size bound ⊢
    omega

/-- What a directory binds is what its slots hold. -/
theorem Depicts.entry_eq_none (depicts : Depicts v live c) (member : d ∈ c.directories) :
    c.entry d name = none ↔ name ∉ (v.slots d).keys := by
  rw [← not_iff_not, not_not]
  constructor
  · intro bound
    obtain ⟨id, eq⟩ := Option.ne_none_iff_exists'.mp bound
    exact ⟨id, (depicts.entries d member name id).mp eq⟩
  · rintro ⟨id, bound⟩ none_
    rw [(depicts.entries d member name id).mpr bound] at none_
    cases none_

theorem Catalog.mem_directories_bind {type : BitVec 16} {x : BitVec 32} :
    x ∈ (c.bind d name id type).directories ↔ (x = id ∧ type = fsInodeTypeDir) ∨ x ∈ c.directories := by
  rw [Catalog.bind]
  by_cases isDirectory : type = fsInodeTypeDir
  · simp [isDirectory]
  · simp [isDirectory]

theorem isDir_newInode {type : BitVec 16} (kind : type = fsInodeTypeFile ∨ type = fsInodeTypeDir) :
    isDir (newInode id type) ↔ type = fsInodeTypeDir := by
  rcases kind with rfl | rfl
  · exact iff_of_false (isFile_of_type rfl).2 (by decide)
  · exact iff_of_true (isDir_of_type rfl).1 rfl

theorem slots_newInode {type : BitVec 16} (record : v.inode id = newInode id type) :
    v.slots id = fun _ => none := by
  rw [Volume.slots, record]
  exact slotTable_empty fun _ => rfl

/-- A new inode binds no name. -/
theorem Tidy.newInode {type : BitVec 16} (record : v.inode id = newInode id type) : Tidy v id := by
  have empty := slots_newInode record
  have nothing : ∀ name x, ¬ (v.slots id).Binds name x := by
    rintro name x ⟨_, held⟩
    rw [empty] at held
    cases held
  have keys : (v.slots id).keys = ∅ := Set.eq_empty_of_forall_notMem fun name ⟨x, bound⟩ => nothing name x bound
  refine ⟨?_, fun name bound => ?_, fun name => nothing name id, ?_⟩
  · rw [empty]
    intro _ _ _ _ _ held
    cases held
  · rw [keys] at bound
    cases bound
  · rw [keys, record, Set.ncard_empty]
    rfl

theorem Depicts.create (depicts : Depicts v live c) {type : BitVec 16}
    (kind : type = fsInodeTypeFile ∨ type = fsInodeTypeDir) (member : d ∈ c.directories)
    (dead : id ∉ live) (record : v'.inode id = newInode id type) (free : v.slots d s = none)
    (unbound : c.entry d name = none) (short : strlen name ≤ fsMaxFilenameLen)
    (edited : Edited v v' live d s (some (name, id)) ((v.inode d).size + BitVec.ofNat 64 dirEntrySize)) :
    Depicts v' (insert id live) (c.bind d name id type) := by
  have memberD := ((depicts.directories d).mp member).1
  have apart : ∀ x ∈ live, x ≠ id := by
    rintro x memberX rfl
    exact dead memberX
  have notDir : id ∉ c.directories := fun dir => dead ((depicts.directories id).mp dir).1
  have new := (depicts.entry_eq_none member).mp unbound
  refine ⟨congrArg (insert id) depicts.inodes, fun x => ?_, fun x dir key target => ?_,
    fun x noDir key => ?_, fun x dir => ?_⟩
  · rw [Catalog.mem_directories_bind, depicts.directories]
    by_cases self : x = id
    · subst self
      rw [record, isDir_newInode kind]
      simp [dead]
    · have same : x ∈ live → (isDir (v'.inode x) ↔ isDir (v.inode x)) := fun memberX =>
        isDir_congr (edited.type_of memberX)
      simp only [self, false_and, false_or, Set.mem_insert_iff]
      exact and_congr_right fun memberX => (same memberX).symm
  · have before := Catalog.mem_directories_bind.mp dir
    rw [Catalog.bind]
    dsimp only
    by_cases self : x = d
    · subst self
      rw [Function.update_self, edited.slots, SlotTable.binds_fill free,
        ← depicts.entries x member key target]
      by_cases same : key = name
      · subst same
        rw [Function.update_self, unbound]
        simp [eq_comm]
      · rw [Function.update_of_ne same]
        simp [same]
    · rw [Function.update_of_ne self]
      rcases before with ⟨rfl, _⟩ | old
      · rw [depicts.others x notDir, slots_newInode record]
        refine iff_of_false (Option.some_ne_none _).symm ?_
        rintro ⟨_, held⟩
        cases held
      · rw [edited.others x ((depicts.directories x).mp old).1 self]
        exact depicts.entries x old key target
  · have before := mt Catalog.mem_directories_bind.mpr noDir
    rw [Catalog.bind]
    dsimp only
    have self : x ≠ d := by
      rintro rfl
      exact before (.inr member)
    rw [Function.update_of_ne self]
    exact depicts.others x (fun old => before (.inr old)) key
  · rcases Catalog.mem_directories_bind.mp dir with ⟨rfl, _⟩ | old
    · exact .newInode record
    · by_cases self : x = d
      · subst self
        exact (depicts.tidy x old).fill free new short (apart x memberD).symm edited
      · have memberX := ((depicts.directories x).mp old).1
        exact (depicts.tidy x old).congr (edited.others x memberX self)
          (congrArg Inode.size (edited.records x memberX self))

theorem Depicts.delete (depicts : Depicts v live c) (member : d ∈ c.directories)
    (held : v.slots d s = some (name, id)) (apart : id ≠ d)
    (edited : Edited v v' live d s none ((v.inode d).size - BitVec.ofNat 64 dirEntrySize)) :
    Depicts v' (live \ {id}) (c.unbind d name id) := by
  have tidy := depicts.tidy d member
  refine ⟨congrArg (fun ids : Set (BitVec 32) => ids \ {id}) depicts.inodes, fun x => ?_, fun x dir key target => ?_,
    fun x noDir key => ?_, fun x dir => ?_⟩
  · have same : x ∈ live → (isDir (v'.inode x) ↔ isDir (v.inode x)) := fun memberX =>
      isDir_congr (edited.type_of memberX)
    change x ∈ c.directories ∧ x ≠ id ↔ (x ∈ live ∧ x ≠ id) ∧ isDir (v'.inode x)
    rw [depicts.directories]
    constructor
    · rintro ⟨⟨memberX, isDirectory⟩, other⟩
      exact ⟨⟨memberX, other⟩, (same memberX).mpr isDirectory⟩
    · rintro ⟨⟨memberX, other⟩, isDirectory⟩
      exact ⟨⟨memberX, (same memberX).mp isDirectory⟩, other⟩
  · rw [Catalog.unbind]
    dsimp only
    by_cases self : x = d
    · subst self
      rw [Function.update_self, edited.slots, SlotTable.binds_clear tidy.distinct held,
        ← depicts.entries x member key target]
      by_cases same : key = name
      · subst same
        rw [Function.update_self]
        simp
      · rw [Function.update_of_ne same]
        simp [same]
    · rw [Function.update_of_ne self, Function.update_of_ne dir.2,
        edited.others x ((depicts.directories x).mp dir.1).1 self]
      exact depicts.entries x dir.1 key target
  · rw [Catalog.unbind]
    dsimp only
    by_cases target : x = id
    · subst target
      rw [Function.update_of_ne apart, Function.update_self]
    · have old : x ∉ c.directories := fun dir => noDir ⟨dir, target⟩
      have self : x ≠ d := by
        rintro rfl
        exact old member
      rw [Function.update_of_ne self, Function.update_of_ne target]
      exact depicts.others x old key
  · by_cases self : x = d
    · subst self
      exact tidy.clear held edited
    · have memberX := ((depicts.directories x).mp dir.1).1
      exact (depicts.tidy x dir.1).congr (edited.others x memberX self)
        (congrArg Inode.size (edited.records x memberX self))

theorem Depicts.congr (depicts : Depicts v live c)
    (keeps : ∀ x ∈ live, (v'.inode x).type = (v.inode x).type ∧ (isDir (v.inode x) →
      v'.slots x = v.slots x ∧ (v'.inode x).size = (v.inode x).size)) : Depicts v' live c := by
  have same : ∀ x ∈ c.directories, v'.slots x = v.slots x ∧ (v'.inode x).size = (v.inode x).size := by
    intro x dir
    obtain ⟨memberX, isDirectory⟩ := (depicts.directories x).mp dir
    exact (keeps x memberX).2 isDirectory
  refine ⟨depicts.inodes, fun x => ?_, fun x dir key target => ?_, depicts.others, fun x dir => ?_⟩
  · rw [depicts.directories]
    exact and_congr_right fun memberX => (isDir_congr (keeps x memberX).1).symm
  · rw [(same x dir).1]
    exact depicts.entries x dir key target
  · exact (depicts.tidy x dir).congr (same x dir).1 (same x dir).2

/-- Whether a creation is refused is read off the catalog. -/
theorem Depicts.refuses_iff (depicts : Depicts v live c) (consistent : Consistent ⟨live, ∅, ∅⟩ v)
    (member : d ∈ live) (name : CString) :
    c.Refuses d name ↔ fsMaxFilenameLen < strlen name ∨ ¬ isDir (v.inode d) ∨ v.lookup d name ≠ 0#32 ∨
      v.unusedInode = none := by
  have directory : d ∉ c.directories ↔ ¬ isDir (v.inode d) := by
    rw [depicts.directories, not_and]
    exact ⟨fun h => h member, fun h _ => h⟩
  have full : (∀ id, ValidId id → id ∈ c.inodes) ↔ v.unusedInode = none := by
    rw [depicts.inodes]
    constructor
    · intro all
      refine firstClear_eq_none.mpr fun i small => ?_
      have := consistent.marked _ (all _ (ofNat_valid small))
      rwa [ofNat_succ_toNat (by omega), Nat.add_sub_cancel] at this
    · intro none_ id valid
      have low := valid.1
      have high := valid.2
      have set := Volume.unusedInode_none none_ (id.toNat - 1) (by omega)
      exact (consistent.inodes id valid set).resolve_left (Set.notMem_empty id)
  rw [Catalog.Refuses, directory, full]
  by_cases long : fsMaxFilenameLen < strlen name
  · simp [long]
  by_cases dir : isDir (v.inode d)
  · have member' : d ∈ c.directories := (depicts.directories d).mpr ⟨member, dir⟩
    have bound : c.entry d name ≠ none ↔ v.lookup d name ≠ 0#32 := by
      constructor
      · intro some_
        obtain ⟨id, eq⟩ := Option.ne_none_iff_exists'.mp some_
        have binds := (depicts.entries d member' name id).mp eq
        rw [lookup_bound (consistent.valid d member) dir (depicts.tidy d member').distinct
          (Nat.le_of_not_lt long) binds]
        obtain ⟨s, held⟩ := binds
        exact (holds_of_slots dir held).nonzero
      · intro nonzero none_
        exact nonzero (lookup_unbound (Nat.le_of_not_lt long)
          ((depicts.entry_eq_none member').mp none_))
    rw [bound]
  · simp [dir]

/-- `fs_create` does what the catalog asks for. -/
theorem depicts_create (depicts : Depicts v live c) (consistent : Consistent ⟨live, ∅, ∅⟩ v)
    (member : d ∈ live) {type : BitVec 16} (kind : type = fsInodeTypeFile ∨ type = fsInodeTypeDir)
    (padding : Bytes)
    (room : (v.create d name type padding).1 ≠ 0#32 → ∀ k, (v.inode d).directBlocks k = 0#32 →
      (∀ k' < k, (v.inode d).directBlocks k' ≠ 0#32 ∧
        freeEntry (v.disk ((v.inode d).directBlocks k')) = none) → v.unusedBlock ≠ none) :
    ∃ c' live', c.Allows (.create d name type padding) ((v.create d name type padding).1.toNat : Int) c' ∧
      ((v.create d name type padding).1 = 0#32 → (v.create d name type padding).2 = []) ∧
      Consistent ⟨live', ∅, ∅⟩ (v.applyAll (v.create d name type padding).2) ∧
      Depicts (v.applyAll (v.create d name type padding).2) live' c' := by
  have refuses := depicts.refuses_iff consistent member name
  by_cases refused : c.Refuses d name
  · rw [create_refused (refuses.mp refused)]
    exact ⟨c, live, ⟨fun _ => ⟨rfl, rfl⟩, fun may => absurd refused may⟩, fun _ => rfl, consistent, depicts⟩
  have may := mt refuses.mpr refused
  push Not at may
  obtain ⟨short, dir, unbound, free⟩ := may
  obtain ⟨i, found⟩ := Option.ne_none_iff_exists'.mp free
  have member' : d ∈ c.directories := (depicts.directories d).mpr ⟨member, dir⟩
  have small := (Volume.unusedInode_some found).1
  have dead := consistent.fresh_inode found
  have valid := consistent.valid d member
  have done := create_done valid dir short unbound found type padding
  have nonzero : (v.create d name type padding).1 ≠ 0#32 := by
    rw [done]
    exact ofNat_succ_ne_zero (by omega)
  have none_ : c.entry d name = none := by
    by_contra some_
    exact refused (.inr (.inr (.inl some_)))
  obtain ⟨live', track, _, grows⟩ := track_create consistent member name kind padding
  obtain ⟨record, s, freeSlot, edited⟩ :=
    edited_create consistent member dir short found kind padding (room nonzero)
  obtain rfl := grows nonzero
  refine ⟨c.bind d name (BitVec.ofNat 32 (i + 1)) type, _, ⟨fun no => absurd no refused, fun _ => ?_⟩,
    fun zero => absurd zero nonzero, track.final, ?_⟩
  · rw [done]
    refine ⟨_, ofNat_valid small, ?_, rfl, rfl⟩
    rwa [depicts.inodes]
  · rw [done]
    exact depicts.create kind member' dead record freeSlot none_ short edited

theorem depicts_delete (depicts : Depicts v live c) (consistent : Consistent ⟨live, ∅, ∅⟩ v)
    (member : d ∈ live) (name : CString) :
    ∃ c' live', c.Allows (.delete d name) (v.delete d name).1 c' ∧
      ((v.delete d name).1 = -1 → (v.delete d name).2 = []) ∧
      Consistent ⟨live', ∅, ∅⟩ (v.applyAll (v.delete d name).2) ∧
      Depicts (v.applyAll (v.delete d name).2) live' c' := by
  cases entry : c.entry d name with
  | none =>
      have missing : v.delete d name = (-1, []) := by
        by_cases long : fsMaxFilenameLen < strlen name
        · rw [Volume.delete, if_pos long]
        refine delete_missing fun dir => ?_
        have member' : d ∈ c.directories := (depicts.directories d).mpr ⟨member, dir⟩
        cases found : v.find (v.inode d) name indices with
        | none => rfl
        | some place =>
            obtain ⟨k, j⟩ := place
            obtain ⟨inside, held⟩ := slots_of_find (Nat.le_of_not_lt long) found
            exact absurd ⟨_, _, held⟩ ((depicts.entry_eq_none member').mp entry)
      rw [missing]
      refine ⟨c, live, ?_, fun _ => rfl, consistent, depicts⟩
      simp [Catalog.Allows, entry]
  | some id =>
      have member' : d ∈ c.directories := by
        by_contra other
        rw [depicts.others d other] at entry
        cases entry
      have dir := ((depicts.directories d).mp member').2
      have tidy := depicts.tidy d member'
      have binds := (depicts.entries d member' name id).mp entry
      have short := tidy.short name ⟨id, binds⟩
      cases found : v.find (v.inode d) name indices with
      | none => exact absurd ⟨id, binds⟩ (unbound_of_find short found)
      | some place =>
          obtain ⟨k, j⟩ := place
          obtain ⟨inside, held⟩ := slots_of_find short found
          have target := tidy.distinct.functional binds ⟨_, held⟩
          have holds := holds_of_find dir found
          rw [← target] at held holds
          have apart : id ≠ d := by
            rintro rfl
            exact tidy.proper name binds
          rw [delete_found consistent member (Nat.not_lt.mpr short) dir found, ← target]
          refine ⟨c.unbind d name id, live \ {id}, ?_, fun refused => ?_,
            (track_removal consistent member holds).final,
            depicts.delete member' held apart (edited_removal consistent member inside holds)⟩
          · simp [Catalog.Allows, entry]
          · have : (0 : Int) = -1 := refused
            exact absurd this (by decide)

theorem depicts_lookup (depicts : Depicts v live c) (consistent : Consistent ⟨live, ∅, ∅⟩ v)
    (member : d ∈ live) (name : CString) : v.lookup d name = (c.entry d name).getD 0#32 := by
  by_cases long : fsMaxFilenameLen < strlen name
  · have none_ : c.entry d name = none := by
      by_cases dir : d ∈ c.directories
      · refine (depicts.entry_eq_none dir).mpr fun bound => ?_
        exact absurd ((depicts.tidy d dir).short name bound) (Nat.not_le.mpr long)
      · exact depicts.others d dir name
    rw [Volume.lookup, if_pos long, none_]
    rfl
  have short := Nat.le_of_not_lt long
  cases entry : c.entry d name with
  | none =>
      by_cases dir : d ∈ c.directories
      · exact lookup_unbound short ((depicts.entry_eq_none dir).mp entry)
      · have other : ¬ isDir (v.inode d) := fun isDirectory =>
          dir ((depicts.directories d).mpr ⟨member, isDirectory⟩)
        rw [Volume.lookup, if_neg long, Volume.openAs_none other]
        rfl
  | some id =>
      have dir : d ∈ c.directories := by
        by_contra other
        rw [depicts.others d other] at entry
        cases entry
      exact lookup_bound (consistent.valid d member) ((depicts.directories d).mp dir).2
        (depicts.tidy d dir).distinct short ((depicts.entries d dir name id).mp entry)

end

/-- The slots of a directory as the device stores them. -/
def storedSlots (w : World) (d : BitVec 32) : SlotTable Slot CString (BitVec 32) :=
  slotTable w.disk (storedInode w d)

/-- The world holds the catalog. -/
structure Represents (w : World) (c : Catalog) : Prop where
  inodes : ∀ id, id ∈ c.inodes ↔ InodeInUse w id
  directories : ∀ d, d ∈ c.directories ↔ InodeInUse w d ∧ isDir (storedInode w d)
  entries : ∀ d ∈ c.directories, ∀ name id,
    c.entry d name = some id ↔ (storedSlots w d).Binds name id
  others : ∀ d ∉ c.directories, ∀ name, c.entry d name = none
  once : ∀ d ∈ c.directories, (storedSlots w d).Distinct
  short : ∀ d name, c.entry d name ≠ none → strlen name ≤ fsMaxFilenameLen
  finite : ∀ d, {name | c.entry d name ≠ none}.Finite
  size : ∀ d ∈ c.directories, (storedInode w d).size.toNat =
    dirEntrySize * {name | c.entry d name ≠ none}.ncard

/-- Same device, same bits, and no block write in between. -/
structure Unchanged (w w' : World) : Prop where
  disk : w'.disk = w.disk
  issued : w'.issued = w.issued
  inodes : ∀ id, InodeInUse w' id ↔ InodeInUse w id
  blocks : ∀ n ≤ w.currentSuperblock.totalBlocks.toNat, BlockMarked w' n ↔ BlockMarked w n

/-- The failure values of creation and removal. -/
def Call.Failed : Call → Int → Prop
  | .create _ _ _ _, r => r = 0
  | .delete _ _, r => r = -1
  | _, _ => False

/-- The call does what the catalog allows, and nothing when it fails. -/
def CallMatches (w : World) (c : Catalog) (call : Call) (c' : Catalog) : Prop :=
  c.Allows call (call.perform w).1.1 c' ∧
    (call.Failed (call.perform w).1.1 → Unchanged w (step w call))

/-- If the directory needs a new block for one more entry, there is one. -/
def RoomFor (w : World) (d : BitVec 32) : Prop :=
  ∀ k, (storedInode w d).directBlocks k = 0#32 →
    (∀ k' < k, (storedInode w d).directBlocks k' ≠ 0#32 ∧
      freeEntry (w.disk ((storedInode w d).directBlocks k')) = none) →
    ∃ n, 1 ≤ n ∧ n ≤ w.currentSuperblock.totalBlocks.toNat ∧ ¬ BlockMarked w n

/-- A call on an inode in use, for which every directory block it needs can be had. -/
def CallServed (w : World) (call : Call) : Prop :=
  CallInUse w call ∧ match call with
    | .create d name type padding => (fsCreate d name type padding w).1 ≠ 0#32 → RoomFor w d
    | _ => True

section
variable {v : Volume} {l : List Ptr} {w : World} {live : Set (BitVec 32)} {c : Catalog}

theorem Shows.storedSlots (shows_ : Shows v l w) (d : BitVec 32) : storedSlots w d = v.slots d := by
  rw [AstralOS.Fs.storedSlots, Volume.slots, shows_.storedInode, shows_.disk]

theorem Depicts.represents (depicts : Depicts v live c) (shows_ : Shows v l w)
    (consistent : Consistent ⟨live, ∅, ∅⟩ v) : Represents w c := by
  have keys : ∀ d ∈ c.directories, {name | c.entry d name ≠ none} = (v.slots d).keys := by
    intro d dir
    ext name
    rw [Set.mem_ofPred_eq, ne_eq, depicts.entry_eq_none dir, not_not]
  have nothing : ∀ d ∉ c.directories, {name | c.entry d name ≠ none} = ∅ := by
    intro d other
    exact Set.eq_empty_of_forall_notMem fun name some_ => some_ (depicts.others d other name)
  refine ⟨fun id => ?_, fun d => ?_, fun d dir name id => ?_, depicts.others, fun d dir => ?_,
    fun d name some_ => ?_, fun d => ?_, fun d dir => ?_⟩
  · rw [depicts.inodes, consistent.inUse_iff shows_]
  · rw [depicts.directories, consistent.inUse_iff shows_, shows_.storedInode]
  · rw [shows_.storedSlots]
    exact depicts.entries d dir name id
  · rw [shows_.storedSlots]
    exact (depicts.tidy d dir).distinct
  · by_cases dir : d ∈ c.directories
    · refine (depicts.tidy d dir).short name ?_
      rw [← keys d dir]
      exact some_
    · exact absurd (depicts.others d dir name) some_
  · by_cases dir : d ∈ c.directories
    · rw [keys d dir]
      exact SlotTable.finite_keys _
    · rw [nothing d dir]
      exact Set.finite_empty
  · rw [keys d dir, shows_.storedInode]
    exact (depicts.tidy d dir).size

theorem Shows.unchanged (shows_ : Shows v l w) (call : Call) (nothing : (v.perform call).2 = []) :
    Unchanged w (AstralOS.Fs.step w call) := by
  have after := shows_.step call
  rw [Volume.step, nothing] at after
  have after : Shows v l (AstralOS.Fs.step w call) := after
  refine ⟨after.disk.trans shows_.disk.symm, ?_, fun id => ?_, fun n small => ?_⟩
  · rw [shows_.issued, nothing]
    exact List.append_nil _
  · rw [after.inodeInUse_iff, shows_.inodeInUse_iff]
  · rw [shows_.layout.totalBlocks] at small
    rw [after.blockMarked_iff small, shows_.blockMarked_iff small]

/-- The state of a run with the catalog it holds. -/
def Carries (w : World) (c : Catalog) : Prop :=
  ∃ v l live, Shows v l w ∧ Consistent ⟨live, ∅, ∅⟩ v ∧ Depicts v live c

theorem Shows.freeBlock_iff (shows_ : Shows v l w) : v.unusedBlock ≠ none ↔
    ∃ n, 1 ≤ n ∧ n ≤ w.currentSuperblock.totalBlocks.toNat ∧ ¬ BlockMarked w n := by
  rw [shows_.layout.totalBlocks]
  constructor
  · intro free
    obtain ⟨i, found⟩ := Option.ne_none_iff_exists'.mp free
    obtain ⟨small, clear, _⟩ := Volume.unusedBlock_some found
    refine ⟨i + 1, by omega, small, ?_⟩
    rw [shows_.blockMarked_iff (by omega), Nat.add_sub_cancel, clear]
    exact Bool.false_ne_true
  · rintro ⟨n, low, high, clear⟩ none_
    have high : n ≤ 1024 := high
    rw [shows_.blockMarked_iff high] at clear
    exact clear (Volume.unusedBlock_none none_ (n - 1) (by omega))

theorem Shows.roomFor_iff (shows_ : Shows v l w) {d : BitVec 32} :
    RoomFor w d ↔ ∀ k, (v.inode d).directBlocks k = 0#32 →
      (∀ k' < k, (v.inode d).directBlocks k' ≠ 0#32 ∧
        freeEntry (v.disk ((v.inode d).directBlocks k')) = none) → v.unusedBlock ≠ none := by
  simp only [RoomFor, shows_.freeBlock_iff, shows_.storedInode, shows_.disk]

theorem Shows.roomFor_of_clear (shows_ : Shows v l w) {i : Nat} (small : i < 1024)
    (clear : v.bbit i = false) (d : BitVec 32) : RoomFor w d :=
  shows_.roomFor_iff.mpr fun _ _ _ => Volume.unusedBlock_of_clear small clear

theorem Carries.represents (carries : Carries w c) : Represents w c := by
  obtain ⟨v, l, live, shows_, consistent, depicts⟩ := carries
  exact depicts.represents shows_ consistent

theorem Carries.settled (carries : Carries w c) : Settled w := by
  obtain ⟨v, l, live, shows_, consistent, _⟩ := carries
  exact ⟨v, l, live, shows_, consistent⟩

/-- One call. -/
theorem carries_step (w : World) (c : Catalog) (call : Call) (carries : Carries w c)
    (served : CallServed w call) : ∃ c', CallMatches w c call c' ∧ Carries (step w call) c' := by
  obtain ⟨v, l, live, shows_, consistent, depicts⟩ := carries
  obtain ⟨⟨inUse, typed⟩, room⟩ := served
  have member := (consistent.inUse_iff shows_).mp inUse
  have result := shows_.result call
  have after := shows_.step call
  cases call with
  | create d name type padding =>
      have room : (fsCreate d name type padding w).1 ≠ 0#32 → RoomFor w d := room
      rw [(does_fsCreate d name type padding w shows_).1] at room
      obtain ⟨c', live', allows, quiet, consistent', depicts'⟩ := depicts_create depicts consistent
        member typed padding fun nonzero k => shows_.roomFor_iff.mp (room nonzero) k
      refine ⟨c', ⟨by rw [result]; exact allows, fun failed => ?_⟩, _, l, live', after, consistent',
        depicts'⟩
      rw [result] at failed
      have zero : (((v.create d name type padding).1.toNat : Nat) : Int) = 0 := failed
      exact shows_.unchanged (.create d name type padding)
        (quiet (BitVec.eq_of_toNat_eq (Int.ofNat_eq_zero.mp zero)))
  | delete d name =>
      obtain ⟨c', live', allows, quiet, consistent', depicts'⟩ :=
        depicts_delete depicts consistent member name
      refine ⟨c', ⟨by rw [result]; exact allows, fun failed => ?_⟩, _, l, live', after, consistent',
        depicts'⟩
      rw [result] at failed
      exact shows_.unchanged (.delete d name) (quiet failed)
  | lookup d name =>
      refine ⟨c, ⟨⟨?_, rfl⟩, fun failed => failed.elim⟩, v, l, live, after, consistent, depicts⟩
      rw [result]
      exact congrArg (fun id : BitVec 32 => (id.toNat : Int))
        (depicts_lookup depicts consistent member name)
  | read id offset count =>
      exact ⟨c, ⟨rfl, fun failed => failed.elim⟩, v, l, live, after, consistent, depicts⟩
  | write id offset buffer count =>
      exact ⟨c, ⟨rfl, fun failed => failed.elim⟩, _, l, live, after,
        (track_write consistent member offset buffer count).final,
        depicts.congr (write_keeps consistent member offset buffer count)⟩

/-- A creation that the catalog does not refuse. -/
theorem Carries.create (carries : Carries w c) {d : BitVec 32} {name : CString}
    (accepted : ¬ c.Refuses d name) (room : RoomFor w d) {type : BitVec 16} (padding : Bytes)
    (typed : (Call.create d name type padding).Typed) :
    ∃ id, id ∉ c.inodes ∧ ((.create d name type padding : Call).perform w).1.1 = id.toNat ∧
      Carries (step w (.create d name type padding)) (c.bind d name id type) := by
  have dir : d ∈ c.directories := not_not.mp fun other => accepted (.inr (.inl other))
  have inUse := ((carries.represents.directories d).mp dir).1
  obtain ⟨c', ⟨allows, _⟩, carries'⟩ :=
    carries_step w c (.create d name type padding) carries ⟨⟨inUse, typed⟩, fun _ => room⟩
  obtain ⟨id, _, unused, number, rfl⟩ := allows.2 accepted
  exact ⟨id, unused, number, carries'⟩

theorem Carries.lookup (carries : Carries w c) {d : BitVec 32} (inUse : InodeInUse w d) (name : CString) :
    (fsLookup d name w).1 = (c.entry d name).getD 0#32 := by
  obtain ⟨v, l, live, shows_, consistent, depicts⟩ := carries
  rw [(does_fsLookup d name w shows_).1]
  exact depicts_lookup depicts consistent ((consistent.inUse_iff shows_).mp inUse) name

theorem carries_format {buffer : Block} (formattable : Formattable w buffer)
    (inodeJunk blockJunk : Bytes) : Carries (fsInit inodeJunk blockJunk w).2 Catalog.fresh := by
  obtain ⟨v, l, shows_, fresh, _⟩ := fsInit_formats formattable inodeJunk blockJunk
  have root := fresh.root
  have empty : v.slots 1#32 = fun _ => none := by
    rw [Volume.slots, root]
    exact slotTable_empty fun _ => rfl
  have unbound : ∀ name, name ∉ (v.slots 1#32).keys := by
    rintro name ⟨_, _, held⟩
    rw [empty] at held
    cases held
  have dir : isDir (v.inode 1#32) := by
    rw [root]
    decide
  refine ⟨v, l, {1#32}, shows_, fresh.consistent, ⟨rfl, fun d => ?_, ?_, fun _ _ _ => rfl, ?_⟩⟩
  · constructor
    · rintro rfl
      exact ⟨rfl, dir⟩
    · exact fun h => h.1
  · rintro d rfl name id
    exact iff_of_false (Option.some_ne_none _).symm fun bound => unbound name ⟨id, bound⟩
  · rintro d rfl
    refine ⟨?_, fun name bound => absurd bound (unbound name),
      fun name bound => unbound name ⟨_, bound⟩, ?_⟩
    · rw [empty]
      intro _ _ _ _ _ held
      cases held
    · rw [Set.eq_empty_of_forall_notMem unbound, root, Set.ncard_empty]
      rfl

end

/-! A run on a blank device that makes a file in the root, writes to it and removes it. -/

def nameA : CString := ⟨[0x61#8], by decide⟩
def nameB : CString := ⟨[0x62#8], by decide⟩

/-- `fs_create(1, name, FS_INODE_TYPE_FILE)` -/
def newFile (name : CString) : Call := .create 1#32 name fsInodeTypeFile fun _ => 0#8

def writeSeven : Call := .write 2#32 0#64 (fun _ => 7#8) 1#64
def removeA : Call := .delete 1#32 nameA

def briefFile : List Call := [newFile nameA, writeSeven, removeA]

theorem newFile_served : CallServed (fsInit (fun _ => 0) (fun _ => 0) blankWorld).2 (newFile nameA) := by
  obtain ⟨v, l, shows_, fresh, _⟩ := fsInit_formats blankWorld_formattable (fun _ => 0) fun _ => 0
  exact ⟨⟨root_inUse _ _, .inl rfl⟩, fun _ => shows_.roomFor_of_clear (by decide) (fresh.blocks 7 (by decide)) 1#32⟩

/-- The file is inode 2. -/
theorem newFile_carries : Carries (step (fsInit (fun _ => 0) (fun _ => 0) blankWorld).2 (newFile nameA))
    (Catalog.fresh.bind 1#32 nameA 2#32 fsInodeTypeFile) := by
  obtain ⟨v, l, shows_, fresh, _⟩ := fsInit_formats blankWorld_formattable (fun _ => 0) fun _ => 0
  have carries := carries_format blankWorld_formattable (fun _ => 0) fun _ => 0
  have accepted : ¬ Catalog.fresh.Refuses 1#32 nameA := by
    have unused : (2#32 : BitVec 32) ∉ Catalog.fresh.inodes := fun two =>
      absurd (Set.mem_singleton_iff.mp two) (by decide)
    exact Catalog.not_refuses (by decide) rfl rfl (by rw [ValidId]; decide) unused
  have room := shows_.roomFor_of_clear (by decide) (fresh.blocks 7 (by decide)) 1#32
  obtain ⟨id, _, number, carries'⟩ := carries.create accepted room (fun _ => 0#8) (.inl rfl)
  have result := shows_.result (newFile nameA)
  rw [newFile, fresh_create fresh (by decide)] at result
  rw [result] at number
  have number : (2 : Int) = (id.toNat : Int) := number
  obtain rfl : id = 2#32 := BitVec.eq_of_toNat_eq (by change id.toNat = 2; omega)
  exact carries'

theorem briefFile_served : Admitted step CallServed (fsInit (fun _ => 0) (fun _ => 0) blankWorld).2 briefFile := by
  have inUse := (newFile_carries.represents.inodes 2#32).mp (.inl rfl)
  have served : CallServed _ writeSeven := ⟨⟨inUse, trivial⟩, trivial⟩
  obtain ⟨c, _, carries⟩ := carries_step _ _ writeSeven newFile_carries served
  exact ⟨newFile_served, served, ⟨⟨carries.settled.root_inUse, trivial⟩, trivial⟩, trivial⟩

theorem briefFile_inUse : Admitted step CallInUse (fsInit (fun _ => 0) (fun _ => 0) blankWorld).2 briefFile :=
  ⟨briefFile_served.1.1, briefFile_served.2.1.1, briefFile_served.2.2.1.1, trivial⟩

/-- Along every run that finds the directory blocks it needs, the directories are finite
maps that the calls read and change as the catalog says. -/
theorem directories_refine_maps {w : World} {buffer : Block} (formattable : Formattable w buffer)
    (inodeJunk blockJunk : Bytes) (calls : List Call)
    (served : Admitted step CallServed (fsInit inodeJunk blockJunk w).2 calls) :
    Follows step Represents CallMatches (fsInit inodeJunk blockJunk w).2 Catalog.fresh calls :=
  follows_of_admitted
    (fun _ _ carries => carries.represents)
    carries_step (carries_format formattable inodeJunk blockJunk) served

theorem directories_refine_maps_brief_file :
    Follows step Represents CallMatches (fsInit (fun _ => 0) (fun _ => 0) blankWorld).2 Catalog.fresh briefFile :=
  directories_refine_maps blankWorld_formattable (fun _ => 0) (fun _ => 0) briefFile briefFile_served

end AstralOS.Fs
