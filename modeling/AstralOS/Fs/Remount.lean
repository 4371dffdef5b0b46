import AstralOS.Fs.Catalog

/-! Remounting: as long as no data is written to metadata blocks, the device holds all the
file system needs, and a mount changes nothing that later calls can tell. -/
namespace AstralOS.Fs
open Foundation AstralOS.Lib

/-- No direct block of the record is a bitmap or inode table block. -/
def NoMetadata (r : Inode) : Prop := ∀ k, r.directBlocks k = 0#32 ∨ 6 ≤ (r.directBlocks k).toNat

/-- The record a call on `id` works with, if there is one. -/
def ClearRecord (w : World) (id : BitVec 32) : Prop :=
  1 ≤ id.toNat → id.toNat ≤ 128 → NoMetadata (storedInode w id)

/-- No inode record the call writes or frees through lists a metadata block: that of the
inode it is made on, and of the inode a removal removes. -/
def CallClear (w : World) : Call → Prop
  | .create parentId _ _ _ => ClearRecord w parentId
  | .delete parentId name => ClearRecord w parentId ∧ ClearRecord w (fsLookup parentId name w).1
  | .lookup _ _ => True
  | .read _ _ _ => True
  | .write id _ _ _ => ClearRecord w id

/-- An update that touches metadata only as metadata. -/
def Update.Proper : Update → Prop
  | .inodeBit _ _ => True
  | .blockBit i set => i < 32768 ∧ (set = true ∨ 5 ≤ i)
  | .inode id _ => ValidId id
  | .block n _ => 6 ≤ n.toNat

/-- The caches are written through, and the metadata blocks are marked. -/
structure WrittenThrough (v : Volume) : Prop where
  synced : v.Synced
  metadata : ∀ i < 5, v.bbit i = true

section
variable {v : Volume} {l : List Ptr} {w : World} {us : List Update} {u : Update}

theorem WrittenThrough.apply (through : WrittenThrough v) (proper : u.Proper) :
    WrittenThrough (v.apply u) := by
  cases u with
  | inodeBit i set => exact ⟨Volume.synced_inodeBit through.synced, through.metadata⟩
  | blockBit i set =>
      refine ⟨Volume.synced_blockBit through.synced, fun j low => ?_⟩
      rw [Volume.bbit_blockBit proper.1]
      split
      · rcases proper.2 with isSet | high
        · exact isSet
        · omega
      · exact through.metadata j low
  | inode id r => exact ⟨Volume.synced_inode through.synced proper, through.metadata⟩
  | block n b =>
      have high : 6 ≤ n.toNat := proper
      exact ⟨Volume.synced_block through.synced (by omega), through.metadata⟩

theorem WrittenThrough.applyAll (through : WrittenThrough v) (proper : ∀ u ∈ us, u.Proper) :
    WrittenThrough (v.applyAll us) := by
  induction us generalizing v with
  | nil => exact through
  | cons u rest ih =>
      exact ih (through.apply (proper u List.mem_cons_self))
        fun x member => proper x (List.mem_cons_of_mem u member)

theorem WrittenThrough.unusedBlock (through : WrittenThrough v) {b : Nat}
    (found : v.unusedBlock = some b) : 5 ≤ b ∧ b < 1024 := by
  obtain ⟨small, clear, _⟩ := Volume.unusedBlock_some found
  refine ⟨?_, small⟩
  by_contra low
  rw [through.metadata b (by omega)] at clear
  cases clear

theorem NoMetadata.used {r : Inode} (clear : NoMetadata r) {k : Fin 10}
    (used : r.directBlocks k ≠ 0#32) : 6 ≤ (r.directBlocks k).toNat :=
  (clear k).resolve_left used

theorem proper_insert (through : WrittenThrough v) {parentId : BitVec 32} (valid : ValidId parentId)
    {dir : Inode} (clear : NoMetadata dir) (entry : Bytes) :
    ∀ u ∈ v.insert parentId entry dir indices, u.Proper := by
  rcases insert_cases v parentId entry dir indices with
    none_ | ⟨k, b, _, found, updates⟩ | ⟨k, j, used, _, updates⟩
  · rw [none_]
    exact List.forall_mem_nil _
  · obtain ⟨low, small⟩ := through.unusedBlock found
    have number : (BitVec.ofNat 32 (b + 1)).toNat = b + 1 := ofNat_succ_toNat (by omega)
    rw [updates, List.forall_mem_cons, List.forall_mem_cons, List.forall_mem_singleton]
    exact ⟨⟨by omega, .inl rfl⟩, by rw [Update.Proper, number]; omega, valid⟩
  · rw [updates, List.forall_mem_cons, List.forall_mem_singleton]
    exact ⟨clear.used used, valid⟩

theorem proper_create (through : WrittenThrough v) (parentId : BitVec 32) (name : CString)
    (type : BitVec 16) (padding : Bytes)
    (clear : ValidId parentId → NoMetadata (v.inode parentId)) :
    ∀ u ∈ (v.create parentId name type padding).2, u.Proper := by
  rw [Volume.create]
  by_cases long : fsMaxFilenameLen < strlen name
  · rw [if_pos long]
    exact List.forall_mem_nil _
  rw [if_neg long]
  cases opened : v.openAs isDir parentId with
  | none => exact List.forall_mem_nil _
  | some dir =>
      obtain ⟨valid, _, rfl⟩ := Volume.openAs_valid opened
      have valid := validId_iff.mpr valid
      dsimp only
      by_cases bound : v.lookup parentId name ≠ 0#32
      · rw [if_pos bound]
        exact List.forall_mem_nil _
      rw [if_neg bound]
      cases found : v.unusedInode with
      | none => exact List.forall_mem_nil _
      | some i =>
          have small := (Volume.unusedInode_some found).1
          have claimed : ∀ u ∈ Volume.claim i type, u.Proper := by
            rw [Volume.claim, List.forall_mem_cons, List.forall_mem_singleton]
            exact ⟨trivial, ofNat_valid small⟩
          exact List.forall_mem_append.mpr
            ⟨claimed, proper_insert (through.applyAll claimed) valid (clear valid) _⟩

theorem proper_release {target : Inode} (clear : NoMetadata target) (is : List (Fin 10)) :
    ∀ u ∈ Volume.release target is, u.Proper := by
  induction is with
  | nil => exact List.forall_mem_nil _
  | cons k rest ih =>
      rw [Volume.release]
      split
      · exact ih
      · rename_i inside
        have low := clear.used (not_or.mp inside).1
        have high : (target.directBlocks k).toNat ≤ 1024 :=
          Nat.not_lt.mp fun large => (not_or.mp inside).2 (BitVec.lt_def.mpr large)
        have number : (target.directBlocks k - 1#32).toNat = (target.directBlocks k).toNat - 1 := by
          rw [BitVec.toNat_sub]
          change (2 ^ 32 - 1 + (target.directBlocks k).toNat) % 2 ^ 32 = _
          omega
        rw [List.forall_mem_cons]
        exact ⟨⟨by omega, .inr (by omega)⟩, ih⟩

theorem proper_delete (parentId : BitVec 32) (name : CString)
    (clear : ValidId parentId → NoMetadata (v.inode parentId))
    (clearTarget : ValidId (v.lookup parentId name) → NoMetadata (v.inode (v.lookup parentId name))) :
    ∀ u ∈ (v.delete parentId name).2, u.Proper := by
  rw [Volume.delete]
  by_cases long : fsMaxFilenameLen < strlen name
  · rw [if_pos long]
    exact List.forall_mem_nil _
  rw [if_neg long]
  cases opened : v.openAs isDir parentId with
  | none => exact List.forall_mem_nil _
  | some dir =>
      obtain ⟨valid, _, same⟩ := Volume.openAs_valid opened
      have valid := validId_iff.mpr valid
      dsimp only
      cases found : v.find dir name indices with
      | none => exact List.forall_mem_nil _
      | some place =>
          obtain ⟨k, j⟩ := place
          have target := lookup_of_find long opened found
          subst same
          have low := (clear valid).used (find_some found).2.1
          have unlinked : ∀ u ∈ v.unlink parentId (v.inode parentId) k j, u.Proper := by
            rw [Volume.unlink, List.forall_mem_cons, List.forall_mem_singleton]
            exact ⟨low, valid⟩
          dsimp only
          rw [← target]
          split
          · exact unlinked
          · rename_i inside
            have validTarget := validId_iff.mpr inside
            -- the target's record, as read after the parent's was written
            have record : ((v.applyAll (v.unlink parentId (v.inode parentId) k j)).inode
                (v.lookup parentId name)).directBlocks =
                (v.inode (v.lookup parentId name)).directBlocks := by
              have read := Volume.inode_block (v := v) (b := clearEntry
                (v.disk ((v.inode parentId).directBlocks k)) j) validTarget low
              by_cases self : v.lookup parentId name = parentId
              · rw [self]
                have := Volume.inode_inode_same (v := v.apply (.block
                  ((v.inode parentId).directBlocks k) (clearEntry
                    (v.disk ((v.inode parentId).directBlocks k)) j)))
                  (r := Volume.shrink (v.inode parentId)) valid
                exact (congrArg Inode.directBlocks this).trans rfl
              · exact congrArg Inode.directBlocks
                  ((Volume.inode_inode_other valid validTarget (Ne.symm self)).trans read)
            have clearRecord : NoMetadata ((v.applyAll (v.unlink parentId (v.inode parentId) k j)).inode
                (v.lookup parentId name)) := by
              rw [NoMetadata, record]
              exact clearTarget validTarget
            refine List.forall_mem_append.mpr ⟨unlinked, List.forall_mem_append.mpr
              ⟨proper_release clearRecord indices, ?_⟩⟩
            rw [List.forall_mem_singleton]
            trivial

theorem proper_target (through : WrittenThrough v) {id : BitVec 32} (valid : ValidId id)
    {inode : Inode} (clear : NoMetadata inode) {k : Fin 10} {n : BlockNum} {owner : Inode}
    (found : v.target id inode k = some (n, owner, us)) :
    (∀ u ∈ us, u.Proper) ∧ NoMetadata owner ∧ 6 ≤ n.toNat := by
  rcases Volume.target_cases found with ⟨_, b, free, rfl, rfl, rfl⟩ | ⟨used, rfl, rfl, rfl⟩
  · obtain ⟨low, small⟩ := through.unusedBlock free
    have number : (BitVec.ofNat 32 (b + 1)).toNat = b + 1 := ofNat_succ_toNat (by omega)
    refine ⟨?_, fun k' => ?_, by omega⟩
    · rw [List.forall_mem_cons, List.forall_mem_singleton]
      exact ⟨⟨by omega, .inl rfl⟩, valid⟩
    · by_cases place : k' = k
      · subst place
        refine .inr ?_
        rw [Inode.setDirect_same, number]
        omega
      · rw [Inode.setDirect_other _ _ place]
        exact clear k'
  · exact ⟨List.forall_mem_nil _, clear, clear.used used⟩

theorem proper_writeFrom {id : BitVec 32} (valid : ValidId id) (buffer : Bytes) (offset count : Nat)
    (inode : Inode) (done : Nat) (through : WrittenThrough v) (clear : NoMetadata inode) :
    ∀ u ∈ (v.writeFrom id buffer offset count inode done).2.2, u.Proper := by
  induction v, inode, done using Volume.writeFrom.induct id buffer offset count with
  | case1 v inode done more index full =>
      rw [Volume.writeFrom, dif_pos more, dif_pos index, full]
      exact List.forall_mem_nil _
  | case2 v inode done more index n owner us found u ih =>
      rw [Volume.writeFrom, dif_pos more, dif_pos index, found]
      obtain ⟨proper, clearOwner, low⟩ := proper_target through valid clear found
      have next := through.applyAll proper
      have properU : u.Proper := low
      exact List.forall_mem_append.mpr ⟨proper, List.forall_mem_cons.mpr
        ⟨properU, ih (next.apply properU) clearOwner⟩⟩
  | case3 v inode done more beyond =>
      rw [Volume.writeFrom, dif_pos more, dif_neg beyond]
      exact List.forall_mem_nil _
  | case4 v inode done finished =>
      rw [Volume.writeFrom, dif_neg finished]
      exact List.forall_mem_nil _

theorem proper_write (through : WrittenThrough v) (id : BitVec 32) (offset : BitVec 64)
    (buffer : Bytes) (count : BitVec 64) (clear : ValidId id → NoMetadata (v.inode id)) :
    ∀ u ∈ (v.write id offset buffer count).2, u.Proper := by
  rw [Volume.write]
  cases opened : v.openAs isFile id with
  | none => exact List.forall_mem_nil _
  | some inode =>
      obtain ⟨valid, _, rfl⟩ := Volume.openAs_valid opened
      have valid := validId_iff.mpr valid
      refine List.forall_mem_append.mpr
        ⟨proper_writeFrom valid buffer _ _ _ 0 through (clear valid), ?_⟩
      rw [Volume.extend]
      split
      · rw [List.forall_mem_singleton]
        exact valid
      · exact List.forall_mem_nil _

theorem Shows.clearRecord (shows_ : Shows v l w) {id : BitVec 32} (clear : ClearRecord w id) :
    ValidId id → NoMetadata (v.inode id) := by
  intro valid
  rw [← shows_.storedInode]
  exact clear valid.1 valid.2

theorem proper_perform (shows_ : Shows v l w) (through : WrittenThrough v) (c : Call)
    (clear : CallClear w c) : ∀ u ∈ (v.perform c).2, u.Proper := by
  cases c with
  | create parentId name type padding =>
      exact proper_create through parentId name type padding (shows_.clearRecord clear)
  | delete parentId name =>
      obtain ⟨parent, target⟩ := clear
      rw [(does_fsLookup parentId name w shows_).1] at target
      exact proper_delete parentId name (shows_.clearRecord parent) (shows_.clearRecord target)
  | lookup parentId name => exact List.forall_mem_nil _
  | read id offset count => exact List.forall_mem_nil _
  | write id offset buffer count =>
      exact proper_write through id offset buffer count (shows_.clearRecord clear)

section
variable {live : Set (BitVec 32)} {d : BitVec 32}

theorem lookup_live (c : Consistent ⟨live, ∅, ∅⟩ v) (member : d ∈ live) (name : CString) :
    v.lookup d name = 0#32 ∨ v.lookup d name ∈ live := by
  by_cases long : fsMaxFilenameLen < strlen name
  · exact .inl (by rw [Volume.lookup, if_pos long])
  by_cases dir : isDir (v.inode d)
  · have opened := Volume.openAs_some (c.valid d member) dir
    cases found : v.find (v.inode d) name indices with
    | none =>
        refine .inl ?_
        rw [Volume.lookup, if_neg long, opened]
        dsimp only
        rw [found]
    | some place =>
        obtain ⟨k, j⟩ := place
        rw [lookup_of_find long opened found]
        exact .inr (c.names d member k j _ (holds_of_find dir found)).1
  · exact .inl (by rw [Volume.lookup, if_neg long, Volume.openAs_none dir])

/-- A consistent volume lists no metadata. -/
theorem callClear_of_consistent (shows_ : Shows v l w) (c : Consistent ⟨live, ∅, ∅⟩ v) (call : Call)
    (member : call.inode ∈ live) : CallClear w call := by
  have clear : ∀ id ∈ live, ClearRecord w id := by
    intro id memberId _ _ k
    rw [shows_.storedInode]
    by_cases unused : (v.inode id).directBlocks k = 0#32
    · exact .inl unused
    · exact .inr (Nat.le_trans (by decide) (c.range id memberId k unused).1)
  cases call with
  | create d name type padding => exact clear d member
  | delete d name =>
      have member : d ∈ live := member
      refine ⟨clear d member, ?_⟩
      rw [(does_fsLookup d name w shows_).1]
      rcases lookup_live c member name with zero | memberId
      · rw [zero]
        exact fun low => absurd low (by decide)
      · exact clear _ memberId
  | lookup d name => trivial
  | read id offset count => trivial
  | write id offset buffer count => exact clear id member

end

end

end AstralOS.Fs
