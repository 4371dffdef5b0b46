import AstralOS.Fs.Counters
import AstralOS.Fs.Isolation

/-! Which records of the inode table a call stores: that of the inode it is made on, and a
creation that of the inode it makes. -/
namespace AstralOS.Fs
open Foundation AstralOS.Lib

/-- The call made the inode, if it returned `r`. -/
def Call.Makes (c : Call) (r : Int) (id : BitVec 32) : Prop :=
  match c with
  | .create .. => r = id.toNat
  | _ => False

/-- The records among the updates are those of these inodes. -/
def StoresOnly (us : List Update) (ids : Set (BitVec 32)) : Prop :=
  ∀ u ∈ us, ∀ id r, u = .inode id r → id ∈ ids

section
variable {v : Volume} {l : List Ptr} {w : World} {us vs : List Update} {ids ids' live : Set (BitVec 32)}
  {id d : BitVec 32} {name : CString}

theorem storesOnly_nil : StoresOnly [] ids := List.forall_mem_nil _

theorem StoresOnly.append (first : StoresOnly us ids) (second : StoresOnly vs ids) :
    StoresOnly (us ++ vs) ids := List.forall_mem_append.mpr ⟨first, second⟩

theorem StoresOnly.cons {u : Update} (first : ∀ id r, u = .inode id r → id ∈ ids)
    (rest : StoresOnly us ids) : StoresOnly (u :: us) ids := List.forall_mem_cons.mpr ⟨first, rest⟩

theorem StoresOnly.mono (stores : StoresOnly us ids) (more : ids ⊆ ids') : StoresOnly us ids' :=
  fun u member id r same => more (stores u member id r same)

theorem stores_inode (r : Inode) (member : id ∈ ids) (x : BitVec 32) (r' : Inode)
    (same : Update.inode id r = .inode x r') : x ∈ ids := by
  obtain ⟨rfl, _⟩ := Update.inode.inj same
  exact member

theorem stores_block (n : BlockNum) (b : Block) (x : BitVec 32) (r : Inode)
    (same : Update.block n b = .inode x r) : x ∈ ids := by cases same

theorem stores_blockBit (i : Nat) (set : Bool) (x : BitVec 32) (r : Inode)
    (same : Update.blockBit i set = .inode x r) : x ∈ ids := by cases same

theorem stores_inodeBit (i : Nat) (set : Bool) (x : BitVec 32) (r : Inode)
    (same : Update.inodeBit i set = .inode x r) : x ∈ ids := by cases same

theorem stores_insert (v : Volume) (entry : Bytes) (dir : Inode) (is : List (Fin 10)) :
    StoresOnly (v.insert d entry dir is) {d} := by
  rcases insert_cases v d entry dir is with nothing | ⟨k, n, _, _, stored⟩ | ⟨k, j, _, _, stored⟩
  · rw [nothing]
    exact storesOnly_nil
  · rw [stored]
    exact .cons (stores_blockBit _ _) (.cons (stores_block _ _) (.cons (stores_inode _ rfl) storesOnly_nil))
  · rw [stored]
    exact .cons (stores_block _ _) (.cons (stores_inode _ rfl) storesOnly_nil)

theorem stores_claim (i : Nat) (type : BitVec 16) :
    StoresOnly (Volume.claim i type) {BitVec.ofNat 32 (i + 1)} :=
  .cons (stores_inodeBit _ _) (.cons (stores_inode _ rfl) storesOnly_nil)

theorem stores_release (target : Inode) (is : List (Fin 10)) :
    StoresOnly (Volume.release target is) ids := by
  intro u member x r same
  obtain ⟨i, set, bit | bit⟩ := release_bits target is u member
  · exact stores_inodeBit i set x r (bit.symm.trans same)
  · exact stores_blockBit i set x r (bit.symm.trans same)

theorem stores_writeFrom (v : Volume) (buffer : Bytes) (offset count : Nat) (inode : Inode) (done : Nat) :
    StoresOnly (v.writeFrom id buffer offset count inode done).2.2 {id} := by
  induction v, inode, done using Volume.writeFrom.induct id buffer offset count with
  | case1 v inode done more index full =>
      rw [Volume.writeFrom, dif_pos more, dif_pos index, full]
      exact storesOnly_nil
  | case2 v inode done more index n owner us found u ih =>
      have claimed : StoresOnly us {id} := by
        rcases Volume.target_cases found with ⟨_, b, _, _, _, rfl⟩ | ⟨_, _, _, rfl⟩
        · exact .cons (stores_blockBit _ _) (.cons (stores_inode _ rfl) storesOnly_nil)
        · exact storesOnly_nil
      rw [Volume.writeFrom, dif_pos more, dif_pos index, found]
      exact claimed.append (.cons (stores_block _ _) ih)
  | case3 v inode done more beyond =>
      rw [Volume.writeFrom, dif_pos more, dif_neg beyond]
      exact storesOnly_nil
  | case4 v inode done finished =>
      rw [Volume.writeFrom, dif_neg finished]
      exact storesOnly_nil

theorem stores_extend (inode : Inode) (last : BitVec 64) :
    StoresOnly (Volume.extend id inode last) {id} := by
  rw [Volume.extend]
  by_cases grown : inode.size < last
  · rw [if_pos grown]
    exact .cons (stores_inode _ rfl) storesOnly_nil
  · rw [if_neg grown]
    exact storesOnly_nil

theorem stores_create (v : Volume) (d : BitVec 32) (name : CString) (type : BitVec 16) (padding : Bytes) :
    StoresOnly (v.create d name type padding).2 {d, (v.create d name type padding).1} := by
  rw [Volume.create]
  by_cases long : fsMaxFilenameLen < strlen name
  · rw [if_pos long]
    exact storesOnly_nil
  rw [if_neg long]
  cases v.openAs isDir d with
  | none => exact storesOnly_nil
  | some dir =>
      dsimp only
      by_cases bound : v.lookup d name ≠ 0#32
      · rw [if_pos bound]
        exact storesOnly_nil
      rw [if_neg bound]
      cases v.unusedInode with
      | none => exact storesOnly_nil
      | some i =>
          exact ((stores_claim i type).mono (Set.singleton_subset_iff.mpr (.inr rfl))).append
            ((stores_insert _ _ dir indices).mono (Set.singleton_subset_iff.mpr (.inl rfl)))

theorem stores_delete (v : Volume) (d : BitVec 32) (name : CString) :
    StoresOnly (v.delete d name).2 {d} := by
  rw [Volume.delete]
  by_cases long : fsMaxFilenameLen < strlen name
  · rw [if_pos long]
    exact storesOnly_nil
  rw [if_neg long]
  cases v.openAs isDir d with
  | none => exact storesOnly_nil
  | some dir =>
      dsimp only
      cases v.find dir name indices with
      | none => exact storesOnly_nil
      | some place =>
          obtain ⟨k, j⟩ := place
          have unlinked : StoresOnly (v.unlink d dir k j) {d} :=
            .cons (stores_block _ _) (.cons (stores_inode _ rfl) storesOnly_nil)
          dsimp only
          by_cases invalid : entryId (v.disk (dir.directBlocks k)) j = 0#32 ∨
              128#32 < entryId (v.disk (dir.directBlocks k)) j
          · rw [if_pos invalid]
            exact unlinked
          · rw [if_neg invalid]
            exact unlinked.append ((stores_release _ _).append (.cons (stores_inodeBit _ _) storesOnly_nil))

theorem stores_write (v : Volume) (id : BitVec 32) (offset : BitVec 64) (buffer : Bytes) (count : BitVec 64) :
    StoresOnly (v.write id offset buffer count).2 {id} := by
  rw [Volume.write]
  cases v.openAs isFile id with
  | none => exact storesOnly_nil
  | some inode => exact (stores_writeFrom _ _ _ _ _ _).append (stores_extend _ _)

theorem stores_perform (v : Volume) (c : Call) :
    StoresOnly (v.perform c).2 {id | id = c.inode ∨ c.Makes (v.perform c).1.1 id} := by
  have self : {c.inode} ⊆ {id | id = c.inode ∨ c.Makes (v.perform c).1.1 id} :=
    Set.singleton_subset_iff.mpr (.inl rfl)
  cases c with
  | create d name type padding =>
      refine (stores_create v d name type padding).mono ?_
      rintro x (rfl | rfl)
      · exact .inl rfl
      · exact .inr rfl
  | delete d name => exact (stores_delete v d name).mono self
  | lookup d name => exact storesOnly_nil
  | read id offset count => exact storesOnly_nil
  | write id offset buffer count => exact (stores_write v id offset buffer count).mono self

theorem Update.Proper.plain {u : Update} (proper : u.Proper) : u.Plain := by
  cases u with
  | inode id r => exact proper
  | inodeBit i set => trivial
  | blockBit i set => trivial
  | block n b => trivial

theorem Update.Proper.data {u : Update} (proper : u.Proper) : ∀ n ∈ u.data, 6 ≤ n.toNat := by
  intro n stored
  cases u with
  | inode id r => exact absurd stored (Set.notMem_empty n)
  | inodeBit i set => exact absurd stored (Set.notMem_empty n)
  | blockBit i set => exact absurd stored (Set.notMem_empty n)
  | block m b =>
      obtain rfl : n = m := stored
      exact proper

/-- A call on an inode in use keeps every record but its own and that of the inode it makes,
also those of inodes that are not in use. -/
theorem record_kept (shows_ : Shows v l w) (c : Consistent ⟨live, ∅, ∅⟩ v) {call : Call}
    (member : call.inode ∈ live) {x : BitVec 32} (valid : ValidId x) (other : x ≠ call.inode)
    (old : ¬ call.Makes (v.perform call).1.1 x) : (v.step call).inode x = v.inode x := by
  have proper := proper_perform shows_ c.writtenThrough call (callClear_of_consistent shows_ c call member)
  refine inode_applyAll valid (fun u memberU => (proper u memberU).plain)
    (fun u memberU => (proper u memberU).data) fun u memberU r same => ?_
  exact (stores_perform v call u memberU x r same).elim other old

/-- The record of an inode that was just made. -/
theorem record_made (shows_ : Shows v l w) (c : Consistent ⟨live, ∅, ∅⟩ v) (member : d ∈ live)
    (name : CString) (type : BitVec 16) (padding : Bytes)
    (made : (v.create d name type padding).1 ≠ 0#32) :
    (v.step (.create d name type padding)).inode (v.create d name type padding).1 =
      newInode (v.create d name type padding).1 type := by
  have accepted : ¬ (fsMaxFilenameLen < strlen name ∨ ¬ isDir (v.inode d) ∨ v.lookup d name ≠ 0#32 ∨
      v.unusedInode = none) := fun refused => made (congrArg Prod.fst (create_refused refused))
  push Not at accepted
  obtain ⟨short, dir, unbound, free⟩ := accepted
  obtain ⟨i, found⟩ := Option.ne_none_iff_exists'.mp free
  have small := (Volume.unusedInode_some found).1
  have done := create_done (c.valid d member) dir short unbound found type padding
  have proper : ∀ u ∈ (v.create d name type padding).2, u.Proper :=
    proper_perform shows_ c.writtenThrough (.create d name type padding)
      (callClear_of_consistent shows_ c _ member)
  obtain ⟨record, _⟩ := claim_reads (v := v) small type
  change (v.applyAll (v.create d name type padding).2).inode _ = _
  rw [done] at proper ⊢
  rw [Volume.applyAll_append]
  have proper := (List.forall_mem_append.mp proper).2
  refine (inode_applyAll (ofNat_valid small) (fun u memberU => (proper u memberU).plain)
    (fun u memberU => (proper u memberU).data) fun u memberU r same => ?_).trans record
  have self : BitVec.ofNat 32 (i + 1) = d := stores_insert _ _ _ _ u memberU _ r same
  exact c.fresh_inode found (self ▸ member)

end
end AstralOS.Fs
