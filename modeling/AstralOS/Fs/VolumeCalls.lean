import AstralOS.Fs.VolumeRefines

/-! The five calls refine the volume's. -/
namespace AstralOS.Fs
open Foundation AstralOS.Lib

section
variable {v : Volume} {l : List Ptr}

theorem Volume.openAs_valid {kind : Inode → Prop} [DecidablePred kind] {id : BitVec 32} {r : Inode}
    (found : v.openAs kind id = some r) :
    ¬ (id = 0#32 ∨ 128#32 < id) ∧ kind r ∧ v.inode id = r := by
  rw [Volume.openAs] at found
  split at found
  · cases found
  · rename_i valid
    split at found
    · rename_i fits
      obtain rfl := Option.some.inj found
      exact ⟨valid, fits, rfl⟩
    · cases found

theorem does_scan (dir : Inode) (name : CString) (is : List (Fin 10)) :
    Does (scan dir name is) v l
      ((v.find dir name is).map fun r => (r.1, r.2, v.disk (dir.directBlocks r.1))) [] l := by
  induction is with
  | nil => exact does_pure _
  | cons i rest ih =>
      rw [scan, Volume.find]
      by_cases unused : dir.directBlocks i = 0#32
      · rw [if_pos unused, if_pos unused]
        exact ih
      · rw [if_neg unused, if_neg unused]
        refine (does_readBlock _).after ?_
        dsimp only
        cases findEntry (v.disk (dir.directBlocks i)) name with
        | none => exact ih
        | some j => exact does_pure _

theorem does_fsLookup (parentId : BitVec 32) (name : CString) :
    Does (fsLookup parentId name) v l (v.lookup parentId name) [] l := by
  rw [fsLookup, Volume.lookup]
  by_cases long : fsMaxFilenameLen < strlen name
  · rw [if_pos long, if_pos long]
    exact does_pure _
  · rw [if_neg long, if_neg long]
    cases opened : v.openAs isDir parentId with
    | none => exact (does_getInodeOf_none opened).after (does_pure _)
    | some dir =>
        refine (does_getInodeOf_some opened).after ((does_scan dir name indices).after ?_)
        refine (does_kfree _).after ?_
        dsimp only
        cases v.find dir name indices with
        | none => exact does_pure _
        | some r => exact does_pure _

theorem freeEntry_zero : freeEntry Block.zero = some 0 := by
  rw [freeEntry_eq_some]
  exact ⟨by decide, entryId_zero 0, fun k below => absurd below (Nat.not_lt_zero k)⟩

theorem ofNat_succ_ne_zero {b : Nat} (bound : b < 1024) : BitVec.ofNat 32 (b + 1) ≠ 0#32 := by
  intro zero
  have := congrArg BitVec.toNat zero
  rw [BitVec.toNat_ofNat, BitVec.toNat_ofNat] at this
  omega

theorem does_directoryBlock_none {dir : Inode} {i : Fin 10} (unused : dir.directBlocks i = 0#32)
    (full : v.unusedBlock = none) : Does (directoryBlock dir i) v l none [] l := by
  rw [directoryBlock, if_pos unused]
  refine (does_allocateBlock_none full).after ?_
  rw [if_pos rfl]
  exact does_pure _

theorem does_directoryBlock_fresh {dir : Inode} {i : Fin 10} {b : Nat}
    (unused : dir.directBlocks i = 0#32) (found : v.unusedBlock = some b) :
    Does (directoryBlock dir i) v l (some (dir.setDirect i (BitVec.ofNat 32 (b + 1)), Block.zero))
      [.blockBit b true] l := by
  rw [directoryBlock, if_pos unused]
  refine (does_allocateBlock_some found).finish ?_
  rw [if_neg (ofNat_succ_ne_zero (firstClear_eq_some.mp found).1)]
  exact does_pure _

theorem does_directoryBlock_used {dir : Inode} {i : Fin 10} (used : dir.directBlocks i ≠ 0#32) :
    Does (directoryBlock dir i) v l (some (dir, v.disk (dir.directBlocks i))) [] l := by
  rw [directoryBlock, if_neg used]
  exact (does_readBlock _).after (does_pure _)

theorem does_insertEntry {parentId : BitVec 32} (valid : ¬ (parentId = 0#32 ∨ 128#32 < parentId))
    (entry : Bytes) (dir : Inode) (is : List (Fin 10)) :
    Does (insertEntry parentId entry dir is) v l () (v.insert parentId entry dir is) l := by
  induction is with
  | nil => exact does_pure _
  | cons i rest ih =>
      rw [insertEntry, Volume.insert]
      by_cases unused : dir.directBlocks i = 0#32
      · rw [if_pos unused]
        cases found : v.unusedBlock with
        | none => exact (does_directoryBlock_none unused found).after (does_pure _)
        | some b =>
            refine (does_directoryBlock_fresh unused found).bind ?_
            simp only [freeEntry_zero, Inode.setDirect, Function.update_self]
            exact (does_writeBlock _ _).bind ((does_writeInode parentId valid _).finish (does_pure _))
      · rw [if_neg unused]
        refine (does_directoryBlock_used unused).after ?_
        dsimp only
        cases freeEntry (v.disk (dir.directBlocks i)) with
        | none => exact ih
        | some j =>
            exact (does_writeBlock _ _).bind ((does_writeInode parentId valid _).finish (does_pure _))

theorem index_valid {i : Nat} (bound : i < 128) :
    ¬ (BitVec.ofNat 32 (i + 1) = 0#32 ∨ 128#32 < BitVec.ofNat 32 (i + 1)) := by
  rintro (zero | large)
  · exact ofNat_succ_ne_zero (by omega) zero
  · rw [BitVec.lt_def, BitVec.toNat_ofNat, BitVec.toNat_ofNat] at large
    omega

theorem does_fsCreate (parentId : BitVec 32) (name : CString) (type : BitVec 16) (padding : Bytes) :
    Does (fsCreate parentId name type padding) v l (v.create parentId name type padding).1
      (v.create parentId name type padding).2 l := by
  rw [fsCreate, Volume.create]
  by_cases long : fsMaxFilenameLen < strlen name
  · rw [if_pos long, if_pos long]
    exact does_pure _
  rw [if_neg long, if_neg long]
  cases opened : v.openAs isDir parentId with
  | none => exact (does_getInodeOf_none opened).after (does_pure _)
  | some dir =>
      have valid := (Volume.openAs_valid opened).1
      refine (does_getInodeOf_some opened).after ((does_fsLookup parentId name).after ?_)
      by_cases bound : v.lookup parentId name ≠ 0#32
      · simp only [if_pos bound]
        exact (does_kfree _).after (does_pure _)
      simp only [if_neg bound]
      cases found : v.unusedInode with
      | none =>
          refine (does_allocateInode_none found).after ?_
          rw [if_pos rfl]
          exact (does_kfree _).after (does_pure _)
      | some i =>
          have small := (firstClear_eq_some.mp found).1
          have claimed : ∀ {β : Type} {b : β} {f : BitVec 32 → Fs β} {us : List Update} {l' : List Ptr},
              Does (f (BitVec.ofNat 32 (i + 1))) (v.apply (.inodeBit i true)) (freshPtr l :: l) b us l' →
              Does (allocateInode >>= f) v (freshPtr l :: l) b (.inodeBit i true :: us) l' :=
            fun rest => (does_allocateInode_some found).bind rest
          refine claimed ?_
          rw [if_neg (ofNat_succ_ne_zero (by omega))]
          refine (does_writeInode _ (index_valid small) _).bind ?_
          exact (does_insertEntry valid _ dir indices).finish ((does_kfree _).after (does_pure _))

theorem does_freeDirectBlocks (target : Inode) (is : List (Fin 10)) :
    Does (freeDirectBlocks target is) v l () (Volume.release target is) l := by
  induction is generalizing v with
  | nil => exact does_pure _
  | cons i rest ih =>
      rw [freeDirectBlocks, Volume.release]
      by_cases invalid : target.directBlocks i = 0#32 ∨ 1024#32 < target.directBlocks i
      · rw [if_pos invalid]
        have nothing : Does (freeDirectBlock target i) v l () [] l := by
          rw [freeDirectBlock]
          by_cases unused : target.directBlocks i = 0#32
          · rw [if_neg (not_not.mpr unused)]
            exact does_pure _
          · rw [if_pos unused]
            exact does_freeBlock_invalid _ invalid
        exact nothing.after ih
      · rw [if_neg invalid]
        have freed : Does (freeDirectBlock target i) v l ()
            [.blockBit (target.directBlocks i - 1#32).toNat false] l := by
          rw [freeDirectBlock, if_pos (not_or.mp invalid).1]
          exact does_freeBlock _ invalid
        exact freed.bind ih

theorem does_fsDelete (parentId : BitVec 32) (name : CString) :
    Does (fsDelete parentId name) v l (v.delete parentId name).1 (v.delete parentId name).2 l := by
  rw [fsDelete, Volume.delete]
  by_cases long : fsMaxFilenameLen < strlen name
  · rw [if_pos long, if_pos long]
    exact does_pure _
  rw [if_neg long, if_neg long]
  cases opened : v.openAs isDir parentId with
  | none => exact (does_getInodeOf_none opened).after (does_pure _)
  | some dir =>
      have valid := (Volume.openAs_valid opened).1
      refine (does_getInodeOf_some opened).after ((does_scan dir name indices).after ?_)
      dsimp only
      cases v.find dir name indices with
      | none => exact (does_kfree _).after (does_pure _)
      | some r =>
          obtain ⟨i, j⟩ := r
          simp only [Option.map_some]
          by_cases invalid : entryId (v.disk (dir.directBlocks i)) j = 0#32 ∨
              128#32 < entryId (v.disk (dir.directBlocks i)) j
          · rw [if_pos invalid]
            refine (does_writeBlock _ _).bind ((does_writeInode parentId valid _).finish ?_)
            refine (does_kfree _).after ?_
            exact (does_getInode_invalid _ invalid).after (does_pure _)
          · rw [if_neg invalid]
            refine (does_writeBlock _ _).bind ((does_writeInode parentId valid _).bind ?_)
            refine (does_kfree _).after ((does_getInode _ invalid).after ?_)
            refine (does_freeDirectBlocks _ indices).bind ?_
            exact (does_freeInode _ invalid).finish ((does_kfree _).after (does_pure _))

theorem does_readLoop (inode : Inode) (offset count done : Nat) (out : List Byte) :
    Does (readLoop inode offset count done out) v l
      (true, v.readFrom inode offset count done out) [] l := by
  induction done, out using Volume.readFrom.induct v inode offset count with
  | case1 done out more index unused =>
      rw [readLoop, Volume.readFrom, dif_pos more, dif_pos more, dif_pos index, dif_pos index,
        if_pos unused, if_pos unused]
      exact does_pure _
  | case2 done out more index used ih =>
      rw [readLoop, Volume.readFrom, dif_pos more, dif_pos more, dif_pos index, dif_pos index,
        if_neg used, if_neg used]
      exact (does_readBlock _).after ih
  | case3 done out more beyond =>
      rw [readLoop, Volume.readFrom, dif_pos more, dif_pos more, dif_neg beyond, dif_neg beyond]
      exact does_pure _
  | case4 done out finished =>
      rw [readLoop, Volume.readFrom, dif_neg finished, dif_neg finished]
      exact does_pure _

theorem does_fsRead (id : BitVec 32) (offset count : BitVec 64) :
    Does (fsRead id offset count) v l (v.read id offset count) [] l := by
  rw [fsRead, Volume.read]
  cases opened : v.openAs isFile id with
  | none => exact (does_getInodeOf_none opened).after (does_pure _)
  | some inode =>
      refine (does_getInodeOf_some opened).after ?_
      simp only
      generalize (if inode.size < offset + count then inode.size - offset else count) = count'
      by_cases nothing : count' = 0#64
      · rw [if_pos nothing, if_pos nothing]
        exact (does_kfree _).after (does_pure _)
      · rw [if_neg nothing, if_neg nothing]
        exact (does_readLoop _ _ _ _ _).after ((does_kfree _).after (does_pure _))

theorem Volume.target_none {id : BitVec 32} {inode : Inode} {i : Fin 10} :
    v.target id inode i = none ↔ inode.directBlocks i = 0#32 ∧ v.unusedBlock = none := by
  rw [Volume.target]
  by_cases vacant : inode.directBlocks i = 0#32
  · rw [if_pos vacant]
    cases v.unusedBlock <;> simp [vacant]
  · rw [if_neg vacant]
    simp [vacant]

/-- A target is a block taken for the file, or the one the file has. -/
theorem Volume.target_cases {id : BitVec 32} {inode owner : Inode} {i : Fin 10} {n : BlockNum} {us : List Update}
    (found : v.target id inode i = some (n, owner, us)) :
    (inode.directBlocks i = 0#32 ∧ ∃ b, v.unusedBlock = some b ∧ n = BitVec.ofNat 32 (b + 1) ∧
      owner = inode.setDirect i (BitVec.ofNat 32 (b + 1)) ∧ us = [.blockBit b true, .inode id owner]) ∨
    (inode.directBlocks i ≠ 0#32 ∧ n = inode.directBlocks i ∧ owner = inode ∧ us = []) := by
  rw [Volume.target] at found
  by_cases vacant : inode.directBlocks i = 0#32
  · rw [if_pos vacant] at found
    cases free : v.unusedBlock with
    | none =>
        rw [free] at found
        cases found
    | some b =>
        rw [free] at found
        obtain ⟨rfl, rfl, rfl⟩ := found
        exact .inl ⟨vacant, b, rfl, rfl, rfl, rfl⟩
  · rw [if_neg vacant] at found
    obtain ⟨rfl, rfl, rfl⟩ := found
    exact .inr ⟨vacant, rfl, rfl, rfl⟩

theorem does_targetBlock_none {id : BitVec 32} {inode : Inode} {i : Fin 10}
    (none_ : v.target id inode i = none) : Does (targetBlock id inode i) v l none [] l := by
  obtain ⟨unused, found⟩ := Volume.target_none.mp none_
  rw [targetBlock, if_pos unused]
  refine (does_allocateBlock_none found).after ?_
  rw [if_pos rfl]
  exact does_pure _

theorem does_targetBlock_some {id : BitVec 32} (valid : ¬ (id = 0#32 ∨ 128#32 < id))
    {inode owner : Inode} {i : Fin 10} {n : BlockNum} {us : List Update}
    (some_ : v.target id inode i = some (n, owner, us)) :
    Does (targetBlock id inode i) v l (some (n, owner)) us l := by
  rw [targetBlock]
  rcases Volume.target_cases some_ with ⟨vacant, b, found, rfl, rfl, rfl⟩ | ⟨used, rfl, rfl, rfl⟩
  · have bound := (firstClear_eq_some.mp found).1
    rw [if_pos vacant]
    refine (does_allocateBlock_some found).bind ?_
    rw [if_neg (ofNat_succ_ne_zero bound)]
    exact (does_writeInode id valid _).finish (does_pure _)
  · rw [if_neg used]
    exact does_pure _

theorem does_writeLoop {id : BitVec 32} (valid : ¬ (id = 0#32 ∨ 128#32 < id)) (buffer : Bytes)
    (offset count : Nat) (inode : Inode) (done : Nat) :
    Does (writeLoop id buffer offset count inode done) v l
      (true, (v.writeFrom id buffer offset count inode done).1,
        (v.writeFrom id buffer offset count inode done).2.1)
      (v.writeFrom id buffer offset count inode done).2.2 l := by
  induction v, inode, done using Volume.writeFrom.induct id buffer offset count with
  | case1 v inode done more index none_ =>
      rw [writeLoop, Volume.writeFrom, dif_pos more, dif_pos more, dif_pos index, dif_pos index,
        none_]
      exact (does_targetBlock_none none_).after (does_pure _)
  | case2 v inode done more index n owner us some_ u ih =>
      rw [writeLoop, Volume.writeFrom, dif_pos more, dif_pos more, dif_pos index, dif_pos index,
        some_]
      refine (does_targetBlock_some valid some_).bind ((does_readBlock n).after ?_)
      exact (does_writeBlock _ _).bind ih
  | case3 v inode done more beyond =>
      rw [writeLoop, Volume.writeFrom, dif_pos more, dif_pos more, dif_neg beyond, dif_neg beyond]
      exact does_pure _
  | case4 v inode done finished =>
      rw [writeLoop, Volume.writeFrom, dif_neg finished, dif_neg finished]
      exact does_pure _

theorem does_fsWrite (id : BitVec 32) (offset : BitVec 64) (buffer : Bytes) (count : BitVec 64) :
    Does (fsWrite id offset buffer count) v l (v.write id offset buffer count).1
      (v.write id offset buffer count).2 l := by
  rw [fsWrite, Volume.write]
  cases opened : v.openAs isFile id with
  | none => exact (does_getInodeOf_none opened).after (does_pure _)
  | some inode =>
      have valid := (Volume.openAs_valid opened).1
      refine (does_getInodeOf_some opened).after ((does_writeLoop valid _ _ _ _ _).bind ?_)
      simp only [if_true, Volume.extend]
      split
      · exact (does_writeInode id valid _).finish ((does_kfree _).after (does_pure _))
      · exact (does_kfree _).after (does_pure _)

/-- Every call refines its counterpart on the volume. -/
theorem does_perform (c : Call) : Does c.perform v l (v.perform c).1 (v.perform c).2 l := by
  cases c with
  | create parentId name type padding =>
      exact (does_fsCreate parentId name type padding).finish (does_pure _)
  | delete parentId name => exact (does_fsDelete parentId name).finish (does_pure _)
  | lookup parentId name => exact (does_fsLookup parentId name).after (does_pure _)
  | read id offset count => exact does_fsRead id offset count
  | write id offset buffer count => exact (does_fsWrite id offset buffer count).finish (does_pure _)

end

section Runs
variable {v : Volume} {l : List Ptr} {w : World}

theorem Shows.result (shows_ : Shows v l w) (c : Call) : (c.perform w).1 = (v.perform c).1 :=
  (does_perform c w shows_).1

theorem Shows.step (shows_ : Shows v l w) (c : Call) : Shows (v.step c) l (step w c) :=
  (does_perform c w shows_).2.1

theorem Shows.issued (shows_ : Shows v l w) (c : Call) :
    (AstralOS.Fs.step w c).issued = w.issued ++ v.issueAll (v.perform c).2 :=
  (does_perform c w shows_).2.2.1

theorem Shows.run (shows_ : Shows v l w) (calls : List Call) :
    Shows (calls.foldl Volume.step v) l (calls.foldl AstralOS.Fs.step w) := by
  induction calls generalizing v w with
  | nil => exact shows_
  | cons c rest ih => exact ih (shows_.step c)

end Runs
end AstralOS.Fs
