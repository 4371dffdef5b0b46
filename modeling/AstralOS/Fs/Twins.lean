import AstralOS.Fs.Places

/-! Two volumes that differ only in bytes that one secret file left: the metadata and the
directories are the same, so every call takes the same course on both. -/
namespace AstralOS.Fs
open Foundation AstralOS.Lib

/-- The same bitmaps, and the same bytes off the marked places. -/
structure Twins (related : Byte → Byte → Prop) (marked : Set Place) (v v' : Volume) : Prop where
  inodeBits : v'.inodeBits = v.inodeBits
  blockBits : v'.blockBits = v.blockBits
  bytes : Alike related marked v.byteAt v'.byteAt

/-- No metadata and no directory block is marked. -/
structure Guarded (marked : Set Place) (live : Set (BitVec 32)) (v : Volume) : Prop where
  data : ∀ x ∈ marked, 6 ≤ x.1.toNat
  dirs : ∀ d ∈ live, isDir (v.inode d) → ∀ k, (v.inode d).directBlocks k ≠ 0#32 →
    ∀ j, ((v.inode d).directBlocks k, j) ∉ marked

/-- The block an update stores whole. -/
def Update.data : Update → Set BlockNum
  | .block n _ => {n}
  | _ => ∅

/-- A record has a number in the table. -/
def Update.Plain : Update → Prop
  | .inode id _ => ValidId id
  | _ => True

section
variable {related : Byte → Byte → Prop} {marked : Set Place} {v v' : Volume} {n : BlockNum}
  {id d : BitVec 32} {us : List Update} {u : Update} {dir : Inode} {name : CString}
  {live : Set (BitVec 32)} {blocks : Set BlockNum} {inodes : Set (BitVec 32)}

theorem block_ext {b b' : Block} (same : ∀ j, b'.bytes j = b.bytes j) : b' = b := by
  rw [← Block.ofBytes_bytes b', ← Block.ofBytes_bytes b]
  exact Block.ofBytes_congr fun j _ => same j

/-! What twins have in common. -/

theorem Twins.disk (twins : Twins related marked v v') (spared : ∀ j, (n, j) ∉ marked) :
    v'.disk n = v.disk n := block_ext fun j => twins.bytes.outside (n, j) (spared j)

theorem Twins.low (twins : Twins related marked v v') (data : ∀ x ∈ marked, 6 ≤ x.1.toNat)
    (low : n.toNat < 6) : v'.disk n = v.disk n :=
  twins.disk fun j mark => absurd (data (n, j) mark) (Nat.not_le.mpr low)

theorem Twins.inode (twins : Twins related marked v v') (data : ∀ x ∈ marked, 6 ≤ x.1.toNat)
    (valid : ValidId id) : v'.inode id = v.inode id :=
  Volume.inode_congr (twins.low data (Nat.lt_succ_of_le (tableBlock_range valid).2))

theorem Twins.openAs (twins : Twins related marked v v') (data : ∀ x ∈ marked, 6 ≤ x.1.toNat)
    (kind : Inode → Prop) [DecidablePred kind] (id : BitVec 32) : v'.openAs kind id = v.openAs kind id := by
  rw [Volume.openAs, Volume.openAs]
  by_cases invalid : id = 0#32 ∨ 128#32 < id
  · rw [if_pos invalid, if_pos invalid]
  · rw [if_neg invalid, if_neg invalid, twins.inode data (validId_iff.mpr invalid)]

theorem Twins.unusedInode (twins : Twins related marked v v') : v'.unusedInode = v.unusedInode := by
  rw [Volume.unusedInode, Volume.unusedInode, twins.inodeBits]

theorem Twins.unusedBlock (twins : Twins related marked v v') : v'.unusedBlock = v.unusedBlock := by
  rw [Volume.unusedBlock, Volume.unusedBlock, twins.blockBits]

/-! Updates that write no secret. -/

theorem Twins.issue (twins : Twins related marked v v') (data : ∀ x ∈ marked, 6 ≤ x.1.toNat)
    (plain : u.Plain) : v'.issue u = v.issue u := by
  cases u with
  | inodeBit i set => rw [Volume.issue, Volume.issue, twins.inodeBits]
  | blockBit i set => rw [Volume.issue, Volume.issue, twins.blockBits]
  | inode id r =>
      rw [Volume.issue, Volume.issue, twins.low data (Nat.lt_succ_of_le (tableBlock_range plain).2)]
  | block n b => rfl

/-- Metadata lies in front of the marked places, and a block stored whole is unmarked. -/
theorem issue_unmarked (data : ∀ x ∈ marked, 6 ≤ x.1.toNat) (plain : u.Plain) {x : Place}
    (mark : x ∈ marked) (kept : x.1 ∉ u.data) : x.1 ≠ (v.issue u).1 := by
  have far := data x mark
  intro same
  cases u with
  | inodeBit i set =>
      rw [same] at far
      change 6 ≤ (1#32 : BlockNum).toNat at far
      exact absurd far (by decide)
  | blockBit i set =>
      rw [same] at far
      change 6 ≤ (2#32 : BlockNum).toNat at far
      exact absurd far (by decide)
  | inode id r =>
      rw [same] at far
      exact absurd far (Nat.not_le.mpr (Nat.lt_succ_of_le (tableBlock_range plain).2))
  | block n b => exact kept same

theorem byteAt_apply_same {x : Place} (same : x.1 = (v.issue u).1) :
    (v.apply u).byteAt x = (v.issue u).2.bytes x.2 := by
  have stored : (v.apply u).disk x.1 = (v.issue u).2 := by
    rw [same]
    exact Function.update_self _ _ _
  rw [Volume.byteAt, stored]

theorem byteAt_apply_other {x : Place} (other : x.1 ≠ (v.issue u).1) :
    (v.apply u).byteAt x = v.byteAt x := by
  rw [Volume.byteAt, Volume.disk_apply u other]
  rfl

theorem Twins.apply (twins : Twins related marked v v') (data : ∀ x ∈ marked, 6 ≤ x.1.toNat)
    (plain : u.Plain) : Twins related {x ∈ marked | x.1 ∉ u.data} (v.apply u) (v'.apply u) := by
  have issue := twins.issue data plain
  refine ⟨?_, ?_, ?_, ?_⟩
  · cases u with
    | inodeBit i set => exact congrArg (putBit · i set) twins.inodeBits
    | _ => exact twins.inodeBits
  · cases u with
    | blockBit i set => exact congrArg (putBit · i set) twins.blockBits
    | _ => exact twins.blockBits
  · intro x unmarked
    by_cases same : x.1 = (v.issue u).1
    · rw [byteAt_apply_same same, byteAt_apply_same (issue ▸ same), issue]
    · rw [byteAt_apply_other same, byteAt_apply_other (issue ▸ same)]
      refine twins.bytes.outside x fun mark => unmarked ⟨mark, fun stored => ?_⟩
      cases u with
      | block n b => exact same stored
      | _ => exact stored
  · rintro x ⟨mark, kept⟩
    have other := issue_unmarked (v := v) data plain mark kept
    rw [byteAt_apply_other other, byteAt_apply_other (issue ▸ other)]
    exact twins.bytes.inside x mark

theorem Twins.applyAll (twins : Twins related marked v v') (data : ∀ x ∈ marked, 6 ≤ x.1.toNat)
    (plain : ∀ u ∈ us, u.Plain) :
    Twins related {x ∈ marked | ∀ u ∈ us, x.1 ∉ u.data} (v.applyAll us) (v'.applyAll us) := by
  induction us generalizing v v' marked with
  | nil =>
      have all : {x ∈ marked | ∀ u ∈ ([] : List Update), x.1 ∉ u.data} = marked :=
        Set.ext fun x => ⟨fun h => h.1, fun h => ⟨h, List.forall_mem_nil _⟩⟩
      rw [all]
      exact twins
  | cons u rest ih =>
      obtain ⟨first, later⟩ := List.forall_mem_cons.mp plain
      have split_ : {x ∈ marked | ∀ w ∈ u :: rest, x.1 ∉ w.data} =
          {x ∈ {x ∈ marked | x.1 ∉ u.data} | ∀ w ∈ rest, x.1 ∉ w.data} := by
        ext x
        constructor
        · rintro ⟨mark, kept⟩
          obtain ⟨first, rest⟩ := List.forall_mem_cons.mp kept
          exact ⟨⟨mark, first⟩, rest⟩
        · rintro ⟨⟨mark, first⟩, rest⟩
          exact ⟨mark, List.forall_mem_cons.mpr ⟨first, rest⟩⟩
      rw [split_]
      exact ih (twins.apply data first) (fun x mark => data x mark.1) later

/-! Calls on directories. -/

theorem find_congr (same : ∀ k, dir.directBlocks k ≠ 0#32 →
    v'.disk (dir.directBlocks k) = v.disk (dir.directBlocks k)) (is : List (Fin 10)) :
    v'.find dir name is = v.find dir name is := by
  induction is with
  | nil => rfl
  | cons k rest ih =>
      rw [Volume.find, Volume.find]
      by_cases unused : dir.directBlocks k = 0#32
      · rw [if_pos unused, if_pos unused, ih]
      · rw [if_neg unused, if_neg unused, same k unused, ih]

theorem insert_congr {entry : Bytes} (unused : v'.unusedBlock = v.unusedBlock)
    (same : ∀ k, dir.directBlocks k ≠ 0#32 →
      v'.disk (dir.directBlocks k) = v.disk (dir.directBlocks k)) (is : List (Fin 10)) :
    v'.insert d entry dir is = v.insert d entry dir is := by
  induction is with
  | nil => rfl
  | cons k rest ih =>
      rw [Volume.insert, Volume.insert]
      by_cases vacant : dir.directBlocks k = 0#32
      · rw [if_pos vacant, if_pos vacant, unused]
      · rw [if_neg vacant, if_neg vacant, same k vacant, ih]

/-- The blocks of a directory in use are the same on both. -/
theorem Twins.directory (twins : Twins related marked v v') (guarded : Guarded marked live v)
    (member : d ∈ live) (directory : isDir (v.inode d)) {k : Fin 10}
    (used : (v.inode d).directBlocks k ≠ 0#32) :
    v'.disk ((v.inode d).directBlocks k) = v.disk ((v.inode d).directBlocks k) :=
  twins.disk (guarded.dirs d member directory k used)

theorem Twins.lookup (twins : Twins related marked v v') (guarded : Guarded marked live v)
    (member : d ∈ live) (name : CString) : v'.lookup d name = v.lookup d name := by
  rw [Volume.lookup, Volume.lookup, twins.openAs guarded.data]
  cases opened : v.openAs isDir d with
  | none => rfl
  | some dir =>
      obtain ⟨_, directory, rfl⟩ := Volume.openAs_valid opened
      have same := fun k => twins.directory guarded member directory (k := k)
      dsimp only
      rw [find_congr same]
      cases found : v.find (v.inode d) name indices with
      | none => rfl
      | some place =>
          obtain ⟨k, j⟩ := place
          dsimp only
          rw [same k (find_some found).2.1]

theorem claim_plain {i : Nat} (small : i < 128) (type : BitVec 16) : ∀ u ∈ Volume.claim i type, u.Plain :=
  List.forall_mem_cons.mpr ⟨trivial, List.forall_mem_singleton.mpr (ofNat_valid small)⟩

theorem Twins.create (twins : Twins related marked v v') (guarded : Guarded marked live v)
    (member : d ∈ live) (name : CString) (type : BitVec 16) (padding : Bytes) :
    v'.create d name type padding = v.create d name type padding := by
  rw [Volume.create, Volume.create, twins.openAs guarded.data, twins.lookup guarded member,
    twins.unusedInode]
  split
  · rfl
  · cases opened : v.openAs isDir d with
    | none => rfl
    | some dir =>
        obtain ⟨_, directory, rfl⟩ := Volume.openAs_valid opened
        dsimp only
        split
        · rfl
        · cases found : v.unusedInode with
          | none => rfl
          | some i =>
              have small := (Volume.unusedInode_some found).1
              have claimed := twins.applyAll guarded.data (claim_plain small type)
              dsimp only
              rw [insert_congr claimed.unusedBlock fun k used => claimed.disk fun j mark =>
                guarded.dirs d member directory k used j mark.1]

theorem Twins.delete (twins : Twins related marked v v') (guarded : Guarded marked live v)
    (member : d ∈ live) (name : CString) : v'.delete d name = v.delete d name := by
  rw [Volume.delete, Volume.delete, twins.openAs guarded.data]
  split
  · rfl
  · cases opened : v.openAs isDir d with
    | none => rfl
    | some dir =>
        obtain ⟨valid, directory, rfl⟩ := Volume.openAs_valid opened
        have same := fun k => twins.directory guarded member directory (k := k)
        dsimp only
        rw [find_congr same]
        cases found : v.find (v.inode d) name indices with
        | none => rfl
        | some place =>
            obtain ⟨k, j⟩ := place
            have unlink : v'.unlink d (v.inode d) k j = v.unlink d (v.inode d) k j := by
              rw [Volume.unlink, Volume.unlink, same k (find_some found).2.1]
            dsimp only
            rw [unlink, same k (find_some found).2.1]
            by_cases invalid : entryId (v.disk ((v.inode d).directBlocks k)) j = 0#32 ∨
                128#32 < entryId (v.disk ((v.inode d).directBlocks k)) j
            · rw [if_pos invalid, if_pos invalid]
            · have plain : ∀ u ∈ v.unlink d (v.inode d) k j, u.Plain := List.forall_mem_cons.mpr
                ⟨trivial, List.forall_mem_singleton.mpr (validId_iff.mpr valid)⟩
              have unlinked := twins.applyAll guarded.data plain
              rw [if_neg invalid, if_neg invalid,
                unlinked.inode (fun x mark => guarded.data x mark.1) (validId_iff.mpr invalid)]

end

end AstralOS.Fs
