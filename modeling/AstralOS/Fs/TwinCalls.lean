import AstralOS.Fs.Twins

/-! Calls on twins: what each call fills, and that twins stay twins. -/
namespace AstralOS.Fs
open Foundation AstralOS.Lib

/-- The places a call fills, from the record of the inode it is made on before and after: a
write the bytes it writes, a change of a directory the block that is new to it. -/
def Call.fills (before after : Inode) : Call → Set Place
  | .write _ offset _ count => {x | isFile before ∧ x ∈ after.covers offset.toNat count.toNat}
  | .create .. | .delete .. => {x | ∃ k, after.directBlocks k = x.1 ∧ before.directBlocks k ≠ x.1}
  | .lookup .. | .read .. => ∅

/-- The same call, but for the buffer of a write when that is a secret. -/
inductive Differs (related : Byte → Byte → Prop) (secret : Prop) : Call → Call → Prop
  | secretly (hidden : secret) (id : BitVec 32) (offset : BitVec 64) (buffer buffer' : Bytes)
      (count : BitVec 64) (bytes : ∀ i, related (buffer i) (buffer' i)) :
      Differs related secret (.write id offset buffer count) (.write id offset buffer' count)
  | openly (shown : ¬ secret) (c : Call) : Differs related secret c c

section
variable {related : Byte → Byte → Prop} {marked : Set Place} {v v' : Volume} {n : BlockNum}
  {id d : BitVec 32} {us : List Update} {u : Update} {name : CString} {live : Set (BitVec 32)}
  {blocks : Set BlockNum} {inodes : Set (BitVec 32)} {secret : Prop} {buffer buffer' : Bytes}

theorem covers_congr {r r' : Inode} (same : r'.directBlocks = r.directBlocks) (offset count : Nat) :
    r'.covers offset count = r.covers offset count := by
  have place : ∀ p, r'.place offset p = r.place offset p := fun p => by
    rw [Inode.place, Inode.place, same]
  simp only [Inode.covers, place]

/-- Updates without data keep the marks. -/
theorem Twins.metadata (twins : Twins related marked v v') (data : ∀ x ∈ marked, 6 ≤ x.1.toNat)
    (plain : ∀ u ∈ us, u.Plain) (unmarked : ∀ x ∈ marked, ∀ u ∈ us, x.1 ∉ u.data) :
    Twins related marked (v.applyAll us) (v'.applyAll us) := by
  have all : {x ∈ marked | ∀ u ∈ us, x.1 ∉ u.data} = marked :=
    Set.ext fun x => ⟨fun h => h.1, fun mark => ⟨mark, unmarked x mark⟩⟩
  have applied := twins.applyAll data plain
  rwa [all] at applied

/-! Writing. -/

theorem target_congr {inode : Inode} {k : Fin 10} (unused : v'.unusedBlock = v.unusedBlock) :
    v'.target id inode k = v.target id inode k := by
  rw [Volume.target, Volume.target, unused]

theorem target_updates {inode owner : Inode} {k : Fin 10}
    (found : v.target id inode k = some (n, owner, us)) (valid : ValidId id) :
    (∀ u ∈ us, u.Plain) ∧ ∀ u ∈ us, u.data = ∅ := by
  rcases Volume.target_cases found with ⟨_, _, _, _, _, rfl⟩ | ⟨_, _, _, rfl⟩
  · exact ⟨List.forall_mem_cons.mpr ⟨trivial, List.forall_mem_singleton.mpr valid⟩,
      List.forall_mem_cons.mpr ⟨rfl, List.forall_mem_singleton.mpr rfl⟩⟩
  · exact ⟨List.forall_mem_nil _, List.forall_mem_nil _⟩

/-- The same part of the same block, from the two buffers. -/
theorem Twins.fill (twins : Twins related marked v v')
    (secretly : secret → ∀ i, related (buffer i) (buffer' i)) (openly : ¬ secret → buffer' = buffer)
    {off len : Nat} (fits : off + len ≤ 4096) :
    Twins related (stamp secret marked {x | x.1 = n ∧ off ≤ x.2 ∧ x.2 < off + len})
      (v.apply (.block n ((v.disk n).patch off len buffer)))
      (v'.apply (.block n ((v'.disk n).patch off len buffer'))) := by
  have written : ∀ (v : Volume) (buffer : Bytes), ∀ i < len,
      (v.apply (.block n ((v.disk n).patch off len buffer))).byteAt (n, off + i) = buffer i := by
    intro v buffer i inside
    rw [Volume.byteAt, Volume.disk_block, Block.patch_inside _ _ inside fits]
  have kept : ∀ (v : Volume) (buffer : Bytes) (x : Place), ¬ (x.1 = n ∧ off ≤ x.2 ∧ x.2 < off + len) →
      (v.apply (.block n ((v.disk n).patch off len buffer))).byteAt x = v.byteAt x := by
    intro v buffer x outside
    by_cases same : x.1 = n
    · rw [Volume.byteAt, Volume.byteAt, same, Volume.disk_block, Block.patch_outside]
      by_contra inside
      exact outside ⟨same, by omega⟩
    · rw [Volume.byteAt, Volume.byteAt, Volume.disk_block_other same]
  refine ⟨twins.inodeBits, twins.blockBits, twins.bytes.write
    (fun x outside => ⟨kept v buffer x outside, kept v' buffer' x outside⟩) ?_ ?_⟩
  · rintro hidden ⟨m, j⟩ ⟨same, low, high⟩
    obtain ⟨i, rfl⟩ := Nat.exists_eq_add_of_le low
    have inside : i < len := Nat.lt_of_add_lt_add_left high
    obtain rfl : m = n := same
    rw [written v buffer i inside, written v' buffer' i inside]
    exact secretly hidden i
  · rintro shown ⟨m, j⟩ ⟨same, low, high⟩
    obtain ⟨i, rfl⟩ := Nat.exists_eq_add_of_le low
    have inside : i < len := Nat.lt_of_add_lt_add_left high
    obtain rfl : m = n := same
    rw [written v buffer i inside, written v' buffer' i inside, openly shown]

theorem twins_writeFrom (secretly : secret → ∀ i, related (buffer i) (buffer' i))
    (openly : ¬ secret → buffer' = buffer) (offset count : Nat) (inode : Inode) (done : Nat)
    (c : Consistent ⟨live, blocks, inodes⟩ v) (member : id ∈ live) (file : isFile (v.inode id))
    (cached : v.inode id = inode) (twins : Twins related marked v v')
    (data : ∀ x ∈ marked, 6 ≤ x.1.toNat) :
    let r := v.writeFrom id buffer offset count inode done
    let r' := v'.writeFrom id buffer' offset count inode done
    r'.1 = r.1 ∧ r'.2.1 = r.2.1 ∧ Twins related (stamp secret marked (r.1.stretch offset done r.2.1))
      (v.applyAll r.2.2) (v'.applyAll r'.2.2) := by
  induction v, inode, done using Volume.writeFrom.induct id buffer offset count generalizing v' marked with
  | case1 v inode done more index full =>
      have full' := (target_congr twins.unusedBlock).trans full
      rw [Volume.writeFrom, Volume.writeFrom, dif_pos more, dif_pos more, dif_pos index, dif_pos index,
        full, full']
      dsimp only
      rw [stretch_empty, stamp_empty]
      exact ⟨rfl, rfl, twins⟩
  | case2 v inode done more index n owner us found u =>
      rename_i ih
      subst cached
      have found' := (target_congr twins.unusedBlock).trans found
      obtain ⟨targeted, filled, ownerFile, record⟩ := track_iteration c member file found
        (((v.applyAll us).disk n).patch (blockOffset offset done) (chunk offset count done)
          (buffer.drop done))
      obtain ⟨_, _, rfl, nonzero, _⟩ := track_target c member file found
      obtain ⟨plain, noData⟩ := target_updates found (c.valid id member)
      set after := ((v.applyAll us).apply u).writeFrom id buffer offset count owner
        (done + chunk offset count done)
      obtain ⟨kept, reaches⟩ : (∀ k, owner.directBlocks k ≠ 0#32 →
          after.1.directBlocks k = owner.directBlocks k) ∧
          Reaches after.1 offset count (done + chunk offset count done) after.2.1 :=
        writeFrom_reaches buffer offset count owner _ filled member ownerFile record
      have now := twins.metadata data plain fun x _ u memberU => by
        rw [noData u memberU]
        exact Set.notMem_empty _
      have fromHidden : secret → ∀ i, related (buffer.drop done i) (buffer'.drop done i) :=
        fun hidden i => secretly hidden (done + i)
      have fromShown : ¬ secret → buffer'.drop done = buffer.drop done := fun shown =>
        congrArg (Bytes.drop · done) (openly shown)
      have stored := now.fill (n := owner.directBlocks ⟨blockIndex offset done, index⟩) fromHidden fromShown
        (chunk_fits offset count done)
      have low : 8 ≤ (owner.directBlocks ⟨blockIndex offset done, index⟩).toNat := by
        have range := filled.range id member ⟨blockIndex offset done, index⟩
        rw [record] at range
        exact (range nonzero).1
      obtain ⟨same, last, rest⟩ := ih filled ownerFile record stored fun x mark => by
        rcases mark with ⟨inside, _⟩ | ⟨_, old⟩
        · rw [inside.1]
          omega
        · exact data x old
      have block := kept ⟨blockIndex offset done, index⟩ nonzero
      have first : owner.stretch offset done (done + chunk offset count done) =
          after.1.stretch offset done (done + chunk offset count done) := by
        rw [stretch_chunk (k := ⟨blockIndex offset done, index⟩) rfl nonzero,
          stretch_chunk (k := ⟨blockIndex offset done, index⟩) rfl (block ▸ nonzero), block]
      rw [← stretch_chunk (k := ⟨blockIndex offset done, index⟩) rfl nonzero, first, stamp_stamp,
        stretch_append (Nat.le_add_right _ _) reaches.low] at rest
      rw [Volume.writeFrom, Volume.writeFrom, dif_pos more, dif_pos more, dif_pos index, dif_pos index,
        found, found']
      dsimp only
      rw [Volume.applyAll_append, Volume.applyAll_append]
      exact ⟨same, last, rest⟩
  | case3 v inode done more beyond =>
      rw [Volume.writeFrom, Volume.writeFrom, dif_pos more, dif_pos more, dif_neg beyond, dif_neg beyond]
      dsimp only
      rw [stretch_empty, stamp_empty]
      exact ⟨rfl, rfl, twins⟩
  | case4 v inode done finished =>
      rw [Volume.writeFrom, Volume.writeFrom, dif_neg finished, dif_neg finished]
      dsimp only
      rw [stretch_empty, stamp_empty]
      exact ⟨rfl, rfl, twins⟩

/-- `fs_write` on twins, from buffers that are related or equal. -/
theorem twins_write (secretly : secret → ∀ i, related (buffer i) (buffer' i))
    (openly : ¬ secret → buffer' = buffer) (offset count : BitVec 64)
    (c : Consistent ⟨live, blocks, inodes⟩ v) (member : id ∈ live) (file : isFile (v.inode id))
    (twins : Twins related marked v v') (data : ∀ x ∈ marked, 6 ≤ x.1.toNat) :
    (v'.write id offset buffer' count).1 = (v.write id offset buffer count).1 ∧
    Twins related (stamp secret marked
        (((v.applyAll (v.write id offset buffer count).2).inode id).covers offset.toNat count.toNat))
      (v.applyAll (v.write id offset buffer count).2)
      (v'.applyAll (v'.write id offset buffer' count).2) := by
  have valid := c.valid id member
  have record' := twins.inode data valid
  have file' : isFile (v'.inode id) := by rwa [record']
  obtain ⟨same, last, written⟩ := twins_writeFrom secretly openly offset.toNat count.toNat (v.inode id) 0 c
    member file rfl twins data
  obtain ⟨_, reaches⟩ := writeFrom_reaches buffer offset.toNat count.toNat (v.inode id) 0 c member file rfl
  obtain ⟨track, record⟩ := track_writeFrom buffer offset.toNat count.toNat (v.inode id) 0 c member file rfl
  have range := track.final.range id member
  rw [record] at range
  rw [applyAll_write valid file, applyAll_write valid file', record', same, last, Volume.write, Volume.write,
    Volume.openAs_some valid file, Volume.openAs_some valid file', record']
  dsimp only
  rw [last]
  refine ⟨rfl, ?_⟩
  set r := v.writeFrom id buffer offset.toNat count.toNat (v.inode id) 0
  have plain : ∀ u ∈ Volume.extend id r.1 (offset + BitVec.ofNat 64 r.2.1), u.Plain ∧ u.data = ∅ := by
    rw [Volume.extend]
    split
    · exact List.forall_mem_singleton.mpr ⟨valid, rfl⟩
    · exact List.forall_mem_nil _
  have blocksKept : ((((v.applyAll r.2.2).applyAll
      (Volume.extend id r.1 (offset + BitVec.ofNat 64 r.2.1))).inode id).directBlocks) =
      r.1.directBlocks := by
    rw [Volume.extend]
    split
    · have own := Volume.inode_inode_same (v := v.applyAll r.2.2)
        (r := { r.1 with size := offset + BitVec.ofNat 64 r.2.1 }) valid
      have blocks := congrArg Inode.directBlocks own
      exact blocks
    · exact congrArg Inode.directBlocks record
  rw [covers_congr blocksKept, reaches.covers_eq]
  refine written.metadata (fun x mark => ?_) (fun u memberU => (plain u memberU).1) fun x _ u memberU => ?_
  · rcases mark with ⟨⟨p, _, _, found⟩, _⟩ | ⟨_, old⟩
    · obtain ⟨k, block, used, _⟩ := place_block found
      have low := (range k (block ▸ used)).1
      rw [block] at low
      omega
    · exact data x old
  · rw [(plain u memberU).2]
    exact Set.notMem_empty _

theorem covers_block {r : Inode} {offset count : Nat} {x : Place} (covered : x ∈ r.covers offset count) :
    ∃ k, r.directBlocks k = x.1 ∧ x.1 ≠ 0#32 := by
  obtain ⟨p, _, found, _⟩ := covered
  obtain ⟨k, block, used, _⟩ := place_block found
  exact ⟨k, block, used⟩

/-- What a file was written lies in no directory. -/
theorem Guarded.write (guarded : Guarded marked live v) (offset : BitVec 64) (buffer : Bytes)
    (count : BitVec 64) (c : Consistent ⟨live, blocks, inodes⟩ v) (member : id ∈ live)
    (file : isFile (v.inode id)) :
    Guarded (stamp secret marked
        (((v.applyAll (v.write id offset buffer count).2).inode id).covers offset.toNat count.toNat)) live
      (v.applyAll (v.write id offset buffer count).2) := by
  have after := (track_write c member offset buffer count).final
  have types := write_keeps c member offset buffer count
  constructor
  · rintro x (⟨covered, _⟩ | ⟨_, old⟩)
    · obtain ⟨k, block, used⟩ := covers_block covered
      have low := (after.range id member k (block ▸ used)).1
      rw [block] at low
      omega
    · exact guarded.data x old
  · intro d memberD dir k used j mark
    have dirBefore : isDir (v.inode d) := (isDir_congr (types d memberD).1).mp dir
    have other : d ≠ id := by
      rintro rfl
      exact c.not_dir member file dirBefore
    rcases mark with ⟨covered, _⟩ | ⟨_, old⟩
    · obtain ⟨k', block, _⟩ := covers_block covered
      exact other (after.single d memberD id member k k' used block.symm).1
    · rw [(write_others c member offset buffer count memberD other).1] at used old
      exact guarded.dirs d memberD dirBefore k used j old

/-! Creation and removal. -/

/-- A record that no update stores is kept. -/
theorem inode_applyAll (valid : ValidId id) (plain : ∀ u ∈ us, u.Plain)
    (data : ∀ u ∈ us, ∀ n ∈ u.data, 6 ≤ n.toNat) (untouched : ∀ u ∈ us, ∀ r, u ≠ .inode id r) :
    (v.applyAll us).inode id = v.inode id := by
  induction us generalizing v with
  | nil => rfl
  | cons u rest ih =>
      obtain ⟨plainU, plain⟩ := List.forall_mem_cons.mp plain
      obtain ⟨dataU, data⟩ := List.forall_mem_cons.mp data
      obtain ⟨untouchedU, untouched⟩ := List.forall_mem_cons.mp untouched
      refine (ih plain data untouched).trans ?_
      cases u with
      | inodeBit i set => exact Volume.inode_inodeBit valid
      | blockBit i set => exact Volume.inode_blockBit valid
      | inode other r =>
          refine Volume.inode_inode_other plainU valid ?_
          rintro rfl
          exact untouchedU r rfl
      | block n b => exact Volume.inode_block valid (dataU n rfl)

/-- Updates that change one directory: its new blocks are stored whole, other inodes keep
their records, and a new inode has no blocks. -/
structure DirectoryEdit (v : Volume) (us : List Update) (live live' : Set (BitVec 32)) (d : BitVec 32) :
    Prop where
  plain : ∀ u ∈ us, u.Plain
  type : ((v.applyAll us).inode d).type = (v.inode d).type
  others : ∀ x ∈ live', x ≠ d → (∀ k, ((v.applyAll us).inode x).directBlocks k = 0#32) ∨
    x ∈ live ∧ (v.applyAll us).inode x = v.inode x
  stored : ∀ u ∈ us, ∀ n ∈ u.data, isDir (v.inode d) ∧ n ≠ 0#32 ∧
    ∃ k, ((v.applyAll us).inode d).directBlocks k = n
  adopted : ∀ k, ((v.applyAll us).inode d).directBlocks k ≠ (v.inode d).directBlocks k →
    ∃ u ∈ us, ((v.applyAll us).inode d).directBlocks k ∈ u.data

variable {live' : Set (BitVec 32)}

theorem DirectoryEdit.nothing (v : Volume) (live : Set (BitVec 32)) (d : BitVec 32) :
    DirectoryEdit v [] live live d where
  plain := List.forall_mem_nil _
  type := rfl
  others := fun _ member _ => .inr ⟨member, rfl⟩
  stored := List.forall_mem_nil _
  adopted := fun _ changed => absurd rfl changed

/-- The places that are new to the directory lose their marks. -/
theorem DirectoryEdit.twins (edit : DirectoryEdit v us live live' d) (member : d ∈ live)
    (twins : Twins related marked v v') (guarded : Guarded marked live v) :
    Twins related (marked \ {x | ∃ k, ((v.applyAll us).inode d).directBlocks k = x.1 ∧
      (v.inode d).directBlocks k ≠ x.1}) (v.applyAll us) (v'.applyAll us) := by
  have same : {x ∈ marked | ∀ u ∈ us, x.1 ∉ u.data} = marked \
      {x | ∃ k, ((v.applyAll us).inode d).directBlocks k = x.1 ∧ (v.inode d).directBlocks k ≠ x.1} := by
    ext x
    constructor
    · rintro ⟨mark, whole⟩
      refine ⟨mark, ?_⟩
      rintro ⟨k, now, before⟩
      obtain ⟨u, memberU, stored⟩ := edit.adopted k (now ▸ before.symm)
      exact whole u memberU (now ▸ stored)
    · rintro ⟨mark, old⟩
      refine ⟨mark, fun u memberU stored => ?_⟩
      obtain ⟨directory, used, k, now⟩ := edit.stored u memberU x.1 stored
      have before : (v.inode d).directBlocks k = x.1 := by
        by_contra new
        exact old ⟨k, now, new⟩
      refine guarded.dirs d member directory k (before ▸ used) x.2 ?_
      rw [before]
      exact mark
  have applied := twins.applyAll guarded.data edit.plain
  rwa [same] at applied

theorem DirectoryEdit.guarded (edit : DirectoryEdit v us live live' d) (member : d ∈ live)
    (guarded : Guarded marked live v) :
    Guarded (marked \ {x | ∃ k, ((v.applyAll us).inode d).directBlocks k = x.1 ∧
      (v.inode d).directBlocks k ≠ x.1}) live' (v.applyAll us) := by
  refine ⟨fun x mark => guarded.data x mark.1, fun x memberX directory k used j mark => ?_⟩
  obtain ⟨mark, old⟩ := mark
  by_cases self : x = d
  · subst self
    have before : (v.inode x).directBlocks k = ((v.applyAll us).inode x).directBlocks k := by
      by_contra new
      exact old ⟨k, rfl, new⟩
    rw [← before] at used mark
    exact guarded.dirs x member ((isDir_congr edit.type).mp directory) k used j mark
  · rcases edit.others x memberX self with empty | ⟨memberX, record⟩
    · exact used (empty k)
    · rw [record] at directory used mark
      exact guarded.dirs x memberX directory k used j mark

/-- An entry is stored in a block the directory has. -/
theorem directoryEdit_slot (valid : ∀ x ∈ live, ValidId x) (member : d ∈ live)
    (directory : isDir (v.inode d)) {k : Fin 10} (used : (v.inode d).directBlocks k ≠ 0#32)
    (data : 6 ≤ ((v.inode d).directBlocks k).toNat) (b : Block) {r : Inode}
    (type : r.type = (v.inode d).type) (direct : r.directBlocks = (v.inode d).directBlocks) :
    DirectoryEdit v [.block ((v.inode d).directBlocks k) b, .inode d r] live live d := by
  have plain : ∀ u ∈ [Update.block ((v.inode d).directBlocks k) b, .inode d r], u.Plain :=
    List.forall_mem_cons.mpr ⟨trivial, List.forall_mem_singleton.mpr (valid d member)⟩
  have record : (v.applyAll [.block ((v.inode d).directBlocks k) b, .inode d r]).inode d = r :=
    Volume.inode_inode_same (valid d member)
  refine ⟨plain, by rw [record, type], fun x memberX other => .inr ⟨memberX, ?_⟩, ?_, ?_⟩
  · refine inode_applyAll (valid x memberX) plain (List.forall_mem_cons.mpr ⟨?_,
      List.forall_mem_singleton.mpr fun _ stored => (nomatch stored)⟩)
      (List.forall_mem_cons.mpr ⟨fun _ same => (nomatch same), List.forall_mem_singleton.mpr ?_⟩)
    · rintro n rfl
      exact data
    · rintro r' same
      obtain ⟨rfl, _⟩ := Update.inode.inj same
      exact other rfl
  · refine List.forall_mem_cons.mpr ⟨?_, List.forall_mem_singleton.mpr fun _ stored => (nomatch stored)⟩
    rintro n rfl
    exact ⟨directory, used, k, by rw [record, direct]⟩
  · intro k' changed
    rw [record, direct] at changed
    exact absurd rfl changed

/-- An entry is stored in a block that becomes the directory's. -/
theorem directoryEdit_block (valid : ∀ x ∈ live, ValidId x) (member : d ∈ live)
    (directory : isDir (v.inode d)) {k : Fin 10} (i : Nat) (nonzero : n ≠ 0#32) (data : 6 ≤ n.toNat)
    (b : Block) {r : Inode} (type : r.type = (v.inode d).type)
    (direct : r.directBlocks = Function.update (v.inode d).directBlocks k n) :
    DirectoryEdit v [.blockBit i true, .block n b, .inode d r] live live d := by
  have plain : ∀ u ∈ [Update.blockBit i true, .block n b, .inode d r], u.Plain :=
    List.forall_mem_cons.mpr ⟨trivial, List.forall_mem_cons.mpr
      ⟨trivial, List.forall_mem_singleton.mpr (valid d member)⟩⟩
  have record : (v.applyAll [.blockBit i true, .block n b, .inode d r]).inode d = r :=
    Volume.inode_inode_same (valid d member)
  refine ⟨plain, by rw [record, type], fun x memberX other => .inr ⟨memberX, ?_⟩, ?_, ?_⟩
  · refine inode_applyAll (valid x memberX) plain (List.forall_mem_cons.mpr
      ⟨fun _ stored => (nomatch stored), List.forall_mem_cons.mpr
        ⟨?_, List.forall_mem_singleton.mpr fun _ stored => (nomatch stored)⟩⟩)
      (List.forall_mem_cons.mpr ⟨fun _ same => (nomatch same), List.forall_mem_cons.mpr
        ⟨fun _ same => (nomatch same), List.forall_mem_singleton.mpr ?_⟩⟩)
    · rintro m rfl
      exact data
    · rintro r' same
      obtain ⟨rfl, _⟩ := Update.inode.inj same
      exact other rfl
  · refine List.forall_mem_cons.mpr ⟨fun _ stored => (nomatch stored), List.forall_mem_cons.mpr
      ⟨?_, List.forall_mem_singleton.mpr fun _ stored => (nomatch stored)⟩⟩
    rintro m rfl
    exact ⟨directory, nonzero, k, by rw [record, direct, Function.update_self]⟩
  · intro k' changed
    rw [record, direct] at changed ⊢
    by_cases same : k' = k
    · subst same
      rw [Function.update_self]
      exact ⟨_, List.mem_cons_of_mem _ List.mem_cons_self, rfl⟩
    · rw [Function.update_of_ne same] at changed
      exact absurd rfl changed

theorem DirectoryEdit.narrow (edit : DirectoryEdit v us live live d) (fewer : live' ⊆ live) :
    DirectoryEdit v us live live' d :=
  ⟨edit.plain, edit.type, fun x memberX => edit.others x (fewer memberX), edit.stored, edit.adopted⟩

/-- Bitmap updates may follow. -/
theorem DirectoryEdit.bits (edit : DirectoryEdit v us live live' d) (vs : List Update)
    (bits : ∀ u ∈ vs, ∃ i set, u = .inodeBit i set ∨ u = .blockBit i set) (validD : ValidId d)
    (valid : ∀ x ∈ live', ValidId x) : DirectoryEdit v (us ++ vs) live live' d := by
  obtain ⟨records, _⟩ := bits_keep (v := v.applyAll us) vs bits
  have harmless : ∀ u ∈ vs, u.Plain ∧ u.data = ∅ := by
    intro u memberU
    obtain ⟨i, set, rfl | rfl⟩ := bits u memberU
    · exact ⟨trivial, rfl⟩
    · exact ⟨trivial, rfl⟩
  refine ⟨List.forall_mem_append.mpr ⟨edit.plain, fun u memberU => (harmless u memberU).1⟩, ?_, ?_, ?_, ?_⟩
  · rw [Volume.applyAll_append, records d validD]
    exact edit.type
  · rw [Volume.applyAll_append]
    intro x memberX other
    rw [records x (valid x memberX)]
    exact edit.others x memberX other
  · rw [Volume.applyAll_append, records d validD]
    intro u memberU n whole
    rcases List.mem_append.mp memberU with early | late
    · exact edit.stored u early n whole
    · rw [(harmless u late).2] at whole
      exact absurd whole (Set.notMem_empty n)
  · rw [Volume.applyAll_append, records d validD]
    intro k changed
    obtain ⟨u, memberU, whole⟩ := edit.adopted k changed
    exact ⟨u, List.mem_append_left _ memberU, whole⟩

/-- A claim may come first. -/
theorem DirectoryEdit.claimed (c : Consistent ⟨live, blocks, inodes⟩ v) (member : d ∈ live) {i : Nat}
    (found : v.unusedInode = some i) (type : BitVec 16)
    (edit : DirectoryEdit (v.applyAll (Volume.claim i type)) us (insert (BitVec.ofNat 32 (i + 1)) live)
      (insert (BitVec.ofNat 32 (i + 1)) live) d) :
    DirectoryEdit v (Volume.claim i type ++ us) live (insert (BitVec.ofNat 32 (i + 1)) live) d := by
  have small := (Volume.unusedInode_some found).1
  have dead := c.fresh_inode found
  obtain ⟨record, others, _⟩ := claim_reads (v := v) small type
  have parent := others d (c.valid d member) (by rintro rfl; exact dead member)
  have noData : ∀ u ∈ Volume.claim i type, u.data = ∅ :=
    List.forall_mem_cons.mpr ⟨rfl, List.forall_mem_singleton.mpr rfl⟩
  refine ⟨List.forall_mem_append.mpr ⟨claim_plain small type, edit.plain⟩, ?_, ?_, ?_, ?_⟩
  · rw [Volume.applyAll_append, edit.type, parent]
  · rw [Volume.applyAll_append]
    intro x memberX other
    rcases edit.others x memberX other with empty | ⟨_, same⟩
    · exact .inl empty
    · rw [same]
      rcases memberX with rfl | memberX
      · refine .inl fun k => ?_
        rw [record]
        rfl
      · exact .inr ⟨memberX, others x (c.valid x memberX) (by rintro rfl; exact dead memberX)⟩
  · rw [Volume.applyAll_append, ← parent]
    intro u memberU n whole
    rcases List.mem_append.mp memberU with early | late
    · rw [noData u early] at whole
      exact absurd whole (Set.notMem_empty n)
    · exact edit.stored u late n whole
  · rw [Volume.applyAll_append, ← parent]
    intro k changed
    obtain ⟨u, memberU, whole⟩ := edit.adopted k changed
    exact ⟨u, List.mem_append_right _ memberU, whole⟩

theorem directoryEdit_create (c : Consistent ⟨live, blocks, inodes⟩ v) (member : d ∈ live)
    (name : CString) {type : BitVec 16} (kind : type = fsInodeTypeFile ∨ type = fsInodeTypeDir)
    (padding : Bytes) :
    ∃ live', DirectoryEdit v (v.create d name type padding).2 live live' d ∧
      ((v.create d name type padding).1 = 0#32 → live' = live) ∧
      ((v.create d name type padding).1 ≠ 0#32 → live' = insert (v.create d name type padding).1 live) := by
  rcases create_cases (c.valid d member) name type padding with
    ⟨_, refused⟩ | ⟨i, ⟨_, directory, _, found⟩, number, done⟩
  · rw [refused]
    exact ⟨live, .nothing v live d, fun _ => rfl, fun nonzero => absurd rfl nonzero⟩
  have small := (Volume.unusedInode_some found).1
  have dead := c.fresh_inode found
  have claimed := (track_claim c found type).final
  obtain ⟨record, others, marked_, _⟩ := claim_reads (v := v) small type
  have parent := others d (c.valid d member) (by rintro rfl; exact dead member)
  rw [done]
  refine ⟨_, .claimed c member found type ?_, fun zero => absurd zero number, fun _ => rfl⟩
  have bit : (v.applyAll (Volume.claim i type)).ibit ((BitVec.ofNat 32 (i + 1)).toNat - 1) = true := by
    rw [marked_, ofNat_succ_toNat (by omega), Nat.add_sub_cancel, if_pos rfl]
  have grown := (grow_claimed claimed (ofNat_valid small) dead bit record kind).1
  rw [← parent] at directory ⊢
  set v2 := v.applyAll (Volume.claim i type)
  rcases insert_cases v2 d (newEntry (BitVec.ofNat 32 (i + 1)) name padding) (v2.inode d) indices with
    none_ | ⟨k, n, vacant, free, updates⟩ | ⟨k, j, used, slot, updates⟩
  · rw [none_]
    exact .nothing _ _ _
  · obtain ⟨low, high, _⟩ := grown.fresh_block free
    rw [updates]
    have number : (BitVec.ofNat 32 (n + 1)).toNat = n + 1 := ofNat_succ_toNat (by omega)
    exact directoryEdit_block grown.valid (.inr member) directory n (ofNat_succ_ne_zero high) (by omega) _
      (Volume.grow_type _) (Volume.grow_directBlocks _)
  · rw [updates]
    have low := (grown.range d (.inr member) k used).1
    exact directoryEdit_slot grown.valid (.inr member) directory used (by omega) _
      (Volume.grow_type _) (Volume.grow_directBlocks _)

theorem directoryEdit_delete (c : Consistent ⟨live, blocks, inodes⟩ v) (member : d ∈ live)
    (name : CString) : ∃ live', DirectoryEdit v (v.delete d name).2 live live' d ∧ live' ⊆ live ∧
      Track v (v.delete d name).2 ⟨live', blocks, inodes⟩ := by
  have nothing : v.delete d name = (-1, []) → ∃ live', DirectoryEdit v (v.delete d name).2 live live' d ∧
      live' ⊆ live ∧ Track v (v.delete d name).2 ⟨live', blocks, inodes⟩ := by
    intro refused
    rw [refused]
    exact ⟨live, .nothing v live d, subset_rfl, .nil c⟩
  by_cases long : fsMaxFilenameLen < strlen name
  · exact nothing (by rw [Volume.delete, if_pos long])
  by_cases directory : isDir (v.inode d)
  · cases found : v.find (v.inode d) name indices with
    | none => exact nothing (delete_missing fun _ => found)
    | some place =>
        obtain ⟨k, j⟩ := place
        have held := holds_of_find directory found
        have low := (c.range d member k held.used).1
        rw [delete_found c member long directory found]
        refine ⟨_, ?_, Set.sdiff_subset, track_removal c member held⟩
        have unlinked := directoryEdit_slot c.valid member directory held.used (by omega)
          (clearEntry (v.disk ((v.inode d).directBlocks k)) j) (Volume.shrink_type _)
          (Volume.shrink_directBlocks _)
        have edit := unlinked.bits (Volume.release ((v.applyAll (v.unlink d (v.inode d) k j)).inode
          (entryId (v.disk ((v.inode d).directBlocks k)) j)) indices ++
            [.inodeBit ((entryId (v.disk ((v.inode d).directBlocks k)) j).toNat - 1) false])
          (List.forall_mem_append.mpr ⟨release_bits _ _, List.forall_mem_singleton.mpr ⟨_, _, .inl rfl⟩⟩)
          (c.valid d member) c.valid
        exact edit.narrow Set.sdiff_subset
  · exact nothing (delete_missing fun isDirectory => absurd isDirectory directory)

theorem twins_step_write (secretly : secret → ∀ i, related (buffer i) (buffer' i))
    (openly : ¬ secret → buffer' = buffer) (offset count : BitVec 64) (c : Consistent ⟨live, blocks, inodes⟩ v)
    (member : id ∈ live) (twins : Twins related marked v v') (guarded : Guarded marked live v) :
    Twins related (stamp secret marked ((Call.write id offset buffer count).fills (v.inode id)
        ((v.step (.write id offset buffer count)).inode id)))
      (v.step (.write id offset buffer count)) (v'.step (.write id offset buffer' count)) ∧
    Guarded (stamp secret marked ((Call.write id offset buffer count).fills (v.inode id)
        ((v.step (.write id offset buffer count)).inode id))) live
      (v.step (.write id offset buffer count)) := by
  by_cases file : isFile (v.inode id)
  · have all : (Call.write id offset buffer count).fills (v.inode id)
        ((v.step (.write id offset buffer count)).inode id) =
        ((v.step (.write id offset buffer count)).inode id).covers offset.toNat count.toNat :=
      Set.ext fun x => ⟨fun h => h.2, fun h => ⟨file, h⟩⟩
    rw [all]
    exact ⟨(twins_write secretly openly offset count c member file twins guarded.data).2,
      guarded.write offset buffer count c member file⟩
  · have file' : ¬ isFile (v'.inode id) := by rwa [twins.inode guarded.data (c.valid id member)]
    have still : v.step (.write id offset buffer count) = v := by
      rw [Volume.step, Volume.perform, Volume.write, Volume.openAs_none file]
      rfl
    have still' : v'.step (.write id offset buffer' count) = v' := by
      rw [Volume.step, Volume.perform, Volume.write, Volume.openAs_none file']
      rfl
    have nothing : (Call.write id offset buffer count).fills (v.inode id)
        ((v.step (.write id offset buffer count)).inode id) = ∅ :=
      Set.eq_empty_of_forall_notMem fun x h => file h.1
    rw [nothing, stamp_empty, still, still']
    exact ⟨twins, guarded⟩

theorem twins_step_create (c : Consistent ⟨live, blocks, inodes⟩ v) (member : d ∈ live) (name : CString)
    {type : BitVec 16} (kind : type = fsInodeTypeFile ∨ type = fsInodeTypeDir) (padding : Bytes)
    (twins : Twins related marked v v') (guarded : Guarded marked live v) :
    ∃ live', Consistent ⟨live', blocks, inodes⟩ (v.step (.create d name type padding)) ∧
      Twins related (marked \ (Call.create d name type padding).fills (v.inode d)
          ((v.step (.create d name type padding)).inode d))
        (v.step (.create d name type padding)) (v'.step (.create d name type padding)) ∧
      Guarded (marked \ (Call.create d name type padding).fills (v.inode d)
          ((v.step (.create d name type padding)).inode d)) live' (v.step (.create d name type padding)) := by
  obtain ⟨live', edit, refused, done⟩ := directoryEdit_create c member name kind padding
  obtain ⟨live2, track, refused2, done2⟩ := track_create c member name kind padding
  have same : live2 = live' := by
    by_cases zero : (v.create d name type padding).1 = 0#32
    · rw [refused zero, refused2 zero]
    · rw [done zero, done2 zero]
  have alike : v'.step (.create d name type padding) = v'.applyAll (v.create d name type padding).2 := by
    rw [Volume.step, Volume.perform, twins.create guarded member name type padding]
  rw [alike]
  exact ⟨live', same ▸ track.final, edit.twins member twins guarded, edit.guarded member guarded⟩

theorem twins_step_delete (c : Consistent ⟨live, blocks, inodes⟩ v) (member : d ∈ live) (name : CString)
    (twins : Twins related marked v v') (guarded : Guarded marked live v) :
    ∃ live', Consistent ⟨live', blocks, inodes⟩ (v.step (.delete d name)) ∧
      Twins related (marked \ (Call.delete d name).fills (v.inode d) ((v.step (.delete d name)).inode d))
        (v.step (.delete d name)) (v'.step (.delete d name)) ∧
      Guarded (marked \ (Call.delete d name).fills (v.inode d) ((v.step (.delete d name)).inode d)) live'
        (v.step (.delete d name)) := by
  obtain ⟨live', edit, _, track⟩ := directoryEdit_delete c member name
  have alike : v'.step (.delete d name) = v'.applyAll (v.delete d name).2 := by
    rw [Volume.step, Volume.perform, twins.delete guarded member name]
  rw [alike]
  exact ⟨live', track.final, edit.twins member twins guarded, edit.guarded member guarded⟩

/-- Every call leaves twins, with what it filled marked when its buffer was a secret. -/
theorem twins_step (c : Consistent ⟨live, ∅, ∅⟩ v) {call call' : Call}
    (differs : Differs related secret call call') (member : call.inode ∈ live) (typed : call.Typed)
    (twins : Twins related marked v v') (guarded : Guarded marked live v) :
    ∃ live', Consistent ⟨live', ∅, ∅⟩ (v.step call) ∧
      Twins related (stamp secret marked (call.fills (v.inode call.inode) ((v.step call).inode call.inode)))
        (v.step call) (v'.step call') ∧
      Guarded (stamp secret marked (call.fills (v.inode call.inode) ((v.step call).inode call.inode))) live'
        (v.step call) := by
  cases differs with
  | secretly hidden id offset buffer buffer' count bytes =>
      exact ⟨live, (track_write c member offset buffer count).final, twins_step_write (fun _ => bytes)
        (fun shown => absurd hidden shown) offset count c member twins guarded⟩
  | openly shown =>
      obtain rfl : secret = False := eq_false shown
      cases call with
      | write id offset buffer count =>
          exact ⟨live, (track_write c member offset buffer count).final,
            twins_step_write False.elim (fun _ => rfl) offset count c member twins guarded⟩
      | create d name type padding =>
          rw [stamp_public]
          exact twins_step_create c member name typed padding twins guarded
      | delete d name =>
          rw [stamp_public]
          exact twins_step_delete c member name twins guarded
      | lookup d name =>
          rw [Call.fills, stamp_empty]
          exact ⟨live, c, twins, guarded⟩
      | read id offset count =>
          rw [Call.fills, stamp_empty]
          exact ⟨live, c, twins, guarded⟩

/-! Reading. -/

/-- Within the size of the file `fs_read` gives the bytes it reaches. -/
theorem read_reaches (valid : ValidId id) (file : isFile (v.inode id)) {offset count : BitVec 64}
    (within : offset.toNat + count.toNat ≤ (v.inode id).size.toNat) :
    ∃ last, Reaches (v.inode id) offset.toNat count.toNat 0 last ∧ v.read id offset count =
      (toInt last, (List.range last).map fun i => v.byteOf (v.inode id) offset.toNat i) := by
  have size := (v.inode id).size.isLt
  have sum : (offset + count).toNat = offset.toNat + count.toNat := by
    rw [BitVec.toNat_add, Nat.mod_eq_of_lt (by omega)]
  have inside : ¬ (v.inode id).size < offset + count := by
    rw [BitVec.lt_def, sum]
    omega
  have whole : clamped (v.inode id).size offset count = count := if_neg inside
  have extent := @read_clamped v id offset count valid file
  rwa [whole] at extent

theorem Twins.read_iff (twins : Twins related marked v v') (data : ∀ x ∈ marked, 6 ≤ x.1.toNat)
    (valid : ValidId id) (file : isFile (v.inode id)) {offset count : BitVec 64}
    (within : offset.toNat + count.toNat ≤ (v.inode id).size.toNat) :
    v'.read id offset count = v.read id offset count ↔
      ∀ x ∈ (v.inode id).covers offset.toNat count.toNat, v'.byteAt x = v.byteAt x := by
  have record := twins.inode data valid
  obtain ⟨last, reaches, result⟩ := read_reaches valid file within
  obtain ⟨last', reaches', result'⟩ := read_reaches (v := v') valid
    (by rwa [record]) (by rwa [record] : offset.toNat + count.toNat ≤ _)
  rw [record] at reaches' result'
  obtain rfl := reaches.unique reaches' (Nat.zero_le _)
  rw [result, result', reaches.covers_eq]
  constructor
  · rintro same x ⟨p, _, below, found⟩
    have bytes := List.map_inj_left.mp (Prod.mk.inj same).2 p (List.mem_range.mpr below)
    rw [Volume.byteOf, Volume.byteOf, found] at bytes
    exact bytes
  · intro same
    refine congrArg _ (List.map_congr_left fun p member => ?_)
    have below := List.mem_range.mp member
    obtain ⟨x, found⟩ := Option.ne_none_iff_exists'.mp (reaches.placed p (Nat.zero_le p) below)
    rw [Volume.byteOf, Volume.byteOf, found]
    exact same x ⟨p, Nat.zero_le p, below, found⟩

end

end AstralOS.Fs
