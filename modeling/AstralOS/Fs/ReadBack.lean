import AstralOS.Fs.Ownership

/-! Writing a file and reading it back: the two loops split the range the same way, and no
other byte of any inode in use changes. -/
namespace AstralOS.Fs
open Foundation AstralOS.Lib

/-- What ten direct blocks hold. -/
def maxFileSize : Nat := 10 * fsBlockSize

section
variable {offset count done : Nat}

theorem blockIndex_eq (fits : offset + done < maxFileSize) :
    blockIndex offset done = (offset + done) / 4096 := by
  rw [maxFileSize, fsBlockSize] at fits
  rw [blockIndex, fsBlockSize]
  omega

theorem blockOffset_eq (offset done : Nat) :
    blockOffset offset done = (offset + done) % 4096 := by
  rw [blockOffset, fsBlockSize]
  omega

theorem blockIndex_lt (fits : offset + done < maxFileSize) : blockIndex offset done < 10 := by
  rw [blockIndex_eq fits]
  rw [maxFileSize, fsBlockSize] at fits
  omega

theorem chunk_fits (offset count done : Nat) :
    blockOffset offset done + chunk offset count done ≤ 4096 := by
  have := blockOffset_eq offset done
  rw [chunk, fsBlockSize]
  omega

theorem chunk_le (offset : Nat) (more : done < count) : done + chunk offset count done ≤ count := by
  rw [chunk]
  omega

/-- The bytes of one chunk lie in one block, one after another. -/
theorem chunk_position (fits : offset + done < maxFileSize) {p : Nat} (low : done ≤ p)
    (high : p < done + chunk offset count done) :
    (offset + p) / 4096 = blockIndex offset done ∧
      (offset + p) % 4096 = blockOffset offset done + (p - done) := by
  have inside : blockOffset offset done + chunk offset count done ≤ 4096 := chunk_fits offset count done
  rw [blockOffset_eq offset done] at inside
  rw [blockIndex_eq fits, blockOffset_eq offset done]
  omega

end

/-- Byte `p` of the file is stored as `x`. -/
def Stored (v : Volume) (inode : Inode) (p : Nat) (x : Byte) : Prop :=
  ∃ k : Fin 10, p / 4096 = k ∧ inode.directBlocks k ≠ 0#32 ∧
    (v.disk (inode.directBlocks k)).bytes (p % 4096) = x

/-- What writing the bytes `done` to `last - 1` of a buffer at `offset` into a file does. -/
structure Wrote (v v' : Volume) (live : Set (BitVec 32)) (id : BitVec 32) (inode inode' : Inode)
    (buffer : Bytes) (offset done last : Nat) : Prop where
  stored : ∀ p, done ≤ p → p < last → Stored v' inode' (offset + p) (buffer p)
  blocks : ∀ k, inode.directBlocks k ≠ 0#32 → inode'.directBlocks k = inode.directBlocks k
  type : inode'.type = inode.type
  others : ∀ other, ValidId other → other ≠ id → v'.inode other = v.inode other
  frame : ∀ owner ∈ live, ∀ k, (v.inode owner).directBlocks k ≠ 0#32 → ∀ j < 4096,
    (∀ p, done ≤ p → p < last → owner = id → offset + p ≠ 4096 * k + j) →
      (v'.disk ((v.inode owner).directBlocks k)).bytes j =
        (v.disk ((v.inode owner).directBlocks k)).bytes j

section
variable {v v' v'' : Volume} {live : Set (BitVec 32)} {blocks : Set BlockNum}
  {inodes : Set (BitVec 32)} {id : BitVec 32} {inode inode' inode'' : Inode} {buffer : Bytes}
  {offset count done last : Nat}

theorem Wrote.nothing (v : Volume) (live : Set (BitVec 32)) (id : BitVec 32) (inode : Inode)
    (buffer : Bytes) (offset done : Nat) : Wrote v v live id inode inode buffer offset done done where
  stored := fun p low high => absurd high (by omega)
  blocks := fun _ _ => rfl
  type := rfl
  others := fun _ _ _ => rfl
  frame := fun _ _ _ _ _ _ _ => rfl

/-- Two stretches, one after the other. -/
theorem Wrote.trans {middle : Nat} (member : id ∈ live) (cached : v.inode id = inode)
    (cached' : v'.inode id = inode') (valid : ∀ id ∈ live, ValidId id)
    (first : Wrote v v' live id inode inode' buffer offset done middle)
    (second : Wrote v' v'' live id inode' inode'' buffer offset middle last)
    (low : done ≤ middle) (high : middle ≤ last) :
    Wrote v v'' live id inode inode'' buffer offset done last := by
  have kept : ∀ owner ∈ live, ∀ k, (v.inode owner).directBlocks k ≠ 0#32 →
      (v'.inode owner).directBlocks k = (v.inode owner).directBlocks k := by
    intro owner memberOwner k used
    by_cases self : owner = id
    · subst self
      rw [cached] at used ⊢
      rw [cached']
      exact first.blocks k used
    · rw [first.others owner (valid owner memberOwner) self]
  refine ⟨fun p lowP highP => ?_, fun k used => ?_,
    second.type.trans first.type, fun other validOther apart =>
      (second.others other validOther apart).trans (first.others other validOther apart),
    fun owner memberOwner k used j inside away => ?_⟩
  · by_cases early : p < middle
    · obtain ⟨k, index, used, byte⟩ := first.stored p lowP early
      refine ⟨k, index, ?_, ?_⟩
      · rwa [second.blocks k used]
      · rw [second.blocks k used, ← byte, ← cached']
        refine second.frame id member k (by rwa [cached']) _ (Nat.mod_lt _ (by decide)) ?_
        intro q lowQ highQ _
        omega
    · exact second.stored p (by omega) highP
  · rw [second.blocks k (by rwa [first.blocks k used]), first.blocks k used]
  · have same := kept owner memberOwner k used
    have late := second.frame owner memberOwner k (by rwa [same]) j inside
      fun p lowP highP self => away p (by omega) highP self
    rw [same] at late
    rw [late]
    exact first.frame owner memberOwner k used j inside
      fun p lowP highP self => away p lowP (by omega) self

/-- One iteration writes its chunk. -/
theorem wrote_chunk (c : Consistent ⟨live, blocks, inodes⟩ v) (member : id ∈ live)
    (file : isFile (v.inode id)) (fits : offset + done < maxFileSize)
    (index : blockIndex offset done < 10) {n : BlockNum} {owner : Inode} {us : List Update}
    (found : v.target id (v.inode id) ⟨blockIndex offset done, index⟩ = some (n, owner, us)) :
    Wrote v ((v.applyAll us).apply ((v.applyAll us).fill n buffer offset count done)) live id
      (v.inode id) owner buffer offset done (done + chunk offset count done) := by
  have valid := c.valid id member
  obtain ⟨disk, records, kept, type, fresh⟩ := target_frame c valid found
  obtain ⟨targeted, record, rfl, nonzero, _⟩ := track_target c member file found
  set k : Fin 10 := ⟨blockIndex offset done, index⟩ with kEq
  have used : ((v.applyAll us).inode id).directBlocks k ≠ 0#32 := by rwa [record]
  have low := (targeted.final.range id member k used).1
  rw [record] at low
  refine ⟨fun p lowP highP => ?_, kept, type, fun other validOther apart => ?_,
    fun x memberX kx usedX j inside away => ?_⟩
  · obtain ⟨quotient, remainder⟩ := chunk_position fits lowP highP
    refine ⟨k, quotient, nonzero, ?_⟩
    rw [Volume.fill, Volume.disk_block, remainder,
      Block.patch_inside _ _ (by omega) (chunk_fits offset count done), Bytes.drop]
    congr 1
    omega
  · rw [Volume.fill, Volume.inode_block validOther (by omega)]
    exact records other validOther apart
  · have dataX := (c.range x memberX kx usedX).1
    rw [Volume.fill]
    by_cases same : (v.inode x).directBlocks kx = owner.directBlocks k
    · rcases fresh with own | unowned
      · rw [own] at same
        obtain ⟨rfl, rfl⟩ := c.single x memberX id member kx k usedX same
        rw [own, Volume.disk_block, Block.patch_outside, ← own, disk _ (by omega)]
        by_contra reached
        have position : blockOffset offset done ≤ j ∧
          j < blockOffset offset done + chunk offset count done := by omega
        have quotient := blockIndex_eq fits
        have remainder := blockOffset_eq offset done
        have number : (k : Nat) = blockIndex offset done := rfl
        exact away (done + (j - blockOffset offset done)) (by omega) (by omega) rfl (by omega)
      · exact absurd ⟨x, memberX, kx, same⟩ unowned
    · rw [Volume.disk_block_other same, disk _ (by omega)]

/-- The loop writes a prefix of the buffer, short only when no block is left. -/
theorem wrote_writeFrom (buffer : Bytes) (fits : offset + count ≤ maxFileSize) (inode : Inode)
    (done : Nat) (some_ : done ≤ count) (c : Consistent ⟨live, blocks, inodes⟩ v) (member : id ∈ live)
    (file : isFile (v.inode id)) (cached : v.inode id = inode) :
    let r := v.writeFrom id buffer offset count inode done
    done ≤ r.2.1 ∧ r.2.1 ≤ count ∧
      (r.2.1 = count ∨ (v.applyAll r.2.2).unusedBlock = none) ∧
      Wrote v (v.applyAll r.2.2) live id inode r.1 buffer offset done r.2.1 := by
  induction v, inode, done using Volume.writeFrom.induct id buffer offset count with
  | case1 v inode done more index full =>
      rw [Volume.writeFrom, dif_pos more, dif_pos index, full]
      exact ⟨le_rfl, some_, .inr (Volume.target_none.mp full).2, .nothing v live id inode buffer offset done⟩
  | case2 v inode done more index n owner us found u ih =>
      subst cached
      have inside : offset + done < maxFileSize := by omega
      obtain ⟨_, filled, ownerFile, record⟩ := track_iteration c member file found
        (((v.applyAll us).disk n).patch (blockOffset offset done) (chunk offset count done)
          (buffer.drop done))
      have written : Wrote v ((v.applyAll us).apply u) live id (v.inode id) owner buffer offset done
        (done + chunk offset count done) := wrote_chunk c member file inside index found
      obtain ⟨low, high, stopped, rest⟩ := ih (chunk_le offset more) filled ownerFile record
      rw [Volume.writeFrom, dif_pos more, dif_pos index, found]
      dsimp only
      rw [Volume.applyAll_append]
      have further := Nat.le_add_right done (chunk offset count done)
      exact ⟨further.trans low, high, stopped,
        written.trans member rfl record c.valid rest further low⟩
  | case3 v inode done more beyond => exact absurd (blockIndex_lt (by omega)) beyond
  | case4 v inode done finished =>
      rw [Volume.writeFrom, dif_neg finished]
      have all : done = count := by omega
      exact ⟨le_rfl, some_, .inl all, .nothing v live id inode buffer offset done⟩

/-- What is stored is read. -/
theorem readFrom_stored {out : List Byte} (fits : offset + count ≤ maxFileSize) (some_ : done ≤ count)
    (stored : ∀ p, done ≤ p → p < count → Stored v inode (offset + p) (buffer p)) :
    v.readFrom inode offset count done out =
      out ++ (List.range (count - done)).map fun i => buffer (done + i) := by
  induction done, out using Volume.readFrom.induct v inode offset count with
  | case1 done out more index unused =>
      obtain ⟨k, quotient, used, _⟩ := stored done le_rfl more
      have inside : offset + done < maxFileSize := by omega
      have place : (⟨blockIndex offset done, index⟩ : Fin 10) = k :=
        Fin.ext ((blockIndex_eq inside).trans quotient)
      rw [place] at unused
      exact absurd unused used
  | case2 done out more index used ih =>
      have inside : offset + done < maxFileSize := by omega
      have bytes : ∀ i < chunk offset count done,
          (v.disk (inode.directBlocks ⟨blockIndex offset done, index⟩)).bytes
            (blockOffset offset done + i) = buffer (done + i) := by
        intro i hi
        have last := chunk_le offset more
        obtain ⟨k, quotient, _, byte⟩ := stored (done + i) (by omega) (by omega)
        have high : done + i < done + chunk offset count done := by omega
        obtain ⟨quotient', remainder⟩ := chunk_position inside (Nat.le_add_right done i) high
        have place : (⟨blockIndex offset done, index⟩ : Fin 10) = k :=
          Fin.ext (quotient'.symm.trans quotient)
        rw [place, ← byte, remainder]
        congr 1
        omega
      have copied : (List.range (chunk offset count done)).map (fun i =>
          (v.disk (inode.directBlocks ⟨blockIndex offset done, index⟩)).bytes
            (blockOffset offset done + i)) =
          (List.range (chunk offset count done)).map fun i => buffer (done + i) :=
        List.map_congr_left fun i hi => bytes i (List.mem_range.mp hi)
      have last := chunk_le offset more
      have split_ : count - done =
          chunk offset count done + (count - (done + chunk offset count done)) := by omega
      rw [Volume.readFrom, dif_pos more, dif_pos index, if_neg used,
        ih last fun p low high => stored p (by omega) high, copied, List.append_assoc]
      rw [split_, List.range_add, List.map_append, List.map_map]
      congr 2
      refine List.map_congr_left fun i _ => ?_
      rw [Function.comp_apply, Nat.add_assoc]
  | case3 done out more beyond => exact absurd (blockIndex_lt (by omega)) beyond
  | case4 done out finished =>
      have nothing : count - done = 0 := by omega
      rw [Volume.readFrom, dif_neg finished, nothing]
      exact (List.append_nil out).symm

/-- Only the size of the record is written at the end. -/
theorem Wrote.resize (wrote : Wrote v v' live id inode inode' buffer offset done last)
    (c : Consistent ⟨live, blocks, inodes⟩ v) (c' : Consistent ⟨live, blocks, inodes⟩ v')
    (member : id ∈ live) (cached : v'.inode id = inode') (size : BitVec 64) :
    Wrote v (v'.apply (.inode id { inode' with size := size })) live id inode
      { inode' with size := size } buffer offset done last := by
  have valid := c.valid id member
  refine ⟨fun p low high => ?_, wrote.blocks, wrote.type, fun other validOther apart => ?_,
    fun owner memberOwner k used j inside away => ?_⟩
  · obtain ⟨k, quotient, used, byte⟩ := wrote.stored p low high
    have range := c'.range id member k (by rwa [cached])
    rw [cached] at range
    refine ⟨k, quotient, used, ?_⟩
    rw [← byte, Volume.disk_inode valid (by dsimp only; omega)]
  · rw [Volume.inode_inode_other valid validOther (Ne.symm apart)]
    exact wrote.others other validOther apart
  · have range := c.range owner memberOwner k used
    rw [Volume.disk_inode valid (by omega)]
    exact wrote.frame owner memberOwner k used j inside away

theorem toInt_eq {n : Nat} (small : n ≤ maxFileSize) : toInt n = n := by
  rw [maxFileSize, fsBlockSize] at small
  rw [toInt, BitVec.toInt_eq_toNat_of_lt (by rw [BitVec.toNat_ofNat]; omega), BitVec.toNat_ofNat,
    Nat.mod_eq_of_lt (by omega)]

/-- A call to `fs_write` within the ten blocks of a file. -/
theorem wrote_write (c : Consistent ⟨live, blocks, inodes⟩ v) (member : id ∈ live)
    (file : isFile (v.inode id)) {offset count : BitVec 64}
    (fits : offset.toNat + count.toNat ≤ maxFileSize) (buffer : Bytes) :
    ∃ n ≤ count.toNat, (v.write id offset buffer count).1 = n ∧
      (n = count.toNat ∨ (v.applyAll (v.write id offset buffer count).2).unusedBlock = none) ∧
      ∃ inode', (v.applyAll (v.write id offset buffer count).2).inode id = inode' ∧
        isFile inode' ∧ offset.toNat + n ≤ inode'.size.toNat ∧
        Wrote v (v.applyAll (v.write id offset buffer count).2) live id (v.inode id) inode' buffer
          offset.toNat 0 n := by
  have valid := c.valid id member
  have opened := Volume.openAs_some valid file
  obtain ⟨_, high, stopped, wrote⟩ :=
    wrote_writeFrom buffer fits (v.inode id) 0 (Nat.zero_le _) c member file rfl
  obtain ⟨track, record⟩ :=
    track_writeFrom buffer offset.toNat count.toNat (v.inode id) 0 c member file rfl
  rw [Volume.write, opened]
  dsimp only
  set r := v.writeFrom id buffer offset.toNat count.toNat (v.inode id) 0 with rEq
  have type : isFile r.1 := (isFile_congr wrote.type).mpr file
  have last : (offset + BitVec.ofNat 64 r.2.1).toNat = offset.toNat + r.2.1 := by
    rw [maxFileSize, fsBlockSize] at fits
    rw [BitVec.toNat_add, BitVec.toNat_ofNat]
    omega
  refine ⟨r.2.1, high, toInt_eq (by omega), ?_, ?_⟩
  · rw [Volume.applyAll_append, Volume.extend]
    split
    · exact stopped
    · exact stopped
  · rw [Volume.applyAll_append, Volume.extend]
    split
    · refine ⟨_, Volume.inode_inode_same valid, type, le_of_eq last.symm, ?_⟩
      exact wrote.resize c track.final member record _
    · rename_i large
      rw [BitVec.lt_def, last] at large
      exact ⟨r.1, record, type, by omega, wrote⟩

/-- `fs_read` of bytes that are stored. -/
theorem read_stored (valid : ValidId id) (file : isFile (v.inode id)) {offset : BitVec 64} {n : Nat}
    (fits : offset.toNat + n ≤ maxFileSize) (size : offset.toNat + n ≤ (v.inode id).size.toNat)
    (stored : ∀ p < n, Stored v (v.inode id) (offset.toNat + p) (buffer p)) :
    v.read id offset (BitVec.ofNat 64 n) = ((n : Int), (List.range n).map buffer) := by
  have opened := Volume.openAs_some valid file
  have small : n < 2 ^ 64 := by
    rw [maxFileSize, fsBlockSize] at fits
    omega
  have number : (BitVec.ofNat 64 n).toNat = n := by
    rw [BitVec.toNat_ofNat, Nat.mod_eq_of_lt small]
  have last : (offset + BitVec.ofNat 64 n).toNat = offset.toNat + n := by
    rw [maxFileSize, fsBlockSize] at fits
    rw [BitVec.toNat_add, number]
    omega
  have within : ¬ (v.inode id).size < offset + BitVec.ofNat 64 n := by
    rw [BitVec.lt_def, last]
    omega
  rw [Volume.read, opened]
  dsimp only
  rw [if_neg within]
  by_cases none_ : n = 0
  · subst none_
    rfl
  have some_ : BitVec.ofNat 64 n ≠ 0#64 := by
    intro zero
    rw [zero] at number
    exact none_ number.symm
  rw [if_neg some_, number, readFrom_stored fits (Nat.zero_le n) fun p _ => stored p, List.nil_append,
    List.length_map, List.length_range, toInt_eq (by omega), Nat.sub_zero]
  simp only [Nat.zero_add]

end

/-- What `fs_write` did in `w`, seen from outside: how many bytes it wrote, that they are
read back, and what it left alone. -/
structure WriteKept (w : World) (id : BitVec 32) (offset : BitVec 64) (buffer : Bytes)
    (count : BitVec 64) (n : Nat) : Prop where
  result : ((Call.write id offset buffer count).perform w).1 = ((n : Int), [])
  atMost : n ≤ count.toNat
  short : n = count.toNat ∨ ∀ b, 1 ≤ b → b ≤ w.currentSuperblock.totalBlocks.toNat →
    BlockMarked (step w (.write id offset buffer count)) b
  readBack : ((Call.read id offset (BitVec.ofNat 64 n)).perform
    (step w (.write id offset buffer count))).1 = ((n : Int), (List.range n).map buffer)
  bytes : ∀ owner, InodeInUse w owner → ∀ k, (storedInode w owner).directBlocks k ≠ 0#32 →
    ∀ j < fsBlockSize, (owner = id → ¬ (offset.toNat ≤ fsBlockSize * k + j ∧
      fsBlockSize * k + j < offset.toNat + n)) →
      ((step w (.write id offset buffer count)).disk ((storedInode w owner).directBlocks k)).bytes j =
        (w.disk ((storedInode w owner).directBlocks k)).bytes j
  records : ∀ other, 1 ≤ other.toNat → other.toNat ≤ w.currentSuperblock.totalInodes.toNat →
    other ≠ id → storedInode (step w (.write id offset buffer count)) other = storedInode w other

/-- Every write within ten blocks to a file in use can be read back. -/
def WritesKept (w : World) : Prop :=
  ∀ id offset buffer count, InodeInUse w id → isFile (storedInode w id) →
    offset.toNat + count.toNat ≤ maxFileSize → ∃ n, WriteKept w id offset buffer count n

theorem writesKept_of_settled {w : World} (settled : Settled w) : WritesKept w := by
  obtain ⟨v, l, live, shows_, c⟩ := settled
  intro id offset buffer count inUse file fits
  have member := (c.inUse_iff shows_).mp inUse
  have valid := c.valid id member
  rw [shows_.storedInode] at file
  obtain ⟨n, atMost, result, short, inode', record, file', size, wrote⟩ :=
    wrote_write c member file fits buffer
  have after : Shows (v.applyAll (v.write id offset buffer count).2) l
      (step w (.write id offset buffer count)) := shows_.step (.write id offset buffer count)
  set v' := v.applyAll (v.write id offset buffer count).2 with v'Eq
  set w' := step w (.write id offset buffer count) with w'Eq
  refine ⟨n, ?_, atMost, ?_, ?_, ?_, ?_⟩
  · rw [shows_.result]
    exact congrArg (·, []) result
  · refine short.imp_right fun full b low high => ?_
    rw [shows_.layout.totalBlocks] at high
    have high : b ≤ 1024 := high
    exact (after.blockMarked_iff high).mpr (Volume.unusedBlock_none full (b - 1) (by omega))
  · rw [after.result]
    refine read_stored valid (by rwa [record]) (by omega) (by rwa [record]) fun p inside => ?_
    rw [record]
    exact wrote.stored p (Nat.zero_le p) inside
  · intro owner inUseOwner k used j inside away
    rw [shows_.storedInode] at used ⊢
    rw [after.disk, shows_.disk]
    refine wrote.frame owner ((c.inUse_iff shows_).mp inUseOwner) k used j inside ?_
    intro p _ high self position
    rw [fsBlockSize] at away
    exact away self (by omega)
  · intro other low high apart
    rw [shows_.layout.totalInodes] at high
    rw [after.storedInode, shows_.storedInode]
    exact wrote.others other ⟨low, high⟩ apart

/-- In every state of every run on inodes in use, what is written to a file is read back,
and nothing else changes. -/
theorem write_read_back {w : World} {buffer : Block} (formattable : Formattable w buffer)
    (inodeJunk blockJunk : Bytes) (calls : List Call)
    (admitted : Admitted step CallInUse (fsInit inodeJunk blockJunk w).2 calls) :
    Always step WritesKept (fsInit inodeJunk blockJunk w).2 calls :=
  (always_of_admitted settled_step (settled_format formattable inodeJunk blockJunk)
    admitted).mono fun _ settled => writesKept_of_settled settled

theorem write_read_back_blank :
    Always step WritesKept (fsInit (fun _ => 0) (fun _ => 0) blankWorld).2
      [.create 1#32 ⟨[0x61#8], by decide⟩ fsInodeTypeFile fun _ => 0] :=
  write_read_back blankWorld_formattable (fun _ => 0) (fun _ => 0) _
    ⟨⟨root_inUse _ _, .inl rfl⟩, trivial⟩

end AstralOS.Fs
