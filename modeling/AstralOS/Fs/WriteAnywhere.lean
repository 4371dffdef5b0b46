import AstralOS.Fs.WriteExtent

/-! Writes at any 64-bit offset: the loops keep 32 bits of the block's index, so an offset counts
modulo 2 ^ 44, and what is written is read back there. -/
namespace AstralOS.Fs
open Foundation AstralOS.Lib

section
variable {v : Volume} {id : BitVec 32} {r inode owner : Inode} {buffer : Bytes} {o offset count done p : Nat}

theorem blockIndex_wrap (offset done : Nat) : blockIndex (offset % 2 ^ 44) done = blockIndex offset done := by
  rw [blockIndex, blockIndex, fsBlockSize]
  omega

theorem blockOffset_wrap (offset done : Nat) : blockOffset (offset % 2 ^ 44) done = blockOffset offset done := by
  rw [blockOffset_eq, blockOffset_eq]
  omega

/-- What the loop can write from `offset` on. -/
def writable (offset count : Nat) : Nat := min count (maxFileSize - offset % 2 ^ 44)

theorem blockIndex_lt_iff (within : offset % 2 ^ 44 + done ≤ maxFileSize) :
    blockIndex offset done < 10 ↔ done < maxFileSize - offset % 2 ^ 44 := by
  rw [maxFileSize, fsBlockSize] at *
  rw [blockIndex, fsBlockSize]
  omega

theorem chunk_writable (within : offset % 2 ^ 44 + done < maxFileSize) :
    chunk (offset % 2 ^ 44) (writable offset count) done = chunk offset count done := by
  have place := blockOffset_eq offset done
  rw [chunk, chunk, blockOffset_wrap, writable, place]
  rw [maxFileSize, fsBlockSize] at *
  omega

/-- One turn of the loop. -/
theorem writeFrom_turn (more : done < count) (index : blockIndex offset done < 10) {n : BlockNum}
    {us : List Update} (found : v.target id inode ⟨blockIndex offset done, index⟩ = some (n, owner, us)) :
    v.writeFrom id buffer offset count inode done =
      let u := (v.applyAll us).fill n buffer offset count done
      let r := ((v.applyAll us).apply u).writeFrom id buffer offset count owner
        (done + chunk offset count done)
      (r.1, r.2.1, us ++ u :: r.2.2) := by
  rw [Volume.writeFrom, dif_pos more, dif_pos index, found]

theorem hasTarget_wrap : HasTarget v inode (offset % 2 ^ 44) done ↔ HasTarget v inode offset done := by
  simp only [HasTarget, blockIndex_wrap]

theorem fill_wrap (within : offset % 2 ^ 44 + done < maxFileSize) (n : BlockNum) :
    v.fill n buffer (offset % 2 ^ 44) (writable offset count) done = v.fill n buffer offset count done := by
  rw [Volume.fill, Volume.fill, blockOffset_wrap, chunk_writable within]

theorem idle_wrap (nothing : ¬ (done < count ∧ HasTarget v inode offset done)) :
    v.writeFrom id buffer (offset % 2 ^ 44) (writable offset count) inode done =
      v.writeFrom id buffer offset count inode done := by
  have nothing' : ¬ (done < writable offset count ∧ HasTarget v inode (offset % 2 ^ 44) done) := by
    rintro ⟨more, target⟩
    exact nothing ⟨lt_of_lt_of_le more (Nat.min_le_left _ _), hasTarget_wrap.mp target⟩
  rw [writeFrom_idle nothing, writeFrom_idle nothing']

/-- The loop does the same from the offset it amounts to, for the bytes that fit. -/
theorem writeFrom_wrap (v : Volume) (id : BitVec 32) (buffer : Bytes) (offset count : Nat) (inode : Inode)
    (done : Nat) (within : offset % 2 ^ 44 + done ≤ maxFileSize) :
    v.writeFrom id buffer (offset % 2 ^ 44) (writable offset count) inode done =
      v.writeFrom id buffer offset count inode done := by
  induction v, inode, done using Volume.writeFrom.induct id buffer offset count with
  | case1 v inode done more index full =>
      refine idle_wrap fun target => ?_
      obtain ⟨index, found⟩ := (hasTarget_iff id).mp target.2
      exact found full
  | case2 v inode done more index n owner us found u ih =>
      have inside := (blockIndex_lt_iff within).mp index
      have room : offset % 2 ^ 44 + done < maxFileSize := by omega
      have more' : done < writable offset count := lt_min more inside
      have index' : blockIndex (offset % 2 ^ 44) done < 10 := by rwa [blockIndex_wrap]
      have same : (⟨blockIndex (offset % 2 ^ 44) done, index'⟩ : Fin 10) = ⟨blockIndex offset done, index⟩ :=
        Fin.ext (blockIndex_wrap offset done)
      have found' : v.target id inode ⟨blockIndex (offset % 2 ^ 44) done, index'⟩ = some (n, owner, us) := by
        rwa [same]
      have last := chunk_le (offset % 2 ^ 44) more'
      rw [chunk_writable room] at last
      have capacity : writable offset count ≤ maxFileSize - offset % 2 ^ 44 := Nat.min_le_right _ _
      rw [writeFrom_turn more index found, writeFrom_turn more' index' found', fill_wrap room,
        chunk_writable room]
      dsimp only
      rw [ih (by omega)]
  | case3 v inode done more beyond => exact idle_wrap fun target => beyond target.2.1
  | case4 v inode done finished => exact idle_wrap fun target => finished target.1

/-! Reading back. -/

theorem byteOf_stored {x : Byte} (stored : Stored v r (offset % 2 ^ 44 + p) x) :
    r.place offset p ≠ none ∧ v.byteOf r offset p = x := by
  obtain ⟨k, index, used, byte⟩ := stored
  have small := k.isLt
  have number : blockIndex offset p = k := by
    rw [blockIndex, fsBlockSize]
    omega
  have inside : blockOffset offset p = (offset % 2 ^ 44 + p) % 4096 := by
    rw [blockOffset_eq]
    omega
  have place := place_some number used
  rw [Volume.byteOf, place]
  refine ⟨Option.some_ne_none _, ?_⟩
  dsimp only
  rw [Volume.byteAt, inside]
  exact byte

/-- `fs_read` of bytes that are stored, at any offset. -/
theorem read_stored_anywhere (valid : ValidId id) (file : isFile (v.inode id)) {offset : BitVec 64} {n : Nat}
    (small : n ≤ maxFileSize) (size : offset + BitVec.ofNat 64 n ≤ (v.inode id).size)
    (stored : ∀ p < n, Stored v (v.inode id) (offset.toNat % 2 ^ 44 + p) (buffer p)) :
    v.read id offset (BitVec.ofNat 64 n) = ((n : Int), (List.range n).map buffer) := by
  obtain ⟨last, reaches, read⟩ := @read_clamped v id offset (BitVec.ofNat 64 n) valid file
  have clamp : clamped (v.inode id).size offset (BitVec.ofNat 64 n) = BitVec.ofNat 64 n :=
    if_neg (BitVec.not_lt.mpr size)
  have number : (BitVec.ofNat 64 n).toNat = n := by
    rw [maxFileSize, fsBlockSize] at small
    rw [BitVec.toNat_ofNat, Nat.mod_eq_of_lt (by omega)]
  rw [clamp, number] at reaches
  obtain rfl : last = n := by
    refine le_antisymm (reaches.high (Nat.zero_le n)) (Nat.le_of_not_lt fun short => ?_)
    exact (byteOf_stored (stored last short)).1 (reaches.stop short)
  rw [read, toInt_eq small]
  refine congrArg (Prod.mk _) (List.map_congr_left fun p below => ?_)
  exact (byteOf_stored (stored p (List.mem_range.mp below))).2

end

section
variable {v : Volume} {live : Set (BitVec 32)} {id : BitVec 32}

/-- What a write that writes something leaves: the bytes, and a size that covers them. -/
theorem write_stored (c : Consistent ⟨live, ∅, ∅⟩ v) (member : id ∈ live) (file : isFile (v.inode id))
    (offset : BitVec 64) (buffer : Bytes) (count : BitVec 64) {m : Nat} (some_ : 0 < m)
    (result : (v.write id offset buffer count).1 = m) :
    m ≤ maxFileSize ∧ isFile ((v.step (.write id offset buffer count)).inode id) ∧
      offset + BitVec.ofNat 64 m ≤ ((v.step (.write id offset buffer count)).inode id).size ∧
      ∀ p < m, Stored (v.step (.write id offset buffer count))
        ((v.step (.write id offset buffer count)).inode id) (offset.toNat % 2 ^ 44 + p) (buffer p) := by
  have valid := c.valid id member
  obtain ⟨track, record⟩ :=
    track_writeFrom buffer offset.toNat count.toNat (v.inode id) 0 c member file rfl
  obtain ⟨_, reaches⟩ := writeFrom_reaches buffer offset.toNat count.toNat (v.inode id) 0 c member file rfl
  have step_ : v.step (.write id offset buffer count) = v.applyAll (v.write id offset buffer count).2 := rfl
  rw [step_, Volume.write, Volume.openAs_some valid file]
  rw [Volume.write, Volume.openAs_some valid file] at result
  dsimp only at result reaches ⊢
  rw [toInt_eq reaches.le_maxFileSize] at result
  obtain rfl := Int.ofNat_inj.mp result
  have inside := reaches.inside some_.ne'
  have fits : offset.toNat % 2 ^ 44 + writable offset.toNat count.toNat ≤ maxFileSize := by
    rw [writable]
    omega
  obtain ⟨_, _, _, wrote⟩ :=
    wrote_writeFrom buffer fits (v.inode id) 0 (Nat.zero_le _) c member file rfl
  rw [writeFrom_wrap v id buffer offset.toNat count.toNat (v.inode id) 0 (by omega)] at wrote
  set r := v.writeFrom id buffer offset.toNat count.toNat (v.inode id) 0
  have type : isFile r.1 := (isFile_congr wrote.type).mpr file
  refine ⟨reaches.le_maxFileSize, ?_⟩
  rw [Volume.applyAll_append, Volume.extend]
  by_cases grown : r.1.size < offset + BitVec.ofNat 64 r.2.1
  · have wrote := wrote.resize c track.final member record (offset + BitVec.ofNat 64 r.2.1)
    rw [if_pos grown, Volume.applyAll_cons, Volume.applyAll_nil, Volume.inode_inode_same valid]
    exact ⟨type, BitVec.le_refl _, fun p below => wrote.stored p (Nat.zero_le p) below⟩
  · rw [if_neg grown, Volume.applyAll_nil, record]
    exact ⟨type, BitVec.not_lt.mp grown, fun p below => wrote.stored p (Nat.zero_le p) below⟩

/-- A write that writes something can be read back. -/
theorem write_then_read (c : Consistent ⟨live, ∅, ∅⟩ v) (member : id ∈ live) (file : isFile (v.inode id))
    (offset : BitVec 64) (buffer : Bytes) (count : BitVec 64) {m : Nat} (some_ : 0 < m)
    (result : (v.write id offset buffer count).1 = m) :
    (v.step (.write id offset buffer count)).read id offset (BitVec.ofNat 64 m) =
      ((m : Int), (List.range m).map buffer) := by
  obtain ⟨small, file', size, stored⟩ := write_stored c member file offset buffer count some_ result
  exact read_stored_anywhere (c.valid id member) file' small size stored

end
end AstralOS.Fs
