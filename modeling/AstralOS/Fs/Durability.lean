import AstralOS.Foundation.Known
import AstralOS.Fs.CutCalls

/-! What was written to the files stays on the volume: every byte that a write was reported to
have written is read until it is written again or its file is removed, through later calls,
mounts, and cuts of power after any block write. -/
namespace AstralOS.Fs
open Foundation AstralOS.Lib

/-- A byte of a file, by the number of its inode and its position. -/
abbrev FileByte := BitVec 32 × Nat

/-- The files that can be reached from the root. -/
def files (w : World) : Set FileByte :=
  {x | FromRoot (imageVolume w.disk) x.1 ∧ isFile (storedInode w x.1)}

/-- Where in the file an access at this offset starts: the loops keep 32 bits of the block's index. -/
def position (offset : BitVec 64) : Nat := offset.toNat % 2 ^ 44

/-- The bytes that a write with this result stored. -/
def bytesWritten (id : BitVec 32) (offset : BitVec 64) (buffer : Bytes) (result : Int) : Known FileByte Byte :=
  fun x =>
    if x.1 = id ∧ position offset ≤ x.2 ∧ (x.2 : Int) < position offset + result then
      some (buffer (x.2 - position offset))
    else none

def Call.stores (result : Int) : Call → Known FileByte Byte
  | .write id offset buffer _ => bytesWritten id offset buffer result
  | _ => Known.nothing

/-- A run that may lose power after any write of any call, and what its user knows of the files
from the calls that returned. A file that is removed is no longer known, and neither are the
bytes that a call was writing when power was lost. -/
inductive Recording : World → Known FileByte Byte → Prop
  | format {w : World} {buffer : Block} (inodeJunk blockJunk : Bytes) : Formattable w buffer →
      Recording (fsInit inodeJunk blockJunk w).2 Known.nothing
  | call {w : World} {known : Known FileByte Byte} (c : Call) : Recording w known → CallFromRoot w c →
      Recording (step w c) ((known.only (files w)).learn (c.stores (c.perform w).1.1))
  | reboot {w w' : World} {known : Known FileByte Byte} (c : Call) (k : Nat) (inodeJunk blockJunk : Bytes) :
      Recording w known → CallFromRoot w c → Healthy w' → w'.disk = cutImage w c k →
      Recording (fsInit inodeJunk blockJunk w').2
        (known.only {x ∈ files w | c.stores (c.perform w).1.1 x = none})

/-- A read returns so many bytes as it says, the known ones among them right, and all of a range
that is known. -/
structure ReadsKnown (known : Known FileByte Byte) (id : BitVec 32) (offset count : BitVec 64)
    (result : Int × List Byte) : Prop where
  length : (result.2.length : Int) = result.1
  bytes : ∀ i < result.2.length, ∀ b, known (id, position offset + i) = some b → result.2[i]? = some b
  whole : ∀ buffer : Bytes, 0 < count.toNat →
    (∀ i < count.toNat, known (id, offset.toNat + i) = some (buffer i)) →
      result = ((count.toNat : Int), (List.range count.toNat).map buffer)

/-- Byte `x.2` of inode `x.1` is `b`, and lies within its size. -/
def Volume.Has (v : Volume) (x : FileByte) (b : Byte) : Prop :=
  Stored v (v.inode x.1) x.2 b ∧ x.2 < (v.inode x.1).size.toNat

section
variable {v v' : Volume} {l : List Ptr} {w : World} {b : Ledger} {live : Set (BitVec 32)} {blocks : Set BlockNum}
  {inodes : Set (BitVec 32)} {id d : BitVec 32} {us : List Update} {x : FileByte} {byte : Byte} {call : Call}
  {buffer : Bytes} {offset count done p : Nat}

theorem Always.append {P : Volume → Prop} {vs : List Update} (first : Always Volume.apply P v us)
    (second : Always Volume.apply P (v.applyAll us) vs) : Always Volume.apply P v (us ++ vs) := by
  induction us generalizing v with
  | nil => exact second
  | cons u rest ih => exact ⟨first.1, ih first.2 second⟩

/-! The bytes of a write. -/

theorem bytesWritten_some {offset : BitVec 64} {result : Int}
    (found : bytesWritten id offset buffer result x = some byte) :
    x.1 = id ∧ position offset ≤ x.2 ∧ (x.2 : Int) < position offset + result ∧
      buffer (x.2 - position offset) = byte := by
  unfold bytesWritten at found
  split at found
  · rename_i inside
    exact ⟨inside.1, inside.2.1, inside.2.2, Option.some.inj found⟩
  · cases found

theorem bytesWritten_none {offset : BitVec 64} {result : Int}
    (away : bytesWritten id offset buffer result x = none) (self : x.1 = id) :
    x.2 < position offset ∨ position offset + result ≤ x.2 := by
  unfold bytesWritten at away
  split at away
  · cases away
  · rename_i outside
    by_contra inside
    exact outside ⟨self, by omega, by omega⟩

/-! What keeps a byte. -/

theorem Untouched.has (untouched : Untouched v v' x.1) (has : v.Has x byte) : v'.Has x byte := by
  obtain ⟨⟨k, index, used, stored⟩, inside⟩ := has
  unfold Volume.Has
  rw [untouched.record]
  refine ⟨⟨k, index, used, ?_⟩, inside⟩
  rw [untouched.disk k used]
  exact stored

/-- The record grows: it keeps its blocks, and its size does not shrink. -/
theorem Volume.Has.grown (has : v.Has (id, p) byte) (c : Consistent b v) (member : id ∈ b.live) {r : Inode}
    (kept : ∀ k, (v.inode id).directBlocks k ≠ 0#32 → r.directBlocks k = (v.inode id).directBlocks k)
    (size : (v.inode id).size ≤ r.size) : (v.apply (.inode id r)).Has (id, p) byte := by
  have valid := c.valid _ member
  obtain ⟨⟨k, index, used, stored⟩, inside⟩ := has
  have low := (c.range _ member k used).1
  have record : (v.apply (.inode id r)).inode id = r := Volume.inode_inode_same valid
  unfold Volume.Has
  rw [record]
  refine ⟨⟨k, index, ?_, ?_⟩, lt_of_lt_of_le inside size⟩
  · rwa [kept k used]
  · rw [kept k used, Volume.disk_inode valid (by omega)]
    exact stored

/-! Writing. -/

theorem Volume.Has.targeted (has : v.Has (id, p) byte) (c : Consistent ⟨live, blocks, inodes⟩ v)
    (member : id ∈ live) (file : isFile (v.inode id)) {k : Fin 10} {n : BlockNum} {owner : Inode}
    (found : v.target id (v.inode id) k = some (n, owner, us)) (size : owner.size = (v.inode id).size) :
    (v.applyAll us).Has (id, p) byte := by
  obtain ⟨disk, _, kept, _, _⟩ := target_frame c (c.valid id member) found
  obtain ⟨_, record, _⟩ := track_target c member file found
  obtain ⟨⟨i, index, used, stored⟩, inside⟩ := has
  have low := (c.range _ member i used).1
  unfold Volume.Has
  rw [record, size]
  refine ⟨⟨i, index, ?_, ?_⟩, inside⟩
  · rwa [kept i used]
  · rw [kept i used, disk _ (by omega)]
    exact stored

theorem target_spares (has : v.Has (id, p) byte) (c : Consistent ⟨live, blocks, inodes⟩ v)
    (member : id ∈ live) (file : isFile (v.inode id)) {k : Fin 10} {n : BlockNum} {owner : Inode}
    (found : v.target id (v.inode id) k = some (n, owner, us)) :
    (v.inode id).size ≤ owner.size ∧ Always Volume.apply (fun v => v.Has (id, p) byte) v us := by
  rcases Volume.target_cases found with ⟨_, i, free, rfl, rfl, rfl⟩ | ⟨_, rfl, rfl, rfl⟩
  · have untouched : Untouched v (v.apply (.blockBit i true)) id := by
      refine ⟨Volume.inode_blockBit (c.valid _ member), fun j used => ?_⟩
      have low := (c.range _ member j used).1
      exact Volume.disk_blockBit (by omega)
    have linked := has.targeted c member file found rfl
    exact ⟨BitVec.le_refl _, has, untouched.has has, linked⟩
  · exact ⟨BitVec.le_refl _, has⟩

theorem Volume.Has.written (has : v.Has (id, p) byte) (member : id ∈ live) {inode' : Inode}
    {last : Nat} (wrote : Wrote v v' live id (v.inode id) inode' buffer offset done last)
    (record : v'.inode id = inode') (size : (v.inode id).size ≤ inode'.size)
    (away : p < offset + done ∨ offset + last ≤ p) : v'.Has (id, p) byte := by
  obtain ⟨⟨i, index, used, stored⟩, inside⟩ := has
  dsimp only at index used stored inside
  have kept := wrote.frame id member i used (p % 4096) (Nat.mod_lt _ (by decide)) (by
    intro q low high _ position
    omega)
  rw [stored] at kept
  have block := wrote.blocks i used
  unfold Volume.Has
  rw [record]
  refine ⟨⟨i, index, ?_, ?_⟩, lt_of_lt_of_le inside size⟩
  · rwa [block]
  · rwa [block]

/-- At no point of the loop is a byte lost that the loop does not write. -/
theorem writeFrom_spares (buffer : Bytes) (fits : offset + count ≤ maxFileSize) (inode : Inode) (done : Nat)
    (c : Consistent ⟨live, blocks, inodes⟩ v) (member : id ∈ live) (file : isFile (v.inode id))
    (cached : v.inode id = inode) (has : v.Has (id, p) byte)
    (away : p < offset + done ∨ offset + (v.writeFrom id buffer offset count inode done).2.1 ≤ p) :
    Always Volume.apply (fun v => v.Has (id, p) byte) v (v.writeFrom id buffer offset count inode done).2.2 := by
  induction v, inode, done using Volume.writeFrom.induct id buffer offset count with
  | case1 v inode done more index full =>
      rw [Volume.writeFrom, dif_pos more, dif_pos index, full]
      exact has
  | case2 v inode done more index n owner us found u ih =>
      subst cached
      obtain ⟨_, filled, ownerFile, record⟩ := track_iteration c member file found
        (((v.applyAll us).disk n).patch (blockOffset offset done) (chunk offset count done) (buffer.drop done))
      have wrote : Wrote v ((v.applyAll us).apply u) live id (v.inode id) owner buffer offset done
        (done + chunk offset count done) := wrote_chunk c member file (by omega) index found
      obtain ⟨size, targeted⟩ := target_spares has c member file found
      rw [writeFrom_turn more index found] at away ⊢
      dsimp only at away ⊢
      have further : done + chunk offset count done ≤ (((v.applyAll us).apply
          ((v.applyAll us).fill n buffer offset count done)).writeFrom id buffer offset count owner
            (done + chunk offset count done)).2.1 := (writeFrom_size _ id buffer offset count owner _).2
      have now : ((v.applyAll us).apply u).Has (id, p) byte := has.written member wrote record size (by omega)
      exact Always.append targeted ⟨targeted.last, ih filled ownerFile record now
        (away.imp_left fun before => by omega)⟩
  | case3 v inode done more beyond =>
      rw [Volume.writeFrom, dif_pos more, dif_neg beyond]
      exact has
  | case4 v inode done finished =>
      rw [Volume.writeFrom, dif_neg finished]
      exact has

theorem extend_spares (has : v.Has (id, p) byte) (c : Consistent ⟨live, blocks, inodes⟩ v) (member : id ∈ live)
    (size : BitVec 64) :
    Always Volume.apply (fun v => v.Has (id, p) byte) v (Volume.extend id (v.inode id) size) := by
  unfold Volume.extend
  split
  · rename_i larger
    exact ⟨has, has.grown c member (fun _ _ => rfl) (BitVec.le_of_lt larger)⟩
  · exact has

/-- A byte that a write does not store is there after every block it writes. -/
theorem write_spares (has : v.Has (id, p) byte) (c : Consistent ⟨live, blocks, inodes⟩ v) (member : id ∈ live)
    (offset : BitVec 64) (buffer : Bytes) (count : BitVec 64)
    (away : bytesWritten id offset buffer (v.write id offset buffer count).1 (id, p) = none) :
    Always Volume.apply (fun v => v.Has (id, p) byte) v (v.write id offset buffer count).2 := by
  have valid := c.valid id member
  by_cases file : isFile (v.inode id)
  · rw [Volume.write, Volume.openAs_some valid file] at away ⊢
    dsimp only at away ⊢
    obtain ⟨track, record⟩ := track_writeFrom buffer offset.toNat count.toNat (v.inode id) 0 c member file rfl
    obtain ⟨_, reaches⟩ := writeFrom_reaches buffer offset.toNat count.toNat (v.inode id) 0 c member file rfl
    rw [toInt_eq reaches.le_maxFileSize] at away
    have outside : p < offset.toNat % 2 ^ 44 + 0 ∨ offset.toNat % 2 ^ 44 +
        (v.writeFrom id buffer offset.toNat count.toNat (v.inode id) 0).2.1 ≤ p := by
      have beyond := bytesWritten_none away rfl
      rw [position] at beyond
      omega
    have written : Always Volume.apply (fun v => v.Has (id, p) byte) v
        (v.writeFrom id buffer offset.toNat count.toNat (v.inode id) 0).2.2 := by
      by_cases within : offset.toNat % 2 ^ 44 ≤ maxFileSize
      · have fits : offset.toNat % 2 ^ 44 + writable offset.toNat count.toNat ≤ maxFileSize := by
          rw [writable]
          omega
        rw [← writeFrom_wrap v id buffer offset.toNat count.toNat (v.inode id) 0 within] at outside ⊢
        exact writeFrom_spares buffer fits (v.inode id) 0 c member file rfl has outside
      · rw [writeFrom_idle ?_]
        · exact has
        · rintro ⟨_, index, _⟩
          rw [blockIndex, fsBlockSize] at index
          rw [maxFileSize, fsBlockSize] at within
          omega
    refine Always.append written ?_
    rw [← record]
    exact extend_spares written.last track.final member _
  · rw [Volume.write, Volume.openAs_none file]
    exact has

/-- After every block write of a call, a file that was there has the bytes the call does not store. -/
theorem perform_spares (has : v.Has x byte) (c : Consistent ⟨live, blocks, inodes⟩ v) (memberX : x.1 ∈ live)
    (file : isFile (v.inode x.1)) (call : Call) (member : call.inode ∈ live) (typed : call.Typed)
    (away : call.stores (v.perform call).1.1 x = none) (k : Nat) :
    (v.applyAll ((v.perform call).2.take k)).Has x byte := by
  by_cases other : x.1 ≠ call.inode
  · exact (perform_untouched c call member typed memberX other k).has has
  obtain ⟨id, p⟩ := x
  obtain rfl : id = call.inode := not_not.mp other
  have noDir : ¬isDir (v.inode call.inode) := c.not_dir memberX file
  have refused : (v.perform call).2 = [] → (v.applyAll ((v.perform call).2.take k)).Has (call.inode, p) byte := by
    intro nothing
    rw [nothing, List.take_nil]
    exact has
  -- a call on a directory is refused
  cases call with
  | create d name type padding =>
      rcases create_cases (c.valid d member) name type padding with ⟨_, nothing⟩ | ⟨_, ⟨_, dir, _, _⟩, _⟩
      · exact refused (congrArg Prod.snd nothing)
      · exact absurd dir noDir
  | delete d name =>
      have missing : v.delete d name = (-1, []) := delete_missing fun isDirectory => absurd isDirectory noDir
      exact refused (congrArg Prod.snd missing)
  | lookup d name => exact refused rfl
  | read id offset count => exact refused rfl
  | write id offset buffer count => exact Always.take (write_spares has c member offset buffer count away) k

/-! The bytes a write stores, and their reading. -/

theorem Wrote.has {inode' : Inode} {last : Nat} (wrote : Wrote v v' live id (v.inode id) inode' buffer offset 0 last)
    (record : v'.inode id = inode') (size : offset + last ≤ inode'.size.toNat) {p : Nat} (low : offset ≤ p)
    (high : p < offset + last) : v'.Has (id, p) (buffer (p - offset)) := by
  have stored := wrote.stored (p - offset) (Nat.zero_le _) (by omega)
  rw [Nat.add_sub_cancel' low] at stored
  unfold Volume.Has
  rw [record]
  exact ⟨stored, by dsimp only; omega⟩

theorem write_has (c : Consistent ⟨live, blocks, inodes⟩ v) (member : id ∈ live) (offset : BitVec 64)
    (buffer : Bytes) (count : BitVec 64)
    (written : bytesWritten id offset buffer (v.write id offset buffer count).1 x = some byte) :
    (v.step (.write id offset buffer count)).Has x byte := by
  have valid := c.valid id member
  obtain ⟨self, low, high, rfl⟩ := bytesWritten_some written
  obtain ⟨y, p⟩ := x
  obtain rfl : y = id := self
  dsimp only at low high ⊢
  by_cases file : isFile (v.inode y)
  · obtain ⟨track, record⟩ := track_writeFrom buffer offset.toNat count.toNat (v.inode y) 0 c member file rfl
    obtain ⟨_, reaches⟩ := writeFrom_reaches buffer offset.toNat count.toNat (v.inode y) 0 c member file rfl
    have step_ : v.step (.write y offset buffer count) = v.applyAll (v.write y offset buffer count).2 := rfl
    rw [step_, Volume.write, Volume.openAs_some valid file]
    rw [Volume.write, Volume.openAs_some valid file] at high
    dsimp only at high reaches ⊢
    rw [toInt_eq reaches.le_maxFileSize] at high
    have inside := reaches.inside (by omega)
    rw [← position] at inside
    have fits : position offset + writable offset.toNat count.toNat ≤ maxFileSize := by
      rw [writable, ← position]
      omega
    obtain ⟨_, _, _, wrote⟩ := wrote_writeFrom buffer fits (v.inode y) 0 (Nat.zero_le _) c member file rfl
    rw [position, writeFrom_wrap v y buffer offset.toNat count.toNat (v.inode y) 0 (by rw [← position]; omega),
      ← position] at wrote
    set r := v.writeFrom y buffer offset.toNat count.toNat (v.inode y) 0
    -- the end of the range does not wrap around
    have end_ : position offset + r.2.1 ≤ (offset + BitVec.ofNat 64 r.2.1).toNat := by
      have small := offset.isLt
      rw [position, maxFileSize, fsBlockSize] at *
      rw [BitVec.toNat_add, BitVec.toNat_ofNat]
      omega
    rw [Volume.applyAll_append, Volume.extend]
    split
    · exact (wrote.resize c track.final member record _).has (Volume.inode_inode_same valid) end_ low (by omega)
    · rename_i small
      have size : (offset + BitVec.ofNat 64 r.2.1).toNat ≤ r.1.size.toNat := BitVec.not_lt.mp small
      exact wrote.has record (end_.trans size) low (by omega)
  · rw [Volume.write, Volume.openAs_none file] at high
    dsimp only at high
    omega

theorem read_known (valid : ValidId id) (file : isFile (v.inode id)) {known : Known FileByte Byte}
    (right : ∀ p b, known (id, p) = some b → v.Has (id, p) b) (offset count : BitVec 64) :
    ReadsKnown known id offset count (v.read id offset count) := by
  obtain ⟨last, reaches, read⟩ := @read_clamped v id offset count valid file
  refine ⟨?_, fun i inside b found => ?_, fun buffer some_ all => ?_⟩
  · rw [read, toInt_eq reaches.le_maxFileSize, List.length_map, List.length_range]
  · rw [read, List.length_map, List.length_range] at inside
    have stored := (right _ b found).1
    rw [read, List.getElem?_map, List.getElem?_range inside, Option.map_some, (byteOf_stored stored).2]
  · obtain ⟨⟨k, index, _⟩, size⟩ := right _ _ (all (count.toNat - 1) (by omega))
    dsimp only at index size
    have fits : offset.toNat + count.toNat ≤ maxFileSize := by
      have few := k.isLt
      rw [maxFileSize, fsBlockSize]
      omega
    have whole := read_stored valid file fits (by omega) fun i inside => (right _ _ (all i inside)).1
    rwa [BitVec.ofNat_toNat, BitVec.setWidth_eq] at whole

/-! The run. -/

/-- The volume holds what is known of the files that can be reached. -/
theorem recording_right {known : Known FileByte Byte} (recording : Recording w known) :
    ∃ v l b, Shows v l w ∧ Consistent b v ∧ known.Right {x | FromRoot v x.1} v.Has := by
  have counted : ∀ {w : World} {v : Volume} {l : List Ptr} {b : Ledger}, Shows v l w → Consistent b v →
      files w ⊆ {x | FromRoot v x.1} ∧ ∀ x ∈ files w, x.1 ∈ b.live ∧ isFile (v.inode x.1) := by
    intro w v l b shows_ c
    have image : imageVolume w.disk = v := by rw [shows_.disk, c.synced.image_eq]
    unfold files
    rw [image]
    refine ⟨fun x member => member.1, fun x member => ⟨c.fromRoot member.1, ?_⟩⟩
    rw [← shows_.storedInode]
    exact member.2
  induction recording with
  | format inodeJunk blockJunk formattable =>
      obtain ⟨v, l, shows_, fresh, _⟩ := fsInit_formats formattable inodeJunk blockJunk
      exact ⟨v, l, _, shows_, fresh.consistent, Known.right_nothing⟩
  | call c _ allowed ih =>
      obtain ⟨v, l, ⟨live, blocks, inodes⟩, shows_, consistent, right⟩ := ih
      obtain ⟨member, typed⟩ := shows_.allowed consistent allowed
      obtain ⟨live', track⟩ := track_perform consistent c member typed
      obtain ⟨within, alive⟩ := counted shows_ consistent
      rw [shows_.result]
      refine ⟨v.step c, l, _, shows_.step c, track.final, right.learn within ?_ fun x inside away b has => ?_⟩
      · intro x _ b written
        cases c with
        | write id offset buffer count => exact write_has consistent member offset buffer count written
        | _ => cases written
      · obtain ⟨memberX, file⟩ := alive x inside
        have kept := perform_spares has consistent memberX file c member typed away (v.perform c).2.length
        rwa [List.take_length] at kept
  | reboot c k inodeJunk blockJunk _ allowed healthy image ih =>
      obtain ⟨v, l, ⟨live, blocks, inodes⟩, shows_, consistent, right⟩ := ih
      obtain ⟨member, typed⟩ := shows_.allowed consistent allowed
      obtain ⟨within, alive⟩ := counted shows_ consistent
      obtain ⟨l', b', mounted, cut⟩ := shows_.reboot consistent allowed k healthy image inodeJunk blockJunk
      refine ⟨_, l', b', mounted, cut, right.only (fun x inside => within inside.1) ?_⟩
      rintro x ⟨inside, away⟩ b has
      obtain ⟨memberX, file⟩ := alive x inside
      rw [shows_.result] at away
      exact perform_spares has consistent memberX file c member typed away k

end

/-- Every run with losses of power has its record. -/
theorem powered_iff_recording {w : World} : Powered w ↔ ∃ known, Recording w known := by
  constructor
  · intro powered
    induction powered with
    | format inodeJunk blockJunk formattable => exact ⟨_, .format inodeJunk blockJunk formattable⟩
    | call c _ allowed ih =>
        obtain ⟨_, recording⟩ := ih
        exact ⟨_, recording.call c allowed⟩
    | reboot c k inodeJunk blockJunk _ allowed healthy image ih =>
        obtain ⟨_, recording⟩ := ih
        exact ⟨_, recording.reboot c k inodeJunk blockJunk allowed healthy image⟩
  · rintro ⟨known, recording⟩
    induction recording with
    | format inodeJunk blockJunk formattable => exact .format inodeJunk blockJunk formattable
    | call c _ allowed ih => exact .call c ih allowed
    | reboot c k inodeJunk blockJunk _ allowed healthy image ih =>
        exact .reboot c k inodeJunk blockJunk ih allowed healthy image

/-- Whatever is done to the volume and whenever power is lost, a read of a file that can be
reached returns what is known of it. -/
theorem written_bytes_survive {w : World} {known : Known FileByte Byte} (recording : Recording w known)
    {id : BitVec 32} (reached : FromRoot (imageVolume w.disk) id) (file : isFile (storedInode w id))
    (offset count : BitVec 64) : ReadsKnown known id offset count (fsRead id offset count w).1 := by
  obtain ⟨v, l, b, shows_, c, right⟩ := recording_right recording
  rw [shows_.disk, c.synced.image_eq] at reached
  rw [shows_.storedInode] at file
  have returned : (fsRead id offset count w).1 = v.read id offset count :=
    (does_fsRead id offset count w shows_).1
  rw [returned]
  exact read_known (c.valid id (c.fromRoot reached)) file (fun p b found => right (id, p) reached b found) offset count

theorem OneFile.fromRoot {v : Volume} {name : CString} {blocks : Nat} {r : Inode} (one : OneFile v name blocks r) :
    FromRoot v 2#32 := by
  refine .entry (k := 0) (j := 0) .root ⟨one.dir, ?_, by decide, ?_, by decide⟩
  · rw [one.first]
    decide
  · rw [one.first, one.number]

/-- A byte is written to a new file. -/
def sevenWorld : World := step (step (fsInit (fun _ => 0) (fun _ => 0) blankWorld).2 (newFile nameA)) writeSeven

theorem sevenWorld_recording : ∃ known v l b, Recording sevenWorld known ∧ known (2#32, 0) = some 7#8 ∧
    Shows v l sevenWorld ∧ Consistent b v ∧ FromRoot v 2#32 ∧ isFile (v.inode 2#32) := by
  obtain ⟨v, l, live, shows_, c, one⟩ := one_file (fun _ => 0) fun _ => 0
  have reached := one.fromRoot
  have member := c.fromRoot reached
  have file : isFile (v.inode 2#32) := by
    rw [one.record]
    decide
  obtain ⟨after, _⟩ := oneFile_write one (show (0#64).toNat < 4096 by decide) fun _ => 7#8
  have record : (v.step writeSeven).inode 2#32 = _ := after.record
  have c2 := (track_write c member 0#64 (fun _ => 7#8) 1#64).final
  -- the write finds a block, so it writes its byte
  have result : (v.write 2#32 0#64 (fun _ => 7#8) 1#64).1 = 1 := by
    have fits : (0#64).toNat + (1#64).toNat ≤ maxFileSize := by decide
    obtain ⟨n, _, written, stopped, _⟩ := wrote_write c member file fits (fun _ => 7#8)
    rcases stopped with all | full
    · rw [written, all]
      rfl
    · have set := Volume.unusedBlock_none full 9 (by decide)
      have clear := after.blocks 9 (by decide)
      exact absurd (clear.symm.trans set) (by decide)
  have allowed : CallFromRoot (step (fsInit (fun _ => 0) (fun _ => 0) blankWorld).2 (newFile nameA)) writeSeven := by
    rw [CallFromRoot, shows_.disk, c.synced.image_eq]
    exact ⟨reached, trivial⟩
  refine ⟨_, v.step writeSeven, l, _, .call writeSeven (.call (newFile nameA)
    (.format (fun _ => 0) (fun _ => 0) blankWorld_formattable) ⟨.root, .inl rfl⟩) allowed, ?_,
    shows_.step writeSeven, c2, after.fromRoot, ?_⟩
  · refine Known.learn_eq_some.mpr (.inl ?_)
    rw [shows_.result]
    change bytesWritten 2#32 0#64 (fun _ => 7#8) (v.write 2#32 0#64 (fun _ => 7#8) 1#64).1 (2#32, 0) = some 7#8
    rw [result]
    decide
  · rw [record]
    decide

theorem powerCycle_disk (w : World) (c : Call) : (powerCycle w).disk = cutImage w c 0 ∧ cutImage w c 0 = w.disk := by
  rw [cutImage, List.take_zero]
  exact ⟨rfl, rfl⟩

/-- It is read after a loss of power. -/
theorem written_bytes_survive_reboot :
    (fsRead 2#32 0#64 1#64 (fsInit (fun _ => 0) (fun _ => 0) (powerCycle sevenWorld)).2).1 = (1, [7#8]) := by
  obtain ⟨known, v, l, b, recording, stored, shows_, c, reached, file⟩ := sevenWorld_recording
  have healthy := shows_.healthy.powerCycle
  obtain ⟨cut, same⟩ := powerCycle_disk sevenWorld (.lookup 1#32 nameA)
  have image : (powerCycle sevenWorld).disk = v.disk := (cut.trans same).trans shows_.disk
  have layout := c.synced.layout
  rw [← image] at layout
  obtain ⟨l', mounted⟩ := fsInit_mounts healthy layout (fun _ => 0) fun _ => 0
  rw [image, c.synced.inodes, c.synced.blocks] at mounted
  have rebooted := recording.reboot (.lookup 1#32 nameA) 0 (fun _ => 0) (fun _ => 0) ⟨.root, trivial⟩ healthy cut
  refine (written_bytes_survive rebooted ?_ ?_ 0#64 1#64).whole (fun _ => 7#8) (by decide) ?_
  · rw [mounted.disk]
    exact c.synced.image_eq ▸ reached
  · rw [mounted.storedInode]
    exact file
  · intro i inside
    obtain rfl : i = 0 := Nat.lt_one_iff.mp inside
    refine Known.only_eq_some.mpr ⟨⟨⟨?_, ?_⟩, rfl⟩, stored⟩
    · rw [shows_.disk]
      exact c.synced.image_eq ▸ reached
    · rw [shows_.storedInode]
      exact file

end AstralOS.Fs
