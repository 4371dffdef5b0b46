import AstralOS.Fs.ReadExtent
import AstralOS.Fs.Records

/-! Writes that write nothing: the size is stored whenever the range would end behind it,
also when the loop found no block. -/
namespace AstralOS.Fs
open Foundation AstralOS.Lib

/-- What a write that writes nothing should leave of a file and the volume. -/
structure FileKept (w w' : World) (id : BitVec 32) : Prop where
  size : (storedInode w' id).size = (storedInode w id).size
  directBlocks : (storedInode w' id).directBlocks = (storedInode w id).directBlocks
  inodes : ∀ x, InodeInUse w' x ↔ InodeInUse w x
  blocks : ∀ n ≤ w.currentSuperblock.totalBlocks.toNat, BlockMarked w' n ↔ BlockMarked w n
  data : ∀ n : BlockNum, w.currentSuperblock.dataStartBlock.toNat ≤ n.toNat → w'.disk n = w.disk n

/-- A write beyond the capacity, of nothing or with no result leaves everything as it was. -/
def WriteLawful (w : World) : Call → Prop
  | .write id offset buffer count => isFile (storedInode w id) →
      maxFileSize ≤ offset.toNat ∨ count = 0#64 ∨ (fsWrite id offset buffer count w).1 ≤ 0 →
        FileKept w (step w (.write id offset buffer count)) id
  | _ => True

def SizesWithin (w : World) : Prop :=
  ∀ id, InodeInUse w id → isFile (storedInode w id) → (storedInode w id).size.toNat ≤ maxFileSize

/-- The write starts inside the file, or it finds a block to start in. -/
def WriteFits (w : World) : Call → Prop
  | .write id offset _ count => isFile (storedInode w id) → offset ≤ (storedInode w id).size ∨
      (offset.toNat < maxFileSize ∧ count ≠ 0#64 ∧ ((storedInode w id).Allocated offset.toNat ∨
        ∃ n, 1 ≤ n ∧ n ≤ w.currentSuperblock.totalBlocks.toNat ∧ ¬ BlockMarked w n))
  | _ => True

section
variable {v : Volume} {l : List Ptr} {w : World} {live : Set (BitVec 32)} {id d : BitVec 32}
  {inode : Inode} {buffer : Bytes} {offset count done : Nat}

theorem writeFrom_size (v : Volume) (id : BitVec 32) (buffer : Bytes) (offset count : Nat)
    (inode : Inode) (done : Nat) :
    (v.writeFrom id buffer offset count inode done).1.size = inode.size ∧
      done ≤ (v.writeFrom id buffer offset count inode done).2.1 := by
  induction v, inode, done using Volume.writeFrom.induct id buffer offset count with
  | case1 v inode done more index full =>
      rw [Volume.writeFrom, dif_pos more, dif_pos index, full]
      exact ⟨rfl, le_rfl⟩
  | case2 v inode done more index n owner us found u ih =>
      rw [Volume.writeFrom, dif_pos more, dif_pos index, found]
      refine ⟨ih.1.trans ?_, (Nat.le_add_right _ _).trans ih.2⟩
      rcases Volume.target_cases found with ⟨_, b, _, _, rfl, _⟩ | ⟨_, _, rfl, _⟩
      · rfl
      · rfl
  | case3 v inode done more beyond =>
      rw [Volume.writeFrom, dif_pos more, dif_neg beyond]
      exact ⟨rfl, le_rfl⟩
  | case4 v inode done finished =>
      rw [Volume.writeFrom, dif_neg finished]
      exact ⟨rfl, le_rfl⟩

/-- The loop has a block to write its byte `done` to. -/
def HasTarget (v : Volume) (inode : Inode) (offset done : Nat) : Prop :=
  ∃ index : blockIndex offset done < 10, inode.directBlocks ⟨blockIndex offset done, index⟩ ≠ 0#32 ∨
    v.unusedBlock ≠ none

theorem hasTarget_iff (id : BitVec 32) : HasTarget v inode offset done ↔
    ∃ index : blockIndex offset done < 10, v.target id inode ⟨blockIndex offset done, index⟩ ≠ none := by
  refine exists_congr fun index => ?_
  rw [ne_eq, ne_eq, ne_eq, Volume.target_none, not_and_or]

theorem writeFrom_idle (nothing : ¬ (done < count ∧ HasTarget v inode offset done)) :
    v.writeFrom id buffer offset count inode done = (inode, done, []) := by
  rw [hasTarget_iff id] at nothing
  by_cases more : done < count
  · by_cases index : blockIndex offset done < 10
    · have full : v.target id inode ⟨blockIndex offset done, index⟩ = none :=
        by_contra fun found => nothing ⟨more, index, found⟩
      rw [Volume.writeFrom, dif_pos more, dif_pos index, full]
    · rw [Volume.writeFrom, dif_pos more, dif_neg index]
  · rw [Volume.writeFrom, dif_neg more]

/-- The loop writes nothing if and only if it has nothing to write or no block to write to. -/
theorem writeFrom_idle_iff : (v.writeFrom id buffer offset count inode done).2.1 = done ↔
    ¬ (done < count ∧ HasTarget v inode offset done) := by
  constructor
  · rintro stays ⟨more, target⟩
    obtain ⟨index, found⟩ := (hasTarget_iff id).mp target
    obtain ⟨place, found⟩ := Option.ne_none_iff_exists'.mp found
    obtain ⟨n, owner, us⟩ := place
    rw [Volume.writeFrom, dif_pos more, dif_pos index, found] at stays
    have later := (writeFrom_size ((v.applyAll us).apply ((v.applyAll us).fill n buffer offset count done))
      id buffer offset count owner (done + chunk offset count done)).2
    have := chunk_pos offset more
    dsimp only at stays
    omega
  · intro nothing
    rw [writeFrom_idle nothing]

theorem hasTarget_low (low : offset < maxFileSize) :
    HasTarget v inode offset 0 ↔ inode.Allocated offset ∨ v.unusedBlock ≠ none := by
  have number : blockIndex offset 0 = offset / fsBlockSize := blockIndex_eq low
  constructor
  · rintro ⟨index, used | free⟩
    · exact .inl ⟨⟨blockIndex offset 0, index⟩, number.symm, used⟩
    · exact .inr free
  · rintro (⟨k, same, used⟩ | free)
    · have place : blockIndex offset 0 = k := number.trans same
      have index : blockIndex offset 0 < 10 := place ▸ k.isLt
      obtain rfl : k = ⟨blockIndex offset 0, index⟩ := Fin.ext place.symm
      exact ⟨index, .inl used⟩
    · exact ⟨blockIndex_lt low, .inr free⟩

end

section
variable {v : Volume} {l : List Ptr} {w : World} {live : Set (BitVec 32)} {id d : BitVec 32}
  {buffer : Bytes} {offset count : BitVec 64}

/-- The result of a write, the size it leaves, and that the bytes it writes lie within ten
blocks from the one it starts in. -/
theorem write_extends (c : Consistent ⟨live, ∅, ∅⟩ v) (member : id ∈ live) (file : isFile (v.inode id))
    (offset : BitVec 64) (buffer : Bytes) (count : BitVec 64) :
    ∃ last : Nat, (last = 0 ↔ ¬ (0 < count.toNat ∧ HasTarget v (v.inode id) offset.toNat 0)) ∧
      (v.write id offset buffer count).1 = last ∧
      (last ≠ 0 → offset.toNat % 2 ^ 44 + last ≤ maxFileSize) ∧
      ((v.step (.write id offset buffer count)).inode id).size =
        (if (v.inode id).size < offset + BitVec.ofNat 64 last then offset + BitVec.ofNat 64 last
          else (v.inode id).size) ∧
      (last = 0 → offset ≤ (v.inode id).size → (v.perform (.write id offset buffer count)).2 = []) := by
  have valid := c.valid id member
  obtain ⟨written, record⟩ :=
    track_writeFrom buffer offset.toNat count.toNat (v.inode id) 0 c member file rfl
  obtain ⟨_, reaches⟩ := writeFrom_reaches buffer offset.toNat count.toNat (v.inode id) 0 c member file rfl
  have size := (writeFrom_size v id buffer offset.toNat count.toNat (v.inode id) 0).1
  have idle := @writeFrom_idle_iff v id (v.inode id) buffer offset.toNat count.toNat 0
  have step_ : v.step (.write id offset buffer count) =
      v.applyAll (v.write id offset buffer count).2 := rfl
  have updates : (v.write id offset buffer count).2 =
      (v.writeFrom id buffer offset.toNat count.toNat (v.inode id) 0).2.2 ++ Volume.extend id
        (v.writeFrom id buffer offset.toNat count.toNat (v.inode id) 0).1
        (offset + BitVec.ofNat 64 (v.writeFrom id buffer offset.toNat count.toNat (v.inode id) 0).2.1) := by
    rw [Volume.write, Volume.openAs_some valid file]
  refine ⟨_, idle, ?_, reaches.inside, ?_, fun nothing within => ?_⟩
  · rw [Volume.write, Volume.openAs_some valid file]
    exact toInt_eq reaches.le_maxFileSize
  · rw [step_, updates, Volume.applyAll_append, Volume.extend, size]
    by_cases grown : (v.inode id).size < offset +
        BitVec.ofNat 64 (v.writeFrom id buffer offset.toNat count.toNat (v.inode id) 0).2.1
    · rw [if_pos grown, if_pos grown, Volume.applyAll_cons, Volume.applyAll_nil,
        Volume.inode_inode_same valid]
    · rw [if_neg grown, if_neg grown, Volume.applyAll_nil, record, size]
  · change (v.write id offset buffer count).2 = []
    rw [updates, writeFrom_idle (idle.mp nothing), Volume.extend, if_neg, List.append_nil]
    rw [BitVec.add_zero]
    exact BitVec.not_lt.mpr within

/-- A write that starts inside the file or finds a block. -/
def FitsOn (v : Volume) (id : BitVec 32) (offset count : BitVec 64) : Prop :=
  offset ≤ (v.inode id).size ∨ (offset.toNat < maxFileSize ∧ count ≠ 0#64 ∧
    ((v.inode id).Allocated offset.toNat ∨ v.unusedBlock ≠ none))

theorem write_fits (c : Consistent ⟨live, ∅, ∅⟩ v) (member : id ∈ live) (file : isFile (v.inode id))
    (small : (v.inode id).size.toNat ≤ maxFileSize) (buffer : Bytes) (fits : FitsOn v id offset count) :
    (maxFileSize ≤ offset.toNat ∨ count = 0#64 ∨ (v.write id offset buffer count).1 ≤ 0 →
        (v.perform (.write id offset buffer count)).2 = []) ∧
      ((v.step (.write id offset buffer count)).inode id).size.toNat ≤ maxFileSize := by
  obtain ⟨last, idle, result, inside, size, nothing⟩ := write_extends c member file offset buffer count
  rw [result, size]
  rw [maxFileSize, fsBlockSize] at *
  by_cases none_ : last = 0
  · have within : offset ≤ (v.inode id).size := by
      refine fits.resolve_right ?_
      rintro ⟨low, some_, target⟩
      refine idle.mp none_ ⟨by bv_omega, (hasTarget_low ?_).mpr target⟩
      rwa [maxFileSize, fsBlockSize]
    refine ⟨fun _ => nothing none_ within, ?_⟩
    rw [none_, BitVec.add_zero, if_neg (BitVec.not_lt.mpr within)]
    exact small
  · have room := inside none_
    have low : offset.toNat < 40960 := by
      rcases fits with within | ⟨low, _⟩
      · have within : offset.toNat ≤ (v.inode id).size.toNat := within
        omega
      · exact low
    refine ⟨?_, ?_⟩
    · rintro (high | zero | negative)
      · omega
      · refine absurd (idle.mpr ?_) none_
        rw [zero]
        exact fun more => absurd more.1 (Nat.lt_irrefl 0)
      · omega
    · split
      · rw [BitVec.toNat_add, BitVec.toNat_ofNat]
        omega
      · exact small

theorem write_misfits (c : Consistent ⟨live, ∅, ∅⟩ v) (member : id ∈ live) (file : isFile (v.inode id))
    (small : (v.inode id).size.toNat ≤ maxFileSize) (buffer : Bytes)
    (misfits : ¬ FitsOn v id offset count) :
    ((v.write id offset buffer count).1 ≤ 0 ∧
        ((v.step (.write id offset buffer count)).inode id).size ≠ (v.inode id).size) ∨
      maxFileSize < ((v.step (.write id offset buffer count)).inode id).size.toNat := by
  obtain ⟨last, idle, result, inside, size, _⟩ := write_extends c member file offset buffer count
  rw [result, size]
  obtain ⟨past, stuck⟩ := not_or.mp misfits
  have past : (v.inode id).size < offset := BitVec.not_le.mp past
  rw [maxFileSize, fsBlockSize] at small inside ⊢
  by_cases none_ : last = 0
  · rw [none_, BitVec.add_zero, if_pos past]
    exact .inl ⟨le_rfl, fun same => BitVec.lt_irrefl _ (same ▸ past)⟩
  · have room := inside none_
    have below := offset.isLt
    have high : 40960 ≤ offset.toNat := by
      by_contra low
      obtain ⟨some_, target⟩ := not_not.mp fun nothing => none_ (idle.mpr nothing)
      have low : offset.toNat < maxFileSize := by
        rw [maxFileSize, fsBlockSize]
        omega
      exact stuck ⟨low, by bv_omega, (hasTarget_low low).mp target⟩
    have sum : (offset + BitVec.ofNat 64 last).toNat = offset.toNat + last := by
      rw [BitVec.toNat_add, BitVec.toNat_ofNat]
      omega
    have grown : (v.inode id).size < offset + BitVec.ofNat 64 last := by
      rw [BitVec.lt_def, sum]
      omega
    rw [if_pos grown, sum]
    exact .inr (by omega)

/-! The sizes of all files. -/

theorem Shows.sizesWithin_iff (shows_ : Shows v l w) (c : Consistent ⟨live, ∅, ∅⟩ v) : SizesWithin w ↔
    ∀ x ∈ live, isFile (v.inode x) → (v.inode x).size.toNat ≤ maxFileSize := by
  constructor
  · intro within x member
    have here := within x ((c.inUse_iff shows_).mpr member)
    rwa [shows_.storedInode] at here
  · intro within x inUse
    rw [shows_.storedInode]
    exact within x ((c.inUse_iff shows_).mp inUse)

theorem sizesWithin_idle (shows_ : Shows v l w) (c : Consistent ⟨live, ∅, ∅⟩ v) (within : SizesWithin w)
    {call : Call} (nothing : (v.perform call).2 = []) : SizesWithin (step w call) := by
  have same : v.step call = v := by rw [Volume.step, nothing, Volume.applyAll_nil]
  have after := shows_.step call
  rw [same] at after
  exact (after.sizesWithin_iff c).mpr ((shows_.sizesWithin_iff c).mp within)

/-- A call on a directory stores no record of an old file. -/
theorem sizesWithin_directory (shows_ : Shows v l w) (c : Consistent ⟨live, ∅, ∅⟩ v)
    (within : SizesWithin w) (call : Call) (member : call.inode ∈ live) (dir : isDir (v.inode call.inode))
    (type : ((v.step call).inode call.inode).type = (v.inode call.inode).type) {live' : Set (BitVec 32)}
    (c' : Consistent ⟨live', ∅, ∅⟩ (v.step call))
    (old : ∀ x ∈ live', x ∈ live ∨ ((v.step call).inode x).size = 0#64)
    (fresh : ∀ x ∈ live, ¬ call.Makes (v.perform call).1.1 x) : SizesWithin (step w call) := by
  refine ((shows_.step call).sizesWithin_iff c').mpr fun x memberX file => ?_
  rcases old x memberX with memberX | empty
  · by_cases self : x = call.inode
    · rw [self] at file
      exact absurd dir (c.not_dir member ((isFile_congr type).mp file))
    · rw [record_kept shows_ c member (c.valid x memberX) self (fresh x memberX)] at file ⊢
      exact (shows_.sizesWithin_iff c).mp within x memberX file
  · rw [empty]
    exact Nat.zero_le _

theorem sizesWithin_create (shows_ : Shows v l w) (c : Consistent ⟨live, ∅, ∅⟩ v) (within : SizesWithin w)
    (member : d ∈ live) (name : CString) {type : BitVec 16}
    (kind : type = fsInodeTypeFile ∨ type = fsInodeTypeDir) (padding : Bytes) :
    SizesWithin (step w (.create d name type padding)) := by
  rcases create_cases (c.valid d member) name type padding with
    ⟨_, refused⟩ | ⟨i, ⟨_, dir, _, found⟩, number, done⟩
  · exact sizesWithin_idle shows_ c within (congrArg Prod.snd refused)
  have result : (v.create d name type padding).1 = BitVec.ofNat 32 (i + 1) := congrArg Prod.fst done
  have nonzero : (v.create d name type padding).1 ≠ 0#32 := by rwa [result]
  obtain ⟨_, edit, _⟩ := directoryEdit_create c member name kind padding
  obtain ⟨live', track, _, grown⟩ := track_create c member name kind padding
  obtain rfl := grown nonzero
  refine sizesWithin_directory shows_ c within (.create d name type padding) member dir edit.type
    track.final ?_ ?_
  · rintro x (rfl | memberX)
    · refine .inr ?_
      rw [record_made shows_ c member name type padding nonzero]
      rfl
    · exact .inl memberX
  · intro x memberX made
    have made : (((v.create d name type padding).1.toNat : Nat) : Int) = x.toNat := made
    have same : (v.create d name type padding).1 = x := BitVec.eq_of_toNat_eq (Int.ofNat_inj.mp made)
    exact c.fresh_inode found (result ▸ same ▸ memberX)

theorem sizesWithin_delete (shows_ : Shows v l w) (c : Consistent ⟨live, ∅, ∅⟩ v) (within : SizesWithin w)
    (member : d ∈ live) (name : CString) : SizesWithin (step w (.delete d name)) := by
  by_cases dir : isDir (v.inode d)
  · obtain ⟨live', edit, fewer, track⟩ := directoryEdit_delete c member name
    exact sizesWithin_directory shows_ c within (.delete d name) member dir edit.type track.final
      (fun x memberX => .inl (fewer memberX)) fun _ _ made => made
  · have nothing := @delete_missing v d name fun isDirectory => absurd isDirectory dir
    exact sizesWithin_idle shows_ c within (congrArg Prod.snd nothing)

theorem fitsOn_iff (shows_ : Shows v l w) : FitsOn v id offset count ↔
    (offset ≤ (storedInode w id).size ∨ (offset.toNat < maxFileSize ∧ count ≠ 0#64 ∧
      ((storedInode w id).Allocated offset.toNat ∨
        ∃ n, 1 ≤ n ∧ n ≤ w.currentSuperblock.totalBlocks.toNat ∧ ¬ BlockMarked w n))) := by
  rw [FitsOn, shows_.storedInode, shows_.freeBlock_iff]

theorem fileKept_of_idle (shows_ : Shows v l w) {call : Call} (nothing : (v.perform call).2 = [])
    (id : BitVec 32) : FileKept w (step w call) id := by
  have unchanged := shows_.unchanged call nothing
  have same : v.step call = v := by rw [Volume.step, nothing, Volume.applyAll_nil]
  have record : storedInode (step w call) id = storedInode w id := by
    rw [(shows_.step call).storedInode, same, shows_.storedInode]
  exact ⟨congrArg Inode.size record, congrArg Inode.directBlocks record, unchanged.inodes, unchanged.blocks,
    fun n _ => congrFun unchanged.disk n⟩

theorem lawful_write_iff (shows_ : Shows v l w) (c : Consistent ⟨live, ∅, ∅⟩ v) (within : SizesWithin w)
    (member : id ∈ live) (file : isFile (v.inode id)) :
    WriteLawful w (.write id offset buffer count) ∧ SizesWithin (step w (.write id offset buffer count)) ↔
      FitsOn v id offset count := by
  have small := (shows_.sizesWithin_iff c).mp within id member file
  have result := (does_fsWrite id offset buffer count w shows_).1
  have after := shows_.step (.write id offset buffer count)
  have c' := (track_write c member offset buffer count).final
  have file' : isFile ((v.step (.write id offset buffer count)).inode id) :=
    (isFile_congr (write_keeps c member offset buffer count id member).1).mpr file
  constructor
  · rintro ⟨lawful, within'⟩
    by_contra misfits
    rcases write_misfits c member file small buffer misfits with ⟨nothing, grown⟩ | large
    · have stored : isFile (storedInode w id) := by
        rw [shows_.storedInode]
        exact file
      rw [← result] at nothing
      have size := (lawful stored (.inr (.inr nothing))).size
      rw [after.storedInode, shows_.storedInode] at size
      exact grown size
    · have bounded := (after.sizesWithin_iff c').mp within' id member file'
      exact absurd bounded (Nat.not_le.mpr large)
  · intro fits
    obtain ⟨idle, bounded⟩ := write_fits c member file small buffer fits
    refine ⟨fun _ premise => fileKept_of_idle shows_ (idle ?_) id,
      (after.sizesWithin_iff c').mpr fun x memberX fileX => ?_⟩
    · rwa [result] at premise
    · by_cases self : x = id
      · rw [self]
        exact bounded
      · have record := (write_others c member offset buffer count memberX self).1
        have record : (v.step (.write id offset buffer count)).inode x = v.inode x := record
        rw [record] at fileX ⊢
        exact (shows_.sizesWithin_iff c).mp within x memberX fileX

theorem lawful_step_iff (call : Call) (settled : Settled w) (within : SizesWithin w)
    (inUse : CallInUse w call) : WriteLawful w call ∧ SizesWithin (step w call) ↔ WriteFits w call := by
  obtain ⟨v, l, live, shows_, c⟩ := settled
  have member := (c.inUse_iff shows_).mp inUse.1
  cases call with
  | create d name type padding =>
      exact iff_of_true ⟨trivial, sizesWithin_create shows_ c within member name inUse.2 padding⟩ trivial
  | delete d name => exact iff_of_true ⟨trivial, sizesWithin_delete shows_ c within member name⟩ trivial
  | lookup d name => exact iff_of_true ⟨trivial, sizesWithin_idle shows_ c within rfl⟩ trivial
  | read id offset count => exact iff_of_true ⟨trivial, sizesWithin_idle shows_ c within rfl⟩ trivial
  | write id offset buffer count =>
      have member : id ∈ live := member
      by_cases file : isFile (v.inode id)
      · rw [lawful_write_iff shows_ c within member file, fitsOn_iff shows_]
        have file : isFile (storedInode w id) := by rwa [shows_.storedInode]
        exact ⟨fun fits _ => fits, fun fits => fits file⟩
      · have nothing : (v.perform (.write id offset buffer count)).2 = [] := by
          rw [Volume.perform, Volume.write, Volume.openAs_none file]
        have other : ¬ isFile (storedInode w id) := by rwa [shows_.storedInode]
        exact iff_of_true ⟨fun isFile_ => absurd isFile_ other, sizesWithin_idle shows_ c within nothing⟩
          fun isFile_ => absurd isFile_ other

theorem sizesWithin_format {buffer : Block} (formattable : Formattable w buffer)
    (inodeJunk blockJunk : Bytes) : SizesWithin (fsInit inodeJunk blockJunk w).2 := by
  obtain ⟨v, l, shows_, fresh, _⟩ := fsInit_formats formattable inodeJunk blockJunk
  refine (shows_.sizesWithin_iff fresh.consistent).mpr fun x memberX file => ?_
  obtain rfl : x = 1#32 := memberX
  rw [fresh.root]
  exact Nat.zero_le _

end

/-- In a run every file stays within its ten blocks and every write that should change nothing
changes nothing, if and only if each write starts inside its file or finds a block to start in. -/
theorem write_extent_iff {w : World} {buffer : Block} (formattable : Formattable w buffer)
    (inodeJunk blockJunk : Bytes) (calls : List Call)
    (admitted : Admitted step CallInUse (fsInit inodeJunk blockJunk w).2 calls) :
    Always step SizesWithin (fsInit inodeJunk blockJunk w).2 calls ∧
        Admitted step WriteLawful (fsInit inodeJunk blockJunk w).2 calls ↔
      Admitted step WriteFits (fsInit inodeJunk blockJunk w).2 calls :=
  always_and_admitted_iff settled_step (fun _ call settled within inUse =>
    lawful_step_iff call settled within inUse) (settled_format formattable inodeJunk blockJunk)
    (sizesWithin_format formattable inodeJunk blockJunk) admitted

theorem write_extent_iff_brief_file :
    Always step SizesWithin (fsInit (fun _ => 0) (fun _ => 0) blankWorld).2 briefFile ∧
        Admitted step WriteLawful (fsInit (fun _ => 0) (fun _ => 0) blankWorld).2 briefFile ↔
      Admitted step WriteFits (fsInit (fun _ => 0) (fun _ => 0) blankWorld).2 briefFile :=
  write_extent_iff blankWorld_formattable (fun _ => 0) (fun _ => 0) briefFile briefFile_inUse

/-- A write at byte 40961 writes nothing and makes the file 40961 bytes long. -/
theorem write_beyond_capacity_extends :
    Admitted step CallInUse (fsInit (fun _ => 0) (fun _ => 0) blankWorld).2
        [newFile nameA, .write 2#32 40961#64 (fun _ => 0#8) 1#64] ∧
      ¬ (Always step SizesWithin (fsInit (fun _ => 0) (fun _ => 0) blankWorld).2
          [newFile nameA, .write 2#32 40961#64 (fun _ => 0#8) 1#64] ∧
        Admitted step WriteLawful (fsInit (fun _ => 0) (fun _ => 0) blankWorld).2
          [newFile nameA, .write 2#32 40961#64 (fun _ => 0#8) 1#64]) := by
  obtain ⟨v, l, live, shows_, c, one⟩ := one_file (fun _ => 0) fun _ => 0
  have inUse := one.inUse shows_ valid_two (by decide)
  have member := (c.inUse_iff shows_).mp inUse
  refine ⟨⟨⟨root_inUse _ _, .inl rfl⟩, ⟨inUse, trivial⟩, trivial⟩, ?_⟩
  rintro ⟨⟨_, within, within'⟩, _, lawful, _⟩
  have file : isFile (v.inode 2#32) := by
    rw [one.record]
    decide
  have fits := (lawful_write_iff shows_ c within member file).mp ⟨lawful, within'⟩
  rw [FitsOn, one.record] at fits
  rcases fits with inside | ⟨low, _⟩
  · exact absurd inside (by decide)
  · exact absurd low (by decide)

end AstralOS.Fs
