import AstralOS.Fs.Preservation

/-! `fs_init`: what it formats when block 0 cannot be read, and what it mounts when it can. -/
namespace AstralOS.Fs
open Foundation AstralOS.Lib

/-- A freshly formatted volume: the root is the only inode, blocks 1 to 7 are reserved. -/
structure Fresh (v : Volume) : Prop where
  synced : v.Synced
  inodes : ∀ i < 128, v.ibit i = decide (i = 0)
  blocks : ∀ i < 1024, v.bbit i = decide (i < 7)
  root : v.inode 1#32 = rootInode 1#32

theorem formatSuperblock_eq : formatSuperblock =
    ⟨fsMagic, 4096#32, 1024#32, 1018#32, 128#32, 128#32, 0#32, 1#32, 2#32, 3#32, 6#32⟩ := rfl

/-- The block bitmap after the loop that marks the reserved blocks. -/
def reservedBits (n : Nat) : Block := (List.range n).foldl (fun b i => putBit b i true) Block.zero

theorem testBit_reserved (n j : Nat) (small : n ≤ 32768) :
    testBit (reservedBits n).bytes j = decide (j < n) := by
  induction n with
  | zero =>
      rw [reservedBits, List.range_zero, List.foldl_nil, Block.bytes_zero, testBit_zero]
      simp
  | succ n ih =>
      have before := ih (by omega)
      rw [reservedBits] at before
      rw [reservedBits, List.range_succ, List.foldl_append, List.foldl_cons, List.foldl_nil,
        Volume.testBit_putBit (by omega), before]
      by_cases same : n = j
      · subst same
        simp
      · have : j < n + 1 ↔ j < n := by omega
        simp [same, this]

theorem ofBytes_reserve {f : Bytes} (cleared : Block.ofBytes f = Block.zero) (n : Nat)
    (small : n ≤ 32768) : Block.ofBytes ((List.range n).foldl setBit f) = reservedBits n := by
  induction n with
  | zero => exact cleared
  | succ n ih =>
      have before := ih (by omega)
      rw [reservedBits] at before ⊢
      rw [List.range_succ, List.foldl_append, List.foldl_append, List.foldl_cons, List.foldl_nil,
        List.foldl_cons, List.foldl_nil, ofBytes_setBit before (by omega)]

theorem ofBytes_cleared (f : Bytes) : Block.ofBytes (f.splice 0 4096 fun _ => 0#8) = Block.zero := by
  funext i
  have inside : (0 : Nat) ≤ i.val ∧ i.val < 0 + 4096 := ⟨Nat.zero_le _, by have := i.isLt; omega⟩
  rw [Block.ofBytes, Bytes.splice, if_pos inside]
  rfl

section
variable {w : World} {buffer : Block}

/-- The volume between the bitmaps and the root directory. -/
def emptyVolume (disk : BlockNum → Block) (buffer : Block) : Volume where
  disk := Function.update (Function.update (Function.update disk 0#32
    (superblockBlock buffer formatSuperblock)) 1#32 Block.zero) 2#32 (reservedBits 7)
  inodeBits := Block.zero
  blockBits := reservedBits 7

theorem formatBitmaps_shows (buffer : Block) (inodeJunk blockJunk : Bytes) (healthy : Healthy w) :
    ∃ l, Shows (emptyVolume w.disk buffer) l (formatBitmaps buffer inodeJunk blockJunk w).2 := by
  have writes := healthy.writes
  have kmallocs := healthy.kmallocs
  have inodes : bitmapBlocks 128#32 = 1 := rfl
  have blocks : bitmapBlocks 1024#32 = 1 := rfl
  have bits := ofBytes_cleared inodeJunk
  have reserved := ofBytes_reserve (ofBytes_cleared blockJunk) 7 (by decide)
  refine ⟨freshPtr (freshPtr w.live :: w.live) :: freshPtr w.live :: w.live, ?_⟩
  simp only [formatBitmaps, formatSuperblock_eq, bind_apply, setSuperblock, writeBlock, writes,
    Bool.false_eq_true, if_false, kmallocBitmap, kmalloc, kmallocs, inodes, blocks, pure_apply,
    setInodeBitmap, setBlockBitmap, fillInodeBits, fillBlockBits, inodeBits, blockBits, setInodeBits,
    setBlockBits, Option.map_some, fsBlockSize, Nat.one_mul, or_self, OfNat.ofNat_ne_zero,
    BitVec.toNat_ofNat]
  refine ⟨⟨healthy.reads, rfl, rfl⟩, ⟨rfl, rfl, rfl, rfl, rfl, rfl, rfl⟩, ?_, ⟨_, rfl, bits⟩,
    ⟨_, rfl, reserved⟩, rfl⟩
  simp only [emptyVolume, formatSuperblock_eq]
  rw [← reserved, ← bits]

theorem ofBytes_superblockBlock (buffer : Block) (s : Superblock) :
    Superblock.ofBytes (superblockBlock buffer s).bytes = s := by
  refine (Superblock.ofBytes_congr fun i hi => ?_).trans s.ofBytes_bytes
  have : (superblockBlock buffer s).bytes (0 + i) = s.bytes i :=
    buffer.patch_inside s.bytes hi (by decide)
  rwa [Nat.zero_add] at this

/-- The updates that make the root directory. -/
def rootUpdates : List Update := [.inodeBit 0 true, .inode 1#32 (rootInode 1#32)]

theorem formatRoot_run {disk : BlockNum → Block} {l : List Ptr}
    (shows_ : Shows (emptyVolume disk buffer) l w) :
    ∃ w2, Shows ((emptyVolume disk buffer).applyAll rootUpdates) l w2 ∧
      (formatRoot buffer w).2 =
        (writeBlock 0#32 (superblockBlock buffer { w2.currentSuperblock with rootInode := 1#32 })
          { w2 with currentSuperblock := { w2.currentSuperblock with rootInode := 1#32 } }).2 := by
  have unused : (emptyVolume disk buffer).unusedInode = some 0 := by
    refine firstClear_eq_some.mpr ⟨by decide, ?_, fun j below => absurd below (Nat.not_lt_zero j)⟩
    change testBit Block.zero.bytes 0 = false
    rw [Block.bytes_zero, testBit_zero]
  obtain ⟨allocated, shows1, _⟩ := does_allocateInode_some unused w shows_
  obtain ⟨_, shows2, _⟩ := does_writeInode 1#32 (by decide) (rootInode 1#32) _ shows1
  refine ⟨_, shows2, ?_⟩
  simp only [formatRoot, bind_apply, allocated]
  rfl

theorem formatRoot_shows {disk : BlockNum → Block} {l : List Ptr}
    (shows_ : Shows (emptyVolume disk buffer) l w) :
    ∃ s, Formatted s ∧ Shows (((emptyVolume disk buffer).applyAll rootUpdates).apply
      (.block 0#32 (superblockBlock buffer s))) l (formatRoot buffer w).2 := by
  obtain ⟨w2, shows2, run⟩ := formatRoot_run shows_
  have layout := shows2.layout
  have layout' : Formatted { w2.currentSuperblock with rootInode := 1#32 } :=
    ⟨layout.magic, layout.totalBlocks, layout.totalInodes, layout.inodeBitmapBlock,
      layout.blockBitmapBlock, layout.inodeTableStartBlock, layout.dataStartBlock⟩
  obtain ⟨_, shows3, _⟩ := does_setSuperblock layout' w2 shows2
  refine ⟨_, layout', ?_⟩
  rw [run]
  exact (does_writeBlock _ _ _ shows3).2.1

/-- Block 0 holds the superblock in memory. -/
theorem formatRoot_stores {disk : BlockNum → Block} {l : List Ptr}
    (shows_ : Shows (emptyVolume disk buffer) l w) :
    Superblock.ofBytes ((formatRoot buffer w).2.disk 0#32).bytes =
      (formatRoot buffer w).2.currentSuperblock := by
  obtain ⟨w2, shows2, run⟩ := formatRoot_run shows_
  have healthy : Healthy { w2 with
      currentSuperblock := { w2.currentSuperblock with rootInode := 1#32 } } :=
    ⟨shows2.healthy.reads, shows2.healthy.writes, shows2.healthy.kmallocs⟩
  rw [run, writeBlock_run healthy]
  dsimp only
  rw [Function.update_self, ofBytes_superblockBlock]

theorem fresh_of_format {disk : BlockNum → Block} {s : Superblock} (layout : Formatted s) :
    Fresh (((emptyVolume disk buffer).applyAll rootUpdates).apply
      (.block 0#32 (superblockBlock buffer s))) := by
  have valid : ValidId 1#32 := by rw [ValidId]; decide
  have table : tableBlock 1#32 ≠ 0#32 := by decide
  set v0 := emptyVolume disk buffer
  refine ⟨⟨?_, ?_, ?_⟩, fun i hi => ?_, fun i hi => ?_, ?_⟩
  · rw [Volume.disk_block_other (by decide)]
    refine (Volume.disk_inode_low valid (by decide)).trans ?_
    exact Function.update_self (1#32) (putBit v0.inodeBits 0 true) v0.disk
  · rw [Volume.disk_block_other (by decide)]
    refine (Volume.disk_inode_low valid (by decide)).trans ?_
    refine (Volume.disk_apply (.inodeBit 0 true) (by simp [Volume.issue])).trans ?_
    change v0.disk 2#32 = reservedBits 7
    simp only [v0, emptyVolume, Function.update_self]
  · rw [Volume.disk_block, ofBytes_superblockBlock]
    exact layout
  · have zero : v0.ibit i = false := by
      change testBit Block.zero.bytes i = false
      rw [Block.bytes_zero, testBit_zero]
    change (v0.apply (.inodeBit 0 true)).ibit i = _
    rw [Volume.ibit_inodeBit (by decide), zero]
    by_cases first : i = 0
    · simp [first]
    · simp [first, Ne.symm first]
  · exact testBit_reserved 7 i (by decide)
  · refine (Volume.inode_congr (Volume.disk_block_other table)).trans ?_
    exact Volume.inode_inode_same valid

end

/-- Block 0 cannot be read; nothing else fails. -/
structure Formattable (w : World) (buffer : Block) : Prop where
  unreadable : w.readFaults 0 = some buffer
  reads : ∀ i, w.readFaults (i + 1) = none
  writes : ∀ i, w.writeFaults i = false
  kmallocs : ∀ i, w.kmallocFaults i = false

/-- The inode table keeps what the device held, but for the root. -/
theorem inode_of_format {disk : BlockNum → Block} {buffer : Block} {s : Superblock} {id : BitVec 32}
    (valid : ValidId id) (notRoot : id ≠ 1#32) :
    (((emptyVolume disk buffer).applyAll rootUpdates).apply
      (.block 0#32 (superblockBlock buffer s))).inode id =
      Inode.ofBytes ((disk (tableBlock id)).bytes.drop (inodeOffset id)) := by
  have range := tableBlock_range valid
  have apart : ∀ m : BlockNum, m.toNat ≤ 2 → tableBlock id ≠ m := by
    rintro m low rfl
    omega
  have root : ValidId 1#32 := by rw [ValidId]; decide
  refine (Volume.inode_congr (Volume.disk_block_other (apart _ (by decide)))).trans ?_
  refine (Volume.inode_inode_other root valid notRoot.symm).trans ?_
  refine (Volume.inode_inodeBit valid).trans ?_
  rw [Volume.inode, emptyVolume]
  simp only [Function.update_of_ne (apart 2#32 (by decide)),
    Function.update_of_ne (apart 1#32 (by decide)), Function.update_of_ne (apart 0#32 (by decide))]

/-- `fs_init` formats when block 0 cannot be read. -/
theorem Formattable.run {w : World} {buffer : Block} (formattable : Formattable w buffer)
    (inodeJunk blockJunk : Bytes) :
    ∃ w0, Healthy w0 ∧ w0.disk = w.disk ∧
      (fsInit inodeJunk blockJunk w).2 = (format buffer inodeJunk blockJunk w0).2 := by
  refine ⟨{ w with readFaults := fun i => w.readFaults (i + 1) },
    ⟨funext formattable.reads, funext formattable.writes, funext formattable.kmallocs⟩, rfl, ?_⟩
  simp only [fsInit, bind_apply, readBlock, formattable.unreadable]
  rfl

/-- What `fs_init` leaves when it formats. -/
theorem fsInit_formats {w : World} {buffer : Block} (formattable : Formattable w buffer)
    (inodeJunk blockJunk : Bytes) :
    ∃ v l, Shows v l (fsInit inodeJunk blockJunk w).2 ∧ Fresh v ∧
      ∀ id, ValidId id → id ≠ 1#32 →
        v.inode id = Inode.ofBytes ((w.disk (tableBlock id)).bytes.drop (inodeOffset id)) := by
  obtain ⟨w0, healthy, disk, run⟩ := formattable.run inodeJunk blockJunk
  obtain ⟨l, shows_⟩ := formatBitmaps_shows buffer inodeJunk blockJunk healthy
  obtain ⟨s, layout, done⟩ := formatRoot_shows shows_
  rw [run, ← disk]
  exact ⟨_, l, done, fresh_of_format layout, fun id valid notRoot => inode_of_format valid notRoot⟩

theorem fsInit_stores {w : World} {buffer : Block} (formattable : Formattable w buffer)
    (inodeJunk blockJunk : Bytes) :
    Superblock.ofBytes ((fsInit inodeJunk blockJunk w).2.disk 0#32).bytes =
      (fsInit inodeJunk blockJunk w).2.currentSuperblock := by
  obtain ⟨w0, healthy, _, run⟩ := formattable.run inodeJunk blockJunk
  obtain ⟨l, shows_⟩ := formatBitmaps_shows buffer inodeJunk blockJunk healthy
  rw [run]
  exact formatRoot_stores shows_

/-- What `fs_init` leaves when it mounts: the device as it is, its bitmaps cached. -/
theorem fsInit_mounts {w : World} (healthy : Healthy w) 
    (layout : Formatted (Superblock.ofBytes (w.disk 0#32).bytes))
    (inodeJunk blockJunk : Bytes) :
    ∃ l, Shows ⟨w.disk, w.disk 1#32, w.disk 2#32⟩ l (fsInit inodeJunk blockJunk w).2 := by
  have reads := healthy.reads
  have kmallocs := healthy.kmallocs
  have loaded : ∀ (f : Bytes) (b : Block), Block.ofBytes (f.splice 0 4096 b.bytes) = b := by
    intro f b
    refine Eq.trans (Block.ofBytes_congr fun i hi => ?_) b.ofBytes_bytes
    have : f.splice 0 4096 b.bytes (0 + i) = b.bytes i := splice_inside f b.bytes hi
    rwa [Nat.zero_add] at this
  have inodes : bitmapBlocks 128#32 = 1 := rfl
  have blocks : bitmapBlocks 1024#32 = 1 := rfl
  refine ⟨freshPtr (freshPtr w.live :: w.live) :: freshPtr w.live :: w.live, ?_⟩
  set s := Superblock.ofBytes (w.disk 0#32).bytes with sEq
  simp only [fsInit, mount, bind_apply, readBlock, reads, ne_eq, not_true_eq_false, if_false, ← sEq,
    setSuperblock, layout.magic, ite_run, layout.totalInodes, layout.totalBlocks, inodes,
    blocks, layout.inodeBitmapBlock, layout.blockBitmapBlock, kmallocBitmap, kmalloc, kmallocs,
    pure_apply, setInodeBitmap, setBlockBitmap, fillInodeBits, fillBlockBits, inodeBits, blockBits,
    setInodeBits, setBlockBits, Option.map_some, fsBlockSize, Nat.one_mul, Bool.false_eq_true,
    or_self, OfNat.ofNat_ne_zero]
  exact ⟨⟨rfl, healthy.writes, rfl⟩, layout, rfl, ⟨_, rfl, loaded _ _⟩, ⟨_, rfl, loaded _ _⟩, rfl⟩

/-- On a fresh volume the root alone is live, and every mark is accounted for. -/
theorem Fresh.consistent {v : Volume} (fresh : Fresh v) : Consistent ⟨{1#32}, ∅, ∅⟩ v := by
  have empty : ∀ k, (v.inode 1#32).directBlocks k = 0#32 := fun k => by rw [fresh.root]; rfl
  have noEntry : ∀ k j id, ¬ Holds v 1#32 k j id := fun k j id held => held.used (empty k)
  refine ⟨fresh.synced, rfl, ?_, ?_, ?_, ?_, ?_, ?_, ?_, ?_, ?_, ?_, ?_⟩
  · rintro id rfl
    rw [ValidId]
    decide
  · rintro id rfl
    exact fresh.inodes 0 (by decide)
  · rintro id rfl
    rw [fresh.root]
    exact .inr rfl
  · rintro id rfl k used
    exact absurd (empty k) used
  · rintro id rfl k used
    exact absurd (empty k) used
  · rintro id rfl other rfl k k' used
    exact absurd (empty k) used
  · rintro d rfl k j id held
    exact absurd held (noEntry k j id)
  · rintro d rfl d' rfl k k' j j' id held
    exact absurd held (noEntry k j id)
  · intro i low
    rw [fresh.blocks i (by omega)]
    exact decide_eq_true low
  · intro n low high set
    rw [fresh.blocks _ (by omega), decide_eq_true_iff] at set
    omega
  · intro id valid set
    obtain ⟨pos, small⟩ := valid
    rw [fresh.inodes _ (by omega), decide_eq_true_iff] at set
    refine .inr (BitVec.eq_of_toNat_eq ?_)
    change id.toNat = 1
    omega

end AstralOS.Fs
