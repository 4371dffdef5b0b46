import AstralOS.Fs.Rejected
import AstralOS.Fs.Format

/-! The bitmaps of any volume `fs_init` mounts: what of them is loaded, and what of them the
allocators write back. -/
namespace AstralOS.Fs
open Foundation

inductive BitmapOp where
  | allocateInode
  | freeInode (id : BitVec 32)
  | allocateBlock
  | freeBlock (n : BlockNum)

def BitmapOp.after (w : World) : BitmapOp → World
  | .allocateInode => (Fs.allocateInode w).2
  | .freeInode id => (Fs.freeInode id w).2
  | .allocateBlock => (Fs.allocateBlock w).2
  | .freeBlock n => (Fs.freeBlock n w).2

/-- Every bit lies in the buffer and is the one on the device, where the bitmap takes
consecutive blocks. -/
def BitmapStored (disk : BlockNum → Block) (start : BlockNum) (total : BitVec 32) (bitmap : Option Buffer) :
    Prop :=
  ∀ i < total.toNat, ∃ b, bitmap = some b ∧ i / 8 < b.size ∧
    testBit b.bytes i = testBit (disk (start + BitVec.ofNat 32 (i / 32768))).bytes (i % 32768)

structure BitmapsStored (w : World) : Prop where
  inodes : BitmapStored w.disk w.currentSuperblock.inodeBitmapBlock w.currentSuperblock.totalInodes w.inodeBitmap
  blocks : BitmapStored w.disk w.currentSuperblock.blockBitmapBlock w.currentSuperblock.totalBlocks w.blockBitmap

/-- On every device whose block 0 holds this superblock, and whatever the memory of the bitmaps
held before, the bitmaps are stored in full after `fs_init` and all along any calls. -/
def MountsFully (s : Superblock) : Prop :=
  ∀ w, Healthy w → Superblock.ofBytes (w.disk 0#32).bytes = s → ∀ inodeJunk blockJunk ops,
    Always BitmapOp.after BitmapsStored (fsInit inodeJunk blockJunk w).2 ops

/-- A bitmap of no bits, or of whole bytes at least in one block. -/
def BitmapFits (total : BitVec 32) : Prop := total = 0#32 ∨ (8 ≤ total.toNat ∧ total.toNat ≤ 32768)

structure BitmapsFit (s : Superblock) : Prop where
  inodes : BitmapFits s.totalInodes
  blocks : BitmapFits s.totalBlocks
  apart : s.totalInodes = 0#32 ∨ s.totalBlocks = 0#32 ∨ s.inodeBitmapBlock ≠ s.blockBitmapBlock

/-- What mounting leaves of a bitmap: one block read over whatever the memory held. -/
def loaded (p : Ptr) (blocks : Nat) (junk : Bytes) (b : Block) : Option Buffer :=
  if blocks = 0 then none else some ⟨p, blocks * fsBlockSize, junk.splice 0 fsBlockSize b.bytes⟩

/-- The first block of the bitmap is in the buffer as the device has it. -/
def Mirrors (disk : BlockNum → Block) (start : BlockNum) (total : BitVec 32) (bitmap : Option Buffer) : Prop :=
  total ≠ 0#32 → ∃ b, bitmap = some b ∧ fsBlockSize ≤ b.size ∧ Block.ofBytes b.bytes = disk start

section
variable {disk : BlockNum → Block} {start n : BlockNum} {total : BitVec 32} {bitmap : Option Buffer}
  {w : World} {s : Superblock}

theorem bitmapBlocks_eq_zero : bitmapBlocks total = 0 ↔ total.toNat < 8 := by
  rw [bitmapBlocks, fsBlockSize]
  omega

theorem loaded_mirrors (fits : BitmapFits total) (p : Ptr) (junk : Bytes) :
    Mirrors disk start total (loaded p (bitmapBlocks total) junk (disk start)) := by
  intro some_
  obtain ⟨low, _⟩ := fits.resolve_left some_
  have taken : ¬ bitmapBlocks total = 0 := by
    rw [bitmapBlocks_eq_zero]
    omega
  refine ⟨_, if_neg taken, Nat.le_mul_of_pos_left _ (Nat.pos_of_ne_zero taken), ?_⟩
  refine Eq.trans (Block.ofBytes_congr fun i hi => ?_) (disk start).ofBytes_bytes
  have byte : junk.splice 0 fsBlockSize (disk start).bytes (0 + i) = (disk start).bytes i :=
    splice_inside junk (disk start).bytes hi
  rwa [Nat.zero_add] at byte

/-- Within one block nothing is left out. -/
theorem Mirrors.stored (mirrors : Mirrors disk start total bitmap) (fits : BitmapFits total) :
    BitmapStored disk start total bitmap := by
  intro i below
  have some_ : total ≠ 0#32 := by
    rintro rfl
    exact Nat.not_lt_zero i below
  obtain ⟨_, high⟩ := fits.resolve_left some_
  obtain ⟨b, same, size, bytes⟩ := mirrors some_
  rw [fsBlockSize] at size
  refine ⟨b, same, by omega, ?_⟩
  have first : start + BitVec.ofNat 32 (i / 32768) = start := by
    rw [Nat.div_eq_of_lt (by omega)]
    exact BitVec.add_zero start
  rw [first, Nat.mod_eq_of_lt (by omega)]
  exact testBit_congr (bytes_of_ofBytes (i := i / 8) bytes (by omega)).symm

/-- A bitmap that is stored whatever the memory held fits. -/
theorem fits_of_loaded (stored : ∀ junk, ∃ p,
    BitmapStored disk start total (loaded p (bitmapBlocks total) junk (disk start))) : BitmapFits total := by
  by_contra unfit
  obtain ⟨some_, out⟩ := not_or.mp unfit
  have positive : 0 < total.toNat := Nat.pos_of_ne_zero fun zero => some_ (BitVec.eq_of_toNat_eq zero)
  by_cases few : total.toNat < 8
  · obtain ⟨p, here⟩ := stored fun _ => 0#8
    obtain ⟨b, same, _⟩ := here 0 positive
    rw [loaded, if_pos (bitmapBlocks_eq_zero.mpr few)] at same
    cases same
  · have read : ∀ junk, testBit junk 32768 = testBit (disk (start + BitVec.ofNat 32 1)).bytes 0 := by
      intro junk
      obtain ⟨p, here⟩ := stored junk
      obtain ⟨b, same, _, bit⟩ := here 32768 (by omega)
      rw [loaded, if_neg (by rwa [bitmapBlocks_eq_zero])] at same
      obtain rfl := Option.some.inj same
      have out : 0 + fsBlockSize ≤ 32768 / 8 := by decide
      exact (testBit_congr (splice_outside junk (disk start).bytes (.inr out)).symm).trans bit
    have clear := read fun _ => 0#8
    have set := read fun _ => 0xFF#8
    rw [testBit_zero] at clear
    rw [← clear] at set
    exact absurd set (by decide)

/-! One bitmap is asked for, then one block of it is read. -/

theorem kmallocBitmap_run (healthy : Healthy w) (blocks : Nat) (junk : Bytes) :
    ∃ live, kmallocBitmap blocks junk w =
      (if blocks = 0 then none else some ⟨freshPtr w.live, blocks * fsBlockSize, junk⟩,
        { w with live := live }) := by
  have kmallocs := healthy.kmallocs
  have still : (fun i => w.kmallocFaults (i + 1)) = w.kmallocFaults := by rw [kmallocs]
  by_cases none_ : blocks = 0
  · refine ⟨w.live, ?_⟩
    rw [if_pos none_, kmallocBitmap, bind_apply, kmalloc, none_, Nat.zero_mul, if_pos (.inl rfl), still]
    rfl
  · have some_ : ¬ (blocks * fsBlockSize = 0 ∨ w.kmallocFaults 0) := by
      rw [kmallocs, fsBlockSize]
      simp [none_]
    refine ⟨freshPtr w.live :: w.live, ?_⟩
    rw [if_neg none_, kmallocBitmap, bind_apply, kmalloc, if_neg some_, still]
    rfl

theorem fillInodeBits_loads {p : Ptr} {blocks : Nat} {junk : Bytes} {b : Block}
    (bitmap : w.inodeBitmap = if blocks = 0 then none else some ⟨p, blocks * fsBlockSize, junk⟩) :
    ∃ misuse, (fillInodeBits fsBlockSize b.bytes w).2 =
      { w with inodeBitmap := loaded p blocks junk b, misuse := misuse } := by
  by_cases none_ : blocks = 0
  · rw [if_pos none_] at bitmap
    refine ⟨w.misuse ++ [.nullBitmap], ?_⟩
    simp only [fillInodeBits, bind_apply, inodeBits, bitmap, setInodeBits, loaded, if_pos none_, Option.map_none]
  · rw [if_neg none_] at bitmap
    refine ⟨w.misuse, ?_⟩
    simp only [fillInodeBits, bind_apply, inodeBits, bitmap, setInodeBits, loaded, if_neg none_, Option.map_some]

theorem fillBlockBits_loads {p : Ptr} {blocks : Nat} {junk : Bytes} {b : Block}
    (bitmap : w.blockBitmap = if blocks = 0 then none else some ⟨p, blocks * fsBlockSize, junk⟩) :
    ∃ misuse, (fillBlockBits fsBlockSize b.bytes w).2 =
      { w with blockBitmap := loaded p blocks junk b, misuse := misuse } := by
  by_cases none_ : blocks = 0
  · rw [if_pos none_] at bitmap
    refine ⟨w.misuse ++ [.nullBitmap], ?_⟩
    simp only [fillBlockBits, bind_apply, blockBits, bitmap, setBlockBits, loaded, if_pos none_, Option.map_none]
  · rw [if_neg none_] at bitmap
    refine ⟨w.misuse, ?_⟩
    simp only [fillBlockBits, bind_apply, blockBits, bitmap, setBlockBits, loaded, if_neg none_, Option.map_some]

/-- What `fs_init` leaves when it mounts. -/
structure Mounted (s : Superblock) (disk : BlockNum → Block) (inodeJunk blockJunk : Bytes) (w : World) : Prop where
  healthy : Healthy w
  same : w.disk = disk
  superblock : w.currentSuperblock = s
  inodes : ∃ p, w.inodeBitmap = loaded p (bitmapBlocks s.totalInodes) inodeJunk (disk s.inodeBitmapBlock)
  blocks : ∃ p, w.blockBitmap = loaded p (bitmapBlocks s.totalBlocks) blockJunk (disk s.blockBitmapBlock)

theorem readBlock_run (healthy : Healthy w) (n : BlockNum) : readBlock n w = ((0, w.disk n), w) := by
  have reads := healthy.reads
  have still : (fun i => w.readFaults (i + 1)) = w.readFaults := by rw [reads]
  have none_ : w.readFaults 0 = none := by rw [reads]
  rw [readBlock, none_, still]

theorem fsInit_mounted (healthy : Healthy w) (superblock : Superblock.ofBytes (w.disk 0#32).bytes = s)
    (magic : s.magic = fsMagic) (inodeJunk blockJunk : Bytes) :
    Mounted s w.disk inodeJunk blockJunk (fsInit inodeJunk blockJunk w).2 := by
  have run : (fsInit inodeJunk blockJunk w).2 = (mount (w.disk 0#32) inodeJunk blockJunk w).2 := by
    rw [fsInit, bind_apply, readBlock_run healthy]
    rfl
  rw [run, mount, superblock, bind_apply, setSuperblock, if_neg (not_not.mpr magic), bind_apply]
  have healthy1 : Healthy { w with currentSuperblock := s } := ⟨healthy.reads, healthy.writes, healthy.kmallocs⟩
  obtain ⟨live1, first⟩ := kmallocBitmap_run healthy1 (bitmapBlocks s.totalInodes) inodeJunk
  rw [first, bind_apply, setInodeBitmap, bind_apply]
  set ib := if bitmapBlocks s.totalInodes = 0 then none else some _ with ibEq
  have healthy2 : Healthy { w with currentSuperblock := s, live := live1, inodeBitmap := ib } :=
    ⟨healthy.reads, healthy.writes, healthy.kmallocs⟩
  obtain ⟨live2, second⟩ := kmallocBitmap_run healthy2 (bitmapBlocks s.totalBlocks) blockJunk
  rw [second, bind_apply, setBlockBitmap, bind_apply]
  set bb := if bitmapBlocks s.totalBlocks = 0 then none else some _ with bbEq
  set w3 : World := { w with currentSuperblock := s, live := live2, inodeBitmap := ib, blockBitmap := bb }
  have healthy3 : Healthy w3 := ⟨healthy.reads, healthy.writes, healthy.kmallocs⟩
  rw [readBlock_run healthy3]
  dsimp only
  have inodes : w3.inodeBitmap = _ := ibEq
  obtain ⟨misuse1, third⟩ := fillInodeBits_loads (b := w3.disk s.inodeBitmapBlock) inodes
  rw [bind_apply, third, bind_apply]
  set w4 : World := { w3 with inodeBitmap := _, misuse := misuse1 }
  have healthy4 : Healthy w4 := ⟨healthy.reads, healthy.writes, healthy.kmallocs⟩
  rw [readBlock_run healthy4]
  dsimp only
  have blocks : w4.blockBitmap = _ := bbEq
  obtain ⟨misuse2, fourth⟩ := fillBlockBits_loads (b := w4.disk s.blockBitmapBlock) blocks
  rw [fourth]
  exact ⟨⟨healthy.reads, healthy.writes, healthy.kmallocs⟩, rfl, rfl, ⟨_, rfl⟩, ⟨_, rfl⟩⟩

/-! What one allocator call does: at most one edit of one bitmap, written back in the same call. -/

/-- The bitmap now holds `f`, and so does the block it is written to. -/
structure BitmapEdited (disk disk' : BlockNum → Block) (start : BlockNum) (bitmap bitmap' : Option Buffer)
    (f : Bytes) : Prop where
  bitmap : bitmap' = bitmap.map fun b => { b with bytes := f }
  stored : disk' = Function.update disk start (Block.ofBytes f)

inductive BitmapStep (w w' : World) : Prop where
  | idle (disk : w'.disk = w.disk) (inodes : w'.inodeBitmap = w.inodeBitmap) (blocks : w'.blockBitmap = w.blockBitmap)
  | inodes (f : Bytes) (some_ : w.currentSuperblock.totalInodes ≠ 0#32)
      (edited : BitmapEdited w.disk w'.disk w.currentSuperblock.inodeBitmapBlock w.inodeBitmap w'.inodeBitmap f)
      (blocks : w'.blockBitmap = w.blockBitmap)
  | blocks (f : Bytes) (some_ : w.currentSuperblock.totalBlocks ≠ 0#32)
      (edited : BitmapEdited w.disk w'.disk w.currentSuperblock.blockBitmapBlock w.blockBitmap w'.blockBitmap f)
      (inodes : w'.inodeBitmap = w.inodeBitmap)

/-- Where the bitmaps are and how far they reach. -/
structure SamePlace (s s' : Superblock) : Prop where
  totalInodes : s'.totalInodes = s.totalInodes
  totalBlocks : s'.totalBlocks = s.totalBlocks
  inodes : s'.inodeBitmapBlock = s.inodeBitmapBlock
  blocks : s'.blockBitmapBlock = s.blockBitmapBlock

structure Steps (w w' : World) : Prop where
  healthy : Healthy w'
  place : SamePlace w.currentSuperblock w'.currentSuperblock
  change : BitmapStep w w'

theorem Steps.rfl (healthy : Healthy w) : Steps w w :=
  ⟨healthy, ⟨by rfl, by rfl, by rfl, by rfl⟩, .idle (by rfl) (by rfl) (by rfl)⟩

theorem inodeBits_run (w : World) : ∃ misuse, (inodeBits w).2 = { w with misuse := misuse } := by
  rw [inodeBits]
  split
  · exact ⟨w.misuse, rfl⟩
  · exact ⟨_, rfl⟩

theorem blockBits_run (w : World) : ∃ misuse, (blockBits w).2 = { w with misuse := misuse } := by
  rw [blockBits]
  split
  · exact ⟨w.misuse, rfl⟩
  · exact ⟨_, rfl⟩

/-- The close of a call that edited the inode bitmap. -/
theorem steps_inodes (healthy : Healthy w) (some_ : w.currentSuperblock.totalInodes ≠ 0#32) (misuse : List Misuse)
    (free : BitVec 32) (f : Bytes) :
    Steps w (writeBlock w.currentSuperblock.inodeBitmapBlock (Block.ofBytes f) { w with
      misuse := misuse, currentSuperblock := { w.currentSuperblock with freeInodes := free },
      inodeBitmap := w.inodeBitmap.map fun b => { b with bytes := f } }).2 := by
  rw [writeBlock_run]
  · exact ⟨⟨healthy.reads, healthy.writes, healthy.kmallocs⟩, ⟨rfl, rfl, rfl, rfl⟩,
      .inodes f some_ ⟨rfl, rfl⟩ rfl⟩
  · exact ⟨healthy.reads, healthy.writes, healthy.kmallocs⟩

theorem steps_blocks (healthy : Healthy w) (some_ : w.currentSuperblock.totalBlocks ≠ 0#32) (misuse : List Misuse)
    (free : BitVec 32) (f : Bytes) :
    Steps w (writeBlock w.currentSuperblock.blockBitmapBlock (Block.ofBytes f) { w with
      misuse := misuse, currentSuperblock := { w.currentSuperblock with freeBlocks := free },
      blockBitmap := w.blockBitmap.map fun b => { b with bytes := f } }).2 := by
  rw [writeBlock_run]
  · exact ⟨⟨healthy.reads, healthy.writes, healthy.kmallocs⟩, ⟨rfl, rfl, rfl, rfl⟩,
      .blocks f some_ ⟨rfl, rfl⟩ rfl⟩
  · exact ⟨healthy.reads, healthy.writes, healthy.kmallocs⟩

theorem ne_zero_of_valid {id total : BitVec 32} (valid : ¬ (id = 0#32 ∨ total < id)) : total ≠ 0#32 := by
  rintro rfl
  rw [not_or, BitVec.not_lt] at valid
  exact valid.1 (BitVec.le_zero_iff.mp valid.2)

theorem steps_freeInode (healthy : Healthy w) (id : BitVec 32) : Steps w (Fs.freeInode id w).2 := by
  rw [Fs.freeInode, bind_apply, superblock]
  dsimp only
  by_cases invalid : id = 0#32 ∨ w.currentSuperblock.totalInodes < id
  · rw [if_pos invalid]
    exact .rfl healthy
  · obtain ⟨misuse, bits⟩ := inodeBits_run w
    rw [if_neg invalid, bind_apply, bits]
    exact steps_inodes healthy (ne_zero_of_valid invalid) misuse _ _

theorem steps_freeBlock (healthy : Healthy w) (n : BlockNum) : Steps w (Fs.freeBlock n w).2 := by
  rw [Fs.freeBlock, bind_apply, superblock]
  dsimp only
  by_cases invalid : n = 0#32 ∨ w.currentSuperblock.totalBlocks < n
  · rw [if_pos invalid]
    exact .rfl healthy
  · obtain ⟨misuse, bits⟩ := blockBits_run w
    rw [if_neg invalid, bind_apply, bits]
    exact steps_blocks healthy (ne_zero_of_valid invalid) misuse _ _

theorem steps_allocateInode (healthy : Healthy w) : Steps w (Fs.allocateInode w).2 := by
  rw [Fs.allocateInode, bind_apply, superblock]
  dsimp only
  by_cases none_ : w.currentSuperblock.totalInodes = 0#32
  · rw [if_pos none_]
    exact .rfl healthy
  · obtain ⟨misuse, bits⟩ := inodeBits_run w
    rw [if_neg none_, bind_apply, bits]
    cases firstClear (inodeBits w).1 w.currentSuperblock.totalInodes.toNat with
    | none =>
        exact ⟨⟨healthy.reads, healthy.writes, healthy.kmallocs⟩, ⟨rfl, rfl, rfl, rfl⟩, .idle rfl rfl rfl⟩
    | some i =>
        exact steps_inodes healthy none_ misuse _ _

theorem steps_allocateBlock (healthy : Healthy w) : Steps w (Fs.allocateBlock w).2 := by
  rw [Fs.allocateBlock, bind_apply, superblock]
  dsimp only
  by_cases none_ : w.currentSuperblock.totalBlocks = 0#32
  · rw [if_pos none_]
    exact .rfl healthy
  · obtain ⟨misuse, bits⟩ := blockBits_run w
    rw [if_neg none_, bind_apply, bits]
    cases firstClear (blockBits w).1 w.currentSuperblock.totalBlocks.toNat with
    | none =>
        exact ⟨⟨healthy.reads, healthy.writes, healthy.kmallocs⟩, ⟨rfl, rfl, rfl, rfl⟩, .idle rfl rfl rfl⟩
    | some i =>
        exact steps_blocks healthy none_ misuse _ _

theorem steps_after (healthy : Healthy w) (op : BitmapOp) : Steps w (op.after w) := by
  cases op with
  | allocateInode => exact steps_allocateInode healthy
  | freeInode id => exact steps_freeInode healthy id
  | allocateBlock => exact steps_allocateBlock healthy
  | freeBlock n => exact steps_freeBlock healthy n

/-! An edit is mirrored on the device, and leaves the other bitmap alone. -/

theorem Mirrors.edited {disk' : BlockNum → Block} {bitmap' : Option Buffer} {f : Bytes}
    (mirrors : Mirrors disk start total bitmap) (edited : BitmapEdited disk disk' start bitmap bitmap' f) :
    Mirrors disk' start total bitmap' := by
  intro some_
  obtain ⟨b, same, size, _⟩ := mirrors some_
  refine ⟨{ b with bytes := f }, ?_, size, ?_⟩
  · rw [edited.bitmap, same, Option.map_some]
  · rw [edited.stored, Function.update_self]

theorem Mirrors.kept {disk' : BlockNum → Block} {bitmap' : Option Buffer}
    (mirrors : Mirrors disk start total bitmap) (stored : total ≠ 0#32 → disk' start = disk start)
    (same : bitmap' = bitmap) : Mirrors disk' start total bitmap' := by
  intro some_
  rw [same, stored some_]
  exact mirrors some_

/-- What mounting establishes and every call keeps. -/
structure Mirrored (s : Superblock) (w : World) : Prop where
  healthy : Healthy w
  place : SamePlace s w.currentSuperblock
  inodes : Mirrors w.disk s.inodeBitmapBlock s.totalInodes w.inodeBitmap
  blocks : Mirrors w.disk s.blockBitmapBlock s.totalBlocks w.blockBitmap

theorem SamePlace.trans {s s' s'' : Superblock} (first : SamePlace s s') (second : SamePlace s' s'') :
    SamePlace s s'' where
  totalInodes := second.totalInodes.trans first.totalInodes
  totalBlocks := second.totalBlocks.trans first.totalBlocks
  inodes := second.inodes.trans first.inodes
  blocks := second.blocks.trans first.blocks

theorem mirrored_step (fit : BitmapsFit s) (mirrored : Mirrored s w) (op : BitmapOp) :
    Mirrored s (op.after w) := by
  obtain ⟨healthy, place, change⟩ := steps_after mirrored.healthy op
  refine ⟨healthy, mirrored.place.trans place, ?_, ?_⟩
  · cases change with
    | idle disk inodes blocks => exact mirrored.inodes.kept (fun _ => by rw [disk]) inodes
    | inodes f some_ edited blocks =>
        rw [mirrored.place.inodes] at edited
        exact mirrored.inodes.edited edited
    | blocks f some_ edited inodes =>
        rw [mirrored.place.totalBlocks] at some_
        rw [mirrored.place.blocks] at edited
        refine mirrored.inodes.kept (fun taken => ?_) inodes
        have apart := (fit.apart.resolve_left taken).resolve_left some_
        rw [edited.stored, Function.update_of_ne apart]
  · cases change with
    | idle disk inodes blocks => exact mirrored.blocks.kept (fun _ => by rw [disk]) blocks
    | inodes f some_ edited blocks =>
        rw [mirrored.place.totalInodes] at some_
        rw [mirrored.place.inodes] at edited
        refine mirrored.blocks.kept (fun taken => ?_) blocks
        have apart := (fit.apart.resolve_left some_).resolve_left taken
        rw [edited.stored, Function.update_of_ne apart.symm]
    | blocks f some_ edited inodes =>
        rw [mirrored.place.blocks] at edited
        exact mirrored.blocks.edited edited

theorem Mirrored.stored (fit : BitmapsFit s) (mirrored : Mirrored s w) : BitmapsStored w := by
  refine ⟨?_, ?_⟩
  · rw [mirrored.place.inodes, mirrored.place.totalInodes]
    exact mirrored.inodes.stored fit.inodes
  · rw [mirrored.place.blocks, mirrored.place.totalBlocks]
    exact mirrored.blocks.stored fit.blocks

theorem mountsFully_of_fit (magic : s.magic = fsMagic) (fit : BitmapsFit s) : MountsFully s := by
  intro w healthy superblock inodeJunk blockJunk ops
  have mounted := fsInit_mounted healthy superblock magic inodeJunk blockJunk
  obtain ⟨p, inodes⟩ := mounted.inodes
  obtain ⟨q, blocks⟩ := mounted.blocks
  have mirrored : Mirrored s (fsInit inodeJunk blockJunk w).2 := by
    refine ⟨mounted.healthy, ?_, ?_, ?_⟩
    · rw [mounted.superblock]
      exact ⟨rfl, rfl, rfl, rfl⟩
    · rw [inodes, mounted.same]
      exact loaded_mirrors fit.inodes p inodeJunk
    · rw [blocks, mounted.same]
      exact loaded_mirrors fit.blocks q blockJunk
  have always : Always BitmapOp.after (Mirrored s) (fsInit inodeJunk blockJunk w).2 ops :=
    always_of_admitted (fun _ op kept _ => mirrored_step fit kept op) mirrored admitted_true
  exact always.mono fun _ kept => kept.stored fit

/-! Conversely a mount that keeps its bitmaps stored needs both to fit and to lie apart. -/

/-- Every block holds the superblock. -/
def stampedDisk (s : Superblock) : BlockNum → Block := fun _ => Block.ofBytes s.bytes

theorem stamped_superblock (s : Superblock) (n : BlockNum) : Superblock.ofBytes (stampedDisk s n).bytes = s := by
  refine (Superblock.ofBytes_congr fun i small => ?_).trans s.ofBytes_bytes
  refine Block.bytes_ofBytes s.bytes ?_
  rw [superblockSize] at small
  omega

theorem stamped_mounted (magic : s.magic = fsMagic) (inodeJunk blockJunk : Bytes) :
    Mounted s (stampedDisk s) inodeJunk blockJunk (fsInit inodeJunk blockJunk (bootWorld (stampedDisk s) [])).2 :=
  fsInit_mounted (w := bootWorld (stampedDisk s) []) ⟨rfl, rfl, rfl⟩ (stamped_superblock s 0#32) magic inodeJunk
    blockJunk

theorem MountsFully.stamped (fully : MountsFully s) (inodeJunk blockJunk : Bytes) (ops : List BitmapOp) :
    Always BitmapOp.after BitmapsStored (fsInit inodeJunk blockJunk (bootWorld (stampedDisk s) [])).2 ops :=
  fully (bootWorld (stampedDisk s) []) ⟨rfl, rfl, rfl⟩ (stamped_superblock s 0#32) inodeJunk blockJunk ops

theorem inodes_fit (magic : s.magic = fsMagic) (fully : MountsFully s) : BitmapFits s.totalInodes := by
  refine @fits_of_loaded (stampedDisk s) s.inodeBitmapBlock _ fun junk => ?_
  have mounted := stamped_mounted magic junk junk
  obtain ⟨p, loads⟩ := mounted.inodes
  have stored := (fully.stamped junk junk []).first.inodes
  rw [mounted.same, mounted.superblock, loads] at stored
  exact ⟨p, stored⟩

theorem blocks_fit (magic : s.magic = fsMagic) (fully : MountsFully s) : BitmapFits s.totalBlocks := by
  refine @fits_of_loaded (stampedDisk s) s.blockBitmapBlock _ fun junk => ?_
  have mounted := stamped_mounted magic junk junk
  obtain ⟨p, loads⟩ := mounted.blocks
  have stored := (fully.stamped junk junk []).first.blocks
  rw [mounted.same, mounted.superblock, loads] at stored
  exact ⟨p, stored⟩

theorem writeBlock_bitmaps (n : BlockNum) (b : Block) (w : World) :
    (writeBlock n b w).2.inodeBitmap = w.inodeBitmap ∧ (writeBlock n b w).2.blockBitmap = w.blockBitmap := by
  rw [writeBlock]
  split
  · exact ⟨rfl, rfl⟩
  · exact ⟨rfl, rfl⟩

theorem freeInode_first (some_ : w.currentSuperblock.totalInodes ≠ 0#32) {b : Buffer}
    (bitmap : w.inodeBitmap = some b) :
    (Fs.freeInode 1#32 w).2.inodeBitmap = some { b with bytes := clearBit b.bytes 0 } ∧
      (Fs.freeInode 1#32 w).2.blockBitmap = w.blockBitmap := by
  have valid : ¬ (1#32 = 0#32 ∨ w.currentSuperblock.totalInodes < 1#32) := by
    rintro (one | below)
    · exact absurd one (by decide)
    · have low : w.currentSuperblock.totalInodes.toNat < 1 := below
      exact some_ (BitVec.eq_of_toNat_eq (Nat.lt_one_iff.mp low))
  rw [Fs.freeInode, bind_apply, superblock]
  dsimp only
  rw [if_neg valid, bind_apply, inodeBits, bitmap]
  obtain ⟨inodes, blocks⟩ := writeBlock_bitmaps w.currentSuperblock.inodeBitmapBlock
    (Block.ofBytes (clearBit b.bytes 0)) { w with
      currentSuperblock := { w.currentSuperblock with freeInodes := w.currentSuperblock.freeInodes + 1 }
      inodeBitmap := w.inodeBitmap.map fun b' => { b' with bytes := clearBit b.bytes 0 } }
  refine ⟨inodes.trans ?_, blocks⟩
  rw [bitmap]
  rfl

theorem allocateInode_first (some_ : w.currentSuperblock.totalInodes ≠ 0#32) {b : Buffer}
    (bitmap : w.inodeBitmap = some b) (clear : testBit b.bytes 0 = false) :
    (Fs.allocateInode w).2.inodeBitmap = some { b with bytes := setBit b.bytes 0 } ∧
      (Fs.allocateInode w).2.blockBitmap = w.blockBitmap := by
  have positive : 0 < w.currentSuperblock.totalInodes.toNat :=
    Nat.pos_of_ne_zero fun zero => some_ (BitVec.eq_of_toNat_eq zero)
  have first : firstClear b.bytes w.currentSuperblock.totalInodes.toNat = some 0 :=
    firstClear_eq_some.mpr ⟨positive, clear, fun j below => absurd below (Nat.not_lt_zero j)⟩
  rw [Fs.allocateInode, bind_apply, superblock]
  dsimp only
  rw [if_neg some_, bind_apply, inodeBits, bitmap]
  dsimp only
  rw [first]
  obtain ⟨inodes, blocks⟩ := writeBlock_bitmaps w.currentSuperblock.inodeBitmapBlock
    (Block.ofBytes (setBit b.bytes 0)) { w with
      currentSuperblock := { w.currentSuperblock with freeInodes := w.currentSuperblock.freeInodes - 1 }
      inodeBitmap := w.inodeBitmap.map fun b' => { b' with bytes := setBit b.bytes 0 } }
  refine ⟨inodes.trans ?_, blocks⟩
  rw [bitmap]
  rfl

/-- The bit of the first inode changes in one call, which leaves the block bitmap alone. -/
theorem first_inode_toggles (some_ : w.currentSuperblock.totalInodes ≠ 0#32) {b : Buffer}
    (bitmap : w.inodeBitmap = some b) :
    ∃ op f, (BitmapOp.after w op).inodeBitmap = some { b with bytes := f } ∧
      testBit f 0 = !testBit b.bytes 0 ∧ (BitmapOp.after w op).blockBitmap = w.blockBitmap := by
  cases set : testBit b.bytes 0 with
  | false =>
      obtain ⟨inodes, blocks⟩ := allocateInode_first some_ bitmap set
      refine ⟨.allocateInode, setBit b.bytes 0, inodes, ?_, blocks⟩
      rw [testBit_setBit]
      rfl
  | true =>
      obtain ⟨inodes, blocks⟩ := freeInode_first some_ bitmap
      refine ⟨.freeInode 1#32, clearBit b.bytes 0, inodes, ?_, blocks⟩
      rw [testBit_clearBit]
      rfl

/-- In one block the two bitmaps agree on their first bit. -/
theorem first_bits_agree (stored : BitmapsStored w) (place : SamePlace s w.currentSuperblock)
    (someInodes : s.totalInodes ≠ 0#32) (someBlocks : s.totalBlocks ≠ 0#32)
    (together : s.inodeBitmapBlock = s.blockBitmapBlock) :
    ∃ ib bb, w.inodeBitmap = some ib ∧ w.blockBitmap = some bb ∧ testBit ib.bytes 0 = testBit bb.bytes 0 := by
  have positive {total : BitVec 32} (some_ : total ≠ 0#32) : 0 < total.toNat :=
    Nat.pos_of_ne_zero fun zero => some_ (BitVec.eq_of_toNat_eq zero)
  obtain ⟨inodes, blocks⟩ := stored
  rw [place.inodes, place.totalInodes] at inodes
  rw [place.blocks, place.totalBlocks, ← together] at blocks
  obtain ⟨ib, inodeBitmap, _, inodeBit⟩ := inodes 0 (positive someInodes)
  obtain ⟨bb, blockBitmap, _, blockBit⟩ := blocks 0 (positive someBlocks)
  exact ⟨ib, bb, inodeBitmap, blockBitmap, inodeBit.trans blockBit.symm⟩

theorem bitmaps_apart (magic : s.magic = fsMagic) (fully : MountsFully s) :
    s.totalInodes = 0#32 ∨ s.totalBlocks = 0#32 ∨ s.inodeBitmapBlock ≠ s.blockBitmapBlock := by
  by_contra together
  simp only [not_or, not_not] at together
  obtain ⟨someInodes, someBlocks, same⟩ := together
  have mounted := stamped_mounted magic (fun _ => 0#8) fun _ => 0#8
  have always := fully.stamped (fun _ => 0#8) fun _ => 0#8
  generalize (fsInit (fun _ => 0#8) (fun _ => 0#8) (bootWorld (stampedDisk s) [])).2 = w at mounted always
  have place : SamePlace s w.currentSuperblock := by
    rw [mounted.superblock]
    exact ⟨rfl, rfl, rfl, rfl⟩
  obtain ⟨ib, bb, inodeBitmap, blockBitmap, before⟩ :=
    first_bits_agree (always []).first place someInodes someBlocks same
  have some_ : w.currentSuperblock.totalInodes ≠ 0#32 := by rwa [place.totalInodes]
  obtain ⟨op, f, inodeBitmap', toggled, blockBitmap'⟩ := first_inode_toggles some_ inodeBitmap
  obtain ⟨ib', bb', inodes', blocks', after⟩ := first_bits_agree (always [op]).last
    (place.trans (steps_after mounted.healthy op).place) someInodes someBlocks same
  obtain rfl := Option.some.inj (inodeBitmap'.symm.trans inodes')
  obtain rfl := Option.some.inj (blockBitmap.symm.trans (blockBitmap'.symm.trans blocks'))
  rw [toggled, before] at after
  exact absurd after (Bool.not_ne_self _)

/-- Exactly the volumes whose bitmaps are whole bytes in one block each, and not the same
block, are mounted in full. -/
theorem mounted_bitmaps_iff (magic : s.magic = fsMagic) : MountsFully s ↔ BitmapsFit s :=
  ⟨fun fully => ⟨inodes_fit magic fully, blocks_fit magic fully, bitmaps_apart magic fully⟩,
    mountsFully_of_fit magic⟩

end

/-- The volume `fs_init` formats is one of them. -/
theorem mounted_bitmaps_iff_default : MountsFully formatSuperblock :=
  (mounted_bitmaps_iff rfl).mpr ⟨.inr (by decide), .inr (by decide), by decide⟩

/-- A volume of twice the blocks one bitmap block describes. -/
def largeSuperblock : Superblock := { formatSuperblock with totalBlocks := 65536#32 }

theorem large_bitmap_partly_loaded : largeSuperblock.magic = fsMagic ∧ ¬ MountsFully largeSuperblock := by
  refine ⟨rfl, fun fully => ?_⟩
  obtain none_ | ⟨_, high⟩ := blocks_fit rfl fully
  · exact absurd none_ (by decide)
  · exact absurd high (by decide)

end AstralOS.Fs
