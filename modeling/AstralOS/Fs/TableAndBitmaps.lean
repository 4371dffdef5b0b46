import AstralOS.Foundation.BitSets
import AstralOS.Fs.Ownership

/-! The inode table as a map from numbers to records, and the bitmaps as sets of numbers. -/
namespace AstralOS.Fs
open Foundation

/-- The formatted layout, with both bitmaps in memory and a device and a heap that do not fail. -/
structure Ready (w : World) : Prop where
  healthy : Healthy w
  layout : Formatted w.currentSuperblock
  inodeBitmap : ∃ b, w.inodeBitmap = some b
  blockBitmap : ∃ b, w.blockBitmap = some b

/-- What `get_inode` returns for a number, without the pointer. -/
def record (w : World) (id : BitVec 32) : Option Inode := (getInode id w).1.map Prod.snd

/-- `write_inode` updates the map that `get_inode` looks up, and writes one block of the table. -/
structure ActsAsMap (w : World) : Prop where
  defined : ∀ j : BitVec 32, (record w j).isSome ↔ j.toNat ∈ Set.Icc 1 w.currentSuperblock.totalInodes.toNat
  update : ∀ i : BitVec 32, i.toNat ∈ Set.Icc 1 w.currentSuperblock.totalInodes.toNat → ∀ v,
    record (writeInode i v w).2 = Function.update (record w) i (some v)
  oneBlock : ∀ i : BitVec 32, i.toNat ∈ Set.Icc 1 w.currentSuperblock.totalInodes.toNat → ∀ v, ∃ n b,
    w.currentSuperblock.inodeTableStartBlock ≤ n ∧ n < w.currentSuperblock.dataStartBlock ∧
      (writeInode i v w).2.issued = w.issued ++ [(n, b)] ∧
      (writeInode i v w).2.disk = Function.update w.disk n b

/-- A bitmap with the functions and the counter that go with it. -/
structure Bitmap where
  allocate : Fs (BitVec 32)
  free : BitVec 32 → Fs Unit
  bits : World → Bytes
  counter : World → BitVec 32
  total : World → BitVec 32

namespace Bitmap

def inodes : Bitmap where
  allocate := allocateInode
  free := freeInode
  bits w := (inodeBits w).1
  counter w := w.currentSuperblock.freeInodes
  total w := w.currentSuperblock.totalInodes

def blocks : Bitmap where
  allocate := allocateBlock
  free := freeBlock
  bits w := (blockBits w).1
  counter w := w.currentSuperblock.freeBlocks
  total w := w.currentSuperblock.totalBlocks

/-- The numbers there are. -/
def numbers (m : Bitmap) (w : World) : Set Nat := Set.Icc 1 (m.total w).toNat

/-- The numbers whose bits are set. -/
def used (m : Bitmap) (w : World) : Set Nat := bitSet (m.bits w) (m.total w).toNat

/-- Allocation takes the least unused number if there is one, and freeing gives one back. -/
structure ActsOnSet (m : Bitmap) (w : World) : Prop where
  least : m.used w ≠ m.numbers w → IsLeast (m.numbers w \ m.used w) (m.allocate w).1.toNat
  inserted : m.used w ≠ m.numbers w → m.used (m.allocate w).2 = insert (m.allocate w).1.toNat (m.used w)
  full : (m.allocate w).1 = 0#32 ∧ m.used (m.allocate w).2 = m.used w ↔ m.used w = m.numbers w
  removed : ∀ n : BitVec 32, m.used (m.free n w).2 = m.used w \ {n.toNat}
  restored : m.used (m.free (m.allocate w).1 (m.allocate w).2).2 = m.used w ∧
    m.counter (m.free (m.allocate w).1 (m.allocate w).2).2 = m.counter w

/-- A call replaces the bits and the counter, and what is ready stays ready. -/
structure Moves (m : Bitmap) (w w' : World) (f : Bytes) (c : BitVec 32) : Prop where
  ready : Ready w'
  bits : m.bits w' = f
  counter : m.counter w' = c
  total : m.total w' = m.total w

/-- What the two functions of a bitmap do to its bits and its counter. -/
structure Served (m : Bitmap) : Prop where
  exhausted : ∀ {w}, Ready w → firstClear (m.bits w) (m.total w).toNat = none → m.allocate w = (0#32, w)
  taken : ∀ {w i}, Ready w → firstClear (m.bits w) (m.total w).toNat = some i →
    (m.allocate w).1 = BitVec.ofNat 32 (i + 1) ∧
      m.Moves w (m.allocate w).2 (setBit (m.bits w) i) (m.counter w - 1)
  freed : ∀ {w} {n : BitVec 32}, Ready w → n.toNat ∈ m.numbers w →
    m.Moves w (m.free n w).2 (clearBit (m.bits w) (n.toNat - 1)) (m.counter w + 1)
  outside : ∀ {w} {n : BitVec 32}, Ready w → n.toNat ∉ m.numbers w → (m.free n w).2 = w

end Bitmap

section
variable {w : World} {v : Volume} {l : List Ptr} {id n : BitVec 32} {i : Nat}

theorem Shows.ready (shows_ : Shows v l w) : Ready w := by
  obtain ⟨ib, inodeBitmap, _⟩ := shows_.inodeBits
  obtain ⟨bb, blockBitmap, _⟩ := shows_.blockBits
  exact ⟨shows_.healthy, shows_.layout, ⟨ib, inodeBitmap⟩, ⟨bb, blockBitmap⟩⟩

/-- What `fs_init` leaves is ready, and so is every world after calls on inodes in use. -/
theorem Settled.ready (settled : Settled w) : Ready w := by
  obtain ⟨v, l, live, shows_, _⟩ := settled
  exact shows_.ready

/-- A world that is ready shows the volume that its device and its bitmaps hold. -/
theorem Ready.shows (ready : Ready w) :
    Shows ⟨w.disk, Block.ofBytes (inodeBits w).1, Block.ofBytes (blockBits w).1⟩ w.live w := by
  obtain ⟨ib, inodeBitmap⟩ := ready.inodeBitmap
  obtain ⟨bb, blockBitmap⟩ := ready.blockBitmap
  refine ⟨ready.healthy, ready.layout, rfl, ⟨ib, inodeBitmap, ?_⟩, ⟨bb, blockBitmap, ?_⟩, rfl⟩
  · rw [inodeBits, inodeBitmap]
  · rw [blockBits, blockBitmap]

/-! The table. -/

theorem Shows.record (shows_ : Shows v l w) (valid : ValidId id) : record w id = some (v.inode id) := by
  rw [AstralOS.Fs.record, (does_getInode id (validId_iff.mp valid) w shows_).1]
  rfl

theorem Shows.record_invalid (shows_ : Shows v l w) (invalid : ¬ ValidId id) : AstralOS.Fs.record w id = none := by
  rw [AstralOS.Fs.record, (does_getInode_invalid id (not_not.mp (validId_iff.not.mp invalid)) w shows_).1]
  rfl

theorem Shows.valid_iff (shows_ : Shows v l w) :
    id.toNat ∈ Set.Icc 1 w.currentSuperblock.totalInodes.toNat ↔ ValidId id := by
  rw [shows_.layout.totalInodes]
  exact Iff.rfl

theorem Shows.actsAsMap (shows_ : Shows v l w) : ActsAsMap w where
  defined := by
    intro j
    rw [shows_.valid_iff]
    constructor
    · intro some_
      by_contra invalid
      rw [shows_.record_invalid invalid] at some_
      cases some_
    · intro valid
      rw [shows_.record valid]
      rfl
  update := by
    intro i inside r
    have valid := shows_.valid_iff.mp inside
    obtain ⟨_, after, _⟩ := does_writeInode i (validId_iff.mp valid) r w shows_
    funext j
    by_cases same : j = i
    · subst same
      rw [Function.update_self, after.record valid]
      exact congrArg some (Volume.inode_inode_same valid)
    · rw [Function.update_of_ne same]
      by_cases validOther : ValidId j
      · rw [after.record validOther, shows_.record validOther]
        exact congrArg some (Volume.inode_inode_other valid validOther (Ne.symm same))
      · rw [after.record_invalid validOther, shows_.record_invalid validOther]
  oneBlock := by
    intro i inside r
    have valid := shows_.valid_iff.mp inside
    obtain ⟨_, after, issued, _⟩ := does_writeInode i (validId_iff.mp valid) r w shows_
    obtain ⟨low, high⟩ := tableBlock_range valid
    refine ⟨tableBlock i, (v.disk (tableBlock i)).patch (inodeOffset i) inodeSize r.bytes, ?_, ?_, issued, ?_⟩
    · rw [shows_.layout.inodeTableStartBlock]
      exact low
    · rw [shows_.layout.dataStartBlock]
      exact Nat.lt_succ_of_le high
    · rw [after.disk, shows_.disk]
      rfl

/-! The bitmaps. -/

theorem Ready.inodeBits_run (ready : Ready w) : inodeBits w = ((inodeBits w).1, w) := by
  obtain ⟨b, bitmap⟩ := ready.inodeBitmap
  rw [inodeBits, bitmap]

theorem Ready.blockBits_run (ready : Ready w) : blockBits w = ((blockBits w).1, w) := by
  obtain ⟨b, bitmap⟩ := ready.blockBitmap
  rw [blockBits, bitmap]

/-- A number in range is one that `free_inode` and `free_block` do not turn away. -/
theorem inside_iff {total n : BitVec 32} : n.toNat ∈ Set.Icc 1 total.toNat ↔ ¬ (n = 0#32 ∨ total < n) := by
  have zero : n = 0#32 ↔ n.toNat = 0 := BitVec.toNat_inj.symm
  rw [Set.mem_Icc, not_or, BitVec.not_lt, BitVec.le_def, zero]
  omega

/-- The numbers from 1 on are stored from bit 0 on. -/
theorem inside_pred {total n : BitVec 32} (inside : n.toNat ∈ Set.Icc 1 total.toNat) :
    (n - 1#32).toNat = n.toNat - 1 := by
  have := inside.1
  bv_omega

theorem total_ne_zero {total : BitVec 32} {f : Bytes} (found : firstClear f total.toNat = some i) : total ≠ 0#32 := by
  rintro rfl
  have below := (firstClear_eq_some.mp found).1
  exact absurd below (Nat.not_lt_zero i)

/-- The bits of the inodes and their counter changed, and the bitmap written through. -/
theorem inodes_moves (ready : Ready w) (f : Bytes) (c : BitVec 32) :
    Bitmap.inodes.Moves w (writeBlock w.currentSuperblock.inodeBitmapBlock (Block.ofBytes f) { w with
      inodeBitmap := w.inodeBitmap.map fun b => { b with bytes := f }
      currentSuperblock := { w.currentSuperblock with freeInodes := c } }).2 f c := by
  obtain ⟨b, bitmap⟩ := ready.inodeBitmap
  obtain ⟨reads, writes, kmallocs⟩ := ready.healthy
  have layout := ready.layout
  simp only [writeBlock, writes, Bool.false_eq_true, if_false]
  refine ⟨⟨⟨reads, rfl, kmallocs⟩, ?_, ⟨⟨b.ptr, b.size, f⟩, ?_⟩, ready.blockBitmap⟩, ?_, rfl, rfl⟩
  · exact ⟨layout.magic, layout.totalBlocks, layout.totalInodes, layout.inodeBitmapBlock, layout.blockBitmapBlock,
      layout.inodeTableStartBlock, layout.dataStartBlock⟩
  · exact congrArg (Option.map _) bitmap
  · change (inodeBits _).1 = f
    simp only [inodeBits, bitmap, Option.map_some]

/-- The bits of the blocks and their counter changed, and the bitmap written through. -/
theorem blocks_moves (ready : Ready w) (f : Bytes) (c : BitVec 32) :
    Bitmap.blocks.Moves w (writeBlock w.currentSuperblock.blockBitmapBlock (Block.ofBytes f) { w with
      blockBitmap := w.blockBitmap.map fun b => { b with bytes := f }
      currentSuperblock := { w.currentSuperblock with freeBlocks := c } }).2 f c := by
  obtain ⟨b, bitmap⟩ := ready.blockBitmap
  obtain ⟨reads, writes, kmallocs⟩ := ready.healthy
  have layout := ready.layout
  simp only [writeBlock, writes, Bool.false_eq_true, if_false]
  refine ⟨⟨⟨reads, rfl, kmallocs⟩, ?_, ready.inodeBitmap, ⟨⟨b.ptr, b.size, f⟩, ?_⟩⟩, ?_, rfl, rfl⟩
  · exact ⟨layout.magic, layout.totalBlocks, layout.totalInodes, layout.inodeBitmapBlock, layout.blockBitmapBlock,
      layout.inodeTableStartBlock, layout.dataStartBlock⟩
  · exact congrArg (Option.map _) bitmap
  · change (blockBits _).1 = f
    simp only [blockBits, bitmap, Option.map_some]

theorem inodes_served : Bitmap.inodes.Served where
  exhausted := by
    intro w ready full
    change allocateInode w = _
    change firstClear (inodeBits w).1 w.currentSuperblock.totalInodes.toNat = none at full
    rw [allocateInode, bind_apply, superblock]
    dsimp only
    by_cases none_ : w.currentSuperblock.totalInodes = 0#32
    · rw [if_pos none_]
      rfl
    rw [if_neg none_, bind_apply, ready.inodeBits_run]
    dsimp only
    rw [full]
    rfl
  taken := by
    intro w i ready found
    change (allocateInode w).1 = _ ∧ Bitmap.inodes.Moves w (allocateInode w).2 _ _
    change firstClear (inodeBits w).1 w.currentSuperblock.totalInodes.toNat = some i at found
    rw [allocateInode, bind_apply, superblock]
    dsimp only
    rw [if_neg (total_ne_zero found), bind_apply, ready.inodeBits_run]
    dsimp only
    rw [found]
    exact ⟨rfl, inodes_moves ready _ _⟩
  freed := by
    intro w n ready inside
    change n.toNat ∈ Set.Icc 1 w.currentSuperblock.totalInodes.toNat at inside
    change Bitmap.inodes.Moves w (freeInode n w).2 _ _
    rw [freeInode, bind_apply, superblock]
    dsimp only
    rw [if_neg (inside_iff.mp inside), bind_apply, ready.inodeBits_run, inside_pred inside]
    exact inodes_moves ready _ _
  outside := by
    intro w n ready out
    change n.toNat ∉ Set.Icc 1 w.currentSuperblock.totalInodes.toNat at out
    change (freeInode n w).2 = w
    rw [freeInode, bind_apply, superblock]
    dsimp only
    rw [if_pos (not_not.mp (inside_iff.not.mp out))]
    rfl

theorem blocks_served : Bitmap.blocks.Served where
  exhausted := by
    intro w ready full
    change allocateBlock w = _
    change firstClear (blockBits w).1 w.currentSuperblock.totalBlocks.toNat = none at full
    rw [allocateBlock, bind_apply, superblock]
    dsimp only
    by_cases none_ : w.currentSuperblock.totalBlocks = 0#32
    · rw [if_pos none_]
      rfl
    rw [if_neg none_, bind_apply, ready.blockBits_run]
    dsimp only
    rw [full]
    rfl
  taken := by
    intro w i ready found
    change (allocateBlock w).1 = _ ∧ Bitmap.blocks.Moves w (allocateBlock w).2 _ _
    change firstClear (blockBits w).1 w.currentSuperblock.totalBlocks.toNat = some i at found
    rw [allocateBlock, bind_apply, superblock]
    dsimp only
    rw [if_neg (total_ne_zero found), bind_apply, ready.blockBits_run]
    dsimp only
    rw [found]
    exact ⟨rfl, blocks_moves ready _ _⟩
  freed := by
    intro w n ready inside
    change n.toNat ∈ Set.Icc 1 w.currentSuperblock.totalBlocks.toNat at inside
    change Bitmap.blocks.Moves w (freeBlock n w).2 _ _
    rw [freeBlock, bind_apply, superblock]
    dsimp only
    rw [if_neg (inside_iff.mp inside), bind_apply, ready.blockBits_run, inside_pred inside]
    exact blocks_moves ready _ _
  outside := by
    intro w n ready out
    change n.toNat ∉ Set.Icc 1 w.currentSuperblock.totalBlocks.toNat at out
    change (freeBlock n w).2 = w
    rw [freeBlock, bind_apply, superblock]
    dsimp only
    rw [if_pos (not_not.mp (inside_iff.not.mp out))]
    rfl

end

namespace Bitmap
variable {m : Bitmap} {w w' : World} {f : Bytes} {c : BitVec 32}

theorem Moves.used (moves : m.Moves w w' f c) : m.used w' = bitSet f (m.total w).toNat := by
  rw [Bitmap.used, moves.bits, moves.total]

theorem Moves.numbers (moves : m.Moves w w' f c) : m.numbers w' = m.numbers w := by
  rw [Bitmap.numbers, Bitmap.numbers, moves.total]

/-- Freeing removes the number, if it is one. -/
theorem Served.remove (served : m.Served) (ready : Ready w) (n : BitVec 32) :
    m.used (m.free n w).2 = m.used w \ {n.toNat} := by
  by_cases inside : n.toNat ∈ m.numbers w
  · have := inside.1
    rw [(served.freed ready inside).used, bitSet_clearBit, Nat.sub_add_cancel this]
    rfl
  · have out : n.toNat ∉ m.used w := fun member => inside (bitSet_subset _ _ member)
    rw [served.outside ready inside, Set.sdiff_singleton_eq_self out]

/-- Allocation takes the least unused number, which is not 0. -/
theorem Served.take (served : m.Served) (ready : Ready w) (some_ : m.used w ≠ m.numbers w) :
    IsLeast (m.numbers w \ m.used w) (m.allocate w).1.toNat ∧
      m.used (m.allocate w).2 = insert (m.allocate w).1.toNat (m.used w) ∧
      Ready (m.allocate w).2 ∧ m.numbers (m.allocate w).2 = m.numbers w ∧
      m.counter (m.allocate w).2 = m.counter w - 1 := by
  obtain ⟨i, found⟩ := Option.ne_none_iff_exists'.mp (firstClear_none_iff.not.mpr some_)
  have below := (firstClear_eq_some.mp found).1
  obtain ⟨result, moves⟩ := served.taken ready found
  have number : (m.allocate w).1.toNat = i + 1 := by
    rw [result]
    exact ofNat_succ_toNat (by have := (m.total w).isLt; omega)
  refine ⟨?_, ?_, moves.ready, moves.numbers, moves.counter⟩
  · rw [number]
    exact firstClear_isLeast found
  · rw [number, moves.used]
    exact bitSet_setBit below

/-- With every number in use there is nothing to allocate. -/
theorem Served.stop (served : m.Served) (ready : Ready w) (full : m.used w = m.numbers w) :
    m.allocate w = (0#32, w) :=
  served.exhausted ready (firstClear_none_iff.mpr full)

theorem Served.actsOnSet (served : m.Served) (ready : Ready w) : m.ActsOnSet w where
  least some_ := (served.take ready some_).1
  inserted some_ := (served.take ready some_).2.1
  full := by
    constructor
    · rintro ⟨zero, _⟩
      by_contra some_
      have least := (served.take ready some_).1
      rw [zero] at least
      exact absurd least.1.1.1 (by decide)
    · intro full
      rw [served.stop ready full]
      exact ⟨rfl, rfl⟩
  removed := served.remove ready
  restored := by
    by_cases full : m.used w = m.numbers w
    · have out : (0#32).toNat ∉ m.numbers w := fun member => absurd member.1 (by decide)
      rw [served.stop ready full, served.outside ready out]
      exact ⟨rfl, rfl⟩
    obtain ⟨least, inserted, after, numbers, counter⟩ := served.take ready full
    have inside : (m.allocate w).1.toNat ∈ m.numbers (m.allocate w).2 := numbers ▸ least.1.1
    constructor
    · rw [served.remove after, inserted, Set.insert_sdiff_self_of_notMem least.1.2]
    · rw [(served.freed after inside).counter, counter, BitVec.sub_add_cancel]

end Bitmap

/-- On a formatted volume the table is a map, and the two bitmaps are sets with a least free number. -/
theorem table_is_map_bitmaps_are_sets {w : World} (ready : Ready w) :
    ActsAsMap w ∧ Bitmap.inodes.ActsOnSet w ∧ Bitmap.blocks.ActsOnSet w :=
  ⟨ready.shows.actsAsMap, inodes_served.actsOnSet ready, blocks_served.actsOnSet ready⟩

theorem blank_table_and_bitmaps :
    ActsAsMap (fsInit (fun _ => 0) (fun _ => 0) blankWorld).2 ∧
      Bitmap.inodes.ActsOnSet (fsInit (fun _ => 0) (fun _ => 0) blankWorld).2 ∧
      Bitmap.blocks.ActsOnSet (fsInit (fun _ => 0) (fun _ => 0) blankWorld).2 :=
  table_is_map_bitmaps_are_sets (settled_format blankWorld_formattable _ _).ready

end AstralOS.Fs
