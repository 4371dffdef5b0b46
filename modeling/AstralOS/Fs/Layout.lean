import AstralOS.Lib.CString

/-! Blocks of the device and the records the file system keeps in them. -/
namespace AstralOS.Fs
open Foundation AstralOS.Lib

def fsBlockSize : Nat := 4096
def fsMaxFilenameLen : Nat := 28
def fsMagic : BitVec 32 := 0xDEADBEEF#32
def fsInodeTypeFile : BitVec 16 := 0x8000#16
def fsInodeTypeDir : BitVec 16 := 0x4000#16

abbrev BlockNum := BitVec 32

abbrev Block := Fin 4096 → Byte

namespace Block

def bytes (b : Block) : Bytes := fun i => if h : i < 4096 then b ⟨i, h⟩ else 0#8

def ofBytes (f : Bytes) : Block := fun i => f i

def zero : Block := fun _ => 0#8

/-- `memcpy(&b[off], src, len)` -/
def patch (b : Block) (off len : Nat) (src : Bytes) : Block := ofBytes (b.bytes.splice off len src)

theorem bytes_ofBytes (f : Bytes) {i : Nat} (h : i < 4096) : (ofBytes f).bytes i = f i := by
  simp [bytes, ofBytes, h]

@[simp] theorem ofBytes_bytes (b : Block) : ofBytes b.bytes = b := by
  funext i
  simp [bytes, ofBytes]

theorem ofBytes_congr {f g : Bytes} (h : ∀ i < 4096, f i = g i) : ofBytes f = ofBytes g := by
  funext i
  exact h i i.isLt

@[simp] theorem bytes_zero : zero.bytes = fun _ => 0#8 := by
  funext i
  simp [bytes, zero]

theorem patch_inside (b : Block) (src : Bytes) {off len i : Nat} (hi : i < len)
    (fits : off + len ≤ 4096) : (b.patch off len src).bytes (off + i) = src i := by
  rw [patch, bytes_ofBytes _ (by omega), splice_inside b.bytes src hi]

theorem patch_outside (b : Block) (src : Bytes) {off len i : Nat}
    (hi : i < off ∨ off + len ≤ i) : (b.patch off len src).bytes i = b.bytes i := by
  by_cases inside : i < 4096
  · rw [patch, bytes_ofBytes _ inside, splice_outside b.bytes src hi]
  · simp [bytes, inside]

end Block

@[ext] structure Superblock where
  magic : BitVec 32
  blockSize : BitVec 32
  totalBlocks : BitVec 32
  freeBlocks : BitVec 32
  totalInodes : BitVec 32
  freeInodes : BitVec 32
  rootInode : BitVec 32
  inodeBitmapBlock : BitVec 32
  blockBitmapBlock : BitVec 32
  inodeTableStartBlock : BitVec 32
  dataStartBlock : BitVec 32

def superblockSize : Nat := 44

namespace Superblock

/-- The eleven words in the order of the C structure. -/
def words (s : Superblock) : List (BitVec 32) :=
  [s.magic, s.blockSize, s.totalBlocks, s.freeBlocks, s.totalInodes, s.freeInodes, s.rootInode,
    s.inodeBitmapBlock, s.blockBitmapBlock, s.inodeTableStartBlock, s.dataStartBlock]

def bytes (s : Superblock) : Bytes := fun i => leByte (s.words.getD (i / 4) 0#32) (i % 4)

def ofBytes (f : Bytes) : Superblock :=
  let word (k : Nat) : BitVec 32 := le 32 4 (f.drop (4 * k))
  ⟨word 0, word 1, word 2, word 3, word 4, word 5, word 6, word 7, word 8, word 9, word 10⟩

/-- `memset(&current_superblock, 0, sizeof(superblock_t))` -/
def zero : Superblock := ⟨0, 0, 0, 0, 0, 0, 0, 0, 0, 0, 0⟩

theorem word_bytes (s : Superblock) (k : Nat) :
    le 32 4 (s.bytes.drop (4 * k)) = s.words.getD k 0#32 := by
  refine le_eq_of_bytes (by omega) _ fun i hi => ?_
  have quotient : (4 * k + i) / 4 = k := by omega
  have remainder : (4 * k + i) % 4 = i := by omega
  rw [Bytes.drop, bytes, quotient, remainder]

theorem ofBytes_congr {f g : Bytes} (same : ∀ i < superblockSize, f i = g i) :
    ofBytes f = ofBytes g := by
  have word {k : Nat} (hk : k < 11) : le 32 4 (f.drop (4 * k)) = le 32 4 (g.drop (4 * k)) :=
    le_congr fun i hi => same _ (by rw [superblockSize]; omega)
  ext1 <;> exact word (by omega)

theorem ofBytes_bytes (s : Superblock) : ofBytes s.bytes = s := by
  ext1 <;> exact word_bytes s _

end Superblock

@[ext] structure Inode where
  id : BitVec 32
  type : BitVec 16
  permissions : BitVec 16
  ownerId : BitVec 32
  groupId : BitVec 32
  size : BitVec 64
  creationTime : BitVec 64
  modificationTime : BitVec 64
  directBlocks : Fin 10 → BlockNum
  indirectBlock : BlockNum
  doubleIndirectBlock : BlockNum

def inodeSize : Nat := 88

/-- `FS_BLOCK_SIZE / sizeof(inode_t)` -/
def inodesPerBlock : Nat := 46

namespace Inode

def bytes (r : Inode) : Bytes := fun i =>
  if i < 4 then leByte r.id i
  else if i < 6 then leByte r.type (i - 4)
  else if i < 8 then leByte r.permissions (i - 6)
  else if i < 12 then leByte r.ownerId (i - 8)
  else if i < 16 then leByte r.groupId (i - 12)
  else if i < 24 then leByte r.size (i - 16)
  else if i < 32 then leByte r.creationTime (i - 24)
  else if i < 40 then leByte r.modificationTime (i - 32)
  else if h : i < 80 then leByte (r.directBlocks ⟨(i - 40) / 4, by omega⟩) ((i - 40) % 4)
  else if i < 84 then leByte r.indirectBlock (i - 80)
  else leByte r.doubleIndirectBlock (i - 84)

def ofBytes (f : Bytes) : Inode where
  id := le 32 4 f
  type := le 16 2 (f.drop 4)
  permissions := le 16 2 (f.drop 6)
  ownerId := le 32 4 (f.drop 8)
  groupId := le 32 4 (f.drop 12)
  size := le 64 8 (f.drop 16)
  creationTime := le 64 8 (f.drop 24)
  modificationTime := le 64 8 (f.drop 32)
  directBlocks := fun k => le 32 4 (f.drop (40 + 4 * k))
  indirectBlock := le 32 4 (f.drop 80)
  doubleIndirectBlock := le 32 4 (f.drop 84)

def zero : Inode := ⟨0, 0, 0, 0, 0, 0, 0, 0, fun _ => 0, 0, 0⟩

theorem ofBytes_congr {f g : Bytes} (same : ∀ i < inodeSize, f i = g i) : ofBytes f = ofBytes g := by
  have field {w n k : Nat} (inside : k + n ≤ 88) : le w n (f.drop k) = le w n (g.drop k) :=
    le_congr fun i hi => same _ (by rw [inodeSize]; omega)
  ext1
  case id => exact le_congr fun i hi => same i (by rw [inodeSize]; omega)
  case directBlocks =>
    funext k
    exact field (by omega)
  all_goals exact field (by omega)

/-- Field `v` of `n` bytes at offset `k`. -/
theorem field_bytes {w n k : Nat} (r : Inode) (v : BitVec w) (wide : w ≤ 8 * n)
    (at_ : ∀ i < n, r.bytes (k + i) = leByte v i) : le w n (r.bytes.drop k) = v :=
  le_eq_of_bytes wide v at_

theorem ofBytes_bytes (r : Inode) : ofBytes r.bytes = r := by
  ext1
  case id =>
    refine le_eq_of_bytes (by omega) _ fun i hi => ?_
    rw [bytes, if_pos hi]
  case directBlocks =>
    funext k
    refine field_bytes r _ (by omega) fun i hi => ?_
    have index : (40 + 4 * k.val + i - 40) / 4 = k.val := by omega
    have byte : (40 + 4 * k.val + i - 40) % 4 = i := by omega
    have inside : 40 + 4 * k.val + i < 80 := by omega
    rw [bytes]
    simp (disch := omega) only [if_neg, dif_pos inside, index, byte]
  all_goals
    refine field_bytes r _ (by omega) fun i hi => ?_
    rw [bytes]
    simp (disch := omega) only [if_neg, if_pos, dif_neg, Nat.add_sub_cancel_left]

end Inode

def dirEntrySize : Nat := 36

/-- `FS_BLOCK_SIZE / sizeof(dir_entry_t)` -/
def entriesPerBlock : Nat := 113

/-- `entry->inode_id` of the entry `j` of a directory block. -/
def entryId (b : Block) (j : Nat) : BitVec 32 := le 32 4 (b.bytes.drop (dirEntrySize * j))

/-- `entry->name`, which is compared as a string from where it starts. -/
def entryName (b : Block) (j : Nat) : Bytes := b.bytes.drop (dirEntrySize * j + 4)

/-- The entry `fs_create` builds: its last three bytes are padding nobody sets. -/
def newEntry (id : BitVec 32) (name : CString) (padding : Bytes) : Bytes := fun i =>
  if i < 4 then leByte id i
  else if i < 32 then strncpy (fun _ => 0#8) name fsMaxFilenameLen (i - 4)
  else if i < 33 then 0#8
  else padding (i - 33)

def putEntry (b : Block) (j : Nat) (entry : Bytes) : Block :=
  b.patch (dirEntrySize * j) dirEntrySize entry

/-- `memset(entry, 0, sizeof(dir_entry_t))` -/
def clearEntry (b : Block) (j : Nat) : Block := putEntry b j fun _ => 0#8

/-- The entry `j` carries this name. -/
def Names (b : Block) (j : Nat) (name : CString) : Prop :=
  entryId b j ≠ 0#32 ∧ strcmp (entryName b j) name = 0

instance (b : Block) (j : Nat) (name : CString) : Decidable (Names b j name) :=
  inferInstanceAs (Decidable (_ ∧ _))

/-- The first entry of a block with this name. -/
def findEntry (b : Block) (name : CString) : Option Nat :=
  (List.range entriesPerBlock).find? fun j => Names b j name

/-- The first unused entry of a block. -/
def freeEntry (b : Block) : Option Nat :=
  (List.range entriesPerBlock).find? fun j => entryId b j = 0#32

section
variable {b : Block} {j k : Nat} {entry : Bytes}

theorem entryId_put_same (b : Block) (entry : Bytes) (inside : j < entriesPerBlock) :
    entryId (putEntry b j entry) j = le 32 4 entry := by
  rw [entriesPerBlock] at inside
  refine le_congr fun i hi => ?_
  exact b.patch_inside entry (by rw [dirEntrySize]; omega) (by rw [dirEntrySize]; omega)

theorem entryName_put_same (b : Block) (entry : Bytes) (inside : j < entriesPerBlock) {i : Nat}
    (hi : i < 32) : entryName (putEntry b j entry) j i = entry (4 + i) := by
  rw [entriesPerBlock] at inside
  rw [entryName, Bytes.drop, Nat.add_assoc]
  exact b.patch_inside entry (by rw [dirEntrySize]; omega) (by rw [dirEntrySize]; omega)

theorem bytes_put_other (b : Block) (entry : Bytes) (other : j ≠ k) {i : Nat} (hi : i < dirEntrySize) :
    (putEntry b j entry).bytes (dirEntrySize * k + i) = b.bytes (dirEntrySize * k + i) := by
  rw [dirEntrySize] at hi
  refine b.patch_outside entry ?_
  rw [dirEntrySize]
  omega

theorem entryId_put_other (b : Block) (entry : Bytes) (other : j ≠ k) :
    entryId (putEntry b j entry) k = entryId b k :=
  le_congr fun i hi => bytes_put_other b entry other (by rw [dirEntrySize]; omega)

theorem entryName_put_other (b : Block) (entry : Bytes) (other : j ≠ k) {i : Nat} (hi : i < 32) :
    entryName (putEntry b j entry) k i = entryName b k i := by
  rw [entryName, entryName, Bytes.drop, Bytes.drop, Nat.add_assoc]
  exact bytes_put_other b entry other (by rw [dirEntrySize]; omega)

theorem entryId_clear_same (b : Block) (inside : j < entriesPerBlock) :
    entryId (clearEntry b j) j = 0#32 :=
  (entryId_put_same b _ inside).trans (le_zero 32 4)

theorem entryId_zero (j : Nat) : entryId Block.zero j = 0#32 := by
  rw [entryId, Block.bytes_zero]
  exact le_zero 32 4

theorem newEntry_id (id : BitVec 32) (name : CString) (padding : Bytes) :
    le 32 4 (newEntry id name padding) = id :=
  le_eq_of_bytes (by omega) id fun _ hi => if_pos hi

theorem newEntry_name (id : BitVec 32) {name : CString} (padding : Bytes)
    (short : strlen name ≤ fsMaxFilenameLen) {i : Nat} (hi : i ≤ fsMaxFilenameLen) :
    newEntry id name padding (4 + i) = name.bytes i := by
  rw [fsMaxFilenameLen] at short hi
  by_cases last : i = 28
  · subst last
    have ended : name.bytes 28 = 0#8 := List.getD_eq_default _ _ short
    rw [ended]
    rfl
  · have inside : 4 + i < 32 := by omega
    have copied : i < fsMaxFilenameLen := by rw [fsMaxFilenameLen]; omega
    rw [newEntry, if_neg (by omega), if_pos inside, Nat.add_sub_cancel_left, strncpy, if_pos copied]

theorem findEntry_eq_some {name : CString} :
    findEntry b name = some j ↔
      j < entriesPerBlock ∧ Names b j name ∧ ∀ k < j, ¬ Names b k name := by
  rw [findEntry, List.find?_range_eq_some]
  simp only [decide_eq_true_eq, List.mem_range, Bool.not_eq_true', decide_eq_false_iff_not]
  tauto

theorem findEntry_eq_none {name : CString} :
    findEntry b name = none ↔ ∀ j < entriesPerBlock, ¬ Names b j name := by
  simp [findEntry]

theorem freeEntry_eq_some :
    freeEntry b = some j ↔
      j < entriesPerBlock ∧ entryId b j = 0#32 ∧ ∀ k < j, entryId b k ≠ 0#32 := by
  rw [freeEntry, List.find?_range_eq_some]
  simp only [decide_eq_true_eq, List.mem_range, Bool.not_eq_true', decide_eq_false_iff_not]
  tauto

theorem freeEntry_eq_none :
    freeEntry b = none ↔ ∀ j < entriesPerBlock, entryId b j ≠ 0#32 := by
  simp [freeEntry]

end

end AstralOS.Fs
