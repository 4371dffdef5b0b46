import AstralOS.Fs.Volume

/-! The calls on a world that shows a volume do what the volume says: same result, same
block writes in the same order, and the heap as it was. -/
namespace AstralOS.Fs
open Foundation AstralOS.Lib

/-- No coming device access or allocation fails. -/
structure Healthy (w : World) : Prop where
  reads : w.readFaults = fun _ => none
  writes : w.writeFaults = fun _ => false
  kmallocs : w.kmallocFaults = fun _ => false

/-- The layout `fs_init` formats; the counters and the root are left open. -/
structure Formatted (s : Superblock) : Prop where
  magic : s.magic = fsMagic
  totalBlocks : s.totalBlocks = 1024#32
  totalInodes : s.totalInodes = 128#32
  inodeBitmapBlock : s.inodeBitmapBlock = 1#32
  blockBitmapBlock : s.blockBitmapBlock = 2#32
  inodeTableStartBlock : s.inodeTableStartBlock = 3#32
  dataStartBlock : s.dataStartBlock = 6#32

structure Shows (v : Volume) (live : List Ptr) (w : World) : Prop where
  healthy : Healthy w
  layout : Formatted w.currentSuperblock
  disk : w.disk = v.disk
  inodeBits : ∃ b, w.inodeBitmap = some b ∧ Block.ofBytes b.bytes = v.inodeBits
  blockBits : ∃ b, w.blockBitmap = some b ∧ Block.ofBytes b.bytes = v.blockBits
  live : w.live = live

/-- The action returns `r` and does these updates, no more. -/
def Does {α : Type} (x : Fs α) (v : Volume) (live : List Ptr) (r : α) (us : List Update)
    (live' : List Ptr) : Prop :=
  ∀ w, Shows v live w → (x w).1 = r ∧ Shows (v.applyAll us) live' (x w).2 ∧
    (x w).2.issued = w.issued ++ v.issueAll us ∧ (x w).2.misuse = w.misuse

section Rules
variable {α β : Type} {v : Volume} {l l1 l2 : List Ptr} {us vs : List Update}

theorem does_pure (a : α) : Does (pure a : Fs α) v l a [] l :=
  fun _ shows_ => ⟨rfl, shows_, (List.append_nil _).symm, rfl⟩

theorem Does.bind {x : Fs α} {f : α → Fs β} {a : α} {b : β} (first : Does x v l a us l1)
    (second : Does (f a) (v.applyAll us) l1 b vs l2) : Does (x >>= f) v l b (us ++ vs) l2 := by
  intro w shows_
  obtain ⟨result, between, issued, misuse⟩ := first w shows_
  obtain ⟨result', after, issued', misuse'⟩ := second _ between
  rw [bind_apply, result, Volume.applyAll_append, Volume.issueAll_append, ← List.append_assoc,
    ← issued]
  exact ⟨result', after, issued', misuse'.trans misuse⟩

/-- An action that updates nothing comes first. -/
theorem Does.after {x : Fs α} {f : α → Fs β} {a : α} {b : β} (first : Does x v l a [] l1)
    (second : Does (f a) v l1 b us l2) : Does (x >>= f) v l b us l2 :=
  first.bind second

/-- An action that updates nothing comes last. -/
theorem Does.finish {x : Fs α} {f : α → Fs β} {a : α} {b : β} (first : Does x v l a us l1)
    (second : Does (f a) (v.applyAll us) l1 b [] l2) : Does (x >>= f) v l b us l2 := by
  have := first.bind second
  rwa [List.append_nil] at this

theorem does_superblock {f : Superblock → Fs β} {b : β}
    (then_ : ∀ s, Formatted s → Does (f s) v l b us l1) : Does (superblock >>= f) v l b us l1 :=
  fun w shows_ => then_ _ shows_.layout w shows_

theorem does_setSuperblock {s : Superblock} (layout : Formatted s) :
    Does (setSuperblock s) v l () [] l :=
  fun _ shows_ => ⟨rfl, ⟨⟨shows_.healthy.1, shows_.healthy.2, shows_.healthy.3⟩, layout,
    shows_.disk, shows_.inodeBits, shows_.blockBits, shows_.live⟩, (List.append_nil _).symm, rfl⟩

theorem does_readBlock (n : BlockNum) : Does (readBlock n) v l (0, v.disk n) [] l := by
  intro w shows_
  have reads := shows_.healthy.reads
  have run : readBlock n w = ((0, w.disk n), w) := by
    simp only [readBlock, reads]
    congr 1
    rw [← reads]
  rw [run, shows_.disk]
  exact ⟨rfl, shows_, (List.append_nil _).symm, rfl⟩

theorem writeBlock_run {w : World} (healthy : Healthy w) (n : BlockNum) (b : Block) :
    writeBlock n b w =
      (0, { w with issued := w.issued ++ [(n, b)], disk := Function.update w.disk n b }) := by
  have writes := healthy.writes
  simp only [writeBlock, writes, Bool.false_eq_true, if_false]

theorem does_writeBlock (n : BlockNum) (b : Block) :
    Does (writeBlock n b) v l 0 [.block n b] l := by
  intro w shows_
  rw [writeBlock_run shows_.healthy]
  refine ⟨rfl, ⟨⟨shows_.healthy.1, shows_.healthy.2, shows_.healthy.3⟩, shows_.layout, ?_,
    shows_.inodeBits, shows_.blockBits, shows_.live⟩, rfl, rfl⟩
  change Function.update w.disk n b = Function.update v.disk n b
  rw [shows_.disk]

theorem does_kmalloc {size : Nat} (pos : size ≠ 0) :
    Does (kmalloc size) v l (some (freshPtr l)) [] (freshPtr l :: l) := by
  intro w shows_
  have kmallocs := shows_.healthy.kmallocs
  have run : kmalloc size w = (some (freshPtr w.live), { w with live := freshPtr w.live :: w.live }) := by
    simp only [kmalloc, kmallocs, pos, Bool.false_eq_true, or_self, if_false]
  rw [run, shows_.live]
  exact ⟨rfl, ⟨⟨shows_.healthy.1, shows_.healthy.2, shows_.healthy.3⟩, shows_.layout, shows_.disk,
    shows_.inodeBits, shows_.blockBits, rfl⟩, (List.append_nil _).symm, rfl⟩

theorem does_kfree (p : Ptr) : Does (kfree (some p)) v (p :: l) () [] l := by
  intro w shows_
  have run : kfree (some p) w = ((), { w with live := l }) := by
    simp only [kfree, shows_.live, List.mem_cons_self, if_true, List.erase_cons_head]
  rw [run]
  exact ⟨rfl, ⟨⟨shows_.healthy.1, shows_.healthy.2, shows_.healthy.3⟩, shows_.layout, shows_.disk,
    shows_.inodeBits, shows_.blockBits, rfl⟩, (List.append_nil _).symm, rfl⟩

theorem does_inodeBits {f : Bytes → Fs β} {b : β}
    (then_ : ∀ bits, Block.ofBytes bits = v.inodeBits → Does (f bits) v l b us l1) :
    Does (inodeBits >>= f) v l b us l1 := by
  intro w shows_
  obtain ⟨bitmap, eq, bits⟩ := shows_.inodeBits
  have run : inodeBits w = (bitmap.bytes, w) := by rw [inodeBits, eq]
  rw [bind_apply, run]
  exact then_ _ bits w shows_

theorem does_blockBits {f : Bytes → Fs β} {b : β}
    (then_ : ∀ bits, Block.ofBytes bits = v.blockBits → Does (f bits) v l b us l1) :
    Does (blockBits >>= f) v l b us l1 := by
  intro w shows_
  obtain ⟨bitmap, eq, bits⟩ := shows_.blockBits
  have run : blockBits w = (bitmap.bytes, w) := by rw [blockBits, eq]
  rw [bind_apply, run]
  exact then_ _ bits w shows_

/-- Changing a bit of the cached inode bitmap and writing it through. -/
theorem does_storeInodeBit {bits : Bytes} {s : Superblock} {i : Nat} {set : Bool} {a : β}
    (layout : Formatted s) (stored : Block.ofBytes bits = putBit v.inodeBits i set) :
    Does (do
      setInodeBits bits
      setSuperblock s
      let _ ← writeBlock 1#32 (Block.ofBytes bits)
      pure a) v l a [.inodeBit i set] l := by
  intro w shows_
  obtain ⟨bitmap, eq, _⟩ := shows_.inodeBits
  have run := writeBlock_run (w := { w with currentSuperblock := s, inodeBitmap :=
    (w.inodeBitmap.map fun b => { b with bytes := bits }) })
    ⟨shows_.healthy.1, shows_.healthy.2, shows_.healthy.3⟩ 1#32 (Block.ofBytes bits)
  simp only [bind_apply, setInodeBits, setSuperblock, pure_apply, run]
  refine ⟨trivial, ⟨⟨shows_.healthy.1, shows_.healthy.2, shows_.healthy.3⟩, layout, ?_,
    ⟨_, by rw [eq]; rfl, stored⟩, shows_.blockBits, shows_.live⟩, ?_, trivial⟩
  · rw [stored, shows_.disk]
    rfl
  · rw [stored]
    rfl

theorem does_storeBlockBit {bits : Bytes} {s : Superblock} {i : Nat} {set : Bool} {a : β}
    (layout : Formatted s) (stored : Block.ofBytes bits = putBit v.blockBits i set) :
    Does (do
      setBlockBits bits
      setSuperblock s
      let _ ← writeBlock 2#32 (Block.ofBytes bits)
      pure a) v l a [.blockBit i set] l := by
  intro w shows_
  obtain ⟨bitmap, eq, _⟩ := shows_.blockBits
  have run := writeBlock_run (w := { w with currentSuperblock := s, blockBitmap :=
    (w.blockBitmap.map fun b => { b with bytes := bits }) })
    ⟨shows_.healthy.1, shows_.healthy.2, shows_.healthy.3⟩ 2#32 (Block.ofBytes bits)
  simp only [bind_apply, setBlockBits, setSuperblock, pure_apply, run]
  refine ⟨trivial, ⟨⟨shows_.healthy.1, shows_.healthy.2, shows_.healthy.3⟩, layout, ?_,
    shows_.inodeBits, ⟨_, by rw [eq]; rfl, stored⟩, shows_.live⟩, ?_, trivial⟩
  · rw [stored, shows_.disk]
    rfl
  · rw [stored]
    rfl

end Rules

/-! Bitmaps as `kmalloc`ed bytes and as blocks. -/

theorem bytes_of_ofBytes {f : Bytes} {b : Block} (eq : Block.ofBytes f = b) {i : Nat} (hi : i < 4096) :
    b.bytes i = f i := by
  rw [← eq, Block.bytes_ofBytes f hi]

theorem firstClear_congr {f g : Bytes} {n : Nat} (same : ∀ i < n, testBit f i = testBit g i) :
    firstClear f n = firstClear g n := by
  cases found : firstClear g n with
  | none =>
      rw [firstClear_eq_none] at found ⊢
      exact fun i hi => (same i hi).trans (found i hi)
  | some i =>
      rw [firstClear_eq_some] at found ⊢
      obtain ⟨bound, clear, before⟩ := found
      exact ⟨bound, (same i bound).trans clear, fun j hj => (same j (by omega)).trans (before j hj)⟩

theorem firstClear_block {f : Bytes} {b : Block} (eq : Block.ofBytes f = b) {n : Nat} (hn : n ≤ 32768) :
    firstClear f n = firstClear b.bytes n :=
  firstClear_congr fun i hi => testBit_congr (bytes_of_ofBytes eq (by omega)).symm

theorem ofBytes_setBit {f : Bytes} {b : Block} (eq : Block.ofBytes f = b) {i : Nat} (hi : i < 32768) :
    Block.ofBytes (setBit f i) = putBit b i true := by
  refine Block.ofBytes_congr fun k hk => ?_
  rw [if_pos rfl, setBit, setBit, bytes_of_ofBytes eq (by omega)]
  by_cases same : k = i / 8
  · subst same
    rw [Function.update_self, Function.update_self]
  · rw [Function.update_of_ne same, Function.update_of_ne same, bytes_of_ofBytes eq hk]

theorem ofBytes_clearBit {f : Bytes} {b : Block} (eq : Block.ofBytes f = b) {i : Nat} (hi : i < 32768) :
    Block.ofBytes (clearBit f i) = putBit b i false := by
  refine Block.ofBytes_congr fun k hk => ?_
  rw [if_neg Bool.false_ne_true, clearBit, clearBit, bytes_of_ofBytes eq (by omega)]
  by_cases same : k = i / 8
  · subst same
    rw [Function.update_self, Function.update_self]
  · rw [Function.update_of_ne same, Function.update_of_ne same, bytes_of_ofBytes eq hk]

section Calls
variable {v : Volume} {l : List Ptr}

theorem inodeBlockNum_eq {s : Superblock} (layout : Formatted s) (id : BitVec 32) :
    inodeBlockNum s id = tableBlock id := by
  rw [inodeBlockNum, layout.inodeTableStartBlock, tableBlock]

theorem does_getInode (id : BitVec 32) (valid : ¬ (id = 0#32 ∨ 128#32 < id)) :
    Does (getInode id) v l (some (freshPtr l, v.inode id)) [] (freshPtr l :: l) := by
  refine does_superblock fun s layout => ?_
  rw [layout.totalInodes, if_neg valid, inodeBlockNum_eq layout]
  refine (does_readBlock _).after ?_
  simp only [ne_eq, not_true_eq_false, if_false]
  exact (does_kmalloc (by decide)).after (does_pure _)

theorem does_getInode_invalid (id : BitVec 32) (invalid : id = 0#32 ∨ 128#32 < id) :
    Does (getInode id) v l none [] l := by
  refine does_superblock fun s layout => ?_
  rw [layout.totalInodes, if_pos invalid]
  exact does_pure _

/-- The opening of a call on an inode that will do. -/
theorem does_getInodeOf_some {kind : Inode → Prop} [DecidablePred kind] {id : BitVec 32} {r : Inode}
    (found : v.openAs kind id = some r) :
    Does (getInodeOf kind id) v l (some (freshPtr l, r)) [] (freshPtr l :: l) := by
  rw [Volume.openAs] at found
  split at found
  · cases found
  · rename_i valid
    split at found
    · rename_i fits
      obtain rfl := Option.some.inj found
      refine (does_getInode id valid).after ?_
      simp only [if_pos fits]
      exact does_pure _
    · cases found

theorem does_getInodeOf_none {kind : Inode → Prop} [DecidablePred kind] {id : BitVec 32}
    (missing : v.openAs kind id = none) : Does (getInodeOf kind id) v l none [] l := by
  rw [Volume.openAs] at missing
  split at missing
  · rename_i invalid
    exact (does_getInode_invalid id invalid).after (does_pure _)
  · rename_i valid
    split at missing
    · cases missing
    · rename_i wrong
      refine (does_getInode id valid).after ?_
      simp only [if_neg wrong]
      exact (does_kfree _).after (does_pure _)

theorem does_writeInode (id : BitVec 32) (valid : ¬ (id = 0#32 ∨ 128#32 < id)) (r : Inode) :
    Does (writeInode id r) v l 0 [.inode id r] l := by
  refine does_superblock fun s layout => ?_
  rw [layout.totalInodes, if_neg valid, inodeBlockNum_eq layout]
  refine (does_readBlock _).after ?_
  simp only [ne_eq, not_true_eq_false, if_false]
  exact does_writeBlock _ _

theorem does_allocateInode_some {i : Nat} (found : v.unusedInode = some i) :
    Does allocateInode v l (BitVec.ofNat 32 (i + 1)) [.inodeBit i true] l := by
  refine does_superblock fun s layout => ?_
  have bound := (firstClear_eq_some.mp found).1
  rw [layout.totalInodes, if_neg (by decide), layout.inodeBitmapBlock]
  refine does_inodeBits fun bits eq => ?_
  rw [show (128#32).toNat = 128 from rfl, firstClear_block eq (by omega)]
  rw [Volume.unusedInode] at found
  simp only [found]
  exact does_storeInodeBit ⟨layout.magic, layout.totalBlocks, rfl, rfl, layout.blockBitmapBlock,
    layout.inodeTableStartBlock, layout.dataStartBlock⟩ (ofBytes_setBit eq (by omega))

theorem does_allocateInode_none (full : v.unusedInode = none) :
    Does allocateInode v l 0#32 [] l := by
  refine does_superblock fun s layout => ?_
  rw [layout.totalInodes, if_neg (by decide)]
  refine does_inodeBits fun bits eq => ?_
  rw [show (128#32).toNat = 128 from rfl, firstClear_block eq (by omega)]
  rw [Volume.unusedInode] at full
  simp only [full]
  exact does_pure _

theorem does_allocateBlock_some {b : Nat} (found : v.unusedBlock = some b) :
    Does allocateBlock v l (BitVec.ofNat 32 (b + 1)) [.blockBit b true] l := by
  refine does_superblock fun s layout => ?_
  have bound := (firstClear_eq_some.mp found).1
  rw [layout.totalBlocks, if_neg (by decide), layout.blockBitmapBlock]
  refine does_blockBits fun bits eq => ?_
  rw [show (1024#32).toNat = 1024 from rfl, firstClear_block eq (by omega)]
  rw [Volume.unusedBlock] at found
  simp only [found]
  exact does_storeBlockBit ⟨layout.magic, rfl, layout.totalInodes, layout.inodeBitmapBlock, rfl,
    layout.inodeTableStartBlock, layout.dataStartBlock⟩ (ofBytes_setBit eq (by omega))

theorem does_allocateBlock_none (full : v.unusedBlock = none) :
    Does allocateBlock v l 0#32 [] l := by
  refine does_superblock fun s layout => ?_
  rw [layout.totalBlocks, if_neg (by decide)]
  refine does_blockBits fun bits eq => ?_
  rw [show (1024#32).toNat = 1024 from rfl, firstClear_block eq (by omega)]
  rw [Volume.unusedBlock] at full
  simp only [full]
  exact does_pure _

theorem does_freeInode (id : BitVec 32) (valid : ¬ (id = 0#32 ∨ 128#32 < id)) :
    Does (freeInode id) v l () [.inodeBit (id - 1#32).toNat false] l := by
  refine does_superblock fun s layout => ?_
  rw [layout.totalInodes, if_neg valid, layout.inodeBitmapBlock]
  refine does_inodeBits fun bits eq => ?_
  have bound : (id - 1#32).toNat < 32768 := by
    obtain ⟨nonzero, small⟩ := not_or.mp valid
    have := BitVec.not_lt.mp small
    bv_omega
  exact does_storeInodeBit ⟨layout.magic, layout.totalBlocks, rfl, rfl, layout.blockBitmapBlock,
    layout.inodeTableStartBlock, layout.dataStartBlock⟩ (ofBytes_clearBit eq bound)

theorem does_freeBlock (n : BlockNum) (valid : ¬ (n = 0#32 ∨ 1024#32 < n)) :
    Does (freeBlock n) v l () [.blockBit (n - 1#32).toNat false] l := by
  refine does_superblock fun s layout => ?_
  rw [layout.totalBlocks, if_neg valid, layout.blockBitmapBlock]
  refine does_blockBits fun bits eq => ?_
  have bound : (n - 1#32).toNat < 32768 := by
    obtain ⟨nonzero, small⟩ := not_or.mp valid
    have := BitVec.not_lt.mp small
    bv_omega
  exact does_storeBlockBit ⟨layout.magic, rfl, layout.totalInodes, layout.inodeBitmapBlock, rfl,
    layout.inodeTableStartBlock, layout.dataStartBlock⟩ (ofBytes_clearBit eq bound)

theorem does_freeBlock_invalid (n : BlockNum) (invalid : n = 0#32 ∨ 1024#32 < n) :
    Does (freeBlock n) v l () [] l := by
  refine does_superblock fun s layout => ?_
  rw [layout.totalBlocks, if_pos invalid]
  exact does_pure _

end Calls
end AstralOS.Fs
