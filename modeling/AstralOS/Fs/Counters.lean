import AstralOS.Fs.BlockRange
import AstralOS.Fs.Remount

/-! The free counters of the superblock against the bitmaps they count. -/
namespace AstralOS.Fs
open Foundation AstralOS.Lib

/-- The counters hold how many bits are clear. -/
structure CountersAgree (w : World) : Prop where
  inodes : ∃ b, w.inodeBitmap = some b ∧ w.currentSuperblock.freeInodes.toNat =
    clearBits b.bytes w.currentSuperblock.totalInodes.toNat
  blocks : ∃ b, w.blockBitmap = some b ∧ w.currentSuperblock.freeBlocks.toNat =
    clearBits b.bytes w.currentSuperblock.totalBlocks.toNat

/-- What the counters lack, modulo the size of a counter. -/
structure Lacks (w : World) (inodes blocks : BitVec 32) : Prop where
  inodes : ∃ b, w.inodeBitmap = some b ∧ w.currentSuperblock.freeInodes + inodes =
    BitVec.ofNat 32 (clearBits b.bytes w.currentSuperblock.totalInodes.toNat)
  blocks : ∃ b, w.blockBitmap = some b ∧ w.currentSuperblock.freeBlocks + blocks =
    BitVec.ofNat 32 (clearBits b.bytes w.currentSuperblock.totalBlocks.toNat)

/-- The action changes counters and bits alike. -/
def Balanced {α : Type} (x : Fs α) : Prop := ∀ w i b, Lacks w i b → Lacks (x w).2 i b

/-- The static variables are as before. -/
structure SameStatics (w w' : World) : Prop where
  superblock : w'.currentSuperblock = w.currentSuperblock
  inodeBitmap : w'.inodeBitmap = w.inodeBitmap
  blockBitmap : w'.blockBitmap = w.blockBitmap

section
variable {α β : Type} {w w' : World} {i b : BitVec 32}

theorem CountersAgree.lacks (agree : CountersAgree w) : Lacks w 0#32 0#32 := by
  obtain ⟨⟨ib, inodeBitmap, inodes⟩, bb, blockBitmap, blocks⟩ := agree
  refine ⟨⟨ib, inodeBitmap, ?_⟩, bb, blockBitmap, ?_⟩
  · rw [← inodes, BitVec.add_zero, BitVec.ofNat_toNat, BitVec.setWidth_eq]
  · rw [← blocks, BitVec.add_zero, BitVec.ofNat_toNat, BitVec.setWidth_eq]

theorem Lacks.unique {i' b' : BitVec 32} (lacks : Lacks w i b) (lacks' : Lacks w i' b') :
    i = i' ∧ b = b' := by
  obtain ⟨⟨ib, inodeBitmap, inodes⟩, bb, blockBitmap, blocks⟩ := lacks
  obtain ⟨⟨ib', inodeBitmap', inodes'⟩, bb', blockBitmap', blocks'⟩ := lacks'
  obtain rfl := Option.some.inj (inodeBitmap.symm.trans inodeBitmap')
  obtain rfl := Option.some.inj (blockBitmap.symm.trans blockBitmap')
  exact ⟨by bv_omega, by bv_omega⟩

theorem SameStatics.lacks (same : SameStatics w w') (lacks : Lacks w i b) : Lacks w' i b := by
  obtain ⟨inodes, blocks⟩ := lacks
  refine ⟨?_, ?_⟩
  · rw [same.superblock, same.inodeBitmap]
    exact inodes
  · rw [same.superblock, same.blockBitmap]
    exact blocks

theorem balanced_of_same {x : Fs α} (same : ∀ w, SameStatics w (x w).2) : Balanced x :=
  fun w _ _ lacks => (same w).lacks lacks

theorem balanced_pure (a : α) : Balanced (pure a : Fs α) := fun _ _ _ lacks => lacks

theorem Balanced.bind {x : Fs α} {f : α → Fs β} (first : Balanced x) (second : ∀ a, Balanced (f a)) :
    Balanced (x >>= f) := fun w i b lacks => second _ _ i b (first w i b lacks)

theorem Balanced.ite {c : Prop} [Decidable c] {x y : Fs α} (yes : Balanced x) (no : Balanced y) :
    Balanced (if c then x else y) := by
  split
  · exact yes
  · exact no

theorem balanced_superblock : Balanced superblock := balanced_of_same fun _ => ⟨rfl, rfl, rfl⟩

theorem sameStatics_readBlock (n : BlockNum) (w : World) : SameStatics w (readBlock n w).2 := by
  rw [readBlock]
  split
  · exact ⟨rfl, rfl, rfl⟩
  · exact ⟨rfl, rfl, rfl⟩

theorem sameStatics_writeBlock (n : BlockNum) (x : Block) (w : World) :
    SameStatics w (writeBlock n x w).2 := by
  rw [writeBlock]
  split
  · exact ⟨rfl, rfl, rfl⟩
  · exact ⟨rfl, rfl, rfl⟩

theorem sameStatics_kmalloc (size : Nat) (w : World) : SameStatics w (kmalloc size w).2 := by
  rw [kmalloc]
  split
  · exact ⟨rfl, rfl, rfl⟩
  · exact ⟨rfl, rfl, rfl⟩

theorem sameStatics_kfree (p : Option Ptr) (w : World) : SameStatics w (kfree p w).2 := by
  cases p with
  | none => exact ⟨rfl, rfl, rfl⟩
  | some p =>
      rw [kfree]
      split
      · exact ⟨rfl, rfl, rfl⟩
      · exact ⟨rfl, rfl, rfl⟩

theorem balanced_readBlock (n : BlockNum) : Balanced (readBlock n) :=
  balanced_of_same (sameStatics_readBlock n)

theorem balanced_writeBlock (n : BlockNum) (x : Block) : Balanced (writeBlock n x) :=
  balanced_of_same (sameStatics_writeBlock n x)

theorem balanced_kmalloc (size : Nat) : Balanced (kmalloc size) :=
  balanced_of_same (sameStatics_kmalloc size)

theorem balanced_kfree (p : Option Ptr) : Balanced (kfree p) :=
  balanced_of_same (sameStatics_kfree p)

/-! What takes a number clears no bit, and what gives one back sets none. -/

theorem lacks_allocate {free : BitVec 32} {clear clear' : Nat} {lack : BitVec 32}
    (counted : free + lack = BitVec.ofNat 32 clear) (taken : clear' + 1 = clear) :
    free - 1#32 + lack = BitVec.ofNat 32 clear' := by
  subst taken
  rw [BitVec.ofNat_add] at counted
  bv_omega

theorem lacks_release {free : BitVec 32} {clear : Nat} {lack : BitVec 32}
    (counted : free + lack = BitVec.ofNat 32 clear) :
    free + 1#32 + lack = BitVec.ofNat 32 (clear + 1) := by
  rw [BitVec.ofNat_add]
  bv_omega

theorem balanced_allocateInode : Balanced allocateInode := by
  intro w i b lacks
  obtain ⟨⟨ib, bitmap, counted⟩, blocks⟩ := lacks
  have bits : inodeBits w = (ib.bytes, w) := by rw [inodeBits, bitmap]
  rw [allocateInode, bind_apply, superblock]
  dsimp only
  by_cases none_ : w.currentSuperblock.totalInodes = 0#32
  · rw [if_pos none_]
    exact ⟨⟨ib, bitmap, counted⟩, blocks⟩
  rw [if_neg none_, bind_apply, bits]
  dsimp only
  cases found : firstClear ib.bytes w.currentSuperblock.totalInodes.toNat with
  | none => exact ⟨⟨ib, bitmap, counted⟩, blocks⟩
  | some j =>
      obtain ⟨below, clear, _⟩ := firstClear_eq_some.mp found
      refine (sameStatics_writeBlock _ _ _).lacks ⟨⟨⟨ib.ptr, ib.size, setBit ib.bytes j⟩, ?_, ?_⟩, blocks⟩
      · change w.inodeBitmap.map _ = _
        rw [bitmap]
        rfl
      · exact lacks_allocate counted (clearBits_setBit clear below)

theorem balanced_allocateBlock : Balanced allocateBlock := by
  intro w i b lacks
  obtain ⟨inodes, bb, bitmap, counted⟩ := lacks
  have bits : blockBits w = (bb.bytes, w) := by rw [blockBits, bitmap]
  rw [allocateBlock, bind_apply, superblock]
  dsimp only
  by_cases none_ : w.currentSuperblock.totalBlocks = 0#32
  · rw [if_pos none_]
    exact ⟨inodes, bb, bitmap, counted⟩
  rw [if_neg none_, bind_apply, bits]
  dsimp only
  cases found : firstClear bb.bytes w.currentSuperblock.totalBlocks.toNat with
  | none => exact ⟨inodes, bb, bitmap, counted⟩
  | some j =>
      obtain ⟨below, clear, _⟩ := firstClear_eq_some.mp found
      refine (sameStatics_writeBlock _ _ _).lacks ⟨inodes, ⟨bb.ptr, bb.size, setBit bb.bytes j⟩, ?_, ?_⟩
      · change w.blockBitmap.map _ = _
        rw [bitmap]
        rfl
      · exact lacks_allocate counted (clearBits_setBit clear below)

/-! The calls that give nothing back are balanced on any device, faults included. -/

theorem balanced_getInode (id : BitVec 32) : Balanced (getInode id) := by
  refine balanced_superblock.bind fun s => ?_
  by_cases invalid : id = 0#32 ∨ s.totalInodes < id
  · rw [if_pos invalid]
    exact balanced_pure _
  rw [if_neg invalid]
  refine (balanced_readBlock _).bind fun r => ?_
  exact .ite (balanced_pure _) ((balanced_kmalloc _).bind fun _ => balanced_pure _)

theorem balanced_writeInode (id : BitVec 32) (r : Inode) : Balanced (writeInode id r) := by
  refine balanced_superblock.bind fun s => ?_
  by_cases invalid : id = 0#32 ∨ s.totalInodes < id
  · rw [if_pos invalid]
    exact balanced_pure _
  rw [if_neg invalid]
  exact (balanced_readBlock _).bind fun r => .ite (balanced_pure _) (balanced_writeBlock _ _)

theorem balanced_getInodeOf {kind : Inode → Prop} [DecidablePred kind] (id : BitVec 32) :
    Balanced (getInodeOf kind id) := by
  refine (balanced_getInode id).bind fun inode => ?_
  cases inode with
  | none => exact balanced_pure _
  | some found =>
      obtain ⟨p, r⟩ := found
      exact .ite (balanced_pure _) ((balanced_kfree _).bind fun _ => balanced_pure _)

theorem balanced_scan (dir : Inode) (name : CString) (is : List (Fin 10)) :
    Balanced (scan dir name is) := by
  induction is with
  | nil => exact balanced_pure _
  | cons k rest ih =>
      refine .ite ih ((balanced_readBlock _).bind fun r => ?_)
      obtain ⟨status, buffer⟩ := r
      dsimp only
      cases findEntry buffer name with
      | none => exact ih
      | some j => exact balanced_pure _

theorem balanced_fsLookup (d : BitVec 32) (name : CString) : Balanced (fsLookup d name) := by
  refine .ite (balanced_pure _) ((balanced_getInodeOf d).bind fun parent => ?_)
  cases parent with
  | none => exact balanced_pure _
  | some parent =>
      obtain ⟨p, dir⟩ := parent
      refine (balanced_scan dir name indices).bind fun found => (balanced_kfree _).bind fun _ => ?_
      cases found with
      | none => exact balanced_pure _
      | some place => exact balanced_pure _

theorem balanced_directoryBlock (dir : Inode) (k : Fin 10) : Balanced (directoryBlock dir k) := by
  refine .ite ?_ ((balanced_readBlock _).bind fun _ => balanced_pure _)
  exact balanced_allocateBlock.bind fun n => .ite (balanced_pure _) (balanced_pure _)

theorem balanced_insertEntry (d : BitVec 32) (entry : Bytes) (dir : Inode) (is : List (Fin 10)) :
    Balanced (insertEntry d entry dir is) := by
  induction is generalizing dir with
  | nil => exact balanced_pure _
  | cons k rest ih =>
      refine (balanced_directoryBlock dir k).bind fun start => ?_
      cases start with
      | none => exact balanced_pure _
      | some start =>
          obtain ⟨dir, buffer⟩ := start
          dsimp only
          cases freeEntry buffer with
          | none => exact ih dir
          | some j =>
              exact (balanced_writeBlock _ _).bind fun _ =>
                (balanced_writeInode _ _).bind fun _ => balanced_pure _

theorem balanced_fsCreate (d : BitVec 32) (name : CString) (type : BitVec 16) (padding : Bytes) :
    Balanced (fsCreate d name type padding) := by
  refine .ite (balanced_pure _) ((balanced_getInodeOf d).bind fun parent => ?_)
  cases parent with
  | none => exact balanced_pure _
  | some parent =>
      obtain ⟨p, dir⟩ := parent
      refine (balanced_fsLookup d name).bind fun bound => ?_
      refine .ite ((balanced_kfree _).bind fun _ => balanced_pure _) ?_
      refine balanced_allocateInode.bind fun id => ?_
      refine .ite ((balanced_kfree _).bind fun _ => balanced_pure _) ?_
      exact (balanced_writeInode _ _).bind fun _ => (balanced_insertEntry _ _ _ _).bind fun _ =>
        (balanced_kfree _).bind fun _ => balanced_pure _

theorem balanced_readLoop (inode : Inode) (offset count done : Nat) (out : List Byte) :
    Balanced (readLoop inode offset count done out) := by
  induction done, out using readLoop.induct inode offset count with
  | case1 done out more index unused =>
      rw [readLoop, dif_pos more, dif_pos index, if_pos unused]
      exact balanced_pure _
  | case2 done out more index used ih =>
      rw [readLoop, dif_pos more, dif_pos index, if_neg used]
      exact (balanced_readBlock _).bind fun r => .ite (balanced_pure _) (ih r.2)
  | case3 done out more beyond =>
      rw [readLoop, dif_pos more, dif_neg beyond]
      exact balanced_pure _
  | case4 done out finished =>
      rw [readLoop, dif_neg finished]
      exact balanced_pure _

theorem balanced_fsRead (id : BitVec 32) (offset count : BitVec 64) :
    Balanced (fsRead id offset count) := by
  refine (balanced_getInodeOf id).bind fun inode => ?_
  cases inode with
  | none => exact balanced_pure _
  | some inode =>
      obtain ⟨p, inode⟩ := inode
      refine .ite ((balanced_kfree _).bind fun _ => balanced_pure _) ?_
      exact (balanced_readLoop _ _ _ _ _).bind fun _ => (balanced_kfree _).bind fun _ => balanced_pure _

theorem balanced_targetBlock (id : BitVec 32) (inode : Inode) (k : Fin 10) :
    Balanced (targetBlock id inode k) := by
  refine .ite ?_ (balanced_pure _)
  refine balanced_allocateBlock.bind fun n => .ite (balanced_pure _) ?_
  exact (balanced_writeInode _ _).bind fun _ => balanced_pure _

theorem balanced_writeLoop (id : BitVec 32) (buffer : Bytes) (offset count : Nat) (inode : Inode)
    (done : Nat) : Balanced (writeLoop id buffer offset count inode done) := by
  induction inode, done using writeLoop.induct offset count with
  | case1 inode done more index ih =>
      rw [writeLoop, dif_pos more, dif_pos index]
      refine (balanced_targetBlock _ _ _).bind fun target => ?_
      cases target with
      | none => exact balanced_pure _
      | some target =>
          obtain ⟨n, inode⟩ := target
          refine (balanced_readBlock _).bind fun r => .ite (balanced_pure _) ?_
          exact (balanced_writeBlock _ _).bind fun _ => ih inode
  | case2 inode done more beyond =>
      rw [writeLoop, dif_pos more, dif_neg beyond]
      exact balanced_pure _
  | case3 inode done finished =>
      rw [writeLoop, dif_neg finished]
      exact balanced_pure _

theorem balanced_fsWrite (id : BitVec 32) (offset : BitVec 64) (buffer : Bytes) (count : BitVec 64) :
    Balanced (fsWrite id offset buffer count) := by
  refine (balanced_getInodeOf id).bind fun inode => ?_
  cases inode with
  | none => exact balanced_pure _
  | some inode =>
      obtain ⟨p, inode⟩ := inode
      refine (balanced_writeLoop _ _ _ _ _ _).bind fun r => ?_
      refine .ite (.ite ?_ ?_) ((balanced_kfree _).bind fun _ => balanced_pure _)
      · exact (balanced_writeInode _ _).bind fun _ => (balanced_kfree _).bind fun _ => balanced_pure _
      · exact (balanced_kfree _).bind fun _ => balanced_pure _

/-! A removal gives back numbers that are taken, each once. -/

/-- Balanced on the worlds that show the volume. -/
def BalancedAt {α : Type} (v : Volume) (l : List Ptr) (x : Fs α) : Prop :=
  ∀ w i b, Shows v l w → Lacks w i b → Lacks (x w).2 i b

section
variable {v : Volume} {l l1 : List Ptr} {us : List Update} {d id : BitVec 32} {n : BlockNum}

theorem Balanced.at {x : Fs α} (balanced : Balanced x) : BalancedAt v l x :=
  fun w i b _ lacks => balanced w i b lacks

theorem BalancedAt.bind {x : Fs α} {f : α → Fs β} {a : α} (does : Does x v l a us l1)
    (first : BalancedAt v l x) (second : BalancedAt (v.applyAll us) l1 (f a)) :
    BalancedAt v l (x >>= f) := by
  intro w i b shows_ lacks
  obtain ⟨result, after, _⟩ := does w shows_
  rw [bind_apply, result]
  exact second _ i b after (first w i b shows_ lacks)

/-- An action that updates nothing comes first. -/
theorem BalancedAt.after {x : Fs α} {f : α → Fs β} {a : α} (does : Does x v l a [] l1)
    (first : BalancedAt v l x) (second : BalancedAt v l1 (f a)) : BalancedAt v l (x >>= f) :=
  .bind does first second

theorem balancedAt_freeInode (valid : ¬ (id = 0#32 ∨ 128#32 < id))
    (set : v.ibit (id - 1#32).toNat = true) : BalancedAt v l (freeInode id) := by
  intro w i b shows_ lacks
  obtain ⟨⟨ib, bitmap, counted⟩, blocks⟩ := lacks
  have bits : inodeBits w = (ib.bytes, w) := by rw [inodeBits, bitmap]
  obtain ⟨_, bitmap', content⟩ := shows_.inodeBits
  obtain rfl := Option.some.inj (bitmap.symm.trans bitmap')
  have below : (id - 1#32).toNat < 128 := by
    obtain ⟨nonzero, small⟩ := not_or.mp valid
    have := BitVec.not_lt.mp small
    bv_omega
  have taken : testBit ib.bytes (id - 1#32).toNat = true :=
    (testBit_congr (bytes_of_ofBytes content (by omega))).symm.trans set
  have totals := shows_.layout.totalInodes
  rw [freeInode, bind_apply, superblock]
  dsimp only
  rw [if_neg (by rw [totals]; exact valid), bind_apply, bits]
  refine (sameStatics_writeBlock _ _ _).lacks
    ⟨⟨⟨ib.ptr, ib.size, clearBit ib.bytes (id - 1#32).toNat⟩, ?_, ?_⟩, blocks⟩
  · change w.inodeBitmap.map _ = _
    rw [bitmap]
    rfl
  · change w.currentSuperblock.freeInodes + 1#32 + i =
      BitVec.ofNat 32 (clearBits (clearBit ib.bytes (id - 1#32).toNat) w.currentSuperblock.totalInodes.toNat)
    rw [clearBits_clearBit taken (by rw [totals]; exact below)]
    exact lacks_release counted

theorem balancedAt_freeBlock (valid : ¬ (n = 0#32 ∨ 1024#32 < n))
    (set : v.bbit (n - 1#32).toNat = true) : BalancedAt v l (freeBlock n) := by
  intro w i b shows_ lacks
  obtain ⟨inodes, bb, bitmap, counted⟩ := lacks
  have bits : blockBits w = (bb.bytes, w) := by rw [blockBits, bitmap]
  obtain ⟨_, bitmap', content⟩ := shows_.blockBits
  obtain rfl := Option.some.inj (bitmap.symm.trans bitmap')
  have below : (n - 1#32).toNat < 1024 := by
    obtain ⟨nonzero, small⟩ := not_or.mp valid
    have := BitVec.not_lt.mp small
    bv_omega
  have taken : testBit bb.bytes (n - 1#32).toNat = true :=
    (testBit_congr (bytes_of_ofBytes content (by omega))).symm.trans set
  have totals := shows_.layout.totalBlocks
  rw [freeBlock, bind_apply, superblock]
  dsimp only
  rw [if_neg (by rw [totals]; exact valid), bind_apply, bits]
  refine (sameStatics_writeBlock _ _ _).lacks
    ⟨inodes, ⟨bb.ptr, bb.size, clearBit bb.bytes (n - 1#32).toNat⟩, ?_, ?_⟩
  · change w.blockBitmap.map _ = _
    rw [bitmap]
    rfl
  · change w.currentSuperblock.freeBlocks + 1#32 + b =
      BitVec.ofNat 32 (clearBits (clearBit bb.bytes (n - 1#32).toNat) w.currentSuperblock.totalBlocks.toNat)
    rw [clearBits_clearBit taken (by rw [totals]; exact below)]
    exact lacks_release counted

theorem balancedAt_freeDirectBlocks {target : Inode}
    (distinct : ∀ k k', target.directBlocks k ≠ 0#32 →
      target.directBlocks k = target.directBlocks k' → k = k') (is : List (Fin 10)) (once : is.Nodup)
    (taken : ∀ k ∈ is, target.directBlocks k ≠ 0#32 → v.bbit (target.directBlocks k - 1#32).toNat = true) :
    BalancedAt v l (freeDirectBlocks target is) := by
  induction is generalizing v with
  | nil => exact (balanced_pure _).at
  | cons k rest ih =>
      obtain ⟨new, once⟩ := List.nodup_cons.mp once
      obtain ⟨first, later⟩ := List.forall_mem_cons.mp taken
      rw [freeDirectBlocks]
      by_cases unused : target.directBlocks k = 0#32
      · have nothing : freeDirectBlock target k = pure () := by
          rw [freeDirectBlock, if_neg (not_not.mpr unused)]
        rw [nothing]
        exact .bind (does_pure _) (balanced_pure _).at (ih once later)
      have freed : freeDirectBlock target k = freeBlock (target.directBlocks k) := by
        rw [freeDirectBlock, if_pos unused]
      rw [freed]
      by_cases large : 1024#32 < target.directBlocks k
      · refine .bind (does_freeBlock_invalid _ (.inr large)) ?_ (ih once later)
        intro w i b shows_ lacks
        rw [freeBlock, bind_apply, superblock]
        dsimp only
        rw [shows_.layout.totalBlocks, if_pos (.inr large)]
        exact lacks
      · have valid := not_or.mpr ⟨unused, large⟩
        refine .bind (does_freeBlock _ valid) (balancedAt_freeBlock valid (first unused))
          (ih once fun k' member used => ?_)
        have below : (target.directBlocks k - 1#32).toNat < 1024 := by
          have := BitVec.not_lt.mp large
          bv_omega
        have apart : (target.directBlocks k - 1#32).toNat ≠ (target.directBlocks k' - 1#32).toNat := by
          intro same
          have same : target.directBlocks k = target.directBlocks k' := by bv_omega
          obtain rfl := distinct k k' unused same
          exact new member
        change (v.apply _).bbit _ = true
        rw [Volume.bbit_blockBit (by omega), if_neg apart]
        exact later k' member used

theorem ibit_release {target : Inode} {is : List (Fin 10)} {i : Nat} :
    (v.applyAll (Volume.release target is)).ibit i = v.ibit i := by
  induction is generalizing v with
  | nil => rfl
  | cons k rest ih =>
      rw [Volume.release]
      split
      · exact ih
      · exact ih

theorem balancedAt_fsDelete {live : Set (BitVec 32)} (c : Consistent ⟨live, ∅, ∅⟩ v)
    (member : d ∈ live) (name : CString) : BalancedAt v l (fsDelete d name) := by
  rw [fsDelete]
  by_cases long : fsMaxFilenameLen < strlen name
  · rw [if_pos long]
    exact (balanced_pure _).at
  rw [if_neg long]
  cases opened : v.openAs isDir d with
  | none =>
      exact .after (does_getInodeOf_none opened) (balanced_getInodeOf d).at (balanced_pure _).at
  | some dir =>
      obtain ⟨valid, isDirectory, rfl⟩ := Volume.openAs_valid opened
      refine .after (does_getInodeOf_some opened) (balanced_getInodeOf d).at ?_
      refine .after (does_scan (v.inode d) name indices) (balanced_scan _ _ _).at ?_
      cases found : v.find (v.inode d) name indices with
      | none =>
          simp only [Option.map_none]
          exact ((balanced_kfree _).bind fun _ => balanced_pure _).at
      | some place =>
          obtain ⟨k, j⟩ := place
          simp only [Option.map_some]
          have held := holds_of_find isDirectory found
          obtain ⟨memberId, _⟩ := c.names d member k j _ held
          obtain ⟨_, target, _⟩ := track_unlink c member held
          have validId := c.valid _ memberId
          have number := toNat_pred validId
          set id := entryId (v.disk ((v.inode d).directBlocks k)) j
          refine .bind (does_writeBlock _ _) (balanced_writeBlock _ _).at ?_
          refine .bind (does_writeInode d valid _) (balanced_writeInode _ _).at ?_
          refine .after (does_kfree _) (balanced_kfree _).at ?_
          refine .after (does_getInode id (validId_iff.mp validId)) (balanced_getInode _).at ?_
          change BalancedAt (v.applyAll (v.unlink d (v.inode d) k j)) _ _
          have bits : ∀ i, (v.applyAll (v.unlink d (v.inode d) k j)).bbit i = v.bbit i := fun i => rfl
          have marks : ∀ i, (v.applyAll (v.unlink d (v.inode d) k j)).ibit i = v.ibit i := fun i => rfl
          set v2 := v.applyAll (v.unlink d (v.inode d) k j)
          refine .bind (does_freeDirectBlocks (v2.inode id) indices) ?_ ?_
          · refine balancedAt_freeDirectBlocks (fun k1 k2 used same => ?_) _ (List.nodup_finRange 10)
              fun k1 _ used => ?_
            · change (v2.inode id).directBlocks k1 ≠ 0#32 at used
              change (v2.inode id).directBlocks k1 = (v2.inode id).directBlocks k2 at same
              rw [target] at used same
              exact (c.single id memberId id memberId k1 k2 used same).2
            · change (v2.inode id).directBlocks k1 ≠ 0#32 at used
              change v2.bbit ((v2.inode id).directBlocks k1 - 1#32).toNat = true
              rw [target] at used ⊢
              rw [bits, toNat_pred_block (c.range id memberId k1 used).1]
              exact c.taken id memberId k1 used
          · refine .bind (does_freeInode id (validId_iff.mp validId)) (balancedAt_freeInode
              (validId_iff.mp validId) ?_) ((balanced_kfree _).bind fun _ => balanced_pure _).at
            rw [ibit_release, marks, number]
            exact c.marked id memberId

end
end

/-! The counters after formatting. -/

theorem clearBits_zero {f : Bytes} {n : Nat} (zero : ∀ i < n, testBit f i = false) : clearBits f n = n := by
  rw [clearBits, Finset.filter_true_of_mem fun i member => zero i (Finset.mem_range.mp member),
    Finset.card_range]

/-- The loop over the reserved blocks sets as many bits as it makes steps. -/
theorem clearBits_reserve {f : Bytes} {total : Nat} (zero : ∀ i < total, testBit f i = false) (n : Nat)
    (within : n ≤ total) : clearBits ((List.range n).foldl setBit f) total + n = total ∧
      ∀ i, n ≤ i → i < total → testBit ((List.range n).foldl setBit f) i = false := by
  induction n with
  | zero => exact ⟨clearBits_zero zero, fun i _ below => zero i below⟩
  | succ n ih =>
      obtain ⟨count, clear⟩ := ih (by omega)
      have taken := clearBits_setBit (clear n le_rfl (by omega)) (by omega : n < total)
      rw [List.range_succ, List.foldl_append, List.foldl_cons, List.foldl_nil]
      refine ⟨by omega, fun i low high => ?_⟩
      rw [testBit_setBit, clear i (by omega) high]
      simp
      omega

theorem testBit_cleared {f : Bytes} {i : Nat} (inside : i < 32768) :
    testBit (f.splice 0 4096 fun _ => 0#8) i = false := by
  have byte : (f.splice 0 4096 fun _ => 0#8) (i / 8) = 0#8 := by
    rw [Bytes.splice, if_pos ⟨Nat.zero_le _, by omega⟩]
  exact (testBit_congr byte).trans (testBit_zero i)

theorem lacks_formatBitmaps (buffer : Block) (inodeJunk blockJunk : Bytes) (healthy : Healthy w) :
    Lacks (formatBitmaps buffer inodeJunk blockJunk w).2 0#32 6#32 := by
  have writes := healthy.writes
  have kmallocs := healthy.kmallocs
  have inodes : bitmapBlocks 128#32 = 1 := rfl
  have blocks : bitmapBlocks 1024#32 = 1 := rfl
  have free := clearBits_zero (f := inodeJunk.splice 0 4096 fun _ => 0#8) (n := 128)
    fun i below => testBit_cleared (by omega)
  have reserved := (clearBits_reserve (f := blockJunk.splice 0 4096 fun _ => 0#8)
    (fun i (below : i < 1024) => testBit_cleared (by omega)) 7 (by decide)).1
  simp only [formatBitmaps, formatSuperblock_eq, bind_apply, setSuperblock, writeBlock, writes,
    Bool.false_eq_true, if_false, kmallocBitmap, kmalloc, kmallocs, inodes, blocks, pure_apply,
    setInodeBitmap, setBlockBitmap, fillInodeBits, fillBlockBits, inodeBits, blockBits, setInodeBits,
    setBlockBits, Option.map_some, fsBlockSize, Nat.one_mul, or_self, OfNat.ofNat_ne_zero,
    BitVec.toNat_ofNat]
  refine ⟨⟨_, rfl, ?_⟩, _, rfl, ?_⟩
  · change 128#32 + 0#32 = BitVec.ofNat 32 (clearBits (inodeJunk.splice 0 4096 fun _ => 0#8) 128)
    rw [free]
    rfl
  · change 1011#32 + 6#32 = BitVec.ofNat 32
      (clearBits ((List.range 7).foldl setBit (blockJunk.splice 0 4096 fun _ => 0#8)) 1024)
    rw [Nat.eq_sub_of_add_eq reserved]
    rfl

theorem balanced_formatRoot (buffer : Block) : Balanced (formatRoot buffer) := by
  refine balanced_allocateInode.bind fun rootId => (balanced_writeInode _ _).bind fun _ => ?_
  intro w i b lacks
  refine (sameStatics_writeBlock _ _ _).lacks ?_
  exact ⟨lacks.inodes, lacks.blocks⟩

/-- The reservation loop takes from a number that leaves the reserved blocks out already. -/
theorem lacks_format {buffer : Block} (formattable : Formattable w buffer)
    (inodeJunk blockJunk : Bytes) : Lacks (fsInit inodeJunk blockJunk w).2 0#32 6#32 := by
  obtain ⟨w0, healthy, _, run⟩ := formattable.run inodeJunk blockJunk
  rw [run]
  exact balanced_formatRoot buffer _ _ _ (lacks_formatBitmaps buffer inodeJunk blockJunk healthy)

/-! Remounting reads the counters of the formatted volume back. -/

/-- A call, or a loss of memory and a mount. -/
inductive Event where
  | call (c : Call)
  | remount (inodeJunk blockJunk : Bytes)

def powerCycle (w : World) : World :=
  { w with
    live := [], misuse := [], currentSuperblock := Superblock.zero, inodeBitmap := none,
    blockBitmap := none }

def Event.run (w : World) : Event → World
  | .call c => step w c
  | .remount inodeJunk blockJunk => (fsInit inodeJunk blockJunk (powerCycle w)).2

def EventAllowed (w : World) : Event → Prop
  | .call c => CallInUse w c
  | .remount _ _ => True

/-- The root is a directory of at most two blocks: 128 inodes do not fill more. -/
structure SmallRoot (v : Volume) : Prop where
  dir : isDir (v.inode 1#32)
  blocks : ∀ k : Fin 10, 2 ≤ k.val → (v.inode 1#32).directBlocks k = 0#32

/-- The counters in block 0 are those of a fresh volume. -/
structure StaleCounters (v : Volume) : Prop where
  inodes : (Superblock.ofBytes (v.disk 0#32).bytes).freeInodes = 127#32
  blocks : (Superblock.ofBytes (v.disk 0#32).bytes).freeBlocks = 1011#32

section
variable {α β : Type} {w : World} {v : Volume} {l : List Ptr} {us : List Update}
  {live : Set (BitVec 32)} {d id : BitVec 32}

theorem SmallRoot.congr {v' : Volume} (small : SmallRoot v) (same : v'.inode 1#32 = v.inode 1#32) :
    SmallRoot v' := by
  refine ⟨?_, fun k high => ?_⟩
  · rw [same]
    exact small.dir
  · rw [same]
    exact small.blocks k high

theorem SmallRoot.put (small : SmallRoot v) (valid : ValidId d) {r : Inode}
    (type : r.type = (v.inode d).type)
    (blocks : d = 1#32 → ∀ k : Fin 10, 2 ≤ k.val → r.directBlocks k = 0#32) :
    SmallRoot (v.apply (.inode d r)) := by
  by_cases self : d = 1#32
  · subst self
    have record : (v.apply (.inode 1#32 r)).inode 1#32 = r := Volume.inode_inode_same valid
    refine ⟨?_, fun k high => ?_⟩
    · rw [record]
      exact (isDir_congr type).mpr small.dir
    · rw [record]
      exact blocks rfl k high
  · exact small.congr (Volume.inode_inode_other valid (by rw [ValidId]; decide) self)

theorem SmallRoot.block (small : SmallRoot v) {n : BlockNum} (data : 6 ≤ n.toNat) (b : Block) :
    SmallRoot (v.apply (.block n b)) :=
  small.congr (Volume.inode_block (by rw [ValidId]; decide) data)

/-- A third block is allocated only when the first two are full. -/
theorem SmallRoot.create (small : SmallRoot v) (c : Consistent ⟨live, ∅, ∅⟩ v) (member : d ∈ live)
    {i : Nat} (found : v.unusedInode = some i) (type : BitVec 16) (entry : Bytes) :
    SmallRoot (v.applyAll (Volume.claim i type ++
      (v.applyAll (Volume.claim i type)).insert d entry (v.inode d) indices)) := by
  have valid := c.valid d member
  have smallIndex := (Volume.unusedInode_some found).1
  have dead := c.fresh_inode found
  obtain ⟨_, others, _, _, _⟩ := claim_reads (v := v) smallIndex type
  have same : ∀ x ∈ live, (v.applyAll (Volume.claim i type)).inode x = v.inode x := by
    intro x memberX
    refine others x (c.valid x memberX) ?_
    rintro rfl
    exact dead memberX
  have claimed := small.congr (same _ c.root)
  have occupied {k : Fin 10} := occupied_claim c member smallIndex type (k := k)
  have unused : (v.applyAll (Volume.claim i type)).unusedBlock = v.unusedBlock := rfl
  rw [Volume.applyAll_append]
  rw [← same d member]
  generalize v.applyAll (Volume.claim i type) = v2 at same claimed occupied unused
  by_cases needs : NeedsBlock v2 (v2.inode d)
  · cases free : v.unusedBlock with
    | none =>
        obtain ⟨k, vacant, full⟩ := needs
        obtain ⟨rest, start⟩ := insert_at d entry full
        rw [start, Volume.insert, if_pos vacant, unused, free]
        exact claimed
    | some n =>
        obtain ⟨low, high, _⟩ := c.fresh_block free
        have number : (BitVec.ofNat 32 (n + 1)).toNat = n + 1 := ofNat_succ_toNat (by omega)
        obtain ⟨k, full, updates⟩ := insert_fresh d entry needs (unused.trans free)
        rw [updates]
        have marked : SmallRoot (v2.apply (.blockBit n true)) :=
          claimed.congr (Volume.inode_blockBit (by rw [ValidId]; decide))
        refine (marked.block (by omega) _).put valid ?_ ?_
        · rw [Volume.inode_block valid (by omega), Volume.inode_blockBit valid]
          rfl
        · rintro rfl k' late
          have early : k.val < 2 := by
            by_contra third
            have := occupied_le c member small.dir (n := 2) (by decide) fun k' below => by
              rw [← occupied, ← same _ member]
              exact full k' (by omega)
            omega
          rw [Volume.grow_directBlocks, Inode.setDirect_other _ _ (by rintro rfl; omega)]
          exact claimed.blocks k' late
  · rcases insert_stays d entry needs with none_ | ⟨k, b, r, used, direct, type, updates⟩
    · rw [none_]
      exact claimed
    · rw [updates]
      rw [same d member] at used ⊢
      have low := (c.range d member k used).1
      refine (claimed.block (by omega) b).put valid ?_ ?_
      · rw [Volume.inode_block valid (by omega)]
        exact type
      · rintro rfl k' late
        rw [direct]
        exact claimed.blocks k' late

theorem direct_removal (c : Consistent ⟨live, ∅, ∅⟩ v) (member : d ∈ live) {k : Fin 10} {j : Nat}
    (held : Holds v d k j id) {x : BitVec 32} (memberX : x ∈ live) :
    ((v.applyAll (removal v d k j id)).inode x).directBlocks = (v.inode x).directBlocks := by
  obtain ⟨_, _, direct⟩ := track_unlink c member held
  obtain ⟨records, _⟩ := bits_keep (v := v.applyAll (v.unlink d (v.inode d) k j))
    (Volume.release ((v.applyAll (v.unlink d (v.inode d) k j)).inode id) indices ++
      [.inodeBit (id.toNat - 1) false]) (List.forall_mem_append.mpr ⟨release_bits _ _,
        List.forall_mem_singleton.mpr ⟨_, _, .inl rfl⟩⟩)
  rw [removal, Volume.applyAll_append, records x (c.valid x memberX), direct x memberX]

theorem SmallRoot.step (small : SmallRoot v) (c : Consistent ⟨live, ∅, ∅⟩ v) (call : Call)
    (member : call.inode ∈ live) : SmallRoot (v.step call) := by
  cases call with
  | create d name type padding =>
      have member : d ∈ live := member
      change SmallRoot (v.applyAll (v.create d name type padding).2)
      rcases create_cases (c.valid d member) name type padding with
        ⟨_, refused⟩ | ⟨i, ⟨_, _, _, found⟩, _, done⟩
      · rw [refused]
        exact small
      · rw [done]
        exact small.create c member found type _
  | delete d name =>
      have member : d ∈ live := member
      change SmallRoot (v.applyAll (v.delete d name).2)
      by_cases long : fsMaxFilenameLen < strlen name
      · rw [Volume.delete, if_pos long]
        exact small
      by_cases dir : isDir (v.inode d)
      · cases found : v.find (v.inode d) name indices with
        | none =>
            rw [delete_missing fun _ => found]
            exact small
        | some place =>
            obtain ⟨k, j⟩ := place
            have held := holds_of_find dir found
            rw [delete_found c member long dir found]
            have direct := direct_removal c member held c.root
            have inside : j < 113 := held.slot
            have edited := edited_removal c member inside held
            refine ⟨?_, fun k' high => by rw [direct, small.blocks k' high]⟩
            by_cases self : d = 1#32
            · subst self
              exact (isDir_congr edited.type).mpr small.dir
            · rw [edited.records _ c.root (Ne.symm self)]
              exact small.dir
      · rw [delete_missing fun isDirectory => absurd isDirectory dir]
        exact small
  | lookup d name => exact small
  | read id offset count => exact small
  | write id offset buffer count =>
      change SmallRoot (v.applyAll (v.write id offset buffer count).2)
      by_cases self : 1#32 = id
      · subst self
        have notFile : ¬ isFile (v.inode 1#32) := fun file => c.not_dir c.root file small.dir
        rw [Volume.write, Volume.openAs_none notFile]
        exact small
      · exact small.congr (write_others c member offset buffer count c.root self).1

theorem Consistent.writtenThrough (c : Consistent ⟨live, ∅, ∅⟩ v) : WrittenThrough v :=
  ⟨c.synced, fun i low => c.reserved i (by omega)⟩

theorem disk_zero (proper : ∀ u ∈ us, u.Proper) : (v.applyAll us).disk 0#32 = v.disk 0#32 := by
  induction us generalizing v with
  | nil => rfl
  | cons u rest ih =>
      obtain ⟨first, later⟩ := List.forall_mem_cons.mp proper
      refine (ih later).trans ?_
      cases u with
      | inodeBit i set => exact Volume.disk_apply (.inodeBit i set) (by simp [Volume.issue])
      | blockBit i set => exact Volume.disk_apply (.blockBit i set) (by simp [Volume.issue])
      | inode id r => exact Volume.disk_inode_low first (by decide)
      | block n b =>
          refine Volume.disk_block_other ?_
          rintro rfl
          have data : 6 ≤ (0#32 : BlockNum).toNat := first
          exact absurd data (by decide)

theorem balancedAt_perform (c : Consistent ⟨live, ∅, ∅⟩ v) (call : Call) (member : call.inode ∈ live) :
    BalancedAt v l call.perform := by
  cases call with
  | create d name type padding =>
      exact ((balanced_fsCreate d name type padding).bind fun _ => balanced_pure _).at
  | delete d name =>
      exact .bind (does_fsDelete d name) (balancedAt_fsDelete c member name) (balanced_pure _).at
  | lookup d name => exact ((balanced_fsLookup d name).bind fun _ => balanced_pure _).at
  | read id offset count => exact (balanced_fsRead id offset count).at
  | write id offset buffer count =>
      exact ((balanced_fsWrite id offset buffer count).bind fun _ => balanced_pure _).at

/-! A mounted volume's counters are right only if it is fresh in both, and it is never
fresh in the blocks. -/

/-- One inode in use leaves the others' bits clear, and a second one takes its own. -/
theorem one_inode (c : Consistent ⟨live, ∅, ∅⟩ v) (clear : clearBits v.inodeBits.bytes 128 = 127)
    (member : id ∈ live) : id = 1#32 := by
  by_contra other
  have low := (c.valid id member).1
  have high := (c.valid id member).2
  have second : id.toNat - 1 ≠ 0 := by
    intro first
    exact other (BitVec.eq_of_toNat_eq (by change id.toNat = 1; omega))
  have inside : ((Finset.range 128).filter fun i => testBit v.inodeBits.bytes i = false) ⊆
      ((Finset.range 128).erase 0).erase (id.toNat - 1) := by
    intro i memberI
    obtain ⟨below, free⟩ := Finset.mem_filter.mp memberI
    have marked : ∀ x ∈ live, i ≠ x.toNat - 1 := by
      rintro x memberX rfl
      have set := c.marked x memberX
      rw [Volume.ibit, free] at set
      cases set
    exact Finset.mem_erase.mpr ⟨marked id member, Finset.mem_erase.mpr ⟨marked _ c.root, below⟩⟩
  have few := Finset.card_le_card inside
  rw [Finset.card_erase_of_mem (Finset.mem_erase.mpr ⟨second, Finset.mem_range.mpr (by omega)⟩),
    Finset.card_erase_of_mem (Finset.mem_range.mpr (by decide)), Finset.card_range] at few
  rw [clearBits] at clear
  omega

/-- With the root alone, at most nine blocks are taken. -/
theorem root_blocks (c : Consistent ⟨live, ∅, ∅⟩ v) (small : SmallRoot v)
    (alone : ∀ id ∈ live, id = 1#32) : 1015 ≤ clearBits v.blockBits.bytes 1024 := by
  let taken : Finset Nat := Finset.range 7 ∪ {((v.inode 1#32).directBlocks 0).toNat - 1,
    ((v.inode 1#32).directBlocks 1).toNat - 1}
  have inside : Finset.range 1024 \ taken ⊆
      (Finset.range 1024).filter fun i => testBit v.blockBits.bytes i = false := by
    intro i member
    obtain ⟨below, free⟩ := Finset.mem_sdiff.mp member
    have below := Finset.mem_range.mp below
    refine Finset.mem_filter.mpr ⟨Finset.mem_range.mpr below, ?_⟩
    by_contra set
    have number : (BitVec.ofNat 32 (i + 1)).toNat = i + 1 := ofNat_succ_toNat (by omega)
    have data : 7 ≤ i := by
      by_contra reserved
      exact free (Finset.mem_union_left _ (Finset.mem_range.mpr (by omega)))
    have owned := c.blocks (BitVec.ofNat 32 (i + 1)) (by omega) (by omega) (by
      rw [number, Nat.add_sub_cancel, Volume.bbit]
      exact Bool.not_eq_false _ ▸ set)
    obtain ⟨id, memberId, k, eq⟩ := owned.resolve_left (Set.notMem_empty _)
    obtain rfl := alone id memberId
    have place : ((v.inode 1#32).directBlocks k).toNat - 1 = i := by rw [eq, number]; rfl
    refine free (Finset.mem_union_right _ ?_)
    rw [Finset.mem_insert, Finset.mem_singleton]
    by_cases high : 2 ≤ k.val
    · have := small.blocks k high
      rw [this] at eq
      have := congrArg BitVec.toNat eq
      rw [number] at this
      cases this
    · have := k.isLt
      rcases Nat.lt_or_ge k.val 1 with zero | one
      · obtain rfl : k = 0 := Fin.ext (by change k.val = 0; omega)
        exact .inl place.symm
      · obtain rfl : k = 1 := Fin.ext (by change k.val = 1; omega)
        exact .inr place.symm
  have few : taken.card ≤ 9 := (Finset.card_union_le _ _).trans (by
    have pair := Finset.card_le_two (a := ((v.inode 1#32).directBlocks 0).toNat - 1)
      (b := ((v.inode 1#32).directBlocks 1).toNat - 1)
    rw [Finset.card_range]
    omega)
  have many := Finset.card_le_card inside
  have rest := Finset.le_card_sdiff taken (Finset.range 1024)
  rw [Finset.card_range] at rest
  rw [clearBits]
  omega

/-- The counters of the state do not agree with the bits, and a mount would not mend that. -/
def Adrift (w : World) : Prop :=
  ∃ v l live i b, Shows v l w ∧ Consistent ⟨live, ∅, ∅⟩ v ∧ SmallRoot v ∧ StaleCounters v ∧
    Lacks w i b ∧ ¬ (i = 0#32 ∧ b = 0#32)

theorem adrift_disagree (adrift : Adrift w) : ¬ CountersAgree w := by
  obtain ⟨v, l, live, i, b, _, _, _, _, lacks, off⟩ := adrift
  exact fun agree => off (lacks.unique agree.lacks)

theorem clearBits_shown {f : Bytes} {x : Block} (content : Block.ofBytes f = x) {n : Nat}
    (small : n ≤ 32768) : clearBits f n = clearBits x.bytes n :=
  clearBits_congr fun i below => testBit_congr (bytes_of_ofBytes content (by omega)).symm

theorem Shows.lacks (shows_ : Shows v l w) : Lacks w
    (BitVec.ofNat 32 (clearBits v.inodeBits.bytes 128) - w.currentSuperblock.freeInodes)
    (BitVec.ofNat 32 (clearBits v.blockBits.bytes 1024) - w.currentSuperblock.freeBlocks) := by
  obtain ⟨ib, inodeBitmap, inodes⟩ := shows_.inodeBits
  obtain ⟨bb, blockBitmap, blocks⟩ := shows_.blockBits
  refine ⟨⟨ib, inodeBitmap, ?_⟩, bb, blockBitmap, ?_⟩
  · rw [shows_.layout.totalInodes, ← clearBits_shown inodes (by decide)]
    change _ + (BitVec.ofNat 32 (clearBits ib.bytes 128) - _) = BitVec.ofNat 32 (clearBits ib.bytes 128)
    bv_omega
  · rw [shows_.layout.totalBlocks, ← clearBits_shown blocks (by decide)]
    change _ + (BitVec.ofNat 32 (clearBits bb.bytes 1024) - _) = BitVec.ofNat 32 (clearBits bb.bytes 1024)
    bv_omega

/-! The superblock a mount reads stays. -/

def KeepsSuperblock (x : Fs α) : Prop := ∀ w, (x w).2.currentSuperblock = w.currentSuperblock

theorem KeepsSuperblock.bind {x : Fs α} {f : α → Fs β} (first : KeepsSuperblock x)
    (second : ∀ a, KeepsSuperblock (f a)) : KeepsSuperblock (x >>= f) :=
  fun w => (second _ _).trans (first w)

theorem keepsSuperblock_kmallocBitmap (n : Nat) (junk : Bytes) :
    KeepsSuperblock (kmallocBitmap n junk) := fun w => (sameStatics_kmalloc _ w).superblock

theorem keepsSuperblock_readBlock (n : BlockNum) : KeepsSuperblock (readBlock n) :=
  fun w => (sameStatics_readBlock n w).superblock

theorem keepsSuperblock_fillInodeBits (n : Nat) (f : Bytes) : KeepsSuperblock (fillInodeBits n f) := by
  refine .bind (fun w => ?_) fun _ _ => rfl
  rw [inodeBits]
  split
  · rfl
  · rfl

theorem keepsSuperblock_fillBlockBits (n : Nat) (f : Bytes) : KeepsSuperblock (fillBlockBits n f) := by
  refine .bind (fun w => ?_) fun _ _ => rfl
  rw [blockBits]
  split
  · rfl
  · rfl

theorem mount_superblock (buffer : Block) (inodeJunk blockJunk : Bytes) (w : World) :
    (mount buffer inodeJunk blockJunk w).2.currentSuperblock = Superblock.ofBytes buffer.bytes := by
  have rest : KeepsSuperblock (if (Superblock.ofBytes buffer.bytes).magic ≠ fsMagic then pure ()
      else do
        let ib ← kmallocBitmap (bitmapBlocks (Superblock.ofBytes buffer.bytes).totalInodes) inodeJunk
        setInodeBitmap ib
        let bb ← kmallocBitmap (bitmapBlocks (Superblock.ofBytes buffer.bytes).totalBlocks) blockJunk
        setBlockBitmap bb
        let inodes ← readBlock (Superblock.ofBytes buffer.bytes).inodeBitmapBlock
        fillInodeBits fsBlockSize inodes.2.bytes
        let blocks ← readBlock (Superblock.ofBytes buffer.bytes).blockBitmapBlock
        fillBlockBits fsBlockSize blocks.2.bytes) := by
    split
    · exact fun _ => rfl
    · refine (keepsSuperblock_kmallocBitmap _ _).bind fun ib => .bind (fun _ => rfl) fun _ => ?_
      refine (keepsSuperblock_kmallocBitmap _ _).bind fun bb => .bind (fun _ => rfl) fun _ => ?_
      refine (keepsSuperblock_readBlock _).bind fun inodes => ?_
      refine (keepsSuperblock_fillInodeBits _ _).bind fun _ => ?_
      exact (keepsSuperblock_readBlock _).bind fun blocks => keepsSuperblock_fillBlockBits _ _
  exact rest { w with currentSuperblock := Superblock.ofBytes buffer.bytes }

theorem fsInit_superblock (readable : w.readFaults 0 = none) (inodeJunk blockJunk : Bytes) :
    (fsInit inodeJunk blockJunk w).2.currentSuperblock = Superblock.ofBytes (w.disk 0#32).bytes := by
  rw [fsInit, bind_apply, readBlock, readable]
  exact mount_superblock _ _ _ _

theorem adrift_call (call : Call) (adrift : Adrift w) (inUse : CallInUse w call) :
    Adrift (step w call) := by
  obtain ⟨v, l, live, i, b, shows_, c, small, stale, lacks, off⟩ := adrift
  have member := (c.inUse_iff shows_).mp inUse.1
  obtain ⟨live', track⟩ := track_perform c call member inUse.2
  have proper := proper_perform shows_ c.writtenThrough call (callClear_of_consistent shows_ c call member)
  have image : (v.step call).disk 0#32 = v.disk 0#32 := disk_zero proper
  refine ⟨v.step call, l, live', i, b, shows_.step call, track.final, small.step c call member, ?_,
    balancedAt_perform c call member w i b shows_ lacks, off⟩
  exact ⟨by rw [image]; exact stale.inodes, by rw [image]; exact stale.blocks⟩

theorem adrift_remount (inodeJunk blockJunk : Bytes) (adrift : Adrift w) :
    Adrift (fsInit inodeJunk blockJunk (powerCycle w)).2 := by
  obtain ⟨v, l, live, _, _, shows_, c, small, stale, _, _⟩ := adrift
  have healthy : Healthy (powerCycle w) :=
    ⟨shows_.healthy.reads, shows_.healthy.writes, shows_.healthy.kmallocs⟩
  have image : (powerCycle w).disk = v.disk := shows_.disk
  have layout := c.synced.layout
  rw [← image] at layout
  obtain ⟨l', mounted⟩ := fsInit_mounts healthy layout inodeJunk blockJunk
  rw [image, c.synced.inodes, c.synced.blocks] at mounted
  have mounted : Shows v l' (fsInit inodeJunk blockJunk (powerCycle w)).2 := mounted
  have readable : (powerCycle w).readFaults 0 = none := by rw [healthy.reads]
  have super := fsInit_superblock readable inodeJunk blockJunk
  have lacks := mounted.lacks
  refine ⟨v, l', live, _, _, mounted, c, small, stale, lacks, ?_⟩
  rw [super, image, stale.inodes, stale.blocks]
  rintro ⟨inodes, blocks⟩
  have fewInodes : clearBits v.inodeBits.bytes 128 ≤ 128 :=
    (Finset.card_filter_le _ _).trans (le_of_eq (Finset.card_range 128))
  have fewBlocks : clearBits v.blockBits.bytes 1024 ≤ 1024 :=
    (Finset.card_filter_le _ _).trans (le_of_eq (Finset.card_range 1024))
  have one : clearBits v.inodeBits.bytes 128 = 127 := by bv_omega
  have many := root_blocks c small fun id member => one_inode c one member
  bv_omega

theorem adrift_format {buffer : Block} (formattable : Formattable w buffer)
    (inodeJunk blockJunk : Bytes) : Adrift (fsInit inodeJunk blockJunk w).2 := by
  have lacks := lacks_format formattable inodeJunk blockJunk
  have stored := fsInit_stores formattable inodeJunk blockJunk
  obtain ⟨v, l, shows_, fresh, _⟩ := fsInit_formats formattable inodeJunk blockJunk
  obtain ⟨inodes, blocks⟩ := shows_.lacks.unique lacks
  have clearInodes : clearBits v.inodeBits.bytes 128 = 127 := by
    have rest : ((Finset.range 128).filter fun i => testBit v.inodeBits.bytes i = false) =
        (Finset.range 128).erase 0 := by
      ext i
      rw [Finset.mem_filter, Finset.mem_erase, Finset.mem_range, and_comm]
      refine and_congr_left fun below => ?_
      have bit := fresh.inodes i below
      rw [Volume.ibit] at bit
      rw [bit, decide_eq_false_iff_not]
    rw [clearBits, rest, Finset.card_erase_of_mem (Finset.mem_range.mpr (by decide)), Finset.card_range]
  have clearBlocks : clearBits v.blockBits.bytes 1024 = 1017 := by
    have rest : ((Finset.range 1024).filter fun i => testBit v.blockBits.bytes i = false) =
        Finset.range 1024 \ Finset.range 7 := by
      ext i
      rw [Finset.mem_filter, Finset.mem_sdiff, Finset.mem_range, Finset.mem_range]
      refine and_congr_right fun below => ?_
      have bit := fresh.blocks i below
      rw [Volume.bbit] at bit
      rw [bit, decide_eq_false_iff_not]
    rw [clearBits, rest, Finset.card_sdiff_of_subset (Finset.range_subset_range.mpr (by decide)),
      Finset.card_range, Finset.card_range]
  rw [clearInodes] at inodes
  rw [clearBlocks] at blocks
  refine ⟨v, l, {1#32}, 0#32, 6#32, shows_, fresh.consistent, ⟨?_, fun k _ => ?_⟩, ⟨?_, ?_⟩, lacks, ?_⟩
  · rw [fresh.root]
    decide
  · rw [fresh.root]
    rfl
  · rw [← shows_.disk, stored]
    bv_omega
  · rw [← shows_.disk, stored]
    bv_omega
  · exact fun both => absurd both.2 (by decide)

end

/-- Until the first remount the inode counter is right, and the block counter six too low. -/
theorem lacks_until_remount {w : World} {buffer : Block} (formattable : Formattable w buffer)
    (inodeJunk blockJunk : Bytes) (calls : List Call)
    (admitted : Admitted step CallInUse (fsInit inodeJunk blockJunk w).2 calls) :
    Always step (fun w => Lacks w 0#32 6#32) (fsInit inodeJunk blockJunk w).2 calls := by
  refine (always_of_admitted (P := fun w => Settled w ∧ Lacks w 0#32 6#32)
    (fun w call ⟨settled, lacks⟩ inUse => ?_) ⟨settled_format formattable inodeJunk blockJunk,
      lacks_format formattable inodeJunk blockJunk⟩ admitted).mono fun _ kept => kept.2
  refine ⟨settled_step w call settled inUse, ?_⟩
  obtain ⟨v, l, live, shows_, c⟩ := settled
  exact balancedAt_perform c call ((c.inUse_iff shows_).mp inUse.1) w _ _ shows_ lacks

/-- In no state of any run of calls and remounts do both counters agree with their bitmaps. -/
theorem counters_never_agree {w : World} {buffer : Block} (formattable : Formattable w buffer)
    (inodeJunk blockJunk : Bytes) (events : List Event)
    (admitted : Admitted Event.run EventAllowed (fsInit inodeJunk blockJunk w).2 events) :
    Always Event.run (fun w => ¬ CountersAgree w) (fsInit inodeJunk blockJunk w).2 events := by
  refine (always_of_admitted (fun w event adrift allowed => ?_)
    (adrift_format formattable inodeJunk blockJunk) admitted).mono fun _ => adrift_disagree
  cases event with
  | call c => exact adrift_call c adrift allowed
  | remount inodeJunk blockJunk => exact adrift_remount inodeJunk blockJunk adrift

theorem counters_never_agree_blank :
    Always Event.run (fun w => ¬ CountersAgree w) (fsInit (fun _ => 0) (fun _ => 0) blankWorld).2
      [.remount (fun _ => 0) fun _ => 0] :=
  counters_never_agree blankWorld_formattable (fun _ => 0) (fun _ => 0) _ ⟨trivial, trivial⟩

/-- Right after formatting 1011 blocks are counted and 1017 bits are clear. -/
theorem fresh_counters_disagree :
    ¬ ∀ events, Admitted Event.run EventAllowed (fsInit (fun _ => 0) (fun _ => 0) blankWorld).2 events →
      Always Event.run CountersAgree (fsInit (fun _ => 0) (fun _ => 0) blankWorld).2 events :=
  fun always => adrift_disagree (adrift_format blankWorld_formattable _ _) (always [] trivial)

end AstralOS.Fs
