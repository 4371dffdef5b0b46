import AstralOS.Fs.Fs

/-! What the calls take from the kernel heap and give back to it, on any device and whatever
the heap refuses. -/
namespace AstralOS.Fs
open Foundation AstralOS.Lib

def Misuse.freed : Misuse → Option Ptr
  | .nullBitmap => none
  | .badFree p => some p

/-- The pointers that were passed to `kfree` while not live. -/
def World.badFrees (w : World) : List Ptr := w.misuse.filterMap Misuse.freed

/-- With `l` live before, the action leaves `after a` live when it results in `a`, and gives
back only what is live. -/
def Leaves {α : Type} (l : List Ptr) (x : Fs α) (after : α → List Ptr) : Prop :=
  ∀ w : World, w.live = l → (x w).2.live = after (x w).1 ∧ (x w).2.badFrees = w.badFrees

/-- The action gives back what it takes. -/
def Neutral {α : Type} (x : Fs α) : Prop := ∀ l, Leaves l x fun _ => l

section
variable {α β : Type} {l : List Ptr}

theorem leaves_pure (a : α) (after : α → List Ptr) (same : after a = l) : Leaves l (pure a) after :=
  fun _ live => ⟨live.trans same.symm, rfl⟩

theorem neutral_pure (a : α) : Neutral (pure a) := fun _ => leaves_pure a _ rfl

theorem Leaves.bind {x : Fs α} {f : α → Fs β} {after : α → List Ptr} {later : β → List Ptr}
    (first : Leaves l x after) (second : ∀ a, Leaves (after a) (f a) later) :
    Leaves l (x >>= f) later := by
  intro w live
  obtain ⟨live, freed⟩ := first w live
  obtain ⟨live', freed'⟩ := second _ _ live
  exact ⟨live', freed'.trans freed⟩

theorem Neutral.then {x : Fs α} {f : α → Fs β} {later : β → List Ptr} (first : Neutral x)
    (second : ∀ a, Leaves l (f a) later) : Leaves l (x >>= f) later :=
  (first l).bind second

theorem Neutral.bind {x : Fs α} {f : α → Fs β} (first : Neutral x) (second : ∀ a, Neutral (f a)) :
    Neutral (x >>= f) := fun l => first.then fun a => second a l

theorem Leaves.ite {c : Prop} [Decidable c] {x y : Fs α} {after : α → List Ptr}
    (yes : Leaves l x after) (no : Leaves l y after) : Leaves l (if c then x else y) after := by
  by_cases h : c
  · rw [if_pos h]
    exact yes
  · rw [if_neg h]
    exact no

theorem Neutral.ite {c : Prop} [Decidable c] {x y : Fs α} (yes : Neutral x) (no : Neutral y) :
    Neutral (if c then x else y) := fun l => .ite (yes l) (no l)

/-! The primitives. -/

theorem neutral_of_same {x : Fs α} (live : ∀ w, (x w).2.live = w.live)
    (freed : ∀ w, (x w).2.badFrees = w.badFrees) : Neutral x :=
  fun _ w before => ⟨(live w).trans before, freed w⟩

theorem neutral_superblock : Neutral superblock := neutral_of_same (fun _ => rfl) fun _ => rfl

theorem neutral_setSuperblock (s : Superblock) : Neutral (setSuperblock s) :=
  neutral_of_same (fun _ => rfl) fun _ => rfl

theorem neutral_setInodeBits (f : Bytes) : Neutral (setInodeBits f) :=
  neutral_of_same (fun _ => rfl) fun _ => rfl

theorem neutral_setBlockBits (f : Bytes) : Neutral (setBlockBits f) :=
  neutral_of_same (fun _ => rfl) fun _ => rfl

theorem neutral_readBlock (n : BlockNum) : Neutral (readBlock n) := by
  intro l w live
  rw [readBlock]
  cases w.readFaults 0 with
  | none => exact ⟨live, rfl⟩
  | some garbage => exact ⟨live, rfl⟩

theorem neutral_writeBlock (n : BlockNum) (b : Block) : Neutral (writeBlock n b) := by
  intro l w live
  rw [writeBlock]
  cases w.writeFaults 0 with
  | false => exact ⟨live, rfl⟩
  | true => exact ⟨live, rfl⟩

theorem badFrees_nullBitmap (w : World) :
    World.badFrees { w with misuse := w.misuse ++ [.nullBitmap] } = w.badFrees := by
  simp [World.badFrees, List.filterMap_append, Misuse.freed]

theorem neutral_inodeBits : Neutral inodeBits := by
  intro l w live
  rw [inodeBits]
  cases w.inodeBitmap with
  | none => exact ⟨live, badFrees_nullBitmap w⟩
  | some b => exact ⟨live, rfl⟩

theorem neutral_blockBits : Neutral blockBits := by
  intro l w live
  rw [blockBits]
  cases w.blockBitmap with
  | none => exact ⟨live, badFrees_nullBitmap w⟩
  | some b => exact ⟨live, rfl⟩

theorem leaves_kmalloc (size : Nat) : Leaves l (kmalloc size) fun p => p.toList ++ l := by
  intro w live
  rw [kmalloc]
  by_cases refused : size = 0 ∨ w.kmallocFaults 0
  · rw [if_pos refused]
    exact ⟨live, rfl⟩
  · rw [if_neg refused]
    exact ⟨congrArg (List.cons (freshPtr w.live)) live, rfl⟩

theorem leaves_kfree (p : Ptr) : Leaves (p :: l) (kfree (some p)) fun _ => l := by
  intro w live
  have owned : p ∈ w.live := live ▸ List.mem_cons_self
  have rest : w.live.erase p = l := by rw [live, List.erase_cons_head]
  rw [kfree]
  simp only [if_pos owned]
  exact ⟨rest, rfl⟩

/-! Inodes and bitmaps: only the copy of an inode is taken from the heap. -/

theorem neutral_writeInode (id : BitVec 32) (r : Inode) : Neutral (writeInode id r) :=
  neutral_superblock.bind fun _ => .ite (neutral_pure _) <|
    (neutral_readBlock _).bind fun _ => .ite (neutral_pure _) (neutral_writeBlock _ _)

theorem neutral_allocateInode : Neutral allocateInode := by
  refine neutral_superblock.bind fun s => .ite (neutral_pure _) (neutral_inodeBits.bind fun bits => ?_)
  cases firstClear bits s.totalInodes.toNat with
  | none => exact neutral_pure _
  | some i =>
      exact (neutral_setInodeBits _).bind fun _ => (neutral_setSuperblock _).bind fun _ =>
        (neutral_writeBlock _ _).bind fun _ => neutral_pure _

theorem neutral_allocateBlock : Neutral allocateBlock := by
  refine neutral_superblock.bind fun s => .ite (neutral_pure _) (neutral_blockBits.bind fun bits => ?_)
  cases firstClear bits s.totalBlocks.toNat with
  | none => exact neutral_pure _
  | some i =>
      exact (neutral_setBlockBits _).bind fun _ => (neutral_setSuperblock _).bind fun _ =>
        (neutral_writeBlock _ _).bind fun _ => neutral_pure _

theorem neutral_freeInode (id : BitVec 32) : Neutral (freeInode id) :=
  neutral_superblock.bind fun _ => .ite (neutral_pure _) <|
    neutral_inodeBits.bind fun _ => (neutral_setInodeBits _).bind fun _ =>
      (neutral_setSuperblock _).bind fun _ => (neutral_writeBlock _ _).bind fun _ => neutral_pure _

theorem neutral_freeBlock (n : BlockNum) : Neutral (freeBlock n) :=
  neutral_superblock.bind fun _ => .ite (neutral_pure _) <|
    neutral_blockBits.bind fun _ => (neutral_setBlockBits _).bind fun _ =>
      (neutral_setSuperblock _).bind fun _ => (neutral_writeBlock _ _).bind fun _ => neutral_pure _

/-- What is live when `getInode` or `getInodeOf` has ended. -/
def withCopy (l : List Ptr) (found : Option (Ptr × Inode)) : List Ptr :=
  (found.map Prod.fst).toList ++ l

theorem leaves_getInode (id : BitVec 32) : Leaves l (getInode id) (withCopy l) := by
  refine neutral_superblock.then fun s => .ite (leaves_pure _ _ rfl) ?_
  refine (neutral_readBlock _).then fun r => .ite (leaves_pure _ _ rfl) ?_
  refine (leaves_kmalloc _).bind fun p => ?_
  cases p with
  | none => exact leaves_pure _ _ rfl
  | some p => exact leaves_pure _ _ rfl

theorem leaves_getInodeOf (kind : Inode → Prop) [DecidablePred kind] (id : BitVec 32) :
    Leaves l (getInodeOf kind id) (withCopy l) := by
  refine (leaves_getInode id).bind fun inode => ?_
  cases inode with
  | none => exact leaves_pure _ _ rfl
  | some found =>
      obtain ⟨p, r⟩ := found
      exact .ite (leaves_pure _ _ rfl) ((leaves_kfree p).bind fun _ => leaves_pure _ _ rfl)

/-- A body that ends with `kfree` of its copy is neutral. -/
theorem leaves_freeing {x : Fs α} (p : Ptr) (a : β) (body : Neutral x) :
    Leaves (p :: l) (x >>= fun _ => kfree (some p) >>= fun _ => pure a) fun _ => l :=
  body.then fun _ => (leaves_kfree p).bind fun _ => neutral_pure a _

/-- A call that opens with `getInodeOf` is neutral if each of its two continuations is. -/
theorem neutral_getInodeOf {kind : Inode → Prop} [DecidablePred kind] {id : BitVec 32}
    {f : Option (Ptr × Inode) → Fs β} (missing : Neutral (f none))
    (present : ∀ p r l, Leaves (p :: l) (f (some (p, r))) fun _ => l) :
    Neutral (getInodeOf kind id >>= f) := by
  intro l
  refine (leaves_getInodeOf kind id).bind fun inode => ?_
  cases inode with
  | none => exact missing l
  | some found => exact present found.1 found.2 l

/-! The calls. -/

theorem neutral_scan (dir : Inode) (name : CString) (is : List (Fin 10)) :
    Neutral (scan dir name is) := by
  induction is with
  | nil => exact neutral_pure _
  | cons i rest ih =>
      refine .ite ih ((neutral_readBlock _).bind fun r => ?_)
      obtain ⟨status, buffer⟩ := r
      dsimp only
      cases findEntry buffer name with
      | none => exact ih
      | some j => exact neutral_pure _

theorem neutral_fsLookup (parentId : BitVec 32) (name : CString) : Neutral (fsLookup parentId name) := by
  refine .ite (neutral_pure _) (neutral_getInodeOf (neutral_pure _) fun p dir l => ?_)
  refine (neutral_scan dir name indices).then fun found => (leaves_kfree p).bind fun _ => ?_
  cases found with
  | none => exact neutral_pure _ l
  | some place => exact neutral_pure _ l

theorem neutral_directoryBlock (dir : Inode) (i : Fin 10) : Neutral (directoryBlock dir i) :=
  .ite (neutral_allocateBlock.bind fun _ => .ite (neutral_pure _) (neutral_pure _))
    ((neutral_readBlock _).bind fun _ => neutral_pure _)

theorem neutral_insertEntry (parentId : BitVec 32) (entry : Bytes) (dir : Inode) (is : List (Fin 10)) :
    Neutral (insertEntry parentId entry dir is) := by
  induction is generalizing dir with
  | nil => exact neutral_pure _
  | cons i rest ih =>
      refine (neutral_directoryBlock dir i).bind fun start => ?_
      cases start with
      | none => exact neutral_pure _
      | some start =>
          obtain ⟨dir, buffer⟩ := start
          dsimp only
          cases freeEntry buffer with
          | none => exact ih dir
          | some j =>
              exact (neutral_writeBlock _ _).bind fun _ =>
                (neutral_writeInode _ _).bind fun _ => neutral_pure _

/-- The nested `fs_lookup` takes and frees a second copy. -/
theorem neutral_fsCreate (parentId : BitVec 32) (name : CString) (type : BitVec 16) (padding : Bytes) :
    Neutral (fsCreate parentId name type padding) := by
  refine .ite (neutral_pure _) (neutral_getInodeOf (neutral_pure _) fun p dir l => ?_)
  have giveUp : Leaves (p :: l) (kfree (some p) >>= fun _ => pure 0#32) fun _ => l :=
    (leaves_kfree p).bind fun _ => neutral_pure _ l
  refine (neutral_fsLookup parentId name).then fun bound => .ite giveUp ?_
  refine neutral_allocateInode.then fun id => .ite giveUp ?_
  exact (neutral_writeInode _ _).then fun _ => leaves_freeing p id (neutral_insertEntry _ _ _ _)

theorem neutral_freeDirectBlocks (target : Inode) (is : List (Fin 10)) :
    Neutral (freeDirectBlocks target is) := by
  induction is with
  | nil => exact neutral_pure _
  | cons i rest ih => exact (Neutral.ite (neutral_freeBlock _) (neutral_pure _)).bind fun _ => ih

/-- The copy of the parent goes before the copy of the target comes. -/
theorem neutral_fsDelete (parentId : BitVec 32) (name : CString) : Neutral (fsDelete parentId name) := by
  refine .ite (neutral_pure _) (neutral_getInodeOf (neutral_pure _) fun p dir l => ?_)
  refine (neutral_scan dir name indices).then fun found => ?_
  cases found with
  | none => exact (leaves_kfree p).bind fun _ => neutral_pure _ l
  | some place =>
      obtain ⟨i, j, buffer⟩ := place
      refine (neutral_writeBlock _ _).then fun _ => (neutral_writeInode _ _).then fun _ => ?_
      refine (leaves_kfree p).bind fun _ => (leaves_getInode _).bind fun target => ?_
      cases target with
      | none => exact neutral_pure _ l
      | some found =>
          obtain ⟨q, target⟩ := found
          exact (neutral_freeDirectBlocks target indices).then fun _ =>
            leaves_freeing q 0 (neutral_freeInode _)

theorem neutral_readLoop (inode : Inode) (offset count done : Nat) (out : List Byte) :
    Neutral (readLoop inode offset count done out) := by
  induction done, out using readLoop.induct inode offset count with
  | case1 done out more index unused =>
      rw [readLoop, dif_pos more, dif_pos index, if_pos unused]
      exact neutral_pure _
  | case2 done out more index used ih =>
      rw [readLoop, dif_pos more, dif_pos index, if_neg used]
      exact (neutral_readBlock _).bind fun r => .ite (neutral_pure _) (ih r.2)
  | case3 done out more beyond =>
      rw [readLoop, dif_pos more, dif_neg beyond]
      exact neutral_pure _
  | case4 done out finished =>
      rw [readLoop, dif_neg finished]
      exact neutral_pure _

theorem neutral_fsRead (id : BitVec 32) (offset count : BitVec 64) : Neutral (fsRead id offset count) := by
  refine neutral_getInodeOf (neutral_pure _) fun p inode l => .ite ?_ ?_
  · exact (leaves_kfree p).bind fun _ => neutral_pure _ l
  · exact (neutral_readLoop _ _ _ _ _).then fun _ => (leaves_kfree p).bind fun _ => neutral_pure _ l

theorem neutral_targetBlock (id : BitVec 32) (inode : Inode) (i : Fin 10) :
    Neutral (targetBlock id inode i) :=
  .ite (neutral_allocateBlock.bind fun _ => .ite (neutral_pure _) <|
    (neutral_writeInode _ _).bind fun _ => neutral_pure _) (neutral_pure _)

theorem neutral_writeLoop (id : BitVec 32) (buffer : Bytes) (offset count : Nat) (inode : Inode)
    (done : Nat) : Neutral (writeLoop id buffer offset count inode done) := by
  induction inode, done using writeLoop.induct offset count with
  | case1 inode done more index ih =>
      rw [writeLoop, dif_pos more, dif_pos index]
      refine (neutral_targetBlock _ _ _).bind fun target => ?_
      cases target with
      | none => exact neutral_pure _
      | some target =>
          obtain ⟨n, inode⟩ := target
          refine (neutral_readBlock _).bind fun r => .ite (neutral_pure _) ?_
          exact (neutral_writeBlock _ _).bind fun _ => ih inode
  | case2 inode done more beyond =>
      rw [writeLoop, dif_pos more, dif_neg beyond]
      exact neutral_pure _
  | case3 inode done finished =>
      rw [writeLoop, dif_neg finished]
      exact neutral_pure _

theorem neutral_fsWrite (id : BitVec 32) (offset : BitVec 64) (buffer : Bytes) (count : BitVec 64) :
    Neutral (fsWrite id offset buffer count) := by
  refine neutral_getInodeOf (neutral_pure _) fun p inode l => ?_
  refine (neutral_writeLoop _ _ _ _ _ _).then fun r => ?_
  have done (n : Int) : Leaves (p :: l) (kfree (some p) >>= fun _ => pure n) fun _ => l :=
    (leaves_kfree p).bind fun _ => neutral_pure _ l
  exact .ite (.ite (leaves_freeing p _ (neutral_writeInode _ _)) (done _)) (done _)

theorem neutral_perform (c : Call) : Neutral c.perform := by
  cases c with
  | create parentId name type padding =>
      exact (neutral_fsCreate _ _ _ _).bind fun _ => neutral_pure _
  | delete parentId name => exact (neutral_fsDelete _ _).bind fun _ => neutral_pure _
  | lookup parentId name => exact (neutral_fsLookup _ _).bind fun _ => neutral_pure _
  | read id offset count => exact neutral_fsRead id offset count
  | write id offset buffer count => exact (neutral_fsWrite _ _ _ _).bind fun _ => neutral_pure _

end

/-- Whatever the device and the heap do, a call ends with the allocations it began with, and
frees nothing that is not live. -/
theorem calls_heap_neutral (w : World) (c : Call) :
    (step w c).live = w.live ∧ (step w c).badFrees = w.badFrees := by
  exact neutral_perform c w.live w rfl

end AstralOS.Fs
