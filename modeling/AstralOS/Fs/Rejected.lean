import AstralOS.Fs.Fs
import AstralOS.Foundation.Runs

/-! A volume whose magic number is wrong: what the superblock it leaves behind lets the
later calls do. -/
namespace AstralOS.Fs
open Foundation AstralOS.Lib

/-- The value a call reports failure with. -/
def Call.failure : Call → Int
  | .create .. => 0
  | .lookup .. => 0
  | .delete .. => -1
  | .read .. => -1
  | .write .. => -1

/-- The call fails, issues no block write and does not go through a null bitmap. -/
structure Fails (w : World) (c : Call) : Prop where
  value : (c.perform w).1.1 = c.failure
  writes : (step w c).issued = w.issued
  bitmaps : (step w c).misuse.count .nullBitmap = w.misuse.count .nullBitmap

/-- The static variables' values at boot, with the volume in the drive. -/
structure Inserted (disk : BlockNum → Block) (w : World) : Prop where
  disk : w.disk = disk
  readable : w.readFaults 0 = none
  inodeBitmap : w.inodeBitmap = none
  blockBitmap : w.blockBitmap = none

/-- Whatever faults follow, after `fs_init` every call of every run fails. -/
def InertImage (disk : BlockNum → Block) : Prop :=
  ∀ w, Inserted disk w → ∀ inodeJunk blockJunk calls,
    Admitted step Fails (fsInit inodeJunk blockJunk w).2 calls

/-- The record `id` of the table the superblock points to. -/
def recordOn (disk : BlockNum → Block) (s : Superblock) (id : BitVec 32) : Inode :=
  Inode.ofBytes ((disk (inodeBlockNum s id)).bytes.drop (inodeOffset id))

/-- No record in reach of block 0's superblock has the type bit of a file or a directory. -/
def BareTable (disk : BlockNum → Block) : Prop :=
  let s := Superblock.ofBytes (disk 0#32).bytes
  ∀ id, id ≠ 0#32 → id ≤ s.totalInodes → ¬ isFile (recordOn disk s id) ∧ ¬ isDir (recordOn disk s id)

/-- What a failed call leaves alone. -/
structure Idle (w w' : World) : Prop where
  disk : w'.disk = w.disk
  issued : w'.issued = w.issued
  misuse : w'.misuse = w.misuse
  superblock : w'.currentSuperblock = w.currentSuperblock
  inodeBitmap : w'.inodeBitmap = w.inodeBitmap
  blockBitmap : w'.blockBitmap = w.blockBitmap

section
variable {w w' w'' : World} {kind : Inode → Prop} [DecidablePred kind] {id : BitVec 32}

theorem Idle.rfl : Idle w w := ⟨by rfl, by rfl, by rfl, by rfl, by rfl, by rfl⟩

theorem Idle.trans (first : Idle w w') (second : Idle w' w'') : Idle w w'' where
  disk := second.disk.trans first.disk
  issued := second.issued.trans first.issued
  misuse := second.misuse.trans first.misuse
  superblock := second.superblock.trans first.superblock
  inodeBitmap := second.inodeBitmap.trans first.inodeBitmap
  blockBitmap := second.blockBitmap.trans first.blockBitmap

theorem idle_readBlock (n : BlockNum) (w : World) : Idle w (readBlock n w).2 := by
  rw [readBlock]
  split
  · exact ⟨rfl, rfl, rfl, rfl, rfl, rfl⟩
  · exact ⟨rfl, rfl, rfl, rfl, rfl, rfl⟩

theorem readBlock_disk {n : BlockNum} (fine : ¬ (readBlock n w).1.1 ≠ 0) :
    (readBlock n w).1.2 = w.disk n := by
  rw [readBlock] at fine ⊢
  split
  · rfl
  · rename_i fault
    simp [fault] at fine

theorem idle_kmalloc (size : Nat) (w : World) : Idle w (kmalloc size w).2 := by
  rw [kmalloc]
  split
  · exact ⟨rfl, rfl, rfl, rfl, rfl, rfl⟩
  · exact ⟨rfl, rfl, rfl, rfl, rfl, rfl⟩

theorem kmalloc_live {size : Nat} {p : Ptr} (given : (kmalloc size w).1 = some p) :
    p ∈ (kmalloc size w).2.live := by
  rw [kmalloc] at given ⊢
  split at given
  · cases given
  · rename_i granted
    rw [if_neg granted]
    obtain rfl := Option.some.inj given
    exact List.mem_cons_self

theorem idle_kfree {p : Ptr} (live : p ∈ w.live) : Idle w (kfree (some p) w).2 := by
  rw [kfree, if_pos live]
  exact ⟨rfl, rfl, rfl, rfl, rfl, rfl⟩

/-- Reading an inode either fails or gives the record on the disk, and changes nothing else. -/
theorem getInode_cases (id : BitVec 32) (w : World) : Idle w (getInode id w).2 ∧
    ((getInode id w).1 = none ∨ ∃ p, (getInode id w).1 = some (p, recordOn w.disk w.currentSuperblock id) ∧
      p ∈ (getInode id w).2.live ∧ id ≠ 0#32 ∧ id ≤ w.currentSuperblock.totalInodes) := by
  rw [getInode, bind_apply, superblock]
  dsimp only
  by_cases invalid : id = 0#32 ∨ w.currentSuperblock.totalInodes < id
  · rw [if_pos invalid]
    exact ⟨.rfl, .inl rfl⟩
  rw [if_neg invalid, bind_apply]
  have idle := idle_readBlock (inodeBlockNum w.currentSuperblock id) w
  have read := readBlock_disk (w := w) (n := inodeBlockNum w.currentSuperblock id)
  generalize readBlock (inodeBlockNum w.currentSuperblock id) w = result at idle read ⊢
  obtain ⟨⟨status, buffer⟩, w1⟩ := result
  dsimp only at idle read ⊢
  by_cases failed : status ≠ 0
  · rw [if_pos failed]
    exact ⟨idle, .inl rfl⟩
  rw [if_neg failed, bind_apply]
  obtain rfl := read failed
  have allocated := idle_kmalloc inodeSize w1
  have live : ∀ p, (kmalloc inodeSize w1).1 = some p → p ∈ (kmalloc inodeSize w1).2.live :=
    fun _ => kmalloc_live
  generalize kmalloc inodeSize w1 = result at allocated live ⊢
  obtain ⟨p, w2⟩ := result
  dsimp only at allocated live ⊢
  cases p with
  | none => exact ⟨idle.trans allocated, .inl rfl⟩
  | some p =>
      rw [not_or] at invalid
      exact ⟨idle.trans allocated, .inr ⟨p, rfl, live p rfl, invalid.1, BitVec.not_lt.mp invalid.2⟩⟩

theorem getInodeOf_none (bare : id ≠ 0#32 → id ≤ w.currentSuperblock.totalInodes →
    ¬ kind (recordOn w.disk w.currentSuperblock id)) :
    (getInodeOf kind id w).1 = none ∧ Idle w (getInodeOf kind id w).2 := by
  obtain ⟨idle, result⟩ := getInode_cases id w
  rw [getInodeOf, bind_apply]
  generalize getInode id w = after at idle result ⊢
  obtain ⟨inode, w1⟩ := after
  dsimp only at idle result ⊢
  obtain rfl | ⟨p, rfl, live, positive, small⟩ := result
  · exact ⟨rfl, idle⟩
  · dsimp only
    rw [if_neg (bare positive small)]
    exact ⟨rfl, idle.trans (idle_kfree live)⟩

/-! With no file and no directory in reach every call ends at the inode. -/

/-- The state `fs_init` leaves. -/
structure Rejected (disk : BlockNum → Block) (w : World) : Prop where
  superblock : w.currentSuperblock = Superblock.ofBytes (disk 0#32).bytes
  disk : w.disk = disk
  inodeBitmap : w.inodeBitmap = none
  blockBitmap : w.blockBitmap = none

variable {disk : BlockNum → Block}

theorem Rejected.idle (rejected : Rejected disk w) (idle : Idle w w') : Rejected disk w' where
  superblock := idle.superblock.trans rejected.superblock
  disk := idle.disk.trans rejected.disk
  inodeBitmap := idle.inodeBitmap.trans rejected.inodeBitmap
  blockBitmap := idle.blockBitmap.trans rejected.blockBitmap

theorem fsInit_rejects (inserted : Inserted disk w)
    (wrong : (Superblock.ofBytes (disk 0#32).bytes).magic ≠ fsMagic) (inodeJunk blockJunk : Bytes) :
    (fsInit inodeJunk blockJunk w).2 = { w with
      readFaults := fun i => w.readFaults (i + 1)
      currentSuperblock := Superblock.ofBytes (disk 0#32).bytes } := by
  rw [fsInit, bind_apply, readBlock, inserted.readable, inserted.disk]
  dsimp only
  rw [if_neg (by decide), mount, bind_apply, if_pos wrong]
  rw [← inserted.disk]
  rfl

theorem rejected_fsInit (inserted : Inserted disk w)
    (wrong : (Superblock.ofBytes (disk 0#32).bytes).magic ≠ fsMagic) (inodeJunk blockJunk : Bytes) :
    Rejected disk (fsInit inodeJunk blockJunk w).2 := by
  rw [fsInit_rejects inserted wrong]
  exact ⟨rfl, inserted.disk, inserted.inodeBitmap, inserted.blockBitmap⟩

/-- The end of every call that finds no inode of its kind. -/
theorem stops {α β : Type} {x : Fs (Option α)} {f : Option α → Fs β} {b : β}
    (stopped : (x w).1 = none ∧ Idle w (x w).2) (ends : f none = pure b) :
    ((x >>= f) w).1 = b ∧ Idle w ((x >>= f) w).2 := by
  obtain ⟨value, idle⟩ := stopped
  rw [bind_apply, value, ends]
  exact ⟨rfl, idle⟩

theorem tooLong {β : Type} {c : Prop} [Decidable c] {x : Fs β} {b : β}
    (stopped : (x w).1 = b ∧ Idle w (x w).2) :
    ((if c then pure b else x : Fs β) w).1 = b ∧ Idle w ((if c then pure b else x : Fs β) w).2 := by
  by_cases long : c
  · rw [if_pos long]
    exact ⟨rfl, .rfl⟩
  · rw [if_neg long]
    exact stopped

/-- A call that finds neither a file nor a directory fails, and does nothing. -/
theorem perform_stopped (noFile : ∀ id, (getInodeOf isFile id w).1 = none ∧ Idle w (getInodeOf isFile id w).2)
    (noDir : ∀ id, (getInodeOf isDir id w).1 = none ∧ Idle w (getInodeOf isDir id w).2) (c : Call) :
    (c.perform w).1.1 = c.failure ∧ Idle w (step w c) := by
  cases c with
  | create d name type padding =>
      obtain ⟨value, idle⟩ : (fsCreate d name type padding w).1 = 0#32 ∧
          Idle w (fsCreate d name type padding w).2 := tooLong (stops (noDir d) rfl)
      refine ⟨?_, idle⟩
      change ((fsCreate d name type padding w).1.toNat : Int) = 0
      rw [value]
      rfl
  | delete d name =>
      exact tooLong (c := fsMaxFilenameLen < strlen name) (stops (noDir d) rfl)
  | lookup d name =>
      obtain ⟨value, idle⟩ : (fsLookup d name w).1 = 0#32 ∧ Idle w (fsLookup d name w).2 :=
        tooLong (stops (noDir d) rfl)
      refine ⟨?_, idle⟩
      change ((fsLookup d name w).1.toNat : Int) = 0
      rw [value]
      rfl
  | read id offset count =>
      obtain ⟨value, idle⟩ : (fsRead id offset count w).1 = (-1, []) ∧
        Idle w (fsRead id offset count w).2 := stops (noFile id) rfl
      exact ⟨congrArg Prod.fst value, idle⟩
  | write id offset buffer count =>
      have stopped : (fsWrite id offset buffer count w).1 = -1 ∧
        Idle w (fsWrite id offset buffer count w).2 := stops (noFile id) rfl
      exact stopped

theorem perform_rejected (rejected : Rejected disk w) (bare : BareTable disk) (c : Call) :
    (c.perform w).1.1 = c.failure ∧ Idle w (step w c) := by
  refine perform_stopped (fun id => getInodeOf_none fun positive small => ?_)
    (fun id => getInodeOf_none fun positive small => ?_) c
  · rw [rejected.superblock] at small ⊢
    rw [rejected.disk]
    exact (bare id positive small).1
  · rw [rejected.superblock] at small ⊢
    rw [rejected.disk]
    exact (bare id positive small).2

theorem Idle.fails {c : Call} (value : (c.perform w).1.1 = c.failure) (idle : Idle w (step w c)) :
    Fails w c := ⟨value, idle.issued, by rw [idle.misuse]⟩

theorem inert_of_bare (wrong : (Superblock.ofBytes (disk 0#32).bytes).magic ≠ fsMagic)
    (bare : BareTable disk) : InertImage disk := by
  intro w inserted inodeJunk blockJunk calls
  have start := rejected_fsInit inserted wrong inodeJunk blockJunk
  generalize (fsInit inodeJunk blockJunk w).2 = w at start
  induction calls generalizing w with
  | nil => trivial
  | cons c rest ih =>
      obtain ⟨value, idle⟩ := perform_rejected start bare c
      exact ⟨idle.fails value, ih _ (start.idle idle)⟩

/-! A file in reach takes an empty write. A directory in reach either has the name that is
looked up, or a create there asks the null bitmap for an inode. -/

/-- A healthy device, before `fs_init`. -/
def bootWorld (disk : BlockNum → Block) (live : List Ptr) : World where
  disk := disk
  readFaults := fun _ => none
  writeFaults := fun _ => false
  kmallocFaults := fun _ => false
  live := live
  issued := []
  misuse := []
  currentSuperblock := Superblock.zero
  inodeBitmap := none
  blockBitmap := none

/-- And after it. -/
def rejectedWorld (disk : BlockNum → Block) (live : List Ptr) : World :=
  { bootWorld disk live with currentSuperblock := Superblock.ofBytes (disk 0#32).bytes }

variable {live : List Ptr} {name : CString}

theorem inserted_boot (disk : BlockNum → Block) (live : List Ptr) : Inserted disk (bootWorld disk live) :=
  ⟨rfl, rfl, rfl, rfl⟩

theorem fsInit_boot (wrong : (Superblock.ofBytes (disk 0#32).bytes).magic ≠ fsMagic)
    (inodeJunk blockJunk : Bytes) :
    (fsInit inodeJunk blockJunk (bootWorld disk live)).2 = rejectedWorld disk live := by
  rw [fsInit_rejects (inserted_boot disk live) wrong]
  rfl

theorem kfree_rejectedWorld (p : Ptr) :
    kfree (some p) (rejectedWorld disk (p :: live)) = ((), rejectedWorld disk live) := by
  have given : p ∈ (rejectedWorld disk (p :: live)).live := List.mem_cons_self
  rw [kfree, if_pos given, rejectedWorld, rejectedWorld, bootWorld, bootWorld]
  simp

theorem getInodeOf_rejectedWorld (positive : id ≠ 0#32)
    (small : id ≤ (Superblock.ofBytes (disk 0#32).bytes).totalInodes)
    (found : kind (recordOn disk (Superblock.ofBytes (disk 0#32).bytes) id)) :
    getInodeOf kind id (rejectedWorld disk live) =
      (some (freshPtr live, recordOn disk (Superblock.ofBytes (disk 0#32).bytes) id),
        rejectedWorld disk (freshPtr live :: live)) := by
  have valid : ¬ (id = 0#32 ∨ (rejectedWorld disk live).currentSuperblock.totalInodes < id) :=
    not_or.mpr ⟨positive, BitVec.not_lt.mpr small⟩
  have copied : getInode id (rejectedWorld disk live) =
      (some (freshPtr live, recordOn disk (Superblock.ofBytes (disk 0#32).bytes) id),
        rejectedWorld disk (freshPtr live :: live)) := by
    rw [getInode, bind_apply, superblock]
    dsimp only
    rw [if_neg valid]
    rfl
  rw [getInodeOf, bind_apply, copied]
  dsimp only
  rw [if_pos found]
  rfl

theorem fsWrite_empty (positive : id ≠ 0#32)
    (small : id ≤ (Superblock.ofBytes (disk 0#32).bytes).totalInodes)
    (found : isFile (recordOn disk (Superblock.ofBytes (disk 0#32).bytes) id)) (buffer : Bytes) :
    (fsWrite id 0#64 buffer 0#64 (rejectedWorld disk live)).1 = 0 := by
  rw [fsWrite, bind_apply, getInodeOf_rejectedWorld positive small found]
  dsimp only
  rw [bind_apply, writeLoop, dif_neg (by decide)]
  dsimp only [pure_apply]
  rw [if_pos rfl, if_neg (by simp)]
  rfl

theorem scan_rejectedWorld (dir : Inode) (name : CString) (is : List (Fin 10)) :
    (scan dir name is (rejectedWorld disk live)).2 = rejectedWorld disk live := by
  induction is with
  | nil => rfl
  | cons i rest ih =>
      rw [scan]
      split
      · exact ih
      · rw [bind_apply]
        have read : readBlock (dir.directBlocks i) (rejectedWorld disk live) =
          ((0, disk (dir.directBlocks i)), rejectedWorld disk live) := rfl
        rw [read]
        dsimp only
        cases findEntry (disk (dir.directBlocks i)) name with
        | none => exact ih
        | some j => rfl

theorem fsLookup_rejectedWorld (positive : id ≠ 0#32)
    (small : id ≤ (Superblock.ofBytes (disk 0#32).bytes).totalInodes)
    (found : isDir (recordOn disk (Superblock.ofBytes (disk 0#32).bytes) id)) (name : CString) :
    (fsLookup id name (rejectedWorld disk live)).2 = rejectedWorld disk live := by
  rw [fsLookup]
  split
  · rfl
  · rw [bind_apply, getInodeOf_rejectedWorld positive small found]
    dsimp only
    rw [bind_apply, bind_apply, scan_rejectedWorld, kfree_rejectedWorld]
    generalize (scan _ name indices _).1 = place
    cases place with
    | none => rfl
    | some place => rfl

end

/-- The action does not unrecord a use of a null bitmap. -/
def Grows {α : Type} (x : Fs α) : Prop :=
  ∀ w, w.misuse.count .nullBitmap ≤ (x w).2.misuse.count .nullBitmap

section
variable {α β : Type} {w : World} {disk : BlockNum → Block}

theorem grows_of_idle {x : Fs α} (idle : ∀ w, Idle w (x w).2) : Grows x :=
  fun w => le_of_eq (by rw [(idle w).misuse])

theorem grows_pure (a : α) : Grows (pure a : Fs α) := fun _ => le_rfl

theorem Grows.bind {x : Fs α} {f : α → Fs β} (first : Grows x) (second : ∀ a, Grows (f a)) :
    Grows (x >>= f) := fun w => (first w).trans (second _ _)

theorem Grows.ite {c : Prop} [Decidable c] {x y : Fs α} (yes : Grows x) (no : Grows y) :
    Grows (if c then x else y) := by
  split
  · exact yes
  · exact no

theorem grows_superblock : Grows superblock := fun _ => le_rfl

theorem grows_setSuperblock (s : Superblock) : Grows (setSuperblock s) := fun _ => le_rfl

theorem grows_setInodeBits (f : Bytes) : Grows (setInodeBits f) := fun _ => le_rfl

theorem grows_setBlockBits (f : Bytes) : Grows (setBlockBits f) := fun _ => le_rfl

theorem grows_writeBlock (n : BlockNum) (b : Block) : Grows (writeBlock n b) := by
  intro w
  rw [writeBlock]
  split
  · exact le_rfl
  · exact le_rfl

theorem grows_kfree (p : Ptr) : Grows (kfree (some p)) := by
  intro w
  rw [kfree]
  split
  · exact le_rfl
  · dsimp only
    rw [List.count_append]
    exact Nat.le_add_right _ _

theorem grows_blockBits : Grows blockBits := by
  intro w
  rw [blockBits]
  split
  · exact le_rfl
  · dsimp only
    rw [List.count_append]
    exact Nat.le_add_right _ _

theorem grows_writeInode (id : BitVec 32) (r : Inode) : Grows (writeInode id r) :=
  grows_superblock.bind fun _ => .ite (grows_pure _)
    ((grows_of_idle (idle_readBlock _)).bind fun _ => .ite (grows_pure _) (grows_writeBlock _ _))

theorem grows_allocateBlock : Grows allocateBlock := by
  refine grows_superblock.bind fun s => .ite (grows_pure _) (grows_blockBits.bind fun bits => ?_)
  cases firstClear bits s.totalBlocks.toNat with
  | none => exact grows_pure _
  | some i =>
      exact (grows_setBlockBits _).bind fun _ => (grows_setSuperblock _).bind fun _ =>
        (grows_writeBlock _ _).bind fun _ => grows_pure _

theorem grows_directoryBlock (dir : Inode) (i : Fin 10) : Grows (directoryBlock dir i) :=
  .ite (grows_allocateBlock.bind fun _ => .ite (grows_pure _) (grows_pure _))
    ((grows_of_idle (idle_readBlock _)).bind fun _ => grows_pure _)

theorem grows_insertEntry (d : BitVec 32) (entry : Bytes) (dir : Inode) (is : List (Fin 10)) :
    Grows (insertEntry d entry dir is) := by
  induction is generalizing dir with
  | nil => exact grows_pure _
  | cons i rest ih =>
      refine (grows_directoryBlock dir i).bind fun start => ?_
      cases start with
      | none => exact grows_pure _
      | some start =>
          obtain ⟨dir, buffer⟩ := start
          dsimp only
          cases freeEntry buffer with
          | none => exact ih dir
          | some j =>
              exact (grows_writeBlock _ _).bind fun _ => (grows_writeInode _ _).bind fun _ => grows_pure _

/-- Asking for an inode goes through the bitmap whenever the volume has inodes at all. -/
theorem allocateInode_null (null : w.inodeBitmap = none) (some_ : w.currentSuperblock.totalInodes ≠ 0#32) :
    w.misuse.count .nullBitmap < (allocateInode w).2.misuse.count .nullBitmap := by
  have used : inodeBits w = (fun _ => 0#8, { w with misuse := w.misuse ++ [.nullBitmap] }) := by
    rw [inodeBits, null]
  have more : w.misuse.count .nullBitmap < (w.misuse ++ [Misuse.nullBitmap]).count .nullBitmap := by
    rw [List.count_append]
    exact Nat.lt_succ_self _
  rw [allocateInode, bind_apply, superblock]
  dsimp only
  rw [if_neg some_, bind_apply, used]
  refine more.trans_le ?_
  dsimp only
  cases firstClear (fun _ => 0#8) w.currentSuperblock.totalInodes.toNat with
  | none => exact le_rfl
  | some i =>
      have rest : Grows (do
          setInodeBits (setBit (fun _ => 0#8) i)
          setSuperblock { w.currentSuperblock with freeInodes := w.currentSuperblock.freeInodes - 1 }
          let _ ← writeBlock w.currentSuperblock.inodeBitmapBlock (Block.ofBytes (setBit (fun _ => 0#8) i))
          pure (BitVec.ofNat 32 (i + 1))) :=
        (grows_setInodeBits _).bind fun _ => (grows_setSuperblock _).bind fun _ =>
          (grows_writeBlock _ _).bind fun _ => grows_pure _
      exact rest { w with misuse := w.misuse ++ [.nullBitmap] }

theorem fsCreate_null {id : BitVec 32} {name : CString} (type : BitVec 16) (padding : Bytes)
    {live : List Ptr} (short : strlen name ≤ fsMaxFilenameLen) (positive : id ≠ 0#32)
    (small : id ≤ (Superblock.ofBytes (disk 0#32).bytes).totalInodes)
    (found : isDir (recordOn disk (Superblock.ofBytes (disk 0#32).bytes) id))
    (free : (fsLookup id name (rejectedWorld disk (freshPtr live :: live))).1 = 0#32) :
    (rejectedWorld disk live).misuse.count .nullBitmap <
      (fsCreate id name type padding (rejectedWorld disk live)).2.misuse.count .nullBitmap := by
  have some_ : (Superblock.ofBytes (disk 0#32).bytes).totalInodes ≠ 0#32 := by
    intro zero
    rw [zero] at small
    exact positive (BitVec.le_zero_iff.mp small)
  rw [fsCreate, if_neg (Nat.not_lt.mpr short), bind_apply, getInodeOf_rejectedWorld positive small found]
  dsimp only
  rw [bind_apply, free, fsLookup_rejectedWorld positive small found, if_neg (fun used => used rfl),
    bind_apply]
  refine (allocateInode_null (w := rejectedWorld disk (freshPtr live :: live)) rfl some_).trans_le ?_
  generalize allocateInode (rejectedWorld disk (freshPtr live :: live)) = after
  have rest : Grows (if after.1 = 0#32 then do
        kfree (some (freshPtr live))
        pure 0#32
      else do
        let _ ← writeInode after.1 (newInode after.1 type)
        insertEntry id (newEntry after.1 name padding)
          (recordOn disk (Superblock.ofBytes (disk 0#32).bytes) id) indices
        kfree (some (freshPtr live))
        pure after.1) :=
    .ite ((grows_kfree _).bind fun _ => grows_pure _) ((grows_writeInode _ _).bind fun _ =>
      (grows_insertEntry _ _ _ _).bind fun _ => (grows_kfree _).bind fun _ => grows_pure _)
  exact rest after.2

theorem bare_of_inert (wrong : (Superblock.ofBytes (disk 0#32).bytes).magic ≠ fsMagic)
    (inert : InertImage disk) : BareTable disk := by
  intro id positive small
  constructor
  · intro file
    have run := inert _ (inserted_boot disk []) (fun _ => 0) (fun _ => 0)
      [.write id 0#64 (fun _ => 0#8) 0#64]
    rw [fsInit_boot wrong] at run
    have failed : (fsWrite id 0#64 (fun _ => 0#8) 0#64 (rejectedWorld disk [])).1 = -1 := run.1.value
    rw [fsWrite_empty positive small file] at failed
    cases failed
  · intro dir
    let name : CString := ⟨[], by decide⟩
    have looked := inert _ (inserted_boot disk [freshPtr []]) (fun _ => 0) (fun _ => 0) [.lookup id name]
    rw [fsInit_boot wrong] at looked
    have free : ((fsLookup id name (rejectedWorld disk [freshPtr []])).1.toNat : Int) = 0 := looked.1.value
    have created := inert _ (inserted_boot disk []) (fun _ => 0) (fun _ => 0)
      [.create id name 0#16 fun _ => 0#8]
    rw [fsInit_boot wrong] at created
    have grown := fsCreate_null 0#16 (fun _ => 0#8) (Nat.zero_le _) positive small dir
      (BitVec.eq_of_toNat_eq (Int.ofNat.inj free))
    exact absurd created.1.bitmaps grown.ne'

end

/-- A rejected volume is inert exactly when no record its superblock reaches is of a file
or a directory. -/
theorem rejected_inert_iff (disk : BlockNum → Block)
    (wrong : (Superblock.ofBytes (disk 0#32).bytes).magic ≠ fsMagic) :
    InertImage disk ↔ BareTable disk := ⟨bare_of_inert wrong, inert_of_bare wrong⟩

/-- A volume of another kind: 0x04040404 inodes, as its superblock would have it, and no record of a type that is
known. -/
def foreignDisk (_ : BlockNum) : Block := Block.ofBytes fun _ => 4#8

theorem foreignDisk_byte (n : BlockNum) {i : Nat} (inside : i < 4096) : (foreignDisk n).bytes i = 4#8 :=
  Block.bytes_ofBytes _ inside

theorem foreign_inert : InertImage foreignDisk := by
  have magic : (Superblock.ofBytes (foreignDisk 0#32).bytes).magic = 0x04040404#32 := by
    refine le_eq_of_bytes (by decide) _ fun i below => ?_
    rw [Bytes.drop, foreignDisk_byte _ (by omega)]
    interval_cases i <;> rfl
  refine (rejected_inert_iff foreignDisk ?_).mpr fun id _ _ => ?_
  · rw [magic]
    decide
  · set record := recordOn foreignDisk (Superblock.ofBytes (foreignDisk 0#32).bytes) id
    have type : record.type = 0x0404#16 := by
      refine le_eq_of_bytes (by decide) _ fun i below => ?_
      have last : (id - 1#32).toNat % 46 < 46 := Nat.mod_lt _ (by decide)
      have start : inodeOffset id = 88 * ((id - 1#32).toNat % 46) := rfl
      rw [Bytes.drop, Bytes.drop, foreignDisk_byte _ (by omega)]
      interval_cases i <;> rfl
    rw [isFile, isDir, type]
    decide

/-- A freshly formatted volume, but for its magic number. -/
def spoiledDisk (n : BlockNum) : Block :=
  if n = 0#32 then Block.ofBytes { formatSuperblock with magic := 0#32 }.bytes
  else if n = 3#32 then Block.ofBytes (rootInode 1#32).bytes
  else Block.zero

theorem spoiled_not_inert : ¬ ∀ disk : BlockNum → Block,
    (Superblock.ofBytes (disk 0#32).bytes).magic ≠ fsMagic → InertImage disk := by
  intro claim
  have super : Superblock.ofBytes (spoiledDisk 0#32).bytes = { formatSuperblock with magic := 0#32 } := by
    refine (Superblock.ofBytes_congr fun i hi => ?_).trans (Superblock.ofBytes_bytes _)
    rw [spoiledDisk, if_pos rfl]
    exact Block.bytes_ofBytes _ (hi.trans_le (by decide))
  have root : recordOn spoiledDisk { formatSuperblock with magic := 0#32 } 1#32 = rootInode 1#32 := by
    refine (Inode.ofBytes_congr fun i hi => ?_).trans (Inode.ofBytes_bytes _)
    have block : inodeBlockNum { formatSuperblock with magic := 0#32 } 1#32 = 3#32 := by decide
    have start : inodeOffset 1#32 = 0 := by decide
    rw [block, start, Bytes.drop, Nat.zero_add, spoiledDisk, if_neg (by decide), if_pos rfl]
    exact Block.bytes_ofBytes _ (hi.trans_le (by decide))
  have wrong : (Superblock.ofBytes (spoiledDisk 0#32).bytes).magic ≠ fsMagic := by
    rw [super]
    decide
  have bare := bare_of_inert wrong (claim spoiledDisk wrong) 1#32 (by decide)
  rw [super, root] at bare
  exact (bare (by decide)).2 (by decide)

end AstralOS.Fs
