import AstralOS.Fs.AllOrNothing
import AstralOS.Fs.Deleted
import AstralOS.Fs.HeapNeutral
import AstralOS.Fs.WriteAnywhere

/-! Calls on a device that fails: which failures a call reports before it has changed anything. -/
namespace AstralOS.Fs
open Foundation AstralOS.Lib

/-- How the device calls that one file-system call makes come out, in order: a read that fails
leaves some bytes in the buffer. Calls it does not make are taken to succeed. -/
structure Outcomes where
  reads : Nat → Option Block
  writes : Nat → Bool

/-- Nothing fails. -/
def Outcomes.fine : Outcomes := ⟨fun _ => none, fun _ => false⟩

/-- The same world with these outcomes ahead of it; the heap gives what it is asked for. -/
def World.meeting (w : World) (o : Outcomes) : World :=
  { w with readFaults := o.reads, writeFaults := o.writes, kmallocFaults := fun _ => false }

/-- The same world with a working device. -/
def World.repaired (w : World) : World := w.meeting .fine

/-- A file-system call and the outcomes of its device calls. -/
def attempt (w : World) (a : Call × Outcomes) : World := step (w.meeting a.2) a.1

/-- What lookups and reads show of the device once it works, and the sizes they go by. -/
structure SameView (w w' : World) : Prop where
  names : ∀ d name, (fsLookup d name w'.repaired).1 = (fsLookup d name w.repaired).1
  sizes : ∀ id, (storedInode w' id).size = (storedInode w id).size
  contents : ∀ id offset count, (fsRead id offset count w'.repaired).1 = (fsRead id offset count w.repaired).1

/-- The bitmaps on the device are the cached ones. -/
structure BitmapsWritten (w : World) : Prop where
  inodes : ∃ b, w.inodeBitmap = some b ∧ w.disk w.currentSuperblock.inodeBitmapBlock = Block.ofBytes b.bytes
  blocks : ∃ b, w.blockBitmap = some b ∧ w.disk w.currentSuperblock.blockBitmapBlock = Block.ofBytes b.bytes

/-- On the device the inode that was `id` in `w`, and its blocks, are free. -/
structure Freed (w w' : World) (id : BitVec 32) : Prop where
  inode : testBit (w'.disk w'.currentSuperblock.inodeBitmapBlock).bytes (id.toNat - 1) = false
  blocks : ∀ k, (storedInode w id).directBlocks k ≠ 0#32 →
    testBit (w'.disk w'.currentSuperblock.blockBitmapBlock).bytes
      (((storedInode w id).directBlocks k).toNat - 1) = false

/-- What a call says it has done by its result is on the device. -/
def Done (w w' : World) (r : Int) : Call → Prop
  | .create d name _ _ => r ≠ 0 → (((fsLookup d name w'.repaired).1.toNat : Nat) : Int) = r ∧ BitmapsWritten w'
  | .delete d name => r = 0 → (fsLookup d name w'.repaired).1 = 0#32 ∧
      Freed w w' (fsLookup d name w.repaired).1 ∧ BitmapsWritten w'
  | .write id offset buffer _ => ∀ m : Nat, 0 < m → r = m →
      (fsRead id offset (BitVec.ofNat 64 m) w'.repaired).1 = ((m : Int), (List.range m).map buffer) ∧
        BitmapsWritten w'
  | .lookup .. => True
  | .read .. => True

/-- A call is done when it says so, and has done nothing when it says it failed. -/
structure Reported (w : World) (a : Call × Outcomes) : Prop where
  done : Done w (attempt w a) (a.1.perform (w.meeting a.2)).1.1 a.1
  failed : (a.1.perform (w.meeting a.2)).1.1 = a.1.failure → SameView w (attempt w a)

/-- What fails is the read of the inode a call opens with, or the first read of a block that the
file has; or nothing does, and a creation has room for its entry. That nothing fails is said of all the
outcomes, those of device calls that are never made included: such calls are taken to succeed. -/
def Tolerated (w : World) : Call × Outcomes → Prop
  | (.create d name _ _, o) => o.reads 0 ≠ none ∨
      (o = .fine ∧ (CreateAccepted w.repaired d name → RoomFor w.repaired d))
  | (.delete _ _, o) => o.reads 0 ≠ none ∨ o = .fine
  | (.write id offset _ count, o) => o.reads 0 ≠ none ∨ o = .fine ∨
      (o.reads 1 ≠ none ∧ isFile (storedInode w id) ∧ count ≠ 0#64 ∧
        (storedInode w id).place offset.toNat 0 ≠ none)
  | (.lookup _ _, _) => True
  | (.read _ _ _, _) => True

/-! What a call leaves alone when it only reads. -/

/-- Nothing that outlives a call has changed. -/
structure Still (w w' : World) : Prop extends SameStatics w w' where
  disk : w'.disk = w.disk
  live : w'.live = w.live

/-- The action writes nothing. -/
def Reads {α : Type} (x : Fs α) : Prop := ∀ w, SameStatics w (x w).2 ∧ (x w).2.disk = w.disk

section
variable {α β : Type} {w w' w'' : World}

theorem SameStatics.trans (first : SameStatics w w') (second : SameStatics w' w'') : SameStatics w w'' :=
  ⟨second.superblock.trans first.superblock, second.inodeBitmap.trans first.inodeBitmap,
    second.blockBitmap.trans first.blockBitmap⟩

theorem reads_pure (a : α) : Reads (pure a : Fs α) := fun _ => ⟨⟨rfl, rfl, rfl⟩, rfl⟩

theorem Reads.bind {x : Fs α} {f : α → Fs β} (first : Reads x) (second : ∀ a, Reads (f a)) :
    Reads (x >>= f) := by
  intro w
  obtain ⟨statics, disk⟩ := first w
  obtain ⟨statics', disk'⟩ := second (x w).1 (x w).2
  exact ⟨statics.trans statics', disk'.trans disk⟩

theorem Reads.ite {c : Prop} [Decidable c] {x y : Fs α} (yes : Reads x) (no : Reads y) :
    Reads (if c then x else y) := by
  by_cases h : c
  · rwa [if_pos h]
  · rwa [if_neg h]

theorem reads_superblock : Reads superblock := fun _ => ⟨⟨rfl, rfl, rfl⟩, rfl⟩

theorem reads_readBlock (n : BlockNum) : Reads (readBlock n) := by
  refine fun w => ⟨sameStatics_readBlock n w, ?_⟩
  rw [readBlock]
  split
  · rfl
  · rfl

theorem reads_kmalloc (size : Nat) : Reads (kmalloc size) := by
  refine fun w => ⟨sameStatics_kmalloc size w, ?_⟩
  rw [kmalloc]
  split
  · rfl
  · rfl

theorem reads_kfree (p : Option Ptr) : Reads (kfree p) := by
  refine fun w => ⟨sameStatics_kfree p w, ?_⟩
  cases p with
  | none => rfl
  | some p =>
      simp only [kfree]
      split
      · rfl
      · rfl

theorem reads_getInode (id : BitVec 32) : Reads (getInode id) :=
  reads_superblock.bind fun _ => .ite (reads_pure _) <| (reads_readBlock _).bind fun _ =>
    .ite (reads_pure _) <| (reads_kmalloc _).bind fun _ => reads_pure _

theorem reads_getInodeOf (kind : Inode → Prop) [DecidablePred kind] (id : BitVec 32) :
    Reads (getInodeOf kind id) := by
  refine (reads_getInode id).bind fun inode => ?_
  cases inode with
  | none => exact reads_pure _
  | some found => exact .ite (reads_pure _) ((reads_kfree _).bind fun _ => reads_pure _)

theorem reads_scan (dir : Inode) (name : CString) (is : List (Fin 10)) : Reads (scan dir name is) := by
  induction is with
  | nil => exact reads_pure _
  | cons i rest ih =>
      refine .ite ih ((reads_readBlock _).bind fun r => ?_)
      obtain ⟨status, buffer⟩ := r
      dsimp only
      cases findEntry buffer name with
      | none => exact ih
      | some j => exact reads_pure _

theorem reads_fsLookup (d : BitVec 32) (name : CString) : Reads (fsLookup d name) := by
  refine .ite (reads_pure _) ((reads_getInodeOf isDir d).bind fun inode => ?_)
  cases inode with
  | none => exact reads_pure _
  | some found =>
      refine (reads_scan found.2 name indices).bind fun place => (reads_kfree _).bind fun _ => ?_
      cases place with
      | none => exact reads_pure _
      | some place => exact reads_pure _

theorem reads_readLoop (inode : Inode) (offset count done : Nat) (out : List Byte) :
    Reads (readLoop inode offset count done out) := by
  induction done, out using readLoop.induct inode offset count with
  | case1 done out more index unused =>
      rw [readLoop, dif_pos more, dif_pos index, if_pos unused]
      exact reads_pure _
  | case2 done out more index used ih =>
      rw [readLoop, dif_pos more, dif_pos index, if_neg used]
      exact (reads_readBlock _).bind fun r => .ite (reads_pure _) (ih r.2)
  | case3 done out more beyond =>
      rw [readLoop, dif_pos more, dif_neg beyond]
      exact reads_pure _
  | case4 done out finished =>
      rw [readLoop, dif_neg finished]
      exact reads_pure _

theorem reads_fsRead (id : BitVec 32) (offset count : BitVec 64) : Reads (fsRead id offset count) := by
  refine (reads_getInodeOf isFile id).bind fun inode => ?_
  cases inode with
  | none => exact reads_pure _
  | some found =>
      refine .ite ((reads_kfree _).bind fun _ => reads_pure _) ?_
      exact (reads_readLoop _ _ _ _ _).bind fun _ => (reads_kfree _).bind fun _ => reads_pure _

theorem still_of_reads {x : Fs α} (reads : Reads x) (neutral : Neutral x) (w : World) : Still w (x w).2 :=
  ⟨(reads w).1, (reads w).2, (neutral w.live w rfl).1⟩

theorem Idle.still (idle : Idle w w') (live : w'.live = w.live) : Still w w' :=
  ⟨⟨idle.superblock, idle.inodeBitmap, idle.blockBitmap⟩, idle.disk, live⟩

/-! The opening of a call. -/

theorem getInode_unreadable (unreadable : w.readFaults 0 ≠ none) (id : BitVec 32) : (getInode id w).1 = none := by
  obtain ⟨garbage, fault⟩ := Option.ne_none_iff_exists'.mp unreadable
  rw [getInode, bind_apply, superblock]
  dsimp only
  by_cases invalid : id = 0#32 ∨ w.currentSuperblock.totalInodes < id
  · rw [if_pos invalid]
    rfl
  · rw [if_neg invalid, bind_apply, readBlock, fault]
    rfl

/-- A call whose opening read fails fails, and changes nothing. -/
theorem unreadable_fails (unreadable : w.readFaults 0 ≠ none) (c : Call) :
    (c.perform w).1.1 = c.failure ∧ Still w (step w c) := by
  have missing (kind : Inode → Prop) [DecidablePred kind] (id : BitVec 32) :
      (getInodeOf kind id w).1 = none ∧ Idle w (getInodeOf kind id w).2 :=
    stops ⟨getInode_unreadable unreadable id, (getInode_cases id w).1⟩ rfl
  obtain ⟨value, idle⟩ := perform_stopped (missing isFile) (missing isDir) c
  exact ⟨value, idle.still (neutral_perform c w.live w rfl).1⟩

/-- The copy of a file's inode, when neither its block nor the heap fails. -/
theorem getInodeOf_file {id : BitVec 32} (valid : ¬ (id = 0#32 ∨ w.currentSuperblock.totalInodes < id))
    (readable : w.readFaults 0 = none) (granted : w.kmallocFaults 0 = false) (file : isFile (storedInode w id)) :
    ∃ p, (getInodeOf isFile id w).1 = some (p, storedInode w id) ∧
      (getInodeOf isFile id w).2.readFaults 0 = w.readFaults 1 := by
  have some_ : ¬ (inodeSize = 0 ∨ w.kmallocFaults 0) := by
    rw [granted, inodeSize]
    decide
  have copy : getInode id w = (some (freshPtr w.live, storedInode w id), { w with
      readFaults := fun i => w.readFaults (i + 1), kmallocFaults := fun i => w.kmallocFaults (i + 1),
      live := freshPtr w.live :: w.live }) := by
    rw [getInode, bind_apply, superblock]
    dsimp only
    rw [if_neg valid, bind_apply, readBlock, readable]
    dsimp only
    rw [if_neg (not_not.mpr rfl), bind_apply, kmalloc, if_neg some_]
    rfl
  refine ⟨freshPtr w.live, ?_⟩
  rw [getInodeOf, bind_apply, copy]
  dsimp only
  rw [if_pos file]
  exact ⟨rfl, rfl⟩

/-- The loop of `fs_write` ends at once when it cannot read the block it starts in. -/
theorem writeLoop_unreadable (unreadable : w.readFaults 0 ≠ none) (id : BitVec 32) (buffer : Bytes)
    {inode : Inode} {offset count : Nat} (some_ : 0 < count) (place : inode.place offset 0 ≠ none) :
    ∃ n, writeLoop id buffer offset count inode 0 w = ((false, inode, 0), (readBlock n w).2) := by
  obtain ⟨garbage, fault⟩ := Option.ne_none_iff_exists'.mp unreadable
  have index : blockIndex offset 0 < 10 := by_contra fun beyond => place (place_beyond beyond)
  have used : inode.directBlocks ⟨blockIndex offset 0, index⟩ ≠ 0#32 := fun vacant =>
    place (place_vacant index vacant)
  refine ⟨inode.directBlocks ⟨blockIndex offset 0, index⟩, ?_⟩
  rw [writeLoop, dif_pos some_, dif_pos index, targetBlock, if_neg used, bind_apply, pure_apply]
  dsimp only
  rw [bind_apply, readBlock, fault]
  rfl

/-- A write that cannot read the block of the file it starts in fails, and changes nothing. -/
theorem write_unreadable {id : BitVec 32} {offset count : BitVec 64}
    (valid : ¬ (id = 0#32 ∨ w.currentSuperblock.totalInodes < id)) (readable : w.readFaults 0 = none)
    (granted : w.kmallocFaults 0 = false) (unreadable : w.readFaults 1 ≠ none) (file : isFile (storedInode w id))
    (some_ : count ≠ 0#64) (place : (storedInode w id).place offset.toNat 0 ≠ none) (buffer : Bytes) :
    (fsWrite id offset buffer count w).1 = -1 ∧ Still w (fsWrite id offset buffer count w).2 := by
  obtain ⟨p, opened, next⟩ := getInodeOf_file valid readable granted file
  obtain ⟨statics, disk⟩ := reads_getInodeOf isFile id w
  set w1 := (getInodeOf isFile id w).2
  obtain ⟨n, stopped⟩ := writeLoop_unreadable (w := w1) (by rwa [next]) id buffer
    (Nat.pos_of_ne_zero fun zero => some_ (BitVec.eq_of_toNat_eq zero)) place
  have run : fsWrite id offset buffer count w = (-1, (kfree (some p) (readBlock n w1).2).2) := by
    rw [fsWrite, bind_apply, opened]
    dsimp only
    rw [bind_apply, stopped]
    rfl
  obtain ⟨statics', disk'⟩ := ((reads_readBlock n).bind fun _ => reads_kfree (some p)) w1
  have live := (neutral_fsWrite id offset buffer count w.live w rfl).1
  rw [run] at live ⊢
  exact ⟨rfl, statics.trans statics', disk'.trans disk, live⟩

end

section
variable {v v' : Volume} {l : List Ptr} {w w' : World} {live : Set (BitVec 32)} {d id : BitVec 32}
  {name : CString} {c : Catalog}

theorem Shows.repaired (shows_ : Shows v l w) : w.repaired = w := by
  obtain ⟨⟨reads, writes, kmallocs⟩, _⟩ := shows_
  cases w
  dsimp only at reads writes kmallocs
  rw [World.repaired, World.meeting, reads, writes, kmallocs]
  rfl

/-- What a quiet call leaves can be told apart from what it met only by what lies ahead. -/
theorem Shows.still {o : Outcomes} (shows_ : Shows v l w.repaired) (still : Still (w.meeting o) w') :
    Shows v l w'.repaired := by
  obtain ⟨⟨superblock, inodeBitmap, blockBitmap⟩, disk, live⟩ := still
  have same : w'.repaired = { w.repaired with issued := w'.issued, misuse := w'.misuse } := by
    rw [World.repaired, World.meeting, superblock, inodeBitmap, blockBitmap, disk, live]
    rfl
  rw [same]
  exact ⟨⟨rfl, rfl, rfl⟩, shows_.layout, shows_.disk, shows_.inodeBits, shows_.blockBits, shows_.live⟩

/-- Worlds that show one volume look the same. -/
theorem sameView (shows_ : Shows v l w.repaired) (shows' : Shows v l w'.repaired) : SameView w w' := by
  refine ⟨fun d name => ?_, fun id => ?_, fun id offset count => ?_⟩
  · rw [(does_fsLookup d name _ shows_).1, (does_fsLookup d name _ shows').1]
  · have before : storedInode w id = v.inode id := shows_.storedInode id
    have after : storedInode w' id = v.inode id := shows'.storedInode id
    rw [before, after]
  · rw [(does_fsRead id offset count _ shows_).1, (does_fsRead id offset count _ shows').1]

/-! What a call on a working device leaves. -/

theorem bitmapsWritten (shows_ : Shows v l w) (synced : v.Synced) : BitmapsWritten w := by
  obtain ⟨b, inodeBitmap, inodes⟩ := shows_.inodeBits
  obtain ⟨b', blockBitmap, blocks⟩ := shows_.blockBits
  refine ⟨⟨b, inodeBitmap, ?_⟩, ⟨b', blockBitmap, ?_⟩⟩
  · rw [shows_.disk, shows_.layout.inodeBitmapBlock, inodes, synced.inodes]
  · rw [shows_.disk, shows_.layout.blockBitmapBlock, blocks, synced.blocks]

/-- A call that fails has made no update. -/
theorem failed_idle (con : Consistent ⟨live, ∅, ∅⟩ v) {call : Call} (member : call.inode ∈ live)
    (failed : (v.perform call).1.1 = call.failure) : (v.perform call).2 = [] := by
  cases call with
  | create d name type padding =>
      have zero : (v.create d name type padding).1 = 0#32 :=
        BitVec.eq_of_toNat_eq (Int.ofNat_inj.mp failed)
      rcases create_cases (con.valid d member) name type padding with ⟨_, refused⟩ | ⟨i, _, number, done⟩
      · exact congrArg Prod.snd refused
      · rw [done] at zero
        exact absurd zero number
  | delete d name =>
      have member : d ∈ live := member
      have failed : (v.delete d name).1 = -1 := failed
      rcases delete_cases con member name with missing | ⟨removed, _⟩
      · exact congrArg Prod.snd missing
      · rw [removed] at failed
        cases failed
  | lookup d name => rfl
  | read id offset count => rfl
  | write id offset buffer count =>
      have failed : (v.write id offset buffer count).1 = -1 := failed
      by_cases file : isFile (v.inode id)
      · have accepted := write_accepted (con.valid id member) file offset buffer count
        omega
      · rw [Volume.perform, Volume.write, Volume.openAs_none file]

/-- The name is gone. -/
theorem lookup_removed (depicts : Depicts v live c) (con : Consistent ⟨live, ∅, ∅⟩ v) (member : d ∈ live)
    (removed : (v.delete d name).1 = 0) : (v.step (.delete d name)).lookup d name = 0#32 := by
  obtain ⟨c', live', allowed, _, _, depicts'⟩ := depicts_delete depicts con member name
  cases entry : c.entry d name with
  | none =>
      rw [Catalog.Allows, entry] at allowed
      rw [allowed.1] at removed
      cases removed
  | some id =>
      rw [Catalog.Allows, entry] at allowed
      obtain ⟨_, rfl⟩ := allowed
      have dir : d ∈ c.directories := by
        by_contra other
        rw [depicts.others d other] at entry
        cases entry
      have apart : d ≠ id := by
        rintro rfl
        exact (depicts.tidy d dir).proper name ((depicts.entries d dir name d).mp entry)
      have unbound : (c.unbind d name id).entry d name = none := by
        simp only [Catalog.unbind, Function.update_self]
      by_cases long : fsMaxFilenameLen < strlen name
      · rw [Volume.lookup, if_pos long]
      · exact lookup_unbound (Nat.le_of_not_lt long) ((depicts'.entry_eq_none ⟨dir, apart⟩).mp unbound)

/-- The inode and its blocks are free. -/
theorem delete_frees (con : Consistent ⟨live, ∅, ∅⟩ v) (member : d ∈ live)
    (removed : (v.delete d name).1 = 0) :
    (v.step (.delete d name)).ibit ((v.lookup d name).toNat - 1) = false ∧
      ∀ k, (v.inode (v.lookup d name)).directBlocks k ≠ 0#32 →
        (v.step (.delete d name)).bbit (((v.inode (v.lookup d name)).directBlocks k).toNat - 1) = false := by
  rcases delete_cases con member name with missing | ⟨_, memberId, after, blocks⟩
  · rw [missing] at removed
    cases removed
  refine ⟨?_, fun k used => ?_⟩
  · by_contra set
    have marked := (after.inodes _ (con.valid _ memberId) (by simpa using set)).resolve_left (Set.notMem_empty _)
    exact marked.2 rfl
  · by_contra set
    obtain ⟨low, high⟩ := con.range _ memberId k used
    obtain ⟨x, ⟨memberX, other⟩, k', same⟩ :=
      (after.blocks _ low high (by simpa using set)).resolve_left (Set.notMem_empty _)
    rw [blocks x memberX] at same
    exact other (con.single _ memberId x memberX k k' used same.symm).1.symm

theorem freed (shows_ : Shows v l w) (shows' : Shows v' l w') (synced : v'.Synced)
    (inode : v'.ibit (id.toNat - 1) = false)
    (blocks : ∀ k, (v.inode id).directBlocks k ≠ 0#32 →
      v'.bbit (((v.inode id).directBlocks k).toNat - 1) = false) : Freed w w' id := by
  refine ⟨?_, fun k used => ?_⟩
  · rw [shows'.disk, shows'.layout.inodeBitmapBlock, synced.inodes]
    exact inode
  · rw [shows_.storedInode] at used ⊢
    rw [shows'.disk, shows'.layout.blockBitmapBlock, synced.blocks]
    exact blocks k used

/-- On a working device a call does what it says. -/
theorem done_working (shows_ : Shows v l w) (con : Consistent ⟨live, ∅, ∅⟩ v) (depicts : Depicts v live c)
    {call : Call} (member : call.inode ∈ live) (typed : call.Typed)
    (room : ∀ d name type padding, call = .create d name type padding → CreateAccepted w d name → RoomFor w d) :
    Done w (step w call) (call.perform w).1.1 call := by
  have after := shows_.step call
  have same := shows_.repaired
  have same' := after.repaired
  obtain ⟨live', con', _⟩ := live_after con member typed
  have written := bitmapsWritten after con'.synced
  cases call with
  | create d name type padding =>
      intro some_
      have whole := (allOrNothing_iff ⟨v, l, live, shows_, con⟩ ((con.inUse_iff shows_).mpr member) name typed
        padding).mpr (room d name type padding rfl)
      refine ⟨?_, written⟩
      rw [same']
      refine congrArg (fun id : BitVec 32 => ((id.toNat : Nat) : Int)) (whole.bound fun zero => some_ ?_)
      exact congrArg (fun id : BitVec 32 => ((id.toNat : Nat) : Int)) zero
  | delete d name =>
      intro removed
      have member : d ∈ live := member
      have removed : (fsDelete d name w).1 = 0 := removed
      rw [(does_fsDelete d name w shows_).1] at removed
      obtain ⟨inode, blocks⟩ := delete_frees con member removed
      rw [same, same', (does_fsLookup d name _ after).1, (does_fsLookup d name w shows_).1]
      exact ⟨lookup_removed depicts con member removed, freed shows_ after con'.synced inode blocks, written⟩
  | lookup d name => trivial
  | read id offset count => trivial
  | write id offset buffer count =>
      intro m some_ result
      have member : id ∈ live := member
      have result : (fsWrite id offset buffer count w).1 = m := result
      rw [(does_fsWrite id offset buffer count w shows_).1] at result
      refine ⟨?_, written⟩
      rw [same', (does_fsRead id offset _ _ after).1]
      by_cases file : isFile (v.inode id)
      · exact write_then_read con member file offset buffer count some_ result
      · rw [Volume.write, Volume.openAs_none file] at result
        have refused : (-1 : Int) = m := result
        omega

/-- A call that reports failure claims nothing. -/
theorem done_failed (w w' : World) (call : Call) : Done w w' call.failure call := by
  cases call with
  | create d name type padding => exact fun some_ => absurd rfl some_
  | delete d name =>
      intro removed
      have removed : (-1 : Int) = 0 := removed
      omega
  | lookup d name => trivial
  | read id offset count => trivial
  | write id offset buffer count =>
      intro m some_ result
      have refused : (-1 : Int) = m := result
      omega

theorem done_repaired {r : Int} {call : Call} (done : Done w.repaired w' r call) : Done w w' r call := by
  cases call with
  | create d name type padding => exact done
  | delete d name =>
      intro removed
      obtain ⟨gone, freed, written⟩ := done removed
      exact ⟨gone, ⟨freed.inode, freed.blocks⟩, written⟩
  | lookup d name => trivial
  | read id offset count => trivial
  | write id offset buffer count => exact done

/-- The state of a run, with a working device from here on. -/
def Carried (w : World) : Prop := ∃ c, Carries w.repaired c

variable {call : Call} {o : Outcomes}

theorem carried_still (carried : Carried w) (still : Still (w.meeting o) w') : SameView w w' ∧ Carried w' := by
  obtain ⟨c, v, l, live, shows_, con, depicts⟩ := carried
  have after := shows_.still still
  exact ⟨sameView shows_ after, c, v, l, live, after, con, depicts⟩

theorem reported_still (carried : Carried w)
    (stopped : (call.perform (w.meeting o)).1.1 = call.failure ∧ Still (w.meeting o) (attempt w (call, o))) :
    Reported w (call, o) ∧ Carried (attempt w (call, o)) := by
  obtain ⟨failed, still⟩ := stopped
  obtain ⟨view, carried'⟩ := carried_still carried still
  refine ⟨⟨?_, fun _ => view⟩, carried'⟩
  dsimp only
  rw [failed]
  exact done_failed _ _ call

theorem reported_reading (carried : Carried w) (reading : Done w (attempt w (call, o))
      (call.perform (w.meeting o)).1.1 call) (reads : Reads call.perform) :
    Reported w (call, o) ∧ Carried (attempt w (call, o)) := by
  obtain ⟨view, carried'⟩ := carried_still carried (still_of_reads reads (neutral_perform call) (w.meeting o))
  exact ⟨⟨reading, fun _ => view⟩, carried'⟩

theorem created_accepted (shows_ : Shows v l w) (con : Consistent ⟨live, ∅, ∅⟩ v) (member : d ∈ live)
    {type : BitVec 16} {padding : Bytes} (made : (fsCreate d name type padding w).1 ≠ 0#32) : CreateAccepted w d name := by
  rw [(does_fsCreate d name type padding w shows_).1] at made
  refine (shows_.createAccepted_iff con).mpr ?_
  rcases create_cases (con.valid d member) name type padding with
    ⟨_, refused⟩ | ⟨i, ⟨short, dir, unbound, found⟩, _⟩
  · exact absurd (congrArg Prod.fst refused) made
  · exact ⟨short, dir, unbound, Option.ne_none_iff_exists'.mpr ⟨i, found⟩⟩

theorem reported_working (carried : Carried w) (inUse : CallInUse w call)
    (room : ∀ d name type padding, call = .create d name type padding →
      CreateAccepted w.repaired d name → RoomFor w.repaired d) :
    Reported w (call, .fine) ∧ Carried (attempt w (call, .fine)) := by
  obtain ⟨c, v, l, live, shows_, con, depicts⟩ := carried
  have inUse : CallInUse w.repaired call := inUse
  have member := (con.inUse_iff shows_).mp inUse.1
  have after : Shows (v.step call) l (attempt w (call, .fine)) := shows_.step call
  have same := after.repaired
  have served : CallServed w.repaired call := by
    refine ⟨inUse, ?_⟩
    cases call with
    | create d name type padding => 
        exact fun made => room d name type padding rfl (created_accepted shows_ con member made)
    | delete d name => trivial
    | lookup d name => trivial
    | read id offset count => trivial
    | write id offset buffer count => trivial
  obtain ⟨c', _, carries⟩ := carries_step w.repaired c call ⟨v, l, live, shows_, con, depicts⟩ served
  refine ⟨⟨done_repaired (done_working shows_ con depicts member inUse.2 room), fun failed => ?_⟩, c', ?_⟩
  · have failed : (call.perform w.repaired).1.1 = call.failure := failed
    rw [shows_.result] at failed
    have idle : v.step call = v := by
      rw [Volume.step, failed_idle con member failed, Volume.applyAll_nil]
    rw [idle] at after
    refine sameView shows_ ?_
    rwa [same]
  · rw [same]
    exact carries

/-- One call. -/
theorem reported_step (carried : Carried w) (a : Call × Outcomes) (inUse : CallInUse w a.1)
    (tolerated : Tolerated w a) : Reported w a ∧ Carried (attempt w a) := by
  obtain ⟨call, o⟩ := a
  by_cases unreadable : o.reads 0 ≠ none
  · exact reported_still carried (unreadable_fails unreadable call)
  cases call with
  | create d name type padding =>
      obtain ⟨rfl, room⟩ := tolerated.resolve_left unreadable
      refine reported_working carried inUse fun d' name' type' padding' same => ?_
      cases same
      exact room
  | delete d name =>
      obtain rfl := tolerated.resolve_left unreadable
      exact reported_working carried inUse fun _ _ _ _ same => by cases same
  | lookup d name =>
      exact reported_reading carried trivial ((reads_fsLookup d name).bind fun _ => reads_pure _)
  | read id offset count => exact reported_reading carried trivial (reads_fsRead id offset count)
  | write id offset buffer count =>
      obtain rfl | ⟨first, file, some_, place⟩ := tolerated.resolve_left unreadable
      · exact reported_working carried inUse fun _ _ _ _ same => by cases same
      · have valid : ¬ (id = 0#32 ∨ w.currentSuperblock.totalInodes < id) := by
          obtain ⟨⟨low, high, _⟩, _⟩ := inUse
          rintro (rfl | beyond)
          · exact Nat.not_succ_le_zero 0 low
          · exact absurd high (Nat.not_le.mpr beyond)
        exact reported_still carried (write_unreadable (w := w.meeting o) valid (not_not.mp unreadable) rfl first
          file some_ place buffer)

end

/-- In every run whose calls are on inodes in use and whose failures are tolerated, each call
has done what it says, or says it failed and has done nothing. -/
theorem failures_reported {w : World} {buffer : Block} (formattable : Formattable w buffer)
    (inodeJunk blockJunk : Bytes) (attempts : List (Call × Outcomes))
    (inUse : Admitted attempt (fun w a => CallInUse w a.1) (fsInit inodeJunk blockJunk w).2 attempts)
    (tolerated : Admitted attempt Tolerated (fsInit inodeJunk blockJunk w).2 attempts) :
    Admitted attempt Reported (fsInit inodeJunk blockJunk w).2 attempts := by
  refine (inUse.and tolerated).under Carried (fun w a carried met => (reported_step carried a met.1 met.2).2)
    (fun w a carried met => (reported_step carried a met.1 met.2).1) ?_
  have carries := carries_format formattable inodeJunk blockJunk
  obtain ⟨v, l, live, shows_, _⟩ := carries_format formattable inodeJunk blockJunk
  refine ⟨Catalog.fresh, ?_⟩
  rw [shows_.repaired]
  exact carries

/-- A device on which everything fails. -/
def Outcomes.dead : Outcomes := ⟨fun _ => some Block.zero, fun _ => true⟩

theorem failures_reported_dead :
    Admitted attempt Reported (fsInit (fun _ => 0) (fun _ => 0) blankWorld).2 [(newFile nameA, .dead)] :=
  failures_reported blankWorld_formattable (fun _ => 0) (fun _ => 0) [(newFile nameA, .dead)]
    ⟨⟨root_inUse _ _, .inl rfl⟩, trivial⟩ ⟨.inl (Option.some_ne_none _), trivial⟩

/-- Only the fifth write fails: the new block does not get into the directory's record. -/
def fifthWrite : Outcomes := ⟨fun _ => none, fun i => decide (i = 4)⟩

/-- The creation returns inode 2, which no name is bound to. -/
theorem lost_entry_reported_created :
    CallInUse (fsInit (fun _ => 0) (fun _ => 0) blankWorld).2 (newFile nameA) ∧
      ¬ Reported (fsInit (fun _ => 0) (fun _ => 0) blankWorld).2 (newFile nameA, fifthWrite) := by
  refine ⟨⟨root_inUse _ _, .inl rfl⟩, fun reported => ?_⟩
  have made : (fsCreate 1#32 nameA fsInodeTypeFile (fun _ => 0#8)
      ((fsInit (fun _ => 0) (fun _ => 0) blankWorld).2.meeting fifthWrite)).1 = 2#32 := by decide +kernel
  have unbound : (fsLookup 1#32 nameA (attempt (fsInit (fun _ => 0) (fun _ => 0) blankWorld).2
      (newFile nameA, fifthWrite)).repaired).1 = 0#32 := by decide +kernel
  have answer : ((newFile nameA).perform
      ((fsInit (fun _ => 0) (fun _ => 0) blankWorld).2.meeting fifthWrite)).1.1 = 2 :=
    congrArg (fun id : BitVec 32 => ((id.toNat : Nat) : Int)) made
  have done := reported.done
  dsimp only at done
  rw [answer] at done
  have bound := (done (by decide)).1
  rw [unbound] at bound
  exact absurd bound (by decide)

end AstralOS.Fs
