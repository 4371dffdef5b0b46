import AstralOS.Fs.TwinCalls
import AstralOS.Fs.Namespace

/-! What a deleted file leaves on the volume, and which later reads show it. -/
namespace AstralOS.Fs
open Foundation AstralOS.Lib

def Call.WritesTo (file : BitVec 32) : Call → Prop
  | .write id .. => id = file
  | _ => False

/-- The same call, but for the buffer of a write to the file. -/
inductive Varies (file : BitVec 32) : Call → Call → Prop
  | write (offset : BitVec 64) (buffer buffer' : Bytes) (count : BitVec 64) :
      Varies file (.write file offset buffer count) (.write file offset buffer' count)
  | same (c : Call) : Varies file c c

/-- A run in which a file is written and then deleted: it exists throughout `during`, and
the deletion takes the entry that names it. -/
structure Scenario (w : World) where
  file : BitVec 32
  before : List Call
  during : List Call
  parentId : BitVec 32
  name : CString
  after : List Call
  admitted : Admitted step CallInUse w (before ++ (during ++ .delete parentId name :: after))
  alive : Always step (fun w => InodeInUse w file ∧ isFile (storedInode w file))
    (before.foldl step w) during
  deleted : ((Call.lookup parentId name).perform (during.foldl step (before.foldl step w))).1.1 = file.toNat

/-- A read within the size of the file gives the same in both worlds. -/
def SameRead (w w' : World) : Call → Prop
  | .read id offset count => offset.toNat + count.toNat ≤ (storedInode w id).size.toNat →
      ((Call.read id offset count).perform w').1 = ((Call.read id offset count).perform w).1
  | _ => True

def stepBoth (s : World × World) (c : Call) : World × World := (step s.1 c, step s.2 c)

/-- One call, and the places where secret bytes then lie. -/
def trace (secret : Call → Prop) (s : World × Set Place) (c : Call) : World × Set Place :=
  (step s.1 c, stamp (secret c) s.2
    (c.fills (storedInode s.1 c.inode) (storedInode (step s.1 c) c.inode)))

/-- A read within the size of a file meets no secret byte. -/
def ShowsNone (s : World × Set Place) : Call → Prop
  | .read id offset count => isFile (storedInode s.1 id) →
      offset.toNat + count.toNat ≤ (storedInode s.1 id).size.toNat →
        ∀ x ∈ (storedInode s.1 id).covers offset.toNat count.toNat, x ∉ s.2
  | _ => True

namespace Scenario
variable {w : World}

/-- The world the file is written in, `during` being its calls. -/
def deletion (s : Scenario w) (during : List Call) : World :=
  step (during.foldl step (s.before.foldl step w)) (.delete s.parentId s.name)

/-- Where bytes written to the file lie when it is deleted. -/
def residue (s : Scenario w) : World × Set Place :=
  trace (fun _ => False) (s.during.foldl (trace (Call.WritesTo s.file)) (s.before.foldl step w, ∅))
    (.delete s.parentId s.name)

end Scenario

/-- Both worlds show volumes that are twins but for the marked places. -/
def Parallel (related : Byte → Byte → Prop) (w w' : World) (marked : Set Place) : Prop :=
  ∃ v v' l l' live, Shows v l w ∧ Shows v' l' w' ∧ Consistent ⟨live, ∅, ∅⟩ v ∧
    Twins related marked v v' ∧ Guarded marked live v

section
variable {related : Byte → Byte → Prop} {w w' : World} {marked : Set Place} {secret : Prop} {file : BitVec 32}

theorem parallel_self (settled : Settled w) : Parallel related w w ∅ := by
  obtain ⟨v, l, live, shows_, c⟩ := settled
  refine ⟨v, v, l, l, live, shows_, shows_, c, ⟨rfl, rfl, fun _ _ => rfl, fun x mark => ?_⟩,
    fun x mark => ?_, fun _ _ _ _ _ _ mark => ?_⟩
  · exact absurd mark (Set.notMem_empty x)
  · exact absurd mark (Set.notMem_empty x)
  · exact absurd mark (Set.notMem_empty _)

theorem Parallel.step {c c' : Call} (parallel : Parallel related w w' marked) (inUse : CallInUse w c)
    (differs : Differs related secret c c') :
    Parallel related (AstralOS.Fs.step w c) (AstralOS.Fs.step w' c') (stamp secret marked
      (c.fills (storedInode w c.inode) (storedInode (AstralOS.Fs.step w c) c.inode))) := by
  obtain ⟨v, v', l, l', live, shows_, shows_', consistent, twins, guarded⟩ := parallel
  have member := (consistent.inUse_iff shows_).mp inUse.1
  obtain ⟨live', next, twins', guarded'⟩ := twins_step consistent differs member inUse.2 twins guarded
  rw [shows_.storedInode, (shows_.step c).storedInode]
  exact ⟨_, _, l, l', live', shows_.step c, shows_'.step c', next, twins', guarded'⟩

theorem trace_fst (secret : Call → Prop) (s : World × Set Place) (c : Call) :
    (trace secret s c).1 = step s.1 c := rfl

theorem Parallel.during {during during' : List Call} (parallel : Parallel related w w' marked)
    (admitted : Admitted AstralOS.Fs.step CallInUse w during)
    (differ : List.Forall₂ (fun c c' => Differs related (c.WritesTo file) c c') during during') :
    Parallel related (during.foldl AstralOS.Fs.step w) (during'.foldl AstralOS.Fs.step w')
      (during.foldl (trace (Call.WritesTo file)) (w, marked)).2 := by
  induction differ generalizing w w' marked with
  | nil => exact parallel
  | cons differs rest ih => exact ih (parallel.step admitted.1 differs) admitted.2

theorem foldl_trace_fst (secret : Call → Prop) (calls : List Call) (s : World × Set Place) :
    (calls.foldl (trace secret) s).1 = calls.foldl step s.1 := by
  induction calls generalizing s with
  | nil => rfl
  | cons c rest ih => exact ih (trace secret s c)

/-- A read agrees in both worlds when it meets no marked place, and, if marked bytes are never
equal, only then. -/
theorem Parallel.sameRead (parallel : Parallel related w w' marked) {c : Call} (inUse : CallInUse w c) :
    (ShowsNone (w, marked) c → SameRead w w' c) ∧
      ((∀ x y, related x y → y ≠ x) → SameRead w w' c → ShowsNone (w, marked) c) := by
  obtain ⟨v, v', l, l', live, shows_, shows_', consistent, twins, guarded⟩ := parallel
  cases c with
  | read id offset count =>
      have member : id ∈ live := (consistent.inUse_iff shows_).mp inUse.1
      have valid := consistent.valid id member
      rw [ShowsNone, SameRead, shows_.result, shows_'.result]
      dsimp only
      rw [shows_.storedInode]
      change (_ → _ → v'.read id offset count = v.read id offset count) ∧
        (_ → (_ → v'.read id offset count = v.read id offset count) → _)
      by_cases file : isFile (v.inode id)
      · constructor
        · intro none_ within
          exact (twins.read_iff guarded.data valid file within).mpr fun x covered =>
            twins.bytes.outside x (none_ file within x covered)
        · intro apart same _ within x covered mark
          exact apart _ _ (twins.bytes.inside x mark)
            ((twins.read_iff guarded.data valid file within).mp (same within) x covered)
      · have file' : ¬ isFile (v'.inode id) := by rwa [twins.inode guarded.data valid]
        refine ⟨fun _ _ => ?_, fun _ _ isFile_ => absurd isFile_ file⟩
        rw [Volume.read, Volume.read, Volume.openAs_none file, Volume.openAs_none file']
  | _ => exact ⟨fun _ => trivial, fun _ _ => trivial⟩

theorem Parallel.openly (parallel : Parallel related w w' marked) {c : Call} (inUse : CallInUse w c) :
    Parallel related (AstralOS.Fs.step w c) (AstralOS.Fs.step w' c)
      (trace (fun _ => False) (w, marked) c).2 :=
  parallel.step inUse (.openly not_false c)

/-- After the deletion both runs make the same calls. -/
theorem Parallel.after (parallel : Parallel related w w' marked) {after : List Call}
    (admitted : Admitted AstralOS.Fs.step CallInUse w after) :
    (Admitted (trace fun _ => False) ShowsNone (w, marked) after →
      Admitted stepBoth (fun p => SameRead p.1 p.2) (w, w') after) ∧
    ((∀ x y, related x y → y ≠ x) → Admitted stepBoth (fun p => SameRead p.1 p.2) (w, w') after →
      Admitted (trace fun _ => False) ShowsNone (w, marked) after) := by
  constructor
  · refine Admitted.transfer (fun s c => CallInUse s.1 c)
      (fun s p => p.1 = s.1 ∧ Parallel related s.1 p.2 s.2) ?_ ?_ ⟨rfl, parallel⟩
      ((admitted_comap (π := Prod.fst) fun s c => trace_fst _ s c).mpr admitted)
    · rintro ⟨w, marked⟩ ⟨_, w'⟩ c ⟨rfl, parallel⟩ inUse
      exact ⟨rfl, parallel.openly inUse⟩
    · rintro ⟨w, marked⟩ ⟨_, w'⟩ c ⟨rfl, parallel⟩ inUse
      exact (parallel.sameRead inUse).1
  · intro apart
    refine Admitted.transfer (fun p c => CallInUse p.1 c)
      (fun p s => p.1 = s.1 ∧ Parallel related s.1 p.2 s.2) ?_ ?_ ⟨rfl, parallel⟩
      ((admitted_comap (π := Prod.fst) fun _ _ => rfl).mpr admitted)
    · rintro ⟨_, w'⟩ ⟨w, marked⟩ c ⟨rfl, parallel⟩ inUse
      exact ⟨rfl, parallel.openly inUse⟩
    · rintro ⟨_, w'⟩ ⟨w, marked⟩ c ⟨rfl, parallel⟩ inUse
      exact (parallel.sameRead inUse).2 apart

end

theorem Varies.differs {file : BitVec 32} {c c' : Call} (varies : Varies file c c') :
    Differs (fun _ _ => True) (c.WritesTo file) c c' := by
  cases varies with
  | write offset buffer buffer' count => exact .secretly rfl file offset buffer buffer' count fun _ => trivial
  | same c =>
      by_cases writes : c.WritesTo file
      · cases c with
        | write id offset buffer count => exact .secretly writes id offset buffer buffer count fun _ => trivial
        | _ => exact writes.elim
      · exact .openly writes c

namespace Scenario
variable {w : World}

/-- Right after the deletion the two runs show twins, with the residue marked. -/
theorem parallel (s : Scenario w) (settled : Settled w) {related : Byte → Byte → Prop}
    {during' : List Call}
    (differ : List.Forall₂ (fun c c' => Differs related (c.WritesTo s.file) c c') s.during during') :
    Parallel related (s.deletion s.during) (s.deletion during') s.residue.2 := by
  obtain ⟨first, rest⟩ := admitted_append.mp s.admitted
  obtain ⟨during, deletion, _⟩ := admitted_append.mp rest
  have start : Parallel related _ _ ∅ := parallel_self (invariant_run settled_step settled first)
  have gone := (start.during during differ).openly deletion
  have pair : s.during.foldl (trace (Call.WritesTo s.file)) (s.before.foldl step w, ∅) =
      (s.during.foldl step (s.before.foldl step w),
        (s.during.foldl (trace (Call.WritesTo s.file)) (s.before.foldl step w, ∅)).2) :=
    Prod.ext (foldl_trace_fst _ _ _) rfl
  rw [residue, pair]
  exact gone

end Scenario

/-! A volume with one file in the root, and a second file that takes its place. -/

/-- The root's entries are in block 8, all free but perhaps the first. -/
structure RootBlock (v : Volume) (inodes blocks : Nat) : Prop where
  inodes : ∀ i < 128, v.ibit i = decide (i < inodes)
  blocks : ∀ i < 1024, v.bbit i = decide (i < blocks)
  dir : isDir (v.inode 1#32)
  first : (v.inode 1#32).directBlocks 0 = 8#32
  rest : ∀ k ≠ 0, (v.inode 1#32).directBlocks k = 0#32
  free : ∀ j ≠ 0, entryId (v.disk 8#32) j = 0#32

/-- The first entry is for inode 2. -/
structure OneFile (v : Volume) (name : CString) (blocks : Nat) (r : Inode) : Prop
    extends RootBlock v 2 blocks where
  names : Names (v.disk 8#32) 0 name
  number : entryId (v.disk 8#32) 0 = 2#32
  record : v.inode 2#32 = r

section
variable {v : Volume} {name : CString} {blocks : Nat} {r : Inode} {live : Set (BitVec 32)}

theorem valid_one : ValidId 1#32 := by
  rw [ValidId]
  decide

theorem valid_two : ValidId 2#32 := by
  rw [ValidId]
  decide

theorem indices_first : indices = 0 :: List.map Fin.succ (List.finRange 9) := rfl

theorem bit_set (k i : Nat) : (if k = i then true else decide (i < k)) = decide (i < k + 1) := by
  by_cases same : k = i
  · subst same
    rw [if_pos rfl, decide_eq_true (Nat.lt_succ_self k)]
  · rw [if_neg same]
    exact decide_eq_decide.mpr (by omega)

theorem RootBlock.unusedBlock {inodes : Nat} (root : RootBlock v inodes blocks) (small : blocks < 1024) :
    v.unusedBlock = some blocks := by
  refine firstClear_eq_some.mpr ⟨small, (root.blocks blocks small).trans (decide_eq_false (by omega)),
    fun j below => ?_⟩
  exact (root.blocks j (by omega)).trans (decide_eq_true below)

/-- A new entry names its inode. -/
theorem names_newEntry (b : Block) (short : strlen name ≤ fsMaxFilenameLen) (padding : Bytes) :
    Names (putEntry b 0 (newEntry 2#32 name padding)) 0 name ∧
      entryId (putEntry b 0 (newEntry 2#32 name padding)) 0 = 2#32 := by
  have number : entryId (putEntry b 0 (newEntry 2#32 name padding)) 0 = 2#32 := by
    rw [entryId_put_same _ _ (by decide), newEntry_id]
  refine ⟨⟨by rw [number]; decide, ?_⟩, number⟩
  refine strcmp_eq_zero.mpr fun i below => ?_
  rw [fsMaxFilenameLen] at short
  rw [entryName_put_same _ _ (by decide) (by omega)]
  exact newEntry_name 2#32 padding short (below.trans short)

/-- What the volume holds once inode 2 was claimed for a file. -/
theorem claim_two : let v2 := v.applyAll (Volume.claim 1 fsInodeTypeFile)
    v2.inode 2#32 = newInode 2#32 fsInodeTypeFile ∧ v2.inode 1#32 = v.inode 1#32 ∧
    (∀ j, v2.ibit j = if 1 = j then true else v.ibit j) ∧ (∀ j, v2.bbit j = v.bbit j) ∧
    ∀ n : BlockNum, 6 ≤ n.toNat → v2.disk n = v.disk n := by
  obtain ⟨record, others, ibit, bbit, disk⟩ := claim_reads (v := v) (i := 1) (by decide) fsInodeTypeFile
  exact ⟨record, others 1#32 valid_one (by decide), ibit, bbit, disk⟩

/-- Storing the entry and the root's record. -/
theorem oneFile_stored (inodes : ∀ i < 128, v.ibit i = decide (i < 2))
    (blocks : ∀ i < 1024, v.bbit i = decide (i < 8)) (record : v.inode 2#32 = newInode 2#32 fsInodeTypeFile)
    {b : Block} (others : ∀ j ≠ 0, entryId b j = 0#32) (short : strlen name ≤ fsMaxFilenameLen)
    (dir : isDir r) (first : r.directBlocks 0 = 8#32) (rest : ∀ k ≠ 0, r.directBlocks k = 0#32) :
    OneFile (v.applyAll [.block 8#32 (putEntry b 0 (newEntry 2#32 name fun _ => 0#8)), .inode 1#32 r])
      name 8 (newInode 2#32 fsInodeTypeFile) := by
  set v' := v.applyAll [.block 8#32 (putEntry b 0 (newEntry 2#32 name fun _ => 0#8)), .inode 1#32 r]
  have own : v'.inode 1#32 = r := Volume.inode_inode_same valid_one
  have entries : v'.disk 8#32 = putEntry b 0 (newEntry 2#32 name fun _ => 0#8) :=
    (Volume.disk_inode valid_one (by decide)).trans Volume.disk_block
  have file : v'.inode 2#32 = v.inode 2#32 :=
    (Volume.inode_inode_other valid_one valid_two (by decide)).trans (Volume.inode_block valid_two (by decide))
  obtain ⟨names, number⟩ := names_newEntry b short fun _ => 0#8
  refine ⟨⟨inodes, blocks, by rwa [own], by rw [own, first], fun k other => by rw [own, rest k other],
    fun j other => ?_⟩, by rwa [entries], by rwa [entries], file.trans record⟩
  rw [entries, entryId_put_other _ _ other.symm]
  exact others j other

theorem oneFile_fresh (fresh : Fresh v) (short : strlen name ≤ fsMaxFilenameLen) :
    OneFile (v.step (newFile name)) name 8 (newInode 2#32 fsInodeTypeFile) := by
  rw [newFile, Volume.step, fresh_create fresh short, Volume.applyAll_append, Volume.applyAll_cons]
  obtain ⟨record, _, ibit, bbit, _⟩ := claim_two (v := v)
  refine oneFile_stored (fun i below => ?_) (fun i below => ?_)
    ((Volume.inode_blockBit valid_two).trans record) (fun j _ => entryId_zero j) short (by decide) rfl ?_
  · have root_ : decide (i = 0) = decide (i < 1) := decide_eq_decide.mpr (by omega)
    rw [Volume.ibit_blockBit, ibit, fresh.inodes i below, root_]
    exact bit_set 1 i
  · rw [Volume.bbit_blockBit (by decide), bbit, fresh.blocks i below]
    exact bit_set 7 i
  · intro k other
    exact Inode.setDirect_other _ _ other

/-- The updates that write one byte of a file that has no block yet. -/
theorem write_first {id : BitVec 32} {b : Nat} (valid : ValidId id) (record : v.inode id = r) (file : isFile r)
    (vacant : r.directBlocks 0 = 0#32) (empty : r.size = 0#64) (free : v.unusedBlock = some b) (high : 8 ≤ b)
    {offset : BitVec 64} (low : offset.toNat < 4096) (buffer : Bytes) :
    (v.perform (.write id offset buffer 1#64)).2 = [.blockBit b true,
      .inode id (r.setDirect 0 (BitVec.ofNat 32 (b + 1))), .block (BitVec.ofNat 32 (b + 1))
        ((v.disk (BitVec.ofNat 32 (b + 1))).patch offset.toNat 1 buffer),
      .inode id { r.setDirect 0 (BitVec.ofNat 32 (b + 1)) with size := offset + 1#64 }] := by
  have small := (Volume.unusedBlock_some free).1
  have index : blockIndex offset.toNat 0 = 0 := by
    rw [blockIndex_eq (by rw [maxFileSize, fsBlockSize]; omega)]
    omega
  have place : blockOffset offset.toNat 0 = offset.toNat := by
    rw [blockOffset_eq]
    omega
  have one : chunk offset.toNat 1 0 = 1 := by
    rw [chunk, place, fsBlockSize]
    omega
  have inside : blockIndex offset.toNat 0 < 10 := by rw [index]; decide
  have slot : (⟨blockIndex offset.toNat 0, inside⟩ : Fin 10) = 0 := Fin.ext index
  have number : (BitVec.ofNat 32 (b + 1)).toNat = b + 1 := ofNat_succ_toNat (by omega)
  have start : buffer.drop 0 = buffer := funext fun i => congrArg buffer (Nat.zero_add i)
  have target : v.target id r ⟨blockIndex offset.toNat 0, inside⟩ = some (BitVec.ofNat 32 (b + 1),
      r.setDirect 0 (BitVec.ofNat 32 (b + 1)),
      [.blockBit b true, .inode id (r.setDirect 0 (BitVec.ofNat 32 (b + 1)))]) := by
    rw [slot, Volume.target, if_pos vacant, free]
  have disk : (v.applyAll [.blockBit b true, .inode id (r.setDirect 0 (BitVec.ofNat 32 (b + 1)))]).disk
      (BitVec.ofNat 32 (b + 1)) = v.disk (BitVec.ofNat 32 (b + 1)) :=
    (Volume.disk_inode valid (by omega)).trans (Volume.disk_blockBit (by omega))
  have loop : v.writeFrom id buffer offset.toNat 1 r 0 = (r.setDirect 0 (BitVec.ofNat 32 (b + 1)), 1,
      [.blockBit b true, .inode id (r.setDirect 0 (BitVec.ofNat 32 (b + 1))),
        .block (BitVec.ofNat 32 (b + 1)) ((v.disk (BitVec.ofNat 32 (b + 1))).patch offset.toNat 1 buffer)]) := by
    rw [Volume.writeFrom, dif_pos Nat.one_pos, dif_pos inside, target]
    dsimp only
    rw [Volume.writeFrom, one, dif_neg (by decide), Volume.fill, disk, place, one, start]
    rfl
  have grown : (r.setDirect 0 (BitVec.ofNat 32 (b + 1))).size < offset + BitVec.ofNat 64 1 := by
    change r.size < _
    rw [empty]
    bv_omega
  rw [Volume.perform, Volume.write, Volume.openAs_some valid (by rwa [record]), record]
  dsimp only
  change (v.writeFrom id buffer offset.toNat 1 r 0).2.2 ++ _ = _
  rw [show (1#64 : BitVec 64).toNat = 1 from rfl, loop, Volume.extend, if_pos grown]
  rfl

/-- A byte of a file that has no block yet goes into the first unused one. -/
theorem oneFile_write (one : OneFile v name 8 (newInode 2#32 fsInodeTypeFile)) {offset : BitVec 64}
    (low : offset.toNat < 4096) (buffer : Bytes) :
    OneFile (v.step (.write 2#32 offset buffer 1#64)) name 9
        { (newInode 2#32 fsInodeTypeFile).setDirect 0 9#32 with size := offset + 1#64 } ∧
      (v.step (.write 2#32 offset buffer 1#64)).disk 9#32 = (v.disk 9#32).patch offset.toNat 1 buffer := by
  have updates := write_first valid_two one.record (by decide) rfl rfl (one.unusedBlock (by decide)) le_rfl
    low buffer
  rw [Volume.step, updates]
  set r' : Inode := { (newInode 2#32 fsInodeTypeFile).setDirect 0 9#32 with size := offset + 1#64 }
  set v1 := (v.apply (.blockBit 8 true)).apply (.inode 2#32 ((newInode 2#32 fsInodeTypeFile).setDirect 0 9#32))
  set v2 := v1.apply (.block 9#32 ((v.disk 9#32).patch offset.toNat 1 buffer))
  change OneFile (v2.apply (.inode 2#32 r')) name 9 r' ∧ (v2.apply (.inode 2#32 r')).disk 9#32 = _
  have root : (v2.apply (.inode 2#32 r')).inode 1#32 = v.inode 1#32 := by
    rw [Volume.inode_inode_other valid_two valid_one (by decide), Volume.inode_block valid_one (by decide),
      Volume.inode_inode_other valid_two valid_one (by decide), Volume.inode_blockBit valid_one]
  have entries : (v2.apply (.inode 2#32 r')).disk 8#32 = v.disk 8#32 := by
    rw [Volume.disk_inode valid_two (by decide), Volume.disk_block_other (by decide),
      Volume.disk_inode valid_two (by decide), Volume.disk_blockBit (by decide)]
  refine ⟨⟨⟨one.inodes, fun i below => ?_, ?_, ?_, ?_, ?_⟩, ?_, ?_, Volume.inode_inode_same valid_two⟩,
    (Volume.disk_inode valid_two (by decide)).trans Volume.disk_block⟩
  · rw [Volume.bbit_inode, Volume.bbit_block, Volume.bbit_inode, Volume.bbit_blockBit (by decide),
      one.blocks i below]
    exact bit_set 8 i
  · rw [root]
    exact one.dir
  · rw [root]
    exact one.first
  · rw [root]
    exact one.rest
  · rw [entries]
    exact one.free
  · rw [entries]
    exact one.names
  · rw [entries]
    exact one.number

theorem OneFile.found (one : OneFile v name blocks r) :
    v.find (v.inode 1#32) name indices = some (0, 0) := by
  have used : ¬ (v.inode 1#32).directBlocks 0 = 0#32 := by
    rw [one.first]
    decide
  have entry : findEntry (v.disk 8#32) name = some 0 :=
    findEntry_eq_some.mpr ⟨by decide, one.names, fun k below => absurd below (Nat.not_lt_zero k)⟩
  rw [indices_first, Volume.find, if_neg used, one.first, entry]

theorem OneFile.lookup (one : OneFile v name blocks r) (short : strlen name ≤ fsMaxFilenameLen) :
    v.lookup 1#32 name = 2#32 := by
  rw [Volume.lookup, if_neg (Nat.not_lt.mpr short), Volume.openAs_some valid_one one.dir]
  dsimp only
  rw [one.found]
  dsimp only
  rw [one.first, one.number]

theorem RootBlock.inUse {w : World} {l : List Ptr} {inodes : Nat} (root : RootBlock v inodes blocks)
    (shows_ : Shows v l w) {id : BitVec 32} (valid : ValidId id) (below : id.toNat - 1 < inodes) :
    InodeInUse w id := by
  have := valid.2
  exact shows_.inodeInUse_iff.mpr ⟨valid, (root.inodes _ (by omega)).trans (decide_eq_true below)⟩

end

/-- The world after `newFile nameA` on a new file system. -/
theorem one_file (inodeJunk blockJunk : Bytes) : ∃ v l live,
    Shows v l (step (fsInit inodeJunk blockJunk blankWorld).2 (newFile nameA)) ∧
      Consistent ⟨live, ∅, ∅⟩ v ∧ OneFile v nameA 8 (newInode 2#32 fsInodeTypeFile) := by
  obtain ⟨v, l, shows_, fresh, _⟩ := fsInit_formats blankWorld_formattable inodeJunk blockJunk
  obtain ⟨live', track⟩ := track_perform fresh.consistent (newFile nameA) (Set.mem_singleton _) (.inl rfl)
  exact ⟨_, l, live', shows_.step (newFile nameA), track.final, oneFile_fresh fresh (by decide)⟩

end AstralOS.Fs
