import AstralOS.Fs.Fs

/-! A formatted volume on a device that never fails, with the two cached bitmaps: every call
is a function of this state to a result and a list of single-block updates. -/
namespace AstralOS.Fs
open Foundation AstralOS.Lib

structure Volume where
  disk : BlockNum → Block
  inodeBits : Block
  blockBits : Block

/-- What one block write does: a bit of a cached bitmap and its block, an inode record in
its table block, or a block of data. -/
inductive Update where
  | inodeBit (i : Nat) (set : Bool)
  | blockBit (i : Nat) (set : Bool)
  | inode (id : BitVec 32) (r : Inode)
  | block (n : BlockNum) (b : Block)

/-- The inode table of the formatted layout starts at block 3. -/
def tableBlock (id : BitVec 32) : BlockNum := 3#32 + BitVec.ofNat 32 ((id - 1#32).toNat / inodesPerBlock)

def putBit (b : Block) (i : Nat) (set : Bool) : Block :=
  Block.ofBytes (if set then setBit b.bytes i else clearBit b.bytes i)

namespace Volume

def inode (v : Volume) (id : BitVec 32) : Inode :=
  Inode.ofBytes ((v.disk (tableBlock id)).bytes.drop (inodeOffset id))

/-- The block write an update is. -/
def issue (v : Volume) : Update → BlockNum × Block
  | .inodeBit i set => (1#32, putBit v.inodeBits i set)
  | .blockBit i set => (2#32, putBit v.blockBits i set)
  | .inode id r =>
      (tableBlock id, (v.disk (tableBlock id)).patch (inodeOffset id) inodeSize r.bytes)
  | .block n b => (n, b)

def apply (v : Volume) (u : Update) : Volume where
  disk := Function.update v.disk (v.issue u).1 (v.issue u).2
  inodeBits := match u with
    | .inodeBit i set => putBit v.inodeBits i set
    | _ => v.inodeBits
  blockBits := match u with
    | .blockBit i set => putBit v.blockBits i set
    | _ => v.blockBits

def applyAll (v : Volume) (us : List Update) : Volume := us.foldl apply v

/-- The block writes a list of updates is, in order. -/
def issueAll (v : Volume) : List Update → List (BlockNum × Block)
  | [] => []
  | u :: rest => v.issue u :: (v.apply u).issueAll rest

@[simp] theorem applyAll_nil (v : Volume) : v.applyAll [] = v := rfl

@[simp] theorem applyAll_cons (v : Volume) (u : Update) (rest : List Update) :
    v.applyAll (u :: rest) = (v.apply u).applyAll rest := rfl

@[simp] theorem applyAll_append (v : Volume) (us vs : List Update) :
    v.applyAll (us ++ vs) = (v.applyAll us).applyAll vs := List.foldl_append

theorem issueAll_append (v : Volume) (us vs : List Update) :
    v.issueAll (us ++ vs) = v.issueAll us ++ (v.applyAll us).issueAll vs := by
  induction us generalizing v with
  | nil => rfl
  | cons u rest ih =>
      rw [List.cons_append, issueAll, issueAll, ih, applyAll_cons, List.cons_append]

/-! The calls. -/

def openAs (kind : Inode → Prop) [DecidablePred kind] (v : Volume) (id : BitVec 32) : Option Inode :=
  if id = 0#32 ∨ 128#32 < id then none
  else if kind (v.inode id) then some (v.inode id)
  else none

/-- Where a directory binds a name first. -/
def find (v : Volume) (dir : Inode) (name : CString) : List (Fin 10) → Option (Fin 10 × Nat)
  | [] => none
  | i :: rest =>
      if dir.directBlocks i = 0#32 then v.find dir name rest
      else match findEntry (v.disk (dir.directBlocks i)) name with
        | some j => some (i, j)
        | none => v.find dir name rest

def lookup (v : Volume) (parentId : BitVec 32) (name : CString) : BitVec 32 :=
  if fsMaxFilenameLen < strlen name then 0#32
  else match v.openAs isDir parentId with
    | none => 0#32
    | some dir => match v.find dir name indices with
      | none => 0#32
      | some (i, j) => entryId (v.disk (dir.directBlocks i)) j

def unusedInode (v : Volume) : Option Nat := firstClear v.inodeBits.bytes 128
def unusedBlock (v : Volume) : Option Nat := firstClear v.blockBits.bytes 1024

def grow (dir : Inode) : Inode := { dir with size := dir.size + BitVec.ofNat 64 dirEntrySize }
def shrink (dir : Inode) : Inode := { dir with size := dir.size - BitVec.ofNat 64 dirEntrySize }

@[simp] theorem grow_type (dir : Inode) : (grow dir).type = dir.type := rfl
@[simp] theorem grow_directBlocks (dir : Inode) : (grow dir).directBlocks = dir.directBlocks := rfl
@[simp] theorem shrink_type (dir : Inode) : (shrink dir).type = dir.type := rfl
@[simp] theorem shrink_directBlocks (dir : Inode) : (shrink dir).directBlocks = dir.directBlocks := rfl

/-- The updates that store an entry in the first unused slot of a directory. -/
def insert (v : Volume) (parentId : BitVec 32) (entry : Bytes) (dir : Inode) :
    List (Fin 10) → List Update
  | [] => []
  | i :: rest =>
      if dir.directBlocks i = 0#32 then
        match v.unusedBlock with
        | none => []
        | some b =>
            [.blockBit b true, .block (BitVec.ofNat 32 (b + 1)) (putEntry Block.zero 0 entry),
              .inode parentId (grow (dir.setDirect i (BitVec.ofNat 32 (b + 1))))]
      else match freeEntry (v.disk (dir.directBlocks i)) with
        | none => v.insert parentId entry dir rest
        | some j =>
            [.block (dir.directBlocks i) (putEntry (v.disk (dir.directBlocks i)) j entry),
              .inode parentId (grow dir)]

/-- The first two updates of a creation. -/
def claim (i : Nat) (type : BitVec 16) : List Update :=
  [.inodeBit i true, .inode (BitVec.ofNat 32 (i + 1)) (newInode (BitVec.ofNat 32 (i + 1)) type)]

def create (v : Volume) (parentId : BitVec 32) (name : CString) (type : BitVec 16)
    (padding : Bytes) : BitVec 32 × List Update :=
  if fsMaxFilenameLen < strlen name then (0#32, [])
  else match v.openAs isDir parentId with
    | none => (0#32, [])
    | some dir =>
        if v.lookup parentId name ≠ 0#32 then (0#32, [])
        else match v.unusedInode with
          | none => (0#32, [])
          | some i => (BitVec.ofNat 32 (i + 1), claim i type ++
              (v.applyAll (claim i type)).insert parentId
                (newEntry (BitVec.ofNat 32 (i + 1)) name padding) dir indices)

/-- The updates that free the direct blocks of an inode. -/
def release (target : Inode) : List (Fin 10) → List Update
  | [] => []
  | i :: rest =>
      if target.directBlocks i = 0#32 ∨ 1024#32 < target.directBlocks i then release target rest
      else .blockBit (target.directBlocks i - 1#32).toNat false :: release target rest

/-- The updates that take an entry out of a directory. -/
def unlink (v : Volume) (parentId : BitVec 32) (dir : Inode) (i : Fin 10) (j : Nat) : List Update :=
  [.block (dir.directBlocks i) (clearEntry (v.disk (dir.directBlocks i)) j),
    .inode parentId (shrink dir)]

def delete (v : Volume) (parentId : BitVec 32) (name : CString) : Int × List Update :=
  if fsMaxFilenameLen < strlen name then (-1, [])
  else match v.openAs isDir parentId with
    | none => (-1, [])
    | some dir => match v.find dir name indices with
      | none => (-1, [])
      | some (i, j) =>
          let id := entryId (v.disk (dir.directBlocks i)) j
          let us := v.unlink parentId dir i j
          if id = 0#32 ∨ 128#32 < id then (-1, us)
          else (0, us ++ (release ((v.applyAll us).inode id) indices ++
            [.inodeBit (id - 1#32).toNat false]))

def readFrom (v : Volume) (inode : Inode) (offset count done : Nat) (out : List Byte) : List Byte :=
  if _ : done < count then
    if h : blockIndex offset done < 10 then
      if inode.directBlocks ⟨blockIndex offset done, h⟩ = 0#32 then out
      else v.readFrom inode offset count (done + chunk offset count done)
        (out ++ (List.range (chunk offset count done)).map fun i =>
          (v.disk (inode.directBlocks ⟨blockIndex offset done, h⟩)).bytes
            (blockOffset offset done + i))
    else out
  else out
termination_by count - done
decreasing_by have := chunk_pos offset ‹done < count›; omega

def read (v : Volume) (id : BitVec 32) (offset count : BitVec 64) : Int × List Byte :=
  match v.openAs isFile id with
  | none => (-1, [])
  | some inode =>
      let count := if inode.size < offset + count then inode.size - offset else count
      if count = 0#64 then (0, [])
      else
        let out := v.readFrom inode offset.toNat count.toNat 0 []
        (toInt out.length, out)

/-- The block an iteration of the write loop writes to, the inode that then owns it, and
the updates that made it so. -/
def target (v : Volume) (id : BitVec 32) (inode : Inode) (i : Fin 10) :
    Option (BlockNum × Inode × List Update) :=
  if inode.directBlocks i = 0#32 then
    match v.unusedBlock with
    | none => none
    | some b =>
        let owner := inode.setDirect i (BitVec.ofNat 32 (b + 1))
        some (BitVec.ofNat 32 (b + 1), owner, [.blockBit b true, .inode id owner])
  else some (inode.directBlocks i, inode, [])

/-- The data update of one iteration. -/
def fill (v : Volume) (n : BlockNum) (buffer : Bytes) (offset count done : Nat) : Update :=
  .block n ((v.disk n).patch (blockOffset offset done) (chunk offset count done) (buffer.drop done))

def writeFrom (v : Volume) (id : BitVec 32) (buffer : Bytes) (offset count : Nat) (inode : Inode)
    (done : Nat) : Inode × Nat × List Update :=
  if _ : done < count then
    if h : blockIndex offset done < 10 then
      match v.target id inode ⟨blockIndex offset done, h⟩ with
      | none => (inode, done, [])
      | some (n, owner, us) =>
          let u := (v.applyAll us).fill n buffer offset count done
          let r := ((v.applyAll us).apply u).writeFrom id buffer offset count owner
            (done + chunk offset count done)
          (r.1, r.2.1, us ++ u :: r.2.2)
    else (inode, done, [])
  else (inode, done, [])
termination_by count - done
decreasing_by have := chunk_pos offset ‹done < count›; omega

/-- The last update of a write, when the file has grown. -/
def extend (id : BitVec 32) (inode : Inode) (last : BitVec 64) : List Update :=
  if inode.size < last then [.inode id { inode with size := last }] else []

def write (v : Volume) (id : BitVec 32) (offset : BitVec 64) (buffer : Bytes) (count : BitVec 64) :
    Int × List Update :=
  match v.openAs isFile id with
  | none => (-1, [])
  | some inode =>
      let r := v.writeFrom id buffer offset.toNat count.toNat inode 0
      (toInt r.2.1, r.2.2 ++ extend id r.1 (offset + BitVec.ofNat 64 r.2.1))

def perform (v : Volume) : Call → (Int × List Byte) × List Update
  | .create parentId name type padding =>
      let r := v.create parentId name type padding
      ((r.1.toNat, []), r.2)
  | .delete parentId name =>
      let r := v.delete parentId name
      ((r.1, []), r.2)
  | .lookup parentId name => (((v.lookup parentId name).toNat, []), [])
  | .read id offset count => (v.read id offset count, [])
  | .write id offset buffer count =>
      let r := v.write id offset buffer count
      ((r.1, []), r.2)

def step (v : Volume) (c : Call) : Volume := v.applyAll (v.perform c).2

end Volume
end AstralOS.Fs
