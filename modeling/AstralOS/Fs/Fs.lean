import AstralOS.Fs.World

/-! The file system's calls. -/
namespace AstralOS.Fs
open Foundation AstralOS.Lib

def inodeBlockNum (s : Superblock) (id : BitVec 32) : BlockNum :=
  s.inodeTableStartBlock + BitVec.ofNat 32 ((id - 1#32).toNat / inodesPerBlock)

def inodeOffset (id : BitVec 32) : Nat := inodeSize * ((id - 1#32).toNat % inodesPerBlock)

/-- The `kmalloc`ed copy with its contents, or null. -/
def getInode (id : BitVec 32) : Fs (Option (Ptr × Inode)) := do
  let s ← superblock
  if id = 0#32 ∨ s.totalInodes < id then pure none
  else do
    let (status, buffer) ← readBlock (inodeBlockNum s id)
    if status ≠ 0 then pure none
    else do
      let p ← kmalloc inodeSize
      pure (p.map fun p => (p, Inode.ofBytes (buffer.bytes.drop (inodeOffset id))))

def writeInode (id : BitVec 32) (inode : Inode) : Fs Int := do
  let s ← superblock
  if id = 0#32 ∨ s.totalInodes < id then pure (-1)
  else do
    let (status, buffer) ← readBlock (inodeBlockNum s id)
    if status ≠ 0 then pure (-1)
    else writeBlock (inodeBlockNum s id) (buffer.patch (inodeOffset id) inodeSize inode.bytes)

def allocateInode : Fs (BitVec 32) := do
  let s ← superblock
  if s.totalInodes = 0#32 then pure 0#32
  else do
    let bits ← inodeBits
    match firstClear bits s.totalInodes.toNat with
    | none => pure 0#32
    | some i => do
        setInodeBits (setBit bits i)
        setSuperblock { s with freeInodes := s.freeInodes - 1 }
        let _ ← writeBlock s.inodeBitmapBlock (Block.ofBytes (setBit bits i))
        pure (BitVec.ofNat 32 (i + 1))

def freeInode (id : BitVec 32) : Fs Unit := do
  let s ← superblock
  if id = 0#32 ∨ s.totalInodes < id then pure ()
  else do
    let bits ← inodeBits
    setInodeBits (clearBit bits (id - 1#32).toNat)
    setSuperblock { s with freeInodes := s.freeInodes + 1 }
    let _ ← writeBlock s.inodeBitmapBlock (Block.ofBytes (clearBit bits (id - 1#32).toNat))
    pure ()

def allocateBlock : Fs BlockNum := do
  let s ← superblock
  if s.totalBlocks = 0#32 then pure 0#32
  else do
    let bits ← blockBits
    match firstClear bits s.totalBlocks.toNat with
    | none => pure 0#32
    | some i => do
        setBlockBits (setBit bits i)
        setSuperblock { s with freeBlocks := s.freeBlocks - 1 }
        let _ ← writeBlock s.blockBitmapBlock (Block.ofBytes (setBit bits i))
        pure (BitVec.ofNat 32 (i + 1))

def freeBlock (n : BlockNum) : Fs Unit := do
  let s ← superblock
  if n = 0#32 ∨ s.totalBlocks < n then pure ()
  else do
    let bits ← blockBits
    setBlockBits (clearBit bits (n - 1#32).toNat)
    setSuperblock { s with freeBlocks := s.freeBlocks + 1 }
    let _ ← writeBlock s.blockBitmapBlock (Block.ofBytes (clearBit bits (n - 1#32).toNat))
    pure ()

/-- `(total / 8 + FS_BLOCK_SIZE - 1) / FS_BLOCK_SIZE` -/
def bitmapBlocks (total : BitVec 32) : Nat := (total.toNat / 8 + fsBlockSize - 1) / fsBlockSize

/-- The superblock `fs_init` makes when block 0 cannot be read. -/
def formatSuperblock : Superblock :=
  let s := { Superblock.zero with
    magic := fsMagic, blockSize := BitVec.ofNat 32 fsBlockSize, totalBlocks := 1024#32,
    totalInodes := 128#32 }
  let inodeBitmapBlocks := bitmapBlocks s.totalInodes
  let blockBitmapBlocks := bitmapBlocks s.totalBlocks
  let inodeTableBlocks := (s.totalInodes.toNat * inodeSize + fsBlockSize - 1) / fsBlockSize
  let s := { s with inodeBitmapBlock := 1#32 }
  let s := { s with
    blockBitmapBlock := s.inodeBitmapBlock + BitVec.ofNat 32 inodeBitmapBlocks }
  let s := { s with
    inodeTableStartBlock := s.blockBitmapBlock + BitVec.ofNat 32 blockBitmapBlocks }
  let s := { s with dataStartBlock := s.inodeTableStartBlock + BitVec.ofNat 32 inodeTableBlocks }
  { s with freeInodes := s.totalInodes, freeBlocks := s.totalBlocks - s.dataStartBlock }

/-- `kmalloc` for a bitmap; `junk` is what the memory holds. -/
def kmallocBitmap (blocks : Nat) (junk : Bytes) : Fs (Option Buffer) := do
  let p ← kmalloc (blocks * fsBlockSize)
  pure (p.map fun p => ⟨p, blocks * fsBlockSize, junk⟩)

def setInodeBitmap (b : Option Buffer) : Fs Unit := fun w => ((), { w with inodeBitmap := b })
def setBlockBitmap (b : Option Buffer) : Fs Unit := fun w => ((), { w with blockBitmap := b })

/-- `memset` or a device read into a bitmap; a null destination is recorded. -/
def fillInodeBits (n : Nat) (f : Bytes) : Fs Unit := do
  let bits ← inodeBits
  setInodeBits (bits.splice 0 n f)

def fillBlockBits (n : Nat) (f : Bytes) : Fs Unit := do
  let bits ← blockBits
  setBlockBits (bits.splice 0 n f)

/-- `root_inode` as `fs_init` fills it in. -/
def rootInode (id : BitVec 32) : Inode :=
  { Inode.zero with id := id, type := fsInodeTypeDir, permissions := 0o755#16 }

/-- `superblock_buffer` with the current superblock copied over its start. -/
def superblockBlock (buffer : Block) (s : Superblock) : Block :=
  buffer.patch 0 superblockSize s.bytes

/-- The branch of `fs_init` for an unreadable block 0, up to the two bitmaps. -/
def formatBitmaps (buffer : Block) (inodeJunk blockJunk : Bytes) : Fs Unit := do
  let s := formatSuperblock
  setSuperblock s
  let _ ← writeBlock 0#32 (superblockBlock buffer s)
  let ib ← kmallocBitmap (bitmapBlocks s.totalInodes) inodeJunk
  setInodeBitmap ib
  let bb ← kmallocBitmap (bitmapBlocks s.totalBlocks) blockJunk
  setBlockBitmap bb
  fillInodeBits (bitmapBlocks s.totalInodes * fsBlockSize) fun _ => 0#8
  fillBlockBits (bitmapBlocks s.totalBlocks * fsBlockSize) fun _ => 0#8
  -- `for (i = 0; i <= data_start_block; i++)`
  let bits ← blockBits
  let reserved := (List.range (s.dataStartBlock.toNat + 1)).foldl setBit bits
  setBlockBits reserved
  setSuperblock { s with freeBlocks := s.freeBlocks - (s.dataStartBlock + 1#32) }
  let inodes ← inodeBits
  let _ ← writeBlock s.inodeBitmapBlock (Block.ofBytes inodes)
  let _ ← writeBlock s.blockBitmapBlock (Block.ofBytes reserved)
  pure ()

/-- The rest of that branch: the root directory and the final superblock. -/
def formatRoot (buffer : Block) : Fs Unit := do
  let rootId ← allocateInode
  let _ ← writeInode rootId (rootInode rootId)
  let s ← superblock
  setSuperblock { s with rootInode := rootId }
  let _ ← writeBlock 0#32 (superblockBlock buffer { s with rootInode := rootId })
  pure ()

def format (buffer : Block) (inodeJunk blockJunk : Bytes) : Fs Unit := do
  formatBitmaps buffer inodeJunk blockJunk
  formatRoot buffer

/-- The branch of `fs_init` for a readable block 0. -/
def mount (buffer : Block) (inodeJunk blockJunk : Bytes) : Fs Unit := do
  let s := Superblock.ofBytes buffer.bytes
  setSuperblock s
  if s.magic ≠ fsMagic then pure ()
  else do
    let ib ← kmallocBitmap (bitmapBlocks s.totalInodes) inodeJunk
    setInodeBitmap ib
    let bb ← kmallocBitmap (bitmapBlocks s.totalBlocks) blockJunk
    setBlockBitmap bb
    let (_, inodes) ← readBlock s.inodeBitmapBlock
    fillInodeBits fsBlockSize inodes.bytes
    let (_, blocks) ← readBlock s.blockBitmapBlock
    fillBlockBits fsBlockSize blocks.bytes

/-- The arguments are what the two `kmalloc`s find in the memory they return. -/
def fsInit (inodeJunk blockJunk : Bytes) : Fs Unit := do
  let (status, buffer) ← readBlock 0#32
  if status ≠ 0 then format buffer inodeJunk blockJunk
  else mount buffer inodeJunk blockJunk

def isDir (inode : Inode) : Prop := inode.type &&& fsInodeTypeDir ≠ 0#16
def isFile (inode : Inode) : Prop := inode.type &&& fsInodeTypeFile ≠ 0#16

instance (inode : Inode) : Decidable (isDir inode) := inferInstanceAs (Decidable (_ ≠ _))
instance (inode : Inode) : Decidable (isFile inode) := inferInstanceAs (Decidable (_ ≠ _))

/-- The opening of every call: the inode's copy, if there is one and it is of the kind
asked for; a copy of the wrong kind is freed. -/
def getInodeOf (kind : Inode → Prop) [DecidablePred kind] (id : BitVec 32) :
    Fs (Option (Ptr × Inode)) := do
  let inode ← getInode id
  match inode with
  | none => pure none
  | some (p, r) =>
      if kind r then pure (some (p, r))
      else do
        kfree (some p)
        pure none

/-- `for (int i = 0; i < 10; i++)` -/
def indices : List (Fin 10) := List.finRange 10

/-- The scan of `fs_lookup` and `fs_delete`: the first entry with the name, as the index of
its block, its position there, and the block as read. -/
def scan (dir : Inode) (name : CString) : List (Fin 10) → Fs (Option (Fin 10 × Nat × Block))
  | [] => pure none
  | i :: rest =>
      if dir.directBlocks i = 0#32 then scan dir name rest
      else do
        let (_, buffer) ← readBlock (dir.directBlocks i)
        match findEntry buffer name with
        | some j => pure (some (i, j, buffer))
        | none => scan dir name rest

def fsLookup (parentId : BitVec 32) (name : CString) : Fs (BitVec 32) :=
  if fsMaxFilenameLen < strlen name then pure 0#32
  else do
    let parent ← getInodeOf isDir parentId
    match parent with
    | none => pure 0#32
    | some (p, parent) => do
        let found ← scan parent name indices
        kfree (some p)
        match found with
        | none => pure 0#32
        | some (_, j, buffer) => pure (entryId buffer j)

def newInode (id : BitVec 32) (type : BitVec 16) : Inode :=
  { Inode.zero with id := id, type := type, permissions := 0o644#16 }

def Inode.setDirect (r : Inode) (i : Fin 10) (n : BlockNum) : Inode :=
  { r with directBlocks := Function.update r.directBlocks i n }

@[simp] theorem Inode.setDirect_same (r : Inode) (i : Fin 10) (n : BlockNum) :
    (r.setDirect i n).directBlocks i = n := by
  simp [Inode.setDirect]

theorem Inode.setDirect_other (r : Inode) {i j : Fin 10} (n : BlockNum) (other : j ≠ i) :
    (r.setDirect i n).directBlocks j = r.directBlocks j := by
  simp [Inode.setDirect, other]

/-- The block `i` of a directory, allocated and zeroed when it has none, with the cached
copy of the parent that refers to it; null when there is no block to be had. -/
def directoryBlock (parent : Inode) (i : Fin 10) : Fs (Option (Inode × Block)) :=
  if parent.directBlocks i = 0#32 then do
    let n ← allocateBlock
    if n = 0#32 then pure none
    else pure (some (parent.setDirect i n, Block.zero))
  else do
    let (_, buffer) ← readBlock (parent.directBlocks i)
    pure (some (parent, buffer))

/-- The loop of `fs_create` that stores the entry in the first unused slot. -/
def insertEntry (parentId : BitVec 32) (entry : Bytes) : Inode → List (Fin 10) → Fs Unit
  | _, [] => pure ()
  | parent, i :: rest => do
      let start ← directoryBlock parent i
      match start with
      | none => pure ()
      | some (parent, buffer) =>
          match freeEntry buffer with
          | none => insertEntry parentId entry parent rest
          | some j => do
              let _ ← writeBlock (parent.directBlocks i) (putEntry buffer j entry)
              let _ ← writeInode parentId
                { parent with size := parent.size + BitVec.ofNat 64 dirEntrySize }
              pure ()

/-- `padding` is what the last bytes of `new_entry` hold. -/
def fsCreate (parentId : BitVec 32) (name : CString) (type : BitVec 16) (padding : Bytes) :
    Fs (BitVec 32) :=
  if fsMaxFilenameLen < strlen name then pure 0#32
  else do
    let parent ← getInodeOf isDir parentId
    match parent with
    | none => pure 0#32
    | some (p, parent) => do
        let bound ← fsLookup parentId name
        if bound ≠ 0#32 then do
          kfree (some p)
          pure 0#32
        else do
          let id ← allocateInode
          if id = 0#32 then do
            kfree (some p)
            pure 0#32
          else do
            let _ ← writeInode id (newInode id type)
            insertEntry parentId (newEntry id name padding) parent indices
            kfree (some p)
            pure id

/-- `if (target_inode->direct_blocks[i] != 0) free_block(target_inode->direct_blocks[i]);` -/
def freeDirectBlock (target : Inode) (i : Fin 10) : Fs Unit :=
  if target.directBlocks i ≠ 0#32 then freeBlock (target.directBlocks i) else pure ()

def freeDirectBlocks (target : Inode) : List (Fin 10) → Fs Unit
  | [] => pure ()
  | i :: rest => do
      freeDirectBlock target i
      freeDirectBlocks target rest

def fsDelete (parentId : BitVec 32) (name : CString) : Fs Int :=
  if fsMaxFilenameLen < strlen name then pure (-1)
  else do
    let parent ← getInodeOf isDir parentId
    match parent with
    | none => pure (-1)
    | some (p, parent) => do
        let found ← scan parent name indices
        match found with
        | none => do
            kfree (some p)
            pure (-1)
        | some (i, j, buffer) => do
            let _ ← writeBlock (parent.directBlocks i) (clearEntry buffer j)
            let _ ← writeInode parentId
              { parent with size := parent.size - BitVec.ofNat 64 dirEntrySize }
            kfree (some p)
            let target ← getInode (entryId buffer j)
            match target with
            | none => pure (-1)
            | some (q, target) => do
                freeDirectBlocks target indices
                freeInode (entryId buffer j)
                kfree (some q)
                pure 0

/-- A 64-bit count returned as an `int`. -/
def toInt (n : Nat) : Int := (BitVec.ofNat 32 n).toInt

/-- `uint32_t block_idx = current_file_offset / FS_BLOCK_SIZE` -/
def blockIndex (offset : Nat) (done : Nat) : Nat := (offset + done) % 2 ^ 64 / fsBlockSize % 2 ^ 32

def blockOffset (offset : Nat) (done : Nat) : Nat := (offset + done) % 2 ^ 64 % fsBlockSize

/-- `bytes_to_copy` of one iteration. -/
def chunk (offset count done : Nat) : Nat :=
  min (fsBlockSize - blockOffset offset done) (count - done)

theorem chunk_pos (offset : Nat) {count done : Nat} (more : done < count) : 0 < chunk offset count done := by
  have : blockOffset offset done < fsBlockSize := Nat.mod_lt _ (by decide)
  exact lt_min (by omega) (by omega)

/-- The loop of `fs_read`: whether it ended without a read error, and the bytes copied so far. -/
def readLoop (inode : Inode) (offset count done : Nat) (out : List Byte) : Fs (Bool × List Byte) :=
  if _ : done < count then
    if h : blockIndex offset done < 10 then
      if inode.directBlocks ⟨blockIndex offset done, h⟩ = 0#32 then pure (true, out)
      else do
        let (status, buffer) ← readBlock (inode.directBlocks ⟨blockIndex offset done, h⟩)
        let copied := (List.range (chunk offset count done)).map fun i =>
          buffer.bytes (blockOffset offset done + i)
        if status ≠ 0 then pure (false, out)
        else readLoop inode offset count (done + chunk offset count done) (out ++ copied)
    else pure (true, out)
  else pure (true, out)
termination_by count - done
decreasing_by have := chunk_pos offset ‹done < count›; omega

/-- The result and the bytes stored in the caller's buffer from its start on. -/
def fsRead (id : BitVec 32) (offset count : BitVec 64) : Fs (Int × List Byte) := do
  let inode ← getInodeOf isFile id
  match inode with
  | none => pure (-1, [])
  | some (p, inode) => do
      let count := if inode.size < offset + count then inode.size - offset else count
      if count = 0#64 then do
        kfree (some p)
        pure (0, [])
      else do
        let (ok, out) ← readLoop inode offset.toNat count.toNat 0 []
        kfree (some p)
        pure (if ok then toInt out.length else -1, out)

/-- The block an iteration of `fs_write` writes to, and the inode that then owns it; null
when there is none to be had. -/
def targetBlock (id : BitVec 32) (inode : Inode) (i : Fin 10) : Fs (Option (BlockNum × Inode)) :=
  if inode.directBlocks i = 0#32 then do
    let n ← allocateBlock
    if n = 0#32 then pure none
    else do
      let _ ← writeInode id (inode.setDirect i n)
      pure (some (n, inode.setDirect i n))
  else pure (some (inode.directBlocks i, inode))

/-- The loop of `fs_write`: the cached inode and `bytes_written`, and whether it ended
without a read error. -/
def writeLoop (id : BitVec 32) (buffer : Bytes) (offset count : Nat) (inode : Inode) (done : Nat) :
    Fs (Bool × Inode × Nat) :=
  if _ : done < count then
    if h : blockIndex offset done < 10 then do
      let target ← targetBlock id inode ⟨blockIndex offset done, h⟩
      match target with
      | none => pure (true, inode, done)
      | some (n, inode) => do
          let (status, data) ← readBlock n
          if status ≠ 0 then pure (false, inode, done)
          else do
            let _ ← writeBlock n (data.patch (blockOffset offset done) (chunk offset count done)
              (buffer.drop done))
            writeLoop id buffer offset count inode (done + chunk offset count done)
    else pure (true, inode, done)
  else pure (true, inode, done)
termination_by count - done
decreasing_by have := chunk_pos offset ‹done < count›; omega

def fsWrite (id : BitVec 32) (offset : BitVec 64) (buffer : Bytes) (count : BitVec 64) : Fs Int := do
  let inode ← getInodeOf isFile id
  match inode with
  | none => pure (-1)
  | some (p, inode) => do
      let (ok, inode, done) ← writeLoop id buffer offset.toNat count.toNat inode 0
      if ok then do
        if inode.size < offset + BitVec.ofNat 64 done then do
          let _ ← writeInode id { inode with size := offset + BitVec.ofNat 64 done }
          kfree (some p)
          pure (toInt done)
        else do
          kfree (some p)
          pure (toInt done)
      else do
        kfree (some p)
        pure (-1)

inductive Call where
  | create (parentId : BitVec 32) (name : CString) (type : BitVec 16) (padding : Bytes)
  | delete (parentId : BitVec 32) (name : CString)
  | lookup (parentId : BitVec 32) (name : CString)
  | read (id : BitVec 32) (offset count : BitVec 64)
  | write (id : BitVec 32) (offset : BitVec 64) (buffer : Bytes) (count : BitVec 64)

/-- The inode a call is made on. -/
def Call.inode : Call → BitVec 32
  | .create parentId _ _ _ => parentId
  | .delete parentId _ => parentId
  | .lookup parentId _ => parentId
  | .read id _ _ => id
  | .write id _ _ _ => id

/-- The value a call returns, and the bytes it stores in the caller's buffer. -/
def Call.perform : Call → Fs (Int × List Byte)
  | .create parentId name type padding => do
      let id ← fsCreate parentId name type padding
      pure (id.toNat, [])
  | .delete parentId name => do
      let status ← fsDelete parentId name
      pure (status, [])
  | .lookup parentId name => do
      let id ← fsLookup parentId name
      pure (id.toNat, [])
  | .read id offset count => fsRead id offset count
  | .write id offset buffer count => do
      let n ← fsWrite id offset buffer count
      pure (n, [])

/-- The world after a call. -/
def step (w : World) (c : Call) : World := (c.perform w).2

end AstralOS.Fs
