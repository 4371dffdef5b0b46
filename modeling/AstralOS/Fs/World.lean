import AstralOS.Fs.Layout

/-! What the file system runs on: the block device, the kernel heap and its own static
variables, and the actions that touch them. -/
namespace AstralOS.Fs
open Foundation

abbrev Ptr := Nat

/-- A `kmalloc`ed bitmap. -/
structure Buffer where
  ptr : Ptr
  size : Nat
  bytes : Bytes

/-- Undefined behaviour an action ran into. -/
inductive Misuse where
  | nullBitmap
  | badFree (ptr : Ptr)
  deriving DecidableEq

structure World where
  disk : BlockNum → Block
  /-- What the coming device reads meet: `some b` is a failure that leaves `b` in the buffer. -/
  readFaults : Nat → Option Block
  /-- Which of the coming device writes fail. -/
  writeFaults : Nat → Bool
  /-- Which of the coming `kmalloc` calls return null. -/
  kmallocFaults : Nat → Bool
  /-- The pointers `kmalloc` gave out and `kfree` has not taken back. -/
  live : List Ptr
  /-- The block writes asked of the device, in order. -/
  issued : List (BlockNum × Block)
  misuse : List Misuse
  currentSuperblock : Superblock
  inodeBitmap : Option Buffer
  blockBitmap : Option Buffer

/-- An action on the world. -/
def Fs (α : Type) : Type := World → α × World

instance : Monad Fs where
  pure a := fun w => (a, w)
  bind x f := fun w => f (x w).1 (x w).2

section
variable {α β : Type}

@[simp] theorem pure_apply (a : α) (w : World) : (pure a : Fs α) w = (a, w) := rfl

@[simp] theorem bind_apply (x : Fs α) (f : α → Fs β) (w : World) :
    (x >>= f) w = f (x w).1 (x w).2 := rfl

@[simp] theorem ite_run {c : Prop} [Decidable c] (x y : Fs α) (w : World) :
    (if c then x else y : Fs α) w = if c then x w else y w := by
  split
  · rfl
  · rfl

end

def getWorld : Fs World := fun w => (w, w)
def setWorld (w : World) : Fs Unit := fun _ => ((), w)

@[simp] theorem getWorld_apply (w : World) : getWorld w = (w, w) := rfl
@[simp] theorem setWorld_apply (w v : World) : setWorld v w = ((), v) := rfl

/-- The status and what is in the buffer afterwards. -/
def readBlock (n : BlockNum) : Fs (Int × Block) := fun w =>
  match w.readFaults 0 with
  | none => ((0, w.disk n), { w with readFaults := fun i => w.readFaults (i + 1) })
  | some garbage => ((-1, garbage), { w with readFaults := fun i => w.readFaults (i + 1) })

def writeBlock (n : BlockNum) (b : Block) : Fs Int := fun w =>
  let w' := { w with
    writeFaults := fun i => w.writeFaults (i + 1), issued := w.issued ++ [(n, b)] }
  if w.writeFaults 0 then (-1, w')
  else (0, { w' with disk := Function.update w.disk n b })

/-- A pointer that is not live. -/
def freshPtr (live : List Ptr) : Ptr := live.foldr max 0 + 1

def kmalloc (size : Nat) : Fs (Option Ptr) := fun w =>
  let w' := { w with kmallocFaults := fun i => w.kmallocFaults (i + 1) }
  if size = 0 ∨ w.kmallocFaults 0 then (none, w')
  else (some (freshPtr w.live), { w' with live := freshPtr w.live :: w.live })

def kfree (ptr : Option Ptr) : Fs Unit := fun w =>
  match ptr with
  | none => ((), w)
  | some p =>
      if p ∈ w.live then ((), { w with live := w.live.erase p })
      else ((), { w with misuse := w.misuse ++ [.badFree p] })

def superblock : Fs Superblock := fun w => (w.currentSuperblock, w)

def setSuperblock (s : Superblock) : Fs Unit := fun w => ((), { w with currentSuperblock := s })

/-- The bytes behind `inode_bitmap`; going through the null pointer is recorded. -/
def inodeBits : Fs Bytes := fun w =>
  match w.inodeBitmap with
  | some b => (b.bytes, w)
  | none => (fun _ => 0#8, { w with misuse := w.misuse ++ [.nullBitmap] })

def blockBits : Fs Bytes := fun w =>
  match w.blockBitmap with
  | some b => (b.bytes, w)
  | none => (fun _ => 0#8, { w with misuse := w.misuse ++ [.nullBitmap] })

def setInodeBits (f : Bytes) : Fs Unit := fun w =>
  ((), { w with inodeBitmap := w.inodeBitmap.map fun b => { b with bytes := f } })

def setBlockBits (f : Bytes) : Fs Unit := fun w =>
  ((), { w with blockBitmap := w.blockBitmap.map fun b => { b with bytes := f } })

end AstralOS.Fs
