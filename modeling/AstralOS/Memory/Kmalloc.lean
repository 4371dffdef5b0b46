import AstralOS.Foundation.Memory

/-! The kernel heap: a first-fit list of block headers kept in the memory it manages. -/
namespace AstralOS.Kmalloc
open Foundation

/-- `sizeof(block_header_t)`: `size` at 0, `next` at 8, `free` at 16, padded to 24. -/
def headerSize : Addr := 24#64

def size (m : Memory) (block : Addr) : BitVec 64 := load 64 8 m (block + BitVec.ofNat 64 0)
def next (m : Memory) (block : Addr) : Addr := load 64 8 m (block + BitVec.ofNat 64 8)
def free (m : Memory) (block : Addr) : BitVec 32 := load 32 4 m (block + BitVec.ofNat 64 16)

def setSize (m : Memory) (block : Addr) (v : BitVec 64) : Memory :=
  store 8 m (block + BitVec.ofNat 64 0) v
def setNext (m : Memory) (block : Addr) (v : Addr) : Memory :=
  store 8 m (block + BitVec.ofNat 64 8) v
def setFree (m : Memory) (block : Addr) (v : BitVec 32) : Memory :=
  store 4 m (block + BitVec.ofNat 64 16) v

structure Heap where
  heapStartPtr : Addr
  totalHeapSize : BitVec 64
  mem : Memory

def kmallocInit (heapStart heapSize : BitVec 64) (m : Memory) : Heap :=
  let m := setSize m heapStart (heapSize - headerSize)
  let m := setNext m heapStart 0#64
  let m := setFree m heapStart 1#32
  ⟨heapStart, heapSize, m⟩

/-- The header of the remainder, written before the block that is split shrinks. -/
def split (m : Memory) (current : Addr) (need : BitVec 64) : Memory :=
  let newBlock := current + headerSize + need
  let m := setSize m newBlock (size m current - need - headerSize)
  let m := setNext m newBlock (next m current)
  let m := setFree m newBlock 1#32
  let m := setNext m current newBlock
  setSize m current need

/-- The `while (current)` loop of `kmalloc`; `none` when it does not end within the fuel. -/
def kmallocLoop (need : BitVec 64) : Nat → Memory → Addr → Option (Addr × Memory)
  | 0, _, _ => none
  | fuel+1, m, current =>
      if current = 0#64 then some (0#64, m)
      else if free m current ≠ 0#32 ∧ need ≤ size m current then
        let m := if need + headerSize < size m current then split m current need else m
        some (current + headerSize, setFree m current 0#32)
      else kmallocLoop need fuel m (next m current)

/-- More iterations than a list of distinct addresses can take. -/
def loopBound : Nat := 2 ^ 64

/-- `(size + 7) & ~7`, the constant sign-extended to 64 bits. -/
def roundUp (n : BitVec 64) : BitVec 64 := (n + 7#64) &&& ~~~7#64

def kmalloc (n : BitVec 64) (h : Heap) : Option (Addr × Heap) :=
  if n = 0#64 then some (0#64, h)
  else (kmallocLoop (roundUp n) loopBound h.mem h.heapStartPtr).map fun r =>
    (r.1, { h with mem := r.2 })

/-- What the sweep of `kfree` tests before it merges a block with its successor. -/
def Mergeable (m : Memory) (current : Addr) : Prop :=
  free m current ≠ 0#32 ∧ next m current ≠ 0#64 ∧ free m (next m current) ≠ 0#32 ∧
    current + headerSize + size m current = next m current

instance (m : Memory) (current : Addr) : Decidable (Mergeable m current) :=
  inferInstanceAs (Decidable (_ ∧ _))

def merge (m : Memory) (current : Addr) : Memory :=
  let m := setSize m current (size m current + (headerSize + size m (next m current)))
  setNext m current (next m (next m current))

def kfreeLoop : Nat → Memory → Addr → Option Memory
  | 0, _, _ => none
  | fuel+1, m, current =>
      if current = 0#64 then some m
      else
        let m := if Mergeable m current then merge m current else m
        kfreeLoop fuel m (next m current)

def kfree (ptr : Addr) (h : Heap) : Option Heap :=
  if ptr = 0#64 then some h
  else (kfreeLoop loopBound (setFree h.mem (ptr - headerSize) 1#32) h.heapStartPtr).map fun m =>
    { h with mem := m }

/-! The heap with its clients: the pointers they hold and the bytes they write. -/

structure System where
  heap : Heap
  live : List Addr

inductive Op where
  | kmalloc (n : BitVec 64)
  | kfree (ptr : Addr)
  | write (ptr : Addr) (i : Nat) (v : Byte)

/-- `none` when the call does not return. -/
def System.call (s : System) : Op → Option System
  | .kmalloc n => (Kmalloc.kmalloc n s.heap).map fun r =>
      ⟨r.2, if r.1 = 0#64 then s.live else r.1 :: s.live⟩
  | .kfree ptr => (Kmalloc.kfree ptr s.heap).map fun h => ⟨h, s.live.filter (· ≠ ptr)⟩
  | .write ptr i v =>
      some { s with heap := { s.heap with
        mem := Function.update s.heap.mem (ptr + BitVec.ofNat 64 i) v } }

/-- The size a client finds in the header of a block it holds. -/
def payloadSize (m : Memory) (ptr : Addr) : Nat := (size m (ptr - headerSize)).toNat

/-- Clients free null or what they hold, and write inside what they hold. -/
def System.Allowed (s : System) : Op → Prop
  | .kmalloc _ => True
  | .kfree ptr => ptr = 0#64 ∨ ptr ∈ s.live
  | .write ptr i _ => ptr ∈ s.live ∧ i < payloadSize s.heap.mem ptr

inductive Reachable (heapStart heapSize : BitVec 64) : System → Prop
  | init (m : Memory) : Reachable heapStart heapSize ⟨kmallocInit heapStart heapSize m, []⟩
  | call {s s' : System} (op : Op) : Reachable heapStart heapSize s → s.Allowed op →
      s.call op = some s' → Reachable heapStart heapSize s'

def System.step (s : System) (op : Op) : System := (s.call op).getD s

theorem Reachable.step {heapStart heapSize : BitVec 64} {s : System} {op : Op} (reachable : Reachable heapStart heapSize s)
    (allowed : s.Allowed op) (returns : (s.call op).isSome) : Reachable heapStart heapSize (s.step op) := by
  obtain ⟨s', called⟩ := Option.isSome_iff_exists.mp returns
  refine .call op reachable allowed ?_
  rw [System.step, called]
  rfl

/-- A page, fresh from `kmalloc_init`. -/
def freshPage : System := ⟨kmallocInit 0x1000#64 0x1000#64 fun _ => 0, []⟩

/-- Three blocks of a page are taken. -/
def fullPage : System := ((freshPage.step (.kmalloc 8#64)).step (.kmalloc 8#64)).step (.kmalloc 8#64)

/-- The middle one is given back. -/
def usedPage : System := fullPage.step (.kfree 0x1038#64)

theorem fullPage_reachable : Reachable 0x1000#64 0x1000#64 fullPage := by
  have fresh : Reachable 0x1000#64 0x1000#64 freshPage := .init fun _ => 0
  have one : Reachable 0x1000#64 0x1000#64 (freshPage.step (.kmalloc 8#64)) := fresh.step trivial (by decide +kernel)
  have two : Reachable 0x1000#64 0x1000#64 ((freshPage.step (.kmalloc 8#64)).step (.kmalloc 8#64)) :=
    one.step trivial (by decide +kernel)
  exact two.step trivial (by decide +kernel)

theorem usedPage_reachable : Reachable 0x1000#64 0x1000#64 usedPage :=
  fullPage_reachable.step (.inr (by decide +kernel)) (by decide +kernel)

end AstralOS.Kmalloc
