import AstralOS.Fs.VolumeReads

/-! The invariant of the file system, for a set of inodes that are live, and what each
single-block update does to it. -/
namespace AstralOS.Fs
open Foundation

/-- The entry `j` of block `k` of directory `d` holds the inode number `id`. -/
structure Holds (v : Volume) (d : BitVec 32) (k : Fin 10) (j : Nat) (id : BitVec 32) : Prop where
  dir : isDir (v.inode d)
  used : (v.inode d).directBlocks k ≠ 0#32
  slot : j < entriesPerBlock
  entry : entryId (v.disk ((v.inode d).directBlocks k)) j = id
  nonzero : id ≠ 0#32

/-- The inodes that the root leads to through its entries and theirs. -/
inductive FromRoot (v : Volume) : BitVec 32 → Prop
  | root : FromRoot v 1#32
  | entry {d id : BitVec 32} {k : Fin 10} {j : Nat} (up : FromRoot v d) (holds : Holds v d k j id) : FromRoot v id

/-- The live inodes, and which marked blocks and inodes need not belong to any of them. -/
structure Ledger where
  live : Set (BitVec 32)
  blocks : Set BlockNum
  inodes : Set (BitVec 32)

def Owned (v : Volume) (live : Set (BitVec 32)) (n : BlockNum) : Prop :=
  ∃ id ∈ live, ∃ k, (v.inode id).directBlocks k = n

def Unnamed (v : Volume) (live : Set (BitVec 32)) (id : BitVec 32) : Prop :=
  ∀ d ∈ live, ∀ k j, ¬ Holds v d k j id

structure Consistent (b : Ledger) (v : Volume) : Prop where
  synced : v.Synced
  root : 1#32 ∈ b.live
  valid : ∀ id ∈ b.live, ValidId id
  marked : ∀ id ∈ b.live, v.ibit (id.toNat - 1) = true
  kind : ∀ id ∈ b.live, (v.inode id).type = fsInodeTypeFile ∨ (v.inode id).type = fsInodeTypeDir
  range : ∀ id ∈ b.live, ∀ k, (v.inode id).directBlocks k ≠ 0#32 →
    8 ≤ ((v.inode id).directBlocks k).toNat ∧ ((v.inode id).directBlocks k).toNat ≤ 1024
  taken : ∀ id ∈ b.live, ∀ k, (v.inode id).directBlocks k ≠ 0#32 →
    v.bbit (((v.inode id).directBlocks k).toNat - 1) = true
  single : ∀ id ∈ b.live, ∀ other ∈ b.live, ∀ k k', (v.inode id).directBlocks k ≠ 0#32 →
    (v.inode id).directBlocks k = (v.inode other).directBlocks k' → id = other ∧ k = k'
  names : ∀ d ∈ b.live, ∀ k j id, Holds v d k j id → id ∈ b.live ∧ id ≠ 1#32
  once : ∀ d ∈ b.live, ∀ d' ∈ b.live, ∀ k k' j j' id, Holds v d k j id → Holds v d' k' j' id →
    d = d' ∧ k = k' ∧ j = j'
  reserved : ∀ i < 7, v.bbit i = true
  blocks : ∀ n : BlockNum, 8 ≤ n.toNat → n.toNat ≤ 1024 → v.bbit (n.toNat - 1) = true →
    n ∈ b.blocks ∨ Owned v b.live n
  inodes : ∀ id, ValidId id → v.ibit (id.toNat - 1) = true → id ∈ b.inodes ∨ id ∈ b.live

section
variable {v v' : Volume} {live : Set (BitVec 32)} {blocks : Set BlockNum} {inodes : Set (BitVec 32)}
  {b : Ledger} {id d : BitVec 32} {r : Inode} {n : BlockNum} {i : Nat}

theorem Consistent.fromRoot (c : Consistent b v) (reached : FromRoot v id) : id ∈ b.live := by
  induction reached with
  | root => exact c.root
  | entry _ holds ih => exact (c.names _ ih _ _ _ holds).1

theorem isDir_of_type (type : r.type = fsInodeTypeDir) : isDir r ∧ ¬ isFile r := by
  rw [isDir, isFile, type]
  decide

theorem isFile_of_type (type : r.type = fsInodeTypeFile) : isFile r ∧ ¬ isDir r := by
  rw [isDir, isFile, type]
  decide

theorem isDir_congr {r' : Inode} (same : r'.type = r.type) : isDir r' ↔ isDir r := by
  rw [isDir, isDir, same]

theorem Consistent.not_dir (c : Consistent b v) (live : id ∈ b.live) (file : isFile (v.inode id)) :
    ¬ isDir (v.inode id) := by
  rcases c.kind id live with type | type
  · exact (isFile_of_type type).2
  · exact absurd file (isDir_of_type type).2

/-- Owned blocks lie behind the table, so data written to them is not metadata. -/
theorem Consistent.owned_range (c : Consistent b v) (nonzero : n ≠ 0#32) (owned : Owned v b.live n) :
    8 ≤ n.toNat ∧ n.toNat ≤ 1024 := by
  obtain ⟨id, live, k, rfl⟩ := owned
  exact c.range id live k nonzero

theorem holds_congr (inode : v'.inode d = v.inode d)
    (disk : isDir (v.inode d) → ∀ k, (v.inode d).directBlocks k ≠ 0#32 →
      v'.disk ((v.inode d).directBlocks k) = v.disk ((v.inode d).directBlocks k))
    {k : Fin 10} {j : Nat} : Holds v' d k j id ↔ Holds v d k j id := by
  constructor
  · rintro ⟨dir, used, slot, entry, nonzero⟩
    rw [inode] at dir used entry
    rw [disk dir k used] at entry
    exact ⟨dir, used, slot, entry, nonzero⟩
  · rintro ⟨dir, used, slot, entry, nonzero⟩
    refine ⟨by rw [inode]; exact dir, by rw [inode]; exact used, slot, ?_, nonzero⟩
    rw [inode, disk dir k used]
    exact entry

/-- A change that leaves the live inodes and the blocks of live directories alone. -/
theorem Consistent.transfer {blocks' : Set BlockNum} {inodes' : Set (BitVec 32)}
    (c : Consistent ⟨live, blocks, inodes⟩ v) (synced : v'.Synced)
    (inode : ∀ id ∈ live, v'.inode id = v.inode id)
    (disk : ∀ d ∈ live, isDir (v.inode d) → ∀ k, (v.inode d).directBlocks k ≠ 0#32 →
      v'.disk ((v.inode d).directBlocks k) = v.disk ((v.inode d).directBlocks k))
    (ibit : ∀ id ∈ live, v'.ibit (id.toNat - 1) = v.ibit (id.toNat - 1))
    (bbit : ∀ n : BlockNum, n ≠ 0#32 → Owned v live n →
      v'.bbit (n.toNat - 1) = v.bbit (n.toNat - 1))
    (reserved : ∀ i < 7, v'.bbit i = v.bbit i)
    (newBlocks : ∀ n : BlockNum, 8 ≤ n.toNat → n.toNat ≤ 1024 → v'.bbit (n.toNat - 1) = true →
      n ∈ blocks' ∨ (v.bbit (n.toNat - 1) = true ∧ (n ∈ blocks → n ∈ blocks')))
    (newInodes : ∀ id, ValidId id → v'.ibit (id.toNat - 1) = true →
      id ∈ inodes' ∨ (v.ibit (id.toNat - 1) = true ∧ (id ∈ inodes → id ∈ inodes'))) :
    Consistent ⟨live, blocks', inodes'⟩ v' := by
  have holds : ∀ d ∈ live, ∀ k j id, Holds v' d k j id ↔ Holds v d k j id :=
    fun d member k j id => holds_congr (inode d member) (disk d member)
  have owned : ∀ n, Owned v live n → Owned v' live n := by
    rintro n ⟨id, member, k, eq⟩
    exact ⟨id, member, k, by rw [inode id member]; exact eq⟩
  refine ⟨synced, c.root, c.valid, ?_, ?_, ?_, ?_, ?_, ?_, ?_, ?_, ?_, ?_⟩
  · intro id member
    rw [ibit id member]
    exact c.marked id member
  · intro id member
    rw [inode id member]
    exact c.kind id member
  · intro id member
    rw [inode id member]
    exact c.range id member
  · intro id member k used
    rw [inode id member] at used ⊢
    rw [bbit _ used ⟨id, member, k, rfl⟩]
    exact c.taken id member k used
  · intro id member other memberOther
    rw [inode id member, inode other memberOther]
    exact c.single id member other memberOther
  · intro d member k j id held
    exact c.names d member k j id ((holds d member k j id).mp held)
  · intro d member d' member' k k' j j' id held held'
    exact c.once d member d' member' k k' j j' id ((holds d member k j id).mp held)
      ((holds d' member' k' j' id).mp held')
  · intro i low
    rw [reserved i low]
    exact c.reserved i low
  · intro n low high set
    rcases newBlocks n low high set with stray | ⟨before, keeps⟩
    · exact .inl stray
    · exact (c.blocks n low high before).imp keeps (owned n)
  · intro id valid set
    rcases newInodes id valid set with stray | ⟨before, keeps⟩
    · exact .inl stray
    · exact (c.inodes id valid before).imp_left keeps

theorem Consistent.weaken {blocks' : Set BlockNum} {inodes' : Set (BitVec 32)}
    (c : Consistent ⟨live, blocks, inodes⟩ v) (moreBlocks : blocks ⊆ blocks')
    (moreInodes : inodes ⊆ inodes') : Consistent ⟨live, blocks', inodes'⟩ v :=
  { c with
    blocks := fun n low high set => (c.blocks n low high set).imp_left fun stray => moreBlocks stray
    inodes := fun id valid set => (c.inodes id valid set).imp_left fun stray => moreInodes stray }

/-- An unused inode is not live. -/
theorem Consistent.fresh_inode (c : Consistent b v) (found : v.unusedInode = some i) :
    BitVec.ofNat 32 (i + 1) ∉ b.live := by
  obtain ⟨small, clear, _⟩ := Volume.unusedInode_some found
  intro member
  have := c.marked _ member
  rw [ofNat_succ_toNat (by omega), Nat.add_sub_cancel, clear] at this
  cases this

/-- An unused block is behind the reserved ones and nobody owns it. -/
theorem Consistent.fresh_block (c : Consistent b v) (found : v.unusedBlock = some i) :
    7 ≤ i ∧ i < 1024 ∧ ¬ Owned v b.live (BitVec.ofNat 32 (i + 1)) := by
  obtain ⟨small, clear, _⟩ := Volume.unusedBlock_some found
  refine ⟨?_, small, ?_⟩
  · by_contra low
    rw [c.reserved i (by omega)] at clear
    cases clear
  · rintro ⟨id, member, k, eq⟩
    have nonzero : (v.inode id).directBlocks k ≠ 0#32 := by
      rw [eq]
      exact ofNat_succ_ne_zero small
    have := c.taken id member k nonzero
    rw [eq, ofNat_succ_toNat (by omega), Nat.add_sub_cancel, clear] at this
    cases this

theorem consistent_markInode (c : Consistent ⟨live, blocks, inodes⟩ v) (small : i < 128) :
    Consistent ⟨live, blocks, insert (BitVec.ofNat 32 (i + 1)) inodes⟩
      (v.apply (.inodeBit i true)) := by
  refine c.transfer (Volume.synced_inodeBit c.synced)
    (fun id member => Volume.inode_inodeBit (c.valid id member)) ?_ ?_ (fun _ _ _ => rfl)
    (fun _ _ => rfl) (fun n _ _ set => .inr ⟨set, id⟩) ?_
  · intro d member _ k used
    have := (c.range d member k used).1
    exact Volume.disk_inodeBit (by omega)
  · intro id member
    rw [Volume.ibit_inodeBit (by omega), c.marked id member]
    split
    · rfl
    · rfl
  · intro id valid set
    rw [Volume.ibit_inodeBit (by omega)] at set
    by_cases this_ : i = id.toNat - 1
    · have := valid.1
      have number : id = BitVec.ofNat 32 (i + 1) := by
        apply BitVec.eq_of_toNat_eq
        rw [ofNat_succ_toNat (by omega)]
        omega
      exact .inl (.inl number)
    · rw [if_neg this_] at set
      exact .inr ⟨set, .inr⟩

theorem consistent_clearInode (c : Consistent ⟨live, blocks, inodes⟩ v) (valid : ValidId id)
    (dead : id ∉ live) :
    Consistent ⟨live, blocks, inodes \ {id}⟩ (v.apply (.inodeBit (id.toNat - 1) false)) := by
  have small := valid.2
  have apart : ∀ other, ValidId other → other ≠ id → id.toNat - 1 ≠ other.toNat - 1 := by
    intro other validOther different same
    have := valid.1
    have := validOther.1
    exact different (BitVec.eq_of_toNat_eq (by omega))
  refine c.transfer (Volume.synced_inodeBit c.synced)
    (fun other member => Volume.inode_inodeBit (c.valid other member)) ?_ ?_ (fun _ _ _ => rfl)
    (fun _ _ => rfl) (fun n _ _ set => .inr ⟨set, fun stray => stray⟩) ?_
  · intro d member _ k used
    have := (c.range d member k used).1
    exact Volume.disk_inodeBit (by omega)
  · intro other member
    have different : other ≠ id := by
      rintro rfl
      exact dead member
    rw [Volume.ibit_inodeBit (by omega), if_neg (apart other (c.valid other member) different)]
  · intro other validOther set
    rw [Volume.ibit_inodeBit (by omega)] at set
    by_cases same : other = id
    · subst same
      rw [if_pos rfl] at set
      cases set
    · rw [if_neg (apart other validOther same)] at set
      exact .inr ⟨set, fun stray => ⟨stray, same⟩⟩

theorem consistent_markBlock (c : Consistent ⟨live, blocks, inodes⟩ v) (small : i < 1024) :
    Consistent ⟨live, insert (BitVec.ofNat 32 (i + 1)) blocks, inodes⟩
      (v.apply (.blockBit i true)) := by
  have keeps : ∀ j, v.bbit j = true → (v.apply (.blockBit i true)).bbit j = v.bbit j := by
    intro j set
    rw [Volume.bbit_blockBit (by omega), set]
    split
    · rfl
    · rfl
  refine c.transfer (Volume.synced_blockBit c.synced)
    (fun id member => Volume.inode_blockBit (c.valid id member)) ?_ (fun _ _ => rfl) ?_ ?_ ?_
    (fun id _ set => .inr ⟨set, fun stray => stray⟩)
  · intro d member _ k used
    have := (c.range d member k used).1
    exact Volume.disk_blockBit (by omega)
  · rintro n nonzero ⟨id, member, k, rfl⟩
    exact keeps _ (c.taken id member k nonzero)
  · intro j low
    exact keeps j (c.reserved j low)
  · intro n low high set
    rw [Volume.bbit_blockBit (by omega)] at set
    by_cases this_ : i = n.toNat - 1
    · have number : n = BitVec.ofNat 32 (i + 1) := by
        apply BitVec.eq_of_toNat_eq
        rw [ofNat_succ_toNat (by omega)]
        omega
      exact .inl (.inl number)
    · rw [if_neg this_] at set
      exact .inr ⟨set, .inr⟩

theorem consistent_clearBlock (c : Consistent ⟨live, blocks, inodes⟩ v) (low : 8 ≤ n.toNat)
    (high : n.toNat ≤ 1024) (unowned : ¬ Owned v live n) :
    Consistent ⟨live, blocks \ {n}, inodes⟩ (v.apply (.blockBit (n.toNat - 1) false)) := by
  have apart : ∀ m : BlockNum, 8 ≤ m.toNat → m ≠ n → n.toNat - 1 ≠ m.toNat - 1 :=
    fun m lowM different same => different (BitVec.eq_of_toNat_eq (by omega))
  refine c.transfer (Volume.synced_blockBit c.synced)
    (fun id member => Volume.inode_blockBit (c.valid id member)) ?_ (fun _ _ => rfl) ?_ ?_ ?_
    (fun id _ set => .inr ⟨set, fun stray => stray⟩)
  · intro d member _ k used
    have := (c.range d member k used).1
    exact Volume.disk_blockBit (by omega)
  · intro m nonzero owned
    have different : m ≠ n := by
      rintro rfl
      exact unowned owned
    rw [Volume.bbit_blockBit (by omega), if_neg (apart m (c.owned_range nonzero owned).1 different)]
  · intro j small
    rw [Volume.bbit_blockBit (by omega), if_neg (by omega)]
  · intro m lowM highM set
    rw [Volume.bbit_blockBit (by omega)] at set
    by_cases same : m = n
    · subst same
      rw [if_pos rfl] at set
      cases set
    · rw [if_neg (apart m lowM same)] at set
      exact .inr ⟨set, fun stray => ⟨stray, same⟩⟩

/-- The record of an inode that is not live may be anything. -/
theorem consistent_putInode_dead (c : Consistent ⟨live, blocks, inodes⟩ v) (valid : ValidId id)
    (dead : id ∉ live) (r : Inode) : Consistent ⟨live, blocks, inodes⟩ (v.apply (.inode id r)) := by
  refine c.transfer (Volume.synced_inode c.synced valid) ?_ ?_ (fun _ _ => rfl) (fun _ _ _ => rfl)
    (fun _ _ => rfl) (fun n _ _ set => .inr ⟨set, fun stray => stray⟩)
    (fun id _ set => .inr ⟨set, fun stray => stray⟩)
  · intro other member
    refine Volume.inode_inode_other valid (c.valid other member) ?_
    rintro rfl
    exact dead member
  · intro d member _ k used
    have := (c.range d member k used).1
    exact Volume.disk_inode valid (by omega)

/-- Data in a block of no live directory. -/
theorem consistent_putBlock (c : Consistent ⟨live, blocks, inodes⟩ v) (data : 6 ≤ n.toNat)
    (noDir : ∀ d ∈ live, isDir (v.inode d) → ∀ k, (v.inode d).directBlocks k ≠ n) (x : Block) :
    Consistent ⟨live, blocks, inodes⟩ (v.apply (.block n x)) := by
  refine c.transfer (Volume.synced_block c.synced (by omega))
    (fun id member => Volume.inode_block (c.valid id member) data) ?_ (fun _ _ => rfl)
    (fun _ _ _ => rfl) (fun _ _ => rfl) (fun n _ _ set => .inr ⟨set, fun stray => stray⟩)
    (fun id _ set => .inr ⟨set, fun stray => stray⟩)
  intro d member dir k _
  exact Volume.disk_block_other (noDir d member dir k)

/-- The live inodes after the record of one of them was written. -/
theorem inode_putInode (c : Consistent b v) (member : id ∈ b.live) {other : BitVec 32}
    (memberOther : other ∈ b.live) :
    (v.apply (.inode id r)).inode other = if other = id then r else v.inode other := by
  by_cases same : other = id
  · subst same
    rw [if_pos rfl]
    exact Volume.inode_inode_same (c.valid other member)
  · rw [if_neg same]
    exact Volume.inode_inode_other (c.valid id member) (c.valid other memberOther) (Ne.symm same)

theorem type_putInode (c : Consistent ⟨live, blocks, inodes⟩ v) (member : id ∈ live)
    (type : r.type = (v.inode id).type) {other : BitVec 32} (memberOther : other ∈ live) :
    ((v.apply (.inode id r)).inode other).type = (v.inode other).type := by
  rw [inode_putInode c member memberOther]
  by_cases same : other = id
  · subst same
    rw [if_pos rfl, type]
  · rw [if_neg same]

/-- A block of a live inode that adopts block `n` is `n`, in its new place, or was there before. -/
theorem adopted_block (c : Consistent ⟨live, blocks, inodes⟩ v) (member : id ∈ live) {k : Fin 10}
    (direct : r.directBlocks = Function.update (v.inode id).directBlocks k n) {other : BitVec 32}
    (memberOther : other ∈ live) {k' : Fin 10}
    (used : ((v.apply (.inode id r)).inode other).directBlocks k' ≠ 0#32) :
    (other = id ∧ k' = k ∧ ((v.apply (.inode id r)).inode other).directBlocks k' = n) ∨
      ((v.inode other).directBlocks k' ≠ 0#32 ∧ (other = id → k' ≠ k) ∧
        ((v.apply (.inode id r)).inode other).directBlocks k' = (v.inode other).directBlocks k') := by
  rw [inode_putInode c member memberOther] at used ⊢
  by_cases same : other = id
  · subst same
    rw [if_pos rfl, direct] at used ⊢
    by_cases place : k' = k
    · subst place
      exact .inl ⟨rfl, rfl, Function.update_self _ _ _⟩
    · rw [Function.update_of_ne place] at used ⊢
      exact .inr ⟨used, fun _ => place, rfl⟩
  · rw [if_neg same] at used ⊢
    exact .inr ⟨used, fun eq => absurd eq same, rfl⟩

/-- An entry afterwards is one of block `n` or was there before. -/
theorem adopted_entry (c : Consistent ⟨live, blocks, inodes⟩ v) (member : id ∈ live) {k : Fin 10}
    (type : r.type = (v.inode id).type)
    (direct : r.directBlocks = Function.update (v.inode id).directBlocks k n) (low : 8 ≤ n.toNat)
    {x : BitVec 32} (memberD : d ∈ live) {k' : Fin 10} {j : Nat}
    (held : Holds (v.apply (.inode id r)) d k' j x) :
    (d = id ∧ k' = k ∧ isDir r ∧ j < entriesPerBlock ∧ entryId (v.disk n) j = x ∧ x ≠ 0#32) ∨
      (Holds v d k' j x ∧ (d = id → k' ≠ k)) := by
  have disk : ∀ m : BlockNum, 8 ≤ m.toNat → (v.apply (.inode id r)).disk m = v.disk m :=
    fun m lowM => Volume.disk_inode (c.valid id member) (by omega)
  obtain ⟨dir, used, slot, entry, nonzero⟩ := held
  rcases adopted_block c member direct memberD used with ⟨rfl, rfl, new⟩ | ⟨usedBefore, other, old⟩
  · rw [new, disk n low] at entry
    rw [inode_putInode c member memberD, if_pos rfl] at dir
    exact .inl ⟨rfl, rfl, dir, slot, entry, nonzero⟩
  · have := (c.range d memberD k' usedBefore).1
    rw [old, disk _ this] at entry
    exact .inr ⟨⟨(isDir_congr (type_putInode c member type memberD)).mp dir, usedBefore, slot, entry,
      nonzero⟩, other⟩

/-- The ledger of a volume in which one live inode took over a marked block `n`. -/
theorem consistent_adopt (c : Consistent ⟨live, blocks, inodes⟩ v) (member : id ∈ live)
    {k : Fin 10} (vacant : (v.inode id).directBlocks k = 0#32) (type : r.type = (v.inode id).type)
    (direct : r.directBlocks = Function.update (v.inode id).directBlocks k n)
    (low : 8 ≤ n.toNat) (high : n.toNat ≤ 1024) (set : v.bbit (n.toNat - 1) = true)
    (unowned : ¬ Owned v live n)
    (entries : isDir r → ∀ j < entriesPerBlock, entryId (v.disk n) j ≠ 0#32 →
      entryId (v.disk n) j ∈ live ∧ entryId (v.disk n) j ≠ 1#32 ∧
      Unnamed v live (entryId (v.disk n) j) ∧
      ∀ j' < entriesPerBlock, entryId (v.disk n) j' = entryId (v.disk n) j → j' = j) :
    Consistent ⟨live, blocks \ {n}, inodes⟩ (v.apply (.inode id r)) := by
  have valid := c.valid id member
  refine ⟨Volume.synced_inode c.synced valid, c.root, c.valid, c.marked, ?_, ?_, ?_, ?_, ?_, ?_,
    c.reserved, ?_, c.inodes⟩
  · intro other memberOther
    rw [type_putInode c member type memberOther]
    exact c.kind other memberOther
  · intro other memberOther k' used
    rcases adopted_block c member direct memberOther used with ⟨_, _, new⟩ | ⟨usedBefore, _, old⟩
    · rw [new]
      exact ⟨low, high⟩
    · rw [old]
      exact c.range other memberOther k' usedBefore
  · intro other memberOther k' used
    rcases adopted_block c member direct memberOther used with ⟨_, _, new⟩ | ⟨usedBefore, _, old⟩
    · rw [new]
      exact set
    · rw [old]
      exact c.taken other memberOther k' usedBefore
  · intro x memberX y memberY kx ky usedX same
    have usedY := usedX
    rw [same] at usedY
    rcases adopted_block c member direct memberX usedX with ⟨rfl, rfl, newX⟩ | ⟨beforeX, _, oldX⟩
    · rcases adopted_block c member direct memberY usedY with ⟨rfl, rfl, _⟩ | ⟨_, _, oldY⟩
      · exact ⟨rfl, rfl⟩
      · refine absurd ⟨y, memberY, ky, ?_⟩ unowned
        rw [← oldY, ← same, newX]
    · rcases adopted_block c member direct memberY usedY with ⟨rfl, rfl, newY⟩ | ⟨_, _, oldY⟩
      · refine absurd ⟨x, memberX, kx, ?_⟩ unowned
        rw [← oldX, same, newY]
      · rw [oldX, oldY] at same
        exact c.single x memberX y memberY kx ky beforeX same
  · intro d memberD k' j x held
    rcases adopted_entry c member type direct low memberD held with
      ⟨_, _, dir, slot, rfl, nonzero⟩ | ⟨before, _⟩
    · have := entries dir j slot nonzero
      exact ⟨this.1, this.2.1⟩
    · exact c.names d memberD k' j x before
  · intro d memberD d' memberD' kd kd' j j' x held held'
    rcases adopted_entry c member type direct low memberD held with
      ⟨rfl, rfl, dir, slot, rfl, nonzero⟩ | ⟨before, _⟩
    · rcases adopted_entry c member type direct low memberD' held' with
        ⟨rfl, rfl, _, slot', entry', _⟩ | ⟨before', _⟩
      · exact ⟨rfl, rfl, ((entries dir j slot nonzero).2.2.2 j' slot' entry').symm⟩
      · exact absurd before' ((entries dir j slot nonzero).2.2.1 d' memberD' kd' j')
    · rcases adopted_entry c member type direct low memberD' held' with
        ⟨rfl, rfl, dir, slot', rfl, nonzero⟩ | ⟨before', _⟩
      · exact absurd before ((entries dir j' slot' nonzero).2.2.1 d memberD kd j)
      · exact c.once d memberD d' memberD' kd kd' j j' x before before'
  · intro m lowM highM setM
    by_cases same : m = n
    · subst same
      refine .inr ⟨id, member, k, ?_⟩
      rw [inode_putInode c member member, if_pos rfl, direct, Function.update_self]
    · rcases c.blocks m lowM highM setM with stray | ⟨other, memberOther, k', eq⟩
      · exact .inl ⟨stray, same⟩
      · refine .inr ⟨other, memberOther, k', ?_⟩
        rw [inode_putInode c member memberOther]
        by_cases sameInode : other = id
        · subst sameInode
          have place : k' ≠ k := by
            rintro rfl
            rw [vacant] at eq
            rw [← eq] at lowM
            exact absurd lowM (by decide)
          rw [if_pos rfl, direct, Function.update_of_ne place, eq]
        · rw [if_neg sameInode, eq]

/-- A record of the same kind with the same blocks. -/
theorem consistent_putInode_same (c : Consistent ⟨live, blocks, inodes⟩ v) (member : id ∈ live)
    (type : r.type = (v.inode id).type) (direct : r.directBlocks = (v.inode id).directBlocks) :
    Consistent ⟨live, blocks, inodes⟩ (v.apply (.inode id r)) := by
  have valid := c.valid id member
  have typeOf : ∀ other ∈ live, ((v.apply (.inode id r)).inode other).type = (v.inode other).type := by
    intro other memberOther
    rw [inode_putInode c member memberOther]
    by_cases same : other = id
    · subst same
      rw [if_pos rfl, type]
    · rw [if_neg same]
  have directOf : ∀ other ∈ live,
      ((v.apply (.inode id r)).inode other).directBlocks = (v.inode other).directBlocks := by
    intro other memberOther
    rw [inode_putInode c member memberOther]
    by_cases same : other = id
    · subst same
      rw [if_pos rfl, direct]
    · rw [if_neg same]
  have holds : ∀ d ∈ live, ∀ k j x, Holds (v.apply (.inode id r)) d k j x → Holds v d k j x := by
    rintro d memberD k j x ⟨dir, used, slot, entry, nonzero⟩
    rw [directOf d memberD] at used entry
    rw [Volume.disk_inode valid (by have := (c.range d memberD k used).1; omega)] at entry
    exact ⟨(isDir_congr (typeOf d memberD)).mp dir, used, slot, entry, nonzero⟩
  refine ⟨Volume.synced_inode c.synced valid, c.root, c.valid, c.marked, ?_, ?_, ?_, ?_, ?_, ?_,
    c.reserved, ?_, c.inodes⟩
  · intro other memberOther
    rw [typeOf other memberOther]
    exact c.kind other memberOther
  · intro other memberOther
    rw [directOf other memberOther]
    exact c.range other memberOther
  · intro other memberOther
    rw [directOf other memberOther]
    exact c.taken other memberOther
  · intro x memberX y memberY
    rw [directOf x memberX, directOf y memberY]
    exact c.single x memberX y memberY
  · intro d memberD k j x held
    exact c.names d memberD k j x (holds d memberD k j x held)
  · intro d memberD d' memberD' k k' j j' x held held'
    exact c.once d memberD d' memberD' k k' j j' x (holds d memberD k j x held)
      (holds d' memberD' k' j' x held')
  · intro m lowM highM setM
    refine (c.blocks m lowM highM setM).imp_right ?_
    rintro ⟨other, memberOther, k, eq⟩
    exact ⟨other, memberOther, k, by rw [directOf other memberOther]; exact eq⟩

/-- One entry of a live directory rewritten: to nothing, or to a live inode without a name. -/
theorem consistent_putEntry (c : Consistent ⟨live, blocks, inodes⟩ v) (member : d ∈ live)
    (dir : isDir (v.inode d)) {k : Fin 10} (used : (v.inode d).directBlocks k ≠ 0#32) {j : Nat}
    {x : Block} (others : ∀ j' ≠ j, entryId x j' =
      entryId (v.disk ((v.inode d).directBlocks k)) j')
    (entry : entryId x j = 0#32 ∨ (entryId x j ∈ live ∧ entryId x j ≠ 1#32 ∧
      Unnamed v live (entryId x j))) :
    Consistent ⟨live, blocks, inodes⟩ (v.apply (.block ((v.inode d).directBlocks k) x)) := by
  have range := c.range d member k used
  have inode : ∀ other ∈ live, (v.apply (.block ((v.inode d).directBlocks k) x)).inode other =
      v.inode other := fun other memberOther => Volume.inode_block (c.valid other memberOther) (by omega)
  -- an entry afterwards is the rewritten one or was there before
  have heldBefore : ∀ d' ∈ live, ∀ k' j' y,
      Holds (v.apply (.block ((v.inode d).directBlocks k) x)) d' k' j' y →
      (d' = d ∧ k' = k ∧ j' = j ∧ entryId x j = y ∧ y ≠ 0#32) ∨ Holds v d' k' j' y := by
    rintro d' memberD' k' j' y ⟨dir', used', slot, entry', nonzero⟩
    rw [inode d' memberD'] at dir' used' entry'
    by_cases same : (v.inode d').directBlocks k' = (v.inode d).directBlocks k
    · obtain ⟨rfl, rfl⟩ := c.single d' memberD' d member k' k used' same
      rw [Volume.disk_block] at entry'
      by_cases place : j' = j
      · subst place
        exact .inl ⟨rfl, rfl, rfl, entry', nonzero⟩
      · rw [others j' place] at entry'
        exact .inr ⟨dir', used', slot, entry', nonzero⟩
    · rw [Volume.disk_block_other same] at entry'
      exact .inr ⟨dir', used', slot, entry', nonzero⟩
  refine ⟨Volume.synced_block c.synced (by omega), c.root, c.valid, c.marked, ?_, ?_, ?_,
    ?_, ?_, ?_, c.reserved, ?_, c.inodes⟩
  · intro other memberOther
    rw [inode other memberOther]
    exact c.kind other memberOther
  · intro other memberOther
    rw [inode other memberOther]
    exact c.range other memberOther
  · intro other memberOther
    rw [inode other memberOther]
    exact c.taken other memberOther
  · intro y memberY z memberZ
    rw [inode y memberY, inode z memberZ]
    exact c.single y memberY z memberZ
  · intro d' memberD' k' j' y held
    rcases heldBefore d' memberD' k' j' y held with ⟨_, _, _, rfl, nonzero⟩ | before
    · have := entry.resolve_left nonzero
      exact ⟨this.1, this.2.1⟩
    · exact c.names d' memberD' k' j' y before
  · intro d1 member1 d2 member2 k1 k2 j1 j2 y held1 held2
    rcases heldBefore d1 member1 k1 j1 y held1 with ⟨rfl, rfl, rfl, eq1, nonzero⟩ | before1
    · subst eq1
      rcases heldBefore d2 member2 k2 j2 _ held2 with ⟨rfl, rfl, rfl, _⟩ | before2
      · exact ⟨rfl, rfl, rfl⟩
      · exact absurd before2 ((entry.resolve_left nonzero).2.2 d2 member2 k2 j2)
    · rcases heldBefore d2 member2 k2 j2 y held2 with ⟨rfl, rfl, rfl, eq2, nonzero⟩ | before2
      · subst eq2
        exact absurd before1 ((entry.resolve_left nonzero).2.2 d1 member1 k1 j1)
      · exact c.once d1 member1 d2 member2 k1 k2 j1 j2 y before1 before2
  · intro m lowM highM setM
    refine (c.blocks m lowM highM setM).imp_right ?_
    rintro ⟨other, memberOther, k', eq⟩
    exact ⟨other, memberOther, k', by rw [inode other memberOther]; exact eq⟩

/-- An inode without a name may stop being live; its blocks are then nobody's. -/
theorem consistent_shrink (c : Consistent ⟨live, blocks, inodes⟩ v) (notRoot : id ≠ 1#32)
    (unnamed : Unnamed v live id) :
    Consistent ⟨live \ {id}, blocks ∪ {n | n ≠ 0#32 ∧ ∃ k, (v.inode id).directBlocks k = n},
      insert id inodes⟩ v := by
  refine ⟨c.synced, ⟨c.root, Ne.symm notRoot⟩, fun x m => c.valid x m.1, fun x m => c.marked x m.1,
    fun x m => c.kind x m.1, fun x m => c.range x m.1, fun x m => c.taken x m.1,
    fun x m y m' => c.single x m.1 y m'.1, ?_, fun x m y m' => c.once x m.1 y m'.1, c.reserved,
    ?_, ?_⟩
  · intro d memberD k j x held
    obtain ⟨live', notRoot'⟩ := c.names d memberD.1 k j x held
    refine ⟨⟨live', ?_⟩, notRoot'⟩
    rintro rfl
    exact unnamed d memberD.1 k j held
  · intro n low high set
    rcases c.blocks n low high set with stray | ⟨other, memberOther, k, eq⟩
    · exact .inl (.inl stray)
    · by_cases same : other = id
      · subst same
        refine .inl (.inr ⟨?_, k, eq⟩)
        rintro rfl
        exact absurd low (by decide)
      · exact .inr ⟨other, ⟨memberOther, same⟩, k, eq⟩
  · intro x valid set
    rcases c.inodes x valid set with stray | live'
    · exact .inl (.inr stray)
    · by_cases same : x = id
      · exact .inl (.inl same)
      · exact .inr ⟨live', same⟩

/-- A marked inode without blocks may become live. -/
theorem consistent_grow (c : Consistent ⟨live, blocks, inodes⟩ v) (valid : ValidId id)
    (marked : v.ibit (id.toNat - 1) = true)
    (kind : (v.inode id).type = fsInodeTypeFile ∨ (v.inode id).type = fsInodeTypeDir)
    (empty : ∀ k, (v.inode id).directBlocks k = 0#32) :
    Consistent ⟨insert id live, blocks, inodes \ {id}⟩ v := by
  have holds : ∀ d ∈ insert id live, ∀ k j x, Holds v d k j x → d ∈ live := by
    rintro d (rfl | member) k j x held
    · exact absurd (empty k) held.used
    · exact member
  refine ⟨c.synced, .inr c.root, ?_, ?_, ?_, ?_, ?_, ?_, ?_, ?_, c.reserved, ?_, ?_⟩
  · rintro x (rfl | member)
    · exact valid
    · exact c.valid x member
  · rintro x (rfl | member)
    · exact marked
    · exact c.marked x member
  · rintro x (rfl | member)
    · exact kind
    · exact c.kind x member
  · rintro x (rfl | member) k used
    · exact absurd (empty k) used
    · exact c.range x member k used
  · rintro x (rfl | member) k used
    · exact absurd (empty k) used
    · exact c.taken x member k used
  · rintro x (rfl | memberX) y (rfl | memberY) k k' used same
    · exact absurd (empty k) used
    · exact absurd (empty k) used
    · rw [empty k'] at same
      exact absurd same used
    · exact c.single x memberX y memberY k k' used same
  · intro d memberD k j x held
    obtain ⟨live', notRoot⟩ := c.names d (holds d memberD k j x held) k j x held
    exact ⟨.inr live', notRoot⟩
  · intro d memberD d' memberD' k k' j j' x held held'
    exact c.once d (holds d memberD k j x held) d' (holds d' memberD' k' j' x held') k k' j j' x
      held held'
  · intro n low high set
    refine (c.blocks n low high set).imp_right ?_
    rintro ⟨other, memberOther, k, eq⟩
    exact ⟨other, .inr memberOther, k, eq⟩
  · intro x validX set
    by_cases same : x = id
    · exact .inr (.inl same)
    · exact (c.inodes x validX set).imp (fun stray => ⟨stray, same⟩) .inr

end
end AstralOS.Fs
