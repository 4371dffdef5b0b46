import AstralOS.Fs.Format

/-! Block ownership: along every run of calls on inodes in use, a block's bit is set exactly
when the block is reserved or belongs to one inode at one place. -/
namespace AstralOS.Fs
open Foundation

/-- The inode's bit in the cached inode bitmap is set. -/
def InodeInUse (w : World) (id : BitVec 32) : Prop :=
  1 ≤ id.toNat ∧ id.toNat ≤ w.currentSuperblock.totalInodes.toNat ∧
    ∃ b, w.inodeBitmap = some b ∧ testBit b.bytes (id.toNat - 1) = true

/-- Block `n` has its bit, number `n - 1`, set in the cached block bitmap. -/
def BlockMarked (w : World) (n : Nat) : Prop :=
  ∃ b, w.blockBitmap = some b ∧ testBit b.bytes (n - 1) = true

/-- The record of an inode on the device. -/
def storedInode (w : World) (id : BitVec 32) : Inode :=
  Inode.ofBytes ((w.disk (inodeBlockNum w.currentSuperblock id)).bytes.drop (inodeOffset id))

/-- A call on an inode in use, with a type the file system is used with. -/
def CallInUse (w : World) (c : Call) : Prop := InodeInUse w c.inode ∧ c.Typed

/-- Every bit is set for a reason, and only one. -/
structure OwnershipKept (w : World) : Prop where
  marked : ∀ n, 1 ≤ n → n ≤ w.currentSuperblock.totalBlocks.toNat →
    (BlockMarked w n ↔ n ≤ w.currentSuperblock.dataStartBlock.toNat + 1 ∨
      ∃! owner : BitVec 32 × Fin 10, InodeInUse w owner.1 ∧
        ((storedInode w owner.1).directBlocks owner.2).toNat = n)
  reserved : ∀ id, InodeInUse w id → ∀ k, (storedInode w id).directBlocks k ≠ 0#32 →
    w.currentSuperblock.dataStartBlock.toNat + 1 < ((storedInode w id).directBlocks k).toNat

section
variable {w : World} {v : Volume} {l : List Ptr} {live : Set (BitVec 32)}

theorem Shows.inodeInUse_iff (shows_ : Shows v l w) {id : BitVec 32} :
    InodeInUse w id ↔ ValidId id ∧ v.ibit (id.toNat - 1) = true := by
  obtain ⟨b, bitmap, bits⟩ := shows_.inodeBits
  have same : ∀ i < 128, testBit b.bytes i = v.ibit i := fun i hi =>
    testBit_congr (bytes_of_ofBytes bits (by omega)).symm
  rw [InodeInUse, shows_.layout.totalInodes]
  constructor
  · rintro ⟨pos, small, b', bitmap', set⟩
    obtain rfl := Option.some.inj (bitmap.symm.trans bitmap')
    have small : id.toNat ≤ 128 := small
    rw [same _ (by omega)] at set
    exact ⟨⟨pos, small⟩, set⟩
  · rintro ⟨⟨pos, small⟩, set⟩
    refine ⟨pos, small, b, bitmap, ?_⟩
    rw [same _ (by omega)]
    exact set

theorem Shows.blockMarked_iff (shows_ : Shows v l w) {n : Nat} (small : n ≤ 1024) :
    BlockMarked w n ↔ v.bbit (n - 1) = true := by
  obtain ⟨b, bitmap, bits⟩ := shows_.blockBits
  have same : testBit b.bytes (n - 1) = v.bbit (n - 1) :=
    testBit_congr (bytes_of_ofBytes bits (by omega)).symm
  constructor
  · rintro ⟨b', bitmap', set⟩
    obtain rfl := Option.some.inj (bitmap.symm.trans bitmap')
    exact same.symm.trans set
  · exact fun set => ⟨b, bitmap, same.trans set⟩

theorem Shows.storedInode (shows_ : Shows v l w) (id : BitVec 32) :
    storedInode w id = v.inode id := by
  rw [AstralOS.Fs.storedInode, Volume.inode, inodeBlockNum_eq shows_.layout, shows_.disk]

/-- With nothing unaccounted for, the live inodes are those in use. -/
theorem Consistent.inUse_iff (c : Consistent ⟨live, ∅, ∅⟩ v) (shows_ : Shows v l w)
    {id : BitVec 32} : InodeInUse w id ↔ id ∈ live := by
  rw [shows_.inodeInUse_iff]
  constructor
  · rintro ⟨valid, set⟩
    exact (c.inodes id valid set).resolve_left (Set.notMem_empty id)
  · exact fun member => ⟨c.valid id member, c.marked id member⟩

/-- A world whose inodes in use make up a consistent volume. -/
def Settled (w : World) : Prop :=
  ∃ v l live, Shows v l w ∧ Consistent ⟨live, ∅, ∅⟩ v

theorem settled_step (w : World) (c : Call) (settled : Settled w) (allowed : CallInUse w c) :
    Settled (step w c) := by
  obtain ⟨v, l, live, shows_, consistent⟩ := settled
  obtain ⟨live', track⟩ :=
    track_perform consistent c ((consistent.inUse_iff shows_).mp allowed.1) allowed.2
  exact ⟨v.step c, l, live', shows_.step c, track.final⟩

theorem settled_format {buffer : Block} (formattable : Formattable w buffer)
    (inodeJunk blockJunk : Bytes) : Settled (fsInit inodeJunk blockJunk w).2 := by
  obtain ⟨v, l, shows_, fresh, _⟩ := fsInit_formats formattable inodeJunk blockJunk
  exact ⟨v, l, {1#32}, shows_, fresh.consistent⟩

theorem Settled.root_inUse (settled : Settled w) : InodeInUse w 1#32 := by
  obtain ⟨v, l, live, shows_, c⟩ := settled
  exact (c.inUse_iff shows_).mpr c.root

theorem ownershipKept_of_settled (settled : Settled w) : OwnershipKept w := by
  obtain ⟨v, l, live, shows_, c⟩ := settled
  have layout := shows_.layout
  refine ⟨fun n low high => ?_, fun id inUse k used => ?_⟩
  · rw [layout.totalBlocks] at high
    have high : n ≤ 1024 := high
    rw [layout.dataStartBlock, shows_.blockMarked_iff high]
    change v.bbit (n - 1) = true ↔ n ≤ 7 ∨ _
    constructor
    · intro set
      by_cases reserved : n ≤ 7
      · exact .inl reserved
      have number : (BitVec.ofNat 32 n).toNat = n := by
        rw [BitVec.toNat_ofNat, Nat.mod_eq_of_lt (by omega)]
      have owned := c.blocks (BitVec.ofNat 32 n) (by omega) (by omega) (by rw [number]; exact set)
      obtain ⟨id, member, k, eq⟩ := owned.resolve_left (Set.notMem_empty _)
      refine .inr ⟨(id, k), ⟨(c.inUse_iff shows_).mpr member, ?_⟩, ?_⟩
      · rw [shows_.storedInode, eq, number]
      · rintro ⟨id', k'⟩ ⟨inUse', eq'⟩
        have member' := (c.inUse_iff shows_).mp inUse'
        rw [shows_.storedInode] at eq'
        have used : (v.inode id').directBlocks k' ≠ 0#32 := by
          intro zero
          rw [zero] at eq'
          change 0 = n at eq'
          omega
        have same : (v.inode id').directBlocks k' = (v.inode id).directBlocks k :=
          BitVec.eq_of_toNat_eq (by rw [eq', eq, number])
        obtain ⟨rfl, rfl⟩ := c.single id' member' id member k' k used same
        rfl
    · rintro (reserved | ⟨⟨id, k⟩, ⟨inUse, eq⟩, _⟩)
      · exact c.reserved (n - 1) (by omega)
      · have member := (c.inUse_iff shows_).mp inUse
        rw [shows_.storedInode] at eq
        have used : (v.inode id).directBlocks k ≠ 0#32 := by
          intro zero
          rw [zero] at eq
          change 0 = n at eq
          omega
        have := c.taken id member k used
        rwa [eq] at this
  · rw [shows_.storedInode] at used ⊢
    rw [layout.dataStartBlock]
    have := (c.range id ((c.inUse_iff shows_).mp inUse) k used).1
    change 7 < _
    omega

end

/-- After formatting, and after every call of a run on inodes in use, no block is owned
twice, none overlaps metadata and none is leaked. -/
theorem block_ownership {w : World} {buffer : Block} (formattable : Formattable w buffer)
    (inodeJunk blockJunk : Bytes) (calls : List Call)
    (admitted : Admitted step CallInUse (fsInit inodeJunk blockJunk w).2 calls) :
    Always step OwnershipKept (fsInit inodeJunk blockJunk w).2 calls :=
  (always_of_admitted settled_step (settled_format formattable inodeJunk blockJunk)
    admitted).mono fun _ settled => ownershipKept_of_settled settled

/-- A blank device whose first read fails. -/
def blankWorld : World where
  disk := fun _ => Block.zero
  readFaults := fun i => if i = 0 then some Block.zero else none
  writeFaults := fun _ => false
  kmallocFaults := fun _ => false
  live := []
  issued := []
  misuse := []
  currentSuperblock := Superblock.zero
  inodeBitmap := none
  blockBitmap := none

theorem blankWorld_formattable : Formattable blankWorld Block.zero :=
  ⟨rfl, fun _ => rfl, fun _ => rfl, fun _ => rfl⟩

/-- Right after formatting the root may be asked for a name. -/
theorem root_inUse (inodeJunk blockJunk : Bytes) :
    InodeInUse (fsInit inodeJunk blockJunk blankWorld).2 1#32 :=
  (settled_format blankWorld_formattable inodeJunk blockJunk).root_inUse

theorem block_ownership_blank :
    Always step OwnershipKept (fsInit (fun _ => 0) (fun _ => 0) blankWorld).2
      [.create 1#32 ⟨[0x61#8], by decide⟩ fsInodeTypeFile fun _ => 0] :=
  block_ownership blankWorld_formattable (fun _ => 0) (fun _ => 0) _
    ⟨⟨root_inUse _ _, .inl rfl⟩, trivial⟩

end AstralOS.Fs
