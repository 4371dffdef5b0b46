import AstralOS.Fs.VolumeCalls

/-! What is read back from a volume after one update. -/
namespace AstralOS.Fs
open Foundation

/-- The numbers `get_inode` accepts. -/
def ValidId (id : BitVec 32) : Prop := 1 ≤ id.toNat ∧ id.toNat ≤ 128

theorem validId_iff {id : BitVec 32} : ValidId id ↔ ¬ (id = 0#32 ∨ 128#32 < id) := by
  have zero : id = 0#32 ↔ id.toNat = 0 := BitVec.toNat_inj.symm
  rw [ValidId, not_or, BitVec.not_lt, BitVec.le_def, zero]
  change _ ↔ ¬ id.toNat = 0 ∧ id.toNat ≤ 128
  omega

theorem toNat_pred {id : BitVec 32} (valid : ValidId id) : (id - 1#32).toNat = id.toNat - 1 := by
  obtain ⟨pos, _⟩ := valid
  have := id.isLt
  rw [BitVec.toNat_sub]
  change (2 ^ 32 - 1 + id.toNat) % 2 ^ 32 = _
  omega

theorem tableBlock_toNat {id : BitVec 32} (valid : ValidId id) :
    (tableBlock id).toNat = 3 + (id.toNat - 1) / 46 := by
  obtain ⟨pos, small⟩ := valid
  rw [tableBlock, toNat_pred ⟨pos, small⟩, BitVec.toNat_add, BitVec.toNat_ofNat]
  change (3 + (id.toNat - 1) / 46 % 2 ^ 32) % 2 ^ 32 = _
  omega

/-- The inode table lies in blocks 3 to 5. -/
theorem tableBlock_range {id : BitVec 32} (valid : ValidId id) :
    3 ≤ (tableBlock id).toNat ∧ (tableBlock id).toNat ≤ 5 := by
  have := valid.2
  rw [tableBlock_toNat valid]
  omega

theorem inodeOffset_eq {id : BitVec 32} (valid : ValidId id) :
    inodeOffset id = 88 * ((id.toNat - 1) % 46) := by
  rw [inodeOffset, toNat_pred valid]
  rfl

theorem ofNat_valid {i : Nat} (small : i < 128) : ValidId (BitVec.ofNat 32 (i + 1)) := by
  rw [ValidId, BitVec.toNat_ofNat]
  omega

theorem ofNat_succ_toNat {i : Nat} (small : i < 2 ^ 32 - 1) :
    (BitVec.ofNat 32 (i + 1)).toNat = i + 1 := by
  rw [BitVec.toNat_ofNat, Nat.mod_eq_of_lt (by omega)]

namespace Volume
variable {v : Volume} {i j : Nat} {set : Bool} {id other : BitVec 32} {r : Inode} {n m : BlockNum}
  {b : Block}

/-- Bit `i` of the cached inode bitmap. -/
def ibit (v : Volume) (i : Nat) : Bool := testBit v.inodeBits.bytes i

/-- Bit `i` of the cached block bitmap. -/
def bbit (v : Volume) (i : Nat) : Bool := testBit v.blockBits.bytes i

/-- The cached bitmaps are what the device holds, and so is the layout. -/
structure Synced (v : Volume) : Prop where
  inodes : v.disk 1#32 = v.inodeBits
  blocks : v.disk 2#32 = v.blockBits
  layout : Formatted (Superblock.ofBytes (v.disk 0#32).bytes)

theorem testBit_putBit (hi : i < 32768) :
    testBit (putBit b i set).bytes j = if i = j then set else testBit b.bytes j := by
  have bit : ∀ f : Bytes, testBit (Block.ofBytes f).bytes j =
      if j < 32768 then testBit f j else false := by
    intro f
    by_cases inside : j < 32768
    · rw [if_pos inside]
      exact testBit_congr (Block.bytes_ofBytes f (by omega))
    · have outside : (Block.ofBytes f).bytes (j / 8) = 0#8 := dif_neg (by omega)
      rw [if_neg inside, testBit_eq, outside]
      exact BitVec.getLsbD_zero
  have own := bit b.bytes
  rw [Block.ofBytes_bytes] at own
  rw [putBit, bit]
  cases set
  · rw [if_neg Bool.false_ne_true, testBit_clearBit, own]
    by_cases same : i = j
    · simp [same]
    · simp [same]
  · rw [if_pos rfl, testBit_setBit, own]
    by_cases same : i = j
    · simp [← same, hi]
    · simp [same]

@[simp] theorem ibit_inodeBit (hi : i < 32768) :
    (v.apply (.inodeBit i set)).ibit j = if i = j then set else v.ibit j :=
  testBit_putBit hi

@[simp] theorem ibit_blockBit : (v.apply (.blockBit i set)).ibit j = v.ibit j := rfl
@[simp] theorem ibit_inode : (v.apply (.inode id r)).ibit j = v.ibit j := rfl
@[simp] theorem bbit_blockBit (hi : i < 32768) :
    (v.apply (.blockBit i set)).bbit j = if i = j then set else v.bbit j :=
  testBit_putBit hi

@[simp] theorem bbit_inodeBit : (v.apply (.inodeBit i set)).bbit j = v.bbit j := rfl
@[simp] theorem bbit_inode : (v.apply (.inode id r)).bbit j = v.bbit j := rfl
@[simp] theorem bbit_block : (v.apply (.block n b)).bbit j = v.bbit j := rfl

theorem disk_apply (u : Update) (apart : m ≠ (v.issue u).1) : (v.apply u).disk m = v.disk m :=
  Function.update_of_ne apart _ _

theorem disk_block : (v.apply (.block n b)).disk n = b := Function.update_self _ _ _

theorem disk_block_other (apart : m ≠ n) : (v.apply (.block n b)).disk m = v.disk m :=
  disk_apply _ apart

/-- Bitmap updates leave every block from 3 on. -/
theorem disk_inodeBit (data : 3 ≤ m.toNat) : (v.apply (.inodeBit i set)).disk m = v.disk m := by
  refine disk_apply _ ?_
  rintro rfl
  simp [issue] at data

theorem disk_blockBit (data : 3 ≤ m.toNat) : (v.apply (.blockBit i set)).disk m = v.disk m := by
  refine disk_apply _ ?_
  rintro rfl
  simp [issue] at data

/-- Writing an inode leaves every block outside the table. -/
theorem disk_inode (valid : ValidId id) (data : 6 ≤ m.toNat) :
    (v.apply (.inode id r)).disk m = v.disk m := by
  refine disk_apply _ ?_
  rintro rfl
  have := (tableBlock_range valid).2
  exact absurd data (by simp only [issue]; omega)

theorem inode_congr {v' : Volume} (same : v'.disk (tableBlock id) = v.disk (tableBlock id)) :
    v'.inode id = v.inode id := by
  rw [inode, inode, same]

theorem inode_inodeBit (valid : ValidId id) : (v.apply (.inodeBit i set)).inode id = v.inode id :=
  inode_congr (disk_inodeBit (tableBlock_range valid).1)

theorem inode_blockBit (valid : ValidId id) : (v.apply (.blockBit i set)).inode id = v.inode id :=
  inode_congr (disk_blockBit (tableBlock_range valid).1)

theorem inode_block (valid : ValidId id) (data : 6 ≤ n.toNat) :
    (v.apply (.block n b)).inode id = v.inode id := by
  refine inode_congr (disk_apply _ ?_)
  intro same
  have := (tableBlock_range valid).2
  rw [same] at this
  simp only [issue] at this
  omega

theorem inode_inode_same (valid : ValidId id) : (v.apply (.inode id r)).inode id = r := by
  have offset := inodeOffset_eq valid
  have written : (v.apply (.inode id r)).disk (tableBlock id) =
      (v.disk (tableBlock id)).patch (inodeOffset id) inodeSize r.bytes := Function.update_self _ _ _
  rw [inode, written]
  refine Eq.trans (Inode.ofBytes_congr fun k hk => ?_) r.ofBytes_bytes
  exact Block.patch_inside _ _ hk (by rw [offset, inodeSize]; omega)

/-- Records of different numbers do not overlap. -/
theorem inode_inode_other (valid : ValidId id) (validOther : ValidId other) (apart : id ≠ other) :
    (v.apply (.inode id r)).inode other = v.inode other := by
  by_cases same : tableBlock other = tableBlock id
  · have block : (tableBlock other).toNat = (tableBlock id).toNat := by rw [same]
    rw [tableBlock_toNat valid, tableBlock_toNat validOther] at block
    have numbers : id.toNat ≠ other.toNat := fun eq => apart (BitVec.eq_of_toNat_eq eq)
    have offset := inodeOffset_eq valid
    have offsetOther := inodeOffset_eq validOther
    have := valid.1
    have := validOther.1
    have written : (v.apply (.inode id r)).disk (tableBlock id) =
        (v.disk (tableBlock id)).patch (inodeOffset id) inodeSize r.bytes :=
      Function.update_self _ _ _
    rw [inode, inode, same, written]
    refine Inode.ofBytes_congr fun k hk => ?_
    refine Block.patch_outside _ _ ?_
    rw [inodeSize] at hk ⊢
    omega
  · exact inode_congr (disk_apply _ same)

theorem synced_inodeBit (synced : v.Synced) : (v.apply (.inodeBit i set)).Synced where
  inodes := by exact Function.update_self (1#32) (putBit v.inodeBits i set) v.disk
  blocks := (disk_apply (.inodeBit i set) (by simp [issue])).trans synced.blocks
  layout := by
    rw [disk_apply (.inodeBit i set) (by simp [issue])]
    exact synced.layout

theorem synced_blockBit (synced : v.Synced) : (v.apply (.blockBit i set)).Synced where
  inodes := (disk_apply (.blockBit i set) (by simp [issue])).trans synced.inodes
  blocks := by exact Function.update_self (2#32) (putBit v.blockBits i set) v.disk
  layout := by
    rw [disk_apply (.blockBit i set) (by simp [issue])]
    exact synced.layout

/-- No inode record lies in blocks 0 to 2. -/
theorem disk_inode_low (valid : ValidId id) (low : m.toNat ≤ 2) :
    (v.apply (.inode id r)).disk m = v.disk m := by
  refine disk_apply (.inode id r) ?_
  rintro rfl
  have := (tableBlock_range valid).1
  simp only [issue] at low
  omega

theorem synced_inode (synced : v.Synced) (valid : ValidId id) : (v.apply (.inode id r)).Synced where
  inodes := (disk_inode_low valid (by decide)).trans synced.inodes
  blocks := (disk_inode_low valid (by decide)).trans synced.blocks
  layout := by
    rw [disk_inode_low valid (by decide)]
    exact synced.layout

theorem synced_block (synced : v.Synced) (data : 3 ≤ n.toNat) : (v.apply (.block n b)).Synced := by
  have other : ∀ m : BlockNum, m.toNat ≤ 2 → (v.apply (.block n b)).disk m = v.disk m := by
    intro m low
    refine disk_block_other ?_
    rintro rfl
    omega
  refine ⟨(other _ (by decide)).trans synced.inodes, (other _ (by decide)).trans synced.blocks, ?_⟩
  rw [other _ (by decide)]
  exact synced.layout

theorem openAs_some {kind : Inode → Prop} [DecidablePred kind] (valid : ValidId id)
    (fits : kind (v.inode id)) : v.openAs kind id = some (v.inode id) := by
  rw [openAs, if_neg (validId_iff.mp valid), if_pos fits]

theorem openAs_none {kind : Inode → Prop} [DecidablePred kind] (other : ¬ kind (v.inode id)) :
    v.openAs kind id = none := by
  rw [openAs, if_neg other]
  split
  · rfl
  · rfl

theorem unusedInode_some (found : v.unusedInode = some i) :
    i < 128 ∧ v.ibit i = false ∧ ∀ j < i, v.ibit j = true :=
  firstClear_eq_some.mp found

theorem unusedInode_none (full : v.unusedInode = none) : ∀ i < 128, v.ibit i = true :=
  firstClear_eq_none.mp full

theorem unusedBlock_some (found : v.unusedBlock = some i) :
    i < 1024 ∧ v.bbit i = false ∧ ∀ j < i, v.bbit j = true :=
  firstClear_eq_some.mp found

theorem unusedBlock_none (full : v.unusedBlock = none) : ∀ i < 1024, v.bbit i = true :=
  firstClear_eq_none.mp full

theorem unusedInode_of_clear (small : i < 128) (clear : v.ibit i = false) : v.unusedInode ≠ none := by
  intro full
  have set := unusedInode_none full i small
  exact absurd (clear.symm.trans set) Bool.false_ne_true

theorem unusedBlock_of_clear (small : i < 1024) (clear : v.bbit i = false) : v.unusedBlock ≠ none := by
  intro full
  have set := unusedBlock_none full i small
  exact absurd (clear.symm.trans set) Bool.false_ne_true

end Volume
end AstralOS.Fs
