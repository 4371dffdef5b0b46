import AstralOS.Fs.Isolation

/-! How many bytes a read returns: `fs_read` clamps its count with sums and differences of 64
bits, and goes by the index of the block, of which it keeps 32. -/
namespace AstralOS.Fs
open Foundation AstralOS.Lib

/-- The file has a block for its byte `p`. -/
def Inode.Allocated (r : Inode) (p : Nat) : Prop :=
  ∃ k : Fin 10, p / fsBlockSize = k ∧ r.directBlocks k ≠ 0#32

/-- What the result of a read should be. -/
structure ReadsWithin (w : World) (id : BitVec 32) (offset count : BitVec 64) : Prop where
  stored : ((fsRead id offset count w).1.2.length : Int) ≤ (fsRead id offset count w).1.1
  inside : offset < (storedInode w id).size → (storedInode w id).size.toNat ≤ maxFileSize →
    (∀ p < (storedInode w id).size.toNat, (storedInode w id).Allocated p) →
    (fsRead id offset count w).1.1 =
      (min count.toNat ((storedInode w id).size.toNat - offset.toNat) : Nat)
  behind : (storedInode w id).size ≤ offset → (fsRead id offset count w).1.1 = 0

/-- When it is that: the end of the range does not wrap, or there is no block to go on in. -/
structure ReadFits (r : Inode) (offset count : BitVec 64) : Prop where
  inside : offset < r.size → r.size.toNat ≤ maxFileSize → (∀ p < r.size.toNat, r.Allocated p) →
    offset.toNat + count.toNat < 2 ^ 64 ∨ ¬ r.Allocated r.size.toNat
  behind : r.size ≤ offset → (offset = r.size ∧ offset.toNat + count.toNat < 2 ^ 64) ∨
    ¬ r.Allocated (offset.toNat % 2 ^ 44)

section
variable {v : Volume} {id : BitVec 32} {r : Inode} {size offset count : BitVec 64} {o n last : Nat}

theorem clamped_inside (inside : offset < size) (fits : offset.toNat + count.toNat < 2 ^ 64) :
    (clamped size offset count).toNat = min count.toNat (size.toNat - offset.toNat) := by
  unfold clamped
  by_cases past : size < offset + count
  · rw [if_pos past]
    bv_omega
  · rw [if_neg past]
    bv_omega

theorem clamped_wrap (inside : offset < size) (wraps : ¬ offset.toNat + count.toNat < 2 ^ 64) :
    clamped size offset count = count := by
  unfold clamped
  exact if_neg (by bv_omega)

theorem clamped_behind (behind : size ≤ offset) : clamped size offset count = 0#64 ↔
    offset = size ∧ offset.toNat + count.toNat < 2 ^ 64 := by
  unfold clamped
  by_cases past : size < offset + count
  · rw [if_pos past]
    constructor
    · intro zero
      refine ⟨by bv_omega, by bv_omega⟩
    · rintro ⟨rfl, _⟩
      exact BitVec.sub_self offset
  · rw [if_neg past]
    constructor
    · rintro rfl
      refine ⟨by bv_omega, by bv_omega⟩
    · rintro ⟨rfl, fits⟩
      bv_omega

theorem place_eq_none : r.place o n = none ↔ ¬ r.Allocated ((o + n) % 2 ^ 44) := by
  have index : blockIndex o n = (o + n) % 2 ^ 44 / fsBlockSize := by
    rw [blockIndex, fsBlockSize]
    omega
  constructor
  · rintro none_ ⟨k, number, used⟩
    rw [place_some (index.trans number) used] at none_
    cases none_
  · intro missing
    by_cases inside : blockIndex o n < 10
    · refine place_vacant inside (by_contra fun used => missing ?_)
      exact ⟨⟨blockIndex o n, inside⟩, index.symm, used⟩
    · exact place_beyond inside

theorem Inode.Allocated.lt (allocated : r.Allocated n) : n < maxFileSize := by
  obtain ⟨k, number, _⟩ := allocated
  have := k.isLt
  rw [fsBlockSize] at number
  rw [maxFileSize, fsBlockSize]
  omega

/-- A range that is reached lies within the ten blocks. -/
theorem Reaches.inside (reaches : Reaches r o n 0 last) (some_ : last ≠ 0) :
    o % 2 ^ 44 + last ≤ maxFileSize := by
  by_contra beyond
  have placed : ∀ p < last, (o + p) % 2 ^ 44 < maxFileSize := fun p below =>
    (by_contra fun missing => reaches.placed p (Nat.zero_le p) below (place_eq_none.mpr missing) :
      r.Allocated ((o + p) % 2 ^ 44)).lt
  rw [maxFileSize, fsBlockSize] at beyond placed
  have first := placed 0 (by omega)
  have final := placed (40960 - o % 2 ^ 44) (by omega)
  omega

theorem Reaches.le_maxFileSize (reaches : Reaches r o n 0 last) : last ≤ maxFileSize := by
  by_cases none_ : last = 0
  · rw [none_]
    exact Nat.zero_le _
  · have := reaches.inside none_
    omega

/-- The result of a read is how far it reaches, and so many bytes it stores. -/
theorem read_extends (valid : ValidId id) (file : isFile (v.inode id)) :
    ∃ last, Reaches (v.inode id) offset.toNat (clamped (v.inode id).size offset count).toNat 0 last ∧
      (v.read id offset count).1 = last ∧ (v.read id offset count).2.length = last := by
  obtain ⟨last, reaches, copied⟩ := @read_clamped v id offset count valid file
  refine ⟨last, reaches, ?_, ?_⟩
  · rw [copied, toInt_eq reaches.le_maxFileSize]
  · rw [copied, List.length_map, List.length_range]

theorem reaches_inside_iff (inside : offset < r.size) (small : r.size.toNat ≤ maxFileSize)
    (allocated : ∀ p < r.size.toNat, r.Allocated p)
    (reaches : Reaches r offset.toNat (clamped r.size offset count).toNat 0 last) :
    last = min count.toNat (r.size.toNat - offset.toNat) ↔
      offset.toNat + count.toNat < 2 ^ 64 ∨ ¬ r.Allocated r.size.toNat := by
  have inside' : offset.toNat < r.size.toNat := inside
  have most := reaches.high (Nat.zero_le _)
  rw [maxFileSize, fsBlockSize] at small
  -- the loop does not stop before the end of the file
  have enough : last < (clamped r.size offset count).toNat → r.size.toNat ≤ offset.toNat + last := by
    intro more
    by_contra before
    refine place_eq_none.mp (reaches.stop more) ?_
    rw [Nat.mod_eq_of_lt (by omega)]
    exact allocated _ (by omega)
  by_cases fits : offset.toNat + count.toNat < 2 ^ 64
  · rw [clamped_inside inside fits] at most enough
    refine iff_of_true ?_ (.inl fits)
    omega
  · have wraps := count.isLt
    rw [clamped_wrap inside fits] at most enough reaches
    have whole : offset.toNat + (r.size.toNat - offset.toNat) = r.size.toNat := by omega
    have end_ : r.place offset.toNat (r.size.toNat - offset.toNat) = none ↔ ¬ r.Allocated r.size.toNat := by
      rw [place_eq_none, whole, Nat.mod_eq_of_lt (by omega)]
    rw [or_iff_right fits, ← end_, min_eq_right (by omega)]
    constructor
    · rintro rfl
      exact reaches.stop (by omega)
    · intro missing
      by_contra other
      exact reaches.placed _ (Nat.zero_le _) (by omega) missing

theorem reaches_behind_iff (behind : r.size ≤ offset)
    (reaches : Reaches r offset.toNat (clamped r.size offset count).toNat 0 last) :
    last = 0 ↔ (offset = r.size ∧ offset.toNat + count.toNat < 2 ^ 64) ∨
      ¬ r.Allocated (offset.toNat % 2 ^ 44) := by
  have start : r.place offset.toNat 0 = none ↔ ¬ r.Allocated (offset.toNat % 2 ^ 44) := place_eq_none
  rw [← clamped_behind behind, ← start]
  constructor
  · rintro rfl
    by_cases none_ : clamped r.size offset count = 0#64
    · exact .inl none_
    · refine .inr (reaches.stop (Nat.pos_of_ne_zero fun zero => none_ ?_))
      exact BitVec.eq_of_toNat_eq zero
  · rintro (none_ | missing)
    · have most := reaches.high (Nat.zero_le _)
      rw [none_] at most
      exact Nat.le_zero.mp most
    · by_contra other
      exact reaches.placed 0 le_rfl (Nat.pos_of_ne_zero other) missing

theorem readsWithin_iff {w : World} {l : List Ptr} (shows_ : Shows v l w) (valid : ValidId id)
    (file : isFile (v.inode id)) :
    ReadsWithin w id offset count ↔ ReadFits (storedInode w id) offset count := by
  obtain ⟨last, reaches, result, length⟩ := @read_extends v id offset count valid file
  have returned : (fsRead id offset count w).1 = v.read id offset count :=
    (does_fsRead id offset count w shows_).1
  have record := shows_.storedInode id
  constructor
  · rintro ⟨_, inside, behind⟩
    rw [returned, result, record] at inside behind
    rw [record]
    refine ⟨fun before small allocated => ?_, fun past => ?_⟩
    · exact (reaches_inside_iff before small allocated reaches).mp
        (Int.ofNat_inj.mp (inside before small allocated))
    · exact (reaches_behind_iff past reaches).mp (Int.ofNat_inj.mp (behind past))
  · rintro ⟨inside, behind⟩
    rw [record] at inside behind
    refine ⟨?_, ?_, ?_⟩
    · rw [returned, result, length]
    · rw [returned, result, record]
      intro before small allocated
      exact congrArg Int.ofNat
        ((reaches_inside_iff before small allocated reaches).mpr (inside before small allocated))
    · rw [returned, result, record]
      intro past
      exact congrArg Int.ofNat ((reaches_behind_iff past reaches).mpr (behind past))

end

/-- In every state that calls can reach, a read of a file returns what it should if and only
if its range neither wraps nor starts behind the end in a block that is there. -/
theorem read_extent_iff {w : World} {buffer : Block} (formattable : Formattable w buffer)
    (inodeJunk blockJunk : Bytes) (calls : List Call) {id : BitVec 32} (low : 1 ≤ id.toNat)
    (high : id.toNat ≤ (calls.foldl step (fsInit inodeJunk blockJunk w).2).currentSuperblock.totalInodes.toNat)
    (file : isFile (storedInode (calls.foldl step (fsInit inodeJunk blockJunk w).2) id))
    (offset count : BitVec 64) :
    ReadsWithin (calls.foldl step (fsInit inodeJunk blockJunk w).2) id offset count ↔
      ReadFits (storedInode (calls.foldl step (fsInit inodeJunk blockJunk w).2) id) offset count := by
  obtain ⟨v, l, shows_, _⟩ := fsInit_formats formattable inodeJunk blockJunk
  have after := shows_.run calls
  rw [after.layout.totalInodes] at high
  rw [after.storedInode] at file
  exact readsWithin_iff after ⟨low, high⟩ file

/-- A file of one byte. -/
def oneByteCalls : List Call := [newFile nameA, .write 2#32 0#64 (fun _ => 1#8) 1#64]

theorem oneByte_record : ∃ v l,
    Shows v l (oneByteCalls.foldl step (fsInit (fun _ => 0) (fun _ => 0) blankWorld).2) ∧
      v.inode 2#32 = { (newInode 2#32 fsInodeTypeFile).setDirect 0 9#32 with size := 1#64 } := by
  obtain ⟨v, l, live, shows_, c, one⟩ := one_file (fun _ => 0) fun _ => 0
  have shows2 := shows_.step (.write 2#32 0#64 (fun _ => 1#8) 1#64)
  obtain ⟨written, _⟩ := oneFile_write one (show (0#64).toNat < 4096 by decide) fun _ => 1#8
  exact ⟨_, l, shows2, written.record⟩

theorem read_extent_iff_one_byte :
    ReadsWithin (oneByteCalls.foldl step (fsInit (fun _ => 0) (fun _ => 0) blankWorld).2) 2#32 0#64 1#64 ↔
      ReadFits (storedInode (oneByteCalls.foldl step (fsInit (fun _ => 0) (fun _ => 0) blankWorld).2) 2#32)
        0#64 1#64 := by
  obtain ⟨v, l, shows_, record⟩ := oneByte_record
  refine read_extent_iff blankWorld_formattable (fun _ => 0) (fun _ => 0) oneByteCalls (by decide) ?_ ?_
    0#64 1#64
  · rw [shows_.layout.totalInodes]
    decide
  · rw [shows_.storedInode, record]
    decide

/-- Byte 2 of a file of one byte: the clamped count is 2 ^ 64 - 1. -/
theorem read_behind_end_returns_bytes :
    ¬ ReadsWithin (oneByteCalls.foldl step (fsInit (fun _ => 0) (fun _ => 0) blankWorld).2)
      2#32 2#64 1#64 := by
  intro within
  obtain ⟨v, l, shows_, record⟩ := oneByte_record
  have file : isFile (v.inode 2#32) := by
    rw [record]
    decide
  have fits := (readsWithin_iff shows_ ⟨by decide, by decide⟩ file).mp within
  rw [shows_.storedInode, record] at fits
  rcases fits.behind (by decide) with ⟨same, _⟩ | missing
  · exact absurd same (by decide)
  · exact missing ⟨0, rfl, by decide⟩

end AstralOS.Fs
