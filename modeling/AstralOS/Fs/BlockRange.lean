import AstralOS.Fs.Namespace
import AstralOS.Fs.ReadBack

/-! Block numbers: the last one `allocate_block` can return lies behind the device. -/
namespace AstralOS.Fs
open Foundation AstralOS.Lib

/-- The iterations of the write loop that find no block: `direct_blocks` entries the range
covers that are zero. -/
def blocksNeeded (inode : Inode) (offset count done : Nat) : Nat :=
  if _ : done < count then
    if h : blockIndex offset done < 10 then
      if inode.directBlocks ⟨blockIndex offset done, h⟩ = 0#32 then
        blocksNeeded (inode.setDirect ⟨blockIndex offset done, h⟩ 1#32) offset count
          (done + chunk offset count done) + 1
      else blocksNeeded inode offset count (done + chunk offset count done)
    else 0
  else 0
termination_by count - done
decreasing_by all_goals have := chunk_pos offset ‹done < count›; omega

/-- Clear bits but for the last one. -/
def Volume.spare (v : Volume) : Nat := ((Finset.range 1023).filter fun i => v.bbit i = false).card

/-- A block write to a block of the device. -/
def Update.OnDevice : Update → Prop
  | .inodeBit _ _ => True
  | .blockBit _ _ => True
  | .inode id _ => ValidId id
  | .block n _ => n.toNat < 1024

section
variable {v : Volume} {us : List Update} {inode : Inode} {id d : BitVec 32} {name : CString} {n : Nat}

section
variable {offset count done : Nat}

theorem blocksNeeded_vacant (more : done < count) (index : blockIndex offset done < 10)
    (vacant : inode.directBlocks ⟨blockIndex offset done, index⟩ = 0#32) :
    blocksNeeded inode offset count done =
      blocksNeeded (inode.setDirect ⟨blockIndex offset done, index⟩ 1#32) offset count
        (done + chunk offset count done) + 1 := by
  rw [blocksNeeded, dif_pos more, dif_pos index, if_pos vacant]

theorem blocksNeeded_used (more : done < count) (index : blockIndex offset done < 10)
    (used : inode.directBlocks ⟨blockIndex offset done, index⟩ ≠ 0#32) :
    blocksNeeded inode offset count done =
      blocksNeeded inode offset count (done + chunk offset count done) := by
  rw [blocksNeeded, dif_pos more, dif_pos index, if_neg used]

theorem blocksNeeded_stop (stop : ¬ (done < count ∧ blockIndex offset done < 10)) :
    blocksNeeded inode offset count done = 0 := by
  rw [blocksNeeded]
  by_cases more : done < count
  · rw [dif_pos more, dif_neg fun index => stop ⟨more, index⟩]
  · rw [dif_neg more]

theorem blocksNeeded_congr {other : Inode}
    (same : ∀ k, inode.directBlocks k = 0#32 ↔ other.directBlocks k = 0#32) :
    blocksNeeded inode offset count done = blocksNeeded other offset count done := by
  induction inode, done using blocksNeeded.induct offset count generalizing other with
  | case1 inode done more index vacant ih =>
      rw [blocksNeeded_vacant more index vacant, blocksNeeded_vacant more index ((same _).mp vacant)]
      refine congrArg (· + 1) (ih fun k => ?_)
      by_cases place : k = ⟨blockIndex offset done, index⟩
      · subst place
        rw [Inode.setDirect_same, Inode.setDirect_same]
      · rw [Inode.setDirect_other _ _ place, Inode.setDirect_other _ _ place]
        exact same k
  | case2 inode done more index used ih =>
      rw [blocksNeeded_used more index used, blocksNeeded_used more index (mt (same _).mpr used)]
      exact ih same
  | case3 inode done more beyond =>
      rw [blocksNeeded_stop fun go => beyond go.2, blocksNeeded_stop fun go => beyond go.2]
  | case4 inode done finished =>
      rw [blocksNeeded_stop fun go => finished go.1, blocksNeeded_stop fun go => finished go.1]

end

theorem spare_eq_zero_iff : v.spare = 0 ↔ ∀ i < 1023, v.bbit i = true := by
  rw [Volume.spare, Finset.card_eq_zero, Finset.filter_eq_empty_iff]
  simp

/-- The lowest clear bit is the last one only when there is no other. -/
theorem unusedBlock_last (found : v.unusedBlock = some n) : n = 1023 ↔ v.spare = 0 := by
  obtain ⟨small, clear, below⟩ := Volume.unusedBlock_some found
  rw [spare_eq_zero_iff]
  constructor
  · rintro rfl
    exact below
  · intro full
    by_contra other
    rw [full n (by omega)] at clear
    cases clear

theorem spare_markBlock (clear : v.bbit n = false) (small : n < 1023) :
    (v.apply (.blockBit n true)).spare + 1 = v.spare := by
  have rest : ((Finset.range 1023).filter fun i => (v.apply (.blockBit n true)).bbit i = false) =
      ((Finset.range 1023).filter fun i => v.bbit i = false).erase n := by
    ext i
    rw [Finset.mem_filter, Finset.mem_erase, Finset.mem_filter, Volume.bbit_blockBit (by omega)]
    by_cases same : n = i
    · simp [same]
    · simp [same, Ne.symm same]
  have member : n ∈ (Finset.range 1023).filter fun i => v.bbit i = false := by
    rw [Finset.mem_filter, Finset.mem_range]
    exact ⟨small, clear⟩
  rw [Volume.spare, rest, Finset.card_erase_add_one member, Volume.spare]

theorem bbit_writeFrom {buffer : Bytes} {offset count done : Nat} {i : Nat} (set : v.bbit i = true) :
    (v.applyAll (v.writeFrom id buffer offset count inode done).2.2).bbit i = true := by
  induction v, inode, done using Volume.writeFrom.induct id buffer offset count with
  | case1 v inode done more index full =>
      rw [Volume.writeFrom, dif_pos more, dif_pos index, full]
      exact set
  | case2 v inode done more index n owner us found u ih =>
      rw [Volume.writeFrom, dif_pos more, dif_pos index, found]
      dsimp only
      rw [Volume.applyAll_append]
      refine ih ?_
      rcases Volume.target_cases found with ⟨_, b, free, rfl, rfl, rfl⟩ | ⟨_, rfl, rfl, rfl⟩
      · have small := (Volume.unusedBlock_some free).1
        change (v.apply (.blockBit b true)).bbit i = true
        rw [Volume.bbit_blockBit (by omega), set]
        split
        · rfl
        · rfl
      · exact set
  | case3 v inode done more beyond =>
      rw [Volume.writeFrom, dif_pos more, dif_neg beyond]
      exact set
  | case4 v inode done finished =>
      rw [Volume.writeFrom, dif_neg finished]
      exact set

/-- Which number the vacant entry takes does not matter, as long as it is not zero. -/
theorem blocksNeeded_setDirect {inode : Inode} {offset count done b : Nat} (small : b < 1024)
    (index : blockIndex offset done < 10) :
    blocksNeeded (inode.setDirect ⟨blockIndex offset done, index⟩ 1#32) offset count
      (done + chunk offset count done) =
    blocksNeeded (inode.setDirect ⟨blockIndex offset done, index⟩ (BitVec.ofNat 32 (b + 1))) offset count
      (done + chunk offset count done) := by
  refine blocksNeeded_congr fun k => ?_
  by_cases place : k = ⟨blockIndex offset done, index⟩
  · subst place
    rw [Inode.setDirect_same, Inode.setDirect_same]
    exact iff_of_false (by decide) (ofNat_succ_ne_zero small)
  · rw [Inode.setDirect_other _ _ place, Inode.setDirect_other _ _ place]

/-- The write loop takes the last block exactly when the others do not suffice. -/
theorem writeFrom_last (id : BitVec 32) (inode : Inode) (buffer : Bytes) (offset count done : Nat)
    (clear : v.bbit 1023 = false) :
    (v.applyAll (v.writeFrom id buffer offset count inode done).2.2).bbit 1023 = false ↔
      blocksNeeded inode offset count done ≤ v.spare := by
  induction v, inode, done using Volume.writeFrom.induct id buffer offset count with
  | case1 v inode done more index full =>
      exact absurd (Volume.target_none.mp full).2 (Volume.unusedBlock_of_clear (by decide) clear)
  | case2 v inode done more index n owner us found u ih =>
      rw [Volume.writeFrom, dif_pos more, dif_pos index, found]
      dsimp only
      rw [Volume.applyAll_append, Volume.applyAll_cons]
      rcases Volume.target_cases found with ⟨vacant, b, free, rfl, rfl, rfl⟩ | ⟨used, rfl, rfl, rfl⟩
      · rw [blocksNeeded_vacant more index vacant]
        have small := (Volume.unusedBlock_some free).1
        have clearB := (Volume.unusedBlock_some free).2.1
        have last := unusedBlock_last free
        by_cases atEnd : b = 1023
        · -- block 1024 is handed out here and stays marked
          have none_ := last.mp atEnd
          refine iff_of_false ?_ (by omega)
          have set : (v.apply (.blockBit b true)).bbit 1023 = true := by
            rw [Volume.bbit_blockBit (by omega), if_pos atEnd]
          rw [bbit_writeFrom (by exact set)]
          exact Bool.false_ne_true.symm
        · have spare := spare_markBlock clearB (by omega)
          have same := @blocksNeeded_setDirect inode offset count done b small index
          refine (ih ?_).trans ?_
          · change (v.apply (.blockBit b true)).bbit 1023 = false
            rw [Volume.bbit_blockBit (by omega), if_neg atEnd, clear]
          · change _ ≤ (v.apply (.blockBit b true)).spare ↔ _
            rw [same]
            omega
      · rw [blocksNeeded_used more index used]
        exact ih clear
  | case3 v inode done more beyond =>
      rw [Volume.writeFrom, dif_pos more, dif_neg beyond, blocksNeeded_stop fun go => beyond go.2]
      exact iff_of_true clear (Nat.zero_le _)
  | case4 v inode done finished =>
      rw [Volume.writeFrom, dif_neg finished, blocksNeeded_stop fun go => finished go.1]
      exact iff_of_true clear (Nat.zero_le _)

/-- In a consistent volume the last block is in use exactly when an inode has it. -/
theorem last_clear_iff {live : Set (BitVec 32)} (c : Consistent ⟨live, ∅, ∅⟩ v) :
    v.bbit 1023 = false ↔
      ∀ id ∈ live, ∀ k, (v.inode id).directBlocks k ≠ 0#32 → ((v.inode id).directBlocks k).toNat < 1024 := by
  constructor
  · intro clear id member k used
    have range := (c.range id member k used).2
    by_contra last
    have number : ((v.inode id).directBlocks k).toNat - 1 = 1023 := by omega
    have set := c.taken id member k used
    rw [number, clear] at set
    cases set
  · intro below
    by_contra set
    have owned := c.blocks 1024#32 (by decide) (by decide) (by simpa using set)
    obtain ⟨id, member, k, eq⟩ := owned.resolve_left (Set.notMem_empty _)
    have used : (v.inode id).directBlocks k ≠ 0#32 := by
      rw [eq]
      decide
    have := below id member k used
    rw [eq] at this
    exact absurd this (by decide)

theorem issueAll_onDevice (onDevice : ∀ u ∈ us, u.OnDevice) :
    ∀ e ∈ v.issueAll us, e.1.toNat < 1024 := by
  induction us generalizing v with
  | nil => exact List.forall_mem_nil _
  | cons u rest ih =>
      obtain ⟨first, later⟩ := List.forall_mem_cons.mp onDevice
      refine List.forall_mem_cons.mpr ⟨?_, ih later⟩
      cases u with
      | inodeBit i set => exact (by decide : (1#32 : BitVec 32).toNat < 1024)
      | blockBit i set => exact (by decide : (2#32 : BitVec 32).toNat < 1024)
      | inode id r => exact Nat.lt_of_le_of_lt (tableBlock_range first).2 (by decide)
      | block n b => exact first

/-! What the calls do to the last bit, and where they write. -/

/-- An insertion needs a new block: those before the first empty place are full. -/
def NeedsBlock (v : Volume) (dir : Inode) : Prop :=
  ∃ k, dir.directBlocks k = 0#32 ∧ ∀ k' < k, Occupied v dir k'

theorem insert_fresh (d : BitVec 32) (entry : Bytes) {dir : Inode} (needs : NeedsBlock v dir)
    (free : v.unusedBlock = some n) :
    ∃ k, (∀ k' < k, Occupied v dir k') ∧ v.insert d entry dir indices =
      [.blockBit n true, .block (BitVec.ofNat 32 (n + 1)) (putEntry Block.zero 0 entry),
        .inode d (Volume.grow (dir.setDirect k (BitVec.ofNat 32 (n + 1))))] := by
  obtain ⟨k, vacant, full⟩ := needs
  obtain ⟨rest, start⟩ := insert_at d entry full
  refine ⟨k, full, ?_⟩
  rw [start, Volume.insert, if_pos vacant, free]

theorem insert_stays (d : BitVec 32) (entry : Bytes) {dir : Inode} (needs : ¬ NeedsBlock v dir) :
    v.insert d entry dir indices = [] ∨ ∃ k b r, dir.directBlocks k ≠ 0#32 ∧
      r.directBlocks = dir.directBlocks ∧ r.type = dir.type ∧
      v.insert d entry dir indices = [.block (dir.directBlocks k) b, .inode d r] := by
  by_cases spare : ∃ k, ¬ Occupied v dir k
  · obtain ⟨k, free, full⟩ := first_spare spare
    obtain ⟨rest, start⟩ := insert_at d entry full
    have used : dir.directBlocks k ≠ 0#32 := fun vacant => needs ⟨k, vacant, full⟩
    rw [start, Volume.insert, if_neg used]
    cases slot : freeEntry (v.disk (dir.directBlocks k)) with
    | none => exact absurd ⟨used, slot⟩ free
    | some j => exact .inr ⟨k, _, Volume.grow dir, used, rfl, rfl, rfl⟩
  · push Not at spare
    have past := insert_past d entry [] fun k (_ : k ∈ indices) => spare k
    rw [List.append_nil] at past
    exact .inl past

theorem bbit_store {b : Block} {m : BlockNum} {r : Inode} {i : Nat} :
    (v.applyAll [.block m b, .inode d r]).bbit i = v.bbit i := rfl

theorem bbit_release {target : Inode} {is : List (Fin 10)} {i : Nat} (clear : v.bbit i = false) :
    (v.applyAll (Volume.release target is)).bbit i = false := by
  induction is generalizing v with
  | nil => exact clear
  | cons k rest ih =>
      rw [Volume.release]
      split
      · exact ih clear
      · rename_i inside
        have high : (target.directBlocks k).toNat ≤ 1024 :=
          Nat.not_lt.mp fun large => (not_or.mp inside).2 (BitVec.lt_def.mpr large)
        have nonzero : (target.directBlocks k).toNat ≠ 0 :=
          fun zero => (not_or.mp inside).1 (BitVec.eq_of_toNat_eq zero)
        have number : (target.directBlocks k - 1#32).toNat < 32768 := by
          rw [BitVec.toNat_sub]
          change (2 ^ 32 - 1 + (target.directBlocks k).toNat) % 2 ^ 32 < 32768
          omega
        refine ih ?_
        rw [Volume.bbit_blockBit number, clear]
        split
        · rfl
        · rfl

theorem writeFrom_onDevice {buffer : Bytes} {offset count done : Nat} (valid : ValidId id)
    (inside : ∀ k, inode.directBlocks k ≠ 0#32 → (inode.directBlocks k).toNat < 1024)
    (clear : (v.applyAll (v.writeFrom id buffer offset count inode done).2.2).bbit 1023 = false) :
    ∀ u ∈ (v.writeFrom id buffer offset count inode done).2.2, u.OnDevice := by
  induction v, inode, done using Volume.writeFrom.induct id buffer offset count with
  | case1 v inode done more index full =>
      rw [Volume.writeFrom, dif_pos more, dif_pos index, full]
      exact List.forall_mem_nil _
  | case2 v inode done more index n owner us found u ih =>
      rw [Volume.writeFrom, dif_pos more, dif_pos index, found] at clear ⊢
      dsimp only at clear ⊢
      rw [Volume.applyAll_append, Volume.applyAll_cons] at clear
      have targeted : (∀ x ∈ us, x.OnDevice) ∧ n.toNat < 1024 ∧
          ∀ k, owner.directBlocks k ≠ 0#32 → (owner.directBlocks k).toNat < 1024 := by
        rcases Volume.target_cases found with ⟨_, b, free, rfl, rfl, rfl⟩ | ⟨used, rfl, rfl, rfl⟩
        · have small := (Volume.unusedBlock_some free).1
          have last : b ≠ 1023 := by
            rintro rfl
            have set : (v.apply (.blockBit 1023 true)).bbit 1023 = true := by
              rw [Volume.bbit_blockBit (by omega), if_pos rfl]
            rw [bbit_writeFrom (by exact set)] at clear
            cases clear
          have number : (BitVec.ofNat 32 (b + 1)).toNat = b + 1 := ofNat_succ_toNat (by omega)
          refine ⟨List.forall_mem_cons.mpr ⟨trivial, List.forall_mem_singleton.mpr valid⟩,
            by omega, fun k used => ?_⟩
          by_cases place : k = ⟨blockIndex offset done, index⟩
          · subst place
            rw [Inode.setDirect_same]
            omega
          · rw [Inode.setDirect_other _ _ place] at used ⊢
            exact inside k used
        · exact ⟨List.forall_mem_nil _, inside _ used, inside⟩
      exact List.forall_mem_append.mpr ⟨targeted.1,
        List.forall_mem_cons.mpr ⟨targeted.2.1, ih targeted.2.2 clear⟩⟩
  | case3 v inode done more beyond =>
      rw [Volume.writeFrom, dif_pos more, dif_neg beyond]
      exact List.forall_mem_nil _
  | case4 v inode done finished =>
      rw [Volume.writeFrom, dif_neg finished]
      exact List.forall_mem_nil _

/-- A call leaves the last block alone exactly when the others suffice, and then writes on the device. -/
structure LeavesLast (v : Volume) (us : List Update) (fits : Prop) : Prop where
  clear_iff : (v.applyAll us).bbit 1023 = false ↔ fits
  onDevice : fits → ∀ u ∈ us, u.OnDevice

theorem leavesLast_nil {fits : Prop} (clear : v.bbit 1023 = false) (holds : fits) :
    LeavesLast v [] fits :=
  ⟨iff_of_true clear holds, fun _ _ member => nomatch member⟩

theorem leavesLast_create {live : Set (BitVec 32)} (c : Consistent ⟨live, ∅, ∅⟩ v) (member : d ∈ live)
    (clear : v.bbit 1023 = false) (type : BitVec 16) (padding : Bytes) :
    LeavesLast v (v.create d name type padding).2
      (strlen name ≤ fsMaxFilenameLen ∧ isDir (v.inode d) ∧ v.lookup d name = 0#32 ∧
        v.unusedInode ≠ none → NeedsBlock v (v.inode d) → 0 < v.spare) := by
  have valid := c.valid d member
  rcases create_cases valid name type padding with
    ⟨refused, nothing⟩ | ⟨i, ⟨short, dir, unbound, found⟩, _, done⟩
  · rw [nothing]
    exact leavesLast_nil clear fun accepted => absurd accepted refused
  have small := (Volume.unusedInode_some found).1
  rw [done]
  have accepted : strlen name ≤ fsMaxFilenameLen ∧ isDir (v.inode d) ∧ v.lookup d name = 0#32 ∧
      v.unusedInode ≠ none := ⟨short, dir, unbound, Option.ne_none_iff_exists'.mpr ⟨i, found⟩⟩
  have claimed : ∀ u ∈ Volume.claim i type, u.OnDevice :=
    List.forall_mem_cons.mpr ⟨trivial, List.forall_mem_singleton.mpr (ofNat_valid small)⟩
  obtain ⟨_, _, _, bits, _⟩ := claim_reads (v := v) small type
  set v2 := v.applyAll (Volume.claim i type)
  have needs_iff : NeedsBlock v2 (v.inode d) ↔ NeedsBlock v (v.inode d) := by
    exact exists_congr fun k => and_congr_right fun _ => forall₂_congr fun k' _ =>
      occupied_claim c member small type
  by_cases needs : NeedsBlock v (v.inode d)
  · cases unused : v.unusedBlock with
    | none =>
        exact absurd unused (Volume.unusedBlock_of_clear (by decide) clear)
    | some n =>
        have unused2 : v2.unusedBlock = some n := unused
        have last := unusedBlock_last unused
        have high := (Volume.unusedBlock_some unused).1
        have number : (BitVec.ofNat 32 (n + 1)).toNat = n + 1 := ofNat_succ_toNat (by omega)
        obtain ⟨k, _, updates⟩ := insert_fresh d (newEntry (BitVec.ofNat 32 (i + 1)) name padding)
          (needs_iff.mpr needs) unused2
        rw [updates]
        refine ⟨?_, fun fits => List.forall_mem_append.mpr ⟨claimed, ?_⟩⟩
        · have bit : (v.applyAll (Volume.claim i type ++ [.blockBit n true,
              .block (BitVec.ofNat 32 (n + 1)) (putEntry Block.zero 0
                (newEntry (BitVec.ofNat 32 (i + 1)) name padding)),
              .inode d (Volume.grow ((v.inode d).setDirect k (BitVec.ofNat 32 (n + 1))))])).bbit 1023 =
              if n = 1023 then true else false := by
            rw [Volume.applyAll_append]
            change (v2.apply (.blockBit n true)).bbit 1023 = _
            rw [Volume.bbit_blockBit (by omega), bits, clear]
          rw [bit]
          by_cases atEnd : n = 1023
          · rw [if_pos atEnd]
            refine iff_of_false (fun eq => nomatch eq) fun fits => ?_
            have := fits accepted needs
            have := last.mp atEnd
            omega
          · rw [if_neg atEnd]
            exact iff_of_true rfl fun _ _ => Nat.pos_of_ne_zero (mt last.mpr atEnd)
        · have spare := fits accepted needs
          have notEnd : n ≠ 1023 := fun atEnd => by
            have := last.mp atEnd
            omega
          refine List.forall_mem_cons.mpr ⟨trivial, List.forall_mem_cons.mpr ⟨?_,
            List.forall_mem_singleton.mpr valid⟩⟩
          rw [Update.OnDevice, number]
          omega
  · rcases insert_stays d (newEntry (BitVec.ofNat 32 (i + 1)) name padding)
      (mt needs_iff.mp needs) with none_ | ⟨k, b, r, used, _, _, updates⟩
    · rw [none_, List.append_nil]
      exact ⟨iff_of_true ((bits 1023).trans clear) fun _ h => absurd h needs, fun _ => claimed⟩
    · rw [updates]
      have inside := (last_clear_iff c).mp clear d member k used
      refine ⟨iff_of_true ?_ fun _ h => absurd h needs, fun _ => List.forall_mem_append.mpr ⟨claimed,
        List.forall_mem_cons.mpr ⟨inside, List.forall_mem_singleton.mpr valid⟩⟩⟩
      rw [Volume.applyAll_append, bbit_store, bits, clear]

theorem leavesLast_delete {live : Set (BitVec 32)} (c : Consistent ⟨live, ∅, ∅⟩ v) (member : d ∈ live)
    (clear : v.bbit 1023 = false) (name : CString) : LeavesLast v (v.delete d name).2 True := by
  by_cases long : fsMaxFilenameLen < strlen name
  · rw [Volume.delete, if_pos long]
    exact leavesLast_nil clear trivial
  by_cases dir : isDir (v.inode d)
  · cases found : v.find (v.inode d) name indices with
    | none =>
        rw [delete_missing fun _ => found]
        exact leavesLast_nil clear trivial
    | some place =>
        obtain ⟨k, j⟩ := place
        rw [delete_found c member long dir found]
        have used := (find_some found).2.1
        have inside := (last_clear_iff c).mp clear d member k used
        refine ⟨iff_of_true ?_ trivial, fun _ => List.forall_mem_append.mpr ⟨?_, ?_⟩⟩
        · dsimp only
          rw [removal, Volume.applyAll_append, Volume.applyAll_append, Volume.applyAll_cons,
            Volume.applyAll_nil, Volume.bbit_inodeBit]
          refine bbit_release ?_
          rw [Volume.unlink, bbit_store, clear]
        · rw [Volume.unlink]
          exact List.forall_mem_cons.mpr ⟨inside, List.forall_mem_singleton.mpr (c.valid d member)⟩
        · refine List.forall_mem_append.mpr ⟨fun u mem => ?_, List.forall_mem_singleton.mpr trivial⟩
          obtain ⟨i, set, rfl | rfl⟩ := release_bits _ _ u mem
          · trivial
          · trivial
  · rw [delete_missing fun isDirectory => absurd isDirectory dir]
    exact leavesLast_nil clear trivial

theorem leavesLast_write {live : Set (BitVec 32)} (c : Consistent ⟨live, ∅, ∅⟩ v) (member : id ∈ live)
    (clear : v.bbit 1023 = false) (offset : BitVec 64) (buffer : Bytes) (count : BitVec 64) :
    LeavesLast v (v.write id offset buffer count).2 (isFile (v.inode id) →
      blocksNeeded (v.inode id) offset.toNat count.toNat 0 ≤ v.spare) := by
  have valid := c.valid id member
  by_cases file : isFile (v.inode id)
  · rw [Volume.write, Volume.openAs_some valid file]
    dsimp only
    have last := writeFrom_last id (v.inode id) buffer offset.toNat count.toNat 0 clear
    have bits : (v.applyAll ((v.writeFrom id buffer offset.toNat count.toNat (v.inode id) 0).2.2 ++
        Volume.extend id (v.writeFrom id buffer offset.toNat count.toNat (v.inode id) 0).1
          (offset + BitVec.ofNat 64
            (v.writeFrom id buffer offset.toNat count.toNat (v.inode id) 0).2.1))).bbit 1023 =
        (v.applyAll (v.writeFrom id buffer offset.toNat count.toNat (v.inode id) 0).2.2).bbit 1023 := by
      rw [Volume.applyAll_append, Volume.extend]
      split
      · rfl
      · rfl
    refine ⟨?_, fun fits => List.forall_mem_append.mpr ⟨?_, ?_⟩⟩
    · rw [bits, last]
      exact ⟨fun h _ => h, fun h => h file⟩
    · exact writeFrom_onDevice valid ((last_clear_iff c).mp clear id member) (last.mpr (fits file))
    · rw [Volume.extend]
      split
      · exact List.forall_mem_singleton.mpr valid
      · exact List.forall_mem_nil _
  · rw [Volume.write, Volume.openAs_none file]
    exact leavesLast_nil clear fun h => absurd h file

end

/-- How many of the block numbers below the last one are not marked. -/
noncomputable def spareBlocks (w : World) : Nat :=
  {n | 1 ≤ n ∧ n < w.currentSuperblock.totalBlocks.toNat ∧ ¬ BlockMarked w n}.ncard

/-- An entry for the directory goes into a new block. -/
def EntryNeedsBlock (w : World) (d : BitVec 32) : Prop :=
  ∃ k, (storedInode w d).directBlocks k = 0#32 ∧ ∀ k' < k, (storedInode w d).directBlocks k' ≠ 0#32 ∧
    freeEntry (w.disk ((storedInode w d).directBlocks k')) = none

/-- The blocks the call takes can be had without the last one. -/
def CallFits (w : World) : Call → Prop
  | .create d name _ _ => CreateAccepted w d name → EntryNeedsBlock w d → 0 < spareBlocks w
  | .write id offset _ count => isFile (storedInode w id) →
      blocksNeeded (storedInode w id) offset.toNat count.toNat 0 ≤ spareBlocks w
  | _ => True

/-- No block number outside the device is in use or has been written to since `start`. -/
structure OnVolume (start w : World) : Prop where
  direct : ∀ id, InodeInUse w id → ∀ k, (storedInode w id).directBlocks k ≠ 0#32 →
    w.currentSuperblock.dataStartBlock.toNat ≤ ((storedInode w id).directBlocks k).toNat ∧
      ((storedInode w id).directBlocks k).toNat < w.currentSuperblock.totalBlocks.toNat
  -- numbers from `total_blocks` on are not on the device; `allocate_block` can return the first
  marked : ¬ BlockMarked w w.currentSuperblock.totalBlocks.toNat
  written : ∃ later, w.issued = start.issued ++ later ∧
    ∀ e ∈ later, e.1.toNat < w.currentSuperblock.totalBlocks.toNat

section
variable {v : Volume} {l : List Ptr} {w start : World} {live : Set (BitVec 32)} {d id : BitVec 32}

theorem Shows.spareBlocks (shows_ : Shows v l w) : spareBlocks w = v.spare := by
  have same : {n | 1 ≤ n ∧ n < w.currentSuperblock.totalBlocks.toNat ∧ ¬ BlockMarked w n} =
      Nat.succ '' ↑((Finset.range 1023).filter fun i => v.bbit i = false) := by
    ext n
    rw [Set.mem_ofPred_eq, Set.mem_image, shows_.layout.totalBlocks]
    constructor
    · rintro ⟨low, high, free⟩
      have high : n < 1024 := high
      rw [shows_.blockMarked_iff (by omega)] at free
      refine ⟨n - 1, ?_, by omega⟩
      rw [Finset.mem_coe, Finset.mem_filter, Finset.mem_range]
      exact ⟨by omega, by simpa using free⟩
    · rintro ⟨i, member, rfl⟩
      rw [Finset.mem_coe, Finset.mem_filter, Finset.mem_range] at member
      refine ⟨Nat.succ_pos i, (by have := member.1; change i + 1 < 1024; omega), ?_⟩
      rw [shows_.blockMarked_iff (by omega), Nat.succ_sub_one, member.2]
      exact Bool.false_ne_true
  rw [AstralOS.Fs.spareBlocks, same, Set.ncard_image_of_injective _ Nat.succ_injective,
    Set.ncard_coe_finset, Volume.spare]

theorem Shows.onVolume_iff (shows_ : Shows v l w) (c : Consistent ⟨live, ∅, ∅⟩ v) :
    OnVolume start w ↔ v.bbit 1023 = false ∧
      ∃ later, w.issued = start.issued ++ later ∧ ∀ e ∈ later, e.1.toNat < 1024 := by
  have last : ¬ BlockMarked w w.currentSuperblock.totalBlocks.toNat ↔ v.bbit 1023 = false := by
    rw [shows_.layout.totalBlocks]
    change ¬ BlockMarked w 1024 ↔ _
    rw [shows_.blockMarked_iff le_rfl, Bool.not_eq_true]
  constructor
  · rintro ⟨_, marked, later, issued, onDevice⟩
    rw [shows_.layout.totalBlocks] at onDevice
    exact ⟨last.mp marked, later, issued, onDevice⟩
  · rintro ⟨clear, later, issued, onDevice⟩
    refine ⟨fun id inUse k used => ?_, last.mpr clear, later, issued, ?_⟩
    · have member := (c.inUse_iff shows_).mp inUse
      rw [shows_.storedInode] at used ⊢
      rw [shows_.layout.totalBlocks, shows_.layout.dataStartBlock]
      have low := (c.range id member k used).1
      exact ⟨Nat.le_trans (by decide) low, (last_clear_iff c).mp clear id member k used⟩
    · rw [shows_.layout.totalBlocks]
      exact onDevice

theorem Shows.entryNeedsBlock_iff (shows_ : Shows v l w) :
    EntryNeedsBlock w d ↔ NeedsBlock v (v.inode d) := by
  rw [EntryNeedsBlock, shows_.storedInode, shows_.disk]
  exact Iff.rfl

theorem leavesLast_call (shows_ : Shows v l w) (c : Consistent ⟨live, ∅, ∅⟩ v)
    (clear : v.bbit 1023 = false) {call : Call} (member : call.inode ∈ live) :
    LeavesLast v (v.perform call).2 (CallFits w call) := by
  cases call with
  | create d name type padding =>
      rw [CallFits, shows_.createAccepted_iff c, shows_.entryNeedsBlock_iff, shows_.spareBlocks]
      exact leavesLast_create c member clear type padding
  | delete d name => exact leavesLast_delete c member clear name
  | lookup d name => exact leavesLast_nil clear trivial
  | read id offset count => exact leavesLast_nil clear trivial
  | write id offset buffer count =>
      rw [CallFits, shows_.storedInode, shows_.spareBlocks]
      exact leavesLast_write c member clear offset buffer count

/-- One call. -/
theorem onVolume_step_iff (settled : Settled w) (onVolume : OnVolume start w) {call : Call}
    (inUse : CallInUse w call) : OnVolume start (step w call) ↔ CallFits w call := by
  obtain ⟨v, l, live, shows_, c⟩ := settled
  have member := (c.inUse_iff shows_).mp inUse.1
  obtain ⟨live', track⟩ := track_perform c call member inUse.2
  obtain ⟨clear, later, issued, onDevice⟩ := (shows_.onVolume_iff c).mp onVolume
  have leaves := leavesLast_call shows_ c clear member
  rw [(shows_.step call).onVolume_iff track.final, ← leaves.clear_iff]
  refine ⟨And.left, fun kept => ⟨kept, later ++ v.issueAll (v.perform call).2, ?_, ?_⟩⟩
  · rw [shows_.issued, issued, List.append_assoc]
  · exact List.forall_mem_append.mpr
      ⟨onDevice, issueAll_onDevice (leaves.onDevice (leaves.clear_iff.mp kept))⟩

theorem onVolume_format {buffer : Block} (formattable : Formattable w buffer)
    (inodeJunk blockJunk : Bytes) :
    OnVolume (fsInit inodeJunk blockJunk w).2 (fsInit inodeJunk blockJunk w).2 := by
  obtain ⟨v, l, shows_, fresh, _⟩ := fsInit_formats formattable inodeJunk blockJunk
  refine (shows_.onVolume_iff fresh.consistent).mpr ⟨fresh.blocks 1023 (by decide), [], ?_, ?_⟩
  · rw [List.append_nil]
  · exact List.forall_mem_nil _

end

/-- Every block number stays on the device in every state of a run exactly when no call has
to take the last block of the bitmap. -/
theorem blocks_on_volume_iff {w : World} {buffer : Block} (formattable : Formattable w buffer)
    (inodeJunk blockJunk : Bytes) (calls : List Call)
    (admitted : Admitted step CallInUse (fsInit inodeJunk blockJunk w).2 calls) :
    Always step (OnVolume (fsInit inodeJunk blockJunk w).2) (fsInit inodeJunk blockJunk w).2 calls ↔
      Admitted step CallFits (fsInit inodeJunk blockJunk w).2 calls :=
  always_iff_admitted_of settled_step
    (fun _ _ settled onVolume inUse => onVolume_step_iff settled onVolume inUse)
    (settled_format formattable inodeJunk blockJunk)
    (onVolume_format formattable inodeJunk blockJunk) admitted

theorem blocks_on_volume_iff_brief_file :
    Always step (OnVolume (fsInit (fun _ => 0) (fun _ => 0) blankWorld).2)
        (fsInit (fun _ => 0) (fun _ => 0) blankWorld).2 briefFile ↔
      Admitted step CallFits (fsInit (fun _ => 0) (fun _ => 0) blankWorld).2 briefFile :=
  blocks_on_volume_iff blankWorld_formattable (fun _ => 0) (fun _ => 0) briefFile briefFile_inUse

/-! 102 files of ten blocks each do not fit in blocks 8 to 1023. -/

def fileName (i : Nat) : CString where
  chars := [BitVec.ofNat 8 (i % 255 + 1)]
  nonzero := by
    intro c member
    obtain rfl := List.mem_singleton.mp member
    exact fun zero => absurd (congrArg BitVec.toNat zero) (by rw [BitVec.toNat_ofNat]; simp; omega)

def makeFile (i : Nat) : Call := .create 1#32 (fileName i) fsInodeTypeFile fun _ => 0#8
def fillFile (i : Nat) : Call := .write (BitVec.ofNat 32 (i + 2)) 0#64 (fun _ => 0#8) 40960#64

/-- Makes `n` files and writes all of each. -/
def fillCalls : Nat → List Call
  | 0 => []
  | i + 1 => fillCalls i ++ [makeFile i, fillFile i]

/-- A volume with `i` files in the root, the first `m` of them full. -/
structure Filled (v : Volume) (i m : Nat) : Prop where
  consistent : Consistent ⟨{id | 1 ≤ id.toNat ∧ id.toNat ≤ i + 1}, ∅, ∅⟩ v
  root : isDir (v.inode 1#32)
  names : ∀ name ∈ (v.slots 1#32).keys, ∃ j < i, name = fileName j
  full : ∀ id : BitVec 32, 2 ≤ id.toNat → id.toNat ≤ m + 1 → ∀ k, (v.inode id).directBlocks k ≠ 0#32

section
variable {v : Volume} {i : Nat}

theorem fileName_injective {j : Nat} (below : i < 255) (below' : j < 255)
    (same : fileName i = fileName j) : i = j := by
  have bytes := (List.cons.inj (congrArg CString.chars same)).1
  have numbers := congrArg BitVec.toNat bytes
  rw [BitVec.toNat_ofNat, BitVec.toNat_ofNat] at numbers
  omega

theorem Filled.unusedInode {m : Nat} (filled : Filled v i m) (below : i < 127) :
    v.unusedInode = some (i + 1) := by
  have set_iff : ∀ j < 128, v.ibit j = true ↔ j ≤ i := by
    intro j small
    have number : (BitVec.ofNat 32 (j + 1)).toNat = j + 1 := ofNat_succ_toNat (by omega)
    constructor
    · intro set
      have member := (filled.consistent.inodes (BitVec.ofNat 32 (j + 1)) (ofNat_valid small)
        (by rw [number]; exact set)).resolve_left (Set.notMem_empty _)
      have := member.2
      omega
    · intro low
      have := filled.consistent.marked (BitVec.ofNat 32 (j + 1)) ⟨by omega, by omega⟩
      rwa [number] at this
  refine firstClear_eq_some.mpr ⟨by omega, ?_, fun j low => (set_iff j (by omega)).mpr (by omega)⟩
  refine Bool.not_eq_true _ ▸ fun set => ?_
  have := (set_iff (i + 1) (by omega)).mp set
  omega

theorem Filled.make (filled : Filled v i i) (below : i < 102) (free : v.unusedBlock ≠ none) :
    Filled (v.step (makeFile i)) (i + 1) i ∧
      isFile ((v.step (makeFile i)).inode (BitVec.ofNat 32 (i + 2))) := by
  have member : (1#32 : BitVec 32) ∈ {id : BitVec 32 | 1 ≤ id.toNat ∧ id.toNat ≤ i + 1} :=
    filled.consistent.root
  have short : strlen (fileName i) ≤ fsMaxFilenameLen := by
    change 1 ≤ _
    decide
  have unbound : v.lookup 1#32 (fileName i) = 0#32 := by
    refine lookup_unbound short fun bound => ?_
    obtain ⟨j, low, same⟩ := filled.names _ bound
    have := fileName_injective (by omega) (by omega) same
    omega
  have found := filled.unusedInode (by omega)
  have done := create_done (filled.consistent.valid _ member) filled.root short unbound found
    fsInodeTypeFile fun _ => 0#8
  have updates : v.step (makeFile i) =
      v.applyAll (v.create 1#32 (fileName i) fsInodeTypeFile fun _ => 0#8).2 := rfl
  obtain ⟨live', track, _, grown⟩ :=
    track_create filled.consistent member (fileName i) (.inl rfl) fun _ => 0#8
  obtain ⟨record, s, empty, edited⟩ :=
    edited_create filled.consistent member filled.root short found (.inl rfl) (fun _ => 0#8)
      fun _ _ _ => free
  have number : (BitVec.ofNat 32 (i + 2)).toNat = i + 2 := ofNat_succ_toNat (i := i + 1) (by omega)
  rw [updates]
  rw [done] at track grown ⊢
  have live_eq : live' = {id : BitVec 32 | 1 ≤ id.toNat ∧ id.toNat ≤ i + 1 + 1} := by
    rw [grown (ofNat_succ_ne_zero (by omega))]
    ext id
    have same : id = BitVec.ofNat 32 (i + 1 + 1) ↔ id.toNat = i + 2 :=
      ⟨fun eq => (congrArg BitVec.toNat eq).trans number,
        fun eq => BitVec.eq_of_toNat_eq (eq.trans number.symm)⟩
    change id = _ ∨ 1 ≤ id.toNat ∧ id.toNat ≤ i + 1 ↔ 1 ≤ id.toNat ∧ id.toNat ≤ i + 1 + 1
    rw [same]
    omega
  subst live_eq
  refine ⟨⟨track.final, (isDir_congr edited.type).mpr filled.root, fun name bound => ?_,
    fun id low high => ?_⟩, ?_⟩
  · rw [edited.slots, SlotTable.keys_fill empty] at bound
    rcases bound with rfl | before
    · exact ⟨i, Nat.lt_succ_self i, rfl⟩
    · obtain ⟨j, low, same⟩ := filled.names _ before
      exact ⟨j, by omega, same⟩
  · have other : id ≠ 1#32 := by
      rintro rfl
      exact absurd low (by decide)
    rw [edited.records id ⟨by omega, by omega⟩ other]
    exact filled.full id low high
  · rw [record]
    exact (isFile_of_type rfl).1

/-- The write fills its file if it leaves a block unused, and changes no other. -/
theorem Filled.fill (filled : Filled v (i + 1) i) (below : i < 102)
    (file : isFile (v.inode (BitVec.ofNat 32 (i + 2)))) :
    Filled (v.step (fillFile i)) (i + 1) i ∧
      ((v.step (fillFile i)).unusedBlock ≠ none → Filled (v.step (fillFile i)) (i + 1) (i + 1)) := by
  have number : (BitVec.ofNat 32 (i + 2)).toNat = i + 2 := ofNat_succ_toNat (i := i + 1) (by omega)
  have member : BitVec.ofNat 32 (i + 2) ∈ {id : BitVec 32 | 1 ≤ id.toNat ∧ id.toNat ≤ i + 1 + 1} :=
    ⟨by omega, by omega⟩
  have track := track_write filled.consistent member 0#64 (fun _ => 0#8) 40960#64
  have fits : (0#64 : BitVec 64).toNat + (40960#64 : BitVec 64).toNat ≤ maxFileSize := by decide
  obtain ⟨n, _, _, stopped, inode', record, _, _, wrote⟩ :=
    wrote_write filled.consistent member file fits fun _ => 0#8
  have kept := write_keeps filled.consistent member 0#64 (fun _ => 0#8) 40960#64 1#32
    filled.consistent.root
  have same := (kept.2 filled.root).1
  have others : ∀ id : BitVec 32, 2 ≤ id.toNat → id.toNat ≤ i + 1 → ∀ k,
      ((v.step (fillFile i)).inode id).directBlocks k ≠ 0#32 := by
    intro id low high k
    have other : id ≠ BitVec.ofNat 32 (i + 2) := by
      rintro rfl
      omega
    have record := wrote.others id (filled.consistent.valid id ⟨by omega, by omega⟩) other
    have full := filled.full id low high k
    rw [← record] at full
    exact full
  have names : ∀ name ∈ ((v.step (fillFile i)).slots 1#32).keys, ∃ j < i + 1, name = fileName j := by
    intro name bound
    refine filled.names name ?_
    rw [← same]
    exact bound
  have root := (isDir_congr kept.1).mpr filled.root
  refine ⟨⟨track.final, root, names, others⟩, fun free => ⟨track.final, root, names, fun id low high k => ?_⟩⟩
  have all : n = 40960 := stopped.resolve_right free
  by_cases self : id = BitVec.ofNat 32 (i + 2)
  · obtain ⟨k', quotient, used, _⟩ := wrote.stored (4096 * k) (Nat.zero_le _) (by have := k.isLt; omega)
    change (0 + 4096 * k.val) / 4096 = k'.val at quotient
    obtain rfl : k = k' := Fin.ext (by omega)
    rw [← record] at used
    rw [self]
    exact used
  · have other : id.toNat ≠ i + 2 := fun same => self (BitVec.eq_of_toNat_eq (same.trans number.symm))
    exact others id low (by omega) k

/-- A full file has ten blocks of its own. -/
theorem Filled.blocks_le {m : Nat} (filled : Filled v i m) (within : m ≤ i) (small : i < 128) :
    m * 10 ≤ 1017 := by
  have number : ∀ a : Fin m, (BitVec.ofNat 32 (a + 2)).toNat = a + 2 := fun a =>
    ofNat_succ_toNat (i := a + 1) (by have := a.isLt; omega)
  have member : ∀ a : Fin m, BitVec.ofNat 32 (a + 2) ∈
      {id : BitVec 32 | 1 ≤ id.toNat ∧ id.toNat ≤ i + 1} := fun a =>
    ⟨by rw [number]; omega, by rw [number]; have := a.isLt; omega⟩
  have used : ∀ (a : Fin m) k, (v.inode (BitVec.ofNat 32 (a + 2))).directBlocks k ≠ 0#32 := fun a =>
    filled.full _ (by rw [number]; omega) (by rw [number]; have := a.isLt; omega)
  have range : ∀ (a : Fin m) k, 8 ≤ ((v.inode (BitVec.ofNat 32 (a + 2))).directBlocks k).toNat ∧
      ((v.inode (BitVec.ofNat 32 (a + 2))).directBlocks k).toNat ≤ 1024 := fun a k =>
    filled.consistent.range _ (member a) k (used a k)
  let place : Fin m × Fin 10 → Fin 1017 := fun p =>
    ⟨((v.inode (BitVec.ofNat 32 (p.1 + 2))).directBlocks p.2).toNat - 8, by
      have := range p.1 p.2
      omega⟩
  have injective : Function.Injective place := by
    rintro ⟨a, k⟩ ⟨a', k'⟩ same
    have numbers : ((v.inode (BitVec.ofNat 32 (a + 2))).directBlocks k).toNat - 8 =
        ((v.inode (BitVec.ofNat 32 (a' + 2))).directBlocks k').toNat - 8 := congrArg Fin.val same
    have low := (range a k).1
    have low' := (range a' k').1
    have blocks : (v.inode (BitVec.ofNat 32 (a + 2))).directBlocks k =
        (v.inode (BitVec.ofNat 32 (a' + 2))).directBlocks k' := BitVec.eq_of_toNat_eq (by omega)
    obtain ⟨ids, rfl⟩ := filled.consistent.single _ (member a) _ (member a') k k' (used a k) blocks
    have ids := congrArg BitVec.toNat ids
    rw [number, number] at ids
    obtain rfl : a = a' := Fin.ext (by omega)
    rfl
  have := Fintype.card_le_of_injective place injective
  simpa using this

/-- As long as a block stays unused, the calls make full files. -/
theorem filled_run {w : World} {l : List Ptr} (shows0 : Shows v l w) (empty : Filled v 0 0)
    (free : ∀ calls v i m, i ≤ 102 → Admitted step CallInUse w calls → Shows v l (calls.foldl step w) →
      Filled v i m → v.unusedBlock ≠ none) (n : Nat) (below : n ≤ 102) :
    ∃ calls, calls = fillCalls n ∧ Admitted step CallInUse w calls ∧
      ∃ v, Shows v l (calls.foldl step w) ∧ Filled v n n := by
  induction n with
  | zero => exact ⟨[], rfl, trivial, v, shows0, empty⟩
  | succ i ih =>
      obtain ⟨_, rfl, admitted, v, shows_, filled⟩ := ih (by omega)
      have number : (BitVec.ofNat 32 (i + 2)).toNat = i + 2 := ofNat_succ_toNat (i := i + 1) (by omega)
      have root : CallInUse ((fillCalls i).foldl step w) (makeFile i) :=
        ⟨(filled.consistent.inUse_iff shows_).mpr filled.consistent.root, .inl rfl⟩
      obtain ⟨made, file⟩ := filled.make (by omega) (free _ _ _ _ (by omega) admitted shows_ filled)
      have shows1 := shows_.step (makeFile i)
      have member : BitVec.ofNat 32 (i + 2) ∈ {id : BitVec 32 | 1 ≤ id.toNat ∧ id.toNat ≤ i + 1 + 1} :=
        ⟨by omega, by omega⟩
      have new : CallInUse (step ((fillCalls i).foldl step w) (makeFile i)) (fillFile i) :=
        ⟨(made.consistent.inUse_iff shows1).mpr member, trivial⟩
      have admitted' : Admitted step CallInUse w (fillCalls (i + 1)) :=
        admitted_append.mpr ⟨admitted, root, new, trivial⟩
      have shows2 : Shows ((v.step (makeFile i)).step (fillFile i)) l
          ((fillCalls (i + 1)).foldl step w) := by
        rw [fillCalls, List.foldl_append]
        exact shows1.step (fillFile i)
      obtain ⟨kept, filled2⟩ := made.fill (by omega) file
      exact ⟨_, rfl, admitted', _, shows2, filled2 (free _ _ _ _ below admitted' shows2 kept)⟩

/-- 102 full files are more than the volume holds, so a block is missing somewhere on the way. -/
theorem not_always_free {w : World} {l : List Ptr} (shows0 : Shows v l w) (empty : Filled v 0 0) :
    ¬ ∀ calls v i m, i ≤ 102 → Admitted step CallInUse w calls → Shows v l (calls.foldl step w) →
      Filled v i m → v.unusedBlock ≠ none := by
  intro free
  obtain ⟨_, _, _, v, _, full⟩ := filled_run shows0 empty free 102 le_rfl
  have := full.blocks_le le_rfl (by decide)
  omega

theorem Fresh.filled (fresh : Fresh v) : Filled v 0 0 := by
  refine ⟨?_, ?_, ?_, fun id low high => absurd low (by omega)⟩
  · have one : {id : BitVec 32 | 1 ≤ id.toNat ∧ id.toNat ≤ 0 + 1} = {1#32} := by
      ext id
      refine ⟨fun h => BitVec.eq_of_toNat_eq (le_antisymm h.2 h.1), ?_⟩
      rintro rfl
      exact ⟨le_rfl, le_rfl⟩
    rw [one]
    exact fresh.consistent
  · rw [fresh.root]
    decide
  · rintro name ⟨_, s, held⟩
    rw [Volume.slots, fresh.root, slotTable_empty fun _ => rfl] at held
    cases held

end

/-- The last of 102 full files gets block 1024. -/
theorem full_volume_leaves_device :
    ¬ ∀ calls, Admitted step CallInUse (fsInit (fun _ => 0) (fun _ => 0) blankWorld).2 calls →
      Always step (OnVolume (fsInit (fun _ => 0) (fun _ => 0) blankWorld).2)
        (fsInit (fun _ => 0) (fun _ => 0) blankWorld).2 calls := by
  intro always
  obtain ⟨v0, l, shows0, fresh, _⟩ := fsInit_formats blankWorld_formattable (fun _ => 0) (fun _ => 0)
  set w0 := (fsInit (fun _ => 0) (fun _ => 0) blankWorld).2
  refine not_always_free shows0 fresh.filled fun calls v i m _ admitted shows_ filled none_ => ?_
  have clear := ((shows_.onVolume_iff filled.consistent).mp (always calls admitted).last).1
  exact Volume.unusedBlock_of_clear (by decide) clear none_

end AstralOS.Fs
