import AstralOS.Fs.BlockRange

/-! A creation makes its inode before it looks for a place for the entry, and returns the
inode's number whether it found one or not. -/
namespace AstralOS.Fs
open Foundation AstralOS.Lib

/-- A creation that returns a number has bound the name to it, and one that returns 0 has
changed nothing. -/
structure AllOrNothing (w : World) (d : BitVec 32) (name : CString) (type : BitVec 16)
    (padding : Bytes) : Prop where
  bound : (fsCreate d name type padding w).1 ≠ 0#32 →
    (fsLookup d name (fsCreate d name type padding w).2).1 = (fsCreate d name type padding w).1
  refused : (fsCreate d name type padding w).1 = 0#32 →
    Unchanged w (step w (.create d name type padding))

section
variable {v v' : Volume} {l : List Ptr} {w : World} {live : Set (BitVec 32)} {d id : BitVec 32}
  {name : CString}

theorem unbound_of_lookup (valid : ValidId d) (dir : isDir (v.inode d))
    (short : strlen name ≤ fsMaxFilenameLen) (unbound : v.lookup d name = 0#32) :
    name ∉ (v.slots d).keys := by
  cases found : v.find (v.inode d) name indices with
  | none => exact unbound_of_find short found
  | some place =>
      obtain ⟨k, j⟩ := place
      rw [lookup_of_find (Nat.not_lt.mpr short) (Volume.openAs_some valid dir) found] at unbound
      exact absurd unbound (find_some found).2.2.2.1

/-- The entry that went into a free slot is the one a lookup finds. -/
theorem lookup_filled {s : Slot} (valid : ValidId d) (dir : isDir (v'.inode d))
    (short : strlen name ≤ fsMaxFilenameLen) (new : name ∉ (v.slots d).keys)
    (filled : v'.slots d = Function.update (v.slots d) s (some (name, id))) :
    v'.lookup d name = id := by
  have held : v'.slots d s = some (name, id) := by rw [filled, Function.update_self]
  cases found : v'.find (v'.inode d) name indices with
  | none => exact absurd ⟨id, s, held⟩ (unbound_of_find short found)
  | some place =>
      obtain ⟨k, j⟩ := place
      obtain ⟨inside, other⟩ := slots_of_find short found
      rw [lookup_of_find (Nat.not_lt.mpr short) (Volume.openAs_some valid dir) found]
      by_cases same : (k, (⟨j, inside⟩ : Fin 113)) = s
      · rw [same, held] at other
        exact (congrArg Prod.snd (Option.some.inj other)).symm
      · rw [filled, Function.update_of_ne same] at other
        exact absurd ⟨_, _, other⟩ new

theorem slots_claim (c : Consistent ⟨live, ∅, ∅⟩ v) (member : d ∈ live) {i : Nat}
    (found : v.unusedInode = some i) (type : BitVec 16) :
    (v.applyAll (Volume.claim i type)).inode d = v.inode d ∧
      (v.applyAll (Volume.claim i type)).slots d = v.slots d := by
  obtain ⟨_, others, _, _, disk⟩ := claim_reads (v := v) (Volume.unusedInode_some found).1 type
  have other : d ≠ BitVec.ofNat 32 (i + 1) := by
    rintro rfl
    exact c.fresh_inode found member
  have record := others d (c.valid d member) other
  refine ⟨record, slots_congr record fun k used => disk _ ?_⟩
  have := (c.range d member k used).1
  omega

/-- On a volume: the creation is all or nothing if and only if it finds a block where it
needs one. -/
theorem create_lookup_iff (c : Consistent ⟨live, ∅, ∅⟩ v) (member : d ∈ live)
    (dir : isDir (v.inode d)) (short : strlen name ≤ fsMaxFilenameLen)
    (unbound : v.lookup d name = 0#32) {i : Nat} (found : v.unusedInode = some i) {type : BitVec 16}
    (kind : type = fsInodeTypeFile ∨ type = fsInodeTypeDir) (padding : Bytes) :
    (v.applyAll (v.create d name type padding).2).lookup d name = BitVec.ofNat 32 (i + 1) ↔
      ∀ k, (v.inode d).directBlocks k = 0#32 →
        (∀ k' < k, (v.inode d).directBlocks k' ≠ 0#32 ∧
          freeEntry (v.disk ((v.inode d).directBlocks k')) = none) → v.unusedBlock ≠ none := by
  have valid := c.valid d member
  have new := unbound_of_lookup valid dir short unbound
  have done := create_done valid dir short unbound found type padding
  rw [done]
  constructor
  · intro bound k vacant full none_
    -- nothing is stored, so the lookup still finds nothing
    have small := (Volume.unusedInode_some found).1
    have nothing := insert_without_block (v := v.applyAll (Volume.claim i type)) d
      (newEntry (BitVec.ofNat 32 (i + 1)) name padding) vacant
      (fun k' below => (occupied_claim c member small type).mpr (full k' below)) none_
    obtain ⟨_, slots⟩ := slots_claim c member found type
    rw [nothing, List.append_nil, lookup_unbound short (by rw [slots]; exact new)] at bound
    exact absurd bound.symm (ofNat_succ_ne_zero (by omega))
  · intro room
    obtain ⟨_, s, _, edited⟩ := edited_create c member dir short found kind padding room
    exact lookup_filled valid ((isDir_congr edited.type).mpr dir) short new edited.slots

theorem allOrNothing_iff (settled : Settled w) (inUse : InodeInUse w d) (name : CString)
    {type : BitVec 16} (kind : type = fsInodeTypeFile ∨ type = fsInodeTypeDir) (padding : Bytes) :
    AllOrNothing w d name type padding ↔ (CreateAccepted w d name → RoomFor w d) := by
  obtain ⟨v, l, live, shows_, c⟩ := settled
  have member := (c.inUse_iff shows_).mp inUse
  obtain ⟨result, after, _⟩ := does_fsCreate d name type padding w shows_
  rw [shows_.createAccepted_iff c, shows_.roomFor_iff]
  rcases create_cases (c.valid d member) name type padding with
    ⟨refused, nothing⟩ | ⟨i, ⟨short, dir, unbound, found⟩, number, done⟩
  · refine iff_of_true ⟨fun bound => ?_, fun _ => ?_⟩ fun accepted => absurd accepted refused
    · rw [nothing] at result
      exact absurd result bound
    · refine shows_.unchanged (.create d name type padding) ?_
      exact congrArg Prod.snd nothing
  have free : v.unusedInode ≠ none := Option.ne_none_iff_exists'.mpr ⟨i, found⟩
  have made : (v.create d name type padding).1 = BitVec.ofNat 32 (i + 1) := congrArg Prod.fst done
  have nonzero : (fsCreate d name type padding w).1 ≠ 0#32 := by rwa [result, made]
  have looked := (does_fsLookup d name _ after).1
  have exact_ := create_lookup_iff c member dir short unbound found kind padding
  constructor
  · intro whole _
    refine exact_.mp ?_
    rw [← looked, whole.bound nonzero, result, made]
  · intro room
    refine ⟨fun _ => ?_, fun zero => absurd zero nonzero⟩
    rw [looked, result, made]
    exact exact_.mpr (room ⟨short, dir, unbound, free⟩)

end

/-- In every state that calls on inodes in use can reach, a creation is all or nothing if and
only if it finds a block for its entry when it gets that far and needs one. -/
theorem create_all_or_nothing_iff {w : World} {buffer : Block} (formattable : Formattable w buffer)
    (inodeJunk blockJunk : Bytes) (calls : List Call)
    (admitted : Admitted step CallInUse (fsInit inodeJunk blockJunk w).2 calls) {d : BitVec 32}
    (inUse : InodeInUse (calls.foldl step (fsInit inodeJunk blockJunk w).2) d) (name : CString)
    {type : BitVec 16} (kind : type = fsInodeTypeFile ∨ type = fsInodeTypeDir) (padding : Bytes) :
    AllOrNothing (calls.foldl step (fsInit inodeJunk blockJunk w).2) d name type padding ↔
      (CreateAccepted (calls.foldl step (fsInit inodeJunk blockJunk w).2) d name →
        RoomFor (calls.foldl step (fsInit inodeJunk blockJunk w).2) d) := by
  have settled := invariant_run settled_step (settled_format formattable inodeJunk blockJunk) admitted
  exact allOrNothing_iff settled inUse name kind padding

theorem create_all_or_nothing_iff_blank :
    AllOrNothing (fsInit (fun _ => 0) (fun _ => 0) blankWorld).2 1#32 nameA fsInodeTypeDir (fun _ => 0#8) ↔
      (CreateAccepted (fsInit (fun _ => 0) (fun _ => 0) blankWorld).2 1#32 nameA →
        RoomFor (fsInit (fun _ => 0) (fun _ => 0) blankWorld).2 1#32) :=
  create_all_or_nothing_iff blankWorld_formattable (fun _ => 0) (fun _ => 0) [] trivial
    (root_inUse _ _) nameA (.inr rfl) fun _ => 0#8

/-! A directory that is made on a full volume has no block and gets none. -/

def makeDir : Call := .create 1#32 (fileName 200) fsInodeTypeDir fun _ => 0#8

theorem Filled.makeDir {v : Volume} {i m : Nat} (filled : Filled v i m) (few : i ≤ 102)
    (full : v.unusedBlock = none) :
    Consistent ⟨insert (BitVec.ofNat 32 (i + 2)) {id | 1 ≤ id.toNat ∧ id.toNat ≤ i + 1}, ∅, ∅⟩
        (v.step makeDir) ∧
      (v.step makeDir).inode (BitVec.ofNat 32 (i + 2)) = newInode (BitVec.ofNat 32 (i + 2)) fsInodeTypeDir ∧
      (v.step makeDir).unusedBlock = none := by
  have member : (1#32 : BitVec 32) ∈ {id : BitVec 32 | 1 ≤ id.toNat ∧ id.toNat ≤ i + 1} :=
    filled.consistent.root
  have short : strlen (fileName 200) ≤ fsMaxFilenameLen := by
    change 1 ≤ _
    decide
  have unbound : v.lookup 1#32 (fileName 200) = 0#32 := by
    refine lookup_unbound short fun bound => ?_
    obtain ⟨j, low, same⟩ := filled.names _ bound
    have := fileName_injective (by decide) (by omega) same
    omega
  have found := filled.unusedInode (by omega)
  have done := create_done (filled.consistent.valid _ member) filled.root short unbound found
    fsInodeTypeDir fun _ => 0#8
  have updates : v.step AstralOS.Fs.makeDir =
      v.applyAll (v.create 1#32 (fileName 200) fsInodeTypeDir fun _ => 0#8).2 := rfl
  obtain ⟨live', track, _, grown⟩ :=
    track_create filled.consistent member (fileName 200) (.inr rfl) fun _ => 0#8
  rw [done] at track grown
  obtain rfl := grown (ofNat_succ_ne_zero (by omega))
  rw [updates, done]
  refine ⟨track.final, ?_⟩
  obtain ⟨record, others, _, _, _⟩ := claim_reads (v := v) (i := i + 1) (by omega) fsInodeTypeDir
  have valid : ValidId (BitVec.ofNat 32 (i + 2)) := ofNat_valid (i := i + 1) (by omega)
  have other : (1#32 : BitVec 32) ≠ BitVec.ofNat 32 (i + 2) := by
    intro same
    have := congrArg BitVec.toNat same
    rw [ofNat_succ_toNat (i := i + 1) (by omega)] at this
    have : 1 = i + 1 + 1 := this
    omega
  rw [Volume.applyAll_append]
  rcases insert_cases (v.applyAll (Volume.claim (i + 1) fsInodeTypeDir)) 1#32
      (newEntry (BitVec.ofNat 32 (i + 1 + 1)) (fileName 200) fun _ => 0#8) (v.inode 1#32) indices with
    nothing | ⟨k, n, _, free, _⟩ | ⟨k, j, used, _, stored⟩
  · rw [nothing]
    exact ⟨record, full⟩
  · exact absurd (full.symm.trans free) (Option.some_ne_none _).symm
  · rw [stored]
    refine ⟨?_, full⟩
    have range := (filled.consistent.range 1#32 member k used).1
    rw [Volume.applyAll_cons, Volume.applyAll_cons, Volume.applyAll_nil,
      Volume.inode_inode_other (filled.consistent.valid _ member) valid other,
      Volume.inode_block valid (by omega)]
    exact record

/-- Files of ten blocks until no block is left, a directory, and a file in it: the creation
returns a number that no name is bound to. -/
theorem creation_on_full_volume_half_done :
    ¬ ∀ calls, Admitted step CallInUse (fsInit (fun _ => 0) (fun _ => 0) blankWorld).2 calls →
      ∀ d, InodeInUse (calls.foldl step (fsInit (fun _ => 0) (fun _ => 0) blankWorld).2) d →
        isDir (storedInode (calls.foldl step (fsInit (fun _ => 0) (fun _ => 0) blankWorld).2) d) →
        ∀ name type padding, type = fsInodeTypeFile ∨ type = fsInodeTypeDir →
          AllOrNothing (calls.foldl step (fsInit (fun _ => 0) (fun _ => 0) blankWorld).2) d name type
            padding := by
  intro always
  obtain ⟨v0, l, shows0, fresh, _⟩ := fsInit_formats blankWorld_formattable (fun _ => 0) (fun _ => 0)
  set w0 := (fsInit (fun _ => 0) (fun _ => 0) blankWorld).2
  refine not_always_free shows0 fresh.filled fun calls v i m few admitted shows_ filled full => ?_
  obtain ⟨c, record, full⟩ := filled.makeDir few full
  have root : CallInUse (calls.foldl step w0) makeDir :=
    ⟨(filled.consistent.inUse_iff shows_).mpr filled.consistent.root, .inr rfl⟩
  have shows1 := shows_.step makeDir
  set d := BitVec.ofNat 32 (i + 2)
  have run : (calls ++ [makeDir]).foldl step w0 = step (calls.foldl step w0) makeDir := List.foldl_concat ..
  have inUse : InodeInUse (step (calls.foldl step w0) makeDir) d :=
    (c.inUse_iff shows1).mpr (Set.mem_insert _ _)
  have stored : storedInode (step (calls.foldl step w0) makeDir) d = newInode d fsInodeTypeDir := by
    rw [shows1.storedInode, record]
  have dir : isDir (newInode d fsInodeTypeDir) := (isDir_of_type rfl).1
  have whole := always (calls ++ [makeDir]) (admitted_append.mpr ⟨admitted, root, trivial⟩) d
  rw [run] at whole
  have whole := whole inUse (by rw [stored]; exact dir) nameA fsInodeTypeFile (fun _ => 0#8) (.inl rfl)
  have room := (allOrNothing_iff ⟨_, _, _, shows1, c⟩ inUse nameA (.inl rfl) _).mp whole ?_
  · refine shows1.roomFor_iff.mp room 0 ?_ (fun k' below => absurd below (Fin.not_lt_zero k')) full
    rw [record]
    rfl
  · refine (shows1.createAccepted_iff c).mpr ⟨by decide, ?_, ?_, ?_⟩
    · rw [record]
      exact dir
    · refine lookup_unbound (by decide) ?_
      rintro ⟨_, s, held⟩
      rw [Volume.slots, record, slotTable_empty fun _ => rfl] at held
      cases held
    · intro none_
      have set := Volume.unusedInode_none none_ 127 (by decide)
      have member := (c.inodes 128#32 ⟨by decide, by decide⟩ set).resolve_left (Set.notMem_empty _)
      rcases member with same | ⟨_, small⟩
      · have := congrArg BitVec.toNat same
        rw [ofNat_succ_toNat (i := i + 1) (by omega)] at this
        have : 128 = i + 1 + 1 := this
        omega
      · have : 128 ≤ i + 1 := small
        omega

end AstralOS.Fs
