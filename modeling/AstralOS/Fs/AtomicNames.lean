import AstralOS.Foundation.AtOnce
import AstralOS.Fs.AllOrNothing
import AstralOS.Fs.CutCalls

/-! Names over a loss of power: whatever block write of a call it comes after, the lookups of all
names are those from before the call or those from after it. -/
namespace AstralOS.Fs
open Foundation AstralOS.Lib

/-- All that a lookup in a directory sees. -/
def Volume.listing (d : BitVec 32) (v : Volume) : SlotTable Slot CString (BitVec 32) × BitVec 16 :=
  (v.slots d, (v.inode d).type)

section
variable {v v' : Volume} {b : Ledger} {live : Set (BitVec 32)} {blocks : Set BlockNum}
  {inodes : Set (BitVec 32)} {d id x : BitVec 32} {name : CString} {us : List Update}

/-! A lookup depends on the slots that hold the name. -/

/-- Slot `j` of block `k` holds the name. -/
def HoldsName (v : Volume) (dir : Inode) (name : CString) (k : Fin 10) (j : Nat) : Prop :=
  dir.directBlocks k ≠ 0#32 ∧ Names (v.disk (dir.directBlocks k)) j name

/-- The first slot of a block that holds the name. -/
def Volume.entryIn (v : Volume) (dir : Inode) (name : CString) (k : Fin 10) : Option Nat :=
  if dir.directBlocks k = 0#32 then none else findEntry (v.disk (dir.directBlocks k)) name

theorem entryIn_eq_some {dir : Inode} {k : Fin 10} {j : Nat} : v.entryIn dir name k = some j ↔
    j < entriesPerBlock ∧ HoldsName v dir name k j ∧ ∀ i < j, ¬HoldsName v dir name k i := by
  unfold Volume.entryIn HoldsName
  by_cases vacant : dir.directBlocks k = 0#32
  · simp [vacant]
  · simp [vacant, findEntry_eq_some]

theorem find_cons (dir : Inode) (k : Fin 10) (rest : List (Fin 10)) : v.find dir name (k :: rest) =
    ((v.entryIn dir name k).map fun j => (k, j)).or (v.find dir name rest) := by
  rw [Volume.find, Volume.entryIn]
  split
  · rfl
  · cases findEntry (v.disk (dir.directBlocks k)) name with
    | none => rfl
    | some j => rfl

theorem find_same {dir dir' : Inode} (same : ∀ k, ∀ j < entriesPerBlock,
    HoldsName v' dir' name k j ↔ HoldsName v dir name k j) (is : List (Fin 10)) :
    v'.find dir' name is = v.find dir name is := by
  induction is with
  | nil => rfl
  | cons k rest ih =>
      have first : v'.entryIn dir' name k = v.entryIn dir name k := by
        ext j
        rw [entryIn_eq_some, entryIn_eq_some]
        refine and_congr_right fun inside => and_congr (same k j inside) ?_
        exact forall₂_congr fun i before => not_congr (same k i (before.trans inside))
      rw [find_cons, find_cons, first, ih]

theorem slots_eq_some (short : strlen name ≤ fsMaxFilenameLen) {k : Fin 10} {j : Fin 113} :
    v.slots d (k, j) = some (name, id) ↔
      HoldsName v (v.inode d) name k j ∧ entryId (v.disk ((v.inode d).directBlocks k)) j = id := by
  unfold Volume.slots slotTable HoldsName
  by_cases vacant : (v.inode d).directBlocks k = 0#32
  · simp [vacant]
  · simp [vacant, slotEntry_eq_some short]

theorem lookup_same (valid : ValidId d) (type : (v'.inode d).type = (v.inode d).type)
    (same : ∀ s id, v'.slots d s = some (name, id) ↔ v.slots d s = some (name, id)) :
    v'.lookup d name = v.lookup d name := by
  unfold Volume.lookup
  split
  · rfl
  · rename_i long
    have short := Nat.le_of_not_lt long
    by_cases dir : isDir (v.inode d)
    · have holds : ∀ k, ∀ j < entriesPerBlock,
          HoldsName v' (v'.inode d) name k j ↔ HoldsName v (v.inode d) name k j := by
        intro k j inside
        constructor
        · intro held
          exact ((slots_eq_some short).mp ((same (k, ⟨j, inside⟩) _).mp ((slots_eq_some short).mpr ⟨held, rfl⟩))).1
        · intro held
          exact ((slots_eq_some short).mp ((same (k, ⟨j, inside⟩) _).mpr ((slots_eq_some short).mpr ⟨held, rfl⟩))).1
      rw [Volume.openAs_some valid dir, Volume.openAs_some valid ((isDir_congr type).mpr dir)]
      dsimp only
      rw [find_same holds]
      cases found : v.find (v.inode d) name indices with
      | none => rfl
      | some place =>
          obtain ⟨k, j⟩ := place
          obtain ⟨inside, held⟩ := slots_of_find short found
          exact ((slots_eq_some short).mp ((same _ _).mpr held)).2
    · rw [Volume.openAs_none dir, Volume.openAs_none fun dir' => dir ((isDir_congr type).mp dir')]

theorem lookup_of_listing (valid : ValidId d) (same : v'.listing d = v.listing d) (name : CString) :
    v'.lookup d name = v.lookup d name := by
  obtain ⟨slots, type⟩ := Prod.mk.inj same
  refine lookup_same valid type fun s id => ?_
  rw [slots]

/-! Updates that do not show. -/

theorem Untouched.listing (untouched : Untouched v v' x) : v'.listing x = v.listing x := by
  unfold Volume.listing
  rw [untouched.record, slots_congr untouched.record untouched.disk]

theorem listing_inode (valid : ValidId d) (data : ∀ k, (v.inode d).directBlocks k ≠ 0#32 →
    6 ≤ ((v.inode d).directBlocks k).toNat) {r : Inode} (type : r.type = (v.inode d).type)
    (direct : r.directBlocks = (v.inode d).directBlocks) :
    (v.apply (.inode d r)).listing d = v.listing d := by
  have record : (v.apply (.inode d r)).inode d = r := Volume.inode_inode_same valid
  unfold Volume.listing Volume.slots
  rw [record, type, slotTable_congr direct]
  intro k used
  have low := data k used
  exact Volume.disk_inode valid (by omega)

theorem unseen_bits (valid : ValidId d) (data : ∀ k, (v.inode d).directBlocks k ≠ 0#32 →
    6 ≤ ((v.inode d).directBlocks k).toNat)
    (bits : ∀ u ∈ us, ∃ i set, u = .inodeBit i set ∨ u = .blockBit i set) :
    Unseen Volume.apply (Volume.listing d) v us := by
  intro k
  obtain ⟨records, disk⟩ := bits_keep (v := v) (us.take k) fun u taken => bits u (List.mem_of_mem_take taken)
  refine Untouched.listing ⟨records d valid, fun i used => disk _ ?_⟩
  have low := data i used
  omega

theorem untouched_claim (c : Consistent ⟨live, blocks, inodes⟩ v) (member : d ∈ live) {i : Nat}
    (found : v.unusedInode = some i) (type : BitVec 16) (k : Nat) :
    Untouched v (v.applyAll ((Volume.claim i type).take k)) d := by
  have other : d ≠ BitVec.ofNat 32 (i + 1) := by
    rintro rfl
    exact c.fresh_inode found member
  have nothing : ∀ u ∈ Volume.claim i type, u.data = ∅ :=
    List.forall_mem_cons.mpr ⟨rfl, List.forall_mem_singleton.mpr rfl⟩
  refine untouched_spared c member (claim_plain (Volume.unusedInode_some found).1 type) ?_ ?_ ?_ k
  · intro u memberU n stored
    rw [nothing u memberU] at stored
    exact absurd stored (Set.notMem_empty n)
  · refine List.forall_mem_cons.mpr ⟨fun r same => ?_, List.forall_mem_singleton.mpr fun r same => ?_⟩
    · cases same
    · exact other (Update.inode.inj same).1.symm
  · intro u memberU j _ stored
    rw [nothing u memberU] at stored
    exact absurd stored (Set.notMem_empty _)

/-- A new block shows when the record of the directory has its number, which is written last. -/
theorem atOnce_adopt (c : Consistent ⟨live, blocks, inodes⟩ v) (member : d ∈ live) {n : Nat}
    (free : v.unusedBlock = some n) (block : Block) (r : Inode) :
    AtOnce Volume.apply (Volume.listing d) v
      ([.blockBit n true, .block (BitVec.ofNat 32 (n + 1)) block] ++ [.inode d r]) := by
  obtain ⟨low, high, unowned⟩ := c.fresh_block free
  have number : (BitVec.ofNat 32 (n + 1)).toNat = n + 1 := ofNat_succ_toNat (by omega)
  refine AtOnce.append (fun k => (untouched_spared c member ?_ ?_ ?_ ?_ k).listing) atOnce_single
  · exact List.forall_mem_cons.mpr ⟨trivial, List.forall_mem_singleton.mpr trivial⟩
  · refine List.forall_mem_cons.mpr ⟨fun m stored => ?_, List.forall_mem_singleton.mpr fun m stored => ?_⟩
    · exact absurd stored (Set.notMem_empty m)
    · obtain rfl : m = BitVec.ofNat 32 (n + 1) := stored
      omega
  · refine List.forall_mem_cons.mpr ⟨fun _ same => ?_, List.forall_mem_singleton.mpr fun _ same => ?_⟩
    · cases same
    · cases same
  · refine List.forall_mem_cons.mpr ⟨fun j _ stored => ?_, List.forall_mem_singleton.mpr fun j _ stored => ?_⟩
    · exact absurd stored (Set.notMem_empty _)
    · exact unowned ⟨d, member, j, stored⟩

/-- A slot of a block shows when the block is written; the record, written next, has a new size. -/
theorem atOnce_slot (c : Consistent ⟨live, blocks, inodes⟩ v) (member : d ∈ live) {k : Fin 10}
    (used : (v.inode d).directBlocks k ≠ 0#32) (block : Block) {r : Inode}
    (type : r.type = (v.inode d).type) (direct : r.directBlocks = (v.inode d).directBlocks)
    (bits : ∀ u ∈ us, ∃ i set, u = .inodeBit i set ∨ u = .blockBit i set) :
    AtOnce Volume.apply (Volume.listing d) v
      (.block ((v.inode d).directBlocks k) block :: .inode d r :: us) := by
  have valid := c.valid d member
  have range : ∀ k, (v.inode d).directBlocks k ≠ 0#32 → 6 ≤ ((v.inode d).directBlocks k).toNat := by
    intro k used
    have low := (c.range d member k used).1
    omega
  have record : (v.apply (.block ((v.inode d).directBlocks k) block)).inode d = v.inode d :=
    Volume.inode_block valid (range k used)
  refine Unseen.after (.cons (listing_inode valid ?_ ?_ ?_) (unseen_bits valid ?_ bits))
  · rwa [record]
  · rwa [record]
  · rwa [record]
  · rwa [Volume.inode_inode_same valid, direct]

theorem create_atOnce (c : Consistent ⟨live, blocks, inodes⟩ v) (member : d ∈ live) (name : CString)
    (type : BitVec 16) (padding : Bytes) :
    AtOnce Volume.apply (Volume.listing d) v (v.create d name type padding).2 := by
  rcases create_cases (c.valid d member) name type padding with ⟨_, refused⟩ | ⟨i, ⟨_, _, _, found⟩, number, done⟩
  · rw [refused]
    exact unseen_nil.atOnce
  have claimed := untouched_claim c member found type
  have record : (v.applyAll (Volume.claim i type)).inode d = v.inode d := (claimed 2).record
  have c2 := (track_claim c found type).final
  rw [done]
  refine AtOnce.append (fun k => (claimed k).listing) ?_
  change AtOnce _ _ (v.applyAll (Volume.claim i type)) _
  rcases insert_cases (v.applyAll (Volume.claim i type)) d (newEntry (BitVec.ofNat 32 (i + 1)) name padding)
      (v.inode d) indices with nothing | ⟨k, n, _, free, stored⟩ | ⟨k, j, used, _, stored⟩
  · rw [nothing]
    exact unseen_nil.atOnce
  · rw [stored]
    exact atOnce_adopt c2 member free _ _
  · rw [stored, ← record]
    rw [← record] at used
    exact atOnce_slot c2 member used _ (Volume.grow_type _) (Volume.grow_directBlocks _) (List.forall_mem_nil _)

theorem delete_atOnce (c : Consistent ⟨live, blocks, inodes⟩ v) (member : d ∈ live) (name : CString) :
    AtOnce Volume.apply (Volume.listing d) v (v.delete d name).2 := by
  rcases delete_removes c member name with refused | ⟨k, j, _, dir, found, done⟩
  · rw [refused]
    exact unseen_nil.atOnce
  have holds := holds_of_find dir found
  rw [done, removal, Volume.unlink, List.cons_append, List.cons_append, List.nil_append]
  refine atOnce_slot c member holds.used _ (Volume.shrink_type _) (Volume.shrink_directBlocks _) ?_
  exact List.forall_mem_append.mpr ⟨release_bits _ _, List.forall_mem_singleton.mpr ⟨_, _, .inl rfl⟩⟩

/-! What the whole call does to its directory. -/

/-- A table with at most one slot filled or cleared, and that for this name. -/
inductive Renamed (t t' : SlotTable Slot CString (BitVec 32)) (name : CString) : Prop where
  | same : t' = t → Renamed t t' name
  | filled {s : Slot} {id : BitVec 32} : t s = none → name ∉ t.keys →
      t' = Function.update t s (some (name, id)) → Renamed t t' name
  | cleared {s : Slot} {id : BitVec 32} : t s = some (name, id) → t' = Function.update t s none →
      Renamed t t' name

theorem Renamed.elsewhere {t t' : SlotTable Slot CString (BitVec 32)} {name' : CString}
    (renamed : Renamed t t' name) (other : name' ≠ name) (s : Slot) (id : BitVec 32) :
    t' s = some (name', id) ↔ t s = some (name', id) := by
  cases renamed with
  | same unchanged => rw [unchanged]
  | @filled s' id' free new changed =>
      subst changed
      by_cases place : s = s'
      · subst place
        simp [free, other.symm]
      · rw [Function.update_of_ne place]
  | @cleared s' id' held changed =>
      subst changed
      by_cases place : s = s'
      · subst place
        simp [held, other.symm]
      · rw [Function.update_of_ne place]

theorem create_renames (c : Consistent ⟨live, blocks, inodes⟩ v) (member : d ∈ live) (name : CString)
    {type : BitVec 16} (kind : type = fsInodeTypeFile ∨ type = fsInodeTypeDir) (padding : Bytes) :
    ((v.applyAll (v.create d name type padding).2).inode d).type = (v.inode d).type ∧
      Renamed (v.slots d) ((v.applyAll (v.create d name type padding).2).slots d) name := by
  have valid := c.valid d member
  rcases create_cases valid name type padding with ⟨_, refused⟩ | ⟨i, ⟨short, dir, unbound, found⟩, number, done⟩
  · rw [refused]
    exact ⟨rfl, .same rfl⟩
  rw [done]
  by_cases room : ∀ k, (v.inode d).directBlocks k = 0#32 →
      (∀ k' < k, (v.inode d).directBlocks k' ≠ 0#32 ∧
        freeEntry (v.disk ((v.inode d).directBlocks k')) = none) → v.unusedBlock ≠ none
  · obtain ⟨_, s, free, edited⟩ := edited_create c member dir short found kind padding room
    exact ⟨edited.type, .filled free (unbound_of_lookup valid dir short unbound) edited.slots⟩
  · push Not at room
    obtain ⟨k, vacant, full, none_⟩ := room
    -- without a block the entry is dropped
    have occupied : ∀ k' < k, Occupied (v.applyAll (Volume.claim i type)) (v.inode d) k' :=
      fun k' below => (occupied_claim c member (Volume.unusedInode_some found).1 type).mpr (full k' below)
    have none_ : (v.applyAll (Volume.claim i type)).unusedBlock = none := none_
    have nothing := insert_without_block d (newEntry (BitVec.ofNat 32 (i + 1)) name padding) vacant
      occupied none_
    have claimed := (untouched_claim c member found type 2).listing
    rw [nothing, List.append_nil]
    obtain ⟨slots, type⟩ := Prod.mk.inj claimed
    exact ⟨type, .same slots⟩

theorem delete_renames (c : Consistent ⟨live, blocks, inodes⟩ v) (member : d ∈ live) (name : CString) :
    ((v.applyAll (v.delete d name).2).inode d).type = (v.inode d).type ∧
      Renamed (v.slots d) ((v.applyAll (v.delete d name).2).slots d) name := by
  rcases delete_removes c member name with refused | ⟨k, j, short, dir, found, done⟩
  · rw [refused]
    exact ⟨rfl, .same rfl⟩
  obtain ⟨inside, held⟩ := slots_of_find short found
  have edited := edited_removal c member inside (holds_of_find dir found)
  rw [done]
  exact ⟨edited.type, .cleared held edited.slots⟩

/-! Any call. -/

theorem perform_atOnce (c : Consistent ⟨live, blocks, inodes⟩ v) (call : Call) (member : call.inode ∈ live)
    (dir : isDir (v.inode call.inode)) :
    AtOnce Volume.apply (Volume.listing call.inode) v (v.perform call).2 := by
  cases call with
  | create d name type padding => exact create_atOnce c member name type padding
  | delete d name => exact delete_atOnce c member name
  | lookup d name => exact unseen_nil.atOnce
  | read id offset count => exact unseen_nil.atOnce
  | write id offset buffer count =>
      have noFile : ¬isFile (v.inode id) := fun file => c.not_dir member file dir
      have refused : (v.perform (.write id offset buffer count)).2 = [] := by
        rw [Volume.perform, Volume.write, Volume.openAs_none noFile]
      rw [refused]
      exact unseen_nil.atOnce

/-- Cut after any block write, a call has left all directories as they were, or as it leaves them. -/
theorem perform_listings (c : Consistent ⟨live, blocks, inodes⟩ v) (call : Call) (member : call.inode ∈ live)
    (typed : call.Typed) (k : Nat) :
    (∀ x ∈ live, isDir (v.inode x) → (v.applyAll ((v.perform call).2.take k)).listing x = v.listing x) ∨
      ∀ x ∈ live, isDir (v.inode x) →
        (v.applyAll ((v.perform call).2.take k)).listing x = (v.step call).listing x := by
  have elsewhere : ∀ x ∈ live, x ≠ call.inode → Unseen Volume.apply (Volume.listing x) v (v.perform call).2 :=
    fun x memberX other k => (perform_untouched c call member typed memberX other k).listing
  by_cases dir : isDir (v.inode call.inode)
  · rcases perform_atOnce c call member dir k with before | after
    · refine .inl fun x memberX _ => ?_
      by_cases self : x = call.inode
      · rw [self]
        exact before
      · exact elsewhere x memberX self k
    · refine .inr fun x memberX _ => ?_
      by_cases self : x = call.inode
      · rw [self]
        exact after
      · exact (elsewhere x memberX self k).trans (elsewhere x memberX self).whole.symm
  · refine .inl fun x memberX dirX => elsewhere x memberX ?_ k
    rintro rfl
    exact dir dirX

end
/-- Power is lost after any block write of any call: once the volume is mounted again, either all
names of all directories that could be reached are found as before the call, or all as after it. -/
theorem names_change_at_once {w w' : World} (powered : Powered w) (call : Call) (allowed : CallFromRoot w call)
    (k : Nat) (healthy : Healthy w') (image : w'.disk = cutImage w call k) (inodeJunk blockJunk : Bytes) :
    (∀ d, FromRoot (imageVolume w.disk) d → isDir (storedInode w d) → ∀ name,
      (fsLookup d name (fsInit inodeJunk blockJunk w').2).1 = (fsLookup d name w).1) ∨
    ∀ d, FromRoot (imageVolume w.disk) d → isDir (storedInode w d) → ∀ name,
      (fsLookup d name (fsInit inodeJunk blockJunk w').2).1 = (fsLookup d name (step w call)).1 := by
  obtain ⟨v, l, shows_, ⟨live, blocks, inodes⟩, c⟩ := powered_sound powered
  obtain ⟨member, typed⟩ := shows_.allowed c allowed
  obtain ⟨l', b', mounted, _⟩ := shows_.reboot c allowed k healthy image inodeJunk blockJunk
  have after := shows_.step call
  have directory : ∀ d, FromRoot (imageVolume w.disk) d → isDir (storedInode w d) → d ∈ live ∧ isDir (v.inode d) := by
    intro d reached dir
    rw [shows_.disk, c.synced.image_eq] at reached
    rw [shows_.storedInode] at dir
    exact ⟨c.fromRoot reached, dir⟩
  rcases perform_listings c call member typed k with unchanged | done
  · refine .inl fun d reached dir name => ?_
    obtain ⟨memberD, dir⟩ := directory d reached dir
    rw [(does_fsLookup d name _ mounted).1, (does_fsLookup d name _ shows_).1]
    exact lookup_of_listing (c.valid d memberD) (unchanged d memberD dir) name
  · refine .inr fun d reached dir name => ?_
    obtain ⟨memberD, dir⟩ := directory d reached dir
    rw [(does_fsLookup d name _ mounted).1, (does_fsLookup d name _ after).1]
    exact lookup_of_listing (c.valid d memberD) (done d memberD dir) name

/-- The power is lost while the root gets its first entry. -/
theorem names_change_at_once_create :
    let w := (fsInit (fun _ => 0) (fun _ => 0) blankWorld).2
    let w' := cutPower w (newFile nameA) 4
    (∀ d, FromRoot (imageVolume w.disk) d → isDir (storedInode w d) → ∀ name,
      (fsLookup d name (fsInit (fun _ => 0) (fun _ => 0) w').2).1 = (fsLookup d name w).1) ∨
    ∀ d, FromRoot (imageVolume w.disk) d → isDir (storedInode w d) → ∀ name,
      (fsLookup d name (fsInit (fun _ => 0) (fun _ => 0) w').2).1 =
        (fsLookup d name (step w (newFile nameA))).1 := by
  intro w w'
  obtain ⟨v, l, shows_, _⟩ := fsInit_formats blankWorld_formattable (fun _ => 0) fun _ => 0
  have powered : Powered w := .format (fun _ => 0) (fun _ => 0) blankWorld_formattable
  exact names_change_at_once powered (newFile nameA) ⟨.root, .inl rfl⟩ 4
    (shows_.healthy.cutPower (newFile nameA) 4) (cutPower_disk w (newFile nameA) 4) (fun _ => 0) fun _ => 0

end AstralOS.Fs
