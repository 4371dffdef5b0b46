import AstralOS.Fs.Catalog

/-! The namespace as a tree: which inodes the root reaches through directory entries, and
which calls leave an inode in use that it does not reach. -/
namespace AstralOS.Fs
open Foundation AstralOS.Lib

/-- Every live inode is reached. -/
def Rooted (v : Volume) (live : Set (BitVec 32)) : Prop := ∀ id ∈ live, FromRoot v id

section
variable {v v' : Volume} {live : Set (BitVec 32)} {b : Ledger} {d id : BitVec 32} {name : CString}
  {s : Slot}

theorem FromRoot.entry_of_ne_root (reach : FromRoot v id) (other : id ≠ 1#32) :
    ∃ d k j, FromRoot v d ∧ Holds v d k j id := by
  cases reach with
  | root => exact absurd rfl other
  | entry up holds => exact ⟨_, _, _, up, holds⟩

theorem slots_of_holds {k : Fin 10} {j : Nat} (holds : Holds v d k j id) :
    ∃ name, v.slots d (k, ⟨j, holds.slot⟩) = some (name, id) := by
  refine ⟨CString.ofField (fsMaxFilenameLen + 1)
    (entryName (v.disk ((v.inode d).directBlocks k)) j), ?_⟩
  have used : entryId (v.disk ((v.inode d).directBlocks k)) j ≠ 0#32 := by
    rw [holds.entry]
    exact holds.nonzero
  rw [Volume.slots, slotTable, if_neg holds.used, slotEntry]
  dsimp only
  rw [if_neg used, holds.entry]

/-- A directory with the same slots has the same entries. -/
theorem holds_of_slots_eq {k : Fin 10} {j : Nat} (holds : Holds v d k j id)
    (type : (v'.inode d).type = (v.inode d).type)
    (same : v'.slots d (k, ⟨j, holds.slot⟩) = v.slots d (k, ⟨j, holds.slot⟩)) : Holds v' d k j id := by
  obtain ⟨name, held⟩ := slots_of_holds holds
  rw [← same] at held
  exact holds_of_slots ((isDir_congr type).mpr holds.dir) held

/-- No reached directory has an entry for itself. -/
theorem Consistent.not_self (c : Consistent b v) (reach : FromRoot v d) {k : Fin 10} {j : Nat} :
    ¬ Holds v d k j d := by
  intro loop
  have never : ∀ x, FromRoot v x → x ≠ d := by
    intro x reachX
    induction reachX with
    | root => exact (Ne.symm (c.names d (c.fromRoot reach) k j d loop).2)
    | entry up holds ih =>
        rintro rfl
        exact ih (c.once _ (c.fromRoot up) _ (c.fromRoot reach) _ _ _ _ _ holds loop).1
  exact never d reach rfl

/-- An inode nothing names is not reached. -/
theorem Consistent.not_reach (c : Consistent b v) (notRoot : id ≠ 1#32) (unnamed : Unnamed v b.live id) :
    ¬ FromRoot v id := by
  intro reach
  obtain ⟨d, k, j, up, holds⟩ := reach.entry_of_ne_root notRoot
  exact unnamed d (c.fromRoot up) k j holds

/-! Creation. -/

theorem Rooted.create (rooted : Rooted v live) (c : Consistent ⟨live, ∅, ∅⟩ v) (member : d ∈ live)
    (dir : isDir (v.inode d)) (free : v.slots d s = none) {size : BitVec 64}
    (edited : Edited v v' live d s (some (name, id)) size) : Rooted v' (insert id live) := by
  have keeps : ∀ x, FromRoot v x → FromRoot v' x := by
    intro x reach
    induction reach with
    | root => exact .root
    | @entry y x k j up holds ih =>
        have memberY := c.fromRoot up
        refine .entry ih (holds_of_slots_eq holds ?_ ?_)
        · by_cases self : y = d
          · rw [self]
            exact edited.type
          · rw [edited.records y memberY self]
        · by_cases self : y = d
          · subst self
            have other : ((k, ⟨j, holds.slot⟩) : Slot) ≠ s := by
              rintro rfl
              obtain ⟨name, held⟩ := slots_of_holds holds
              rw [free] at held
              cases held
            rw [edited.slots, Function.update_of_ne other]
          · rw [edited.others y memberY self]
  rintro x (rfl | memberX)
  · have held : v'.slots d s = some (name, x) := by rw [edited.slots, Function.update_self]
    exact .entry (keeps d (rooted d member))
      (holds_of_slots ((isDir_congr edited.type).mpr dir) held)
  · exact keeps x (rooted x memberX)

/-- Without an entry the new inode is an orphan. -/
theorem orphan_created (c : Consistent ⟨live, ∅, ∅⟩ v) {i : Nat} (found : v.unusedInode = some i)
    {type : BitVec 16} (kind : type = fsInodeTypeFile ∨ type = fsInodeTypeDir) :
    ¬ Rooted (v.applyAll (Volume.claim i type)) (insert (BitVec.ofNat 32 (i + 1)) live) := by
  have small := (Volume.unusedInode_some found).1
  have dead := c.fresh_inode found
  obtain ⟨record, _, marked, _, _⟩ := claim_reads (v := v) small type
  have bit : (v.applyAll (Volume.claim i type)).ibit ((BitVec.ofNat 32 (i + 1)).toNat - 1) = true := by
    rw [marked, ofNat_succ_toNat (by omega), Nat.add_sub_cancel, if_pos rfl]
  obtain ⟨grown, unnamed, notRoot⟩ :=
    grow_claimed (track_claim c found type).final (ofNat_valid small) dead bit record kind
  exact fun rooted => grown.not_reach notRoot unnamed (rooted _ (.inl rfl))

/-! Removal. -/

theorem Rooted.delete (rooted : Rooted v live) (c : Consistent ⟨live, ∅, ∅⟩ v) (member : d ∈ live)
    (dir : isDir (v.inode d)) (held : v.slots d s = some (name, id)) {size : BitVec 64}
    (edited : Edited v v' live d s none size) (empty : ∀ k j x, ¬ Holds v id k j x) :
    Rooted v' (live \ {id}) := by
  have named := holds_of_slots dir held
  have keeps : ∀ x, FromRoot v x → x ≠ id → FromRoot v' x := by
    intro x reach
    induction reach with
    | root => exact fun _ => .root
    | @entry y x k j up holds ih =>
        intro other
        have memberY := c.fromRoot up
        have apart : y ≠ id := by
          rintro rfl
          exact empty k j x holds
        refine .entry (ih apart) (holds_of_slots_eq holds ?_ ?_)
        · by_cases self : y = d
          · rw [self]
            exact edited.type
          · rw [edited.records y memberY self]
        · by_cases self : y = d
          · subst self
            have place : ((k, ⟨j, holds.slot⟩) : Slot) ≠ s := by
              rintro rfl
              obtain ⟨name', held'⟩ := slots_of_holds holds
              rw [held] at held'
              cases held'
              exact other rfl
            rw [edited.slots, Function.update_of_ne place]
          · rw [edited.others y memberY self]
  exact fun x ⟨memberX, other⟩ => keeps x (rooted x memberX) other

/-- What a removed directory named is an orphan. -/
theorem orphan_removed (c : Consistent ⟨live, ∅, ∅⟩ v) (c' : Consistent ⟨live \ {id}, ∅, ∅⟩ v')
    (reach : FromRoot v id) (member : d ∈ live) {size : BitVec 64}
    (edited : Edited v v' live d s none size) {k : Fin 10} {j : Nat} {x : BitVec 32}
    (holds : Holds v id k j x) : ¬ Rooted v' (live \ {id}) := by
  obtain ⟨memberX, notRoot⟩ := c.names id (c.fromRoot reach) k j x holds
  have other : x ≠ id := by
    rintro rfl
    exact c.not_self reach holds
  refine fun rooted => c'.not_reach notRoot ?_ (rooted x ⟨memberX, other⟩)
  rintro y ⟨memberY, apart⟩ k' j' held
  have before : Holds v y k' j' x := by
    obtain ⟨name', slot⟩ := slots_of_holds held
    by_cases self : y = d
    · subst self
      have place : ((k', ⟨j', held.slot⟩) : Slot) ≠ s := by
        rintro rfl
        rw [edited.slots, Function.update_self] at slot
        cases slot
      rw [edited.slots, Function.update_of_ne place] at slot
      exact holds_of_slots ((isDir_congr edited.type).mp held.dir) slot
    · rw [edited.others y memberY self] at slot
      have dir := held.dir
      rw [edited.records y memberY self] at dir
      exact holds_of_slots dir slot
  exact apart (c.once y memberY id (c.fromRoot reach) k' k j' j x before holds).1

end

/-- Slot `j` of block `k` of directory `d` names `id`, as the device stores it. -/
structure NamedIn (w : World) (d : BitVec 32) (k : Fin 10) (j : Nat) (id : BitVec 32) : Prop where
  dir : isDir (storedInode w d)
  used : (storedInode w d).directBlocks k ≠ 0#32
  slot : j < entriesPerBlock
  entry : entryId (w.disk ((storedInode w d).directBlocks k)) j = id
  nonzero : id ≠ 0#32

inductive Reachable (w : World) : BitVec 32 → Prop where
  | root : Reachable w 1#32
  | entry {d id : BitVec 32} {k : Fin 10} {j : Nat} (up : Reachable w d) (named : NamedIn w d k j id) :
      Reachable w id

/-- The inodes in use are those the root reaches, and all but the root have one name. -/
structure NamespaceTree (w : World) : Prop where
  inUse : ∀ id, InodeInUse w id ↔ Reachable w id
  named : ∀ id, InodeInUse w id → id ≠ 1#32 →
    ∃! p : BitVec 32 × Fin 10 × Nat, InodeInUse w p.1 ∧ NamedIn w p.1 p.2.1 p.2.2 id

def CallReachable (w : World) (c : Call) : Prop := Reachable w c.inode ∧ c.Typed

/-- What `fs_create` checks before it takes an inode. -/
structure CreateAccepted (w : World) (d : BitVec 32) (name : CString) : Prop where
  short : strlen name ≤ fsMaxFilenameLen
  dir : isDir (storedInode w d)
  unbound : (fsLookup d name w).1 = 0#32
  unused : ∃ id : BitVec 32, 1 ≤ id.toNat ∧ id.toNat ≤ w.currentSuperblock.totalInodes.toNat ∧
    ¬ InodeInUse w id

/-- No creation lacks a block for its entry, and no removal removes a directory with entries. -/
def CallLinked (w : World) : Call → Prop
  | .create d name _ _ => CreateAccepted w d name → RoomFor w d
  | .delete d name => (fsLookup d name w).1 ≠ 0#32 →
      ∀ k j id, ¬ NamedIn w (fsLookup d name w).1 k j id
  | _ => True

section
variable {v : Volume} {l : List Ptr} {w : World} {live : Set (BitVec 32)} {d id : BitVec 32}

theorem Shows.namedIn_iff (shows_ : Shows v l w) {k : Fin 10} {j : Nat} :
    NamedIn w d k j id ↔ Holds v d k j id := by
  constructor
  · rintro ⟨dir, used, slot, entry, nonzero⟩
    rw [shows_.storedInode] at dir used entry
    rw [shows_.disk] at entry
    exact ⟨dir, used, slot, entry, nonzero⟩
  · rintro ⟨dir, used, slot, entry, nonzero⟩
    rw [← shows_.storedInode] at dir used entry
    rw [← shows_.disk] at entry
    exact ⟨dir, used, slot, entry, nonzero⟩

theorem Carries.named {c : Catalog} (carries : Carries w c) {name : CString} (dir : d ∈ c.directories)
    (bound : c.entry d name = some id) : ∃ k j, NamedIn w d k j id := by
  obtain ⟨v, l, live, shows_, consistent, depicts⟩ := carries
  obtain ⟨s, held⟩ := (depicts.entries d dir name id).mp bound
  have holds := holds_of_slots ((depicts.directories d).mp dir).2 held
  exact ⟨s.1, s.2, shows_.namedIn_iff.mpr holds⟩

theorem Shows.reachable_iff (shows_ : Shows v l w) : Reachable w id ↔ FromRoot v id := by
  constructor
  · intro reach
    induction reach with
    | root => exact .root
    | entry _ named ih => exact .entry ih (shows_.namedIn_iff.mp named)
  · intro reach
    induction reach with
    | root => exact .root
    | entry _ holds ih => exact .entry ih (shows_.namedIn_iff.mpr holds)

theorem namespaceTree_iff (shows_ : Shows v l w) (c : Consistent ⟨live, ∅, ∅⟩ v) :
    NamespaceTree w ↔ Rooted v live := by
  constructor
  · intro tree id member
    exact shows_.reachable_iff.mp ((tree.inUse id).mp ((c.inUse_iff shows_).mpr member))
  · intro rooted
    refine ⟨fun id => ?_, fun id inUse other => ?_⟩
    · rw [c.inUse_iff shows_, shows_.reachable_iff]
      exact ⟨rooted id, c.fromRoot⟩
    · have member := (c.inUse_iff shows_).mp inUse
      obtain ⟨d, k, j, up, holds⟩ := (rooted id member).entry_of_ne_root other
      have memberD := c.fromRoot up
      refine ⟨(d, k, j), ⟨(c.inUse_iff shows_).mpr memberD, shows_.namedIn_iff.mpr holds⟩, ?_⟩
      rintro ⟨d', k', j'⟩ ⟨inUse', named⟩
      obtain ⟨rfl, rfl, rfl⟩ := c.once d' ((c.inUse_iff shows_).mp inUse') d memberD k' k j' j id
        (shows_.namedIn_iff.mp named) holds
      rfl

theorem callInUse_of_reachable (settled : Settled w) {call : Call} (reachable : CallReachable w call) :
    CallInUse w call := by
  obtain ⟨v, l, live, shows_, c⟩ := settled
  exact ⟨(c.inUse_iff shows_).mpr (c.fromRoot (shows_.reachable_iff.mp reachable.1)), reachable.2⟩

theorem Shows.createAccepted_iff (shows_ : Shows v l w) (c : Consistent ⟨live, ∅, ∅⟩ v)
    {name : CString} :
    CreateAccepted w d name ↔ strlen name ≤ fsMaxFilenameLen ∧ isDir (v.inode d) ∧
      v.lookup d name = 0#32 ∧ v.unusedInode ≠ none := by
  have unused : (∃ id : BitVec 32, 1 ≤ id.toNat ∧
      id.toNat ≤ w.currentSuperblock.totalInodes.toNat ∧ ¬ InodeInUse w id) ↔
      v.unusedInode ≠ none := by
    rw [shows_.layout.totalInodes]
    constructor
    · rintro ⟨id, low, high, free⟩ none_
      have high : id.toNat ≤ 128 := high
      have set := Volume.unusedInode_none none_ (id.toNat - 1) (by omega)
      exact free (shows_.inodeInUse_iff.mpr ⟨⟨low, high⟩, set⟩)
    · intro some_
      obtain ⟨i, found⟩ := Option.ne_none_iff_exists'.mp some_
      have small := (Volume.unusedInode_some found).1
      refine ⟨BitVec.ofNat 32 (i + 1), (ofNat_valid small).1, (ofNat_valid small).2, fun used => ?_⟩
      exact c.fresh_inode found ((c.inUse_iff shows_).mp used)
  rw [← unused, ← (does_fsLookup d name w shows_).1, ← shows_.storedInode]
  exact ⟨fun ⟨short, dir, unbound, free⟩ => ⟨short, dir, unbound, free⟩,
    fun ⟨short, dir, unbound, free⟩ => ⟨short, dir, unbound, free⟩⟩

/-- A creation keeps the tree exactly when it finds a block for its entry if it needs one. -/
theorem rooted_create_iff (c : Consistent ⟨live, ∅, ∅⟩ v) (rooted : Rooted v live) (member : d ∈ live)
    (name : CString) {type : BitVec 16} (kind : type = fsInodeTypeFile ∨ type = fsInodeTypeDir)
    (padding : Bytes) :
    ∃ live', Consistent ⟨live', ∅, ∅⟩ (v.applyAll (v.create d name type padding).2) ∧
      (Rooted (v.applyAll (v.create d name type padding).2) live' ↔
        (strlen name ≤ fsMaxFilenameLen → isDir (v.inode d) → v.lookup d name = 0#32 →
          v.unusedInode ≠ none → ∀ k, (v.inode d).directBlocks k = 0#32 →
          (∀ k' < k, (v.inode d).directBlocks k' ≠ 0#32 ∧
            freeEntry (v.disk ((v.inode d).directBlocks k')) = none) → v.unusedBlock ≠ none)) := by
  rcases create_cases (c.valid d member) name type padding with
    ⟨refused, nothing⟩ | ⟨i, ⟨short, dir, unbound, found⟩, number, done⟩
  · rw [nothing]
    exact ⟨live, c, iff_of_true rooted fun short dir unbound free =>
      absurd ⟨short, dir, unbound, free⟩ refused⟩
  have small := (Volume.unusedInode_some found).1
  have free : v.unusedInode ≠ none := Option.ne_none_iff_exists'.mpr ⟨i, found⟩
  have dead := c.fresh_inode found
  obtain ⟨live', track, _, grows⟩ := track_create c member name kind padding
  have nonzero : (v.create d name type padding).1 ≠ 0#32 := by rwa [done]
  obtain rfl := grows nonzero
  refine ⟨_, track.final, ?_⟩
  rw [done]
  constructor
  · intro kept _ _ _ _ k vacant full none_
    -- nothing is stored, so the new inode has no name
    have occupied : ∀ k' < k, Occupied (v.applyAll (Volume.claim i type)) (v.inode d) k' :=
      fun k' below => (occupied_claim c member small type).mpr (full k' below)
    have none_ : (v.applyAll (Volume.claim i type)).unusedBlock = none := none_
    have nothing := insert_without_block d (newEntry (BitVec.ofNat 32 (i + 1)) name padding) vacant
      occupied none_
    rw [nothing, List.append_nil] at kept
    exact orphan_created c found kind kept
  · intro room
    obtain ⟨_, s, freeSlot, edited⟩ :=
      edited_create c member dir short found kind padding (room short dir unbound free)
    exact rooted.create c member dir freeSlot edited

/-- A removal keeps the tree exactly when what it removes names nothing. -/
theorem rooted_delete_iff (c : Consistent ⟨live, ∅, ∅⟩ v) (rooted : Rooted v live) (member : d ∈ live)
    (name : CString) :
    ∃ live', Consistent ⟨live', ∅, ∅⟩ (v.applyAll (v.delete d name).2) ∧
      (Rooted (v.applyAll (v.delete d name).2) live' ↔
        (v.lookup d name ≠ 0#32 → ∀ k j x, ¬ Holds v (v.lookup d name) k j x)) := by
  have refused (missing : v.delete d name = (-1, [])) (unbound : v.lookup d name = 0#32) :
      ∃ live', Consistent ⟨live', ∅, ∅⟩ (v.applyAll (v.delete d name).2) ∧
        (Rooted (v.applyAll (v.delete d name).2) live' ↔
          (v.lookup d name ≠ 0#32 → ∀ k j x, ¬ Holds v (v.lookup d name) k j x)) := by
    rw [missing]
    exact ⟨live, c, iff_of_true rooted fun bound => absurd unbound bound⟩
  by_cases long : fsMaxFilenameLen < strlen name
  · refine refused ?_ ?_
    · rw [Volume.delete, if_pos long]
    · rw [Volume.lookup, if_pos long]
  have short := Nat.le_of_not_lt long
  by_cases dir : isDir (v.inode d)
  · have opened := Volume.openAs_some (c.valid d member) dir
    cases found : v.find (v.inode d) name indices with
    | none =>
        refine refused (delete_missing fun _ => found) ?_
        rw [Volume.lookup, if_neg long, opened]
        dsimp only
        rw [found]
    | some place =>
        obtain ⟨k, j⟩ := place
        have holds := holds_of_find dir found
        obtain ⟨inside, held⟩ := slots_of_find short found
        rw [delete_found c member long dir found, lookup_of_find long opened found]
        have final := (track_removal c member holds).final
        have edited := edited_removal c member inside holds
        refine ⟨_, final, fun kept _ k' j' x names => ?_, fun empty => ?_⟩
        · have reach := rooted _ (c.names d member k j _ holds).1
          exact orphan_removed c final reach member edited names kept
        · exact rooted.delete c member dir held edited (empty holds.nonzero)
  · refine refused (delete_missing fun isDirectory => absurd isDirectory dir) ?_
    rw [Volume.lookup, if_neg long, Volume.openAs_none dir]

theorem rooted_write (c : Consistent ⟨live, ∅, ∅⟩ v) (rooted : Rooted v live) (member : id ∈ live)
    (offset : BitVec 64) (buffer : Bytes) (count : BitVec 64) :
    Rooted (v.applyAll (v.write id offset buffer count).2) live := by
  intro x memberX
  have reach := rooted x memberX
  induction reach with
  | root => exact .root
  | entry up holds ih =>
      have memberD := c.fromRoot up
      obtain ⟨type, same⟩ := write_keeps c member offset buffer count _ memberD
      exact .entry (ih memberD) (holds_of_slots_eq holds type (congrFun (same holds.dir).1 _))

/-- One call on a reachable inode. -/
theorem tree_step_iff (settled : Settled w) (tree : NamespaceTree w) {call : Call}
    (reachable : CallReachable w call) : NamespaceTree (step w call) ↔ CallLinked w call := by
  have inUse := callInUse_of_reachable settled reachable
  obtain ⟨v, l, live, shows_, c⟩ := settled
  have rooted := (namespaceTree_iff shows_ c).mp tree
  have member := (c.inUse_iff shows_).mp inUse.1
  have typed := inUse.2
  have after := shows_.step call
  cases call with
  | create d name type padding =>
      obtain ⟨live', c', kept⟩ := rooted_create_iff c rooted member name typed padding
      rw [CallLinked, namespaceTree_iff after c', shows_.createAccepted_iff c, shows_.roomFor_iff]
      refine Iff.trans kept ?_
      exact ⟨fun h ⟨short, dir, unbound, free⟩ => h short dir unbound free,
        fun h short dir unbound free => h ⟨short, dir, unbound, free⟩⟩
  | delete d name =>
      obtain ⟨live', c', kept⟩ := rooted_delete_iff c rooted member name
      simp only [CallLinked, (does_fsLookup d name w shows_).1, shows_.namedIn_iff]
      rw [namespaceTree_iff after c']
      exact kept
  | lookup d name => exact iff_of_true ((namespaceTree_iff after c).mpr rooted) trivial
  | read id offset count => exact iff_of_true ((namespaceTree_iff after c).mpr rooted) trivial
  | write id offset buffer count =>
      have c' := (track_write c member offset buffer count).final
      exact iff_of_true ((namespaceTree_iff after c').mpr
        (rooted_write c rooted member offset buffer count)) trivial

theorem namespaceTree_format {buffer : Block} (formattable : Formattable w buffer)
    (inodeJunk blockJunk : Bytes) : NamespaceTree (fsInit inodeJunk blockJunk w).2 := by
  obtain ⟨v, l, shows_, fresh, _⟩ := fsInit_formats formattable inodeJunk blockJunk
  refine (namespaceTree_iff shows_ fresh.consistent).mpr ?_
  rintro id rfl
  exact .root

end

/-- The namespace is a tree in every state of a run exactly when no creation lacks a block
for its entry and no removed directory has entries. -/
theorem namespace_tree_iff {w : World} {buffer : Block} (formattable : Formattable w buffer)
    (inodeJunk blockJunk : Bytes) (calls : List Call)
    (reachable : Admitted step CallReachable (fsInit inodeJunk blockJunk w).2 calls) :
    Always step NamespaceTree (fsInit inodeJunk blockJunk w).2 calls ↔
      Admitted step CallLinked (fsInit inodeJunk blockJunk w).2 calls :=
  always_iff_admitted_of
    (fun w call settled reachable => settled_step w call settled (callInUse_of_reachable settled reachable))
    (fun _ _ settled tree reachable => tree_step_iff settled tree reachable)
    (settled_format formattable inodeJunk blockJunk)
    (namespaceTree_format formattable inodeJunk blockJunk) reachable

theorem namespace_tree_iff_brief_file :
    Always step NamespaceTree (fsInit (fun _ => 0) (fun _ => 0) blankWorld).2 briefFile ↔
      Admitted step CallLinked (fsInit (fun _ => 0) (fun _ => 0) blankWorld).2 briefFile := by
  obtain ⟨k, j, up⟩ := newFile_carries.named rfl
    (rfl : (Catalog.fresh.bind 1#32 nameA 2#32 fsInodeTypeFile).entry 1#32 nameA = some 2#32)
  exact namespace_tree_iff blankWorld_formattable (fun _ => 0) (fun _ => 0) briefFile
    ⟨⟨.root, .inl rfl⟩, ⟨.entry .root up, trivial⟩, ⟨.root, trivial⟩, trivial⟩

/-! A directory removed with a file in it. -/

def makeDirA : Call := .create 1#32 nameA fsInodeTypeDir fun _ => 0#8
def makeFileB : Call := .create 2#32 nameB fsInodeTypeFile fun _ => 0#8

theorem makeDirA_updates {v : Volume} (fresh : Fresh v) :
    ∃ b r, v.perform makeDirA = ((2, []), Volume.claim 1 fsInodeTypeDir ++
      [.blockBit 7 true, .block 8#32 b, .inode 1#32 r]) :=
  ⟨_, _, fresh_create fresh (by decide) fsInodeTypeDir fun _ => 0#8⟩

theorem makeDirA_clear {v : Volume} (fresh : Fresh v) : (v.step makeDirA).bbit 8 = false := by
  obtain ⟨b, r, updates⟩ := makeDirA_updates fresh
  rw [Volume.step, updates]
  change (v.applyAll (Volume.claim 1 fsInodeTypeDir ++ _)).bbit 8 = false
  rw [Volume.applyAll_append, Volume.applyAll_cons, Volume.applyAll_cons, Volume.applyAll_cons,
    Volume.applyAll_nil, Volume.bbit_inode, Volume.bbit_block, Volume.bbit_blockBit (by decide)]
  exact fresh.blocks 8 (by decide)

/-- Removing a directory leaves the file in it behind. -/
theorem removed_directory_leaves_orphan :
    ¬ ∀ calls, Admitted step CallReachable (fsInit (fun _ => 0) (fun _ => 0) blankWorld).2 calls →
      Always step NamespaceTree (fsInit (fun _ => 0) (fun _ => 0) blankWorld).2 calls := by
  intro always
  obtain ⟨v0, l, shows0, fresh, _⟩ := fsInit_formats blankWorld_formattable (fun _ => 0) (fun _ => 0)
  have carries0 := carries_format blankWorld_formattable (fun _ => 0) (fun _ => 0)
  set w0 := (fsInit (fun _ => 0) (fun _ => 0) blankWorld).2
  obtain ⟨b, r, updates⟩ := makeDirA_updates fresh
  -- the first call makes directory 2
  have free0 : ¬ Catalog.fresh.Refuses 1#32 nameA := by
    have unused : (2#32 : BitVec 32) ∉ Catalog.fresh.inodes := fun two =>
      absurd (Set.mem_singleton_iff.mp two) (by decide)
    exact Catalog.not_refuses (by decide) rfl rfl (by rw [ValidId]; decide) unused
  have room0 := shows0.roomFor_of_clear (by decide) (fresh.blocks 7 (by decide)) 1#32
  obtain ⟨id, _, number, carries1⟩ := carries0.create free0 room0 (fun _ => 0#8) (.inr rfl)
  obtain rfl : id = 2#32 := by
    have result : (makeDirA.perform w0).1 = (2, []) := by rw [shows0.result, updates]
    have number : (makeDirA.perform w0).1.1 = (id.toNat : Int) := number
    rw [result] at number
    have : (2 : Int) = (id.toNat : Int) := number
    exact BitVec.eq_of_toNat_eq (by change id.toNat = 2; omega)
  set c1 := Catalog.fresh.bind 1#32 nameA 2#32 fsInodeTypeDir
  set w1 := step w0 makeDirA
  have carries1 : Carries w1 c1 := carries1
  have root1 : (1#32 : BitVec 32) ∈ c1.directories := .inr rfl
  have dir1 : (2#32 : BitVec 32) ∈ c1.directories := .inl rfl
  -- the second call puts a file into it
  have free1 : ¬ c1.Refuses 2#32 nameB := by
    have unused : (3#32 : BitVec 32) ∉ c1.inodes := by
      rintro (two | one)
      · exact absurd two (by decide)
      · exact absurd (Set.mem_singleton_iff.mp one) (by decide)
    exact Catalog.not_refuses (by decide) dir1 rfl (by rw [ValidId]; decide) unused
  have room1 := (shows0.step makeDirA).roomFor_of_clear (by decide) (makeDirA_clear fresh) 2#32
  obtain ⟨file, _, _, carries2⟩ := carries1.create free1 room1 (fun _ => 0#8) (.inl rfl)
  set c2 := c1.bind 2#32 nameB file fsInodeTypeFile
  set w2 := step w1 makeFileB
  have carries2 : Carries w2 c2 := carries2
  -- the third call removes it
  obtain ⟨k, j, up⟩ := carries1.named root1 (rfl : c1.entry 1#32 nameA = some 2#32)
  have visited := always [makeDirA, makeFileB, removeA]
    ⟨⟨.root, .inr rfl⟩, ⟨.entry .root up, .inl rfl⟩, ⟨.root, trivial⟩, trivial⟩
  have fromRoot : CallReachable w2 removeA := ⟨.root, trivial⟩
  have linked : CallLinked w2 removeA :=
    (tree_step_iff carries2.settled visited.2.2.1 fromRoot).mp visited.2.2.2
  have target : (fsLookup 1#32 nameA w2).1 = 2#32 := by
    have root2 : InodeInUse w2 1#32 := ((carries2.represents.directories 1#32).mp root1).1
    rw [carries2.lookup root2]
    rfl
  obtain ⟨k, j, below⟩ := carries2.named (.inl rfl) (rfl : c2.entry 2#32 nameB = some file)
  have linked : (fsLookup 1#32 nameA w2).1 ≠ 0#32 → ∀ k j id, ¬ NamedIn w2 (fsLookup 1#32 nameA w2).1 k j id :=
    linked
  rw [target] at linked
  exact linked (by decide) k j file below

end AstralOS.Fs
