import AstralOS.Fs.Consistency
import AstralOS.Foundation.Runs

/-! Every call on a live inode keeps the invariant, in every state between two of its
block writes as well as at its end. -/
namespace AstralOS.Fs
open Foundation AstralOS.Lib

/-- Some set of inodes is live and consistent. -/
def Sound (v : Volume) : Prop := ∃ b, Consistent b v

/-- The volume is sound before, between and after the updates, and ends as `b` says. -/
structure Track (v : Volume) (us : List Update) (b : Ledger) : Prop where
  always : Always Volume.apply Sound v us
  final : Consistent b (v.applyAll us)

section
variable {v : Volume} {live : Set (BitVec 32)} {blocks : Set BlockNum} {inodes : Set (BitVec 32)}
  {b b' : Ledger} {us vs : List Update} {u : Update}

theorem Track.nil (c : Consistent b v) : Track v [] b := ⟨⟨b, c⟩, c⟩

theorem Track.cons (c : Consistent b v) (rest : Track (v.apply u) us b') : Track v (u :: us) b' :=
  ⟨⟨⟨b, c⟩, rest.always⟩, rest.final⟩

theorem Track.append (first : Track v us b) (second : Track (v.applyAll us) vs b') :
    Track v (us ++ vs) b' := by
  refine ⟨?_, ?_⟩
  · have := first.always
    induction us generalizing v with
    | nil => exact second.always
    | cons u rest ih => exact ⟨this.1, ih ⟨this.2, first.final⟩ second this.2⟩
  · rw [Volume.applyAll_append]
    exact second.final

/-! Where names are found. -/

theorem find_some {dir : Inode} {name : CString} {is : List (Fin 10)} {i : Fin 10} {j : Nat}
    (found : v.find dir name is = some (i, j)) :
    i ∈ is ∧ dir.directBlocks i ≠ 0#32 ∧ j < entriesPerBlock ∧
      Names (v.disk (dir.directBlocks i)) j name := by
  induction is with
  | nil => cases found
  | cons k rest ih =>
      rw [Volume.find] at found
      split at found
      · have := ih found
        exact ⟨List.mem_cons_of_mem k this.1, this.2⟩
      · rename_i used
        split at found
        · rename_i slot eq
          obtain ⟨rfl, rfl⟩ := Prod.mk.inj (Option.some.inj found)
          obtain ⟨inside, names, _⟩ := findEntry_eq_some.mp eq
          exact ⟨List.mem_cons_self, used, inside, names⟩
        · have := ih found
          exact ⟨List.mem_cons_of_mem k this.1, this.2⟩

theorem find_none {dir : Inode} {name : CString} {is : List (Fin 10)} :
    v.find dir name is = none ↔ ∀ i ∈ is, dir.directBlocks i ≠ 0#32 →
      ∀ j < entriesPerBlock, ¬ Names (v.disk (dir.directBlocks i)) j name := by
  induction is with
  | nil => simp [Volume.find]
  | cons k rest ih =>
      rw [Volume.find, List.forall_mem_cons]
      by_cases unused : dir.directBlocks k = 0#32
      · rw [if_pos unused, ih]
        exact ⟨fun h => ⟨fun used => absurd unused used, h⟩, fun h => h.2⟩
      · rw [if_neg unused]
        cases eq : findEntry (v.disk (dir.directBlocks k)) name with
        | none =>
            rw [findEntry_eq_none] at eq
            exact ih.trans ⟨fun h => ⟨fun _ => eq, h⟩, fun h => h.2⟩
        | some j =>
            obtain ⟨inside, names, _⟩ := findEntry_eq_some.mp eq
            refine iff_of_false (Option.some_ne_none _) fun h => ?_
            exact h.1 unused j inside names

theorem lookup_of_find {parentId : BitVec 32} {name : CString} {dir : Inode} {k : Fin 10} {j : Nat}
    (short : ¬ fsMaxFilenameLen < strlen name) (opened : v.openAs isDir parentId = some dir)
    (found : v.find dir name indices = some (k, j)) :
    v.lookup parentId name = entryId (v.disk (dir.directBlocks k)) j := by
  rw [Volume.lookup, if_neg short, opened]
  dsimp only
  rw [found]

theorem mem_indices (i : Fin 10) : i ∈ indices := List.mem_finRange i

/-- The volume after the updates that put an entry into a directory, and how they came about. -/
theorem insert_cases (v : Volume) (parentId : BitVec 32) (entry : Bytes) (dir : Inode)
    (is : List (Fin 10)) :
    v.insert parentId entry dir is = [] ∨
    (∃ i b, dir.directBlocks i = 0#32 ∧ v.unusedBlock = some b ∧
      v.insert parentId entry dir is =
        [.blockBit b true, .block (BitVec.ofNat 32 (b + 1)) (putEntry Block.zero 0 entry),
          .inode parentId (Volume.grow (dir.setDirect i (BitVec.ofNat 32 (b + 1))))]) ∨
    ∃ i j, dir.directBlocks i ≠ 0#32 ∧ freeEntry (v.disk (dir.directBlocks i)) = some j ∧
      v.insert parentId entry dir is =
        [.block (dir.directBlocks i) (putEntry (v.disk (dir.directBlocks i)) j entry),
          .inode parentId (Volume.grow dir)] := by
  induction is with
  | nil => exact .inl rfl
  | cons i rest ih =>
      rw [Volume.insert]
      by_cases unused : dir.directBlocks i = 0#32
      · rw [if_pos unused]
        cases found : v.unusedBlock with
        | none => exact .inl rfl
        | some b => exact .inr (.inl ⟨i, b, unused, rfl, rfl⟩)
      · rw [if_neg unused]
        cases eq : freeEntry (v.disk (dir.directBlocks i)) with
        | some j => exact .inr (.inr ⟨i, j, unused, eq, rfl⟩)
        | none => exact ih

/-- Block `k` of the directory is there and has no unused entry. -/
def Occupied (v : Volume) (dir : Inode) (k : Fin 10) : Prop :=
  dir.directBlocks k ≠ 0#32 ∧ freeEntry (v.disk (dir.directBlocks k)) = none

theorem insert_past (parentId : BitVec 32) (entry : Bytes) {dir : Inode} {before : List (Fin 10)}
    (rest : List (Fin 10)) (full : ∀ k ∈ before, Occupied v dir k) :
    v.insert parentId entry dir (before ++ rest) = v.insert parentId entry dir rest := by
  induction before with
  | nil => rfl
  | cons k before ih =>
      obtain ⟨⟨used, occupied⟩, later⟩ := List.forall_mem_cons.mp full
      rw [List.cons_append, Volume.insert, if_neg used, occupied]
      exact ih later

/-- The search for an unused entry gets to the first block that has one. -/
theorem insert_at (parentId : BitVec 32) (entry : Bytes) {dir : Inode} {k : Fin 10}
    (full : ∀ k' < k, Occupied v dir k') :
    ∃ rest, v.insert parentId entry dir indices = v.insert parentId entry dir (k :: rest) := by
  obtain ⟨before, rest, split⟩ := List.append_of_mem (mem_indices k)
  have sorted : (before ++ k :: rest).Pairwise (· < ·) := split ▸ List.pairwise_lt_finRange 10
  refine ⟨rest, ?_⟩
  rw [split, insert_past parentId entry (k :: rest) fun k' earlier =>
    full k' ((List.pairwise_append.mp sorted).2.2 k' earlier k List.mem_cons_self)]

/-- Without a block for the first unused place nothing is stored. -/
theorem insert_without_block (parentId : BitVec 32) (entry : Bytes) {dir : Inode} {k : Fin 10}
    (vacant : dir.directBlocks k = 0#32) (full : ∀ k' < k, Occupied v dir k')
    (none_ : v.unusedBlock = none) : v.insert parentId entry dir indices = [] := by
  obtain ⟨rest, start⟩ := insert_at parentId entry full
  rw [start, Volume.insert, if_pos vacant, none_]

theorem first_spare {dir : Inode} (spare : ∃ k, ¬ Occupied v dir k) :
    ∃ k, ¬ Occupied v dir k ∧ ∀ k' < k, Occupied v dir k' := by
  obtain ⟨k, free⟩ := spare
  by_contra none_
  exact free (WellFoundedLT.induction k fun k' below =>
    not_not.mp fun free' => none_ ⟨k', free', below⟩)

/-! Creation. -/

/-- A claimed inode is live from now on, and nothing names it yet. -/
theorem grow_claimed {id : BitVec 32} {type : BitVec 16}
    (c : Consistent ⟨live, blocks, insert id inodes⟩ v) (valid : ValidId id) (dead : id ∉ live)
    (marked : v.ibit (id.toNat - 1) = true) (record : v.inode id = newInode id type)
    (kind : type = fsInodeTypeFile ∨ type = fsInodeTypeDir) :
    Consistent ⟨insert id live, blocks, inodes⟩ v ∧ Unnamed v (insert id live) id ∧ id ≠ 1#32 := by
  have empty : ∀ k, (v.inode id).directBlocks k = 0#32 := fun k => by rw [record]; rfl
  have grown := consistent_grow c valid marked (by rw [record]; exact kind) empty
  refine ⟨grown.weaken subset_rfl ?_, ?_, ?_⟩
  · rintro x ⟨rfl | stray, other⟩
    · exact absurd rfl other
    · exact stray
  · rintro d (rfl | member) k j held
    · exact held.used (empty k)
    · exact dead (c.names d member k j id held).1
  · rintro rfl
    exact dead c.root

theorem track_claim (c : Consistent ⟨live, blocks, inodes⟩ v) {i : Nat}
    (found : v.unusedInode = some i) (type : BitVec 16) :
    Track v (Volume.claim i type) ⟨live, blocks, insert (BitVec.ofNat 32 (i + 1)) inodes⟩ := by
  have small := (Volume.unusedInode_some found).1
  have marked := consistent_markInode c small
  exact .cons c (.cons marked (.nil (consistent_putInode_dead marked (ofNat_valid small)
    (c.fresh_inode found) _)))

/-- What the volume holds once an inode was claimed. -/
theorem claim_reads {i : Nat} (small : i < 128) (type : BitVec 16) :
    let id := BitVec.ofNat 32 (i + 1)
    (v.applyAll (Volume.claim i type)).inode id = newInode id type ∧
    (∀ other, ValidId other → other ≠ id →
      (v.applyAll (Volume.claim i type)).inode other = v.inode other) ∧
    (∀ j, (v.applyAll (Volume.claim i type)).ibit j = if i = j then true else v.ibit j) ∧
    (∀ j, (v.applyAll (Volume.claim i type)).bbit j = v.bbit j) ∧
    ∀ n : BlockNum, 6 ≤ n.toNat → (v.applyAll (Volume.claim i type)).disk n = v.disk n := by
  intro id
  have valid : ValidId id := ofNat_valid small
  have unfolded : v.applyAll (Volume.claim i type) =
      (v.apply (.inodeBit i true)).apply (.inode id (newInode id type)) := rfl
  rw [unfolded]
  refine ⟨Volume.inode_inode_same valid, fun other validOther apart => ?_, fun j => ?_,
    fun j => ?_, fun n data => ?_⟩
  · rw [Volume.inode_inode_other valid validOther apart.symm, Volume.inode_inodeBit validOther]
  · rw [Volume.ibit_inode, Volume.ibit_inodeBit (by omega)]
  · rw [Volume.bbit_inode, Volume.bbit_inodeBit]
  · rw [Volume.disk_inode valid data, Volume.disk_inodeBit (by omega)]

/-- The new block becomes the directory's only once it holds the entry. -/
theorem track_insert_block {id parentId : BitVec 32} {type : BitVec 16} {k : Fin 10} {n : Nat}
    {entry : Bytes} (claimed : Consistent ⟨live, blocks, insert id inodes⟩ v)
    (member : parentId ∈ live) (valid : ValidId id) (dead : id ∉ live)
    (bit : v.ibit (id.toNat - 1) = true) (record : v.inode id = newInode id type)
    (kind : type = fsInodeTypeFile ∨ type = fsInodeTypeDir) (number : le 32 4 entry = id)
    (vacant : (v.inode parentId).directBlocks k = 0#32) (free : v.unusedBlock = some n) :
    Track v [.blockBit n true, .block (BitVec.ofNat 32 (n + 1)) (putEntry Block.zero 0 entry),
      .inode parentId (Volume.grow ((v.inode parentId).setDirect k (BitVec.ofNat 32 (n + 1))))]
      ⟨insert id live, blocks, inodes⟩ := by
  have nonzero : id ≠ 0#32 := by
    rintro rfl
    exact absurd valid.1 (by decide)
  obtain ⟨low, high, unowned⟩ := claimed.fresh_block free
  have nNumber : (BitVec.ofNat 32 (n + 1)).toNat = n + 1 := ofNat_succ_toNat (by omega)
  have grown := (grow_claimed claimed valid dead bit record kind).1
  have c3 := consistent_markBlock claimed high
  have noDir : ∀ d ∈ live, isDir ((v.apply (.blockBit n true)).inode d) →
      ∀ k, ((v.apply (.blockBit n true)).inode d).directBlocks k ≠ BitVec.ofNat 32 (n + 1) := by
    intro d memberD _ k same
    rw [Volume.inode_blockBit (claimed.valid d memberD)] at same
    exact unowned ⟨d, memberD, k, same⟩
  have c4 := consistent_putBlock c3 (by omega) noDir (putEntry Block.zero 0 entry)
  set v3 := v.apply (.blockBit n true)
  set v4 := v3.apply (.block (BitVec.ofNat 32 (n + 1)) (putEntry Block.zero 0 entry))
  have read : ∀ x, ValidId x → v4.inode x = v.inode x := fun x validX =>
    (Volume.inode_block validX (by omega)).trans (Volume.inode_blockBit validX)
  obtain ⟨grown4, unnamed4, notRoot⟩ :=
    grow_claimed c4 valid dead bit ((read id valid).trans record) kind
  have entryOf : ∀ j, entryId (v4.disk (BitVec.ofNat 32 (n + 1))) j = if j = 0 then id else 0#32 := by
    intro j
    rw [Volume.disk_block]
    by_cases first : j = 0
    · subst first
      rw [if_pos rfl, entryId_put_same _ _ (by decide), number]
    · rw [if_neg first, entryId_put_other _ _ (Ne.symm first), entryId_zero]
  have parent := read parentId (claimed.valid parentId member)
  have unowned4 : ¬ Owned v4 (insert id live) (BitVec.ofNat 32 (n + 1)) := by
    rintro ⟨x, rfl | memberX, k', eq⟩
    · rw [read _ valid, record] at eq
      exact ofNat_succ_ne_zero high eq.symm
    · rw [read x (claimed.valid x memberX)] at eq
      exact unowned ⟨x, memberX, k', eq⟩
  have set4 : v4.bbit ((BitVec.ofNat 32 (n + 1)).toNat - 1) = true := by
    rw [nNumber, Nat.add_sub_cancel]
    change v3.bbit n = true
    rw [Volume.bbit_blockBit (by omega), if_pos rfl]
  have adopted := consistent_adopt (k := k) grown4 (.inr member)
    (r := Volume.grow ((v.inode parentId).setDirect k (BitVec.ofNat 32 (n + 1))))
    (by rw [parent]; exact vacant) (by rw [parent]; rfl) (by rw [parent]; rfl)
    (by omega) (by omega) set4 unowned4 (by
      intro _ j inside nonzeroJ
      rw [entryOf] at nonzeroJ ⊢
      split at nonzeroJ
      · rename_i first
        rw [if_pos first]
        refine ⟨.inl rfl, notRoot, unnamed4, fun j' _ same => ?_⟩
        rw [entryOf] at same
        by_contra other
        rw [if_neg (fun h => other (h.trans first.symm))] at same
        exact nonzero same.symm
      · exact absurd rfl nonzeroJ)
  refine .cons grown (.cons c3 (.cons c4 (.nil (adopted.weaken ?_ subset_rfl))))
  rintro x ⟨rfl | stray, other⟩
  · exact absurd rfl other
  · exact stray

/-- The entry names the new inode, which is live before the parent's record is written. -/
theorem track_insert_slot {id parentId : BitVec 32} {type : BitVec 16} {k : Fin 10} {j : Nat}
    {entry : Bytes} (claimed : Consistent ⟨live, blocks, insert id inodes⟩ v)
    (member : parentId ∈ live) (dir : isDir (v.inode parentId)) (valid : ValidId id) (dead : id ∉ live)
    (bit : v.ibit (id.toNat - 1) = true) (record : v.inode id = newInode id type)
    (kind : type = fsInodeTypeFile ∨ type = fsInodeTypeDir) (number : le 32 4 entry = id)
    (used : (v.inode parentId).directBlocks k ≠ 0#32)
    (slot : freeEntry (v.disk ((v.inode parentId).directBlocks k)) = some j) :
    Track v [.block ((v.inode parentId).directBlocks k)
        (putEntry (v.disk ((v.inode parentId).directBlocks k)) j entry),
      .inode parentId (Volume.grow (v.inode parentId))] ⟨insert id live, blocks, inodes⟩ := by
  obtain ⟨grown, unnamed, notRoot⟩ := grow_claimed claimed valid dead bit record kind
  have range := (grown.range parentId (.inr member) k used).1
  obtain ⟨inside, _, _⟩ := freeEntry_eq_some.mp slot
  have named : entryId (putEntry (v.disk ((v.inode parentId).directBlocks k)) j entry) j = id := by
    rw [entryId_put_same _ _ inside, number]
  have stored := consistent_putEntry grown (.inr member) dir used (j := j)
    (x := putEntry (v.disk ((v.inode parentId).directBlocks k)) j entry)
    (fun j' other => entryId_put_other _ _ (Ne.symm other))
    (.inr (by rw [named]; exact ⟨.inl rfl, notRoot, unnamed⟩))
  have parent : (v.apply (.block ((v.inode parentId).directBlocks k)
      (putEntry (v.disk ((v.inode parentId).directBlocks k)) j entry))).inode parentId =
      v.inode parentId := Volume.inode_block (grown.valid parentId (.inr member)) (by omega)
  have written := consistent_putInode_same stored (.inr member)
    (r := Volume.grow (v.inode parentId)) (by rw [parent]; rfl) (by rw [parent]; rfl)
  exact .cons grown (.cons stored (.nil written))

theorem track_create (c : Consistent ⟨live, blocks, inodes⟩ v) {parentId : BitVec 32}
    (member : parentId ∈ live) (name : CString) {type : BitVec 16}
    (kind : type = fsInodeTypeFile ∨ type = fsInodeTypeDir) (padding : Bytes) :
    ∃ live', Track v (v.create parentId name type padding).2 ⟨live', blocks, inodes⟩ ∧
      ((v.create parentId name type padding).1 = 0#32 → live' = live) ∧
      ((v.create parentId name type padding).1 ≠ 0#32 →
        live' = insert (v.create parentId name type padding).1 live) := by
  have refused : ∃ live', Track v (0#32, ([] : List Update)).2 ⟨live', blocks, inodes⟩ ∧
      ((0#32, ([] : List Update)).1 = 0#32 → live' = live) ∧
      ((0#32, ([] : List Update)).1 ≠ 0#32 → live' = insert (0#32) live) :=
    ⟨live, .nil c, fun _ => rfl, fun nonzero => absurd rfl nonzero⟩
  rw [Volume.create]
  by_cases long : fsMaxFilenameLen < strlen name
  · rw [if_pos long]
    exact refused
  rw [if_neg long]
  cases opened : v.openAs isDir parentId with
  | none => exact refused
  | some dir =>
      obtain ⟨_, isDirectory, rfl⟩ := Volume.openAs_valid opened
      dsimp only
      by_cases bound : v.lookup parentId name ≠ 0#32
      · rw [if_pos bound]
        exact refused
      rw [if_neg bound]
      cases found : v.unusedInode with
      | none => exact refused
      | some i =>
          have small := (Volume.unusedInode_some found).1
          have dead := c.fresh_inode found
          have claimed := track_claim c found type
          obtain ⟨record, others, marked, _, _⟩ := claim_reads (v := v) small type
          have parent := others parentId (c.valid parentId member) (by rintro rfl; exact dead member)
          dsimp only
          rw [← parent] at isDirectory ⊢
          set id := BitVec.ofNat 32 (i + 1) with idEq
          set v2 := v.applyAll (Volume.claim i type)
          have valid : ValidId id := ofNat_valid small
          have bit : v2.ibit (id.toNat - 1) = true := by
            rw [marked, idEq, ofNat_succ_toNat (by omega), Nat.add_sub_cancel, if_pos rfl]
          have number := newEntry_id id name padding
          have inserted : Track v2 (v2.insert parentId (newEntry id name padding) (v2.inode parentId)
              indices) ⟨insert id live, blocks, inodes⟩ := by
            rcases insert_cases v2 parentId (newEntry id name padding) (v2.inode parentId) indices with
              none_ | ⟨k, n, vacant, free, updates⟩ | ⟨k, j, used, slot, updates⟩
            · rw [none_]
              exact .nil (grow_claimed claimed.final valid dead bit record kind).1
            · rw [updates]
              exact track_insert_block claimed.final member valid dead bit record kind number vacant free
            · rw [updates]
              exact track_insert_slot claimed.final member isDirectory valid dead bit record kind number
                used slot
          exact ⟨insert id live, claimed.append inserted,
            fun zero => absurd zero (ofNat_succ_ne_zero (by omega)), fun _ => rfl⟩

/-! Removal. -/

theorem entryId_clear (x : Block) {j : Nat} (inside : j < entriesPerBlock) (j' : Nat) :
    entryId (clearEntry x j) j' = if j' = j then 0#32 else entryId x j' := by
  by_cases same : j' = j
  · subst same
    rw [if_pos rfl, entryId_clear_same x inside]
  · rw [if_neg same]
    exact entryId_put_other x _ (Ne.symm same)

/-- Clearing the only entry with a number leaves it without a name. -/
theorem unnamed_cleared (c : Consistent b v) {d id : BitVec 32} (member : d ∈ b.live) {k : Fin 10}
    {j : Nat} (held : Holds v d k j id) :
    Unnamed (v.apply (.block ((v.inode d).directBlocks k)
      (clearEntry (v.disk ((v.inode d).directBlocks k)) j))) b.live id := by
  rintro d' member' k' j' ⟨dir, used, slot, entry, nonzero⟩
  have low := (c.range d member k held.used).1
  rw [Volume.inode_block (c.valid d' member') (by omega)] at dir used entry
  by_cases same : (v.inode d').directBlocks k' = (v.inode d).directBlocks k
  · obtain ⟨rfl, rfl⟩ := c.single d' member' d member k' k used same
    rw [Volume.disk_block, entryId_clear _ held.slot] at entry
    split at entry
    · exact nonzero entry.symm
    · rename_i other
      exact other (c.once d' member d' member k' k' j' j id ⟨dir, used, slot, entry, nonzero⟩ held).2.2
  · rw [Volume.disk_block_other same] at entry
    obtain ⟨rfl, rfl, _⟩ := c.once d' member' d member k' k j' j id
      ⟨dir, used, slot, entry, nonzero⟩ held
    exact same rfl

theorem owned_blockBit (c : Consistent b v) {i : Nat} {set : Bool} {n : BlockNum} :
    Owned (v.apply (.blockBit i set)) b.live n ↔ Owned v b.live n := by
  constructor
  · rintro ⟨id, member, k, eq⟩
    exact ⟨id, member, k, by rwa [Volume.inode_blockBit (c.valid id member)] at eq⟩
  · rintro ⟨id, member, k, eq⟩
    exact ⟨id, member, k, by rwa [Volume.inode_blockBit (c.valid id member)]⟩

theorem toNat_pred_block {n : BlockNum} (low : 8 ≤ n.toNat) : (n - 1#32).toNat = n.toNat - 1 := by
  have := n.isLt
  rw [BitVec.toNat_sub]
  change (2 ^ 32 - 1 + n.toNat) % 2 ^ 32 = _
  omega

/-- The loop that frees the blocks of an inode that is not live. -/
theorem track_release (target : Inode)
    (private_ : ∀ k, target.directBlocks k ≠ 0#32 → 8 ≤ (target.directBlocks k).toNat ∧
      (target.directBlocks k).toNat ≤ 1024)
    (is : List (Fin 10)) (c : Consistent ⟨live, blocks, inodes⟩ v)
    (unowned : ∀ k, target.directBlocks k ≠ 0#32 → ¬ Owned v live (target.directBlocks k)) :
    Track v (Volume.release target is)
      ⟨live, blocks \ {n | n ≠ 0#32 ∧ ∃ k ∈ is, target.directBlocks k = n}, inodes⟩ := by
  induction is generalizing v blocks with
  | nil =>
      refine .nil (c.weaken ?_ subset_rfl)
      refine fun n stray => ⟨stray, ?_⟩
      rintro ⟨_, k, member, _⟩
      exact absurd member List.not_mem_nil
  | cons k rest ih =>
      rw [Volume.release]
      by_cases unused : target.directBlocks k = 0#32
      · rw [if_pos (.inl unused)]
        have tail := ih c unowned
        refine ⟨tail.always, tail.final.weaken ?_ subset_rfl⟩
        rintro n ⟨stray, other⟩
        refine ⟨stray, ?_⟩
        rintro ⟨nonzero, k', member, eq⟩
        rcases List.mem_cons.mp member with rfl | later
        · exact nonzero (eq.symm.trans unused)
        · exact other ⟨nonzero, k', later, eq⟩
      · obtain ⟨low, high⟩ := private_ k unused
        have inside : ¬ (target.directBlocks k = 0#32 ∨ 1024#32 < target.directBlocks k) := by
          rintro (zero | large)
          · exact unused zero
          · exact absurd (BitVec.lt_def.mp large) (Nat.not_lt.mpr high)
        rw [if_neg inside, toNat_pred_block low]
        have cleared := consistent_clearBlock c low high (unowned k unused)
        have tail := ih cleared fun k' used owned =>
          unowned k' used ((owned_blockBit c).mp owned)
        refine .cons c ⟨tail.always, tail.final.weaken ?_ subset_rfl⟩
        rintro n ⟨⟨stray, notFirst⟩, other⟩
        refine ⟨stray, ?_⟩
        rintro ⟨nonzero, k', member, eq⟩
        rcases List.mem_cons.mp member with rfl | later
        · exact notFirst eq.symm
        · exact other ⟨nonzero, k', later, eq⟩

/-- Where the first entry with a name is, a live directory holds its number. -/
theorem holds_of_find {d : BitVec 32} {name : CString} {i : Fin 10} {j : Nat}
    (dir : isDir (v.inode d)) (found : v.find (v.inode d) name indices = some (i, j)) :
    Holds v d i j (entryId (v.disk ((v.inode d).directBlocks i)) j) :=
  have ⟨_, used, slot, names⟩ := find_some found
  ⟨dir, used, slot, rfl, names.1⟩

/-- The updates of a removal up to the point where the target is nobody's any more. -/
theorem track_unlink (c : Consistent ⟨live, blocks, inodes⟩ v) {d id : BitVec 32} (member : d ∈ live)
    {k : Fin 10} {j : Nat} (held : Holds v d k j id) :
    Track v (v.unlink d (v.inode d) k j) ⟨live \ {id},
      blocks ∪ {n | n ≠ 0#32 ∧ ∃ k, (v.inode id).directBlocks k = n}, insert id inodes⟩ ∧
      ((v.applyAll (v.unlink d (v.inode d) k j)).inode id).directBlocks = (v.inode id).directBlocks ∧
      ∀ x ∈ live, ((v.applyAll (v.unlink d (v.inode d) k j)).inode x).directBlocks =
        (v.inode x).directBlocks := by
  obtain ⟨memberId, notRoot⟩ := c.names d member k j id held
  have low := (c.range d member k held.used).1
  have validD := c.valid d member
  set x := clearEntry (v.disk ((v.inode d).directBlocks k)) j
  have cleared := consistent_putEntry c member held.dir held.used (j := j) (x := x)
    (fun j' other => entryId_put_other _ _ (Ne.symm other))
    (.inl (entryId_clear_same _ held.slot))
  set v1 := v.apply (.block ((v.inode d).directBlocks k) x)
  have read : ∀ y ∈ live, v1.inode y = v.inode y := fun y memberY =>
    Volume.inode_block (c.valid y memberY) (by omega)
  have shrunk := consistent_shrink cleared notRoot (unnamed_cleared c member held)
  rw [read id memberId] at shrunk
  have direct : ∀ y ∈ live, ((v1.apply (.inode d (Volume.shrink (v.inode d)))).inode y).directBlocks =
      (v.inode y).directBlocks := by
    intro y memberY
    rw [inode_putInode cleared member memberY]
    by_cases same : y = d
    · subst same
      rw [if_pos rfl]
      rfl
    · rw [if_neg same, read y memberY]
  have written : Consistent ⟨live \ {id},
      blocks ∪ {n | n ≠ 0#32 ∧ ∃ k, (v.inode id).directBlocks k = n}, insert id inodes⟩
      (v1.apply (.inode d (Volume.shrink (v.inode d)))) := by
    by_cases self : d = id
    · exact consistent_putInode_dead shrunk validD (fun still => still.2 self) _
    · exact consistent_putInode_same shrunk ⟨member, self⟩ (by rw [read d member]; rfl)
        (by rw [read d member]; rfl)
  exact ⟨.cons c (.cons shrunk (.nil written)), direct id memberId, direct⟩

/-- The updates that take an entry and the inode it names away. -/
def removal (v : Volume) (d : BitVec 32) (k : Fin 10) (j : Nat) (id : BitVec 32) : List Update :=
  v.unlink d (v.inode d) k j ++
    (Volume.release ((v.applyAll (v.unlink d (v.inode d) k j)).inode id) indices ++
      [.inodeBit (id.toNat - 1) false])

theorem track_removal (c : Consistent ⟨live, blocks, inodes⟩ v) {d id : BitVec 32} (member : d ∈ live)
    {k : Fin 10} {j : Nat} (held : Holds v d k j id) :
    Track v (removal v d k j id) ⟨live \ {id}, blocks, inodes⟩ := by
  obtain ⟨memberId, _⟩ := c.names d member k j id held
  have valid := c.valid id memberId
  obtain ⟨unlinked, target, direct⟩ := track_unlink c member held
  rw [removal]
  set v2 := v.applyAll (v.unlink d (v.inode d) k j)
  have freed := track_release (v2.inode id) (by
      rw [target]
      exact c.range id memberId) indices unlinked.final (by
      rw [target]
      rintro k' used ⟨y, ⟨memberY, other⟩, k'', eq⟩
      rw [direct y memberY] at eq
      exact other (c.single id memberId y memberY k' k'' used eq.symm).1.symm)
  have closed := consistent_clearInode freed.final valid (fun still => still.2 rfl)
  refine unlinked.append (freed.append (.cons freed.final (.nil (closed.weaken ?_ ?_))))
  · rintro n ⟨stray | ⟨nonzero, k', eq⟩, other⟩
    · exact stray
    · refine absurd ⟨nonzero, k', mem_indices k', ?_⟩ other
      rw [target]
      exact eq
  · rintro y ⟨rfl | stray, other⟩
    · exact absurd rfl other
    · exact stray

theorem delete_found (c : Consistent b v) {d : BitVec 32} (member : d ∈ b.live) {name : CString}
    (short : ¬ fsMaxFilenameLen < strlen name) (dir : isDir (v.inode d)) {k : Fin 10} {j : Nat}
    (found : v.find (v.inode d) name indices = some (k, j)) :
    v.delete d name =
      (0, removal v d k j (entryId (v.disk ((v.inode d).directBlocks k)) j)) := by
  have opened := Volume.openAs_some (c.valid d member) dir
  have valid := c.valid _ (c.names d member k j _ (holds_of_find dir found)).1
  rw [Volume.delete, if_neg short, opened]
  dsimp only
  rw [found]
  dsimp only
  rw [if_neg (validId_iff.mp valid), toNat_pred valid, removal]

theorem delete_missing {d : BitVec 32} {name : CString}
    (missing : isDir (v.inode d) → v.find (v.inode d) name indices = none) :
    v.delete d name = (-1, []) := by
  rw [Volume.delete]
  split
  · rfl
  · cases opened : v.openAs isDir d with
    | none => rfl
    | some dir =>
        obtain ⟨_, isDirectory, rfl⟩ := Volume.openAs_valid opened
        dsimp only
        rw [missing isDirectory]

theorem track_delete (c : Consistent ⟨live, blocks, inodes⟩ v) {parentId : BitVec 32}
    (member : parentId ∈ live) (name : CString) :
    ∃ live', Track v (v.delete parentId name).2 ⟨live', blocks, inodes⟩ := by
  by_cases long : fsMaxFilenameLen < strlen name
  · rw [Volume.delete, if_pos long]
    exact ⟨live, .nil c⟩
  by_cases dir : isDir (v.inode parentId)
  · cases found : v.find (v.inode parentId) name indices with
    | none =>
        rw [delete_missing fun _ => found]
        exact ⟨live, .nil c⟩
    | some place =>
        obtain ⟨k, j⟩ := place
        rw [delete_found c member long dir found]
        exact ⟨_, track_removal c member (holds_of_find dir found)⟩
  · rw [delete_missing fun isDirectory => absurd isDirectory dir]
    exact ⟨live, .nil c⟩

/-! Writing. -/

/-- The target of one iteration: a block of the file, allocated when it had none. -/
theorem track_target (c : Consistent ⟨live, blocks, inodes⟩ v) {id : BitVec 32} (member : id ∈ live)
    (file : isFile (v.inode id)) {k : Fin 10} {n : BlockNum} {owner : Inode} {us : List Update}
    (found : v.target id (v.inode id) k = some (n, owner, us)) :
    Track v us ⟨live, blocks, inodes⟩ ∧ (v.applyAll us).inode id = owner ∧
      owner.directBlocks k = n ∧ n ≠ 0#32 ∧ owner.type = (v.inode id).type := by
  have valid := c.valid id member
  rcases Volume.target_cases found with ⟨vacant, i, free, rfl, rfl, rfl⟩ | ⟨used, rfl, rfl, rfl⟩
  · obtain ⟨low, high, unowned⟩ := c.fresh_block free
    have number : (BitVec.ofNat 32 (i + 1)).toNat = i + 1 := ofNat_succ_toNat (by omega)
    have marked := consistent_markBlock c high
    have record : (v.apply (.blockBit i true)).inode id = v.inode id :=
      Volume.inode_blockBit valid
    have bit : (v.apply (.blockBit i true)).bbit ((BitVec.ofNat 32 (i + 1)).toNat - 1) = true := by
      rw [number, Nat.add_sub_cancel, Volume.bbit_blockBit (by omega), if_pos rfl]
    have adopted := consistent_adopt (k := k) marked member
      (r := (v.inode id).setDirect k (BitVec.ofNat 32 (i + 1)))
      (by rw [record]; exact vacant) (by rw [record]; rfl) (by rw [record]; rfl)
      (by omega) (by omega) bit (fun owned => unowned ((owned_blockBit c).mp owned))
      (fun dir => absurd dir (c.not_dir member file))
    refine ⟨.cons c (.cons marked (.nil (adopted.weaken ?_ subset_rfl))),
      Volume.inode_inode_same valid, Function.update_self _ _ _, ofNat_succ_ne_zero high, rfl⟩
    rintro x ⟨rfl | stray, other⟩
    · exact absurd rfl other
    · exact stray
  · exact ⟨.nil c, rfl, rfl, used, rfl⟩

/-- The target of one iteration is the file's block or one that nobody owned. -/
theorem target_frame (c : Consistent ⟨live, blocks, inodes⟩ v) {id : BitVec 32} (valid : ValidId id)
    {inode : Inode} {k : Fin 10} {n : BlockNum} {owner : Inode} {us : List Update}
    (found : v.target id inode k = some (n, owner, us)) :
    (∀ m : BlockNum, 6 ≤ m.toNat → (v.applyAll us).disk m = v.disk m) ∧
      (∀ other, ValidId other → other ≠ id → (v.applyAll us).inode other = v.inode other) ∧
      (∀ k', inode.directBlocks k' ≠ 0#32 → owner.directBlocks k' = inode.directBlocks k') ∧
      owner.type = inode.type ∧ (n = inode.directBlocks k ∨ ¬ Owned v live n) := by
  rcases Volume.target_cases found with ⟨vacant, b, free, rfl, rfl, rfl⟩ | ⟨_, rfl, rfl, rfl⟩
  · refine ⟨fun m data => ?_, fun other validOther apart => ?_, fun k' used => ?_,
      rfl, .inr (c.fresh_block free).2.2⟩
    · exact (Volume.disk_inode valid data).trans (Volume.disk_blockBit (by omega))
    · exact (Volume.inode_inode_other valid validOther (Ne.symm apart)).trans
        (Volume.inode_blockBit validOther)
    · refine Inode.setDirect_other _ _ ?_
      rintro rfl
      exact used vacant
  · exact ⟨fun _ _ => rfl, fun _ _ _ => rfl, fun _ _ => rfl, rfl, .inl rfl⟩

theorem isFile_congr {r r' : Inode} (same : r'.type = r.type) : isFile r' ↔ isFile r := by
  rw [isFile, isFile, same]

/-- The data update of one iteration goes to the file's own block. -/
theorem consistent_fill (c : Consistent ⟨live, blocks, inodes⟩ v) {id : BitVec 32} (member : id ∈ live)
    (file : isFile (v.inode id)) {k : Fin 10} (used : (v.inode id).directBlocks k ≠ 0#32)
    (x : Block) :
    Consistent ⟨live, blocks, inodes⟩ (v.apply (.block ((v.inode id).directBlocks k) x)) := by
  have low := (c.range id member k used).1
  refine consistent_putBlock c (by omega) (fun d memberD dir k' same => ?_) x
  have usedD : (v.inode d).directBlocks k' ≠ 0#32 := by rwa [same]
  obtain ⟨rfl, _⟩ := c.single d memberD id member k' k usedD same
  exact c.not_dir member file dir

/-- One iteration: the target, then the data; the file is the owner of the target. -/
theorem track_iteration (c : Consistent ⟨live, blocks, inodes⟩ v) {id : BitVec 32}
    (member : id ∈ live) (file : isFile (v.inode id)) {k : Fin 10} {n : BlockNum} {owner : Inode}
    {us : List Update} (found : v.target id (v.inode id) k = some (n, owner, us)) (x : Block) :
    Track v us ⟨live, blocks, inodes⟩ ∧
      Consistent ⟨live, blocks, inodes⟩ ((v.applyAll us).apply (.block n x)) ∧
      isFile (((v.applyAll us).apply (.block n x)).inode id) ∧
      ((v.applyAll us).apply (.block n x)).inode id = owner := by
  obtain ⟨targeted, record, rfl, nonzero, type⟩ := track_target c member file found
  have ownerFile : isFile owner := (isFile_congr type).mpr file
  rw [← record] at ownerFile nonzero
  have low := (targeted.final.range id member k nonzero).1
  have filled := consistent_fill targeted.final member ownerFile nonzero x
  rw [record] at filled low
  have same : ((v.applyAll us).apply (.block (owner.directBlocks k) x)).inode id = owner :=
    (Volume.inode_block (c.valid id member) (by omega)).trans record
  rw [record] at ownerFile
  exact ⟨targeted, filled, same.symm ▸ ownerFile, same⟩

theorem track_writeFrom {id : BitVec 32} (buffer : Bytes) (offset count : Nat) (inode : Inode)
    (done : Nat) (c : Consistent ⟨live, blocks, inodes⟩ v) (member : id ∈ live)
    (file : isFile (v.inode id)) (cached : v.inode id = inode) :
    Track v (v.writeFrom id buffer offset count inode done).2.2 ⟨live, blocks, inodes⟩ ∧
      (v.applyAll (v.writeFrom id buffer offset count inode done).2.2).inode id =
        (v.writeFrom id buffer offset count inode done).1 := by
  induction v, inode, done using Volume.writeFrom.induct id buffer offset count with
  | case1 v inode done more index full =>
      rw [Volume.writeFrom, dif_pos more, dif_pos index, full]
      exact ⟨.nil c, cached⟩
  | case2 v inode done more index n owner us found u ih =>
      subst cached
      rw [Volume.writeFrom, dif_pos more, dif_pos index, found]
      obtain ⟨targeted, filled, ownerFile, record⟩ := track_iteration c member file found
        (((v.applyAll us).disk n).patch (blockOffset offset done) (chunk offset count done)
          (buffer.drop done))
      obtain ⟨rest, last⟩ := ih filled ownerFile record
      refine ⟨targeted.append (.cons targeted.final rest), ?_⟩
      rw [Volume.applyAll_append]
      exact last
  | case3 v inode done more beyond =>
      rw [Volume.writeFrom, dif_pos more, dif_neg beyond]
      exact ⟨.nil c, cached⟩
  | case4 v inode done finished =>
      rw [Volume.writeFrom, dif_neg finished]
      exact ⟨.nil c, cached⟩

theorem track_write (c : Consistent ⟨live, blocks, inodes⟩ v) {id : BitVec 32} (member : id ∈ live)
    (offset : BitVec 64) (buffer : Bytes) (count : BitVec 64) :
    Track v (v.write id offset buffer count).2 ⟨live, blocks, inodes⟩ := by
  rw [Volume.write]
  cases opened : v.openAs isFile id with
  | none => exact .nil c
  | some inode =>
      obtain ⟨_, file, cached⟩ := Volume.openAs_valid opened
      rw [← cached] at file
      obtain ⟨written, record⟩ :=
        track_writeFrom buffer offset.toNat count.toNat inode 0 c member file cached
      dsimp only
      refine written.append ?_
      rw [Volume.extend]
      split
      · refine .cons written.final (.nil (consistent_putInode_same written.final member ?_ ?_))
        · rw [record]
        · rw [record]
      · exact .nil written.final

/-- The types the file system is used with. -/
def Call.Typed : Call → Prop
  | .create _ _ type _ => type = fsInodeTypeFile ∨ type = fsInodeTypeDir
  | _ => True

theorem track_perform (c : Consistent ⟨live, blocks, inodes⟩ v) (call : Call)
    (member : call.inode ∈ live) (typed : call.Typed) :
    ∃ live', Track v (v.perform call).2 ⟨live', blocks, inodes⟩ := by
  cases call with
  | create parentId name type padding =>
      obtain ⟨live', track, _⟩ := track_create c member name typed padding
      exact ⟨live', track⟩
  | delete parentId name => exact track_delete c member name
  | lookup parentId name => exact ⟨live, .nil c⟩
  | read id offset count => exact ⟨live, .nil c⟩
  | write id offset buffer count => exact ⟨live, track_write c member offset buffer count⟩

end
end AstralOS.Fs
