import AstralOS.Fs.Ownership
import AstralOS.Foundation.SlotTable

/-! Directories as tables: ten blocks of slots, each free or holding a name and an inode
number, and what the calls do to them. -/
namespace AstralOS.Fs
open Foundation AstralOS.Lib

abbrev Slot := Fin 10 × Fin 113

def slotEntry (b : Block) (j : Nat) : Option (CString × BitVec 32) :=
  if entryId b j = 0#32 then none
  else some (CString.ofField (fsMaxFilenameLen + 1) (entryName b j), entryId b j)

def slotTable (disk : BlockNum → Block) (dir : Inode) : SlotTable Slot CString (BitVec 32) := fun s =>
  if dir.directBlocks s.1 = 0#32 then none else slotEntry (disk (dir.directBlocks s.1)) s.2

def Volume.slots (v : Volume) (d : BitVec 32) : SlotTable Slot CString (BitVec 32) :=
  slotTable v.disk (v.inode d)

section Slots
variable {b : Block} {j j' : Nat} {name : CString} {id : BitVec 32} {dir dir' : Inode}
  {disk disk' : BlockNum → Block} {k : Fin 10} {n : BlockNum}

theorem slotEntry_eq_none : slotEntry b j = none ↔ entryId b j = 0#32 := by
  rw [slotEntry]
  split
  · rename_i zero
    exact iff_of_true rfl zero
  · rename_i used
    exact iff_of_false (fun h => nomatch h) used

theorem slotEntry_eq_some (short : strlen name ≤ fsMaxFilenameLen) :
    slotEntry b j = some (name, id) ↔ Names b j name ∧ entryId b j = id := by
  rw [slotEntry, Names, strcmp_eq_zero_iff_ofField (Nat.lt_succ_of_le short)]
  split
  · rename_i zero
    exact iff_of_false (fun h => nomatch h) fun h => h.1.1 zero
  · rename_i used
    rw [Option.some.injEq, Prod.mk.injEq]
    exact ⟨fun h => ⟨⟨used, h.1⟩, h.2⟩, fun h => ⟨h.1.2, h.2⟩⟩

theorem slotEntry_put_same (b : Block) (padding : Bytes) (inside : j < entriesPerBlock)
    (nonzero : id ≠ 0#32) (short : strlen name ≤ fsMaxFilenameLen) :
    slotEntry (putEntry b j (newEntry id name padding)) j = some (name, id) := by
  have number : entryId (putEntry b j (newEntry id name padding)) j = id := by
    rw [entryId_put_same _ _ inside, newEntry_id]
  refine (slotEntry_eq_some short).mpr ⟨⟨by rwa [number], strcmp_eq_zero.mpr fun i hi => ?_⟩, number⟩
  have low := hi.trans short
  rw [entryName_put_same _ _ inside (Nat.lt_of_le_of_lt low (by decide)), newEntry_name id padding short low]

theorem slotEntry_put_other (b : Block) (entry : Bytes) (other : j' ≠ j) :
    slotEntry (putEntry b j entry) j' = slotEntry b j' := by
  have field : CString.ofField (fsMaxFilenameLen + 1) (entryName (putEntry b j entry) j') =
      CString.ofField (fsMaxFilenameLen + 1) (entryName b j') :=
    CString.ofField_congr fun i hi =>
      entryName_put_other b entry (Ne.symm other) (Nat.lt_of_lt_of_le hi (by decide))
  rw [slotEntry, slotEntry, entryId_put_other b entry (Ne.symm other), field]

theorem slotEntry_clear_same (b : Block) (inside : j < entriesPerBlock) :
    slotEntry (clearEntry b j) j = none :=
  slotEntry_eq_none.mpr (entryId_clear_same b inside)

theorem slotEntry_zero (j : Nat) : slotEntry Block.zero j = none :=
  slotEntry_eq_none.mpr (entryId_zero j)

theorem slotTable_congr (direct : dir'.directBlocks = dir.directBlocks)
    (same : ∀ k, dir.directBlocks k ≠ 0#32 → disk' (dir.directBlocks k) = disk (dir.directBlocks k)) :
    slotTable disk' dir' = slotTable disk dir := by
  funext s
  rw [slotTable, slotTable, direct]
  by_cases vacant : dir.directBlocks s.1 = 0#32
  · rw [if_pos vacant, if_pos vacant]
  · rw [if_neg vacant, if_neg vacant, same s.1 vacant]

/-- One slot of one block rewritten. -/
theorem slotTable_put (disk : BlockNum → Block) (direct : dir'.directBlocks = dir.directBlocks)
    (used : dir.directBlocks k ≠ 0#32)
    (slot : Fin 113)
    (others : ∀ j' ≠ (slot : Nat), slotEntry (disk' (dir.directBlocks k)) j' =
      slotEntry (disk (dir.directBlocks k)) j')
    (same : ∀ k' ≠ k, dir.directBlocks k' ≠ 0#32 →
      disk' (dir.directBlocks k') = disk (dir.directBlocks k')) :
    slotTable disk' dir' = Function.update (slotTable disk dir) (k, slot)
      (slotEntry (disk' (dir.directBlocks k)) slot) := by
  funext s
  by_cases place : s = (k, slot)
  · subst place
    rw [Function.update_self, slotTable, direct, if_neg used]
  rw [Function.update_of_ne place, slotTable, slotTable, direct]
  by_cases vacant : dir.directBlocks s.1 = 0#32
  · rw [if_pos vacant, if_pos vacant]
  rw [if_neg vacant, if_neg vacant]
  by_cases block : s.1 = k
  · have apart : (s.2 : Nat) ≠ slot := fun eq => place (Prod.ext block (Fin.ext eq))
    rw [block]
    exact others s.2 apart
  · rw [same s.1 block vacant]

/-- A new block with one entry. -/
theorem slotTable_adopt (disk : BlockNum → Block) (vacant : dir.directBlocks k = 0#32) (used : n ≠ 0#32)
    (direct : dir'.directBlocks = Function.update dir.directBlocks k n)
    (others : ∀ j ≠ 0, slotEntry (disk' n) j = none)
    (same : ∀ k', dir.directBlocks k' ≠ 0#32 → disk' (dir.directBlocks k') = disk (dir.directBlocks k')) :
    slotTable disk' dir' = Function.update (slotTable disk dir) (k, 0) (slotEntry (disk' n) 0) := by
  funext s
  by_cases block : s.1 = k
  · have now : dir'.directBlocks s.1 = n := by rw [direct, block, Function.update_self]
    by_cases first : s.2 = 0
    · obtain rfl : s = (k, 0) := Prod.ext block first
      rw [Function.update_self, slotTable, now, if_neg used]
      rfl
    · have apart : (s.2 : Nat) ≠ 0 := fun eq => first (Fin.ext eq)
      have place : s ≠ (k, 0) := fun eq => first (congrArg Prod.snd eq)
      rw [Function.update_of_ne place, slotTable, slotTable, now, if_neg used, block, if_pos vacant,
        others _ apart]
  · have place : s ≠ (k, 0) := fun eq => block (congrArg Prod.fst eq)
    have before : dir'.directBlocks s.1 = dir.directBlocks s.1 := by
      rw [direct, Function.update_of_ne block]
    rw [Function.update_of_ne place, slotTable, slotTable, before]
    by_cases unused : dir.directBlocks s.1 = 0#32
    · rw [if_pos unused, if_pos unused]
    · rw [if_neg unused, if_neg unused, same s.1 unused]

theorem slotTable_empty (empty : ∀ k, dir.directBlocks k = 0#32) : slotTable disk dir = fun _ => none := by
  funext s
  rw [slotTable, if_pos (empty s.1)]

end Slots

section
variable {v v' : Volume} {live : Set (BitVec 32)} {blocks : Set BlockNum} {inodes : Set (BitVec 32)}
  {d id : BitVec 32} {name : CString}

theorem slots_of_find {k : Fin 10} {j : Nat} (short : strlen name ≤ fsMaxFilenameLen)
    (found : v.find (v.inode d) name indices = some (k, j)) :
    ∃ inside : j < 113, v.slots d (k, ⟨j, inside⟩) =
      some (name, entryId (v.disk ((v.inode d).directBlocks k)) j) := by
  obtain ⟨_, used, inside, names⟩ := find_some found
  refine ⟨inside, ?_⟩
  rw [Volume.slots, slotTable, if_neg used]
  exact (slotEntry_eq_some short).mpr ⟨names, rfl⟩

theorem unbound_of_find (short : strlen name ≤ fsMaxFilenameLen)
    (missing : v.find (v.inode d) name indices = none) : name ∉ (v.slots d).keys := by
  rintro ⟨id, s, held⟩
  rw [Volume.slots, slotTable] at held
  split at held
  · cases held
  · rename_i used
    exact find_none.mp missing s.1 (mem_indices s.1) used s.2 s.2.isLt
      ((slotEntry_eq_some short).mp held).1

/-- A slot that is not free is an entry of the directory. -/
theorem holds_of_slots {s : Slot} (dir : isDir (v.inode d)) (held : v.slots d s = some (name, id)) :
    Holds v d s.1 s.2 id := by
  rw [Volume.slots, slotTable] at held
  split at held
  · cases held
  · rename_i used
    rw [slotEntry] at held
    split at held
    · cases held
    · rename_i nonzero
      cases held
      exact ⟨dir, used, s.2.isLt, rfl, nonzero⟩

/-- `fs_lookup` of a name the directory binds, and of one it does not. -/
theorem lookup_bound (valid : ValidId d) (dir : isDir (v.inode d)) (distinct : (v.slots d).Distinct)
    (short : strlen name ≤ fsMaxFilenameLen) (bound : (v.slots d).Binds name id) :
    v.lookup d name = id := by
  rw [Volume.lookup, if_neg (Nat.not_lt.mpr short), Volume.openAs_some valid dir]
  dsimp only
  cases found : v.find (v.inode d) name indices with
  | none => exact absurd ⟨id, bound⟩ (unbound_of_find short found)
  | some place =>
      obtain ⟨k, j⟩ := place
      obtain ⟨inside, held⟩ := slots_of_find short found
      exact distinct.functional ⟨_, held⟩ bound

theorem lookup_unbound (short : strlen name ≤ fsMaxFilenameLen) (unbound : name ∉ (v.slots d).keys) :
    v.lookup d name = 0#32 := by
  rw [Volume.lookup, if_neg (Nat.not_lt.mpr short)]
  cases opened : v.openAs isDir d with
  | none => rfl
  | some dir =>
      obtain ⟨_, _, rfl⟩ := Volume.openAs_valid opened
      dsimp only
      cases found : v.find (v.inode d) name indices with
      | none => rfl
      | some place =>
          obtain ⟨k, j⟩ := place
          obtain ⟨inside, held⟩ := slots_of_find short found
          exact absurd ⟨_, _, held⟩ unbound

/-- One slot of directory `d` was rewritten, and with it the size. -/
structure Edited (v v' : Volume) (live : Set (BitVec 32)) (d : BitVec 32) (s : Slot)
    (e : Option (CString × BitVec 32)) (size : BitVec 64) : Prop where
  slots : v'.slots d = Function.update (v.slots d) s e
  size : (v'.inode d).size = size
  type : (v'.inode d).type = (v.inode d).type
  records : ∀ x ∈ live, x ≠ d → v'.inode x = v.inode x
  others : ∀ x ∈ live, x ≠ d → v'.slots x = v.slots x

theorem Edited.type_of {s : Slot} {edit : Option (CString × BitVec 32)} {size : BitVec 64}
    (edited : Edited v v' live d s edit size) {x : BitVec 32} (member : x ∈ live) :
    (v'.inode x).type = (v.inode x).type := by
  by_cases self : x = d
  · rw [self]
    exact edited.type
  · rw [edited.records x member self]

theorem slots_congr (record : v'.inode d = v.inode d)
    (same : ∀ k, (v.inode d).directBlocks k ≠ 0#32 →
      v'.disk ((v.inode d).directBlocks k) = v.disk ((v.inode d).directBlocks k)) :
    v'.slots d = v.slots d := by
  rw [Volume.slots, record]
  exact slotTable_congr rfl same

theorem edited_slot (c : Consistent ⟨live, blocks, inodes⟩ v) (member : d ∈ live) {k : Fin 10}
    (used : (v.inode d).directBlocks k ≠ 0#32) (slot : Fin 113) {b : Block}
    (rest : ∀ j' ≠ (slot : Nat), slotEntry b j' =
      slotEntry (v.disk ((v.inode d).directBlocks k)) j')
    {r : Inode} (type : r.type = (v.inode d).type)
    (direct : r.directBlocks = (v.inode d).directBlocks) :
    Edited v (v.applyAll [.block ((v.inode d).directBlocks k) b, .inode d r]) live d (k, slot)
      (slotEntry b slot) r.size := by
  have valid := c.valid d member
  have low := (c.range d member k used).1
  set v1 := v.apply (.block ((v.inode d).directBlocks k) b) with v1Eq
  have disk : ∀ m : BlockNum, 8 ≤ m.toNat → (v1.apply (.inode d r)).disk m = v1.disk m :=
    fun m data => Volume.disk_inode valid (by omega)
  have record : (v1.apply (.inode d r)).inode d = r := Volume.inode_inode_same valid
  have written : (v1.apply (.inode d r)).disk ((v.inode d).directBlocks k) = b :=
    (disk _ low).trans Volume.disk_block
  have records : ∀ x, ValidId x → x ≠ d → (v1.apply (.inode d r)).inode x = v.inode x :=
    fun x validX apart => (Volume.inode_inode_other valid validX (Ne.symm apart)).trans
      (Volume.inode_block validX (by omega))
  -- a block of another place is another block
  have elsewhere : ∀ x ∈ live, ∀ k', (v.inode x).directBlocks k' ≠ 0#32 → (x = d → k' ≠ k) →
      (v1.apply (.inode d r)).disk ((v.inode x).directBlocks k') =
        v.disk ((v.inode x).directBlocks k') := by
    intro x memberX k' usedX away
    rw [disk _ (c.range x memberX k' usedX).1]
    refine Volume.disk_block_other fun same => ?_
    obtain ⟨self, place⟩ := c.single x memberX d member k' k usedX same
    exact away self place
  refine ⟨?_, by exact congrArg Inode.size record, ?_,
    fun x memberX => records x (c.valid x memberX), ?_⟩
  · change slotTable _ ((v1.apply (.inode d r)).inode d) = _
    rw [record, slotTable_put v.disk direct used slot ?_ ?_]
    · rw [show (v.applyAll [.block ((v.inode d).directBlocks k) b, .inode d r]).disk
        ((v.inode d).directBlocks k) = b from written]
      rfl
    · intro j' other
      rw [show (v.applyAll [.block ((v.inode d).directBlocks k) b, .inode d r]).disk
        ((v.inode d).directBlocks k) = b from written]
      exact rest j' other
    · exact fun k' other usedK => elsewhere d member k' usedK fun _ => other
  · exact (congrArg Inode.type record).trans type
  · intro x memberX apart
    exact slots_congr (records x (c.valid x memberX) apart) fun k' usedX =>
      elsewhere x memberX k' usedX fun self => absurd self apart

theorem edited_block (c : Consistent ⟨live, blocks, inodes⟩ v) (member : d ∈ live) {k : Fin 10}
    (vacant : (v.inode d).directBlocks k = 0#32) {n : Nat} (free : v.unusedBlock = some n) {b : Block}
    (rest : ∀ j ≠ 0, slotEntry b j = none) {r : Inode} (type : r.type = (v.inode d).type)
    (direct : r.directBlocks =
      Function.update (v.inode d).directBlocks k (BitVec.ofNat 32 (n + 1))) :
    Edited v (v.applyAll [.blockBit n true, .block (BitVec.ofNat 32 (n + 1)) b, .inode d r]) live d
      (k, 0) (slotEntry b 0) r.size := by
  have valid := c.valid d member
  obtain ⟨low, high, unowned⟩ := c.fresh_block free
  have number : (BitVec.ofNat 32 (n + 1)).toNat = n + 1 := ofNat_succ_toNat (by omega)
  set v1 := v.apply (.blockBit n true) with v1Eq
  set v2 := v1.apply (.block (BitVec.ofNat 32 (n + 1)) b) with v2Eq
  have record : (v2.apply (.inode d r)).inode d = r := Volume.inode_inode_same valid
  have written : (v2.apply (.inode d r)).disk (BitVec.ofNat 32 (n + 1)) = b :=
    (Volume.disk_inode valid (by omega)).trans Volume.disk_block
  have records : ∀ x, ValidId x → x ≠ d → (v2.apply (.inode d r)).inode x = v.inode x :=
    fun x validX apart => ((Volume.inode_inode_other valid validX (Ne.symm apart)).trans
      (Volume.inode_block validX (by omega))).trans (Volume.inode_blockBit validX)
  have elsewhere : ∀ x ∈ live, ∀ k', (v.inode x).directBlocks k' ≠ 0#32 →
      (v2.apply (.inode d r)).disk ((v.inode x).directBlocks k') =
        v.disk ((v.inode x).directBlocks k') := by
    intro x memberX k' usedX
    have data := (c.range x memberX k' usedX).1
    have apart : (v.inode x).directBlocks k' ≠ BitVec.ofNat 32 (n + 1) :=
      fun same => unowned ⟨x, memberX, k', same⟩
    rw [Volume.disk_inode valid (by omega), Volume.disk_block_other apart,
      Volume.disk_blockBit (by omega)]
  refine ⟨?_, by exact congrArg Inode.size record, ?_,
    fun x memberX => records x (c.valid x memberX), ?_⟩
  · change slotTable _ ((v2.apply (.inode d r)).inode d) = _
    rw [record, slotTable_adopt v.disk vacant (ofNat_succ_ne_zero high) direct ?_ ?_]
    · rw [show (v.applyAll [.blockBit n true, .block (BitVec.ofNat 32 (n + 1)) b, .inode d r]).disk
        (BitVec.ofNat 32 (n + 1)) = b from written]
      rfl
    · intro j other
      rw [show (v.applyAll [.blockBit n true, .block (BitVec.ofNat 32 (n + 1)) b, .inode d r]).disk
        (BitVec.ofNat 32 (n + 1)) = b from written]
      exact rest j other
    · exact elsewhere d member
  · exact (congrArg Inode.type record).trans type
  · exact fun x memberX apart =>
      slots_congr (records x (c.valid x memberX) apart) (elsewhere x memberX)

/-! Creation. -/

/-- The entry is stored unless a block is needed and none is left, or all ten are full. -/
theorem insert_ne_nil {entry : Bytes} {dir : Inode} (spare : ∃ k, ¬ Occupied v dir k)
    (room : ∀ k, dir.directBlocks k = 0#32 → (∀ k' < k, Occupied v dir k') → v.unusedBlock ≠ none) :
    v.insert d entry dir indices ≠ [] := by
  obtain ⟨k, free, full⟩ := first_spare spare
  obtain ⟨rest, start⟩ := insert_at d entry full
  rw [start, Volume.insert]
  by_cases vacant : dir.directBlocks k = 0#32
  · rw [if_pos vacant]
    cases found : v.unusedBlock with
    | none => exact absurd found (room k vacant full)
    | some n => exact List.cons_ne_nil _ _
  · rw [if_neg vacant]
    cases slot : freeEntry (v.disk (dir.directBlocks k)) with
    | none => exact absurd ⟨vacant, slot⟩ free
    | some j => exact List.cons_ne_nil _ _

/-- The entries of full blocks name different inodes, of which there are 128. -/
theorem occupied_le (c : Consistent ⟨live, blocks, inodes⟩ v) (member : d ∈ live)
    (dir : isDir (v.inode d)) {n : Nat} (within : n ≤ 10)
    (full : ∀ k : Fin 10, k.val < n → Occupied v (v.inode d) k) : n * 113 < 129 := by
  let block : Fin n → Fin 10 := fun a => ⟨a, by omega⟩
  have held : ∀ s : Fin n × Fin 113, Holds v d (block s.1) s.2
      (entryId (v.disk ((v.inode d).directBlocks (block s.1))) s.2) := fun s =>
    have ⟨used, occupied⟩ := full (block s.1) s.1.isLt
    ⟨dir, used, s.2.isLt, rfl, freeEntry_eq_none.mp occupied s.2 s.2.isLt⟩
  have number : ∀ s : Fin n × Fin 113,
      0 < (entryId (v.disk ((v.inode d).directBlocks (block s.1))) s.2).toNat ∧
      (entryId (v.disk ((v.inode d).directBlocks (block s.1))) s.2).toNat ≤ 128 := fun s =>
    c.valid _ (c.names d member (block s.1) s.2 _ (held s)).1
  have injective : Function.Injective fun s : Fin n × Fin 113 =>
      (⟨(entryId (v.disk ((v.inode d).directBlocks (block s.1))) s.2).toNat - 1,
        by have := number s; omega⟩ : Fin 128) := by
    intro s s' same
    have numbers := Fin.mk.inj same
    have low := (number s).1
    have low' := (number s').1
    have same := BitVec.eq_of_toNat_eq (by omega : (entryId (v.disk ((v.inode d).directBlocks
      (block s.1))) s.2).toNat = (entryId (v.disk ((v.inode d).directBlocks (block s'.1))) s'.2).toNat)
    have other := held s'
    rw [← same] at other
    obtain ⟨_, blocks, slot⟩ := c.once d member d member (block s.1) (block s'.1) s.2 s'.2 _ (held s) other
    exact Prod.ext (Fin.ext (Fin.mk.inj blocks)) (Fin.ext slot)
  have := Fintype.card_le_of_injective _ injective
  rw [Fintype.card_prod, Fintype.card_fin, Fintype.card_fin, Fintype.card_fin] at this
  omega

/-- There are fewer inodes than slots in one directory, and none has two names. -/
theorem spare_slot (c : Consistent ⟨live, blocks, inodes⟩ v) (member : d ∈ live)
    (dir : isDir (v.inode d)) : ∃ k, ¬ Occupied v (v.inode d) k := by
  by_contra full
  push Not at full
  exact absurd (occupied_le c member dir le_rfl fun k _ => full k) (by decide)

theorem edited_insert (c : Consistent ⟨live, blocks, inodes⟩ v) (member : d ∈ live)
    (nonzero : id ≠ 0#32) (short : strlen name ≤ fsMaxFilenameLen) (padding : Bytes)
    (stored : v.insert d (newEntry id name padding) (v.inode d) indices ≠ []) :
    ∃ s, v.slots d s = none ∧
      Edited v (v.applyAll (v.insert d (newEntry id name padding) (v.inode d) indices)) live d s
        (some (name, id)) ((v.inode d).size + BitVec.ofNat 64 dirEntrySize) := by
  rcases insert_cases v d (newEntry id name padding) (v.inode d) indices with
    none_ | ⟨k, n, vacant, free, updates⟩ | ⟨k, j, used, slot, updates⟩
  · exact absurd none_ stored
  · rw [updates]
    refine ⟨(k, 0), if_pos vacant, ?_⟩
    have edited := edited_block c member vacant free
      (b := putEntry Block.zero 0 (newEntry id name padding))
      (r := Volume.grow ((v.inode d).setDirect k (BitVec.ofNat 32 (n + 1))))
      (fun j other => (slotEntry_put_other _ _ other).trans (slotEntry_zero j))
      (Volume.grow_type _) (Volume.grow_directBlocks _)
    rwa [slotEntry_put_same Block.zero padding (by decide) nonzero short] at edited
  · rw [updates]
    obtain ⟨inside, free, _⟩ := freeEntry_eq_some.mp slot
    refine ⟨(k, ⟨j, inside⟩), (if_neg used).trans (slotEntry_eq_none.mpr free), ?_⟩
    have edited := edited_slot c member used ⟨j, inside⟩
      (b := putEntry (v.disk ((v.inode d).directBlocks k)) j (newEntry id name padding))
      (r := Volume.grow (v.inode d)) (fun j' other => slotEntry_put_other _ _ other)
      (Volume.grow_type _) (Volume.grow_directBlocks _)
    rwa [slotEntry_put_same _ padding inside nonzero short] at edited

theorem create_refused {type : BitVec 16} {padding : Bytes}
    (refused : fsMaxFilenameLen < strlen name ∨ ¬ isDir (v.inode d) ∨ v.lookup d name ≠ 0#32 ∨
      v.unusedInode = none) : v.create d name type padding = (0#32, []) := by
  rw [Volume.create]
  by_cases long : fsMaxFilenameLen < strlen name
  · rw [if_pos long]
  rw [if_neg long]
  cases opened : v.openAs isDir d with
  | none => rfl
  | some dir =>
      obtain ⟨_, isDirectory, rfl⟩ := Volume.openAs_valid opened
      dsimp only
      by_cases bound : v.lookup d name ≠ 0#32
      · rw [if_pos bound]
      rw [if_neg bound]
      have full := ((refused.resolve_left long).resolve_left (not_not.mpr isDirectory)).resolve_left bound
      rw [full]

theorem create_done (valid : ValidId d) (dir : isDir (v.inode d))
    (short : strlen name ≤ fsMaxFilenameLen) (unbound : v.lookup d name = 0#32) {i : Nat}
    (found : v.unusedInode = some i) (type : BitVec 16) (padding : Bytes) :
    v.create d name type padding = (BitVec.ofNat 32 (i + 1), Volume.claim i type ++
      (v.applyAll (Volume.claim i type)).insert d (newEntry (BitVec.ofNat 32 (i + 1)) name padding)
        (v.inode d) indices) := by
  rw [Volume.create, if_neg (Nat.not_lt.mpr short), Volume.openAs_some valid dir]
  dsimp only
  rw [if_neg (not_not.mpr unbound), found]

/-- A creation is refused, or it makes the first unused inode and looks for a slot. -/
theorem create_cases (valid : ValidId d) (name : CString) (type : BitVec 16) (padding : Bytes) :
    (¬ (strlen name ≤ fsMaxFilenameLen ∧ isDir (v.inode d) ∧ v.lookup d name = 0#32 ∧
        v.unusedInode ≠ none) ∧ v.create d name type padding = (0#32, [])) ∨
      ∃ i, (strlen name ≤ fsMaxFilenameLen ∧ isDir (v.inode d) ∧ v.lookup d name = 0#32 ∧
          v.unusedInode = some i) ∧ BitVec.ofNat 32 (i + 1) ≠ 0#32 ∧
        v.create d name type padding = (BitVec.ofNat 32 (i + 1), Volume.claim i type ++
          (v.applyAll (Volume.claim i type)).insert d (newEntry (BitVec.ofNat 32 (i + 1)) name padding)
            (v.inode d) indices) := by
  by_cases accepted : strlen name ≤ fsMaxFilenameLen ∧ isDir (v.inode d) ∧ v.lookup d name = 0#32 ∧
      v.unusedInode ≠ none
  · obtain ⟨short, dir, unbound, free⟩ := accepted
    obtain ⟨i, found⟩ := Option.ne_none_iff_exists'.mp free
    have small := (Volume.unusedInode_some found).1
    exact .inr ⟨i, ⟨short, dir, unbound, found⟩, ofNat_succ_ne_zero (by omega),
      create_done valid dir short unbound found type padding⟩
  · refine .inl ⟨accepted, create_refused ?_⟩
    by_contra none_
    push Not at none_
    exact accepted none_

/-- A claim leaves the blocks of directories alone. -/
theorem occupied_claim (c : Consistent ⟨live, blocks, inodes⟩ v) (member : d ∈ live) {i : Nat}
    (small : i < 128) (type : BitVec 16) {k : Fin 10} :
    Occupied (v.applyAll (Volume.claim i type)) (v.inode d) k ↔ Occupied v (v.inode d) k := by
  obtain ⟨_, _, _, _, disk⟩ := claim_reads (v := v) small type
  refine and_congr_right fun used => ?_
  rw [disk _ (Nat.le_trans (by decide) (c.range d member k used).1)]

/-- A creation that goes through puts one name into one directory. -/
theorem edited_create (c : Consistent ⟨live, blocks, inodes⟩ v) (member : d ∈ live)
    (dir : isDir (v.inode d)) (short : strlen name ≤ fsMaxFilenameLen) {i : Nat}
    (found : v.unusedInode = some i) {type : BitVec 16}
    (kind : type = fsInodeTypeFile ∨ type = fsInodeTypeDir) (padding : Bytes)
    (room : ∀ k, (v.inode d).directBlocks k = 0#32 →
      (∀ k' < k, (v.inode d).directBlocks k' ≠ 0#32 ∧
        freeEntry (v.disk ((v.inode d).directBlocks k')) = none) → v.unusedBlock ≠ none) :
    let id := BitVec.ofNat 32 (i + 1)
    let v' := v.applyAll (Volume.claim i type ++ (v.applyAll (Volume.claim i type)).insert d
      (newEntry id name padding) (v.inode d) indices)
    v'.inode id = newInode id type ∧ ∃ s, v.slots d s = none ∧
      Edited v v' live d s (some (name, id)) ((v.inode d).size + BitVec.ofNat 64 dirEntrySize) := by
  intro id v'
  have small := (Volume.unusedInode_some found).1
  have dead : id ∉ live := c.fresh_inode found
  have nonzero : id ≠ 0#32 := ofNat_succ_ne_zero (by omega)
  have valid : ValidId id := ofNat_valid small
  obtain ⟨record, others, marked, blockBits, disk⟩ := claim_reads (v := v) small type
  set v2 := v.applyAll (Volume.claim i type) with v2Eq
  have apart : ∀ x ∈ live, x ≠ id := by
    rintro x memberX rfl
    exact dead memberX
  have records : ∀ x ∈ live, v2.inode x = v.inode x := fun x memberX =>
    others x (c.valid x memberX) (apart x memberX)
  have tables : ∀ x ∈ live, v2.slots x = v.slots x := fun x memberX =>
    slots_congr (records x memberX) fun k used =>
      disk _ (Nat.le_trans (by decide) (c.range x memberX k used).1)
  have bit : v2.ibit (id.toNat - 1) = true := by
    rw [marked, ofNat_succ_toNat (by omega), Nat.add_sub_cancel, if_pos rfl]
  have grown := (grow_claimed (track_claim c found type).final valid dead bit record kind).1
  have unusedBlock : v2.unusedBlock = v.unusedBlock := rfl
  have stored : v2.insert d (newEntry id name padding) (v2.inode d) indices ≠ [] := by
    refine insert_ne_nil (spare_slot grown (.inr member) (by rwa [records d member]))
      fun k vacant full => ?_
    rw [records d member] at vacant full
    rw [unusedBlock]
    exact room k vacant fun k' below => (occupied_claim c member small type).mp (full k' below)
  obtain ⟨s, free, edited⟩ := edited_insert grown (.inr member) nonzero short padding stored
  have last : v' = v2.applyAll (v2.insert d (newEntry id name padding) (v2.inode d) indices) := by
    rw [records d member]
    exact Volume.applyAll_append _ _ _
  rw [last]
  refine ⟨(edited.records id (.inl rfl) (apart d member).symm).trans record, s, ?_, ?_⟩
  · rw [← tables d member]
    exact free
  · refine ⟨?_, ?_, ?_, fun x memberX other => ?_, fun x memberX other => ?_⟩
    · rw [edited.slots, tables d member]
    · rw [edited.size, records d member]
    · rw [edited.type, records d member]
    · rw [edited.records x (.inr memberX) other, records x memberX]
    · rw [edited.others x (.inr memberX) other, tables x memberX]

/-! Removal. -/

/-- Bitmap updates change no record and no block of data. -/
theorem bits_keep (us : List Update) (bits : ∀ u ∈ us, ∃ i set, u = .inodeBit i set ∨ u = .blockBit i set) :
    (∀ x, ValidId x → (v.applyAll us).inode x = v.inode x) ∧
      ∀ n : BlockNum, 3 ≤ n.toNat → (v.applyAll us).disk n = v.disk n := by
  induction us generalizing v with
  | nil => exact ⟨fun _ _ => rfl, fun _ _ => rfl⟩
  | cons u rest ih =>
      obtain ⟨i, set, kind⟩ := bits u List.mem_cons_self
      obtain ⟨records, disk⟩ := ih (v := v.apply u) fun x member => bits x (List.mem_cons_of_mem u member)
      refine ⟨fun x valid => (records x valid).trans ?_, fun n data => (disk n data).trans ?_⟩
      · rcases kind with rfl | rfl
        · exact Volume.inode_inodeBit valid
        · exact Volume.inode_blockBit valid
      · rcases kind with rfl | rfl
        · exact Volume.disk_inodeBit data
        · exact Volume.disk_blockBit data

theorem release_bits (target : Inode) (is : List (Fin 10)) :
    ∀ u ∈ Volume.release target is, ∃ i set, u = .inodeBit i set ∨ u = .blockBit i set := by
  induction is with
  | nil => exact List.forall_mem_nil _
  | cons k rest ih =>
      rw [Volume.release]
      split
      · exact ih
      · exact List.forall_mem_cons.mpr ⟨⟨_, _, .inr rfl⟩, ih⟩

/-- A removal takes one name out of one directory. -/
theorem edited_removal (c : Consistent ⟨live, blocks, inodes⟩ v) (member : d ∈ live) {k : Fin 10}
    {j : Nat} (inside : j < 113) (held : Holds v d k j id) :
    Edited v (v.applyAll (removal v d k j id)) live d (k, ⟨j, inside⟩) none
      ((v.inode d).size - BitVec.ofNat 64 dirEntrySize) := by
  have unlinked := edited_slot c member held.used ⟨j, inside⟩
    (b := clearEntry (v.disk ((v.inode d).directBlocks k)) j) (r := Volume.shrink (v.inode d))
    (fun j' other => slotEntry_put_other _ _ other) (Volume.shrink_type _)
    (Volume.shrink_directBlocks _)
  rw [slotEntry_clear_same _ inside] at unlinked
  have direct : ∀ x ∈ live, ((v.applyAll (v.unlink d (v.inode d) k j)).inode x).directBlocks =
      (v.inode x).directBlocks := (track_unlink c member held).2.2
  rw [removal, Volume.applyAll_append]
  set v2 := v.applyAll (v.unlink d (v.inode d) k j)
  obtain ⟨records, disk⟩ := bits_keep (v := v2) (Volume.release (v2.inode id) indices ++
    [.inodeBit (id.toNat - 1) false]) (List.forall_mem_append.mpr ⟨release_bits _ _,
      List.forall_mem_singleton.mpr ⟨_, _, .inl rfl⟩⟩)
  have tables : ∀ x ∈ live, (v2.applyAll (Volume.release (v2.inode id) indices ++
      [.inodeBit (id.toNat - 1) false])).slots x = v2.slots x := by
    intro x memberX
    refine slots_congr (records x (c.valid x memberX)) fun k' used => disk _ ?_
    rw [direct x memberX] at used ⊢
    exact Nat.le_trans (by decide) (c.range x memberX k' used).1
  refine ⟨?_, ?_, ?_, fun x memberX other => ?_, fun x memberX other => ?_⟩
  · rw [tables d member]
    exact unlinked.slots
  · rw [records d (c.valid d member)]
    exact unlinked.size
  · rw [records d (c.valid d member)]
    exact unlinked.type
  · rw [records x (c.valid x memberX)]
    exact unlinked.records x memberX other
  · rw [tables x memberX]
    exact unlinked.others x memberX other

/-! Writing leaves directories alone. -/

theorem writeFrom_keeps (buffer : Bytes) (offset count : Nat) (inode : Inode) (done : Nat)
    (c : Consistent ⟨live, blocks, inodes⟩ v) (member : id ∈ live) (file : isFile (v.inode id))
    (cached : v.inode id = inode) :
    let r := v.writeFrom id buffer offset count inode done
    r.1.type = inode.type ∧ ∀ x ∈ live, x ≠ id →
      (v.applyAll r.2.2).inode x = v.inode x ∧ (v.applyAll r.2.2).slots x = v.slots x := by
  induction v, inode, done using Volume.writeFrom.induct id buffer offset count with
  | case1 v inode done more index full =>
      rw [Volume.writeFrom, dif_pos more, dif_pos index, full]
      exact ⟨rfl, fun _ _ _ => ⟨rfl, rfl⟩⟩
  | case2 v inode done more index n owner us found u ih =>
      subst cached
      obtain ⟨targeted, filled, ownerFile, record⟩ := track_iteration c member file found
        (((v.applyAll us).disk n).patch (blockOffset offset done) (chunk offset count done)
          (buffer.drop done))
      obtain ⟨_, now, place, nonzero, _⟩ := track_target c member file found
      obtain ⟨disk, records, _, type, _⟩ := target_frame c (c.valid id member) found
      obtain ⟨lastType, rest⟩ := ih filled ownerFile record
      rw [Volume.writeFrom, dif_pos more, dif_pos index, found]
      dsimp only
      rw [Volume.applyAll_append]
      refine ⟨lastType.trans type, fun x memberX apart => ?_⟩
      obtain ⟨restRecord, restSlots⟩ := rest x memberX apart
      have usedN : ((v.applyAll us).inode id).directBlocks ⟨blockIndex offset done, index⟩ ≠ 0#32 := by
        rwa [now, place]
      have low := (targeted.final.range id member _ usedN).1
      rw [now, place] at low
      have recordX : ((v.applyAll us).apply u).inode x = v.inode x :=
        (Volume.inode_block (c.valid x memberX) (by omega)).trans (records x (c.valid x memberX) apart)
      refine ⟨restRecord.trans recordX, restSlots.trans (slots_congr recordX fun k used => ?_)⟩
      have data := (c.range x memberX k used).1
      have other : (v.inode x).directBlocks k ≠ n := by
        intro same
        have usedX : ((v.applyAll us).inode x).directBlocks k ≠ 0#32 := by
          rwa [records x (c.valid x memberX) apart]
        refine apart (targeted.final.single x memberX id member k ⟨blockIndex offset done, index⟩ usedX
          ?_).1
        rw [records x (c.valid x memberX) apart, now, place, same]
      exact (Volume.disk_block_other other).trans (disk _ (by omega))
  | case3 v inode done more beyond =>
      rw [Volume.writeFrom, dif_pos more, dif_neg beyond]
      exact ⟨rfl, fun _ _ _ => ⟨rfl, rfl⟩⟩
  | case4 v inode done finished =>
      rw [Volume.writeFrom, dif_neg finished]
      exact ⟨rfl, fun _ _ _ => ⟨rfl, rfl⟩⟩

theorem extend_keeps (c : Consistent ⟨live, blocks, inodes⟩ v) (member : id ∈ live) {inode : Inode}
    (cached : v.inode id = inode) (last : BitVec 64) :
    ((v.applyAll (Volume.extend id inode last)).inode id).type = inode.type ∧ ∀ x ∈ live, x ≠ id →
      (v.applyAll (Volume.extend id inode last)).inode x = v.inode x ∧
        (v.applyAll (Volume.extend id inode last)).slots x = v.slots x := by
  have valid := c.valid id member
  rw [Volume.extend]
  split
  · have own : (v.applyAll [.inode id { inode with size := last }]).inode id =
        { inode with size := last } := Volume.inode_inode_same valid
    refine ⟨by rw [own], fun x memberX apart => ?_⟩
    have record : (v.applyAll [.inode id { inode with size := last }]).inode x = v.inode x :=
      Volume.inode_inode_other valid (c.valid x memberX) (Ne.symm apart)
    refine ⟨record, slots_congr record fun k used => Volume.disk_inode valid ?_⟩
    exact Nat.le_trans (by decide) (c.range x memberX k used).1
  · exact ⟨congrArg Inode.type cached, fun _ _ _ => ⟨rfl, rfl⟩⟩

/-- A write is its loop and then the new size. -/
theorem applyAll_write (valid : ValidId id) (file : isFile (v.inode id)) (offset : BitVec 64)
    (buffer : Bytes) (count : BitVec 64) :
    let r := v.writeFrom id buffer offset.toNat count.toNat (v.inode id) 0
    v.applyAll (v.write id offset buffer count).2 =
      (v.applyAll r.2.2).applyAll (Volume.extend id r.1 (offset + BitVec.ofNat 64 r.2.1)) := by
  rw [Volume.write, Volume.openAs_some valid file]
  exact Volume.applyAll_append _ _ _

/-- A write leaves other inodes alone. -/
theorem write_others (c : Consistent ⟨live, blocks, inodes⟩ v) (member : id ∈ live)
    (offset : BitVec 64) (buffer : Bytes) (count : BitVec 64) {x : BitVec 32} (memberX : x ∈ live)
    (other : x ≠ id) : (v.applyAll (v.write id offset buffer count).2).inode x = v.inode x ∧
      (v.applyAll (v.write id offset buffer count).2).slots x = v.slots x := by
  by_cases file : isFile (v.inode id)
  · rw [applyAll_write (c.valid id member) file]
    obtain ⟨written, record⟩ :=
      track_writeFrom buffer offset.toNat count.toNat (v.inode id) 0 c member file rfl
    obtain ⟨_, keeps⟩ := writeFrom_keeps buffer offset.toNat count.toNat (v.inode id) 0 c member file rfl
    obtain ⟨records, tables⟩ := keeps x memberX other
    obtain ⟨records', tables'⟩ := (extend_keeps written.final member record _).2 x memberX other
    exact ⟨records'.trans records, tables'.trans tables⟩
  · rw [Volume.write, Volume.openAs_none file]
    exact ⟨rfl, rfl⟩

/-- `fs_write` keeps the kind of every inode in use and every directory. -/
theorem write_keeps (c : Consistent ⟨live, blocks, inodes⟩ v) (member : id ∈ live)
    (offset : BitVec 64) (buffer : Bytes) (count : BitVec 64) :
    let v' := v.applyAll (v.write id offset buffer count).2
    ∀ x ∈ live, (v'.inode x).type = (v.inode x).type ∧ (isDir (v.inode x) →
      v'.slots x = v.slots x ∧ (v'.inode x).size = (v.inode x).size) := by
  intro v' x memberX
  by_cases self : x = id
  · subst self
    by_cases file : isFile (v.inode x)
    · obtain ⟨written, record⟩ :=
        track_writeFrom buffer offset.toNat count.toNat (v.inode x) 0 c member file rfl
      obtain ⟨type, _⟩ := writeFrom_keeps buffer offset.toNat count.toNat (v.inode x) 0 c member file rfl
      have last := (extend_keeps written.final member record (offset + BitVec.ofNat 64
        (v.writeFrom x buffer offset.toNat count.toNat (v.inode x) 0).2.1)).1
      refine ⟨?_, fun dir => absurd dir (c.not_dir member file)⟩
      change ((v.applyAll (v.write x offset buffer count).2).inode x).type = _
      rw [applyAll_write (c.valid x member) file]
      exact last.trans type
    · have refused : v' = v := by
        change v.applyAll (v.write x offset buffer count).2 = v
        rw [Volume.write, Volume.openAs_none file]
        rfl
      rw [refused]
      exact ⟨rfl, fun _ => ⟨rfl, rfl⟩⟩
  · obtain ⟨records, tables⟩ := write_others c member offset buffer count memberX self
    refine ⟨congrArg Inode.type records, fun _ => ⟨tables, congrArg Inode.size records⟩⟩

/-- The first file or directory of a fresh volume is inode 2, with its entry in block 8. -/
theorem fresh_create (fresh : Fresh v) (short : strlen name ≤ fsMaxFilenameLen) (type : BitVec 16)
    (padding : Bytes) : v.perform (.create 1#32 name type padding) =
      ((2, []), Volume.claim 1 type ++ [.blockBit 7 true,
        .block 8#32 (putEntry Block.zero 0 (newEntry 2#32 name padding)),
        .inode 1#32 (Volume.grow ((rootInode 1#32).setDirect 0 8#32))]) := by
  have dir : isDir (v.inode 1#32) := by
    rw [fresh.root]
    decide
  have valid : ValidId 1#32 := by
    rw [ValidId]
    decide
  have unbound : v.lookup 1#32 name = 0#32 := by
    refine lookup_unbound short ?_
    rintro ⟨_, s, held⟩
    rw [Volume.slots, fresh.root, slotTable_empty fun _ => rfl] at held
    cases held
  have unusedInode : v.unusedInode = some 1 := by
    refine firstClear_eq_some.mpr ⟨by decide, fresh.inodes 1 (by decide), fun j below => ?_⟩
    obtain rfl : j = 0 := by omega
    exact fresh.inodes 0 (by decide)
  have unusedBlock : v.unusedBlock = some 7 := by
    refine firstClear_eq_some.mpr ⟨by decide, fresh.blocks 7 (by decide), fun j below => ?_⟩
    exact (fresh.blocks j (by omega)).trans (decide_eq_true below)
  have inserted : (v.applyAll (Volume.claim 1 type)).insert 1#32
      (newEntry (BitVec.ofNat 32 (1 + 1)) name padding) (v.inode 1#32) indices =
      [.blockBit 7 true, .block 8#32 (putEntry Block.zero 0 (newEntry 2#32 name padding)),
        .inode 1#32 (Volume.grow ((rootInode 1#32).setDirect 0 8#32))] := by
    have kept : (v.applyAll (Volume.claim 1 type)).unusedBlock = some 7 := unusedBlock
    have first : indices = 0 :: List.map Fin.succ (List.finRange 9) := rfl
    have vacant : (rootInode 1#32).directBlocks 0 = 0#32 := rfl
    rw [first, Volume.insert, fresh.root, if_pos vacant, kept]
  rw [Volume.perform, create_done valid dir short unbound unusedInode, inserted]
  rfl

end
end AstralOS.Fs
