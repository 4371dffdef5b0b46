import AstralOS.Memory.KmallocSafety
import AstralOS.Foundation.Coalescing

/-! The header list as it stands in memory. Free flags are 0 or 1 throughout, so the list is
determined by the blocks. -/
namespace AstralOS.Kmalloc
open Foundation Foundation.FirstFit

/-- A header and where it is. -/
structure Entry where
  addr : Addr
  size : BitVec 64
  next : Addr
  free : BitVec 32
  deriving DecidableEq

def entry (m : Memory) (block : Addr) : Entry := ⟨block, size m block, next m block, free m block⟩

/-- The headers from `block` on; `none` when the links do not reach null within the fuel. -/
def entriesFrom : Nat → Memory → Addr → Option (List Entry)
  | 0, _, _ => none
  | fuel + 1, m, block =>
      if block = 0#64 then some []
      else (entriesFrom fuel m (next m block)).map (entry m block :: ·)

def headerList (h : Heap) : Option (List Entry) := entriesFrom loopBound h.mem h.heapStartPtr

def flag (free : Bool) : BitVec 32 := if free then 1#32 else 0#32

def entries : List Block → List Entry
  | [] => []
  | b :: rest => ⟨BitVec.ofNat 64 b.addr, BitVec.ofNat 64 b.size, head rest, flag b.free⟩ :: entries rest

/-- The flags in memory are 0 and 1. -/
def Flagged (m : Memory) (blocks : List Block) : Prop :=
  ∀ b ∈ blocks, free m (BitVec.ofNat 64 b.addr) = flag b.free

theorem flag_ne_zero {b : Bool} : flag b ≠ 0#32 ↔ b = true := by
  cases b <;> decide

theorem flagged_cons {m : Memory} {b : Block} {rest : List Block} :
    Flagged m (b :: rest) ↔ free m (BitVec.ofNat 64 b.addr) = flag b.free ∧ Flagged m rest :=
  List.forall_mem_cons

section
variable {m m' : Memory} {b : Block} {blocks : List Block} {a e need fuel : Nat}

theorem entriesFrom_linked (t : Tiles 24 a blocks e) (pos : 0 < a) (bound : e < 2 ^ 64)
    (linked : Linked m blocks) (flagged : Flagged m blocks) (enough : blocks.length < fuel) :
    entriesFrom fuel m (head blocks) = some (entries blocks) := by
  induction blocks generalizing a fuel with
  | nil =>
      obtain ⟨fuel, rfl⟩ := Nat.exists_eq_succ_of_ne_zero (Nat.ne_of_gt enough)
      rfl
  | cons b rest ih =>
      obtain ⟨fuel, rfl⟩ := Nat.exists_eq_succ_of_ne_zero (Nat.ne_zero_of_lt enough)
      have nonzero := head_ne_zero t pos bound List.mem_cons_self
      obtain ⟨flagB, flags⟩ := flagged_cons.mp flagged
      have later := ih t.2 (by omega) linked.2 flags (by simpa using enough)
      rw [head, entriesFrom, if_neg nonzero, linked.1.next, later, entry, linked.1.size, linked.1.next, flagB]
      rfl

theorem free_congr (fits : b.addr + 24 ≤ 2 ^ 64)
    (same : ∀ x : Addr, b.addr ≤ x.toNat → x.toNat < b.addr + 24 → m' x = m x) :
    free m' (BitVec.ofNat 64 b.addr) = free m (BitVec.ofNat 64 b.addr) :=
  load_field_congr (by omega) (by omega) fun x low high => same x (by omega) (by omega)

theorem Flagged.transport (flagged : Flagged m blocks) (t : Tiles 24 a blocks e) (bound : e < 2 ^ 64)
    (same : ∀ x : Addr, a ≤ x.toNat → x.toNat < e → m' x = m x) : Flagged m' blocks := by
  intro b member
  have inside := t.inside member
  rw [free_congr (by omega) fun x low high => same x (by omega) (by omega)]
  exact flagged b member

theorem free_setFree (v : BitVec 32) :
    free (setFree m (BitVec.ofNat 64 b.addr) v) (BitVec.ofNat 64 b.addr) = v :=
  load_store_same (by omega) (by omega) _ _ _

/-- The remainder of a split is flagged free. -/
theorem free_split (bound : b.addr + 24 + b.size < 2 ^ 64) (room : need + 24 < b.size) :
    free (split m (BitVec.ofNat 64 b.addr) (BitVec.ofNat 64 need)) (BitVec.ofNat 64 (b.addr + 24 + need)) =
      1#32 := by
  have place : BitVec.ofNat 64 b.addr + headerSize + BitVec.ofNat 64 need =
      BitVec.ofNat 64 (b.addr + 24 + need) := by
    rw [BitVec.ofNat_add, BitVec.ofNat_add]
    rfl
  have here : b.addr + 24 ≤ 2 ^ 64 := by omega
  simp only [split, place]
  rw [free_congr (b := ⟨b.addr + 24 + need, 0, true⟩) (m := setFree _ (BitVec.ofNat 64 (b.addr + 24 + need)) 1#32)
    (by dsimp only; omega) fun x low _ => by
      simp only at low
      rw [setSize_apply here (.inr (by omega)), setNext_apply here (.inr (by omega))]]
  exact free_setFree (b := ⟨b.addr + 24 + need, 0, true⟩) 1#32

theorem kmallocLoop_flagged (t : Tiles 24 a blocks e) (pos : 0 < a) (bound : e < 2 ^ 64)
    (linked : Linked m blocks) (flagged : Flagged m blocks) (enough : blocks.length < fuel)
    (small : need < 2 ^ 64) {result : Nat × List Block} (found : allocate 24 need blocks = some result) {p : Addr}
    (loop : kmallocLoop (BitVec.ofNat 64 need) fuel m (head blocks) = some (p, m')) :
    Flagged m' result.2 := by
  induction blocks generalizing a fuel result with
  | nil => cases found
  | cons b rest ih =>
      obtain ⟨flagB, flags⟩ := flagged_cons.mp flagged
      have inside := t.inside List.mem_cons_self
      have here : b.addr + 24 ≤ 2 ^ 64 := by omega
      have start := t.1
      have nonzero := head_ne_zero t pos bound List.mem_cons_self
      obtain ⟨fuel, rfl⟩ := Nat.exists_eq_succ_of_ne_zero (Nat.ne_zero_of_lt enough)
      rw [head, kmallocLoop, if_neg nonzero] at loop
      rw [allocate] at found
      split at found
      · rename_i fits
        rw [if_pos ((takes_iff linked.1 (by omega) small).mpr fits)] at loop
        split at found
        · rename_i room
          obtain rfl := Option.some.inj found
          rw [if_pos ((splits_iff linked.1 (by omega) fits.2).mpr room)] at loop
          obtain ⟨_, rfl⟩ := Prod.mk.inj (Option.some.inj loop)
          obtain ⟨_, _, outside⟩ := split_spec linked.1 (by omega) room
          refine flagged_cons.mpr ⟨free_setFree 0#32, flagged_cons.mpr ⟨?_, ?_⟩⟩
          · rw [free_congr (b := ⟨b.addr + 24 + need, b.size - need - 24, true⟩) (by dsimp only; omega)
              fun x low _ => setFree_apply here (.inr (by simp only at low; omega))]
            exact free_split (by omega) room
          · refine flags.transport t.2 bound fun x low _ => ?_
            rw [setFree_apply here (.inr (by omega)), outside x (.inr (by omega))]
        · rename_i whole
          obtain rfl := Option.some.inj found
          rw [if_neg (mt (splits_iff linked.1 (by omega) fits.2).mp whole)] at loop
          obtain ⟨_, rfl⟩ := Prod.mk.inj (Option.some.inj loop)
          refine flagged_cons.mpr ⟨free_setFree 0#32, ?_⟩
          exact flags.transport t.2 bound fun x low _ => setFree_apply here (.inr (by omega))
      · rename_i passes
        obtain ⟨later, eq, rfl⟩ := Option.map_eq_some_iff.mp found
        rw [if_neg (mt (takes_iff linked.1 (by omega) small).mp passes), linked.1.next] at loop
        have fewer : rest.length < fuel := by simpa using enough
        obtain ⟨m'', same, _, frame⟩ := kmallocLoop_some t.2 (by omega) bound linked.2 fewer small eq
        obtain ⟨_, rfl⟩ := Prod.mk.inj (Option.some.inj (same.symm.trans loop))
        refine flagged_cons.mpr ⟨?_, ih t.2 (by omega) linked.2 flags fewer eq loop⟩
        rw [free_congr here fun x _ high => frame x (.inl (by omega)), flagB]

theorem free_merge (fits : b.addr + 24 ≤ 2 ^ 64) :
    free (merge m (BitVec.ofNat 64 b.addr)) (BitVec.ofNat 64 b.addr) = free m (BitVec.ofNat 64 b.addr) := by
  rw [merge, Kmalloc.free, setNext, load_store_field fits (by omega) (by omega) (by omega) (by omega) (by omega),
    setSize, load_store_field fits (by omega) (by omega) (by omega) (by omega) (by omega), ← Kmalloc.free]

/-- The sweep changes no flag of a header that stays. -/
theorem kfreeLoop_flagged (t : Tiles 24 a blocks e) (pos : 0 < a) (bound : e < 2 ^ 64)
    (linked : Linked m blocks) (flagged : Flagged m blocks) (enough : blocks.length < fuel)
    (loop : kfreeLoop fuel m (head blocks) = some m') : Flagged m' (sweep 24 blocks) := by
  induction blocks using sweep.induct generalizing a fuel m with
  | case1 => exact List.forall_mem_nil _
  | case2 b =>
      obtain ⟨fuel, rfl⟩ := Nat.exists_eq_add_of_le' (show 2 ≤ fuel from enough)
      obtain rfl := Option.some.inj ((kfreeLoop_last t pos bound linked fuel).symm.trans loop)
      exact flagged
  | case3 b c rest able ih =>
      obtain ⟨fuel, rfl⟩ := Nat.exists_eq_succ_of_ne_zero (Nat.ne_zero_of_lt enough)
      have insideB := t.inside List.mem_cons_self
      have insideC := t.inside (List.mem_cons_of_mem b List.mem_cons_self)
      have start := t.1
      have here : b.addr + 24 ≤ 2 ^ 64 := by omega
      obtain ⟨flagB, flags⟩ := flagged_cons.mp flagged
      obtain ⟨_, flags⟩ := flagged_cons.mp flags
      obtain ⟨turn, _, outside⟩ := kfreeLoop_merge t pos bound linked able fuel
      have others := linked.2.2.transport t.2.2 bound fun x low _ => outside x (.inr (by omega))
      have flags' := flags.transport t.2.2 bound fun x low _ => outside x (.inr (by omega))
      have fewer : rest.length < fuel := by
        simp only [List.length_cons] at enough
        omega
      have loop := turn.symm.trans loop
      obtain ⟨m'', same, _, frame⟩ := kfreeLoop_spec t.2.2 (by omega) bound others fewer
      obtain rfl := Option.some.inj (same.symm.trans loop)
      rw [sweep, if_pos able]
      refine flagged_cons.mpr ⟨?_, ih t.2.2 (by omega) others flags' fewer loop⟩
      dsimp only
      rw [free_congr here fun x _ high => frame x (.inl (by omega)), free_merge here, flagB]
  | case4 b c rest kept ih =>
      obtain ⟨fuel, rfl⟩ := Nat.exists_eq_succ_of_ne_zero (Nat.ne_zero_of_lt enough)
      have inside := t.inside List.mem_cons_self
      have start := t.1
      obtain ⟨flagB, flags⟩ := flagged_cons.mp flagged
      have fewer : (c :: rest).length < fuel := by simpa using enough
      have loop := (kfreeLoop_keep t pos bound linked kept fuel).symm.trans loop
      obtain ⟨m'', same, _, frame⟩ := kfreeLoop_spec t.2 (by omega) bound linked.2 fewer
      obtain rfl := Option.some.inj (same.symm.trans loop)
      rw [sweep, if_neg kept]
      refine flagged_cons.mpr ⟨?_, ih t.2 (by omega) linked.2 flags fewer loop⟩
      rw [free_congr (by omega) fun x _ high => frame x (.inl (by omega)), flagB]

theorem flagged_markFree (t : Tiles 24 a blocks e) (bound : e < 2 ^ 64) (flagged : Flagged m blocks)
    (member : b ∈ blocks) :
    Flagged (setFree m (BitVec.ofNat 64 b.addr) 1#32) (markFree 24 (b.addr + 24) blocks) := by
  intro c' memberC
  obtain ⟨c, old, rfl⟩ := List.mem_map.mp memberC
  have insideB := t.inside member
  have insideC := t.inside old
  by_cases same : c.addr + 24 = b.addr + 24
  · obtain rfl := t.addr_injective (by omega) old member (by omega)
    rw [if_pos rfl]
    exact free_setFree 1#32
  · rw [if_neg same]
    rcases t.apart old member with rfl | before | after
    · exact absurd rfl same
    · rw [free_congr (by omega) fun x _ high => setFree_apply (by omega) (.inl (by omega)), flagged c old]
    · rw [free_congr (by omega) fun x low _ => setFree_apply (by omega) (.inr (by omega)), flagged c old]

/-- A write to a payload changes no flag. -/
theorem Flagged.of_payload (flagged : Flagged m blocks) (t : Tiles 24 a blocks e) (bound : e < 2 ^ 64)
    (member : b ∈ blocks)
    (same : ∀ x : Addr, x.toNat < b.addr + 24 ∨ b.addr + 24 + b.size ≤ x.toNat → m' x = m x) :
    Flagged m' blocks := by
  intro c old
  have insideB := t.inside member
  have insideC := t.inside old
  rw [free_congr (by omega) fun x low high => same x ?_, flagged c old]
  rcases t.apart old member with rfl | before | after
  · exact .inl (by omega)
  · exact .inl (by omega)
  · exact .inr (by omega)

end

/-- The layout, with the flags as they are written. -/
structure Listed (heapStart heapSize : BitVec 64) (s : System) (blocks : List Block) : Prop
    extends Layout heapStart heapSize s blocks where
  flagged : Flagged s.heap.mem blocks

section
variable {heapStart heapSize : BitVec 64} {s s' : System} {blocks : List Block}

theorem toNat_pos (nonzero : heapStart ≠ 0#64) : 0 < heapStart.toNat := by
  rw [Nat.pos_iff_ne_zero]
  exact fun zero => nonzero (BitVec.eq_of_toNat_eq zero)

/-- The blocks the headers list. -/
def Entry.block (x : Entry) : Block := ⟨x.addr.toNat, x.size.toNat, decide (x.free ≠ 0#32)⟩

def blockList (h : Heap) : Option (List Block) := (headerList h).map (List.map Entry.block)

theorem block_entries {a e : Nat} (t : Tiles 24 a blocks e) (bound : e < 2 ^ 64) :
    (entries blocks).map Entry.block = blocks := by
  induction blocks generalizing a with
  | nil => rfl
  | cons b rest ih =>
      have inside := t.inside List.mem_cons_self
      rw [entries, List.map_cons, ih t.2, Entry.block]
      have addr : (BitVec.ofNat 64 b.addr).toNat = b.addr := by
        rw [BitVec.toNat_ofNat, Nat.mod_eq_of_lt (by omega)]
      have size : (BitVec.ofNat 64 b.size).toNat = b.size := by
        rw [BitVec.toNat_ofNat, Nat.mod_eq_of_lt (by omega)]
      have isFree : decide (flag b.free ≠ 0#32) = b.free := by
        cases b.free with
        | false => rfl
        | true => rfl
      rw [addr, size, isFree]

/-- The list that memory holds is that of the blocks. -/
theorem Listed.headerList (listed : Listed heapStart heapSize s blocks) (nonzero : heapStart ≠ 0#64)
    (bound : heapStart.toNat + heapSize.toNat < 2 ^ 64) : headerList s.heap = some (entries blocks) := by
  rw [Kmalloc.headerList, ← listed.head_eq]
  exact entriesFrom_linked listed.tiles (toNat_pos nonzero) bound listed.linked listed.flagged
    (listed.fewer bound)

theorem Listed.blockList (listed : Listed heapStart heapSize s blocks) (nonzero : heapStart ≠ 0#64)
    (bound : heapStart.toNat + heapSize.toNat < 2 ^ 64) : blockList s.heap = some blocks := by
  rw [Kmalloc.blockList, listed.headerList nonzero bound, Option.map_some, block_entries listed.tiles bound]

theorem listed_init (header : 24 ≤ heapSize.toNat)
    (bound : heapStart.toNat + heapSize.toNat < 2 ^ 64) (m : Memory) :
    Listed heapStart heapSize ⟨kmallocInit heapStart heapSize m, []⟩
      [⟨heapStart.toNat, heapSize.toNat - 24, true⟩] := by
  refine ⟨layout_init header bound m, fun b member => ?_⟩
  obtain rfl := List.mem_singleton.mp member
  have place : BitVec.ofNat 64 heapStart.toNat = heapStart := by simp
  dsimp only
  rw [place]
  exact load_store_same (by omega) (by omega) _ _ _

/-- An allocation that succeeds. -/
theorem listed_granted (nonzero : heapStart ≠ 0#64) (bound : heapStart.toNat + heapSize.toNat < 2 ^ 64)
    (listed : Listed heapStart heapSize s blocks) {n : BitVec 64} (asked : n ≠ 0#64)
    {result : Nat × List Block} (found : allocate 24 (roundUp n).toNat blocks = some result) :
    ∃ m', kmalloc n s.heap = some (BitVec.ofNat 64 result.1, { s.heap with mem := m' }) ∧
      s.call (.kmalloc n) = some ⟨{ s.heap with mem := m' }, BitVec.ofNat 64 result.1 :: s.live⟩ ∧
      Listed heapStart heapSize ⟨{ s.heap with mem := m' }, BitVec.ofNat 64 result.1 :: s.live⟩ result.2 ∧
      BitVec.ofNat 64 result.1 ≠ 0#64 := by
  obtain ⟨m', called, loop, linked', frame⟩ := kmalloc_granted nonzero bound listed.toLayout asked found
  obtain ⟨after, blocks', r, same, stepped, heap, layout', _, _, taken⟩ :=
    kmalloc_spec nonzero bound listed.toLayout n
  obtain rfl := Option.some.inj (same.symm.trans called)
  obtain ⟨notNull, rfl⟩ := taken asked result found
  have notNull : BitVec.ofNat 64 result.1 ≠ 0#64 := notNull
  rw [System.call, called, Option.map_some, if_neg notNull] at stepped
  obtain rfl := Option.some.inj stepped
  have rounded : BitVec.ofNat 64 (roundUp n).toNat = roundUp n := by simp
  rw [← rounded, ← listed.head_eq] at loop
  refine ⟨m', called, by rw [System.call, called, Option.map_some, if_neg notNull], ⟨layout', ?_⟩, notNull⟩
  exact kmallocLoop_flagged listed.tiles (toNat_pos nonzero) bound listed.linked listed.flagged
    (listed.fewer bound) (roundUp n).isLt found loop

/-- An allocation that fails changes nothing. -/
theorem call_refused (nonzero : heapStart ≠ 0#64) (bound : heapStart.toNat + heapSize.toNat < 2 ^ 64)
    (listed : Listed heapStart heapSize s blocks) {n : BitVec 64}
    (full : n = 0#64 ∨ allocate 24 (roundUp n).toNat blocks = none) : s.call (.kmalloc n) = some s := by
  rw [System.call, kmalloc_refused nonzero bound listed.toLayout full]
  rfl

/-- Releasing a live pointer. -/
theorem listed_released (nonzero : heapStart ≠ 0#64) (bound : heapStart.toNat + heapSize.toNat < 2 ^ 64)
    (listed : Listed heapStart heapSize s blocks) {ptr : Addr} (isLive : ptr ∈ s.live) :
    ∃ s', kfree ptr s.heap = some s'.heap ∧ s.call (.kfree ptr) = some s' ∧
      Listed heapStart heapSize s' (release 24 ptr.toNat blocks) := by
  obtain ⟨b, held, rfl⟩ := (listed.live ptr).mp isLive
  have inside := listed.tiles.inside held.1
  have value : (BitVec.ofNat 64 (b.addr + 24)).toNat = b.addr + 24 := by
    rw [BitVec.toNat_ofNat, Nat.mod_eq_of_lt (by omega)]
  have notNull : BitVec.ofNat 64 (b.addr + 24) ≠ 0#64 := by
    intro zero
    rw [zero] at value
    cases value
  obtain ⟨s', blocks', freed, called, layout', _, swept⟩ :=
    kfree_spec nonzero bound listed.toLayout (.inr isLive)
  obtain ⟨rfl, loop⟩ := swept notNull
  refine ⟨s', freed, called, layout', ?_⟩
  have marked := linked_markFree listed.tiles bound listed.linked held.1
  have tiles := tiles_markFree (p := b.addr + 24) listed.tiles
  have flags := flagged_markFree listed.tiles bound listed.flagged held.1
  have nonempty : markFree 24 (b.addr + 24) blocks ≠ [] := by
    rw [markFree, ne_eq, List.map_eq_nil_iff]
    exact listed.nonempty
  have fewer : (markFree 24 (b.addr + 24) blocks).length < loopBound := by
    rw [markFree, List.length_map]
    exact listed.fewer bound
  have start : s.heap.heapStartPtr = head (markFree 24 (b.addr + 24) blocks) := by
    rw [head_of_tiles tiles nonempty, ← head_of_tiles listed.tiles listed.nonempty, listed.head_eq]
  rw [payload_sub_header, start] at loop
  rw [release, value]
  exact kfreeLoop_flagged tiles (toNat_pos nonzero) bound marked flags fewer loop

theorem listed_written (bound : heapStart.toNat + heapSize.toNat < 2 ^ 64)
    (listed : Listed heapStart heapSize s blocks) {ptr : Addr} {i : Nat} (isLive : ptr ∈ s.live)
    (within : i < payloadSize s.heap.mem ptr) (v : Byte) :
    Listed heapStart heapSize { s with heap := { s.heap with
      mem := Function.update s.heap.mem (ptr + BitVec.ofNat 64 i) v } } blocks := by
  refine ⟨write_spec bound listed.toLayout isLive within v, ?_⟩
  obtain ⟨b, held, rfl⟩ := (listed.live ptr).mp isLive
  have inside := listed.tiles.inside held.1
  rw [payloadSize_eq listed.linked held.1 (by omega)] at within
  have place := toNat_field (a := b.addr + 24) (k := i) (by omega)
  refine listed.flagged.of_payload listed.tiles bound held.1 fun x outside => ?_
  refine Function.update_of_ne ?_ _ _
  rintro rfl
  omega

theorem reachable_listed (nonzero : heapStart ≠ 0#64) (header : 24 ≤ heapSize.toNat)
    (bound : heapStart.toNat + heapSize.toNat < 2 ^ 64) (reachable : Reachable heapStart heapSize s) :
    ∃ blocks, Listed heapStart heapSize s blocks := by
  induction reachable with
  | init m => exact ⟨_, listed_init header bound m⟩
  | @call s s' op _ allowed called ih =>
      obtain ⟨blocks, listed⟩ := ih
      cases op with
      | kmalloc n =>
          by_cases isZero : n = 0#64
          · obtain rfl := Option.some.inj ((call_refused nonzero bound listed (.inl isZero)).symm.trans called)
            exact ⟨blocks, listed⟩
          cases found : allocate 24 (roundUp n).toNat blocks with
          | none =>
              obtain rfl := Option.some.inj ((call_refused nonzero bound listed (.inr found)).symm.trans called)
              exact ⟨blocks, listed⟩
          | some result =>
              obtain ⟨m', _, called', listed', _⟩ := listed_granted nonzero bound listed isZero found
              obtain rfl := Option.some.inj (called'.symm.trans called)
              exact ⟨_, listed'⟩
      | kfree ptr =>
          by_cases isNull : ptr = 0#64
          · subst isNull
            obtain rfl := Option.some.inj ((call_null nonzero bound listed.toLayout).symm.trans called)
            exact ⟨blocks, listed⟩
          · obtain ⟨after, _, called', listed'⟩ :=
              listed_released nonzero bound listed (allowed.resolve_left isNull)
            obtain rfl := Option.some.inj (called'.symm.trans called)
            exact ⟨_, listed'⟩
      | write ptr i v =>
          obtain rfl := Option.some.inj called
          exact ⟨blocks, listed_written bound listed allowed.1 allowed.2 v⟩

end

end AstralOS.Kmalloc
