import AstralOS.Memory.KmallocBlocks

/-! In every reachable state the headers tile the heap, the allocated blocks are the
clients' and no call touches a block that is somebody else's. -/
namespace AstralOS.Kmalloc
open Foundation Foundation.FirstFit

/-- The header list from `heap_start`, and who holds its blocks. -/
structure Layout (heapStart heapSize : BitVec 64) (s : System) (blocks : List Block) : Prop where
  start : s.heap.heapStartPtr = heapStart
  nonempty : blocks ≠ []
  linked : Linked s.heap.mem blocks
  tiles : Tiles 24 heapStart.toNat blocks (heapStart.toNat + heapSize.toNat)
  aligned : Aligned 8 blocks
  live : ∀ p, p ∈ s.live ↔ ∃ b, Held blocks b ∧ p = BitVec.ofNat 64 (b.addr + 24)
  nodup : s.live.Nodup

/-- Sizes, positions and payload bytes of the blocks behind `ptrs` are what they were. -/
def Preserved (h h' : Heap) (ptrs : List Addr) : Prop :=
  ∀ p ∈ ptrs, payloadSize h'.mem p = payloadSize h.mem p ∧
    ∀ i < payloadSize h.mem p, h'.mem (p + BitVec.ofNat 64 i) = h.mem (p + BitVec.ofNat 64 i)

section
variable {heapStart heapSize : BitVec 64} {s : System} {blocks : List Block}

theorem Linked.header {m : Memory} (linked : Linked m blocks) {b : Block} (member : b ∈ blocks) :
    ∃ n, Header m b n := by
  induction blocks with
  | nil => cases member
  | cons c rest ih =>
      rcases List.mem_cons.mp member with rfl | later
      · exact ⟨_, linked.1⟩
      · exact ih linked.2 later

theorem payload_sub_header (a : Nat) : BitVec.ofNat 64 (a + 24) - headerSize = BitVec.ofNat 64 a := by
  rw [BitVec.ofNat_add]
  exact BitVec.add_sub_cancel _ _

theorem payloadSize_eq {m : Memory} (linked : Linked m blocks) {b : Block} (member : b ∈ blocks)
    (small : b.size < 2 ^ 64) : payloadSize m (BitVec.ofNat 64 (b.addr + 24)) = b.size := by
  obtain ⟨n, header⟩ := linked.header member
  rw [payloadSize, payload_sub_header, header.size, BitVec.toNat_ofNat, Nat.mod_eq_of_lt small]

namespace Layout

theorem head_eq (layout : Layout heapStart heapSize s blocks) :
    head blocks = s.heap.heapStartPtr := by
  rw [head_of_tiles layout.tiles layout.nonempty, layout.start, BitVec.ofNat_toNat,
    BitVec.setWidth_eq]

theorem fewer (layout : Layout heapStart heapSize s blocks)
    (bound : heapStart.toNat + heapSize.toNat < 2 ^ 64) : blocks.length < loopBound := by
  have few := layout.tiles.length_le (by decide)
  exact lt_of_le_of_lt ((Nat.le_add_left _ _).trans few) bound

/-- Blocks that stay held keep size and bytes when memory changes within the frame only. -/
theorem preserved {blocks' : List Block} {m' : Memory} {ptrs : List Addr}
    (layout : Layout heapStart heapSize s blocks)
    (bound : heapStart.toNat + heapSize.toNat < 2 ^ 64) (linked' : Linked m' blocks')
    (stays : ∀ p ∈ ptrs, ∃ b, Held blocks b ∧ Held blocks' b ∧
      p = BitVec.ofNat 64 (b.addr + 24) ∧ ∀ x : Addr, b.addr + 24 ≤ x.toNat →
        x.toNat < b.addr + 24 + b.size → m' x = s.heap.mem x) :
    Preserved s.heap { s.heap with mem := m' } ptrs := by
  intro p member
  obtain ⟨b, held, held', rfl, bytes⟩ := stays p member
  have inside := layout.tiles.inside held.1
  have before := payloadSize_eq layout.linked held.1 (by omega)
  refine ⟨(payloadSize_eq linked' held'.1 (by omega)).trans before.symm, fun i hi => ?_⟩
  rw [before] at hi
  have place := toNat_field (a := b.addr + 24) (k := i) (by omega)
  exact bytes _ (by omega) (by omega)

end Layout

theorem roundUp_aligned (n : BitVec 64) : 8 ∣ (roundUp n).toNat := by
  have low : roundUp n &&& 7#64 = 0#64 := by
    rw [roundUp, BitVec.and_assoc, BitVec.and_comm (~~~7#64)]
    simp
  have := congrArg BitVec.toNat low
  rw [BitVec.toNat_and] at this
  apply Nat.dvd_of_mod_eq_zero
  rw [← Nat.and_two_pow_sub_one_eq_mod _ 3]
  exact this

theorem layout_init (header : 24 ≤ heapSize.toNat)
    (bound : heapStart.toNat + heapSize.toNat < 2 ^ 64) (m : Memory) :
    Layout heapStart heapSize ⟨kmallocInit heapStart heapSize m, []⟩
      [⟨heapStart.toNat, heapSize.toNat - 24, true⟩] := by
  have fits : heapStart.toNat + 24 ≤ 2 ^ 64 := by omega
  have place : BitVec.ofNat 64 heapStart.toNat = heapStart := by simp
  have left : heapSize - headerSize = BitVec.ofNat 64 (heapSize.toNat - 24) := by
    apply BitVec.eq_of_toNat_eq
    simp only [headerSize, BitVec.toNat_sub, BitVec.toNat_ofNat]
    omega
  have written := (((header_of_bytes m heapStart.toNat).setSize fits
    (heapSize.toNat - 24)).setNext fits 0#64).setFree fits 1#32
  simp only [place, ← left] at written
  refine ⟨rfl, List.cons_ne_nil _ _, ⟨written, trivial⟩, ⟨rfl, ?_⟩, trivial, fun p => ?_, .nil⟩
  · change heapStart.toNat + 24 + (heapSize.toNat - 24) = heapStart.toNat + heapSize.toNat
    omega
  · simp [Held]

/-- A block fits: the heap is that of the list with it taken. -/
theorem kmalloc_granted (nonzero : heapStart ≠ 0#64)
    (bound : heapStart.toNat + heapSize.toNat < 2 ^ 64)
    (layout : Layout heapStart heapSize s blocks) {n : BitVec 64} (asked : n ≠ 0#64)
    {result : Nat × List Block} (found : allocate 24 (roundUp n).toNat blocks = some result) :
    ∃ m', kmalloc n s.heap = some (BitVec.ofNat 64 result.1, { s.heap with mem := m' }) ∧
      kmallocLoop (roundUp n) loopBound s.heap.mem s.heap.heapStartPtr = some (BitVec.ofNat 64 result.1, m') ∧
      Linked m' result.2 ∧
      Frame heapStart.toNat (heapStart.toNat + heapSize.toNat) blocks s.heap.mem m' := by
  have pos : 0 < heapStart.toNat := by
    rw [Nat.pos_iff_ne_zero]
    exact fun zero => nonzero (BitVec.eq_of_toNat_eq zero)
  have rounded : BitVec.ofNat 64 (roundUp n).toNat = roundUp n := by simp
  obtain ⟨m', loop, linked', frame⟩ := kmallocLoop_some layout.tiles pos bound layout.linked
    (layout.fewer bound) (roundUp n).isLt found
  rw [rounded, layout.head_eq] at loop
  refine ⟨m', ?_, loop, linked', frame⟩
  rw [kmalloc, if_neg asked, loop]
  rfl

/-- No block fits: null, and the heap as it was. -/
theorem kmalloc_refused (nonzero : heapStart ≠ 0#64)
    (bound : heapStart.toNat + heapSize.toNat < 2 ^ 64)
    (layout : Layout heapStart heapSize s blocks) {n : BitVec 64}
    (full : n = 0#64 ∨ allocate 24 (roundUp n).toNat blocks = none) :
    kmalloc n s.heap = some (0#64, s.heap) := by
  by_cases isZero : n = 0#64
  · exact if_pos isZero
  have pos : 0 < heapStart.toNat := by
    rw [Nat.pos_iff_ne_zero]
    exact fun zero => nonzero (BitVec.eq_of_toNat_eq zero)
  have rounded : BitVec.ofNat 64 (roundUp n).toNat = roundUp n := by simp
  have loop := kmallocLoop_none layout.tiles pos bound layout.linked (layout.fewer bound)
    (roundUp n).isLt (full.resolve_left isZero)
  rw [rounded, layout.head_eq] at loop
  rw [kmalloc, if_neg isZero, loop]
  rfl

/-- What `kmalloc` does to a heap with this layout. -/
theorem kmalloc_spec (nonzero : heapStart ≠ 0#64)
    (bound : heapStart.toNat + heapSize.toNat < 2 ^ 64)
    (layout : Layout heapStart heapSize s blocks) (n : BitVec 64) :
    ∃ s' blocks' r, kmalloc n s.heap = some r ∧ s.call (.kmalloc n) = some s' ∧ s'.heap = r.2 ∧
      Layout heapStart heapSize s' blocks' ∧ Preserved s.heap r.2 s.live ∧
      (r.1 ≠ 0#64 → r.1 ∉ s.live ∧ (roundUp n).toNat ≤ payloadSize r.2.mem r.1) ∧
      (n ≠ 0#64 → ∀ result, allocate 24 (roundUp n).toNat blocks = some result →
        r.1 ≠ 0#64 ∧ blocks' = result.2) := by
  have pos : 0 < heapStart.toNat := by
    rw [Nat.pos_iff_ne_zero]
    exact fun zero => nonzero (BitVec.eq_of_toNat_eq zero)
  have same : Preserved s.heap s.heap s.live := fun _ _ => ⟨rfl, fun _ _ => rfl⟩
  by_cases isZero : n = 0#64
  · have refused := kmalloc_refused nonzero bound layout (.inl isZero)
    refine ⟨s, blocks, (0#64, s.heap), refused, ?_, rfl, layout, same, (absurd rfl ·), (absurd isZero ·)⟩
    rw [System.call, refused]
    rfl
  cases found : allocate 24 (roundUp n).toNat blocks with
  | none =>
      have refused := kmalloc_refused nonzero bound layout (.inr found)
      refine ⟨s, blocks, (0#64, s.heap), refused, ?_, rfl, layout, same, (absurd rfl ·),
        fun _ _ other => (nomatch other)⟩
      rw [System.call, refused]
      rfl
  | some result =>
      obtain ⟨m', called, _, linked', frame⟩ := kmalloc_granted nonzero bound layout isZero found
      obtain ⟨taken, address, enough, notFree, fresh, held⟩ :=
        held_allocate layout.tiles (by omega) found
      have aligned' := aligned_allocate layout.aligned (roundUp_aligned n) (by omega) found
      have tiles' := tiles_allocate layout.tiles found
      have inside := tiles'.inside ((held taken).mpr (.inl rfl)).1
      have notNull : BitVec.ofNat 64 result.1 ≠ 0#64 := by
        intro zero
        have := congrArg BitVec.toNat zero
        rw [BitVec.toNat_ofNat, BitVec.toNat_ofNat] at this
        omega
      have fresh : BitVec.ofNat 64 result.1 ∉ s.live := by
        intro member
        obtain ⟨b, heldB, eq⟩ := (layout.live _).mp member
        have insideB := layout.tiles.inside heldB.1
        have := congrArg BitVec.toNat eq
        rw [BitVec.toNat_ofNat, BitVec.toNat_ofNat] at this
        exact fresh b heldB (by omega)
      refine ⟨⟨{ s.heap with mem := m' }, BitVec.ofNat 64 result.1 :: s.live⟩, result.2, _, called,
        ?_, rfl, ?_, ?_, fun _ => ⟨fresh, ?_⟩, fun _ other eq => ⟨notNull, ?_⟩⟩
      · rw [System.call, called, Option.map_some, if_neg notNull]
      · refine ⟨layout.start, aligned'.2 layout.nonempty, linked', tiles', aligned'.1, fun p => ?_,
          List.nodup_cons.mpr ⟨fresh, layout.nodup⟩⟩
        rw [List.mem_cons, layout.live, address]
        constructor
        · rintro (rfl | ⟨b, heldB, rfl⟩)
          · exact ⟨taken, (held taken).mpr (.inl rfl), rfl⟩
          · exact ⟨b, (held b).mpr (.inr heldB), rfl⟩
        · rintro ⟨b, heldB, rfl⟩
          rcases (held b).mp heldB with rfl | old
          · exact .inl rfl
          · exact .inr ⟨b, old, rfl⟩
      · refine layout.preserved bound linked' fun p member => ?_
        obtain ⟨b, heldB, rfl⟩ := (layout.live p).mp member
        exact ⟨b, heldB, (held b).mpr (.inr heldB), rfl, fun x low high =>
          frame x (.inr (.inr ⟨b, heldB, low, high⟩))⟩
      · change (roundUp n).toNat ≤ payloadSize m' (BitVec.ofNat 64 result.1)
        rw [address, payloadSize_eq linked' ((held taken).mpr (.inl rfl)).1 (by omega)]
        exact enough
      · rw [Option.some.inj eq]

theorem payload_ne_null (nonzero : heapStart ≠ 0#64)
    (bound : heapStart.toNat + heapSize.toNat < 2 ^ 64)
    (layout : Layout heapStart heapSize s blocks) {b : Block} (held : Held blocks b) :
    BitVec.ofNat 64 (b.addr + 24) ≠ 0#64 := by
  have pos : 0 < heapStart.toNat := by
    rw [Nat.pos_iff_ne_zero]
    exact fun zero => nonzero (BitVec.eq_of_toNat_eq zero)
  intro zero
  have inside := layout.tiles.inside held.1
  have := congrArg BitVec.toNat zero
  rw [BitVec.toNat_ofNat, BitVec.toNat_ofNat] at this
  omega

/-- Releasing null changes nothing. -/
theorem call_null (nonzero : heapStart ≠ 0#64)
    (bound : heapStart.toNat + heapSize.toNat < 2 ^ 64)
    (layout : Layout heapStart heapSize s blocks) : s.call (.kfree 0#64) = some s := by
  have kept : s.live.filter (· ≠ 0#64) = s.live := by
    refine List.filter_eq_self.mpr fun p member => ?_
    obtain ⟨b, held, rfl⟩ := (layout.live p).mp member
    exact decide_eq_true (payload_ne_null nonzero bound layout held)
  rw [System.call, kfree, if_pos rfl, Option.map_some, kept]

/-- What `kfree` does to a heap with this layout. -/
theorem kfree_spec (nonzero : heapStart ≠ 0#64)
    (bound : heapStart.toNat + heapSize.toNat < 2 ^ 64)
    (layout : Layout heapStart heapSize s blocks) {ptr : Addr}
    (allowed : ptr = 0#64 ∨ ptr ∈ s.live) :
    ∃ s' blocks', kfree ptr s.heap = some s'.heap ∧ s.call (.kfree ptr) = some s' ∧
      Layout heapStart heapSize s' blocks' ∧
      Preserved s.heap s'.heap (s.live.filter (· ≠ ptr)) ∧
      (ptr ≠ 0#64 → blocks' = release 24 ptr.toNat blocks ∧
        kfreeLoop loopBound (setFree s.heap.mem (ptr - headerSize) 1#32) s.heap.heapStartPtr =
          some s'.heap.mem) := by
  have pos : 0 < heapStart.toNat := by
    rw [Nat.pos_iff_ne_zero]
    exact fun zero => nonzero (BitVec.eq_of_toNat_eq zero)
  by_cases isNull : ptr = 0#64
  · subst isNull
    exact ⟨s, blocks, if_pos rfl, call_null nonzero bound layout, layout,
      fun _ _ => ⟨rfl, fun _ _ => rfl⟩, (absurd rfl ·)⟩
  obtain ⟨b, held, rfl⟩ := (layout.live ptr).mp (allowed.resolve_left isNull)
  have inside := layout.tiles.inside held.1
  have marked := linked_markFree layout.tiles bound layout.linked held.1
  have tiles := tiles_markFree (p := b.addr + 24) layout.tiles
  have nonemptyMarked : markFree 24 (b.addr + 24) blocks ≠ [] := by
    rw [markFree, ne_eq, List.map_eq_nil_iff]
    exact layout.nonempty
  have fewer : (markFree 24 (b.addr + 24) blocks).length < loopBound := by
    rw [markFree, List.length_map]
    exact layout.fewer bound
  obtain ⟨m', loop, linked', frame⟩ := kfreeLoop_spec tiles pos bound marked fewer
  rw [head_of_tiles tiles nonemptyMarked, ← head_of_tiles layout.tiles layout.nonempty,
    layout.head_eq] at loop
  have called : kfree (BitVec.ofNat 64 (b.addr + 24)) s.heap =
      some { s.heap with mem := m' } := by
    rw [kfree, if_neg isNull, payload_sub_header, loop]
    rfl
  have stays : ∀ p ∈ s.live.filter (· ≠ BitVec.ofNat 64 (b.addr + 24)),
      ∃ c, Held blocks c ∧ c.addr + 24 ≠ b.addr + 24 ∧ p = BitVec.ofNat 64 (c.addr + 24) := by
    intro p member
    obtain ⟨isLive, other⟩ := List.mem_filter.mp member
    obtain ⟨c, heldC, rfl⟩ := (layout.live p).mp isLive
    exact ⟨c, heldC, fun same => of_decide_eq_true other (by rw [same]), rfl⟩
  refine ⟨⟨{ s.heap with mem := m' }, s.live.filter (· ≠ BitVec.ofNat 64 (b.addr + 24))⟩,
    release 24 (b.addr + 24) blocks, called, ?_, ?_, ?_, fun _ => ⟨?_, by rw [payload_sub_header, loop]⟩⟩
  · rw [System.call, called, Option.map_some]
  · refine ⟨layout.start, sweep_ne_nil nonemptyMarked, linked', tiles_release layout.tiles,
      aligned_release layout.aligned (by omega), fun p => ?_, layout.nodup.filter _⟩
    constructor
    · intro member
      obtain ⟨c, heldC, other, rfl⟩ := stays p member
      exact ⟨c, (held_release c).mpr ⟨heldC, other⟩, rfl⟩
    · rintro ⟨c, heldC, rfl⟩
      obtain ⟨old, other⟩ := (held_release c).mp heldC
      refine List.mem_filter.mpr ⟨(layout.live _).mpr ⟨c, old, rfl⟩, decide_eq_true fun eq => ?_⟩
      have insideC := layout.tiles.inside old.1
      have := congrArg BitVec.toNat eq
      rw [BitVec.toNat_ofNat, BitVec.toNat_ofNat] at this
      omega
  · refine layout.preserved bound linked' fun p member => ?_
    obtain ⟨c, heldC, other, rfl⟩ := stays p member
    refine ⟨c, heldC, (held_release c).mpr ⟨heldC, other⟩, rfl, fun x low high => ?_⟩
    have heldMarked : Held (markFree 24 (b.addr + 24) blocks) c :=
      (held_markFree c).mpr ⟨heldC, other⟩
    rw [frame x (.inr (.inr ⟨c, heldMarked, low, high⟩))]
    -- the byte lies in another block than the header that was marked
    have insideC := layout.tiles.inside heldC.1
    refine setFree_apply (by omega) ?_
    rcases layout.tiles.apart heldC.1 held.1 with rfl | before | after
    · exact absurd rfl other
    · exact .inl (by omega)
    · exact .inr (by omega)
  · rw [BitVec.toNat_ofNat, Nat.mod_eq_of_lt (by omega)]

/-- A client's write stays inside its own payload. -/
theorem write_spec (bound : heapStart.toNat + heapSize.toNat < 2 ^ 64)
    (layout : Layout heapStart heapSize s blocks) {ptr : Addr} {i : Nat} (isLive : ptr ∈ s.live)
    (within : i < payloadSize s.heap.mem ptr) (v : Byte) :
    Layout heapStart heapSize { s with heap := { s.heap with
      mem := Function.update s.heap.mem (ptr + BitVec.ofNat 64 i) v } } blocks := by
  refine { layout with linked := ?_ }
  obtain ⟨b, held, rfl⟩ := (layout.live ptr).mp isLive
  have inside := layout.tiles.inside held.1
  rw [payloadSize_eq layout.linked held.1 (by omega)] at within
  have place := toNat_field (a := b.addr + 24) (k := i) (by omega)
  refine layout.linked.of_payload layout.tiles bound held.1 fun x outside => ?_
  refine Function.update_of_ne ?_ _ _
  rintro rfl
  omega

theorem reachable_layout (nonzero : heapStart ≠ 0#64) (header : 24 ≤ heapSize.toNat)
    (bound : heapStart.toNat + heapSize.toNat < 2 ^ 64) (reachable : Reachable heapStart heapSize s) :
    ∃ blocks, Layout heapStart heapSize s blocks := by
  induction reachable with
  | init m => exact ⟨_, layout_init header bound m⟩
  | @call s s' op _ allowed called ih =>
      obtain ⟨blocks, layout⟩ := ih
      cases op with
      | kmalloc n =>
          obtain ⟨after, blocks', r, _, called', _, layout', _, _⟩ :=
            kmalloc_spec nonzero bound layout n
          obtain rfl := Option.some.inj (called'.symm.trans called)
          exact ⟨blocks', layout'⟩
      | kfree ptr =>
          obtain ⟨after, blocks', _, called', layout', _, _⟩ := kfree_spec nonzero bound layout allowed
          obtain rfl := Option.some.inj (called'.symm.trans called)
          exact ⟨blocks', layout'⟩
      | write ptr i v =>
          obtain rfl := Option.some.inj called
          exact ⟨blocks, write_spec bound layout allowed.1 allowed.2 v⟩

/-- The headers in memory order, the live allocations among them, and where they lie. -/
theorem heap_safe (nonzero : heapStart ≠ 0#64) (header : 24 ≤ heapSize.toNat)
    (bound : heapStart.toNat + heapSize.toNat < 2 ^ 64) (reachable : Reachable heapStart heapSize s) :
    (∃ blocks, s.heap.heapStartPtr = heapStart ∧ head blocks = heapStart ∧
      Linked s.heap.mem blocks ∧ blocks.Pairwise (fun b c => b.addr < c.addr) ∧
      Tiles 24 heapStart.toNat blocks (heapStart.toNat + heapSize.toNat) ∧ s.live.Nodup ∧
      (∀ p, p ∈ s.live ↔ ∃ b ∈ blocks, b.free = false ∧ p.toNat = b.addr + 24) ∧
      (∀ b ∈ blocks, ∀ c ∈ blocks, b.free = false → c.free = false → b ≠ c →
        b.addr + 24 + b.size ≤ c.addr + 24 ∨ c.addr + 24 + c.size ≤ b.addr + 24) ∧
      (∀ b ∈ blocks, heapStart.toNat ≤ b.addr ∧
        b.addr + 24 + b.size ≤ heapStart.toNat + heapSize.toNat) ∧
      ∀ p ∈ s.live, p.toNat % 8 = heapStart.toNat % 8) ∧
    (∀ n, ∃ r, kmalloc n s.heap = some r ∧ Preserved s.heap r.2 s.live) ∧
    ∀ ptr, ptr = 0#64 ∨ ptr ∈ s.live → ∃ h, kfree ptr s.heap = some h ∧
      Preserved s.heap h (s.live.filter (· ≠ ptr)) := by
  obtain ⟨blocks, layout⟩ := reachable_layout nonzero header bound reachable
  have place : ∀ b ∈ blocks, ∀ p : Addr, p = BitVec.ofNat 64 (b.addr + 24) ↔
      p.toNat = b.addr + 24 := by
    intro b member p
    have inside := layout.tiles.inside member
    constructor
    · rintro rfl
      rw [BitVec.toNat_ofNat, Nat.mod_eq_of_lt (by omega)]
    · intro eq
      rw [← eq, BitVec.ofNat_toNat, BitVec.setWidth_eq]
  have live : ∀ p, p ∈ s.live ↔ ∃ b ∈ blocks, b.free = false ∧ p.toNat = b.addr + 24 := by
    intro p
    rw [layout.live]
    constructor
    · rintro ⟨b, ⟨member, held⟩, eq⟩
      exact ⟨b, member, held, (place b member p).mp eq⟩
    · rintro ⟨b, member, held, eq⟩
      exact ⟨b, ⟨member, held⟩, (place b member p).mpr eq⟩
  refine ⟨⟨blocks, layout.start, layout.head_eq.trans layout.start, layout.linked,
    layout.tiles.sorted (by omega), layout.tiles, layout.nodup, live, ?_,
    fun b member => layout.tiles.inside member, ?_⟩, fun n => ?_, fun ptr allowed => ?_⟩
  · intro b memberB c memberC _ _ different
    rcases layout.tiles.apart memberB memberC with eq | before | after
    · exact absurd eq different
    · exact .inl (by omega)
    · exact .inr (by omega)
  · intro p member
    obtain ⟨b, memberB, _, eq⟩ := (live p).mp member
    have := layout.tiles.addr_mod (by omega) layout.aligned memberB
    omega
  · obtain ⟨_, _, r, called, _, _, _, preserved, _⟩ := kmalloc_spec nonzero bound layout n
    exact ⟨r, called, preserved⟩
  · obtain ⟨after, _, called, _, _, preserved, _⟩ := kfree_spec nonzero bound layout allowed
    exact ⟨after.heap, called, preserved⟩

end

/-- A page with two live blocks and a free one between them: 64 bytes more can be asked for, and either block can
be released. -/
theorem heap_safe_used_page :
    (∃ r, kmalloc 64#64 usedPage.heap = some r ∧ Preserved usedPage.heap r.2 [0x1058#64, 0x1018#64]) ∧
      ∃ h, kfree 0x1018#64 usedPage.heap = some h ∧ Preserved usedPage.heap h [0x1058#64] := by
  obtain ⟨_, granted, released⟩ := heap_safe (by decide) (by decide) (by decide) usedPage_reachable
  have live : usedPage.live = [0x1058#64, 0x1018#64] := by decide +kernel
  rw [live] at granted released
  exact ⟨granted 64#64, released 0x1018#64 (.inr (by decide))⟩

end AstralOS.Kmalloc
