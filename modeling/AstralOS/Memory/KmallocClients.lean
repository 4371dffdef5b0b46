import AstralOS.Memory.KmallocSafety

/-! The heap as its clients use it: a block is taken, filled and given back, and the
blocks of the others stay as they are. -/
namespace AstralOS.Kmalloc
open Foundation Foundation.FirstFit

def System.alloc (n : BitVec 64) (s : System) : Option (Addr × System) :=
  (kmalloc n s.heap).map fun r => (r.1, ⟨r.2, if r.1 = 0#64 then s.live else r.1 :: s.live⟩)

def System.withMem (s : System) (m : Memory) : System := { s with heap := { s.heap with mem := m } }

def System.mem (s : System) : Memory := s.heap.mem

@[simp] theorem withMem_live (s : System) (m : Memory) : (s.withMem m).live = s.live := rfl

@[simp] theorem withMem_mem (s : System) (m : Memory) : (s.withMem m).mem = m := rfl

/-- `m'` differs from `m` only inside the block behind `ptr`. -/
def FillsOnly (m m' : Memory) (ptr : Addr) : Prop :=
  ∀ x : Addr, payloadSize m ptr ≤ (x - ptr).toNat → m' x = m x

/-- The heap is in order, and the blocks behind `old` are allocated and untouched. -/
structure Keeps (heapStart heapSize : BitVec 64) (old : List Addr) (s s' : System) : Prop where
  layout : ∃ blocks, Layout heapStart heapSize s' blocks
  live : ∀ p ∈ old, p ∈ s'.live
  same : Preserved s.heap s'.heap old

section
variable {heapStart heapSize : BitVec 64} {s t u : System} {old : List Addr}
  {blocks : List Block}

theorem Keeps.trans (first : Keeps heapStart heapSize old s t)
    (second : Keeps heapStart heapSize old t u) : Keeps heapStart heapSize old s u := by
  refine ⟨second.layout, second.live, fun p member => ?_⟩
  obtain ⟨size, bytes⟩ := first.same p member
  obtain ⟨size', bytes'⟩ := second.same p member
  exact ⟨size'.trans size, fun i within =>
    (bytes' i (Nat.lt_of_lt_of_eq within size.symm)).trans (bytes i within)⟩

theorem Keeps.sub {some : List Addr} (keeps : Keeps heapStart heapSize old s t)
    (sub : ∀ p ∈ some, p ∈ old) : Keeps heapStart heapSize some s t :=
  ⟨keeps.layout, fun p member => keeps.live p (sub p member),
    fun p member => keeps.same p (sub p member)⟩

/-- A field of an untouched block reads as before. -/
theorem Preserved.load {h h' : Heap} (same : Preserved h h' old) {p : Addr} (member : p ∈ old)
    {w k len : Nat} (within : k + len ≤ payloadSize h.mem p) :
    load w len h'.mem (p + BitVec.ofNat 64 k) = load w len h.mem (p + BitVec.ofNat 64 k) := by
  refine load_congr fun i hi => ?_
  rw [BitVec.add_assoc, ← BitVec.ofNat_add]
  exact (same p member).2 (k + i) (by omega)

theorem alloc_spec (nonzero : heapStart ≠ 0#64)
    (bound : heapStart.toNat + heapSize.toNat < 2 ^ 64)
    (layout : Layout heapStart heapSize s blocks) (n : BitVec 64) :
    ∃ p t blocks', s.alloc n = some (p, t) ∧ Layout heapStart heapSize t blocks' ∧
      Keeps heapStart heapSize s.live s t ∧ (p = 0#64 → t.live = s.live) ∧
      (p ≠ 0#64 → t.live = p :: s.live ∧ p ∉ s.live ∧ (roundUp n).toNat ≤ payloadSize t.mem p) ∧
      (n ≠ 0#64 → ∀ result, allocate 24 (roundUp n).toNat blocks = some result →
        p ≠ 0#64 ∧ blocks' = result.2) := by
  obtain ⟨t, blocks', r, taken, called, heap, layout', same, new, found⟩ :=
    kmalloc_spec nonzero bound layout n
  rw [System.call, taken] at called
  obtain rfl := Option.some.inj called
  refine ⟨r.1, _, blocks', by rw [System.alloc, taken]; rfl, layout',
    ⟨⟨blocks', layout'⟩, fun p member => ?_, same⟩,
    fun null => if_pos null, fun got => ⟨if_neg got, new got⟩, found⟩
  change p ∈ if r.1 = 0#64 then s.live else r.1 :: s.live
  by_cases null : r.1 = 0#64
  · rw [if_pos null]
    exact member
  · rw [if_neg null]
    exact List.mem_cons_of_mem _ member

/-- The block the first fit takes is the one the client gets. -/
theorem alloc_granted (nonzero : heapStart ≠ 0#64)
    (bound : heapStart.toNat + heapSize.toNat < 2 ^ 64)
    (layout : Layout heapStart heapSize s blocks) {n : BitVec 64} (asked : n ≠ 0#64)
    {result : Nat × List Block} (found : allocate 24 (roundUp n).toNat blocks = some result) :
    ∃ t, s.alloc n = some (BitVec.ofNat 64 result.1, t) ∧ Layout heapStart heapSize t result.2 ∧
      BitVec.ofNat 64 result.1 ≠ 0#64 ∧ t.live = BitVec.ofNat 64 result.1 :: s.live ∧
      (roundUp n).toNat ≤ payloadSize t.mem (BitVec.ofNat 64 result.1) ∧
      Keeps heapStart heapSize s.live s t := by
  obtain ⟨p, t, blocks', ran, layout', keeps, _, new, first⟩ := alloc_spec nonzero bound layout n
  obtain ⟨m', taken, _⟩ := kmalloc_granted nonzero bound layout asked found
  obtain ⟨got, rfl⟩ := first asked result found
  have address : p = BitVec.ofNat 64 result.1 := by
    rw [System.alloc, taken] at ran
    exact (congrArg Prod.fst (Option.some.inj ran)).symm
  subst address
  exact ⟨t, ran, layout', got, (new got).1, (new got).2.2, keeps⟩

theorem alloc_refused (nonzero : heapStart ≠ 0#64)
    (bound : heapStart.toNat + heapSize.toNat < 2 ^ 64)
    (layout : Layout heapStart heapSize s blocks) {n : BitVec 64}
    (full : n = 0#64 ∨ allocate 24 (roundUp n).toNat blocks = none) : s.alloc n = some (0#64, s) := by
  rw [System.alloc, kmalloc_refused nonzero bound layout full]
  rfl

theorem release_layout (nonzero : heapStart ≠ 0#64)
    (bound : heapStart.toNat + heapSize.toNat < 2 ^ 64)
    (layout : Layout heapStart heapSize s blocks) {ptr : Addr} (isLive : ptr ∈ s.live) :
    ∃ t blocks', s.call (.kfree ptr) = some t ∧ Layout heapStart heapSize t blocks' ∧
      t.live = s.live.filter (· ≠ ptr) := by
  obtain ⟨t, blocks', freed, called, layout', _⟩ := kfree_spec nonzero bound layout (.inr isLive)
  have live := called
  rw [System.call, freed] at live
  exact ⟨t, blocks', called, layout', (congrArg System.live (Option.some.inj live)).symm⟩

theorem release_spec (nonzero : heapStart ≠ 0#64)
    (bound : heapStart.toNat + heapSize.toNat < 2 ^ 64)
    (layout : Layout heapStart heapSize s blocks) {ptr : Addr} (isLive : ptr ∈ s.live) :
    ∃ t, s.call (.kfree ptr) = some t ∧
      Keeps heapStart heapSize (s.live.filter (· ≠ ptr)) s t := by
  obtain ⟨t, blocks', freed, called, layout', same, _⟩ :=
    kfree_spec nonzero bound layout (.inr isLive)
  rw [System.call, freed] at called
  have live := congrArg System.live (Option.some.inj called)
  exact ⟨t, by rw [System.call, freed]; exact called, ⟨blocks', layout'⟩,
    fun p member => live ▸ member, same⟩

/-- Filling a block leaves the headers alone. -/
theorem fill_layout (bound : heapStart.toNat + heapSize.toNat < 2 ^ 64)
    (layout : Layout heapStart heapSize s blocks) {ptr : Addr} (isLive : ptr ∈ s.live) {m : Memory}
    (fills : FillsOnly s.mem m ptr) : Layout heapStart heapSize (s.withMem m) blocks ∧
      ∃ b, Held blocks b ∧ ptr = BitVec.ofNat 64 (b.addr + 24) ∧
        ∀ x : Addr, x.toNat < b.addr + 24 ∨ b.addr + 24 + b.size ≤ x.toNat → m x = s.mem x := by
  obtain ⟨b, held, rfl⟩ := (layout.live ptr).mp isLive
  have inside := layout.tiles.inside held.1
  have size := payloadSize_eq layout.linked held.1 (by omega)
  have start : (BitVec.ofNat 64 (b.addr + 24)).toNat = b.addr + 24 := by
    rw [BitVec.toNat_ofNat, Nat.mod_eq_of_lt (by omega)]
  have outside : ∀ x : Addr, x.toNat < b.addr + 24 ∨ b.addr + 24 + b.size ≤ x.toNat →
      m x = s.mem x := by
    intro x out
    refine fills x (Nat.le_of_not_lt fun near => ?_)
    rw [System.mem, size] at near
    have := (toNat_sub_lt_iff (by omega)).mp near
    omega
  have linked := layout.linked.of_payload layout.tiles bound held.1 outside
  exact ⟨{ layout with linked := linked }, b, held, rfl, outside⟩

/-- The other blocks keep their bytes, and the filled one its size. -/
theorem fill_spec (bound : heapStart.toNat + heapSize.toNat < 2 ^ 64)
    (layout : Layout heapStart heapSize s blocks) {ptr : Addr} (isLive : ptr ∈ s.live) {m : Memory}
    (fills : FillsOnly s.mem m ptr) :
    Keeps heapStart heapSize (s.live.filter (· ≠ ptr)) s (s.withMem m) ∧
      payloadSize m ptr = payloadSize s.mem ptr := by
  obtain ⟨layout', b, held, rfl, outside⟩ := fill_layout bound layout isLive fills
  have inside := layout.tiles.inside held.1
  have size := payloadSize_eq layout.linked held.1 (by omega)
  refine ⟨⟨⟨blocks, layout'⟩, fun p member => (List.mem_filter.mp member).1, ?_⟩,
    (payloadSize_eq layout'.linked held.1 (by omega)).trans size.symm⟩
  refine layout.preserved bound layout'.linked fun p member => ?_
  obtain ⟨isLiveP, other⟩ := List.mem_filter.mp member
  obtain ⟨c, heldC, rfl⟩ := (layout.live p).mp isLiveP
  refine ⟨c, heldC, heldC, rfl, fun x low high => outside x ?_⟩
  rcases layout.tiles.apart heldC.1 held.1 with rfl | before | after
  · exact absurd rfl (of_decide_eq_true other)
  · omega
  · omega

theorem Reachable.alloc (reachable : Reachable heapStart heapSize s) {n : BitVec 64} {p : Addr}
    (ran : s.alloc n = some (p, t)) : Reachable heapStart heapSize t := by
  obtain ⟨r, taken, eq⟩ := Option.map_eq_some_iff.mp ran
  refine .call (.kmalloc n) reachable trivial ?_
  rw [System.call, taken, Option.map_some]
  exact congrArg (fun r => some (Prod.snd r)) eq

theorem Reachable.release (reachable : Reachable heapStart heapSize s) {ptr : Addr} (isLive : ptr ∈ s.live)
    (freed : s.call (.kfree ptr) = some t) : Reachable heapStart heapSize t :=
  .call (.kfree ptr) reachable (Or.inr isLive) freed

/-- The first `n` bytes of a block as `m'` has them, the others as `m` does. -/
def filledTo (m m' : Memory) (ptr : Addr) (n : Nat) : Memory := fun x =>
  if (x - ptr).toNat < n then m' x else m x

theorem filledTo_succ {m m' : Memory} {ptr : Addr} {n : Nat} (small : n < 2 ^ 64) :
    filledTo m m' ptr (n + 1) = Function.update (filledTo m m' ptr n) (ptr + BitVec.ofNat 64 n)
      (m' (ptr + BitVec.ofNat 64 n)) := by
  funext x
  by_cases here : x = ptr + BitVec.ofNat 64 n
  · subst here
    have place : (ptr + BitVec.ofNat 64 n - ptr).toNat = n := by
      rw [add_sub_cancel_left, BitVec.toNat_ofNat, Nat.mod_eq_of_lt small]
    rw [Function.update_self, filledTo, place, if_pos (Nat.lt_succ_self n)]
  · have place : (x - ptr).toNat ≠ n := by
      intro same
      refine here (sub_eq_iff_eq_add'.mp (BitVec.eq_of_toNat_eq ?_))
      rw [same, BitVec.toNat_ofNat, Nat.mod_eq_of_lt small]
    rw [Function.update_of_ne here, filledTo, filledTo]
    by_cases before : (x - ptr).toNat < n
    · rw [if_pos before, if_pos (Nat.lt_succ_of_lt before)]
    · rw [if_neg before, if_neg (by omega)]

/-- Filling a block is a run of writes inside it. -/
theorem Reachable.fill (bound : heapStart.toNat + heapSize.toNat < 2 ^ 64)
    (reachable : Reachable heapStart heapSize s) (layout : Layout heapStart heapSize s blocks) {ptr : Addr}
    (isLive : ptr ∈ s.live) {m : Memory} (fills : FillsOnly s.mem m ptr) :
    Reachable heapStart heapSize (s.withMem m) := by
  have upTo : ∀ n ≤ payloadSize s.mem ptr, Reachable heapStart heapSize (s.withMem (filledTo s.mem m ptr n)) := by
    intro n within
    induction n with
    | zero =>
        have nothing : filledTo s.mem m ptr 0 = s.mem := funext fun x => if_neg (Nat.not_lt_zero _)
        rw [nothing]
        exact reachable
    | succ n ih =>
        have part : FillsOnly s.mem (filledTo s.mem m ptr n) ptr := fun x far => if_neg (by omega)
        have same := (fill_spec bound layout isLive part).2
        have small : payloadSize s.mem ptr < 2 ^ 64 := (size s.mem (ptr - headerSize)).isLt
        refine .call (.write ptr n (m (ptr + BitVec.ofNat 64 n))) (ih (by omega)) ⟨isLive, ?_⟩ ?_
        · exact (Nat.lt_of_succ_le within).trans_eq same.symm
        · rw [filledTo_succ (by omega)]
          rfl
  have all : filledTo s.mem m ptr (payloadSize s.mem ptr) = m := by
    funext x
    rw [filledTo]
    by_cases inside : (x - ptr).toNat < payloadSize s.mem ptr
    · rw [if_pos inside]
    · rw [if_neg inside]
      exact (fills x (Nat.not_lt.mp inside)).symm
  exact all ▸ upTo _ le_rfl

/-- A field seen from the start of the block it is in. -/
theorem store_field_outside {m : Memory} {p x : Addr} {w k n len : Nat} {v : BitVec w}
    (within : k + n ≤ len) (small : len < 2 ^ 64) (far : len ≤ (x - p).toNat) :
    store n m (p + BitVec.ofNat 64 k) v x = m x := by
  refine store_outside m v ?_
  have bound := (x - p).isLt
  have distance : (x - (p + BitVec.ofNat 64 k)).toNat =
      (2 ^ 64 - k % 2 ^ 64 + (x - p).toNat) % 2 ^ 64 := by
    rw [sub_add_eq_sub_sub, BitVec.toNat_sub, BitVec.toNat_ofNat]
  rw [distance]
  omega

theorem fillsOnly_store {m : Memory} {ptr : Addr} {w k len : Nat} {v : BitVec w}
    (within : k + len ≤ payloadSize m ptr) :
    FillsOnly m (store len m (ptr + BitVec.ofNat 64 k) v) ptr := fun _ far =>
  store_field_outside within (size m (ptr - headerSize)).isLt far

/-- Two fields of one block that do not meet. -/
theorem load_store_other {m : Memory} {p : Addr} {w w' k k' n n' : Nat} {v : BitVec w}
    (apart : k + n ≤ k' ∨ k' + n' ≤ k) (small : k + n < 2 ^ 63 ∧ k' + n' < 2 ^ 63) :
    load w' n' (store n m (p + BitVec.ofNat 64 k) v) (p + BitVec.ofNat 64 k') =
      load w' n' m (p + BitVec.ofNat 64 k') := by
  refine load_store_apart m _ _ v fun i hi => ?_
  have distance : (p + BitVec.ofNat 64 k' + BitVec.ofNat 64 i - (p + BitVec.ofNat 64 k)).toNat =
      (2 ^ 64 - k % 2 ^ 64 + (k' + i)) % 2 ^ 64 := by
    rw [BitVec.add_assoc, ← BitVec.ofNat_add, add_sub_add_left_eq_sub, BitVec.toNat_sub,
      BitVec.toNat_ofNat, BitVec.toNat_ofNat]
    omega
  rw [distance]
  omega

end

section
variable {heapStart heapSize : BitVec 64} {s t : System}

/-! A heap whose free space is one block at its end. -/

structure Room (heapStart heapSize : BitVec 64) (s : System) (n : Nat) : Prop where
  last : ∃ used a size, Layout heapStart heapSize s (used ++ [⟨a, size, true⟩]) ∧
    (∀ b ∈ used, b.free = false) ∧ n ≤ size

theorem allocate_last {used : List Block} (taken : ∀ b ∈ used, b.free = false) {a size need : Nat}
    (enough : need + 24 < size) : allocate 24 need (used ++ [⟨a, size, true⟩]) =
      some (a + 24, used ++ [⟨a, need, false⟩] ++ [⟨a + 24 + need, size - need - 24, true⟩]) := by
  induction used with
  | nil =>
      have takes : (true = true) ∧ need ≤ size := ⟨rfl, by omega⟩
      rw [List.nil_append, allocate, if_pos takes, if_pos enough]
      rfl
  | cons b rest ih =>
      have held : ¬ (b.free = true ∧ need ≤ b.size) := fun h => by
        rw [taken b List.mem_cons_self] at h
        cases h.1
      rw [List.cons_append, allocate, if_neg held,
        ih fun c member => taken c (List.mem_cons_of_mem b member)]
      rfl

/-- With room left the allocation succeeds and leaves the rest of the room. -/
theorem alloc_room (nonzero : heapStart ≠ 0#64)
    (bound : heapStart.toNat + heapSize.toNat < 2 ^ 64) {room : Nat}
    (fresh : Room heapStart heapSize s room) {n : BitVec 64} (some : n ≠ 0#64)
    (enough : (roundUp n).toNat + 24 < room) :
    ∃ p t, s.alloc n = Option.some (p, t) ∧ p ≠ 0#64 ∧ t.live = p :: s.live ∧ p ∉ s.live ∧
      (roundUp n).toNat ≤ payloadSize t.mem p ∧ Keeps heapStart heapSize s.live s t ∧
      Room heapStart heapSize t (room - (roundUp n).toNat - 24) := by
  obtain ⟨used, a, size, layout, taken, fits⟩ := fresh.last
  obtain ⟨p, t, blocks', ran, layout', keeps, _, new, found⟩ := alloc_spec nonzero bound layout n
  obtain ⟨got, rfl⟩ := found some _ (allocate_last taken (by omega))
  obtain ⟨live, out, payload⟩ := new got
  refine ⟨p, t, ran, got, live, out, payload, keeps, _, _, _, layout', fun b member => ?_, by omega⟩
  rcases List.mem_append.mp member with old | new
  · exact taken b old
  · rw [List.mem_singleton.mp new]

theorem fill_room (bound : heapStart.toNat + heapSize.toNat < 2 ^ 64) {room : Nat}
    (fresh : Room heapStart heapSize s room) {ptr : Addr} (isLive : ptr ∈ s.live) {m : Memory}
    (fills : FillsOnly s.mem m ptr) : Room heapStart heapSize (s.withMem m) room := by
  obtain ⟨used, a, size, layout, taken, fits⟩ := fresh.last
  exact ⟨used, a, size, (fill_layout bound layout isLive fills).1, taken, fits⟩

theorem room_init (header : 24 ≤ heapSize.toNat)
    (bound : heapStart.toNat + heapSize.toNat < 2 ^ 64) (m : Memory) :
    Room heapStart heapSize ⟨kmallocInit heapStart heapSize m, []⟩ (heapSize.toNat - 24) :=
  ⟨[], _, _, layout_init header bound m, List.forall_mem_nil _, Nat.le_refl _⟩

end
end AstralOS.Kmalloc
