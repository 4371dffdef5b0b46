import AstralOS.Memory.KmallocPolicy
import AstralOS.Foundation.FreePairs

/-! How fragmented the heap can get: the sweep of `kfree` does not merge everything, but at most
one pair of free neighbours is ever left, and requests that are small against the free space are
granted. -/
namespace AstralOS.Kmalloc
open Foundation Foundation.FirstFit

/-- What the clients hold, headers included. -/
def heldBytes (s : System) : Nat := (s.live.map fun p => 24 + payloadSize s.heap.mem p).sum

section
variable {heapStart heapSize : BitVec 64} {s s' : System} {blocks : List Block} {n : BitVec 64}

/-- What a call can do to the blocks. -/
theorem listed_call (nonzero : heapStart ≠ 0#64) (bound : heapStart.toNat + heapSize.toNat < 2 ^ 64)
    (listed : Listed heapStart heapSize s blocks) {op : Op} (allowed : s.Allowed op)
    (called : s.call op = some s') :
    ∃ blocks', Listed heapStart heapSize s' blocks' ∧
      (blocks' = blocks ∨ (∃ need result, allocate 24 need blocks = some result ∧ blocks' = result.2) ∨
        ∃ p, blocks' = release 24 p blocks) := by
  cases op with
  | kmalloc n =>
      by_cases full : n = 0#64 ∨ allocate 24 (roundUp n).toNat blocks = none
      · obtain rfl := Option.some.inj ((call_refused nonzero bound listed full).symm.trans called)
        exact ⟨blocks, listed, .inl rfl⟩
      · rw [not_or] at full
        obtain ⟨result, found⟩ := Option.ne_none_iff_exists'.mp full.2
        obtain ⟨m', _, called', listed', _⟩ := listed_granted nonzero bound listed full.1 found
        obtain rfl := Option.some.inj (called'.symm.trans called)
        exact ⟨_, listed', .inr (.inl ⟨_, result, found, rfl⟩)⟩
  | kfree ptr =>
      by_cases isNull : ptr = 0#64
      · subst isNull
        obtain rfl := Option.some.inj ((call_null nonzero bound listed.toLayout).symm.trans called)
        exact ⟨blocks, listed, .inl rfl⟩
      · obtain ⟨after, _, called', listed'⟩ :=
          listed_released nonzero bound listed (allowed.resolve_left isNull)
        obtain rfl := Option.some.inj (called'.symm.trans called)
        exact ⟨_, listed', .inr (.inr ⟨_, rfl⟩)⟩
  | write ptr i v =>
      obtain rfl := Option.some.inj called
      exact ⟨blocks, listed_written bound listed allowed.1 allowed.2 v, .inl rfl⟩

theorem reachable_fewPairs (nonzero : heapStart ≠ 0#64) (header : 24 ≤ heapSize.toNat)
    (bound : heapStart.toNat + heapSize.toNat < 2 ^ 64) (reachable : Reachable heapStart heapSize s) :
    ∃ blocks, Listed heapStart heapSize s blocks ∧ freePairs blocks ≤ 1 := by
  induction reachable with
  | init m => exact ⟨_, listed_init header bound m, Nat.zero_le 1⟩
  | @call s s' op _ allowed called ih =>
      obtain ⟨blocks, listed, few⟩ := ih
      obtain ⟨blocks', listed', did⟩ := listed_call nonzero bound listed allowed called
      refine ⟨blocks', listed', ?_⟩
      rcases did with rfl | ⟨need, result, found, rfl⟩ | ⟨p, rfl⟩
      · exact few
      · exact (freePairs_allocate found).trans few
      · exact freePairs_release listed.tiles (by decide) p few

/-- The pointers that clients hold are the payloads of the held blocks, in some order. -/
theorem Listed.live_perm (listed : Listed heapStart heapSize s blocks)
    (bound : heapStart.toNat + heapSize.toNat < 2 ^ 64) :
    s.live.Perm ((blocks.filter fun b => !b.free).map fun b => BitVec.ofNat 64 (b.addr + 24)) := by
  have sorted := listed.tiles.sorted (by decide)
  refine (List.perm_ext_iff_of_nodup listed.nodup ?_).mpr fun p => ?_
  · refine List.pairwise_map.mpr ((sorted.filter _).imp_of_mem fun {b c} memberB memberC below same => ?_)
    have insideB := lt_of_le_of_lt (listed.tiles.inside (List.mem_of_mem_filter memberB)).2 bound
    have insideC := lt_of_le_of_lt (listed.tiles.inside (List.mem_of_mem_filter memberC)).2 bound
    have := congrArg BitVec.toNat same
    rw [BitVec.toNat_ofNat, BitVec.toNat_ofNat] at this
    omega
  · rw [listed.live, List.mem_map]
    constructor
    · rintro ⟨b, ⟨member, held⟩, rfl⟩
      exact ⟨b, List.mem_filter.mpr ⟨member, by rw [held]; rfl⟩, rfl⟩
    · rintro ⟨b, member, rfl⟩
      obtain ⟨member, held⟩ := List.mem_filter.mp member
      exact ⟨b, ⟨member, Bool.eq_false_of_not_eq_true' (by simpa using held)⟩, rfl⟩

theorem Listed.live_length (listed : Listed heapStart heapSize s blocks)
    (bound : heapStart.toNat + heapSize.toNat < 2 ^ 64) : s.live.length = heldCount blocks := by
  rw [(listed.live_perm bound).length_eq, List.length_map, heldCount, List.countP_eq_length_filter]
  congr 2
  funext b
  cases b.free <;> rfl

theorem Listed.heldBytes_eq (listed : Listed heapStart heapSize s blocks)
    (bound : heapStart.toNat + heapSize.toNat < 2 ^ 64) :
    heldBytes s = weight 24 (fun b => !b.free) blocks := by
  rw [heldBytes, ((listed.live_perm bound).map _).sum_eq, List.map_map, weight]
  refine congrArg List.sum (List.map_congr_left fun b member => ?_)
  have member := List.mem_of_mem_filter member
  have inside := listed.tiles.inside member
  rw [Function.comp_apply, payloadSize_eq listed.linked member (by omega)]

/-- In every state at most one free block is followed by a free one, so that the list is hardly
longer than what clients hold makes it. -/
theorem heap_stays_compact (nonzero : heapStart ≠ 0#64) (header : 24 ≤ heapSize.toNat)
    (bound : heapStart.toNat + heapSize.toNat < 2 ^ 64) (reachable : Reachable heapStart heapSize s) :
    ∃ blocks, blockList s.heap = some blocks ∧ freePairs blocks ≤ 1 ∧
      blocks.length ≤ 2 * s.live.length + 2 := by
  obtain ⟨blocks, listed, few⟩ := reachable_fewPairs nonzero header bound reachable
  refine ⟨blocks, listed.blockList nonzero bound, few, ?_⟩
  have free := freeCount_le blocks
  have first := startsFree_le blocks
  rw [length_eq_counts, listed.live_length bound]
  omega

/-- A request is granted when it fits `k + 2` times into what `k` clients leave; with nothing held
it may be of half the heap, whatever the order of the releases. -/
theorem small_request_granted (nonzero : heapStart ≠ 0#64) (header : 24 ≤ heapSize.toNat)
    (bound : heapStart.toNat + heapSize.toNat < 2 ^ 64) (reachable : Reachable heapStart heapSize s)
    (asked : n ≠ 0#64)
    (room : heldBytes s + (s.live.length + 2) * (roundedSize n + 24) ≤ heapSize.toNat) :
    ∃ p h', kmalloc n s.heap = some (p, h') ∧ p ≠ 0#64 := by
  obtain ⟨blocks, listed, few⟩ := reachable_fewPairs nonzero header bound reachable
  rw [listed.heldBytes_eq bound, listed.live_length bound] at room
  have least : roundedSize n + 24 ≤ (heldCount blocks + 2) * (roundedSize n + 24) :=
    Nat.le_mul_of_pos_left _ (by omega)
  have rounded : (roundUp n).toNat = roundedSize n := by
    have small : n.toNat ≤ roundedSize n := by
      rw [roundedSize]
      omega
    rw [roundUp_toNat, roundedSize, Nat.mod_eq_of_lt (by omega)]
  have possible : allocate 24 (roundedSize n) blocks ≠ none :=
    allocate_of_room listed.tiles (by decide) few (by omega)
  obtain ⟨result, found⟩ := Option.ne_none_iff_exists'.mp possible
  obtain ⟨m', granted, _, _, notNull⟩ := listed_granted nonzero bound listed asked (rounded.symm ▸ found)
  exact ⟨_, _, granted, notNull⟩

end

theorem heap_stays_compact_used_page :
    ∃ blocks, blockList usedPage.heap = some blocks ∧ freePairs blocks ≤ 1 ∧
      blocks.length ≤ 2 * usedPage.live.length + 2 :=
  heap_stays_compact (by decide) (by decide) (by decide) usedPage_reachable

/-- Of a page without allocations 2024 bytes can be had. -/
theorem small_request_granted_page :
    ∃ p h', kmalloc 2024#64 (kmallocInit 0x1000#64 0x1000#64 fun _ => 0) = some (p, h') ∧ p ≠ 0#64 :=
  @small_request_granted 0x1000#64 0x1000#64 _ 2024#64 (by decide) (by decide) (by decide) (.init fun _ => 0)
    (by decide) (by decide)

end AstralOS.Kmalloc
