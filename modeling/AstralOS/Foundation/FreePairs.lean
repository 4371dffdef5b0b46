import AstralOS.Foundation.Coalescing

/-! How far one sweep lags behind: it halves the number of free neighbours, and a release makes
at most two new pairs of them, so that there is never more than one. -/
namespace Foundation.FirstFit

def bothFree (b c : Block) : Nat := if b.free = true ∧ c.free = true then 1 else 0

/-- How many blocks are free and followed by a free block. -/
def freePairs : List Block → Nat
  | b :: c :: rest => bothFree b c + freePairs (c :: rest)
  | _ => 0

def heldCount (blocks : List Block) : Nat := blocks.countP fun b => b.free = false

def freeCount (blocks : List Block) : Nat := blocks.countP fun b => b.free = true

/-- The units of the blocks that `P` holds of, their headers included. -/
def weight (h : Nat) (P : Block → Bool) (blocks : List Block) : Nat :=
  ((blocks.filter P).map fun b => h + b.size).sum

variable {h need p a e : Nat} {b c d : Block} {blocks rest : List Block}

theorem bothFree_le : bothFree b c ≤ 1 := by
  rw [bothFree]
  split
  · exact le_rfl
  · exact Nat.zero_le 1

theorem bothFree_of_held (held : b.free = false) : bothFree b c = 0 :=
  if_neg fun both => Bool.noConfusion (held.symm.trans both.1)

theorem bothFree_mono {b' c' : Block} (first : b'.free = true → b.free = true)
    (second : c'.free = true → c.free = true) : bothFree b' c' ≤ bothFree b c := by
  rw [bothFree]
  split
  · rename_i both
    rw [bothFree, if_pos ⟨first both.1, second both.2⟩]
  · exact Nat.zero_le _

theorem freePairs_cons_le : freePairs (b :: rest) ≤ 1 + freePairs rest := by
  cases rest with
  | nil => exact Nat.zero_le _
  | cons c rest => exact Nat.add_le_add_right bothFree_le _

theorem freePairs_tail_le : freePairs rest ≤ freePairs (b :: rest) := by
  cases rest with
  | nil => exact le_rfl
  | cons c rest => exact Nat.le_add_left _ _

theorem freePairs_held (held : b.free = false) : freePairs (b :: rest) = freePairs rest := by
  cases rest with
  | nil => rfl
  | cons c rest => rw [freePairs, bothFree_of_held held, Nat.zero_add]

/-- Only the flag of the first block counts. -/
theorem freePairs_head {b' : Block} (flag : b'.free = b.free) :
    freePairs (b' :: rest) = freePairs (b :: rest) := by
  cases rest with
  | nil => rfl
  | cons c rest => rw [freePairs, freePairs, bothFree, bothFree, flag]

/-- What stands before a sweep sees the same first flag after it. -/
theorem freePairs_cons_sweep (h : Nat) (b c : Block) (rest : List Block) :
    freePairs (b :: sweep h (c :: rest)) = bothFree b c + freePairs (sweep h (c :: rest)) := by
  obtain ⟨size, rest', swept⟩ := sweep_cons h c rest
  rw [swept]
  rfl

/-- A run of `k` free blocks becomes one of half its length, rounded up. -/
theorem freePairs_sweep (h : Nat) (blocks : List Block) : 2 * freePairs (sweep h blocks) ≤ freePairs blocks := by
  induction blocks using sweep.induct with
  | case1 => exact le_rfl
  | case2 b => exact le_rfl
  | case3 b c rest free ih =>
      rw [sweep, if_pos free, freePairs, bothFree, if_pos free]
      cases rest with
      | nil => exact Nat.zero_le _
      | cons d rest =>
          have merged : bothFree { b with size := b.size + (h + c.size) } d ≤ bothFree c d :=
            bothFree_mono (fun _ => free.2) id
          have once := @bothFree_le c d
          rw [freePairs_cons_sweep, freePairs]
          omega
  | case4 b c rest kept ih =>
      rw [sweep, if_neg kept, freePairs_cons_sweep, freePairs]
      have apart : bothFree b c = 0 := if_neg kept
      omega

/-- A block that becomes free has two neighbours. -/
theorem freePairs_markFree (t : Tiles h a blocks e) (pos : 0 < h) :
    freePairs (markFree h p blocks) ≤ freePairs blocks + 2 := by
  induction blocks generalizing a with
  | nil => exact Nat.zero_le _
  | cons b rest ih =>
      have start := t.1
      rw [markFree, List.map_cons, ← markFree]
      by_cases here : b.addr + h = p
      · rw [if_pos here, markFree_later t.2 (by omega)]
        have first := @freePairs_cons_le { b with free := true } rest
        have same := @freePairs_tail_le b rest
        omega
      · rw [if_neg here]
        cases rest with
        | nil => exact Nat.zero_le _
        | cons c rest =>
            have later := ih t.2
            rw [markFree, List.map_cons, ← markFree] at later ⊢
            rw [freePairs, freePairs]
            by_cases next : c.addr + h = p
            · rw [if_pos next, markFree_later t.2.2 (by have := t.2.1; omega)] at later ⊢
              have second := @bothFree_le b { c with free := true }
              have third := @freePairs_cons_le { c with free := true } rest
              have same := @freePairs_tail_le c rest
              omega
            · rw [if_neg next] at later ⊢
              omega

/-- An allocation takes a block out of a run of free ones. -/
theorem freePairs_allocate {result : Nat × List Block} (found : allocate h need blocks = some result) :
    freePairs result.2 ≤ freePairs blocks := by
  induction blocks generalizing result with
  | nil => cases found
  | cons b rest ih =>
      rw [allocate] at found
      split at found
      · rename_i fits
        split at found
        · obtain rfl := Option.some.inj found
          rw [freePairs_held rfl, freePairs_head fits.1.symm]
        · obtain rfl := Option.some.inj found
          rw [freePairs_held rfl]
          exact freePairs_tail_le
      · obtain ⟨later, eq, rfl⟩ := Option.map_eq_some_iff.mp found
        have fewer := ih eq
        cases rest with
        | nil => cases eq
        | cons c rest =>
            obtain ⟨c', rest', shape, flag⟩ := allocate_cons eq
            rw [shape] at fewer ⊢
            exact Nat.add_le_add (bothFree_mono id flag) fewer

/-- With at most one pair before, a release leaves at most one pair. -/
theorem freePairs_release (t : Tiles h a blocks e) (pos : 0 < h) (p : Nat) (few : freePairs blocks ≤ 1) :
    freePairs (release h p blocks) ≤ 1 := by
  have marked := freePairs_markFree (p := p) t pos
  have halved := freePairs_sweep h (markFree h p blocks)
  rw [release]
  omega

/-! What few pairs say about the number of blocks and about the room in them. -/

def startsFree : List Block → Nat
  | [] => 0
  | b :: _ => if b.free = true then 1 else 0

theorem freePairs_cons_free (free : b.free = true) : freePairs (b :: rest) = startsFree rest + freePairs rest := by
  cases rest with
  | nil => rfl
  | cons c rest =>
      have same : bothFree b c = startsFree (c :: rest) := by
        rw [bothFree, startsFree]
        simp only [free, true_and]
      rw [freePairs, same]

theorem startsFree_le (blocks : List Block) : startsFree blocks ≤ 1 := by
  cases blocks with
  | nil => exact Nat.zero_le 1
  | cons b rest =>
      rw [startsFree]
      split
      · exact le_rfl
      · exact Nat.zero_le 1

theorem counts_cons (b : Block) (rest : List Block) :
    heldCount (b :: rest) = heldCount rest + (if b.free = false then 1 else 0) ∧
      freeCount (b :: rest) = freeCount rest + (if b.free = true then 1 else 0) := by
  constructor
  · simp only [heldCount, List.countP_cons, decide_eq_true_eq]
  · simp only [freeCount, List.countP_cons, decide_eq_true_eq]

theorem length_eq_counts (blocks : List Block) : blocks.length = heldCount blocks + freeCount blocks := by
  induction blocks with
  | nil => rfl
  | cons b rest ih =>
      obtain ⟨held, free⟩ := counts_cons b rest
      rw [List.length_cons, held, free, ih]
      cases b.free <;> simp <;> omega

/-- Runs of free blocks are set apart by held ones. -/
theorem freeCount_le (blocks : List Block) :
    freeCount blocks ≤ heldCount blocks + freePairs blocks + startsFree blocks := by
  induction blocks with
  | nil => exact Nat.zero_le _
  | cons b rest ih =>
      obtain ⟨held, free⟩ := counts_cons b rest
      rw [held, free, startsFree]
      cases flag : b.free with
      | true =>
          rw [freePairs_cons_free flag, if_neg Bool.true_eq_false_eq_False, if_pos rfl]
          omega
      | false =>
          have first := startsFree_le rest
          rw [freePairs_held flag, if_pos rfl, if_neg Bool.false_ne_true]
          omega

theorem weight_cons (h : Nat) (P : Block → Bool) (b : Block) (rest : List Block) :
    weight h P (b :: rest) = (if P b = true then h + b.size else 0) + weight h P rest := by
  rw [weight, List.filter_cons]
  split
  · rw [List.map_cons, List.sum_cons, ← weight]
  · rw [Nat.zero_add, ← weight]

/-- The blocks make up what they tile. -/
theorem Tiles.weights (t : Tiles h a blocks e) :
    a + weight h (fun b => !b.free) blocks + weight h Block.free blocks = e := by
  induction blocks generalizing a with
  | nil => exact t
  | cons b rest ih =>
      have later := ih t.2
      rw [weight_cons, weight_cons]
      cases b.free with
      | true =>
          simp only [Bool.not_true, Bool.false_eq_true, if_false, if_true]
          omega
      | false =>
          simp only [Bool.not_false, Bool.false_eq_true, if_false, if_true]
          omega

/-- Free blocks that are all too small do not amount to much. -/
theorem weight_free_le (small : ∀ b ∈ blocks, ¬ Suits need b) :
    weight h Block.free blocks ≤ freeCount blocks * (need + h - 1) := by
  induction blocks with
  | nil => exact Nat.zero_le _
  | cons b rest ih =>
      obtain ⟨here, below⟩ := List.forall_mem_cons.mp small
      have later := ih below
      rw [weight_cons, (counts_cons b rest).2]
      cases flag : b.free with
      | true =>
          have less : b.size < need := Nat.lt_of_not_le fun large => here ⟨flag, large⟩
          rw [if_pos rfl, if_pos rfl, Nat.add_mul, Nat.one_mul]
          omega
      | false =>
          rw [if_neg Bool.false_ne_true, if_neg Bool.false_ne_true, Nat.zero_add, Nat.add_zero]
          exact later

/-- A request that is small against the room that is not held is granted. -/
theorem allocate_of_room (t : Tiles h a blocks e) (pos : 0 < h) (few : freePairs blocks ≤ 1)
    (room : a + weight h (fun b => !b.free) blocks + (heldCount blocks + 2) * (need + h) ≤ e) :
    allocate h need blocks ≠ none := by
  intro refused
  have small := weight_free_le (h := h) (allocate_eq_none.mp refused)
  have count : freeCount blocks ≤ heldCount blocks + 2 := by
    have := freeCount_le blocks
    have := startsFree_le blocks
    omega
  have most := Nat.mul_le_mul_right (need + h - 1) count
  have less : (heldCount blocks + 2) * (need + h - 1) < (heldCount blocks + 2) * (need + h) :=
    Nat.mul_lt_mul_of_pos_left (by omega) (by omega)
  have whole := t.weights
  omega

end Foundation.FirstFit
