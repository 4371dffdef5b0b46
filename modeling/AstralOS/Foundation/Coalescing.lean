import AstralOS.Foundation.FirstFit

/-! Neighbouring free blocks in a first-fit list: when one sweep leaves none, and that releasing
what was just allocated restores a list without any. -/
namespace Foundation.FirstFit

/-- No two neighbours are free. -/
def Coalesced (blocks : List Block) : Prop := blocks.IsChain fun b c => ¬ (b.free = true ∧ c.free = true)

/-- No three neighbours are free. -/
def Spaced : List Block → Prop
  | b :: c :: d :: rest => ¬ (b.free = true ∧ c.free = true ∧ d.free = true) ∧ Spaced (c :: d :: rest)
  | _ => True

variable {h need p a e : Nat} {b c : Block} {blocks rest : List Block}

@[simp] theorem coalesced_nil : Coalesced [] := .nil

@[simp] theorem coalesced_singleton : Coalesced [b] := .singleton b

@[simp] theorem coalesced_cons :
    Coalesced (b :: c :: rest) ↔ ¬ (b.free = true ∧ c.free = true) ∧ Coalesced (c :: rest) :=
  List.isChain_cons_cons

theorem coalesced_tail (coalesced : Coalesced (b :: rest)) : Coalesced rest := by
  cases rest with
  | nil => exact coalesced_nil
  | cons c rest => exact (coalesced_cons.mp coalesced).2

/-- A sweep keeps the first block's address and flag. -/
theorem sweep_cons (h : Nat) (b : Block) (rest : List Block) :
    ∃ size rest', sweep h (b :: rest) = { b with size := size } :: rest' := by
  cases rest with
  | nil => exact ⟨b.size, [], rfl⟩
  | cons c rest =>
      rw [sweep]
      split
      · exact ⟨_, _, rfl⟩
      · exact ⟨b.size, _, rfl⟩

theorem coalesced_cons_sweep :
    Coalesced (b :: sweep h (c :: rest)) ↔
      ¬ (b.free = true ∧ c.free = true) ∧ Coalesced (sweep h (c :: rest)) := by
  obtain ⟨size, rest', swept⟩ := sweep_cons h c rest
  rw [swept]
  exact coalesced_cons

theorem spaced_cons (kept : ¬ (b.free = true ∧ c.free = true)) :
    Spaced (b :: c :: rest) ↔ Spaced (c :: rest) := by
  cases rest with
  | nil => exact Iff.rfl
  | cons d rest => exact and_iff_right fun all => kept ⟨all.1, all.2.1⟩

/-- One sweep leaves no free neighbours exactly when it met no three of them. -/
theorem coalesced_sweep_iff : Coalesced (sweep h blocks) ↔ Spaced blocks := by
  induction blocks using sweep.induct with
  | case1 => simp [sweep, Spaced]
  | case2 b => simp [sweep, Spaced]
  | case3 b c rest free ih =>
      rw [sweep, if_pos free]
      cases rest with
      | nil => simp [sweep, Spaced]
      | cons d rest =>
          rw [coalesced_cons_sweep, ih, Spaced]
          by_cases third : d.free = true
          · exact iff_of_false (fun both => both.1 ⟨free.1, third⟩) fun both => both.1 ⟨free.1, free.2, third⟩
          · rw [spaced_cons fun both => third both.2]
            exact and_congr_left' (iff_of_true (fun both => third both.2) fun all => third all.2.2)
  | case4 b c rest kept ih =>
      rw [sweep, if_neg kept, coalesced_cons_sweep, ih, spaced_cons kept]
      exact and_iff_right kept

theorem sweep_coalesced (coalesced : Coalesced blocks) : sweep h blocks = blocks := by
  induction blocks using sweep.induct with
  | case1 => rfl
  | case2 b => rfl
  | case3 b c rest free ih => exact absurd free (coalesced_cons.mp coalesced).1
  | case4 b c rest kept ih => rw [sweep, if_neg kept, ih (coalesced_tail coalesced)]

theorem markFree_later (t : Tiles h a blocks e) (below : p < a + h) : markFree h p blocks = blocks := by
  refine (List.map_congr_left fun b member => if_neg ?_).trans blocks.map_id
  have := (t.inside member).1
  omega

/-- The payload that is handed out lies in the list. -/
theorem allocate_inside {result : Nat × List Block} (t : Tiles h a blocks e)
    (found : allocate h need blocks = some result) : a + h ≤ result.1 := by
  induction blocks generalizing a result with
  | nil => cases found
  | cons b rest ih =>
      have start := t.1
      rw [allocate] at found
      split at found
      · split at found
        · obtain rfl := Option.some.inj found
          simp only [start, le_refl]
        · obtain rfl := Option.some.inj found
          simp only [start, le_refl]
      · obtain ⟨later, eq, rfl⟩ := Option.map_eq_some_iff.mp found
        have := ih t.2 eq
        simp only
        omega

/-- Only a free block is taken, so the first flag can only be cleared. -/
theorem allocate_cons {result : Nat × List Block} (found : allocate h need (b :: rest) = some result) :
    ∃ c rest', result.2 = c :: rest' ∧ (c.free = true → b.free = true) := by
  rw [allocate] at found
  split at found
  · split at found
    · obtain rfl := Option.some.inj found
      exact ⟨_, _, rfl, fun free => absurd free Bool.false_ne_true⟩
    · obtain rfl := Option.some.inj found
      exact ⟨_, _, rfl, fun free => absurd free Bool.false_ne_true⟩
  · obtain ⟨later, eq, rfl⟩ := Option.map_eq_some_iff.mp found
    exact ⟨b, later.2, rfl, id⟩

theorem coalesced_allocate {result : Nat × List Block} (coalesced : Coalesced blocks)
    (found : allocate h need blocks = some result) : Coalesced result.2 := by
  induction blocks generalizing result with
  | nil => cases found
  | cons b rest ih =>
      have tail := coalesced_tail coalesced
      have same := found
      rw [allocate] at found
      split at found
      · rename_i fits
        have after : ∀ c rest', rest = c :: rest' → c.free ≠ true := by
          rintro c rest' rfl free
          exact (coalesced_cons.mp coalesced).1 ⟨fits.1, free⟩
        split at found
        · obtain rfl := Option.some.inj found
          refine coalesced_cons.mpr ⟨by simp, ?_⟩
          cases rest with
          | nil => exact coalesced_singleton
          | cons c rest => exact coalesced_cons.mpr ⟨fun both => after c rest rfl both.2, tail⟩
        · obtain rfl := Option.some.inj found
          cases rest with
          | nil => exact coalesced_singleton
          | cons c rest => exact coalesced_cons.mpr ⟨by simp, tail⟩
      · obtain ⟨later, eq, rfl⟩ := Option.map_eq_some_iff.mp found
        have kept := ih tail eq
        cases rest with
        | nil => cases eq
        | cons c rest =>
            obtain ⟨c', rest', shape, fewer⟩ := allocate_cons eq
            rw [shape] at kept ⊢
            exact coalesced_cons.mpr
              ⟨fun both => (coalesced_cons.mp coalesced).1 ⟨both.1, fewer both.2⟩, kept⟩

/-- Releasing what was just allocated undoes the allocation. -/
theorem release_allocate {result : Nat × List Block} (t : Tiles h a blocks e) (pos : 0 < h)
    (coalesced : Coalesced blocks) (found : allocate h need blocks = some result) :
    release h result.1 result.2 = blocks := by
  induction blocks generalizing a result with
  | nil => cases found
  | cons b rest ih =>
      have tail := coalesced_tail coalesced
      have start := t.1
      rw [allocate] at found
      split at found
      · rename_i fits
        have unmarked : markFree h (b.addr + h) rest = rest := markFree_later t.2 (by omega)
        have whole : ({ b with free := true } : Block) = b := by rw [← fits.1]
        split at found
        · rename_i room
          obtain rfl := Option.some.inj found
          have apart : ¬ b.addr + h + need + h = b.addr + h := by omega
          rw [release, markFree, List.map_cons, List.map_cons, ← markFree, unmarked, if_pos rfl]
          dsimp only
          rw [if_neg apart, sweep, if_pos ⟨rfl, rfl⟩, sweep_coalesced tail]
          have sum : need + (h + (b.size - need - h)) = b.size := by omega
          rw [sum, ← fits.1]
        · obtain rfl := Option.some.inj found
          rw [release, markFree, List.map_cons, ← markFree, unmarked, if_pos rfl]
          dsimp only
          rw [whole, sweep_coalesced coalesced]
      · obtain ⟨later, eq, rfl⟩ := Option.map_eq_some_iff.mp found
        have restored := ih t.2 tail eq
        have inside := allocate_inside t.2 eq
        have apart : ¬ b.addr + h = later.1 := by omega
        rw [release] at restored
        rw [release, markFree, List.map_cons, ← markFree, if_neg apart]
        cases marked : markFree h later.1 later.2 with
        | nil =>
            rw [marked] at restored
            rw [← restored]
            rfl
        | cons c rest' =>
            rw [marked] at restored
            obtain ⟨size, swept, shape⟩ := sweep_cons h c rest'
            have kept : ¬ (b.free = true ∧ c.free = true) := by
              rw [← restored, shape] at coalesced
              exact (coalesced_cons.mp coalesced).1
            rw [sweep, if_neg kept, restored]

/-- A list without held blocks and without free neighbours is one block. -/
theorem coalesced_unheld (t : Tiles h a blocks e) (nonempty : blocks ≠ []) (coalesced : Coalesced blocks)
    (unheld : ∀ b, ¬ Held blocks b) : blocks = [⟨a, e - a - h, true⟩] := by
  have all : ∀ b ∈ blocks, b.free = true := by
    intro b member
    by_contra held
    exact unheld b ⟨member, Bool.eq_false_of_not_eq_true held⟩
  match blocks with
  | [] => exact absurd rfl nonempty
  | [b] =>
      obtain ⟨start, stop⟩ := t
      have stop : a + h + b.size = e := stop
      have size : b.size = e - a - h := by omega
      obtain ⟨addr, length, flag⟩ := b
      obtain rfl : flag = true := all _ List.mem_cons_self
      rw [← size, ← start]
  | b :: c :: rest =>
      have first := all b List.mem_cons_self
      have second := all c (List.mem_cons_of_mem b List.mem_cons_self)
      exact absurd ⟨first, second⟩ (coalesced_cons.mp coalesced).1

end Foundation.FirstFit
