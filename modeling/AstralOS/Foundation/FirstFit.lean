import Mathlib

/-! First-fit allocation over a list of blocks that tile an interval, each block a
header of `h` units followed by its payload, with one coalescing sweep on release. -/
namespace Foundation.FirstFit

structure Block where
  addr : Nat
  size : Nat
  free : Bool
  deriving DecidableEq

/-- The blocks follow each other without gaps from `a` to `e`. -/
def Tiles (h : Nat) : Nat → List Block → Nat → Prop
  | a, [], e => a = e
  | a, b :: rest, e => b.addr = a ∧ Tiles h (a + h + b.size) rest e

/-- Take the first free block of at least `need`, splitting it when a header and at
least one unit remain. The result is the payload's address and the new list. -/
def allocate (h need : Nat) : List Block → Option (Nat × List Block)
  | [] => none
  | b :: rest =>
      if b.free ∧ need ≤ b.size then
        if need + h < b.size then
          some (b.addr + h, ⟨b.addr, need, false⟩ ::
            ⟨b.addr + h + need, b.size - need - h, true⟩ :: rest)
        else some (b.addr + h, { b with free := false } :: rest)
      else (allocate h need rest).map fun r => (r.1, b :: r.2)

/-- One pass that merges a free block with a free successor and goes on after it. -/
def sweep (h : Nat) : List Block → List Block
  | [] => []
  | [b] => [b]
  | b :: c :: rest =>
      if b.free ∧ c.free then { b with size := b.size + (h + c.size) } :: sweep h rest
      else b :: sweep h (c :: rest)

def markFree (h p : Nat) (blocks : List Block) : List Block :=
  blocks.map fun b => if b.addr + h = p then { b with free := true } else b

def release (h p : Nat) (blocks : List Block) : List Block := sweep h (markFree h p blocks)

variable {h need p a e : Nat} {blocks : List Block}

theorem Tiles.le (t : Tiles h a blocks e) : a ≤ e := by
  induction blocks generalizing a with
  | nil => exact Nat.le_of_eq t
  | cons b rest ih =>
      have := ih t.2
      omega

/-- A member of a tiling lies inside the tiled interval. -/
theorem Tiles.inside (t : Tiles h a blocks e) {b : Block} (member : b ∈ blocks) :
    a ≤ b.addr ∧ b.addr + h + b.size ≤ e := by
  induction blocks generalizing a with
  | nil => cases member
  | cons c rest ih =>
      obtain ⟨start, tail⟩ := t
      have le := tail.le
      rcases List.mem_cons.mp member with rfl | later
      · omega
      · have := ih tail later
        omega

/-- Two members are the same block or follow one another. -/
theorem Tiles.apart (t : Tiles h a blocks e) {b c : Block} (hb : b ∈ blocks) (hc : c ∈ blocks) :
    b = c ∨ b.addr + h + b.size ≤ c.addr ∨ c.addr + h + c.size ≤ b.addr := by
  induction blocks generalizing a with
  | nil => cases hb
  | cons d rest ih =>
      obtain ⟨start, tail⟩ := t
      rcases List.mem_cons.mp hb with rfl | laterB <;> rcases List.mem_cons.mp hc with rfl | laterC
      · exact .inl rfl
      · have := tail.inside laterC
        omega
      · have := tail.inside laterB
        omega
      · exact ih tail laterB laterC

theorem Tiles.addr_injective (t : Tiles h a blocks e) (pos : 0 < h) {b c : Block}
    (hb : b ∈ blocks) (hc : c ∈ blocks) (same : b.addr = c.addr) : b = c := by
  rcases t.apart hb hc with eq | before | after
  · exact eq
  · omega
  · omega

theorem Tiles.length_le (t : Tiles h a blocks e) (pos : 0 < h) : a + blocks.length ≤ e := by
  induction blocks generalizing a with
  | nil => exact Nat.le_of_eq t
  | cons b rest ih =>
      have := ih t.2
      simp only [List.length_cons]
      omega

theorem Tiles.sorted (t : Tiles h a blocks e) (pos : 0 < h) :
    blocks.Pairwise fun b c => b.addr < c.addr := by
  induction blocks generalizing a with
  | nil => exact .nil
  | cons b rest ih =>
      refine .cons (fun c later => ?_) (ih t.2)
      have := t.2.inside later
      have := t.1
      omega

/-- The split or whole block in place of the one taken. -/
theorem tiles_allocate {result : Nat × List Block} (t : Tiles h a blocks e)
    (found : allocate h need blocks = some result) : Tiles h a result.2 e := by
  induction blocks generalizing a result with
  | nil => cases found
  | cons b rest ih =>
      obtain ⟨start, tail⟩ := t
      simp only [allocate] at found
      split at found
      · split at found
        · rename_i fits split
          obtain rfl := Option.some.inj found
          refine ⟨start, by simp only [start], ?_⟩
          have : a + h + need + h + (b.size - need - h) = a + h + b.size := by omega
          rwa [this]
        · obtain rfl := Option.some.inj found
          exact ⟨start, tail⟩
      · obtain ⟨later, eq, rfl⟩ := Option.map_eq_some_iff.mp found
        exact ⟨start, ih tail eq⟩

def Suits (need : Nat) (b : Block) : Prop := b.free = true ∧ need ≤ b.size

theorem allocate_eq_none : allocate h need blocks = none ↔ ∀ b ∈ blocks, ¬ Suits need b := by
  induction blocks with
  | nil => simp [allocate]
  | cons b rest ih =>
      rw [allocate, List.forall_mem_cons, ← ih]
      by_cases suits : b.free = true ∧ need ≤ b.size
      · rw [if_pos suits]
        refine iff_of_false (fun none_ => ?_) fun both => both.1 suits
        split at none_
        · cases none_
        · cases none_
      · rw [if_neg suits, Option.map_eq_none_iff]
        exact (and_iff_right suits).symm

/-- The block taken is the first that suits. -/
theorem allocate_first {result : Nat × List Block} (t : Tiles h a blocks e)
    (found : allocate h need blocks = some result) :
    ∃ b ∈ blocks, Suits need b ∧ result.1 = b.addr + h ∧ ∀ c ∈ blocks, Suits need c → b.addr ≤ c.addr := by
  induction blocks generalizing a result with
  | nil => cases found
  | cons b rest ih =>
      rw [allocate] at found
      by_cases suits : b.free = true ∧ need ≤ b.size
      · rw [if_pos suits] at found
        refine ⟨b, List.mem_cons_self, suits, ?_, fun c member _ => ?_⟩
        · split at found
          · exact congrArg Prod.fst (Option.some.inj found.symm)
          · exact congrArg Prod.fst (Option.some.inj found.symm)
        · have := t.1
          have := t.inside member
          omega
      · rw [if_neg suits] at found
        obtain ⟨later, eq, rfl⟩ := Option.map_eq_some_iff.mp found
        obtain ⟨c, member, suitsC, address, first⟩ := ih t.2 eq
        refine ⟨c, List.mem_cons_of_mem b member, suitsC, address, fun d memberD suitsD => ?_⟩
        rcases List.mem_cons.mp memberD with rfl | laterD
        · exact absurd suitsD suits
        · exact first d laterD suitsD

theorem tiles_sweep (t : Tiles h a blocks e) : Tiles h a (sweep h blocks) e := by
  induction blocks using sweep.induct generalizing a with
  | case1 => exact t
  | case2 b => exact t
  | case3 b c rest free ih =>
      obtain ⟨start, next, tail⟩ := t
      rw [sweep, if_pos free]
      refine ⟨start, ih ?_⟩
      have : a + h + (b.size + (h + c.size)) = a + h + b.size + h + c.size := by omega
      rwa [this]
  | case4 b c rest kept ih =>
      rw [sweep, if_neg kept]
      exact ⟨t.1, ih t.2⟩

theorem tiles_markFree (t : Tiles h a blocks e) : Tiles h a (markFree h p blocks) e := by
  induction blocks generalizing a with
  | nil => exact t
  | cons b rest ih =>
      rw [markFree, List.map_cons, ← markFree]
      split
      · exact ⟨t.1, ih t.2⟩
      · exact ⟨t.1, ih t.2⟩

/-- The allocated blocks. -/
def Held (blocks : List Block) (b : Block) : Prop := b ∈ blocks ∧ b.free = false

section
variable {b c : Block} {rest : List Block}

theorem held_cons : Held (b :: rest) c ↔ (c = b ∧ b.free = false) ∨ Held rest c := by
  rw [Held, List.mem_cons, Held]
  constructor
  · rintro ⟨rfl | later, heldC⟩
    · exact .inl ⟨rfl, heldC⟩
    · exact .inr ⟨later, heldC⟩
  · rintro (⟨rfl, heldC⟩ | ⟨later, heldC⟩)
    · exact ⟨.inl rfl, heldC⟩
    · exact ⟨.inr later, heldC⟩

theorem held_cons_free (free : b.free = true) : Held (b :: rest) c ↔ Held rest c := by
  rw [held_cons, free]
  exact or_iff_right fun both => Bool.noConfusion both.2

theorem held_cons_held (held : b.free = false) : Held (b :: rest) c ↔ c = b ∨ Held rest c := by
  rw [held_cons, and_iff_left held]

end

/-- Allocation adds one held block at the returned payload and touches no other. -/
theorem held_allocate {result : Nat × List Block} (t : Tiles h a blocks e) (pos : 0 < h)
    (found : allocate h need blocks = some result) :
    ∃ taken : Block, result.1 = taken.addr + h ∧ need ≤ taken.size ∧ taken.free = false ∧
      (∀ b, Held blocks b → b.addr ≠ taken.addr) ∧
      ∀ b, Held result.2 b ↔ b = taken ∨ Held blocks b := by
  induction blocks generalizing a result with
  | nil => cases found
  | cons b rest ih =>
      simp only [allocate] at found
      split at found
      · rename_i fits
        have others : ∀ c, Held (b :: rest) c → c.addr ≠ b.addr := by
          rintro c ⟨member, heldC⟩ same
          obtain rfl := t.addr_injective pos member List.mem_cons_self same
          rw [fits.1] at heldC
          cases heldC
        split at found
        · obtain rfl := Option.some.inj found
          refine ⟨⟨b.addr, need, false⟩, rfl, Nat.le_refl _, rfl, others, fun c => ?_⟩
          rw [held_cons_held rfl, held_cons_free rfl, held_cons_free fits.1]
        · obtain rfl := Option.some.inj found
          refine ⟨{ b with free := false }, rfl, fits.2, rfl, others, fun c => ?_⟩
          rw [held_cons_held rfl, held_cons_free fits.1]
      · obtain ⟨later, eq, rfl⟩ := Option.map_eq_some_iff.mp found
        obtain ⟨taken, address, enough, isHeld, fresh, held⟩ := ih t.2 eq
        have inside : a + h + b.size ≤ taken.addr :=
          ((tiles_allocate t.2 eq).inside ((held taken).mpr (.inl rfl)).1).1
        refine ⟨taken, address, enough, isHeld, ?_, fun c => ?_⟩
        · rintro c ⟨member, heldC⟩
          rcases List.mem_cons.mp member with rfl | laterC
          · have := t.1
            omega
          · exact fresh c ⟨laterC, heldC⟩
        · rw [held_cons, held_cons, held c]
          exact or_left_comm

theorem held_sweep (b : Block) : Held (sweep h blocks) b ↔ Held blocks b := by
  induction blocks using sweep.induct with
  | case1 => rfl
  | case2 c => rfl
  | case3 c d rest free ih =>
      have merged : ({ c with size := c.size + (h + d.size) } : Block).free = true := free.1
      rw [sweep, if_pos free, held_cons_free merged, held_cons_free free.1, held_cons_free free.2]
      exact ih
  | case4 c d rest kept ih =>
      rw [sweep, if_neg kept, held_cons, ih, ← held_cons]

theorem held_markFree (b : Block) :
    Held (markFree h p blocks) b ↔ Held blocks b ∧ b.addr + h ≠ p := by
  simp only [Held, markFree, List.mem_map]
  constructor
  · rintro ⟨⟨c, member, rfl⟩, heldC⟩
    split at heldC
    · cases heldC
    · rename_i other
      rw [if_neg other]
      exact ⟨⟨member, heldC⟩, other⟩
  · rintro ⟨⟨member, heldB⟩, other⟩
    exact ⟨⟨b, member, if_neg other⟩, heldB⟩

/-- Release gives back exactly the block whose payload starts at `p`. -/
theorem held_release (b : Block) :
    Held (release h p blocks) b ↔ Held blocks b ∧ b.addr + h ≠ p :=
  (held_sweep b).trans (held_markFree b)

theorem tiles_release (t : Tiles h a blocks e) : Tiles h a (release h p blocks) e :=
  tiles_sweep (tiles_markFree t)

/-! Alignment: when every block but the last has a size divisible by `k`, all addresses
agree modulo `k` with the first. -/

def Aligned (k : Nat) : List Block → Prop
  | [] => True
  | [_] => True
  | b :: rest => k ∣ b.size ∧ Aligned k rest

variable {k : Nat}

theorem aligned_cons {b : Block} {rest : List Block} :
    Aligned k (b :: rest) ↔ (rest ≠ [] → k ∣ b.size) ∧ Aligned k rest := by
  cases rest with
  | nil => simp [Aligned]
  | cons c rest => simp [Aligned]

theorem Tiles.addr_mod (t : Tiles h a blocks e) (header : k ∣ h) (aligned : Aligned k blocks)
    {b : Block} (member : b ∈ blocks) : b.addr % k = a % k := by
  induction blocks generalizing a with
  | nil => cases member
  | cons c rest ih =>
      rcases List.mem_cons.mp member with rfl | later
      · rw [t.1]
      · obtain ⟨size, tail⟩ := aligned_cons.mp aligned
        rw [ih t.2 tail later, Nat.add_assoc]
        have : k ∣ h + c.size := Nat.dvd_add header (size (List.ne_nil_of_mem later))
        obtain ⟨q, hq⟩ := this
        rw [hq, Nat.add_mul_mod_self_left]

theorem aligned_allocate {result : Nat × List Block} (aligned : Aligned k blocks)
    (needAligned : k ∣ need) (header : k ∣ h) (found : allocate h need blocks = some result) :
    Aligned k result.2 ∧ (blocks ≠ [] → result.2 ≠ []) := by
  induction blocks generalizing result with
  | nil => cases found
  | cons b rest ih =>
      obtain ⟨size, tail⟩ := aligned_cons.mp aligned
      simp only [allocate] at found
      split at found
      · split at found
        · rename_i fits split
          obtain rfl := Option.some.inj found
          refine ⟨aligned_cons.mpr ⟨fun _ => needAligned, aligned_cons.mpr ⟨fun nonempty => ?_, tail⟩⟩,
            fun _ => List.cons_ne_nil _ _⟩
          exact Nat.dvd_sub (Nat.dvd_sub (size nonempty) needAligned) header
        · obtain rfl := Option.some.inj found
          exact ⟨aligned_cons.mpr ⟨size, tail⟩, fun _ => List.cons_ne_nil _ _⟩
      · obtain ⟨later, eq, rfl⟩ := Option.map_eq_some_iff.mp found
        have := ih tail eq
        refine ⟨aligned_cons.mpr ⟨fun _ => size ?_, this.1⟩, fun _ => List.cons_ne_nil _ _⟩
        rintro rfl
        cases eq

theorem sweep_ne_nil (nonempty : blocks ≠ []) : sweep h blocks ≠ [] := by
  induction blocks using sweep.induct with
  | case1 => exact nonempty
  | case2 b => exact nonempty
  | case3 b c rest free ih =>
      rw [sweep, if_pos free]
      exact List.cons_ne_nil _ _
  | case4 b c rest kept ih =>
      rw [sweep, if_neg kept]
      exact List.cons_ne_nil _ _

theorem sweep_eq_nil_iff : sweep h blocks = [] ↔ blocks = [] := by
  constructor
  · intro empty
    by_contra nonempty
    exact sweep_ne_nil nonempty empty
  · rintro rfl
    rfl

theorem aligned_sweep (aligned : Aligned k blocks) (header : k ∣ h) :
    Aligned k (sweep h blocks) := by
  induction blocks using sweep.induct with
  | case1 => exact aligned
  | case2 b => exact aligned
  | case3 b c rest free ih =>
      obtain ⟨size, tail⟩ := aligned_cons.mp aligned
      obtain ⟨sizeC, tailC⟩ := aligned_cons.mp tail
      rw [sweep, if_pos free]
      refine aligned_cons.mpr ⟨fun nonempty => ?_, ih tailC⟩
      have : rest ≠ [] := fun empty => nonempty (sweep_eq_nil_iff.mpr empty)
      exact Nat.dvd_add (size (List.cons_ne_nil _ _)) (Nat.dvd_add header (sizeC this))
  | case4 b c rest kept ih =>
      obtain ⟨size, tail⟩ := aligned_cons.mp aligned
      rw [sweep, if_neg kept]
      exact aligned_cons.mpr ⟨fun _ => size (List.cons_ne_nil _ _), ih tail⟩

theorem aligned_markFree (aligned : Aligned k blocks) : Aligned k (markFree h p blocks) := by
  induction blocks with
  | nil => trivial
  | cons b rest ih =>
      obtain ⟨size, tail⟩ := aligned_cons.mp aligned
      rw [markFree, List.map_cons, ← markFree]
      refine aligned_cons.mpr ⟨fun nonempty => ?_, ih tail⟩
      have : rest ≠ [] := by
        rintro rfl
        exact nonempty rfl
      split
      · exact size this
      · exact size this

theorem aligned_release (aligned : Aligned k blocks) (header : k ∣ h) :
    Aligned k (release h p blocks) :=
  aligned_sweep (aligned_markFree aligned) header

end Foundation.FirstFit
