import AstralOS.Memory.KmallocLists
import AstralOS.Foundation.Runs

/-! Which requests are granted and with which block, and what is left of the free space when
allocations are given back. -/
namespace AstralOS.Kmalloc
open Foundation Foundation.FirstFit

/-- No two headers in a row are free. -/
def HeapCoalesced (h : Heap) : Prop :=
  ∃ l, headerList h = some l ∧ l.IsChain fun x y => ¬ (x.free ≠ 0#32 ∧ y.free ≠ 0#32)

/-- The size rounded up to a multiple of 8, as a number. -/
def roundedSize (n : BitVec 64) : Nat := (n.toNat + 7) / 8 * 8

def Entry.Fits (x : Entry) (n : BitVec 64) : Prop := x.free ≠ 0#32 ∧ roundedSize n ≤ x.size.toNat

/-- The request gets the payload of the lowest free block that is large enough, or null when
there is none. -/
def Grants (h : Heap) (n : BitVec 64) : Prop :=
  ∃ l p h', headerList h = some l ∧ kmalloc n h = some (p, h') ∧
    (p ≠ 0#64 ↔ n ≠ 0#64 ∧ ∃ x ∈ l, x.Fits n) ∧
    (p ≠ 0#64 → ∃ x ∈ l, x.Fits n ∧ p = x.addr + headerSize ∧ (∀ y ∈ l, y.Fits n → x.addr ≤ y.addr) ∧
      n ≤ size h'.mem x.addr)

/-- No three headers in a row are free once that of `ptr` is. -/
def SpacedAround (ptr : Addr) : List Entry → Prop
  | x :: y :: z :: rest =>
      ¬ ((x.free ≠ 0#32 ∨ x.addr + headerSize = ptr) ∧ (y.free ≠ 0#32 ∨ y.addr + headerSize = ptr) ∧
        (z.free ≠ 0#32 ∨ z.addr + headerSize = ptr)) ∧ SpacedAround ptr (y :: z :: rest)
  | _ => True

/-- Clients release live pointers only. -/
def System.Releases (s : System) : Op → Prop
  | .kfree ptr => ptr ∈ s.live
  | op => s.Allowed op

/-- After a release no two headers in a row are free. -/
def System.Coalesces (s : System) : Op → Prop
  | .kfree ptr => ∃ s', s.call (.kfree ptr) = some s' ∧ HeapCoalesced s'.heap
  | _ => True

/-- The block to be released has no free block on both sides, and so on. -/
def System.Spacious (s : System) : Op → Prop
  | .kfree ptr => ∃ l, headerList s.heap = some l ∧ SpacedAround ptr l
  | _ => True

/-- All that was allocated has been given back in one block. -/
def System.Whole (heapStart heapSize : BitVec 64) (s : System) : Prop :=
  s.live = [] → headerList s.heap = some [⟨heapStart, heapSize - headerSize, 0#64, 1#32⟩]

section
variable {heapStart heapSize : BitVec 64} {s : System} {blocks : List Block} {ptr : Addr} {n : BitVec 64}

theorem mem_entries {x : Entry} (member : x ∈ entries blocks) :
    ∃ b ∈ blocks, x.addr = BitVec.ofNat 64 b.addr ∧ x.size = BitVec.ofNat 64 b.size ∧ x.free = flag b.free := by
  induction blocks with
  | nil => cases member
  | cons b rest ih =>
      rcases List.mem_cons.mp member with rfl | later
      · exact ⟨b, List.mem_cons_self, rfl, rfl, rfl⟩
      · obtain ⟨c, memberC, same⟩ := ih later
        exact ⟨c, List.mem_cons_of_mem b memberC, same⟩

theorem entries_mem {b : Block} (member : b ∈ blocks) :
    ∃ x ∈ entries blocks, x.addr = BitVec.ofNat 64 b.addr ∧ x.size = BitVec.ofNat 64 b.size ∧
      x.free = flag b.free := by
  induction blocks with
  | nil => cases member
  | cons c rest ih =>
      rcases List.mem_cons.mp member with rfl | later
      · exact ⟨_, List.mem_cons_self, rfl, rfl, rfl⟩
      · obtain ⟨x, memberX, same⟩ := ih later
        exact ⟨x, List.mem_cons_of_mem _ memberX, same⟩

theorem entries_coalesced :
    ((entries blocks).IsChain fun x y => ¬ (x.free ≠ 0#32 ∧ y.free ≠ 0#32)) ↔ Coalesced blocks := by
  induction blocks with
  | nil => simp [entries]
  | cons b rest ih =>
      cases rest with
      | nil => simp [entries]
      | cons c rest =>
          rw [coalesced_cons, ← ih, entries, entries, List.isChain_cons_cons]
          simp only [flag_ne_zero]

theorem Listed.coalesced_iff (listed : Listed heapStart heapSize s blocks) (nonzero : heapStart ≠ 0#64)
    (bound : heapStart.toNat + heapSize.toNat < 2 ^ 64) : HeapCoalesced s.heap ↔ Coalesced blocks := by
  have listing := listed.headerList nonzero bound
  rw [← entries_coalesced]
  constructor
  · rintro ⟨l, found, chain⟩
    obtain rfl := Option.some.inj (listing.symm.trans found)
    exact chain
  · exact fun chain => ⟨_, listing, chain⟩

/-- A page of heap at `0x1000`. -/
theorem listed_page : Listed 0x1000#64 0x1000#64 ⟨kmallocInit 0x1000#64 0x1000#64 fun _ => 0, []⟩
    [⟨0x1000, 4072, true⟩] := listed_init (by decide) (by decide) fun _ => 0

/-! Allocation followed by release. -/

/-- `kmalloc` and then `kfree` of what it returned leave the header list as it was. -/
theorem kmalloc_kfree_identity (nonzero : heapStart ≠ 0#64) (header : 24 ≤ heapSize.toNat)
    (bound : heapStart.toNat + heapSize.toNat < 2 ^ 64) (reachable : Reachable heapStart heapSize s)
    (coalesced : HeapCoalesced s.heap) (n : BitVec 64) :
    ∃ p h' h'' l, kmalloc n s.heap = some (p, h') ∧ kfree p h' = some h'' ∧
      headerList s.heap = some l ∧ headerList h'' = some l := by
  obtain ⟨blocks, listed⟩ := reachable_listed nonzero header bound reachable
  have listing := listed.headerList nonzero bound
  have chain := (listed.coalesced_iff nonzero bound).mp coalesced
  by_cases isZero : n = 0#64
  · have refused := kmalloc_refused nonzero bound listed.toLayout (.inl isZero)
    exact ⟨_, _, s.heap, _, refused, if_pos rfl, listing, listing⟩
  cases found : allocate 24 (roundUp n).toNat blocks with
  | none =>
      have refused := kmalloc_refused nonzero bound listed.toLayout (.inr found)
      exact ⟨_, _, s.heap, _, refused, if_pos rfl, listing, listing⟩
  | some result =>
      obtain ⟨m', granted, _, listed', _⟩ := listed_granted nonzero bound listed isZero found
      obtain ⟨s'', freed, _, listed''⟩ := listed_released nonzero bound listed' List.mem_cons_self
      have small : result.1 < 2 ^ 64 := by
        obtain ⟨b, member, _, address, _⟩ := allocate_first listed.tiles found
        have := listed.tiles.inside member
        omega
      rw [BitVec.toNat_ofNat, Nat.mod_eq_of_lt small,
        release_allocate listed.tiles (by decide) chain found] at listed''
      exact ⟨_, _, s''.heap, _, granted, freed, listing, listed''.headerList nonzero bound⟩

theorem kmalloc_kfree_identity_page :
    ∃ p h' h'' l, kmalloc 100#64 (kmallocInit 0x1000#64 0x1000#64 fun _ => 0) = some (p, h') ∧
      kfree p h' = some h'' ∧ headerList (kmallocInit 0x1000#64 0x1000#64 fun _ => 0) = some l ∧
      headerList h'' = some l :=
  @kmalloc_kfree_identity 0x1000#64 0x1000#64 _ (by decide) (by decide) (by decide) (.init fun _ => 0)
    ((listed_page.coalesced_iff (by decide) (by decide)).mpr coalesced_singleton) 100#64

/-! Which requests are granted. -/

theorem roundUp_toNat (n : BitVec 64) : (roundUp n).toNat = (n.toNat + 7) % 2 ^ 64 / 8 * 8 := by
  rw [roundUp]
  refine (toNat_clear 3 (n + 7#64)).trans ?_
  rw [BitVec.toNat_add]
  rfl

theorem fits_iff {b : Block} {x : Entry} (small : b.size < 2 ^ 64) (size : x.size = BitVec.ofNat 64 b.size)
    (free : x.free = flag b.free) (n : BitVec 64) : x.Fits n ↔ Suits (roundedSize n) b := by
  rw [Entry.Fits, Suits, size, free, flag_ne_zero, BitVec.toNat_ofNat, Nat.mod_eq_of_lt small]

/-- Where the rounding does not wrap, exactly what fits is granted. -/
theorem grants_of_rounded (nonzero : heapStart ≠ 0#64) (bound : heapStart.toNat + heapSize.toNat < 2 ^ 64)
    (listed : Listed heapStart heapSize s blocks) (rounded : (roundUp n).toNat = roundedSize n) :
    Grants s.heap n := by
  have listing := listed.headerList nonzero bound
  have fits : ∀ {b : Block} {x : Entry}, b ∈ blocks → x.size = BitVec.ofNat 64 b.size →
      x.free = flag b.free → (x.Fits n ↔ Suits (roundedSize n) b) := fun member size free =>
    fits_iff (by have := listed.tiles.inside member; omega) size free n
  by_cases isZero : n = 0#64
  · have refused := kmalloc_refused nonzero bound listed.toLayout (.inl isZero)
    exact ⟨_, _, _, listing, refused, iff_of_false (fun h => h rfl) fun h => h.1 isZero, fun h => absurd rfl h⟩
  cases found : allocate 24 (roundUp n).toNat blocks with
  | none =>
      have refused := kmalloc_refused nonzero bound listed.toLayout (.inr found)
      rw [rounded] at found
      refine ⟨_, _, _, listing, refused, iff_of_false (fun h => h rfl) ?_, fun h => absurd rfl h⟩
      rintro ⟨_, x, member, fitsX⟩
      obtain ⟨b, memberB, _, size, free⟩ := mem_entries member
      exact allocate_eq_none.mp found b memberB ((fits memberB size free).mp fitsX)
  | some result =>
      obtain ⟨m', granted, _, listed', notNull⟩ := listed_granted nonzero bound listed isZero found
      obtain ⟨b, member, suits, address, first⟩ := allocate_first listed.tiles found
      obtain ⟨taken, place, enough, _, _, held⟩ := held_allocate listed.tiles (by decide) found
      obtain ⟨x, memberX, addr, size, free⟩ := entries_mem member
      rw [rounded] at suits first enough
      have fitsX := (fits member size free).mpr suits
      have inside := listed.tiles.inside member
      refine ⟨_, _, _, listing, granted, iff_of_true notNull ⟨isZero, x, memberX, fitsX⟩, fun _ =>
        ⟨x, memberX, fitsX, ?_, fun y memberY fitsY => ?_, ?_⟩⟩
      · rw [addr, address, BitVec.ofNat_add]
        rfl
      · obtain ⟨c, memberC, addrC, sizeC, freeC⟩ := mem_entries memberY
        have insideC := listed.tiles.inside memberC
        have order := first c memberC ((fits memberC sizeC freeC).mp fitsY)
        rw [addr, addrC, BitVec.le_def, BitVec.toNat_ofNat, BitVec.toNat_ofNat, Nat.mod_eq_of_lt (by omega),
          Nat.mod_eq_of_lt (by omega)]
        exact order
      · have takenHeld := (held taken).mpr (.inl rfl)
        have insideT := listed'.tiles.inside takenHeld.1
        obtain ⟨next, headerT⟩ := listed'.linked.header takenHeld.1
        have same : taken.addr = b.addr := by omega
        have written : Kmalloc.size m' (BitVec.ofNat 64 taken.addr) = BitVec.ofNat 64 taken.size := headerT.size
        rw [addr, ← same, written, BitVec.le_def, BitVec.toNat_ofNat, Nat.mod_eq_of_lt (by omega)]
        refine le_trans ?_ enough
        rw [roundedSize]
        omega

/-- The rounded size is 0, so the first free block is taken, however small. -/
theorem not_grants_of_wrapped (nonzero : heapStart ≠ 0#64) (bound : heapStart.toNat + heapSize.toNat < 2 ^ 64)
    (listed : Listed heapStart heapSize s blocks) (wrapped : ¬ n.toNat + 7 < 2 ^ 64) {b : Block}
    (member : b ∈ blocks) (isFree : b.free = true) : ¬ Grants s.heap n := by
  rintro ⟨l, p, h', found, granted, null, _⟩
  obtain rfl := Option.some.inj ((listed.headerList nonzero bound).symm.trans found)
  have size := n.isLt
  have need : (roundUp n).toNat = 0 := by
    rw [roundUp_toNat]
    omega
  have asked : n ≠ 0#64 := by
    rintro rfl
    exact wrapped (by decide)
  obtain ⟨result, taken⟩ : ∃ result, allocate 24 (roundUp n).toNat blocks = some result := by
    refine Option.ne_none_iff_exists'.mp fun none_ => ?_
    rw [need] at none_
    exact allocate_eq_none.mp none_ b member ⟨isFree, Nat.zero_le _⟩
  obtain ⟨m', granted', _, _, notNull⟩ := listed_granted nonzero bound listed asked taken
  obtain ⟨rfl, _⟩ := Prod.mk.inj (Option.some.inj (granted.symm.trans granted'))
  obtain ⟨_, x, memberX, fits⟩ := null.mp notNull
  have := x.size.isLt
  have large := fits.2
  rw [roundedSize] at large
  omega

/-- Exactly what fits is granted, unless the rounding wraps and some block is free. -/
theorem kmalloc_grants_iff (nonzero : heapStart ≠ 0#64) (header : 24 ≤ heapSize.toNat)
    (bound : heapStart.toNat + heapSize.toNat < 2 ^ 64) (reachable : Reachable heapStart heapSize s)
    (n : BitVec 64) :
    Grants s.heap n ↔ n.toNat + 7 < 2 ^ 64 ∨ ∀ l, headerList s.heap = some l → ∀ x ∈ l, x.free = 0#32 := by
  obtain ⟨blocks, listed⟩ := reachable_listed nonzero header bound reachable
  have listing := listed.headerList nonzero bound
  have size := n.isLt
  constructor
  · intro grants
    by_contra wraps
    rw [not_or] at wraps
    obtain ⟨wrapped, someFree⟩ := wraps
    refine someFree fun l found x member => ?_
    obtain rfl := Option.some.inj (listing.symm.trans found)
    obtain ⟨b, memberB, _, _, free⟩ := mem_entries member
    by_contra isFree
    rw [free] at isFree
    exact not_grants_of_wrapped nonzero bound listed wrapped memberB (flag_ne_zero.mp isFree) grants
  · rintro (small | none_)
    · refine grants_of_rounded nonzero bound listed ?_
      rw [roundUp_toNat, roundedSize, Nat.mod_eq_of_lt small]
    · have noneFree : ∀ b ∈ blocks, b.free ≠ true := by
        intro b member isFree
        obtain ⟨x, memberX, _, _, free⟩ := entries_mem member
        have := none_ _ listing x memberX
        rw [free, isFree] at this
        cases this
      have refused := kmalloc_refused nonzero bound listed.toLayout (n := n)
        (.inr (allocate_eq_none.mpr fun b member suits => noneFree b member suits.1))
      refine ⟨_, _, _, listing, refused, iff_of_false (fun h => h rfl) ?_, fun h => absurd rfl h⟩
      rintro ⟨_, x, member, fits⟩
      exact fits.1 (none_ _ listing x member)

theorem kmalloc_grants_iff_page : Grants (kmallocInit 0x1000#64 0x1000#64 fun _ => 0) 100#64 ↔
    (100#64).toNat + 7 < 2 ^ 64 ∨ ∀ l, headerList (kmallocInit 0x1000#64 0x1000#64 fun _ => 0) = some l →
      ∀ x ∈ l, x.free = 0#32 :=
  @kmalloc_grants_iff 0x1000#64 0x1000#64 _ (by decide) (by decide) (by decide) (.init fun _ => 0) 100#64

/-- A page of heap grants a request for all of memory. -/
theorem largest_request_granted : ¬ ∀ s, Reachable 0x1000#64 0x1000#64 s → ∀ n, Grants s.heap n := by
  intro grants
  exact not_grants_of_wrapped (by decide) (by decide) listed_page (by decide) List.mem_cons_self rfl
    (grants _ (.init fun _ => 0) 0xFFFFFFFFFFFFFFFF#64)

/-! What releases leave. -/

theorem marked_iff {b : Block} (small : b.addr + 24 < 2 ^ 64) (ptr : Addr) :
    (flag b.free ≠ 0#32 ∨ BitVec.ofNat 64 b.addr + headerSize = ptr) ↔
      (if b.addr + 24 = ptr.toNat then { b with free := true } else b).free = true := by
  have place : BitVec.ofNat 64 b.addr + headerSize = ptr ↔ b.addr + 24 = ptr.toNat := by
    have value : (BitVec.ofNat 64 b.addr + headerSize).toNat = b.addr + 24 := toNat_field small
    rw [← value]
    exact BitVec.toNat_inj.symm
  rw [place, flag_ne_zero]
  by_cases here : b.addr + 24 = ptr.toNat
  · rw [if_pos here]
    exact iff_of_true (.inr here) rfl
  · rw [if_neg here]
    exact or_iff_left here

theorem spacedAround_iff (ptr : Addr) : ∀ blocks : List Block, (∀ b ∈ blocks, b.addr + 24 < 2 ^ 64) →
    (SpacedAround ptr (entries blocks) ↔ Spaced (markFree 24 ptr.toNat blocks))
  | [], _ => Iff.rfl
  | [_], _ => Iff.rfl
  | [_, _], _ => Iff.rfl
  | b :: c :: d :: rest, small => by
      have later := spacedAround_iff ptr (c :: d :: rest) fun x member => small x (List.mem_cons_of_mem b member)
      have first := marked_iff (small b List.mem_cons_self) ptr
      have second := marked_iff (small c (by simp)) ptr
      have third := marked_iff (small d (by simp)) ptr
      exact and_congr (not_congr (and_congr first (and_congr second third))) later

/-- One release leaves no free neighbours exactly when it makes no three of them. -/
theorem Listed.coalesces_iff (listed : Listed heapStart heapSize s blocks) (nonzero : heapStart ≠ 0#64)
    (bound : heapStart.toNat + heapSize.toNat < 2 ^ 64) (isLive : ptr ∈ s.live) :
    s.Coalesces (.kfree ptr) ↔ s.Spacious (.kfree ptr) := by
  have listing := listed.headerList nonzero bound
  obtain ⟨s', _, called, listed'⟩ := listed_released nonzero bound listed isLive
  have spaced := spacedAround_iff ptr blocks fun b member => by
    have := listed.tiles.inside member
    omega
  have after : HeapCoalesced s'.heap ↔ SpacedAround ptr (entries blocks) := by
    rw [listed'.coalesced_iff nonzero bound, release, coalesced_sweep_iff, spaced]
  constructor
  · rintro ⟨s'', called', coalesced⟩
    obtain rfl := Option.some.inj (called.symm.trans called')
    exact ⟨_, listing, after.mp coalesced⟩
  · rintro ⟨l, found, apart⟩
    obtain rfl := Option.some.inj (listing.symm.trans found)
    exact ⟨s', called, after.mpr apart⟩

/-- Every call of a client returns, and the blocks stay in order. -/
theorem listed_step (nonzero : heapStart ≠ 0#64) (bound : heapStart.toNat + heapSize.toNat < 2 ^ 64)
    (listed : Listed heapStart heapSize s blocks) {op : Op} (releases : s.Releases op) :
    ∃ blocks', Listed heapStart heapSize (s.step op) blocks' ∧
      (s.Spacious op → Coalesced blocks → Coalesced blocks') := by
  cases op with
  | kmalloc n =>
      by_cases full : n = 0#64 ∨ allocate 24 (roundUp n).toNat blocks = none
      · rw [System.step, call_refused nonzero bound listed full]
        exact ⟨blocks, listed, fun _ => id⟩
      · rw [not_or] at full
        obtain ⟨result, found⟩ := Option.ne_none_iff_exists'.mp full.2
        obtain ⟨m', _, called, listed', _⟩ := listed_granted nonzero bound listed full.1 found
        rw [System.step, called]
        exact ⟨_, listed', fun _ coalesced => coalesced_allocate coalesced found⟩
  | kfree ptr =>
      obtain ⟨s', _, called, listed'⟩ := listed_released nonzero bound listed releases
      rw [System.step, called]
      refine ⟨_, listed', fun spacious _ => ?_⟩
      obtain ⟨s'', called', coalesced⟩ := (listed.coalesces_iff nonzero bound releases).mpr spacious
      obtain rfl := Option.some.inj (called.symm.trans called')
      exact (listed'.coalesced_iff nonzero bound).mp coalesced
  | write ptr i v =>
      exact ⟨blocks, listed_written bound listed releases.1 releases.2 v, fun _ => id⟩

theorem whole_of_coalesced (listed : Listed heapStart heapSize s blocks) (nonzero : heapStart ≠ 0#64)
    (header : 24 ≤ heapSize.toNat) (bound : heapStart.toNat + heapSize.toNat < 2 ^ 64)
    (coalesced : Coalesced blocks) : s.Whole heapStart heapSize := by
  intro released
  have unheld : ∀ b, ¬ Held blocks b := by
    intro b held
    have isLive := (listed.live _).mpr ⟨b, held, rfl⟩
    rw [released] at isLive
    cases isLive
  have single := coalesced_unheld listed.tiles listed.nonempty coalesced unheld
  have size : BitVec.ofNat 64 (heapStart.toNat + heapSize.toNat - heapStart.toNat - 24) =
      heapSize - headerSize := by
    apply BitVec.eq_of_toNat_eq
    simp only [headerSize, BitVec.toNat_sub, BitVec.toNat_ofNat]
    omega
  have place : BitVec.ofNat 64 heapStart.toNat = heapStart := by simp
  rw [listed.headerList nonzero bound, single, entries, entries, size, place]
  rfl

/-- In every run each release leaves no two free headers in a row exactly when none makes three
of them, and then the heap is one block again whenever nothing is held. -/
theorem kfree_coalesces_iff (nonzero : heapStart ≠ 0#64) (header : 24 ≤ heapSize.toNat)
    (bound : heapStart.toNat + heapSize.toNat < 2 ^ 64) (m : Memory) (ops : List Op)
    (run : Admitted System.step System.Releases ⟨kmallocInit heapStart heapSize m, []⟩ ops) :
    (Admitted System.step System.Coalesces ⟨kmallocInit heapStart heapSize m, []⟩ ops ↔
      Admitted System.step System.Spacious ⟨kmallocInit heapStart heapSize m, []⟩ ops) ∧
    (Admitted System.step System.Spacious ⟨kmallocInit heapStart heapSize m, []⟩ ops →
      Always System.step (System.Whole heapStart heapSize) ⟨kmallocInit heapStart heapSize m, []⟩ ops) := by
  have start := listed_init header bound m
  constructor
  · refine admitted_congr (fun s => ∃ blocks, Listed heapStart heapSize s blocks) ?_ ?_ ⟨_, start⟩ run
    · rintro s op ⟨blocks, listed⟩ releases
      obtain ⟨blocks', listed', _⟩ := listed_step nonzero bound listed releases
      exact ⟨blocks', listed'⟩
    · rintro s op ⟨blocks, listed⟩ releases
      cases op with
      | kfree ptr => exact listed.coalesces_iff nonzero bound releases
      | _ => exact Iff.rfl
  · intro spacious
    have always := always_of_admitted
      (P := fun s => ∃ blocks, Listed heapStart heapSize s blocks ∧ Coalesced blocks) ?_
      ⟨_, start, coalesced_singleton⟩ (run.and spacious)
    · refine always.mono ?_
      rintro s ⟨blocks, listed, coalesced⟩
      exact whole_of_coalesced listed nonzero header bound coalesced
    · rintro s op ⟨blocks, listed, coalesced⟩ ⟨releases, spacious⟩
      obtain ⟨blocks', listed', kept⟩ := listed_step nonzero bound listed releases
      exact ⟨blocks', listed', kept spacious coalesced⟩

/-- Of three blocks the middle one is released and then the first. -/
theorem kfree_coalesces_iff_page :
    let ops : List Op := [.kmalloc 8#64, .kmalloc 8#64, .kmalloc 8#64, .kfree 0x1038#64, .kfree 0x1018#64]
    (Admitted System.step System.Coalesces freshPage ops ↔ Admitted System.step System.Spacious freshPage ops) ∧
      (Admitted System.step System.Spacious freshPage ops →
        Always System.step (System.Whole 0x1000#64 0x1000#64) freshPage ops) := by
  have middle : 0x1038#64 ∈ fullPage.live := by decide +kernel
  have first : 0x1018#64 ∈ usedPage.live := by decide +kernel
  exact kfree_coalesces_iff (by decide) (by decide) (by decide) (fun _ => 0) _
    ⟨trivial, trivial, trivial, middle, first, trivial⟩

/-- Three blocks in a row are released, the middle one last. -/
theorem middle_block_released_last : ¬ ∀ s, Reachable 0x1000#64 0x1000#64 s → ∀ ptr ∈ s.live, ∀ s',
    s.call (.kfree ptr) = some s' → HeapCoalesced s'.heap := by
  intro always
  have nonzero : (0x1000#64 : Addr) ≠ 0#64 := by decide
  have bound : (0x1000#64 : BitVec 64).toNat + (0x1000#64 : BitVec 64).toNat < 2 ^ 64 := by decide
  have taken1 : allocate 24 (roundUp 8#64).toNat [⟨0x1000, 4072, true⟩] =
      some (0x1018, [⟨0x1000, 8, false⟩, ⟨0x1020, 4040, true⟩]) := by decide
  have taken2 : allocate 24 (roundUp 8#64).toNat [⟨0x1000, 8, false⟩, ⟨0x1020, 4040, true⟩] =
      some (0x1038, [⟨0x1000, 8, false⟩, ⟨0x1020, 8, false⟩, ⟨0x1040, 4008, true⟩]) := by decide
  have taken3 : allocate 24 (roundUp 8#64).toNat
      [⟨0x1000, 8, false⟩, ⟨0x1020, 8, false⟩, ⟨0x1040, 4008, true⟩] = some (0x1058,
        [⟨0x1000, 8, false⟩, ⟨0x1020, 8, false⟩, ⟨0x1040, 8, false⟩, ⟨0x1060, 3976, true⟩]) := by decide
  obtain ⟨m1, _, call1, listed1, _⟩ := listed_granted nonzero bound listed_page (by decide) taken1
  obtain ⟨m2, _, call2, listed2, _⟩ := listed_granted nonzero bound listed1 (by decide) taken2
  obtain ⟨m3, _, call3, listed3, _⟩ := listed_granted nonzero bound listed2 (by decide) taken3
  have live4 := (listed3.live 0x1018#64).mpr ⟨⟨0x1000, 8, false⟩, ⟨by decide, rfl⟩, rfl⟩
  obtain ⟨s4, _, call4, listed4⟩ := listed_released nonzero bound listed3 live4
  have live5 := (listed4.live 0x1058#64).mpr ⟨⟨0x1040, 8, false⟩, ⟨by decide, rfl⟩, rfl⟩
  obtain ⟨s5, _, call5, listed5⟩ := listed_released nonzero bound listed4 live5
  have live6 := (listed5.live 0x1038#64).mpr ⟨⟨0x1020, 8, false⟩, ⟨by decide, rfl⟩, rfl⟩
  obtain ⟨s6, _, call6, listed6⟩ := listed_released nonzero bound listed5 live6
  have allowed : ∀ s : System, s.Allowed (.kmalloc 8#64) := fun _ => trivial
  have reached3 := Reachable.call _ (.call _ (.call _ (.init fun _ => 0) (allowed _) call1) (allowed _) call2)
    (allowed _) call3
  have released : ∀ (s : System) ptr, ptr ∈ s.live → s.Allowed (.kfree ptr) := fun _ _ member => .inr member
  have reached5 := Reachable.call _ (.call _ reached3 (released _ _ live4) call4) (released _ _ live5) call5
  have coalesced := (listed6.coalesced_iff nonzero bound).mp (always s5 reached5 _ live6 s6 call6)
  exact absurd (coalesced_cons.mp coalesced).1 (by decide)

end

end AstralOS.Kmalloc
