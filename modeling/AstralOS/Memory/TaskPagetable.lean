import AstralOS.Memory.KmallocPolicy
import AstralOS.Memory.Mmu
import AstralOS.Sched.Kernel

/-! `vm_create_task_pagetable`: when the table that a task gets translates like the kernel's. -/
namespace AstralOS.Mmu
open Foundation Foundation.PageWalk Foundation.FirstFit AstralOS.Kmalloc
open AstralOS.Sched (vmCreateTaskPagetable pagetable zeroed)

/-- The table is where `TTBR0_EL1` can point, has the kernel's entries, and every walk from it
is the kernel's walk. -/
structure TranslatesLike (l1 t : Addr) (m : Memory) : Prop where
  aligned : t.toNat % 4096 = 0
  entries : ∀ i < 512, descriptor m t i = descriptor m l1 i
  walks : ∀ va, walk m tcrValue t va = walk m tcrValue l1 va

/-- The call returns; a table it returns translates like the kernel's, and it returns none only
when `kmalloc(PAGE_SIZE)` fails. -/
def GetsTable (l1 : Addr) (s : System) : Prop :=
  ∃ t s', vmCreateTaskPagetable (descriptor s.mem l1) s = some (t, s') ∧
    (t ≠ 0#64 → TranslatesLike l1 t s'.mem) ∧
    (t = 0#64 → ∃ h, kmalloc Sched.pageSize s.heap = some (0#64, h))

/-- The payload of the lowest free block that holds a page starts a page. -/
def PageFitsAligned (h : Heap) : Prop :=
  ∀ l, headerList h = some l → ∀ x ∈ l, x.Fits Sched.pageSize →
    (∀ y ∈ l, y.Fits Sched.pageSize → x.addr ≤ y.addr) → (x.addr + headerSize).toNat % 4096 = 0

/-- The heap and the kernel's first table are apart, in physical memory. -/
structure Apart (l1 : Addr) (heapStart heapSize : BitVec 64) : Prop where
  aligned : l1.toNat % 4096 = 0
  physical : l1.toNat < 2 ^ 48
  heapPhysical : heapStart.toNat + heapSize.toNat ≤ 2 ^ 48
  apart : l1.toNat + 4096 ≤ heapStart.toNat ∨ heapStart.toNat + heapSize.toNat ≤ l1.toNat

section
variable {l1 t heapStart heapSize : BitVec 64} {s : System} {blocks : List Block} {m m' : Memory}

theorem pageSize_rounded : (roundUp Sched.pageSize).toNat = 4096 ∧ roundedSize Sched.pageSize = 4096 :=
  ⟨by decide, by decide⟩

/-- Equal tables at aligned addresses are walked alike. -/
theorem walks_alike (alignedT : t.toNat % 4096 = 0) (physicalT : t.toNat < 2 ^ 48)
    (aligned : l1.toNat % 4096 = 0) (physical : l1.toNat < 2 ^ 48)
    (same : ∀ i < 512, descriptor m t i = descriptor m l1 i) (va : BitVec 64) :
    walk m tcrValue t va = walk m tcrValue l1 va := by
  rw [walk_level0 tcrValue_t0sz, walk_level0 tcrValue_t0sz, tableAddress_aligned alignedT physicalT,
    tableAddress_aligned aligned physical, walkFrom_same_entry same]

/-- The copy: the page at `t` gets the entries, and no other byte changes. -/
theorem pagetable_spec (entry : Nat → BitVec 64) (fits : t.toNat + 4096 ≤ 2 ^ 64) :
    (∀ i < 512, descriptor (pagetable entry m t) t i = entry i) ∧
      ∀ x : Addr, x.toNat < t.toNat ∨ t.toNat + 4096 ≤ x.toNat → pagetable entry m t x = m x := by
  refine ⟨fun i inside => descriptor_fillTable (n := 512) fits inside, fun x out => ?_⟩
  have cleared : zeroed m t 4096 x = m x := by
    refine if_neg fun near => ?_
    have := (toNat_sub_lt_iff fits).mp near
    omega
  exact (fillTable_outside (n := 512) fits out).trans cleared

/-- A page was granted: the table translates like the kernel's when its address allows it. -/
theorem granted_translates (apart : Apart l1 heapStart heapSize)
    (low : heapStart.toNat ≤ t.toNat) (high : t.toNat + 4096 ≤ heapStart.toNat + heapSize.toNat)
    (outside : ∀ x : Addr, x.toNat < heapStart.toNat ∨ heapStart.toNat + heapSize.toNat ≤ x.toNat → m' x = m x) :
    TranslatesLike l1 t (pagetable (descriptor m l1) m' t) ↔ t.toNat % 4096 = 0 := by
  have heapPhysical := apart.heapPhysical
  have beside := apart.apart
  refine ⟨fun like => like.aligned, fun aligned => ?_⟩
  obtain ⟨copied, kept⟩ := pagetable_spec (m := m') (descriptor m l1) (t := t) (by omega)
  have source (i : Nat) (inside : i < 512) :
      descriptor (pagetable (descriptor m l1) m' t) l1 i = descriptor m l1 i := by
    refine descriptor_of_page apart.aligned inside fun x low high => ?_
    rw [kept x (by omega)]
    exact outside x (by omega)
  have same : ∀ i < 512, descriptor (pagetable (descriptor m l1) m' t) t i =
      descriptor (pagetable (descriptor m l1) m' t) l1 i := fun i inside =>
    (copied i inside).trans (source i inside).symm
  exact ⟨aligned, same, walks_alike aligned (by omega) apart.aligned apart.physical same⟩

theorem fits_page {b : Block} {x : Kmalloc.Entry} (bound : heapStart.toNat + heapSize.toNat < 2 ^ 64)
    (listed : Listed heapStart heapSize s blocks) (member : b ∈ blocks) (size : x.size = BitVec.ofNat 64 b.size)
    (free : x.free = flag b.free) : x.Fits Sched.pageSize ↔ Suits 4096 b := by
  have inside := listed.tiles.inside member
  rw [fits_iff (b := b) (by omega) size free, pageSize_rounded.2]

/-- With no block for a page there is none to be misplaced. -/
theorem fitsAligned_of_none (nonzero : heapStart ≠ 0#64) (bound : heapStart.toNat + heapSize.toNat < 2 ^ 64)
    (listed : Listed heapStart heapSize s blocks) (none_ : ∀ b ∈ blocks, ¬ Suits 4096 b) : PageFitsAligned s.heap := by
  intro l here x member fitsX
  obtain rfl := Option.some.inj ((listed.headerList nonzero bound).symm.trans here)
  obtain ⟨b, memberB, _, size, free⟩ := mem_entries member
  exact absurd ((fits_page bound listed memberB size free).mp fitsX) (none_ b memberB)

/-- The first block for a page decides. -/
theorem fitsAligned_iff {b : Block} (nonzero : heapStart ≠ 0#64) (bound : heapStart.toNat + heapSize.toNat < 2 ^ 64)
    (listed : Listed heapStart heapSize s blocks) (member : b ∈ blocks) (suits : Suits 4096 b)
    (first : ∀ c ∈ blocks, Suits 4096 c → b.addr ≤ c.addr) : PageFitsAligned s.heap ↔ (b.addr + 24) % 4096 = 0 := by
  have listing := listed.headerList nonzero bound
  have inside := listed.tiles.inside member
  have header (a : Nat) (small : a + 24 < 2 ^ 64) : (BitVec.ofNat 64 a + headerSize).toNat = a + 24 :=
    toNat_field small
  constructor
  · intro aligned
    obtain ⟨x, memberX, addr, size, free⟩ := entries_mem member
    have starts := aligned _ listing x memberX ((fits_page bound listed member size free).mpr suits) fun y memberY fitsY => by
      obtain ⟨c, memberC, addrC, sizeC, freeC⟩ := mem_entries memberY
      have insideC := listed.tiles.inside memberC
      have order := first c memberC ((fits_page bound listed memberC sizeC freeC).mp fitsY)
      rw [addr, addrC, BitVec.le_def, BitVec.toNat_ofNat, BitVec.toNat_ofNat, Nat.mod_eq_of_lt (by omega),
        Nat.mod_eq_of_lt (by omega)]
      exact order
    rwa [addr, header b.addr (by omega)] at starts
  · intro aligned l here x memberX fitsX lowest
    obtain rfl := Option.some.inj (listing.symm.trans here)
    obtain ⟨y, memberY, addrY, sizeY, freeY⟩ := entries_mem member
    obtain ⟨c, memberC, addr, size, free⟩ := mem_entries memberX
    have insideC := listed.tiles.inside memberC
    have after := first c memberC ((fits_page bound listed memberC size free).mp fitsX)
    have before := lowest y memberY ((fits_page bound listed member sizeY freeY).mpr suits)
    rw [addr, addrY, BitVec.le_def, BitVec.toNat_ofNat, BitVec.toNat_ofNat, Nat.mod_eq_of_lt (by omega),
      Nat.mod_eq_of_lt (by omega)] at before
    rw [addr, header c.addr (by omega)]
    omega

theorem getsTable_iff (apart : Apart l1 heapStart heapSize) (nonzero : heapStart ≠ 0#64)
    (listed : Listed heapStart heapSize s blocks) : GetsTable l1 s ↔ PageFitsAligned s.heap := by
  have heapPhysical := apart.heapPhysical
  have bound : heapStart.toNat + heapSize.toNat < 2 ^ 64 := by omega
  cases found : allocate 24 (roundUp Sched.pageSize).toNat blocks with
  | none =>
      have refused := kmalloc_refused nonzero bound listed.toLayout (.inr found)
      have made : vmCreateTaskPagetable (descriptor s.mem l1) s = some (0#64, s) := by
        rw [vmCreateTaskPagetable, System.alloc, refused]
        rfl
      rw [pageSize_rounded.1] at found
      exact iff_of_true ⟨0#64, s, made, fun used => absurd rfl used, fun _ => ⟨_, refused⟩⟩
        (fitsAligned_of_none nonzero bound listed (allocate_eq_none.mp found))
  | some result =>
      obtain ⟨m', granted, _, _, frame⟩ := kmalloc_granted nonzero bound listed.toLayout (by decide) found
      obtain ⟨_, _, _, _, notNull⟩ := listed_granted nonzero bound listed (by decide) found
      rw [pageSize_rounded.1] at found
      obtain ⟨b, member, suits, address, first⟩ := allocate_first listed.tiles found
      have inside := listed.tiles.inside member
      have enough := suits.2
      have place : (BitVec.ofNat 64 result.1).toNat = b.addr + 24 := by
        rw [BitVec.toNat_ofNat, address, Nat.mod_eq_of_lt (by omega)]
      have made : ∃ s', vmCreateTaskPagetable (descriptor s.mem l1) s = some (BitVec.ofNat 64 result.1, s') ∧
          s'.mem = pagetable (descriptor s.mem l1) m' (BitVec.ofNat 64 result.1) := by
        rw [vmCreateTaskPagetable, System.alloc, granted, Option.map_some, Option.map_some]
        dsimp only
        rw [if_neg notNull]
        exact ⟨_, rfl, withMem_mem _ _⟩
      obtain ⟨s', made, memory⟩ := made
      have translates := granted_translates (m := s.mem) (t := BitVec.ofNat 64 result.1) apart
        (by omega) (by omega) fun x out => show m' x = s.mem x from frame x (by omega)
      rw [fitsAligned_iff nonzero bound listed member suits first, ← place]
      constructor
      · rintro ⟨t, s'', made', like, _⟩
        obtain ⟨rfl, rfl⟩ := Prod.mk.inj (Option.some.inj (made.symm.trans made'))
        exact (like notNull).aligned
      · intro aligned
        refine ⟨_, s', made, fun _ => ?_, fun null => absurd null notNull⟩
        rw [System.mem] at memory
        rw [System.mem, memory]
        exact translates.mpr aligned

end

/-- In every reachable heap the table a task gets translates like the kernel's if and only if the
lowest free block with room for a page, if there is one, has its payload at the start of a page. -/
theorem task_pagetable_iff (l1 heapStart heapSize : BitVec 64) (apart : Apart l1 heapStart heapSize)
    (nonzero : heapStart ≠ 0#64) (header : 24 ≤ heapSize.toNat) (s : System)
    (reachable : Reachable heapStart heapSize s) : GetsTable l1 s ↔ PageFitsAligned s.heap := by
  have heapPhysical := apart.heapPhysical
  obtain ⟨blocks, listed⟩ := reachable_listed nonzero header (by omega) reachable
  exact getsTable_iff apart nonzero listed

theorem apart_example : Apart 0x90000#64 0x80000000#64 0x10000000#64 :=
  ⟨by decide, by decide, by decide, by decide⟩

theorem task_pagetable_iff_fresh :
    GetsTable 0x90000#64 ⟨kmallocInit 0x80000000#64 0x10000000#64 fun _ => 0, []⟩ ↔
      PageFitsAligned (kmallocInit 0x80000000#64 0x10000000#64 fun _ => 0) :=
  task_pagetable_iff 0x90000#64 0x80000000#64 0x10000000#64 apart_example (by decide) (by decide) _ (.init _)

/-- On the heap the kernel falls back to, fresh, the first table is 24 bytes past a page. -/
theorem first_pagetable_unaligned : ¬ ∀ s, Reachable 0x80000000#64 0x10000000#64 s → GetsTable 0x90000#64 s := by
  intro all
  have listed : Listed 0x80000000#64 0x10000000#64 ⟨kmallocInit 0x80000000#64 0x10000000#64 fun _ => 0, []⟩ _ :=
    listed_init (by decide) (by decide) _
  have aligned := (getsTable_iff apart_example (by decide) listed).mp (all _ (.init _))
  have listing := listed.headerList (by decide) (by decide)
  have first := aligned _ listing _ List.mem_cons_self ⟨by decide, by decide⟩ fun y member _ => by
    rw [List.mem_singleton.mp member]
    exact BitVec.le_refl _
  exact absurd first (by decide)

end AstralOS.Mmu
