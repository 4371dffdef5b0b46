import AstralOS.Foundation.PageWalk
import AstralOS.Lib.Mem

/-! `cpu_enable_mmu`: the two kernel tables, the registers, and what the hardware walk makes of
them. The walk starts a level above the one the tables are written for. -/
namespace AstralOS.Mmu
open Foundation Foundation.PageWalk AstralOS.Lib

def pageSize : BitVec 64 := 0x1000#64
def blockSize : BitVec 64 := 0x200000#64
def initialMappingBase : BitVec 64 := 0x40000000#64

def mtDeviceNgnrne : Nat := 0
def mtNormalNc : Nat := 1
def mtNormal : Nat := 2

def mairValue : BitVec 64 :=
  (0x00#64 <<< (mtDeviceNgnrne * 8)) ||| (0x44#64 <<< (mtNormalNc * 8)) ||| (0xFF#64 <<< (mtNormal * 8))

def tcrT0sz (x : Nat) : BitVec 64 := BitVec.ofNat 64 (64 - x) <<< 0
def tcrIrgn0Wbwa : BitVec 64 := 0x1#64 <<< 8
def tcrOrgn0Wbwa : BitVec 64 := 0x1#64 <<< 10
def tcrSh0Inner : BitVec 64 := 0x3#64 <<< 12
def tcrTg0_4KB : BitVec 64 := 0x0#64 <<< 14
def tcrPs48Bit : BitVec 64 := 0x5#64 <<< 16

def tcrValue : BitVec 64 :=
  tcrT0sz 48 ||| tcrIrgn0Wbwa ||| tcrOrgn0Wbwa ||| tcrSh0Inner ||| tcrTg0_4KB ||| tcrPs48Bit

def pteValid : BitVec 64 := 1#64 <<< 0
def pteTable : BitVec 64 := 1#64 <<< 1
def pteBlock : BitVec 64 := 0#64 <<< 1
def pteAf : BitVec 64 := 1#64 <<< 10
def pteShInnerShareable : BitVec 64 := 0x3#64 <<< 8
def pteApRwEl1 : BitVec 64 := 0x0#64 <<< 6
def ptePxn : BitVec 64 := 1#64 <<< 53
def pteUxn : BitVec 64 := 1#64 <<< 54

/-- Memory and the system registers of the translation. -/
structure Machine where
  mem : Memory
  mairEl1 : BitVec 64
  tcrEl1 : BitVec 64
  ttbr0El1 : BitVec 64
  sctlrEl1 : BitVec 64

def setEntry (m : Memory) (table : Addr) (i : Nat) (v : BitVec 64) : Memory :=
  store 8 m (table + BitVec.ofNat 64 (8 * i)) v

/-- `pa | attributes` of the first gigabyte. -/
def normalEntry (i : Nat) : BitVec 64 :=
  (BitVec.ofNat 64 i * blockSize) |||
    (pteValid ||| pteBlock ||| pteAf ||| pteShInnerShareable ||| pteApRwEl1 ||| (BitVec.ofNat 64 mtNormal <<< 2))

def fbBasePa : BitVec 64 := initialMappingBase
def fbSize : BitVec 64 := 0x1000000#64

def fbAttributes : BitVec 64 :=
  (pteValid ||| pteBlock ||| pteAf ||| pteShInnerShareable ||| pteApRwEl1 ||| ptePxn ||| pteUxn) |||
    (BitVec.ofNat 64 mtDeviceNgnrne <<< 2)

/-- The loop over the framebuffer's blocks. -/
def mapFramebuffer (fbL2Table : Addr) (m : Memory) : Memory :=
  (List.range (fbSize.toNat / blockSize.toNat)).foldl (fun m i =>
    let currentPa := fbBasePa + BitVec.ofNat 64 i * blockSize
    let l2Idx := ((currentPa >>> 21) &&& 0x1FF#64).toNat
    setEntry m fbL2Table l2Idx (currentPa ||| fbAttributes)) m

def l1Idx : Nat := ((fbBasePa >>> 30) &&& 0x1FF#64).toNat

/-- The first gigabyte: both tables cleared, one entry in the first, all in the second. -/
def mapFirstGigabyte (l1 l2 : Addr) (m : Memory) : Memory :=
  let m := memset 0#8 4096 l1 m
  let m := memset 0#8 4096 l2 m
  let m := setEntry m l1 0 (l2 ||| pteTable ||| pteValid)
  fillTable l2 normalEntry 512 m

/-- A table for the framebuffer, from `kmalloc`, unless there is one. -/
def fbTable (kmalloc : BitVec 64 → Memory → Addr × Memory) (l1 : Addr) (m : Memory) : Memory :=
  if descriptor m l1 l1Idx &&& pteValid = 0#64 then
    let r := kmalloc pageSize m
    let m := memset 0#8 pageSize.toNat r.1 r.2
    setEntry m l1 l1Idx (r.1 ||| pteTable ||| pteValid)
  else m

/-- `l1` and `l2` are the addresses of `kernel_l1_page_table` and `kernel_l2_page_table`. -/
def cpuEnableMmu (kmalloc : BitVec 64 → Memory → Addr × Memory) (l1 l2 : Addr) (s : Machine) : Machine :=
  let m := mapFirstGigabyte l1 l2 s.mem
  let m := fbTable kmalloc l1 m
  let m := mapFramebuffer (descriptor m l1 l1Idx &&& ~~~0xFFF#64) m
  { mem := m
    mairEl1 := mairValue
    tcrEl1 := tcrValue
    ttbr0El1 := l1
    sctlrEl1 := s.sctlrEl1 ||| (1#64 <<< 0) }

/-- The translation the registers of `s` select. -/
def Machine.translate (s : Machine) (va : BitVec 64) : Option Translation := walk s.mem s.tcrEl1 s.ttbr0El1 va

/-- The attribute field of `MAIR_EL1` that a translation selects. -/
def Machine.memoryType (s : Machine) (t : Translation) : BitVec 8 := s.mairEl1.extractLsb' (8 * t.attrIndx.toNat) 8

/-- An identity mapping, Normal below the framebuffer, Device-nGnRnE and never executed in it. -/
def Machine.Intended (s : Machine) (va : BitVec 64) : Prop :=
  ∃ t, s.translate va = some t ∧ t.pa = va ∧
    (va.toNat < 0x40000000 → t.attrIndx = BitVec.ofNat 3 mtNormal ∧ s.memoryType t = 0xFF#8) ∧
    (0x40000000 ≤ va.toNat → s.memoryType t = 0x00#8 ∧ t.pxn = true ∧ t.uxn = true)

/-- The kernel's tables are two pages of physical memory. -/
structure Placed (l1 l2 : Addr) : Prop where
  alignedL1 : l1.toNat % 4096 = 0
  alignedL2 : l2.toNat % 4096 = 0
  physicalL1 : l1.toNat < 2 ^ 48
  physicalL2 : l2.toNat < 2 ^ 48
  apart : l1 ≠ l2

/-- `kmalloc(PAGE_SIZE)` has returned a page of its own and left the kernel's tables alone. -/
structure GivesPage (l1 l2 : Addr) (m : Memory) (r : Addr × Memory) : Prop where
  aligned : r.1.toNat % 4096 = 0
  freshL1 : r.1 ≠ l1
  freshL2 : r.1 ≠ l2
  keeps : ∀ x, l1.toNat / 4096 = x.toNat / 4096 ∨ l2.toNat / 4096 = x.toNat / 4096 → r.2 x = m x

section
variable {l1 l2 p q : Addr} {m m' : Memory} {r : Addr × Memory} {va v : BitVec 64} {i k : Nat}

theorem page_inside (aligned : p.toNat % 4096 = 0) : p.toNat + 4096 ≤ 2 ^ 64 := by
  have := p.isLt
  omega

theorem pages_apart (alignedP : p.toNat % 4096 = 0) (alignedQ : q.toNat % 4096 = 0) (apart : p ≠ q) :
    p.toNat + 4096 ≤ q.toNat ∨ q.toNat + 4096 ≤ p.toNat := by
  have : p.toNat ≠ q.toNat := fun same => apart (BitVec.eq_of_toNat_eq same)
  omega

theorem descriptor_setEntry : descriptor (setEntry m p k v) p k = v :=
  load_store_same (by omega) (by omega) _ _ _

theorem descriptor_setEntry_other (aligned : p.toNat % 4096 = 0) (inside : i < 512) (insideK : k < 512)
    (other : i ≠ k) : descriptor (setEntry m p k v) p i = descriptor m p i := by
  have := page_inside aligned
  have placeI := toNat_add_ofNat (a := p) (i := 8 * i) (by omega)
  have placeK := toNat_add_ofNat (a := p) (i := 8 * k) (by omega)
  exact load_store_disjoint (by omega) (by omega) (by omega)

theorem setEntry_outside (aligned : p.toNat % 4096 = 0) (inside : k < 512) {x : Addr}
    (out : x.toNat < p.toNat ∨ p.toNat + 4096 ≤ x.toNat) : setEntry m p k v x = m x := by
  have := page_inside aligned
  have place := toNat_add_ofNat (a := p) (i := 8 * k) (by omega)
  exact store_apply (by omega) (by omega)

/-- A table is untouched by what happens outside its page. -/
theorem descriptor_of_page (aligned : p.toNat % 4096 = 0) (inside : i < 512)
    (same : ∀ x : Addr, p.toNat ≤ x.toNat → x.toNat < p.toNat + 4096 → m' x = m x) :
    descriptor m' p i = descriptor m p i :=
  descriptor_congr (n := 512) same (page_inside aligned) inside

theorem descriptor_memset (aligned : p.toNat % 4096 = 0) (inside : i < 512) :
    descriptor (memset 0#8 4096 p m) p i = 0#64 := by
  have fits := page_inside aligned
  have zeros : descriptor (memset 0#8 4096 p m) p i = load 64 8 (fun _ => 0#8) (p + BitVec.ofNat 64 (8 * i)) := by
    refine load_congr fun j hj => ?_
    rw [BitVec.add_assoc, ← BitVec.ofNat_add]
    have place := toNat_add_ofNat (a := p) (i := 8 * i + j) (by omega)
    exact memset_inside fits (by omega) (by omega)
  rw [zeros]
  rfl

/-- What the first gigabyte's tables hold. -/
structure FirstGigabyte (l1 l2 : Addr) (m : Memory) : Prop where
  first : descriptor m l1 0 = l2 ||| pteTable ||| pteValid
  blocks : ∀ i < 512, descriptor m l2 i = normalEntry i

theorem mapFirstGigabyte_spec (placed : Placed l1 l2) (m : Memory) :
    FirstGigabyte l1 l2 (mapFirstGigabyte l1 l2 m) ∧ descriptor (mapFirstGigabyte l1 l2 m) l1 l1Idx = 0#64 := by
  have apart := pages_apart placed.alignedL1 placed.alignedL2 placed.apart
  have fits1 := page_inside placed.alignedL1
  have fits2 := page_inside placed.alignedL2
  have filled (i : Nat) (inside : i < 512) : descriptor (mapFirstGigabyte l1 l2 m) l1 i =
      descriptor (setEntry (memset 0#8 4096 l2 (memset 0#8 4096 l1 m)) l1 0 (l2 ||| pteTable ||| pteValid)) l1 i :=
    descriptor_of_page placed.alignedL1 inside fun x low high => fillTable_outside fits2 (by omega)
  refine ⟨⟨?_, fun i inside => descriptor_fillTable fits2 inside⟩, ?_⟩
  · rw [filled 0 (by decide), descriptor_setEntry]
  · rw [filled l1Idx (by decide), descriptor_setEntry_other placed.alignedL1 (by decide) (by decide) (by decide)]
    refine Eq.trans ?_ (descriptor_memset (m := m) placed.alignedL1 (i := l1Idx) (by decide))
    exact descriptor_of_page placed.alignedL1 (by decide) fun x low high => memset_outside fits2 (by omega)

/-- The blocks of the framebuffer go into its table. -/
theorem mapFramebuffer_outside (aligned : p.toNat % 4096 = 0) {x : Addr}
    (out : x.toNat < p.toNat ∨ p.toNat + 4096 ≤ x.toNat) : mapFramebuffer p m x = m x := by
  unfold mapFramebuffer
  generalize List.range _ = indices
  induction indices generalizing m with
  | nil => rfl
  | cons i rest ih =>
      rw [List.foldl_cons, ih]
      refine setEntry_outside aligned ?_ out
      have bounded := Nat.and_le_right (n := ((fbBasePa + BitVec.ofNat 64 i * blockSize) >>> 21).toNat) (m := 0x1FF)
      rw [BitVec.toNat_and]
      exact Nat.lt_succ_of_le bounded

/-- What is done outside the two pages leaves them as they are. -/
theorem FirstGigabyte.congr (tables : FirstGigabyte l1 l2 m) (placed : Placed l1 l2)
    (first : descriptor m' l1 0 = descriptor m l1 0)
    (same : ∀ x : Addr, l2.toNat ≤ x.toNat → x.toNat < l2.toNat + 4096 → m' x = m x) :
    FirstGigabyte l1 l2 m' where
  first := first.trans tables.first
  blocks i inside := (descriptor_of_page placed.alignedL2 inside same).trans (tables.blocks i inside)

theorem fbTable_spec (placed : Placed l1 l2) {kmalloc : BitVec 64 → Memory → Addr × Memory}
    (tables : FirstGigabyte l1 l2 m) (absent : descriptor m l1 l1Idx = 0#64)
    (gives : GivesPage l1 l2 m (kmalloc pageSize m)) :
    FirstGigabyte l1 l2 (fbTable kmalloc l1 m) ∧
      descriptor (fbTable kmalloc l1 m) l1 l1Idx = (kmalloc pageSize m).1 ||| pteTable ||| pteValid := by
  have invalid : descriptor m l1 l1Idx &&& pteValid = 0#64 := by
    rw [absent]
    decide
  have apart1 := pages_apart gives.aligned placed.alignedL1 gives.freshL1
  have apart2 := pages_apart gives.aligned placed.alignedL2 gives.freshL2
  have apart := pages_apart placed.alignedL1 placed.alignedL2 placed.apart
  have fits := page_inside gives.aligned
  have aligned1 := placed.alignedL1
  have aligned2 := placed.alignedL2
  set m₁ := memset 0#8 pageSize.toNat (kmalloc pageSize m).1 (kmalloc pageSize m).2 with m₁_eq
  have cleared (x : Addr) (here : l1.toNat / 4096 = x.toNat / 4096 ∨ l2.toNat / 4096 = x.toNat / 4096) :
      m₁ x = m x := (memset_outside fits (by omega)).trans (gives.keeps x here)
  rw [fbTable, if_pos invalid]
  refine ⟨tables.congr placed ?_ fun x low high => ?_, descriptor_setEntry⟩
  · rw [descriptor_setEntry_other aligned1 (by decide) (by decide) (by decide)]
    exact descriptor_of_page aligned1 (by decide) fun x low high => cleared x (by omega)
  · exact (setEntry_outside aligned1 (by decide) (by omega)).trans (cleared x (by omega))

/-- The tables that the walk from `TTBR0_EL1` meets. -/
theorem cpuEnableMmu_tables (placed : Placed l1 l2) {kmalloc : BitVec 64 → Memory → Addr × Memory} {s : Machine}
    (gives : GivesPage l1 l2 (mapFirstGigabyte l1 l2 s.mem) (kmalloc pageSize (mapFirstGigabyte l1 l2 s.mem))) :
    FirstGigabyte l1 l2 (cpuEnableMmu kmalloc l1 l2 s).mem := by
  obtain ⟨tables, absent⟩ := mapFirstGigabyte_spec placed s.mem
  obtain ⟨tables, entry⟩ := fbTable_spec placed tables absent gives
  have apart1 := pages_apart gives.aligned placed.alignedL1 gives.freshL1
  have apart2 := pages_apart gives.aligned placed.alignedL2 gives.freshL2
  have page : descriptor (fbTable kmalloc l1 (mapFirstGigabyte l1 l2 s.mem)) l1 l1Idx &&& ~~~0xFFF#64 =
      (kmalloc pageSize (mapFirstGigabyte l1 l2 s.mem)).1 := by
    rw [entry]
    exact clear_offset_typed gives.aligned
  dsimp only [cpuEnableMmu]
  rw [page]
  refine tables.congr placed ?_ fun x low high => mapFramebuffer_outside gives.aligned (by omega)
  exact descriptor_of_page placed.alignedL1 (by decide) fun x low high =>
    mapFramebuffer_outside gives.aligned (by omega)

theorem tcrValue_t0sz : tcrValue.toNat % 64 = 16 := by decide

/-- The walk starts at level 0, so it takes the first table for one of level 0 and the second for
one of level 1: two entries of it cover the addresses below 2 GB, each as a gigabyte at 0. -/
theorem translate_low (placed : Placed l1 l2) {s : Machine} (tables : FirstGigabyte l1 l2 s.mem)
    (tcr : s.tcrEl1 = tcrValue) (ttbr0 : s.ttbr0El1 = l1) (low : va.toNat < 0x41000000) :
    s.translate va = some ⟨BitVec.ofNat 64 (va.toNat % 2 ^ 30), BitVec.ofNat 3 mtNormal, false, false⟩ := by
  have inside : ¬ 2 ^ 48 ≤ va.toNat := by omega
  have top : indexOf (12 + 9 * (2 + 1)) va = 0 := by
    rw [indexOf]
    omega
  have first : descriptor s.mem l1 (indexOf (12 + 9 * (2 + 1)) va) = l2 ||| 2#64 ||| 1#64 := by
    rw [top]
    exact tables.first
  obtain ⟨k, two, next⟩ : ∃ k < 2, indexOf (12 + 9 * (1 + 1)) va = k := by
    refine ⟨_, ?_, rfl⟩
    rw [indexOf]
    omega
  have second : descriptor s.mem l2 (indexOf (12 + 9 * (1 + 1)) va) = normalEntry k := by
    rw [next]
    exact tables.blocks k (by omega)
  have block : (normalEntry k).getLsbD 0 = true ∧ (normalEntry k).getLsbD 1 = false ∧
      leaf (12 + 9 * (1 + 1)) (normalEntry k) va false false =
        some ⟨BitVec.ofNat 64 (va.toNat % 2 ^ 30), BitVec.ofNat 3 mtNormal, false, false⟩ := by
    have cases_ : k = 0 ∨ k = 1 := by omega
    have zero (k : Nat) (small : (normalEntry k).toNat < 2 ^ 30) : addressBits 30 (normalEntry k) = 0 := by
      rw [addressBits]
      omega
    rcases cases_ with rfl | rfl
    · refine ⟨by decide, by decide, ?_⟩
      rw [leaf, if_pos (by decide), zero 0 (by decide), Nat.zero_add]
      rfl
    · refine ⟨by decide, by decide, ?_⟩
      rw [leaf, if_pos (by decide), zero 1 (by decide), Nat.zero_add]
      rfl
  rw [Machine.translate, tcr, ttbr0, walk_level0 tcrValue_t0sz, if_neg inside,
    tableAddress_aligned placed.alignedL1 placed.physicalL1, walkFrom_typed placed.alignedL2 placed.physicalL2 first,
    walkFrom_block second block.1 block.2.1 (by decide), block.2.2]

theorem intended_iff (placed : Placed l1 l2) {kmalloc : BitVec 64 → Memory → Addr × Memory} {s : Machine}
    (gives : GivesPage l1 l2 (mapFirstGigabyte l1 l2 s.mem) (kmalloc pageSize (mapFirstGigabyte l1 l2 s.mem)))
    (low : va.toNat < 0x41000000) :
    (cpuEnableMmu kmalloc l1 l2 s).Intended va ↔ va.toNat < 0x40000000 := by
  have walked := translate_low (s := cpuEnableMmu kmalloc l1 l2 s) placed (cpuEnableMmu_tables placed gives) rfl rfl low
  constructor
  · rintro ⟨t, found, identity, _⟩
    obtain rfl := Option.some.inj (walked.symm.trans found)
    have same := congrArg BitVec.toNat identity
    rw [BitVec.toNat_ofNat] at same
    omega
  · intro below
    refine ⟨_, walked, ?_, fun _ => ⟨rfl, ?_⟩, fun above => ?_⟩
    · refine BitVec.eq_of_toNat_eq ?_
      rw [BitVec.toNat_ofNat]
      omega
    · change mairValue.extractLsb' 16 8 = 0xFF#8
      decide
    · omega

end

/-- The walk gives the intended translation for the first gigabyte and for no address of the
framebuffer. -/
theorem mmu_intended_iff (l1 l2 : Addr) (placed : Placed l1 l2)
    (kmalloc : BitVec 64 → Memory → Addr × Memory) (s : Machine)
    (gives : GivesPage l1 l2 (mapFirstGigabyte l1 l2 s.mem) (kmalloc pageSize (mapFirstGigabyte l1 l2 s.mem)))
    (va : BitVec 64) (low : va.toNat < 0x41000000) :
    (cpuEnableMmu kmalloc l1 l2 s).Intended va ↔ va.toNat < 0x40000000 :=
  intended_iff placed gives low

theorem placed_example : Placed 0x90000#64 0x91000#64 := ⟨by decide, by decide, by decide, by decide, by decide⟩

/-- `kmalloc` taking whole the block with the payload 0x80001000: its flag at 0x80000FF8 is cleared. -/
def takePage (_ : BitVec 64) (m : Memory) : Addr × Memory := (0x80001000#64, store 4 m 0x80000FF8#64 0#32)

theorem takePage_gives (m : Memory) : GivesPage 0x90000#64 0x91000#64 m (takePage pageSize m) where
  aligned := (by decide : (0x80001000#64).toNat % 4096 = 0)
  freshL1 := (by decide : 0x80001000#64 ≠ 0x90000#64)
  freshL2 := (by decide : 0x80001000#64 ≠ 0x91000#64)
  keeps x here := by
    have flag : (0x80000FF8#64).toNat = 0x80000FF8 := rfl
    have first : (0x90000#64).toNat = 0x90000 := rfl
    have second : (0x91000#64).toNat = 0x91000 := rfl
    exact store_apply (by omega) (by omega)

theorem mmu_intended_iff_low : (cpuEnableMmu takePage 0x90000#64 0x91000#64 ⟨fun _ => 0, 0, 0, 0, 0⟩).Intended 0x1000#64 ↔
    (0x1000#64).toNat < 0x40000000 :=
  mmu_intended_iff 0x90000#64 0x91000#64 placed_example takePage ⟨fun _ => 0, 0, 0, 0, 0⟩ (takePage_gives _)
    0x1000#64 (by decide)

/-- The framebuffer's first address is translated to 0. -/
theorem framebuffer_not_intended :
    ¬ (cpuEnableMmu takePage 0x90000#64 0x91000#64 ⟨fun _ => 0, 0, 0, 0, 0⟩).Intended 0x40000000#64 := by
  intro intended
  exact absurd ((intended_iff placed_example (takePage_gives _) (by decide)).mp intended) (by decide)

end AstralOS.Mmu
