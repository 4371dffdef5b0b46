import AstralOS.Foundation.Bytes

/-! Byte-addressed memory with 64-bit addresses that wrap, and little-endian loads
and stores of any number of bytes at any alignment. -/
namespace Foundation

abbrev Addr := BitVec 64
abbrev Memory := Addr → Byte

def Memory.view (m : Memory) (a : Addr) : Bytes := fun i => m (a + BitVec.ofNat 64 i)

def load (w n : Nat) (m : Memory) (a : Addr) : BitVec w := le w n (m.view a)

/-- The low `n` bytes of `v` at `a`. The distance `x - a` wraps with the address space. -/
def store {w : Nat} (n : Nat) (m : Memory) (a : Addr) (v : BitVec w) : Memory := fun x =>
  if (x - a).toNat < n then leByte v (x - a).toNat else m x

theorem load_congr {w n : Nat} {m m' : Memory} {a : Addr}
    (h : ∀ i < n, m (a + BitVec.ofNat 64 i) = m' (a + BitVec.ofNat 64 i)) :
    load w n m a = load w n m' a :=
  le_congr h

theorem store_outside {w n : Nat} (m : Memory) {a x : Addr} (v : BitVec w)
    (h : n ≤ (x - a).toNat) : store n m a v x = m x :=
  if_neg (Nat.not_lt.mpr h)

theorem toNat_sub_self_add (a : Addr) {i : Nat} (hi : i < 2 ^ 64) :
    (a + BitVec.ofNat 64 i - a).toNat = i := by
  have h : a + BitVec.ofNat 64 i - a = BitVec.ofNat 64 i := by
    rw [BitVec.add_comm, BitVec.add_sub_cancel]
  rw [h, BitVec.toNat_ofNat, Nat.mod_eq_of_lt hi]

theorem load_store_same {w n : Nat} (hw : w ≤ 8 * n) (hn : n ≤ 2 ^ 64) (m : Memory) (a : Addr)
    (v : BitVec w) : load w n (store n m a v) a = v := by
  refine le_eq_of_bytes hw v fun i hi => ?_
  have offset := toNat_sub_self_add a (Nat.lt_of_lt_of_le hi hn)
  simp only [Memory.view, store, offset, hi, if_true]

/-- A store seen at an offset from where it was made. -/
theorem load_store_apart {w w' n n' : Nat} (m : Memory) (a b : Addr) (v : BitVec w)
    (h : ∀ i < n', n ≤ (b + BitVec.ofNat 64 i - a).toNat) :
    load w' n' (store n m a v) b = load w' n' m b :=
  load_congr fun i hi => store_outside m v (h i hi)

/-! Ranges that end inside the address space are intervals of `Nat`. -/

theorem toNat_sub_lt_iff {a x : Addr} {n : Nat} (fits : a.toNat + n ≤ 2 ^ 64) :
    (x - a).toNat < n ↔ a.toNat ≤ x.toNat ∧ x.toNat < a.toNat + n := by
  have ha := a.isLt
  have hx := x.isLt
  rw [BitVec.toNat_sub]
  omega

theorem toNat_add_ofNat {a : Addr} {i : Nat} (fits : a.toNat + i < 2 ^ 64) :
    (a + BitVec.ofNat 64 i).toNat = a.toNat + i := by
  rw [BitVec.toNat_add, BitVec.toNat_ofNat]
  omega

/-- What a store leaves at an address, with the range written as an interval. -/
theorem store_apply {w n : Nat} {m : Memory} {a x : Addr} {v : BitVec w}
    (fits : a.toNat + n ≤ 2 ^ 64) (h : x.toNat < a.toNat ∨ a.toNat + n ≤ x.toNat) :
    store n m a v x = m x := by
  apply store_outside
  by_contra near
  have := (toNat_sub_lt_iff fits).mp (Nat.lt_of_not_le near)
  omega

theorem load_store_disjoint {w w' n n' : Nat} {m : Memory} {a b : Addr} {v : BitVec w}
    (ha : a.toNat + n ≤ 2 ^ 64) (hb : b.toNat + n' ≤ 2 ^ 64)
    (h : a.toNat + n ≤ b.toNat ∨ b.toNat + n' ≤ a.toNat) :
    load w' n' (store n m a v) b = load w' n' m b := by
  refine load_congr fun i hi => store_apply ha ?_
  have := toNat_add_ofNat (a := b) (i := i) (by omega)
  omega

/-- The low `k` bits cleared. -/
theorem toNat_clear (k : Nat) (x : BitVec 64) :
    (x &&& ~~~BitVec.ofNat 64 (2 ^ k - 1)).toNat = x.toNat / 2 ^ k * 2 ^ k := by
  have shifted : x &&& ~~~BitVec.ofNat 64 (2 ^ k - 1) = (x >>> k) <<< k := by
    refine BitVec.eq_of_getLsbD_eq fun i below => ?_
    have low : (BitVec.ofNat 64 (2 ^ k - 1)).getLsbD i = decide (i < k) := by
      rw [BitVec.getLsbD_ofNat, Nat.testBit_two_pow_sub_one, decide_eq_true below, Bool.true_and]
    rw [BitVec.getLsbD_and, BitVec.getLsbD_not, low, BitVec.getLsbD_shiftLeft, BitVec.getLsbD_ushiftRight,
      decide_eq_true below]
    by_cases cleared : i < k
    · simp [cleared]
    · simp [cleared, show k + (i - k) = i by omega]
  have kept : x.toNat / 2 ^ k * 2 ^ k < 2 ^ 64 := lt_of_le_of_lt (Nat.div_mul_le_self _ _) x.isLt
  rw [shifted, BitVec.toNat_shiftLeft, BitVec.toNat_ushiftRight, Nat.shiftRight_eq_div_pow,
    Nat.shiftLeft_eq, Nat.mod_eq_of_lt kept]

end Foundation
