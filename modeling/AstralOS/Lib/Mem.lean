import AstralOS.Foundation.Memory
import Mathlib.Logic.Function.Basic

/-! `memset` and `memcpy`, byte by byte and upwards. -/
namespace AstralOS.Lib
open Foundation

def memset (c : Byte) : Nat → Addr → Memory → Memory
  | 0, _, m => m
  | n + 1, p, m => memset c n (p + 1#64) (Function.update m p c)

def memcpy : Nat → Addr → Addr → Memory → Memory
  | 0, _, _, m => m
  | n + 1, d, s, m => memcpy n (d + 1#64) (s + 1#64) (Function.update m d (m s))

variable {m : Memory} {p d s x : Addr} {n : Nat} {c : Byte}

theorem toNat_succ (room : p.toNat + 1 < 2 ^ 64) : (p + 1#64).toNat = p.toNat + 1 := toNat_add_ofNat room

theorem memset_outside (fits : p.toNat + n ≤ 2 ^ 64) (out : x.toNat < p.toNat ∨ p.toNat + n ≤ x.toNat) :
    memset c n p m x = m x := by
  induction n generalizing p m with
  | zero => rfl
  | succ n ih =>
      have apart : x ≠ p := by
        rintro rfl
        omega
      rw [memset]
      by_cases last : n = 0
      · rw [last, memset, Function.update_of_ne apart]
      · have next := toNat_succ (p := p) (by omega)
        rw [ih (by omega) (by omega), Function.update_of_ne apart]

theorem memset_inside (fits : p.toNat + n ≤ 2 ^ 64) (low : p.toNat ≤ x.toNat) (high : x.toNat < p.toNat + n) :
    memset c n p m x = c := by
  induction n generalizing p m with
  | zero => omega
  | succ n ih =>
      rw [memset]
      by_cases last : n = 0
      · have here : x = p := BitVec.eq_of_toNat_eq (by omega)
        rw [last, memset, here, Function.update_self]
      · have next := toNat_succ (p := p) (by omega)
        by_cases here : x = p
        · subst here
          rw [memset_outside (by omega) (by omega), Function.update_self]
        · have apart : x.toNat ≠ p.toNat := fun same => here (BitVec.eq_of_toNat_eq same)
          exact ih (by omega) (by omega) (by omega)

theorem memcpy_outside (fits : d.toNat + n ≤ 2 ^ 64) (out : x.toNat < d.toNat ∨ d.toNat + n ≤ x.toNat) :
    memcpy n d s m x = m x := by
  induction n generalizing d s m with
  | zero => rfl
  | succ n ih =>
      have apart : x ≠ d := by
        rintro rfl
        omega
      rw [memcpy]
      by_cases last : n = 0
      · rw [last, memcpy, Function.update_of_ne apart]
      · have next := toNat_succ (p := d) (by omega)
        rw [ih (by omega) (by omega), Function.update_of_ne apart]

/-- A move downwards: what is read has not been written yet, overlapping or not. -/
theorem memcpy_down (below : d.toNat ≤ s.toNat) (fits : s.toNat + n ≤ 2 ^ 64) (low : d.toNat ≤ x.toNat)
    (high : x.toNat < d.toNat + n) : memcpy n d s m x = m (s + (x - d)) := by
  induction n generalizing d s m with
  | zero => omega
  | succ n ih =>
      rw [memcpy]
      by_cases here : x = d
      · subst here
        rw [BitVec.sub_self, BitVec.add_zero]
        by_cases last : n = 0
        · rw [last, memcpy, Function.update_self]
        · have next := toNat_succ (p := x) (by omega)
          rw [memcpy_outside (by omega) (by omega), Function.update_self]
      · have apart : x.toNat ≠ d.toNat := fun same => here (BitVec.eq_of_toNat_eq same)
        have nextD := toNat_succ (p := d) (by omega)
        have nextS := toNat_succ (p := s) (by omega)
        have source : s + 1#64 + (x - (d + 1#64)) = s + (x - d) := by grind
        rw [ih (by omega) (by omega) (by omega) (by omega), source]
        refine Function.update_of_ne ?_ ..
        intro same
        have distance : (s + (x - d)).toNat = s.toNat + (x.toNat - d.toNat) := by
          rw [BitVec.toNat_add, BitVec.toNat_sub]
          omega
        rw [same] at distance
        omega

end AstralOS.Lib
