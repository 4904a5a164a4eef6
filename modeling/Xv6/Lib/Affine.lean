import Mathlib.Data.ZMod.Basic
import Mathlib.Algebra.Ring.GeomSum
import Mathlib.RingTheory.Coprime.Lemmas
import Mathlib.Algebra.Ring.Parity
import Mathlib.Dynamics.PeriodicPts.Defs
import Mathlib.Tactic.Ring
import Mathlib.Tactic.LinearCombination

/-!
# Affine generators modulo a power of two

The map `x ↦ a * x + c` on `ZMod (2 ^ k)`, the step of a linear congruential
generator.  With `a % 4 = 1` and `c` odd the orbit of every point is the whole
ring, so `2 ^ k` consecutive values are each residue exactly once.

The argument is elementary.  `m` steps from `x` add `geom a m * ((a - 1) * x +
c)` to `x`, where `geom a m` is the sum of the first `m` powers of `a`.  The
second factor is odd, so the generator is back at `x` exactly when `2 ^ k`
divides `geom a m`, and `two_pow_dvd_geom_iff` says that this is when `2 ^ k`
divides `m`.
-/

namespace Xv6.Lib.Affine

open Finset

/-- The sum of the first `m` powers of `a`. -/
def geom (a : ℤ) (m : ℕ) : ℤ := ∑ i ∈ range m, a ^ i

theorem geom_succ (a : ℤ) (m : ℕ) : geom a (m + 1) = a * geom a m + 1 := by
  simp [geom, Finset.sum_range_succ', Finset.mul_sum, pow_succ, mul_comm]

theorem geom_double (a : ℤ) (m : ℕ) :
    geom a (2 * m) = geom a m * (1 + a ^ m) := by
  rw [two_mul, geom, Finset.sum_range_add]
  simp only [pow_add, ← Finset.mul_sum]
  rw [← geom]
  ring

/-- With `a` odd the sum has the parity of its length. -/
theorem two_dvd_geom_iff {a : ℤ} (ha : a % 2 = 1) (m : ℕ) :
    (2 : ℤ) ∣ geom a m ↔ 2 ∣ m := by
  have hmod : geom a m % 2 = m % 2 := by
    induction m with
    | zero => simp [geom]
    | succ m ih =>
      rw [geom_succ, Int.add_emod, Int.mul_emod, ha, ih]
      push_cast
      omega
  omega

theorem pow_emod_four {a : ℤ} (ha : a % 4 = 1) (m : ℕ) : a ^ m % 4 = 1 := by
  induction m with
  | zero => simp
  | succ m ih => rw [pow_succ, Int.mul_emod, ih, ha]; rfl

/-- The powers of two that divide the sum are those that divide its length. -/
theorem two_pow_dvd_geom_iff {a : ℤ} (ha : a % 4 = 1) (k m : ℕ) :
    (2 : ℤ) ^ k ∣ geom a m ↔ 2 ^ k ∣ m := by
  have hodd : a % 2 = 1 := by omega
  induction k generalizing m with
  | zero => simp
  | succ k ih =>
    rcases Nat.even_or_odd' m with ⟨t, rfl | rfl⟩
    · -- an even length halves, and `1 + a ^ t` is twice an odd number
      have h4 := pow_emod_four ha t
      obtain ⟨u, hu⟩ : ∃ u, 1 + a ^ t = 2 * (2 * u + 1) :=
        ⟨a ^ t / 4, by omega⟩
      have hcop : IsCoprime ((2 : ℤ) ^ k) (2 * u + 1) :=
        IsCoprime.pow_left ⟨-u, 1, by ring⟩
      rw [geom_double, hu, show geom a t * (2 * (2 * u + 1)) =
        2 * (geom a t * (2 * u + 1)) by ring, pow_succ', pow_succ',
        mul_dvd_mul_iff_left (by norm_num : (2 : ℤ) ≠ 0),
        Nat.mul_dvd_mul_iff_left (by norm_num : 0 < 2)]
      refine Iff.trans ?_ (ih t)
      exact ⟨hcop.dvd_of_dvd_mul_right, fun h => h.mul_right _⟩
    · have hleft : ¬ (2 : ℤ) ^ (k + 1) ∣ geom a (2 * t + 1) := by
        intro h
        have h2 := (dvd_pow_self (2 : ℤ) k.succ_ne_zero).trans h
        rw [two_dvd_geom_iff hodd] at h2
        omega
      have hright : ¬ 2 ^ (k + 1) ∣ 2 * t + 1 := by
        intro h
        have h2 := (dvd_pow_self 2 k.succ_ne_zero).trans h
        omega
      exact iff_of_false hleft hright

/-! ## Orbits -/

/-- One step of the generator. -/
def affine {k : ℕ} (a c : ℤ) (x : ZMod (2 ^ k)) : ZMod (2 ^ k) := a * x + c

theorem iterate_affine {k : ℕ} (a c : ℤ) (m : ℕ) (x : ZMod (2 ^ k)) :
    (affine a c)^[m] x = x + geom a m * ((a - 1) * x + c) := by
  induction m with
  | zero => simp [geom]
  | succ m ih =>
    rw [Function.iterate_succ_apply', ih, geom_succ, affine]
    push_cast
    ring

/-- A point of the orbit is met again after `m` steps exactly when `2 ^ k`
divides `m`. -/
theorem iterate_affine_eq_self_iff {k : ℕ} {a c : ℤ} (ha : a % 4 = 1)
    (hc : c % 2 = 1) (m : ℕ) (x : ZMod (2 ^ k)) :
    (affine a c)^[m] x = x ↔ 2 ^ k ∣ m := by
  obtain ⟨y, rfl⟩ := ZMod.intCast_surjective x
  have hcop : IsCoprime ((2 : ℤ) ^ k) ((a - 1) * y + c) := by
    refine IsCoprime.pow_left ⟨-((a - 1) / 2 * y + c / 2), 1, ?_⟩
    have h1 : a - 1 = 2 * ((a - 1) / 2) := by omega
    have h2 : c = 2 * (c / 2) + 1 := by omega
    linear_combination y * h1 + h2
  have hcast := ZMod.intCast_zmod_eq_zero_iff_dvd (geom a m * ((a - 1) * y + c)) (2 ^ k)
  push_cast at hcast
  rw [iterate_affine, add_eq_left, ← two_pow_dvd_geom_iff ha k m, hcast]
  exact ⟨hcop.dvd_of_dvd_mul_right, fun h => h.mul_right _⟩

/-- Two times below `2 ^ k` at which the generator has the same value are
equal. -/
theorem iterate_affine_injOn {k : ℕ} {a c : ℤ} (ha : a % 4 = 1)
    (hc : c % 2 = 1) (x : ZMod (2 ^ k)) {i j : ℕ} (hi : i < 2 ^ k)
    (hj : j < 2 ^ k) (h : (affine a c)^[i] x = (affine a c)^[j] x) : i = j := by
  wlog hij : i ≤ j generalizing i j
  · exact (this hj hi h.symm (by omega)).symm
  have hstep : (affine a c)^[j - i] ((affine a c)^[i] x) = (affine a c)^[i] x := by
    rw [← Function.iterate_add_apply, Nat.sub_add_cancel hij, h]
  rw [iterate_affine_eq_self_iff ha hc] at hstep
  have hzero := Nat.eq_zero_of_dvd_of_lt hstep (by omega)
  omega

end Xv6.Lib.Affine
