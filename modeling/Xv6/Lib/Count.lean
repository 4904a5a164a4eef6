import Mathlib.Data.Int.CardIntervalMod
import Mathlib.Tactic.Ring

/-!
# Counting the visits of a window

Two facts about `Nat.count`.  A map that permutes `[0, n)` does not change how
often a predicate holds there (`count_comp_of_injOn`).  Among the numbers below
`n`, an interval of `t` residues modulo `r` is met between `t * (n / r)` and
`t * ⌈n / r⌉` times (`le_count_mod_interval`, `count_mod_interval_le`).
-/

namespace Xv6.Lib.Count

open Finset

/-- Precomposing with an injection of `[0, n)` into itself keeps the count. -/
theorem count_comp_of_injOn {n : ℕ} {f : ℕ → ℕ} (hmaps : ∀ i < n, f i < n)
    (hinj : ∀ i < n, ∀ j < n, f i = f j → i = j) (P : ℕ → Prop) [DecidablePred P] :
    Nat.count (fun i => P (f i)) n = Nat.count P n := by
  have hinj' : Set.InjOn f (range n) := by
    intro i hi j hj h
    exact hinj i (mem_range.mp hi) j (mem_range.mp hj) h
  have himage : (range n).image f = range n := by
    apply eq_of_subset_of_card_le
    · intro v hv
      obtain ⟨i, hi, rfl⟩ := mem_image.mp hv
      exact mem_range.mpr (hmaps i (mem_range.mp hi))
    · rw [card_image_of_injOn hinj']
  rw [Nat.count_eq_card_filter_range, Nat.count_eq_card_filter_range]
  conv_rhs => rw [← himage, filter_image]
  rw [card_image_of_injOn]
  intro i hi j hj h
  exact hinj' (mem_filter.mp hi).1 (mem_filter.mp hj).1 h

/-- One residue class is met `⌊n / r⌋` or `⌈n / r⌉` times below `n`. -/
theorem count_mod_eq_bounds {r : ℕ} (hr : 0 < r) (n : ℕ) {v : ℕ} (hv : v < r) :
    n / r ≤ Nat.count (fun x => x % r = v) n ∧
      Nat.count (fun x => x % r = v) n ≤ (n + r - 1) / r := by
  have hcount : Nat.count (fun x => x % r = v) n = Nat.count (· ≡ v [MOD r]) n := by
    congr 1
    funext x
    rw [Nat.ModEq, Nat.mod_eq_of_lt hv]
  rw [hcount, Nat.count_modEq_card n hr, Nat.mod_eq_of_lt hv]
  have hdiv := Nat.div_add_mod n r
  refine ⟨Nat.le_add_right _ _, ?_⟩
  rw [Nat.le_div_iff_mul_le hr]
  split
  · rename_i hlt
    have : (n / r + 1) * r = r * (n / r) + r := by ring
    omega
  · have : (n / r + 0) * r = r * (n / r) := by ring
    omega

theorem count_mod_interval_succ {r lo t : ℕ} (n : ℕ) :
    Nat.count (fun x => lo ≤ x % r ∧ x % r < lo + (t + 1)) n =
      Nat.count (fun x => lo ≤ x % r ∧ x % r < lo + t) n +
        Nat.count (fun x => x % r = lo + t) n := by
  induction n with
  | zero => simp
  | succ n ih =>
    rw [Nat.count_succ, Nat.count_succ, Nat.count_succ, ih]
    split_ifs <;> omega

/-- An interval of `t` residues is met at least `t * ⌊n / r⌋` times. -/
theorem le_count_mod_interval {r : ℕ} (hr : 0 < r) (n : ℕ) {lo t : ℕ}
    (hle : lo + t ≤ r) :
    t * (n / r) ≤ Nat.count (fun x => lo ≤ x % r ∧ x % r < lo + t) n := by
  induction t with
  | zero => simp
  | succ t ih =>
    rw [count_mod_interval_succ, Nat.succ_mul]
    exact Nat.add_le_add (ih (by omega)) (count_mod_eq_bounds hr n (by omega)).1

/-- An interval of `t` residues is met at most `t * ⌈n / r⌉` times. -/
theorem count_mod_interval_le {r : ℕ} (hr : 0 < r) (n : ℕ) {lo t : ℕ}
    (hle : lo + t ≤ r) :
    Nat.count (fun x => lo ≤ x % r ∧ x % r < lo + t) n ≤ t * ((n + r - 1) / r) := by
  induction t with
  | zero =>
    rw [Nat.zero_mul, Nat.le_zero, Nat.count_iff_forall_not]
    omega
  | succ t ih =>
    rw [count_mod_interval_succ, Nat.succ_mul]
    exact Nat.add_le_add (ih (by omega)) (count_mod_eq_bounds hr n (by omega)).2

end Xv6.Lib.Count
