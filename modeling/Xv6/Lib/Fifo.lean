import Mathlib.Algebra.Ring.Nat
import Mathlib.Data.List.Basic
import Mathlib.Logic.Function.Basic

/-!
# Queues in a ring with free-running counters

A ring of `N` cells and two counters of `w` bits that are only ever incremented
and may wrap around.  The counters are reduced modulo `N` to index the ring.

* `cells`: the cells from a position on.  `cells_push` and `cells_pop` are the
  two operations of a queue, `cells_update` is the first half of a push, and
  `cells_add` and `drop_cells` cut a queue in two.
* `toNat_sub_push`, `toNat_sub_pop`: how the number of elements changes when a
  counter is incremented.
* `index_eq`: the writing counter indexes the cell after the last element.
-/

namespace Xv6.Lib.Fifo

variable {α : Type} {N count start : Nat} {buf : Nat → α}

/-- The `count` cells from the position `start` on, in order. -/
def cells (N : Nat) (buf : Nat → α) (start count : Nat) : List α :=
  (List.range count).map fun k => buf ((start + k) % N)

theorem length_cells : (cells N buf start count).length = count := by
  simp [cells]

theorem cells_pop :
    cells N buf start (count + 1) = buf (start % N) :: cells N buf (start + 1) count := by
  simp only [cells, List.range_succ_eq_map, List.map_cons, List.map_map, Nat.add_zero]
  refine congrArg _ (List.map_congr_left fun k _ => ?_)
  show buf ((start + (k + 1)) % N) = buf ((start + 1 + k) % N)
  rw [Nat.add_right_comm, Nat.add_assoc]

theorem cells_succ :
    cells N buf start (count + 1) = cells N buf start count ++ [buf ((start + count) % N)] := by
  rw [cells, List.range_succ, List.map_append, List.map_singleton]
  rfl

theorem cells_add (m : Nat) :
    cells N buf start (count + m) = cells N buf start count ++ cells N buf (start + count) m := by
  induction m with
  | zero => exact (List.append_nil _).symm
  | succ m ih => rw [← Nat.add_assoc, cells_succ, ih, cells_succ, List.append_assoc, Nat.add_assoc]

theorem drop_cells {k : Nat} (hk : k ≤ count) :
    (cells N buf start count).drop k = cells N buf (start + k) (count - k) := by
  conv_lhs => rw [← Nat.add_sub_cancel' hk, cells_add]
  exact List.drop_left' length_cells

/-- A store behind the last element changes no element. -/
theorem cells_update (hcount : count < N) (x : α) :
    cells N (Function.update buf ((start + count) % N) x) start count =
      cells N buf start count := by
  refine List.map_congr_left fun k hk => Function.update_of_ne ?_ _ _
  have hlt : k < count := List.mem_range.mp hk
  intro heq
  -- two positions of the ring that are less than `N` apart
  have hmod : (count - k) % N = 0 := by
    have hsub := Nat.sub_mod_eq_zero_of_mod_eq heq.symm
    rwa [Nat.add_sub_add_left] at hsub
  rw [Nat.mod_eq_of_lt (by omega)] at hmod
  omega

/-- A store behind the last element appends it. -/
theorem cells_push (hcount : count < N) (x : α) :
    cells N (Function.update buf ((start + count) % N) x) start (count + 1) =
      cells N buf start count ++ [x] := by
  rw [cells_succ, cells_update hcount, Function.update_self]

/-- Positions count modulo any multiple of the size of the ring. -/
theorem cells_mod {M : Nat} (hM : N ∣ M) :
    cells N buf (start % M) count = cells N buf start count := by
  refine List.map_congr_left fun k _ => ?_
  rw [Nat.add_mod, Nat.mod_mod_of_dvd _ hM, ← Nat.add_mod]

/-! ## Counters -/

section Counters

variable {w : Nat} {rd wr : BitVec w}

theorem toNat_one (h : 1 < 2 ^ w) : (1 : BitVec w).toNat = 1 := by
  rw [BitVec.ofNat_eq_ofNat, BitVec.toNat_ofNat, Nat.mod_eq_of_lt h]

theorem toNat_sub_push (h : (wr - rd).toNat + 1 < 2 ^ w) :
    (wr + 1 - rd).toNat = (wr - rd).toNat + 1 := by
  have hcomm : wr + 1 - rd = (wr - rd) + 1 := by
    rw [BitVec.sub_eq_add_neg, BitVec.sub_eq_add_neg, BitVec.add_assoc, BitVec.add_comm 1,
      ← BitVec.add_assoc]
  rw [hcomm, BitVec.toNat_add, toNat_one (by omega), Nat.mod_eq_of_lt h]

theorem toNat_sub_pop (h : rd ≠ wr) : (wr - (rd + 1)).toNat + 1 = (wr - rd).toNat := by
  have hpos : (wr - rd).toNat ≠ 0 := by
    intro hzero
    apply h
    have hsub : wr - rd = 0#w := BitVec.eq_of_toNat_eq (by simpa using hzero)
    calc rd = wr - rd + rd := by rw [hsub, BitVec.zero_add]
      _ = wr := BitVec.sub_add_cancel wr rd
  have hlt := (wr - rd).isLt
  have hone : (1 : BitVec w).toNat = 1 := toNat_one (by omega)
  have hcomm : wr - (rd + 1) = (wr - rd) - 1 := by
    rw [BitVec.sub_eq_add_neg wr, BitVec.neg_add, BitVec.sub_eq_add_neg (-rd), ← BitVec.add_assoc,
      ← BitVec.sub_eq_add_neg, ← BitVec.sub_eq_add_neg]
  rw [hcomm, BitVec.toNat_sub_of_le (BitVec.le_def.mpr (by rw [hone]; omega)), hone]
  omega

/-- The writing counter indexes the cell behind the last element. -/
theorem index_eq (hN : N ∣ 2 ^ w) : wr.toNat % N = (rd.toNat + (wr - rd).toNat) % N := by
  have hsum : rd + (wr - rd) = wr := by
    rw [BitVec.add_comm, BitVec.sub_add_cancel]
  rw [← Nat.mod_mod_of_dvd (rd.toNat + _) hN, ← BitVec.toNat_add, hsum]

/-- The position after the reading counter. -/
theorem cells_toNat_add_one (hN : N ∣ 2 ^ w) (hw : 0 < w) :
    cells N buf (rd + 1).toNat count = cells N buf (rd.toNat + 1) count := by
  have hone : (1 : BitVec w).toNat = 1 := by
    rw [BitVec.ofNat_eq_ofNat, BitVec.toNat_ofNat, Nat.mod_eq_of_lt]
    exact Nat.one_lt_two_pow (by omega)
  rw [BitVec.toNat_add, hone, cells_mod hN]

end Counters

end Xv6.Lib.Fifo
