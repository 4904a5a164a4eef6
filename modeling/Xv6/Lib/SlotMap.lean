import Mathlib.Logic.Function.Basic
import Mathlib.Tactic.Common

/-!
# Maps stored in a table of slots

A table has `m` slots; a slot is empty or holds a key and a value.  It represents a map
if no key is in two slots.

* `Represents`: the map of a table.
* `Represents.insert`: an empty slot, or the slot behind the last one, is filled.
* `Represents.remove`: a slot is emptied.
* `Represents.eq_none_iff`, `Represents.eq_some`: reading the map.
-/

namespace Xv6.Lib.SlotMap

open Function (update update_of_ne update_self)

variable {κ α : Type} {slots slots' : Nat → Option (κ × α)} {m : Nat} {map : κ → Option α}

/-- The first `m` slots hold the map. -/
structure Represents (slots : Nat → Option (κ × α)) (m : Nat) (map : κ → Option α) : Prop where
  distinct : ∀ k l x y, k < m → l < m → slots k = some x → slots l = some y → x.1 = y.1 → k = l
  maps : ∀ c v, map c = some v ↔ ∃ k, k < m ∧ slots k = some (c, v)

theorem represents_empty (slots : Nat → Option (κ × α)) : Represents slots 0 fun _ => none :=
  ⟨fun _ _ _ _ hk => absurd hk (Nat.not_lt_zero _), fun _ _ => iff_of_false nofun fun h => by
    obtain ⟨k, hk, -⟩ := h
    exact Nat.not_lt_zero k hk⟩

theorem Represents.congr (h : Represents slots m map) (hslots : ∀ k, k < m → slots' k = slots k) :
    Represents slots' m map := by
  refine ⟨fun k l x y hk hl hx hy heq => ?_, fun c v => ?_⟩
  · rw [hslots k hk] at hx
    rw [hslots l hl] at hy
    exact h.distinct k l x y hk hl hx hy heq
  · rw [h.maps]
    refine exists_congr fun k => and_congr_right fun hk => ?_
    rw [hslots k hk]

/-- A key that no slot holds has no value. -/
theorem Represents.eq_none_iff (h : Represents slots m map) {c : κ} :
    map c = none ↔ ∀ k v, k < m → slots k ≠ some (c, v) := by
  constructor
  · intro hnone k v hk hslot
    rw [(h.maps c v).mpr ⟨k, hk, hslot⟩] at hnone
    cases hnone
  · intro hno
    cases hmap : map c with
    | none => rfl
    | some v =>
      obtain ⟨k, hk, hslot⟩ := (h.maps c v).mp hmap
      exact absurd hslot (hno k v hk)

theorem Represents.eq_some (h : Represents slots m map) {k : Nat} {c : κ} {v : α} (hk : k < m)
    (hslot : slots k = some (c, v)) : map c = some v := (h.maps c v).mpr ⟨k, hk, hslot⟩

variable [DecidableEq κ]

/-- A slot that is empty, or new, takes a key that is not in the table. -/
theorem Represents.insert (h : Represents slots m map) {k : Nat} {c : κ} {v : α} (hk : k ≤ m)
    (hempty : k < m → slots k = none) (hfresh : map c = none) :
    Represents (update slots k (some (c, v))) (max m (k + 1))
      (update map c (some v)) := by
  have hold : ∀ l, l ≠ k → l < max m (k + 1) → l < m := fun l hne hl => by omega
  have hother : ∀ l x, l ≠ k → l < m → slots l = some x → x.1 ≠ c := by
    rintro l ⟨c', v'⟩ hne hl hslot rfl
    exact (h.eq_none_iff.mp hfresh) l v' hl hslot
  refine ⟨fun l l' x y hl hl' hx hy heq => ?_, fun c' v' => ?_⟩
  · rcases eq_or_ne l k with rfl | hne
    · rcases eq_or_ne l' l with rfl | hne'
      · rfl
      · rw [update_self, Option.some.injEq] at hx
        rw [update_of_ne hne'] at hy
        subst hx
        exact absurd heq.symm (hother l' y hne' (hold l' hne' hl') hy)
    · rw [update_of_ne hne] at hx
      rcases eq_or_ne l' k with rfl | hne'
      · rw [update_self, Option.some.injEq] at hy
        subst hy
        exact absurd heq (hother l x hne (hold l hne hl) hx)
      · rw [update_of_ne hne'] at hy
        exact h.distinct l l' x y (hold l hne hl) (hold l' hne' hl') hx hy heq
  · rcases eq_or_ne c' c with rfl | hne
    · rw [update_self]
      constructor
      · intro hv
        refine ⟨k, by omega, ?_⟩
        rw [update_self, Option.some.inj hv]
      · rintro ⟨l, hl, hslot⟩
        rcases eq_or_ne l k with rfl | hlk
        · rw [update_self, Option.some.injEq, Prod.mk.injEq] at hslot
          rw [hslot.2]
        · rw [update_of_ne hlk] at hslot
          exact absurd rfl (hother l _ hlk (hold l hlk hl) hslot)
    · rw [update_of_ne hne, h.maps]
      constructor
      · rintro ⟨l, hl, hslot⟩
        have hlk : l ≠ k := by
          rintro rfl
          rw [hempty hl] at hslot
          cases hslot
        refine ⟨l, by omega, ?_⟩
        rw [update_of_ne hlk]
        exact hslot
      · rintro ⟨l, hl, hslot⟩
        rcases eq_or_ne l k with rfl | hlk
        · rw [update_self, Option.some.injEq, Prod.mk.injEq] at hslot
          exact absurd hslot.1.symm hne
        · rw [update_of_ne hlk] at hslot
          exact ⟨l, hold l hlk hl, hslot⟩

/-- A slot is emptied. -/
theorem Represents.remove (h : Represents slots m map) {k : Nat} {c : κ} {v : α} (hk : k < m)
    (hslot : slots k = some (c, v)) :
    Represents (update slots k none) m (update map c none) := by
  refine ⟨fun l l' x y hl hl' hx hy heq => ?_, fun c' v' => ?_⟩
  · rcases eq_or_ne l k with rfl | hne
    · rw [update_self] at hx
      cases hx
    · rcases eq_or_ne l' k with rfl | hne'
      · rw [update_self] at hy
        cases hy
      · rw [update_of_ne hne] at hx
        rw [update_of_ne hne'] at hy
        exact h.distinct l l' x y hl hl' hx hy heq
  · rcases eq_or_ne c' c with rfl | hne
    · rw [update_self]
      refine iff_of_false nofun ?_
      rintro ⟨l, hl, hl'⟩
      rcases eq_or_ne l k with rfl | hlk
      · rw [update_self] at hl'
        cases hl'
      · rw [update_of_ne hlk] at hl'
        exact hlk (h.distinct l k _ _ hl hk hl' hslot rfl)
    · rw [update_of_ne hne, h.maps]
      refine exists_congr fun l => and_congr_right fun hl => ?_
      rcases eq_or_ne l k with rfl | hlk
      · rw [update_self, hslot, Option.some.injEq, Prod.mk.injEq]
        exact iff_of_false (fun heq => hne heq.1.symm) nofun
      · rw [update_of_ne hlk]

end Xv6.Lib.SlotMap
