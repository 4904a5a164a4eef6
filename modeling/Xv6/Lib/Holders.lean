import Mathlib.Data.List.Nodup
import Mathlib.Logic.Function.Basic

/-!
# Things that are free or held

Holders `π` take things `ι` from a stock and give them back.  `free` marks the things in
the stock, and `held p` lists those of the holder `p`.

* `Holds`: every thing is in the stock or with exactly one holder.
* `Holds.take`, `Holds.give`: a holder takes a thing, or gives its first one back.
-/

namespace Xv6.Lib.Holders

open Function (update update_of_ne update_self)

variable {ι π : Type} {dom : ι → Prop} {free : ι → Bool} {held : π → List ι}

/-- The things of `dom` are free or with one holder. -/
structure Holds (dom : ι → Prop) (free : ι → Bool) (held : π → List ι) : Prop where
  nodup : ∀ p, (held p).Nodup
  mem_dom : ∀ p i, i ∈ held p → dom i
  unique : ∀ p q i, i ∈ held p → i ∈ held q → p = q
  free_iff : ∀ i, dom i → (free i = true ↔ ∀ p, i ∉ held p)

theorem Holds.not_free (h : Holds dom free held) {p : π} {i : ι} (hi : i ∈ held p) :
    free i = false := by
  apply Bool.eq_false_iff.mpr
  intro hfree
  exact (h.free_iff i (h.mem_dom p i hi)).mp hfree p hi

/-- A thing is free, or one holder has it. -/
theorem Holds.free_or_held (h : Holds dom free held) {i : ι} (hi : dom i) :
    (free i = true ∧ ∀ p, i ∉ held p) ∨ (free i = false ∧ ∃! p, i ∈ held p) := by
  by_cases hfree : free i = true
  · exact .inl ⟨hfree, (h.free_iff i hi).mp hfree⟩
  · have hheld := mt (h.free_iff i hi).mpr hfree
    simp only [not_forall, not_not] at hheld
    obtain ⟨p, hp⟩ := hheld
    exact .inr ⟨Bool.eq_false_iff.mpr hfree, p, hp, fun q hq => h.unique q p i hq hp⟩

theorem holds_nil (h : ∀ i, dom i → free i = true) : Holds dom free fun _ : π => [] where
  nodup _ := .nil
  mem_dom _ _ := nofun
  unique _ _ _ := nofun
  free_iff i hi := ⟨fun _ _ => List.not_mem_nil, fun _ => h i hi⟩

section Update

variable [DecidableEq ι] [DecidableEq π]

/-- A holder takes a free thing. -/
theorem Holds.take (h : Holds dom free held) {i : ι} (p : π) (hi : dom i) (hfree : free i = true) :
    Holds dom (update free i false) (update held p (held p ++ [i])) := by
  have hnone := (h.free_iff i hi).mp hfree
  have hmem : ∀ q j, j ∈ update held p (held p ++ [i]) q ↔ j ∈ held q ∨ q = p ∧ j = i := by
    intro q j
    rcases eq_or_ne q p with rfl | hne
    · simp
    · simp [hne]
  refine ⟨fun q => ?_, fun q j hj => ?_, fun q r j hq hr => ?_, fun j hj => ?_⟩
  · rcases eq_or_ne q p with rfl | hne
    · rw [update_self]
      exact (h.nodup q).append (List.nodup_singleton i) (by simpa using hnone q)
    · rw [update_of_ne hne]
      exact h.nodup q
  · rcases (hmem q j).mp hj with hj | ⟨-, rfl⟩
    · exact h.mem_dom q j hj
    · exact hi
  · rcases (hmem q j).mp hq with hq' | ⟨rfl, rfl⟩
    · rcases (hmem r j).mp hr with hr' | ⟨rfl, rfl⟩
      · exact h.unique q r j hq' hr'
      · exact absurd hq' (hnone q)
    · rcases (hmem r j).mp hr with hr' | ⟨rfl, -⟩
      · exact absurd hr' (hnone r)
      · rfl
  · rcases eq_or_ne j i with rfl | hne
    · rw [update_self]
      exact ⟨nofun, fun hall => absurd ((hmem p j).mpr (.inr ⟨rfl, rfl⟩)) (hall p)⟩
    · rw [update_of_ne hne, h.free_iff j hj]
      exact forall_congr' fun q => by simp [hmem, hne]

/-- A holder gives the first of its things back. -/
theorem Holds.give (h : Holds dom free held) {i : ι} {p : π} {rest : List ι}
    (hp : held p = i :: rest) :
    Holds dom (update free i true) (update held p rest) := by
  have hnodup : (i :: rest).Nodup := hp ▸ h.nodup p
  have hsub : ∀ q j, j ∈ update held p rest q → j ∈ held q := by
    intro q j hj
    rcases eq_or_ne q p with rfl | hne
    · rw [update_self] at hj
      rw [hp]
      exact .tail i hj
    · rwa [update_of_ne hne] at hj
  refine ⟨fun q => ?_, fun q j hj => h.mem_dom q j (hsub q j hj),
    fun q r j hq hr => h.unique q r j (hsub q j hq) (hsub r j hr), fun j hj => ?_⟩
  · rcases eq_or_ne q p with rfl | hne
    · rw [update_self]
      exact hnodup.of_cons
    · rw [update_of_ne hne]
      exact h.nodup q
  · rcases eq_or_ne j i with rfl | hne
    · rw [update_self]
      refine iff_of_true rfl fun q hq => ?_
      have hqp : q = p := h.unique q p j (hsub q j hq) (by rw [hp]; exact .head _)
      rw [hqp, update_self] at hq
      exact (List.nodup_cons.mp hnodup).1 hq
    · rw [update_of_ne hne, h.free_iff j hj]
      refine forall_congr' fun q => not_congr ?_
      rcases eq_or_ne q p with rfl | hqp
      · rw [update_self, hp, List.mem_cons]
        exact ⟨fun hj => hj.resolve_left hne, .inr⟩
      · rw [update_of_ne hqp]

end Update

end Xv6.Lib.Holders
