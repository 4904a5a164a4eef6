import Mathlib.Logic.Function.Basic
import Xv6.Lib.Bytes

/-!
# Strings and copies of the user library

`strchr` and `memmove` of `user/ulib.c` on a memory of bytes.  An argument `fuel`
bounds the bytes that a string function looks at.

* `Holds`: the bytes of a list stand in memory.
* `cstring`: the string at an address, up to its NUL.
* `strchr_found`, `strchr_none`, `cstring_eq`: strings that are terminated.
* `memmove_eq`: `memmove` copies also when the two parts overlap.
-/

namespace Xv6.Ulib

open Xv6.Lib.Bytes

/-! ## The code -/

/-- The first place of `c` in the string at `s`. -/
def strchr (mem : Nat → UInt8) (c : UInt8) : Nat → Nat → Option Nat
  | 0, _ => none
  | fuel + 1, s =>
    if mem s = 0 then none
    else if mem s = c then some s
    else strchr mem c fuel (s + 1)

/-- `while(n-- > 0) *dst++ = *src++;` -/
def copyUp (mem : Nat → UInt8) (dst src : Nat) : Nat → (Nat → UInt8)
  | 0 => mem
  | n + 1 => copyUp (Function.update mem dst (mem src)) (dst + 1) (src + 1) n

/-- `dst += n; src += n; while(n-- > 0) *--dst = *--src;` -/
def copyDown (mem : Nat → UInt8) (dst src : Nat) : Nat → (Nat → UInt8)
  | 0 => mem
  | n + 1 => copyDown (Function.update mem (dst + n) (mem (src + n))) dst src n

def memmove (mem : Nat → UInt8) (dst src n : Nat) : Nat → UInt8 :=
  if src > dst then copyUp mem dst src n else copyDown mem dst src n

/-- The bytes of the string at `s`. -/
def cstring (mem : Nat → UInt8) : Nat → Nat → List UInt8
  | 0, _ => []
  | fuel + 1, s => if mem s = 0 then [] else mem s :: cstring mem fuel (s + 1)

/-! ## Bytes in memory -/

/-- The bytes of `l` stand in memory from `p` on. -/
def Holds (mem : Nat → UInt8) (p : Nat) (l : List UInt8) : Prop :=
  ∀ i (hi : i < l.length), mem (p + i) = l.get ⟨i, hi⟩

/-- The `n` bytes at `p`. -/
def slice (mem : Nat → UInt8) (p n : Nat) : List UInt8 := (List.range n).map fun i => mem (p + i)

section Memory

variable {mem mem' : Nat → UInt8} {p n : Nat} {c b : UInt8} {l k : List UInt8}

theorem holds_nil (mem : Nat → UInt8) (p : Nat) : Holds mem p [] := nofun

theorem holds_cons : Holds mem p (b :: l) ↔ mem p = b ∧ Holds mem (p + 1) l := by
  constructor
  · intro h
    refine ⟨h 0 (Nat.succ_pos _), fun i hi => ?_⟩
    rw [Nat.add_assoc, Nat.add_comm 1]
    exact h (i + 1) (Nat.succ_lt_succ hi)
  · rintro ⟨hb, hl⟩ i hi
    cases i with
    | zero => exact hb
    | succ i =>
      have hi' := hl i (Nat.lt_of_succ_lt_succ hi)
      rwa [Nat.add_assoc, Nat.add_comm 1] at hi'

theorem holds_append : Holds mem p (l ++ k) ↔ Holds mem p l ∧ Holds mem (p + l.length) k := by
  induction l generalizing p with
  | nil => simp [holds_nil]
  | cons b l ih =>
    rw [List.cons_append, holds_cons, holds_cons, ih, and_assoc, List.length_cons,
      show p + 1 + l.length = p + (l.length + 1) by omega]

/-- Memory that agrees where the bytes stand. -/
theorem Holds.congr (h : Holds mem p l) (heq : ∀ a, p ≤ a → a < p + l.length → mem' a = mem a) :
    Holds mem' p l := fun i hi => by
  rw [heq (p + i) (by omega) (by omega)]
  exact h i hi

theorem Holds.slice_eq (h : Holds mem p l) (hn : n = l.length) : slice mem p n = l := by
  subst hn
  refine List.ext_getElem (by simp [slice]) fun i h₁ h₂ => ?_
  simp only [slice, List.getElem_map, List.getElem_range]
  exact h i h₂

end Memory

/-! ## Strings -/

section Strings

variable {mem : Nat → UInt8} {c : UInt8} {l : List UInt8}

/-- The character stands behind a part of the string without it. -/
theorem strchr_found (hc : c ≠ 0) {fuel p : Nat} (hfuel : l.length < fuel)
    (h : Holds mem p (l ++ [c])) (hzero : 0 ∉ l) (hnone : c ∉ l) :
    strchr mem c fuel p = some (p + l.length) := by
  induction l generalizing fuel p with
  | nil =>
    obtain ⟨fuel, rfl⟩ : ∃ f, fuel = f + 1 := ⟨fuel - 1, by simp at hfuel; omega⟩
    obtain ⟨hp, -⟩ := holds_cons.mp h
    rw [strchr, hp, if_neg hc, if_pos rfl]
    rfl
  | cons b l ih =>
    obtain ⟨fuel, rfl⟩ : ∃ f, fuel = f + 1 := ⟨fuel - 1, by simp at hfuel; omega⟩
    obtain ⟨hp, hrest⟩ := holds_cons.mp h
    rw [List.mem_cons, not_or] at hzero hnone
    rw [strchr, hp, if_neg (Ne.symm hzero.1), if_neg (Ne.symm hnone.1),
      ih (Nat.lt_of_succ_lt_succ hfuel) hrest hzero.2 hnone.2, List.length_cons]
    congr 1
    omega

/-- The string ends before the character. -/
theorem strchr_none {fuel p : Nat} (h : Holds mem p (l ++ [0])) (hnone : c ∉ l) :
    strchr mem c fuel p = none := by
  induction l generalizing fuel p with
  | nil =>
    obtain ⟨hp, -⟩ := holds_cons.mp h
    cases fuel with
    | zero => rfl
    | succ fuel => rw [strchr, if_pos hp]
  | cons b l ih =>
    obtain ⟨hp, hrest⟩ := holds_cons.mp h
    rw [List.mem_cons, not_or] at hnone
    cases fuel with
    | zero => rfl
    | succ fuel =>
      rw [strchr, hp, if_neg (Ne.symm hnone.1), ih hrest hnone.2]
      exact ite_self _

theorem cstring_eq {fuel p : Nat} (hfuel : l.length ≤ fuel) (h : Holds mem p (l ++ [0]))
    (hzero : 0 ∉ l) :
    cstring mem fuel p = l := by
  induction l generalizing fuel p with
  | nil =>
    obtain ⟨hp, -⟩ := holds_cons.mp h
    cases fuel with
    | zero => rfl
    | succ fuel => rw [cstring, if_pos hp]
  | cons b l ih =>
    obtain ⟨hp, hrest⟩ := holds_cons.mp h
    rw [List.mem_cons, not_or] at hzero
    obtain ⟨fuel, rfl⟩ : ∃ f, fuel = f + 1 := ⟨fuel - 1, by simp at hfuel; omega⟩
    rw [cstring, hp, if_neg (Ne.symm hzero.1), ih (Nat.le_of_succ_le_succ hfuel) hrest hzero.2]

end Strings

/-! ## Copies -/

section Copies

variable {mem : Nat → UInt8} {dst src : Nat}

/-- The bytes are read before they are overwritten: the copy moves away from them, or never
reaches them. -/
theorem copyUp_eq (n : Nat) (h : dst ≤ src ∨ src + n ≤ dst) :
    copyUp mem dst src n = copyBytes mem dst mem src n := by
  induction n generalizing mem dst src with
  | zero =>
    funext a
    exact (if_neg (by omega)).symm
  | succ n ih =>
    rw [copyUp, ih (by omega)]
    funext a
    simp only [copyBytes, Function.update_apply]
    by_cases ha : a = dst
    · subst ha
      rw [if_neg (by omega), if_pos rfl, if_pos (by omega), Nat.sub_self, Nat.add_zero]
    · by_cases hin : dst ≤ a ∧ a < dst + (n + 1)
      · rw [if_pos (by omega), if_neg (by omega), if_pos hin]
        congr 1
        omega
      · rw [if_neg (by omega), if_neg ha, if_neg hin]

theorem copyDown_eq (h : src ≤ dst) (n : Nat) :
    copyDown mem dst src n = copyBytes mem dst mem src n := by
  induction n generalizing mem with
  | zero =>
    funext a
    exact (if_neg (by omega)).symm
  | succ n ih =>
    rw [copyDown, ih]
    funext a
    simp only [copyBytes, Function.update_apply]
    by_cases hin : dst ≤ a ∧ a < dst + n
    · rw [if_pos hin, if_neg (by omega), if_pos (by omega)]
    · rw [if_neg hin]
      by_cases ha : a = dst + n
      · subst ha
        rw [if_pos rfl, if_pos (by omega), Nat.add_sub_cancel_left]
      · rw [if_neg ha, if_neg (by omega)]

theorem memmove_eq (mem : Nat → UInt8) (dst src n : Nat) :
    memmove mem dst src n = copyBytes mem dst mem src n := by
  unfold memmove
  split
  · next h => exact copyUp_eq n (.inl (Nat.le_of_lt h))
  · next h => exact copyDown_eq (Nat.not_lt.mp h) n

end Copies

end Xv6.Ulib
