import Xv6.Fs.Dir

/-!
# Names

What the string functions say about names of at most `DIRSIZ` characters.

* `key`: the characters of a string up to the first NUL, at most `n` of them.
* `strncmp_eq_zero`, `key_strncpy`: `strncmp` compares keys and `strncpy` copies them.
* `readDirent_direntBytes`: an entry is read back as it was written.
-/

namespace Xv6.Fs

open Xv6.Lib.Bytes
open Function (update_of_ne update_self)

/-- The characters of the string at `k`, at most `n`. -/
def key (s : Nat → UInt8) : Nat → Nat → List UInt8
  | 0, _ => []
  | n + 1, k => if s k = 0 then [] else s k :: key s n (k + 1)

/-- A name as directories tell names apart. -/
def keyOf (s : Nat → UInt8) : List UInt8 := key s DIRSIZ 0

section Keys

variable {s t p q : Nat → UInt8} {n k : Nat}

theorem strncmp_eq_zero : strncmp p q n k = 0 ↔ key p n k = key q n k := by
  induction n generalizing k with
  | zero => simp only [strncmp, key]
  | succ n ih =>
    simp only [strncmp, key]
    by_cases hsame : p k ≠ 0 ∧ p k = q k
    · obtain ⟨hne, heq⟩ := hsame
      rw [if_pos ⟨hne, heq⟩, if_neg hne, ← heq, if_neg hne, ih, List.cons.injEq]
      exact (and_iff_right rfl).symm
    · rw [if_neg hsame]
      by_cases heq : p k = q k
      · have hzero : p k = 0 := by
          by_contra hne
          exact hsame ⟨hne, heq⟩
        rw [← heq, if_pos hzero, if_pos hzero, Int.sub_self]
        exact iff_of_true rfl rfl
      · refine iff_of_false ?_ ?_
        · intro hdiff
          refine heq (UInt8.toNat_inj.mp ?_)
          omega
        · intro hkeys
          by_cases hp : p k = 0
          · rw [if_pos hp, if_neg fun hq => heq (hp.trans hq.symm)] at hkeys
            cases hkeys
          · by_cases hq : q k = 0
            · rw [if_neg hp, if_pos hq] at hkeys
              cases hkeys
            · rw [if_neg hp, if_neg hq, List.cons.injEq] at hkeys
              exact heq hkeys.1

theorem namecmp_eq_zero : namecmp s t = 0 ↔ keyOf s = keyOf t := strncmp_eq_zero

theorem strncpyPad_of_lt {a : Nat} (ha : a < k) : strncpyPad s n k a = s a := by
  induction n generalizing s k with
  | zero => rfl
  | succ n ih => rw [strncpyPad, ih (Nat.lt_succ_of_lt ha), update_of_ne (Nat.ne_of_lt ha)]

theorem strncpy_of_lt {a : Nat} (ha : a < k) : strncpy s t n k a = s a := by
  induction n generalizing s k with
  | zero => rfl
  | succ n ih =>
    rw [strncpy]
    split
    · rw [ih (Nat.lt_succ_of_lt ha), update_of_ne (Nat.ne_of_lt ha)]
    · rw [strncpyPad_of_lt (Nat.lt_succ_of_lt ha), update_of_ne (Nat.ne_of_lt ha)]

theorem key_strncpy : key (strncpy s t n k) n k = key t n k := by
  induction n generalizing s k with
  | zero => rfl
  | succ n ih =>
    have hself : strncpy s t (n + 1) k k = t k := by
      rw [strncpy]
      split
      · rw [strncpy_of_lt (Nat.lt_succ_self k), update_self]
      · rw [strncpyPad_of_lt (Nat.lt_succ_self k), update_self]
    rw [key, key, hself]
    split
    · rfl
    · next hne =>
      rw [strncpy, if_pos hne, ih]

/-- Nothing is copied behind the `n` characters. -/
theorem strncpy_of_ge {a : Nat} (ha : k + n ≤ a) : strncpy s t n k a = s a := by
  have hpad : ∀ m s k, k + m ≤ a → strncpyPad s m k a = s a := by
    intro m
    induction m with
    | zero => exact fun _ _ _ => rfl
    | succ m ih =>
      intro s k hle
      rw [strncpyPad, ih _ _ (by omega), update_of_ne (by omega)]
  induction n generalizing s k with
  | zero => rfl
  | succ n ih =>
    rw [strncpy]
    split
    · rw [ih (by omega), update_of_ne (by omega)]
    · rw [hpad n _ _ (by omega), update_of_ne (by omega)]

end Keys

/-! ## Entries -/

/-- An entry as it is stored: a number of 16 bits and `DIRSIZ` characters. -/
def Dirent.Stored (de : Dirent) : Prop := de.inum < 2 ^ 16 ∧ ∀ a, DIRSIZ ≤ a → de.name a = 0

theorem readDirent_direntBytes {de : Dirent} (h : de.Stored) :
    readDirent (direntBytes de) = de := by
  have hinum : readLE 2 (direntBytes de) 0 = de.inum := by
    have hcongr : readLE 2 (direntBytes de) 0 = readLE 2 (writeLE 2 (fun _ => 0) 0 de.inum) 0 :=
      readLE_congr fun a _ ha => if_pos (by omega)
    rw [hcongr, readLE_writeLE]
    exact Nat.mod_eq_of_lt h.1
  have hname : (fun a => direntBytes de (2 + a)) = de.name := by
    funext a
    rw [direntBytes, if_neg (by omega), Nat.add_sub_cancel_left]
  rw [readDirent, hinum, hname]

end Xv6.Fs
