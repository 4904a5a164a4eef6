import Mathlib.Tactic.Ring

/-!
# Little-endian words in byte-addressed storage

A storage is a function from addresses to bytes.  The file gives

* `readLE`, `writeLE`: load and store an `n`-byte little-endian word;
* `writeWords`: store an array of words;
* `copyBytes`: the effect of a `memmove` between two storages;
* the get/put lemmas: a load after a store of the same word
  (`readLE_writeLE`), of a disjoint word (`readLE_writeLE_of_disjoint`), and
  that a load depends only on its own bytes (`readLE_congr`).
-/

namespace Xv6.Lib.Bytes

variable {count k n off off' : Nat}

/-- The `n`-byte little-endian word at `off`. -/
def readLE : Nat → (Nat → UInt8) → Nat → Nat
  | 0, _, _ => 0
  | n + 1, mem, off => (mem off).toNat + 256 * readLE n mem (off + 1)

/-- Store `v` as the `n`-byte little-endian word at `off`. -/
def writeLE (n : Nat) (mem : Nat → UInt8) (off v : Nat) : Nat → UInt8 := fun a =>
  if off ≤ a ∧ a < off + n then UInt8.ofNat (v / 256 ^ (a - off)) else mem a

/-- Store the words `f 0`, …, `f (count - 1)`, of `n` bytes each, from `off` on. -/
def writeWords (n count : Nat) (f : Nat → Nat) (mem : Nat → UInt8) (off : Nat) :
    Nat → UInt8 := fun a =>
  if off ≤ a ∧ a < off + n * count then
    UInt8.ofNat (f ((a - off) / n) / 256 ^ ((a - off) % n))
  else mem a

/-- The storage `dst` with `len` bytes of `src` from `soff` copied to `doff`. -/
def copyBytes (dst : Nat → UInt8) (doff : Nat) (src : Nat → UInt8) (soff len : Nat) :
    Nat → UInt8 := fun a =>
  if doff ≤ a ∧ a < doff + len then src (soff + (a - doff)) else dst a

theorem readLE_congr {m m' : Nat → UInt8}
    (h : ∀ a, off ≤ a → a < off + n → m a = m' a) : readLE n m off = readLE n m' off := by
  induction n generalizing off with
  | zero => rfl
  | succ n ih =>
    simp only [readLE]
    rw [h off (le_refl _) (by omega), ih fun a h₁ h₂ => h a (by omega) (by omega)]

theorem readLE_lt (n : Nat) (mem : Nat → UInt8) (off : Nat) : readLE n mem off < 256 ^ n := by
  induction n generalizing off with
  | zero => simp [readLE]
  | succ n ih =>
    have hbyte := (mem off).toNat_lt
    have htail := ih (off + 1)
    simp only [readLE, pow_succ]
    omega

theorem readLE_zero (n off : Nat) : readLE n (fun _ => 0) off = 0 := by
  induction n generalizing off with
  | zero => rfl
  | succ n ih => simp [readLE, ih]

/-- A word whose bytes are those of `v` is `v`, reduced to the width. -/
theorem readLE_eq_mod {v : Nat} {mem : Nat → UInt8}
    (h : ∀ i < n, mem (off + i) = UInt8.ofNat (v / 256 ^ i)) : readLE n mem off = v % 256 ^ n := by
  induction n generalizing off v with
  | zero => simp [readLE, Nat.mod_one]
  | succ n ih =>
    have hhead := h 0 (by omega)
    have htail : readLE n mem (off + 1) = v / 256 % 256 ^ n := by
      refine ih fun i hi => ?_
      rw [Nat.add_assoc, Nat.add_comm 1, h (i + 1) (by omega), Nat.div_div_eq_div_mul, pow_succ,
        Nat.mul_comm 256]
    rw [readLE, htail, show mem off = UInt8.ofNat v by simpa using hhead, pow_succ,
      Nat.mul_comm (256 ^ n), Nat.mod_mul]
    simp

@[simp] theorem readLE_writeLE (n : Nat) (mem : Nat → UInt8) (off v : Nat) :
    readLE n (writeLE n mem off v) off = v % 256 ^ n :=
  readLE_eq_mod fun i hi => by simp [writeLE, hi]

theorem readLE_writeLE_of_disjoint (mem : Nat → UInt8) (v : Nat)
    (h : off + n ≤ off' ∨ off' + k ≤ off) :
    readLE n (writeLE k mem off' v) off = readLE n mem off :=
  readLE_congr fun a h₁ h₂ => if_neg (by omega)

theorem writeLE_of_not_mem {a : Nat} (mem : Nat → UInt8) (v : Nat)
    (h : a < off' ∨ off' + k ≤ a) : writeLE k mem off' v a = mem a :=
  if_neg (by omega)

theorem readLE_writeWords (f : Nat → Nat) (mem : Nat → UInt8)
    (hk : k < count) :
    readLE n (writeWords n count f mem off) (off + n * k) = f k % 256 ^ n := by
  refine readLE_eq_mod fun i hi => ?_
  have hle : n * k + n ≤ n * count := by
    rw [← Nat.mul_succ]
    exact Nat.mul_le_mul_left n hk
  have hsub : off + n * k + i - off = i + n * k := by omega
  rw [writeWords, if_pos (by omega), hsub, Nat.add_mul_div_left _ _ (by omega),
    Nat.div_eq_of_lt hi, Nat.zero_add, Nat.add_mul_mod_self_left, Nat.mod_eq_of_lt hi]

theorem writeWords_of_not_mem {a : Nat} (f : Nat → Nat) (mem : Nat → UInt8)
    (h : a < off ∨ off + n * count ≤ a) : writeWords n count f mem off a = mem a :=
  if_neg (by omega)

theorem readLE_writeWords_of_disjoint (f : Nat → Nat) (mem : Nat → UInt8)
    (h : off + n ≤ off' ∨ off' + k * count ≤ off) :
    readLE n (writeWords k count f mem off') off = readLE n mem off :=
  readLE_congr fun a h₁ h₂ => if_neg (by omega)

/-- Two copies, one behind the other. -/
theorem copyBytes_append {dst f blk : Nat → UInt8} {doff tot o : Nat}
    (h : ∀ a, a < k → blk (o + a) = f (tot + a)) :
    copyBytes (copyBytes dst doff f 0 tot) (doff + tot) blk o k =
      copyBytes dst doff f 0 (tot + k) := by
  funext a
  simp only [copyBytes]
  by_cases hhigh : doff + tot ≤ a ∧ a < doff + tot + k
  · rw [if_pos hhigh, if_pos (by omega), h (a - (doff + tot)) (by omega)]
    congr 1
    omega
  · rw [if_neg hhigh]
    by_cases hlow : doff ≤ a ∧ a < doff + tot
    · rw [if_pos hlow, if_pos (by omega)]
    · rw [if_neg hlow, if_neg (by omega)]

end Xv6.Lib.Bytes
