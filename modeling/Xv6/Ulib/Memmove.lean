import Xv6.Ulib.Strings

/-!
# The two `memmove`s

`memmove` of `kernel/string.c` and of `user/ulib.c`, on the bytes of a 64-bit address
space.  The kernel copies backwards if the destination starts inside the source, the
user library if it does not start before it; the kernel's length is unsigned, that of
the user library is an `int`.

* `forward`, `backward`: the two loops.
* `moved`: what a move leaves in memory, in terms of the memory before it.
* `forward_agrees`, `backward_agrees`: the loops are those on natural addresses.
* `forward_eq`, `backward_eq`: each loop moves, if the bytes it has stored are not
  those it has still to read.
* `memmove_exact`: so both functions move, for all parts that do not wrap.
-/

namespace Xv6.Memmove

open Xv6.Lib.Bytes

/-- The bytes of the address space. -/
abbrev Mem := BitVec 64 → UInt8

/-! ## The code -/

/-- `while(n-- > 0) *d++ = *s++;` for `n` rounds. -/
def forward (mem : Mem) (d s : BitVec 64) : Nat → Mem
  | 0 => mem
  | n + 1 => forward (Function.update mem d (mem s)) (d + 1) (s + 1) n

/-- `while(n-- > 0) *--d = *--s;` for `n` rounds. -/
def backward (mem : Mem) (d s : BitVec 64) : Nat → Mem
  | 0 => mem
  | n + 1 => backward (Function.update mem (d - 1) (mem (s - 1))) (d - 1) (s - 1) n

/-- `memmove` of `kernel/string.c`, with `uint n`. -/
def Kernel.memmove (mem : Mem) (dst src : BitVec 64) (n : BitVec 32) : Mem :=
  if n = 0 then mem
  else if src < dst ∧ dst < src + n.zeroExtend 64 then
    backward mem (dst + n.zeroExtend 64) (src + n.zeroExtend 64) n.toNat
  else forward mem dst src n.toNat

/-- `memmove` of `user/ulib.c`, with `int n`; no round is made for a negative `n`. -/
def User.memmove (mem : Mem) (dst src : BitVec 64) (n : BitVec 32) : Mem :=
  if dst < src then forward mem dst src n.toInt.toNat
  else backward mem (dst + n.signExtend 64) (src + n.signExtend 64) n.toInt.toNat

/-! ## What a move does -/

/-- The memory `mem` with its `n` bytes at `src` moved to `dst`. -/
def moved (mem : Mem) (dst src : BitVec 64) (n : Nat) : Mem := fun a =>
  if dst.toNat ≤ a.toNat ∧ a.toNat < dst.toNat + n then mem (src + (a - dst)) else mem a

theorem moved_zero (mem : Mem) (d s : BitVec 64) : moved mem d s 0 = mem := by
  funext a
  exact if_neg (by omega)

/-! ## Natural addresses -/

/-- The two memories have the same bytes. -/
def Agrees (mem : Mem) (nat : Nat → UInt8) : Prop := ∀ a : BitVec 64, mem a = nat a.toNat

theorem agrees_ofNat (mem : Mem) : Agrees mem fun a => mem (BitVec.ofNat 64 a) := by
  intro a
  show mem a = mem (BitVec.ofNat 64 a.toNat)
  rw [BitVec.ofNat_toNat, BitVec.setWidth_eq]

section Agrees

variable {mem : Mem} {nat : Nat → UInt8} {d s : Nat}

theorem Agrees.read (h : Agrees mem nat) (hs : s < 2 ^ 64) : mem (BitVec.ofNat 64 s) = nat s := by
  rw [h, BitVec.toNat_ofNat, Nat.mod_eq_of_lt hs]

theorem Agrees.update (h : Agrees mem nat) (hd : d < 2 ^ 64) (b : UInt8) :
    Agrees (Function.update mem (BitVec.ofNat 64 d) b) (Function.update nat d b) := by
  intro a
  have heq : a = BitVec.ofNat 64 d ↔ a.toNat = d := by
    rw [← BitVec.toNat_inj, BitVec.toNat_ofNat, Nat.mod_eq_of_lt hd]
  rw [Function.update_apply, Function.update_apply]
  by_cases ha : a.toNat = d
  · rw [if_pos ha, if_pos (heq.mpr ha)]
  · rw [if_neg ha, if_neg fun hd => ha (heq.mp hd), h]

theorem forward_agrees (n : Nat) : ∀ {mem : Mem} {nat : Nat → UInt8} {d s : Nat}, Agrees mem nat →
    d + n ≤ 2 ^ 64 → s + n ≤ 2 ^ 64 →
    Agrees (forward mem (BitVec.ofNat 64 d) (BitVec.ofNat 64 s) n) (Ulib.copyUp nat d s n) := by
  induction n with
  | zero =>
    intro mem nat d s h _ _
    exact h
  | succ n ih =>
    intro mem nat d s h hd hs
    have hnext : ∀ a, BitVec.ofNat 64 a + 1 = BitVec.ofNat 64 (a + 1) :=
      fun a => (BitVec.ofNat_add a 1).symm
    rw [forward, Ulib.copyUp, h.read (by omega), hnext, hnext]
    apply ih (h.update (by omega) _)
    · omega
    · omega

theorem backward_agrees (n : Nat) : ∀ {mem : Mem} {nat : Nat → UInt8}, Agrees mem nat →
    d + n ≤ 2 ^ 64 → s + n ≤ 2 ^ 64 →
    Agrees (backward mem (BitVec.ofNat 64 (d + n)) (BitVec.ofNat 64 (s + n)) n)
      (Ulib.copyDown nat d s n) := by
  induction n with
  | zero =>
    intro mem nat h _ _
    exact h
  | succ n ih =>
    intro mem nat h hd hs
    have hlast : ∀ a, BitVec.ofNat 64 (a + (n + 1)) - 1 = BitVec.ofNat 64 (a + n) := by
      intro a
      rw [← Nat.add_assoc, BitVec.ofNat_add]
      exact BitVec.add_sub_cancel _ _
    rw [backward, Ulib.copyDown, hlast, hlast, h.read (by omega)]
    apply ih (h.update (by omega) _)
    · omega
    · omega

end Agrees

/-- A move, in terms of natural addresses. -/
theorem moved_apply {mem : Mem} {nat : Nat → UInt8} (h : Agrees mem nat) {dst src : BitVec 64}
    {n : Nat} (hsrc : src.toNat + n ≤ 2 ^ 64) (a : BitVec 64) :
    moved mem dst src n a =
      copyBytes nat dst.toNat nat src.toNat n a.toNat := by
  unfold moved copyBytes
  split
  · next hin =>
    have haddr : (src + (a - dst)).toNat = src.toNat + (a.toNat - dst.toNat) := by
      rw [BitVec.toNat_add, BitVec.toNat_sub_of_le (BitVec.le_def.mpr hin.1)]
      apply Nat.mod_eq_of_lt
      omega
    rw [h, haddr]
  · exact h a

/-! ## Both functions move -/

section Exact

variable {mem : Mem} {dst src : BitVec 64} {n : Nat}

/-- The destination starts before the source, or behind its end. -/
theorem forward_eq (hdst : dst.toNat + n ≤ 2 ^ 64) (hsrc : src.toNat + n ≤ 2 ^ 64)
    (h : dst.toNat ≤ src.toNat ∨ src.toNat + n ≤ dst.toNat) :
    forward mem dst src n = moved mem dst src n := by
  funext a
  have hloop := forward_agrees n (agrees_ofNat mem) hdst hsrc a
  rw [BitVec.ofNat_toNat, BitVec.ofNat_toNat, BitVec.setWidth_eq, BitVec.setWidth_eq,
    Ulib.copyUp_eq n h] at hloop
  rw [hloop, moved_apply (agrees_ofNat mem) hsrc]

/-- The destination does not start before the source. -/
theorem backward_eq (hdst : dst.toNat + n ≤ 2 ^ 64) (hsrc : src.toNat + n ≤ 2 ^ 64)
    (h : src.toNat ≤ dst.toNat) :
    backward mem (dst + BitVec.ofNat 64 n) (src + BitVec.ofNat 64 n) n = moved mem dst src n := by
  funext a
  have hloop := backward_agrees n (agrees_ofNat mem) hdst hsrc a
  rw [BitVec.ofNat_add, BitVec.ofNat_add, BitVec.ofNat_toNat, BitVec.ofNat_toNat,
    BitVec.setWidth_eq, BitVec.setWidth_eq, Ulib.copyDown_eq h n] at hloop
  rw [hloop, moved_apply (agrees_ofNat mem) hsrc]

end Exact

theorem Kernel.memmove_eq (mem : Mem) {dst src : BitVec 64} {n : BitVec 32}
    (hdst : dst.toNat + n.toNat ≤ 2 ^ 64) (hsrc : src.toNat + n.toNat ≤ 2 ^ 64) :
    Kernel.memmove mem dst src n = moved mem dst src n.toNat := by
  have hext : n.zeroExtend 64 = BitVec.ofNat 64 n.toNat := (BitVec.ofNat_toNat 64 n).symm
  unfold Kernel.memmove
  split
  · next hzero =>
    rw [hzero]
    exact (moved_zero mem dst src).symm
  · next hne =>
    split
    · next hover =>
      rw [hext]
      exact backward_eq hdst hsrc (Nat.le_of_lt (BitVec.lt_def.mp hover.1))
    · next hapart =>
      apply forward_eq hdst hsrc
      by_contra hover
      have hlt : src.toNat < dst.toNat := by omega
      have hend : (src + n.zeroExtend 64).toNat = src.toNat + n.toNat := by
        rw [hext, BitVec.toNat_add, BitVec.toNat_ofNat,
          Nat.mod_eq_of_lt (show n.toNat < 2 ^ 64 by omega)]
        apply Nat.mod_eq_of_lt
        omega
      apply hapart
      rw [BitVec.lt_def, BitVec.lt_def, hend]
      omega

theorem User.memmove_eq (mem : Mem) {dst src : BitVec 64} {n : BitVec 32}
    (hdst : dst.toNat + n.toInt.toNat ≤ 2 ^ 64) (hsrc : src.toNat + n.toInt.toNat ≤ 2 ^ 64) :
    User.memmove mem dst src n = moved mem dst src n.toInt.toNat := by
  unfold User.memmove
  split
  · next hlt => exact forward_eq hdst hsrc (.inl (Nat.le_of_lt (BitVec.lt_def.mp hlt)))
  · next hge =>
    have hle : src.toNat ≤ dst.toNat := Nat.le_of_not_lt fun hlt => hge (BitVec.lt_def.mpr hlt)
    by_cases hneg : n.toInt < 0
    · -- no round is made
      have hzero : n.toInt.toNat = 0 := by omega
      rw [hzero, moved_zero]
      rfl
    · have hmsb : n.msb = false := by
        rw [BitVec.msb_eq_toInt]
        exact decide_eq_false hneg
      have hlen : n.toInt.toNat = n.toNat := by
        rw [BitVec.toInt_eq_toNat_of_msb hmsb, Int.toNat_natCast]
      have hext : n.signExtend 64 = BitVec.ofNat 64 n.toInt.toNat := by
        rw [hlen, BitVec.ofNat_toNat, BitVec.signExtend_eq_setWidth_of_msb_false hmsb]
      rw [hext]
      exact backward_eq hdst hsrc hle

/-- The `memmove` on natural addresses has the same effect. -/
theorem User.memmove_agrees {mem : Mem} {nat : Nat → UInt8} (h : Agrees mem nat)
    {dst src : BitVec 64} {n : BitVec 32} (hdst : dst.toNat + n.toInt.toNat ≤ 2 ^ 64)
    (hsrc : src.toNat + n.toInt.toNat ≤ 2 ^ 64) :
    Agrees (User.memmove mem dst src n) (Ulib.memmove nat dst.toNat src.toNat n.toInt.toNat) := by
  intro a
  rw [User.memmove_eq mem hdst hsrc, moved_apply h hsrc, Ulib.memmove_eq]

/-- For every memory and all parts that do not
wrap, the `memmove` of the kernel and that of the user library move the bytes of the
source, as they were, to the destination and leave every other byte alone; so they
agree on every length that an `int` holds. -/
theorem memmove_exact (mem : Mem) (dst src : BitVec 64) (n : BitVec 32)
    (hdst : dst.toNat + n.toNat ≤ 2 ^ 64) (hsrc : src.toNat + n.toNat ≤ 2 ^ 64) :
    Kernel.memmove mem dst src n = moved mem dst src n.toNat ∧
    User.memmove mem dst src n = moved mem dst src n.toInt.toNat ∧
    (0 ≤ n.toInt → User.memmove mem dst src n = Kernel.memmove mem dst src n) := by
  have hle : n.toInt.toNat ≤ n.toNat := by
    rw [BitVec.toInt_eq_toNat_cond]
    split <;> omega
  have hkernel := Kernel.memmove_eq mem hdst hsrc
  have huser : User.memmove mem dst src n = moved mem dst src n.toInt.toNat :=
    User.memmove_eq mem (by omega) (by omega)
  refine ⟨hkernel, huser, fun hnonneg => ?_⟩
  have hlen : n.toInt.toNat = n.toNat := by
    rw [BitVec.toInt_eq_toNat_cond] at hnonneg ⊢
    split at hnonneg <;> omega
  rw [hkernel, huser, hlen]

/-- A move by one byte to the right, over the source itself. -/
theorem memmove_exact_overlap :
    User.memmove (fun a => UInt8.ofNat a.toNat) 1 0 3 =
      Kernel.memmove (fun a => UInt8.ofNat a.toNat) 1 0 3 :=
  (memmove_exact _ 1 0 3 (by decide) (by decide)).2.2 (by decide)

end Xv6.Memmove
