import Mathlib.Data.Nat.Digits.Lemmas

/-!
# Printing numbers

`printint` of `kernel/printf.c` and of `user/printf.c`.  Both collect the digits of a
number from the last one on in `char buf[20]` and print them backwards.

* `bufPut`, `digitLoop`: a store to the buffer, which fails behind its end, and the
  loop that collects the digits.
* `Kernel.printint`, `User.printint`: the two functions, with the characters they
  print.
* `numeral`: the digits of a number, from the last one on; `digitLoop_eq` says that
  the loop collects them if they fit.
* `Canonical`: what the numeral of an integer looks like.
* `printint_exact`: both functions print it and stay inside the buffer.
-/

namespace Xv6.Printf

/-! ## The code -/

/-- The characters of a string. -/
def chars (s : String) : List UInt8 := s.toList.map fun c => UInt8.ofNat c.toNat

/-- `buf[i++] = c` on the first `i` bytes of `char buf[20]`. -/
def bufPut (buf : List UInt8) (c : UInt8) : Option (List UInt8) :=
  if buf.length < 20 then some (buf ++ [c]) else none

/-- `do { buf[i++] = digits[x % base]; } while((x /= base) != 0);` with at most `fuel`
rounds.  The buffer is full before the fuel of `printint` is used up. -/
def digitLoop (digits : List UInt8) (base : BitVec 64) :
    Nat → BitVec 64 → List UInt8 → Option (List UInt8)
  | 0, _, _ => none
  | fuel + 1, x, buf => do
    let buf ← bufPut buf (digits.getD (x % base).toNat 0)
    let x := x / base
    if x ≠ 0 then digitLoop digits base fuel x buf else some buf

/-- `if(neg) buf[i++] = '-';` -/
def putSign (neg : Bool) (buf : List UInt8) : Option (List UInt8) :=
  if neg then bufPut buf (UInt8.ofNat '-'.toNat) else some buf

namespace Kernel

def digits : List UInt8 := chars "0123456789abcdef"

/-- The characters that `printint` sends to the console. -/
def printint (xx : BitVec 64) (base sign : BitVec 32) : Option (List UInt8) := do
  -- sign && (sign = (xx < 0))
  let sign : BitVec 32 := if sign ≠ 0 then (if xx.slt 0 then 1 else 0) else sign
  let x := if sign ≠ 0 then -xx else xx
  let buf ← digitLoop digits (base.signExtend 64) 21 x []
  let buf ← putSign (sign ≠ 0) buf
  some buf.reverse

end Kernel

namespace User

def digits : List UInt8 := chars "0123456789ABCDEF"

/-- The characters that `printint` writes, each with its descriptor. -/
def printint (fd : BitVec 32) (xx : BitVec 64) (base sgn : BitVec 32) :
    Option (List (BitVec 32 × UInt8)) := do
  let neg : Bool := decide (sgn ≠ 0) && xx.slt 0
  let x := if neg then -xx else xx
  let buf ← digitLoop digits (base.signExtend 64) 21 x []
  let buf ← putSign neg buf
  some (buf.reverse.map fun c => (fd, c))

end User

/-! ## The digits of a number -/

/-- The digits of `n`, from the last one on; that of 0 is `[0]`. -/
def numeral (base n : Nat) : List Nat :=
  if n = 0 then [0] else Nat.digits base n

section Numeral

variable {base n : Nat}

theorem numeral_of_lt (h : n < base) : numeral base n = [n] := by
  unfold numeral
  split
  · next hzero => rw [hzero]
  · next hne => rw [Nat.digits_of_lt base n hne h]

theorem numeral_of_div_ne_zero (hbase : 1 < base) (h : n / base ≠ 0) :
    numeral base n = n % base :: numeral base (n / base) := by
  have hpos : 0 < n := Nat.pos_of_ne_zero fun hzero => h (by rw [hzero, Nat.zero_div])
  rw [numeral, if_neg (Nat.ne_of_gt hpos), numeral, if_neg h, Nat.digits_def' hbase hpos]

theorem length_numeral_le {k : Nat} (hbase : 1 < base) (hk : 0 < k) (h : n < base ^ k) :
    (numeral base n).length ≤ k := by
  unfold numeral
  split
  · exact hk
  · exact (Nat.digits_length_le_iff hbase n).mpr h

theorem numeral_lt (hbase : 1 < base) {d : Nat} (hd : d ∈ numeral base n) : d < base := by
  unfold numeral at hd
  split at hd
  · rw [List.mem_singleton.mp hd]
    exact Nat.lt_trans Nat.zero_lt_one hbase
  · exact Nat.digits_lt_base hbase hd

theorem ofDigits_numeral : Nat.ofDigits base (numeral base n) = n := by
  unfold numeral
  split
  · next hzero => rw [hzero, Nat.ofDigits_singleton]
  · exact Nat.ofDigits_digits base n

theorem numeral_ne_nil : numeral base n ≠ [] := by
  unfold numeral
  split
  · exact List.cons_ne_nil 0 []
  · next hne => exact Nat.digits_ne_nil_iff_ne_zero.mpr hne

/-- The first digit is 0 only in the numeral of 0. -/
theorem numeral_eq_of_head? (h : (numeral base n).reverse.head? = some 0) :
    numeral base n = [0] := by
  unfold numeral at h ⊢
  split
  · rfl
  · next hne =>
    rw [if_neg hne, List.head?_reverse] at h
    have hnil : Nat.digits base n ≠ [] := Nat.digits_ne_nil_iff_ne_zero.mpr hne
    rw [List.getLast?_eq_some_getLast hnil, Option.some.injEq] at h
    exact absurd h (Nat.getLast_digit_ne_zero base hne)

end Numeral

/-- The loop collects the digits of `x` behind what is in the buffer, if they fit. -/
theorem digitLoop_eq (digits : List UInt8) {base : BitVec 64} (hbase : 1 < base.toNat)
    (fuel : Nat) :
    ∀ (x : BitVec 64) (buf : List UInt8), (numeral base.toNat x.toNat).length ≤ fuel →
      buf.length + (numeral base.toNat x.toNat).length ≤ 20 →
      digitLoop digits base fuel x buf =
        some (buf ++ (numeral base.toNat x.toNat).map fun d => digits.getD d 0) := by
  induction fuel with
  | zero =>
    intro x buf hfuel hroom
    exact absurd (List.length_eq_zero_iff.mp (Nat.le_zero.mp hfuel)) numeral_ne_nil
  | succ fuel ih =>
    intro x buf hfuel hroom
    have hpos : 0 < (numeral base.toNat x.toNat).length := List.length_pos_of_ne_nil numeral_ne_nil
    have hput : bufPut buf (digits.getD (x % base).toNat 0) =
        some (buf ++ [digits.getD (x.toNat % base.toNat) 0]) := by
      rw [bufPut, if_pos (by omega), BitVec.toNat_umod]
    rw [digitLoop, hput, Option.bind_eq_bind, Option.bind_some]
    have hdiv : (x / base).toNat = x.toNat / base.toNat := BitVec.toNat_udiv
    by_cases hend : x / base = 0
    · have hlt : x.toNat < base.toNat := by
        rw [hend] at hdiv
        have hzero : x.toNat / base.toNat = 0 := hdiv.symm
        exact (Nat.div_eq_zero_iff_lt (by omega)).mp hzero
      rw [if_neg (not_not.mpr hend), numeral_of_lt hlt, Nat.mod_eq_of_lt hlt]
      rfl
    · have hne : x.toNat / base.toNat ≠ 0 := by
        rw [← hdiv]
        exact fun hzero => hend (BitVec.eq_of_toNat_eq hzero)
      have hnum := numeral_of_div_ne_zero hbase hne
      rw [hnum, List.length_cons, ← hdiv] at hfuel hroom
      have hroom' : (buf ++ [digits.getD (x.toNat % base.toNat) 0]).length +
          (numeral base.toNat (x / base).toNat).length ≤ 20 := by
        rw [List.length_append, List.length_singleton]
        omega
      rw [if_pos hend, ih (x / base) _ (by omega) hroom', hnum, hdiv, List.map_cons,
        List.append_assoc]
      rfl

/-! ## Canonical numerals -/

/-- `out` is the canonical numeral of `v`: a minus sign if `v` is negative, then the
digits of its absolute value without leading zeros. -/
def Canonical (digits : List UInt8) (base : Nat) (v : Int) (out : List UInt8) : Prop :=
  ∃ ds : List Nat, out = (if v < 0 then chars "-" else []) ++ ds.map (fun d => digits.getD d 0) ∧
    ds ≠ [] ∧ (∀ d ∈ ds, d < base) ∧ (ds.head? = some 0 → ds = [0]) ∧
    Nat.ofDigits base ds.reverse = v.natAbs

theorem canonical_numeral (digits : List UInt8) {base : Nat} (hbase : 1 < base) (v : Int) :
    Canonical digits base v ((if v < 0 then chars "-" else []) ++
      ((numeral base v.natAbs).map fun d => digits.getD d 0).reverse) := by
  refine ⟨(numeral base v.natAbs).reverse, ?_, ?_, fun d hd => ?_, fun hhead => ?_, ?_⟩
  · rw [List.map_reverse]
  · exact List.reverse_ne_nil_iff.mpr numeral_ne_nil
  · exact numeral_lt hbase (List.mem_reverse.mp hd)
  · rw [numeral_eq_of_head? hhead]
    rfl
  · rw [List.reverse_reverse]
    exact ofDigits_numeral

/-- The number that `printint` is to print. -/
def argument (xx : BitVec 64) (sign : BitVec 32) : Int :=
  if sign ≠ 0 then xx.toInt else xx.toNat

theorem argument_neg_iff (xx : BitVec 64) (sign : BitVec 32) :
    argument xx sign < 0 ↔ sign ≠ 0 ∧ xx.slt 0 = true := by
  unfold argument
  split
  · next hsign =>
    rw [BitVec.slt_iff_toInt_lt]
    exact (and_iff_right hsign).symm
  · next hsign =>
    have hnonneg : ¬ (xx.toNat : Int) < 0 := by omega
    exact iff_of_false hnonneg fun h => hsign h.1

/-- The word that the digits are taken from: the negation may wrap, and its unsigned
reading is still the absolute value. -/
theorem toNat_magnitude (xx : BitVec 64) (sign : BitVec 32) :
    (if argument xx sign < 0 then -xx else xx).toNat = (argument xx sign).natAbs := by
  have hlt := xx.isLt
  have hint := BitVec.toInt_eq_toNat_cond xx
  split
  · next hneg =>
    have hsigned : argument xx sign = xx.toInt := if_pos ((argument_neg_iff xx sign).mp hneg).1
    rw [hsigned] at hneg ⊢
    rw [BitVec.toNat_neg]
    split at hint <;> omega
  · next hpos =>
    unfold argument at hpos ⊢
    split at hpos
    · next hsign =>
      rw [if_pos hsign]
      split at hint <;> omega
    · next hsign =>
      rw [if_neg hsign, Int.natAbs_natCast]

theorem argument_bounds (xx : BitVec 64) (sign : BitVec 32) :
    (argument xx sign).natAbs < 2 ^ 64 ∧
    (argument xx sign < 0 → (argument xx sign).natAbs ≤ 2 ^ 63) := by
  have hlt := xx.isLt
  have hint := BitVec.toInt_eq_toNat_cond xx
  unfold argument
  split <;> split at hint <;> omega

/-- The digits of a 64-bit number fit the buffer, and those of a negative one leave
room for the sign. -/
theorem length_numeral_argument {base : Nat} (hbase : base = 10 ∨ base = 16) (xx : BitVec 64)
    (sign : BitVec 32) :
    (numeral base (argument xx sign).natAbs).length + (if argument xx sign < 0 then 1 else 0) ≤
      20 := by
  obtain ⟨hall, hneg⟩ := argument_bounds xx sign
  have hone : 1 < base := by omega
  split
  · next hlt =>
    have hfit : (argument xx sign).natAbs < base ^ 19 := by
      have hle := hneg hlt
      rcases hbase with rfl | rfl <;> norm_num <;> omega
    have := length_numeral_le hone (by decide) hfit
    omega
  · have hfit : (argument xx sign).natAbs < base ^ 20 := by
      rcases hbase with rfl | rfl <;> norm_num <;> omega
    exact length_numeral_le hone (by decide) hfit

/-- What both functions do once the sign is known. -/
theorem digits_and_sign (digits : List UInt8) {base : BitVec 32} (hbase : base = 10 ∨ base = 16)
    (xx : BitVec 64) (sign : BitVec 32) :
    ∃ buf, digitLoop digits (base.signExtend 64) 21 (if argument xx sign < 0 then -xx else xx) [] =
      some buf ∧
      ∃ buf', putSign (argument xx sign < 0) buf = some buf' ∧ buf'.length ≤ 20 ∧
        Canonical digits base.toNat (argument xx sign) buf'.reverse := by
  have hext : (base.signExtend 64).toNat = base.toNat := by
    rcases hbase with rfl | rfl <;> rfl
  have hnat : base.toNat = 10 ∨ base.toNat = 16 := by
    rcases hbase with rfl | rfl
    · exact .inl rfl
    · exact .inr rfl
  have hone : 1 < base.toNat := by omega
  have hroom := length_numeral_argument hnat xx sign
  have hcanonical := canonical_numeral digits hone (argument xx sign)
  have hloop := digitLoop_eq digits (hext ▸ hone) 21 (if argument xx sign < 0 then -xx else xx) []
  rw [toNat_magnitude, hext, List.length_nil, List.nil_append] at hloop
  refine ⟨_, hloop (by omega) (by omega), ?_⟩
  by_cases hneg : argument xx sign < 0
  · rw [if_pos hneg] at hroom hcanonical
    rw [putSign, if_pos (decide_eq_true hneg), bufPut, if_pos (by rw [List.length_map]; omega)]
    refine ⟨_, rfl, ?_, ?_⟩
    · rw [List.length_append, List.length_map]
      exact hroom
    · rw [List.reverse_append]
      exact hcanonical
  · rw [if_neg hneg] at hroom hcanonical
    rw [putSign, if_neg (by rw [decide_eq_true_iff]; exact hneg)]
    refine ⟨_, rfl, ?_, hcanonical⟩
    rw [List.length_map]
    exact hroom

/-- For every 64-bit value, base 10 or 16 and sign
flag, both functions stay inside `buf` and print the canonical numeral of the value,
read as signed if the flag is set and as unsigned otherwise. -/
theorem printint_exact (xx : BitVec 64) (base sign fd : BitVec 32) (hbase : base = 10 ∨ base = 16) :
    (∃ out, Kernel.printint xx base sign = some out ∧ out.length ≤ 20 ∧
      Canonical Kernel.digits base.toNat (argument xx sign) out) ∧
    ∃ out, User.printint fd xx base sign = some (out.map fun c => (fd, c)) ∧ out.length ≤ 20 ∧
      Canonical User.digits base.toNat (argument xx sign) out := by
  have hneg := argument_neg_iff xx sign
  constructor
  · have hsign : ((if sign ≠ 0 then (if xx.slt 0 then 1 else 0) else sign : BitVec 32) ≠ 0) ↔
        argument xx sign < 0 := by
      rw [hneg]
      by_cases hzero : sign = 0
      · rw [if_neg (not_not.mpr hzero)]
        exact iff_of_false (not_not.mpr hzero) fun h => h.1 hzero
      · rw [if_pos hzero, and_iff_right hzero]
        split
        · next hslt => exact iff_of_true (by decide) hslt
        · next hslt => exact iff_of_false (by decide) hslt
    obtain ⟨buf, hloop, buf', hput, hlen, hcanonical⟩ := digits_and_sign Kernel.digits hbase xx sign
    refine ⟨buf'.reverse, ?_, by rw [List.length_reverse]; exact hlen, hcanonical⟩
    rw [Kernel.printint]
    simp only [hsign, hloop, Option.bind_eq_bind, Option.bind_some, hput]
  · have hsign : (decide (sign ≠ 0) && xx.slt 0) = decide (argument xx sign < 0) := by
      rw [Bool.eq_iff_iff, decide_eq_true_iff, hneg, Bool.and_eq_true, decide_eq_true_iff]
    obtain ⟨buf, hloop, buf', hput, hlen, hcanonical⟩ := digits_and_sign User.digits hbase xx sign
    refine ⟨buf'.reverse, ?_, by rw [List.length_reverse]; exact hlen, hcanonical⟩
    rw [User.printint]
    simp only [hsign, decide_eq_true_iff, hloop, Option.bind_eq_bind, Option.bind_some, hput]

/-- The most negative number fills the buffer. -/
theorem printint_exact_minimum :
    (∃ out, Kernel.printint (BitVec.ofNat 64 (2 ^ 63)) 10 1 = some out ∧ out.length ≤ 20 ∧
      Canonical Kernel.digits 10 (argument (BitVec.ofNat 64 (2 ^ 63)) 1) out) ∧
    argument (BitVec.ofNat 64 (2 ^ 63)) 1 = -2 ^ 63 :=
  ⟨(printint_exact _ 10 1 1 (.inl rfl)).1, by decide⟩

end Xv6.Printf
