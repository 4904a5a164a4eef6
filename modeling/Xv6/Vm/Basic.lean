import Mathlib.Logic.Function.Basic
import Mathlib.Data.Nat.Bitwise
import Xv6.Lib.Bytes
import Xv6.Lib.Wp

/-!
# Physical memory, page-table entries and the page allocator

Addresses are natural numbers; sums of 64-bit values that the code lets wrap
are reduced modulo `2 ^ 64`.

* The constants of `riscv.h` and `memlayout.h`, `PGROUNDUP`, `PGROUNDDOWN`.
* Page-table entries: `PA2PTE`, `PTE2PA`, the flag tests, and `mkPte`, the entry
  that `mappages` stores.
* `Phys`: memory by pages, the free list of `kalloc.c` and the kernel symbols
  `end` and `trampoline`.  Memory is a function from page addresses to pages;
  no access of the modelled code crosses a page border.  The free list is the
  list that runs through the first words of the free pages.
* `Panic`: the panics of the modelled functions.
* `kalloc`, `kfree` and the accesses to memory.  `kalloc` may fail at any time:
  `denied` says which of the coming calls fail although there is memory.
-/

namespace Xv6.Vm

open Xv6.Lib.Bytes Xv6.Lib.Wp
open Function (update update_of_ne update_self)

variable {i pa perm : Nat}

/-! ## Constants -/

/-- Bytes per page. -/
def PGSIZE : Nat := 4096

/-- One beyond the highest virtual address, `1L << (9 + 9 + 9 + 12 - 1)`. -/
def MAXVA : Nat := 2 ^ 38

def TRAMPOLINE : Nat := MAXVA - PGSIZE

def TRAPFRAME : Nat := TRAMPOLINE - PGSIZE

def KERNBASE : Nat := 0x80000000

def PHYSTOP : Nat := KERNBASE + 128 * 1024 * 1024

/-- User stack pages. -/
def USERSTACK : Nat := 1

/-- `PGROUNDUP(sz)` on a `uint64`. -/
def PGROUNDUP (sz : Nat) : Nat :=
  (sz + PGSIZE - 1) % 2 ^ 64 / PGSIZE * PGSIZE

/-- `PGROUNDDOWN(a)`. -/
def PGROUNDDOWN (a : Nat) : Nat :=
  a / PGSIZE * PGSIZE

/-- `PX(level, va)`: the page-table index of a level. -/
def PX (level va : Nat) : Nat :=
  va / 2 ^ (12 + 9 * level) % 512

/-! ## Page-table entries -/

def PTE_V : Nat := 1
def PTE_R : Nat := 2
def PTE_W : Nat := 4
def PTE_X : Nat := 8
def PTE_U : Nat := 16

def PA2PTE (pa : Nat) : Nat := pa / 4096 * 1024

def PTE2PA (pte : Nat) : Nat := pte / 1024 * 4096 % 2 ^ 64

def PTE_FLAGS (pte : Nat) : Nat := pte % 1024

/-- `*pte & PTE_V`. -/
def isValid (pte : Nat) : Bool := pte.testBit 0

/-- `*pte & PTE_W`. -/
def isWritable (pte : Nat) : Bool := pte.testBit 2

/-- `*pte & PTE_U`. -/
def isUser (pte : Nat) : Bool := pte.testBit 4

/-- `pte & (PTE_R|PTE_W|PTE_X)`: the entry maps a page and not a lower table. -/
def isLeaf (pte : Nat) : Bool := pte.testBit 1 || pte.testBit 2 || pte.testBit 3

/-- The entry that `mappages` stores. -/
def mkPte (pa perm : Nat) : Nat := PA2PTE pa ||| perm ||| PTE_V

/-- `*pte &= ~PTE_U`. -/
def clearUser (pte : Nat) : Nat := pte &&& (2 ^ 64 - 1 - PTE_U)

theorem or_valid_lt (h : perm < 1024) : perm ||| PTE_V < 1024 :=
  Nat.or_lt_two_pow (n := 10) h (by decide)

theorem mkPte_eq (pa : Nat) (h : perm < 1024) :
    mkPte pa perm = pa / 4096 * 1024 + (perm ||| PTE_V) := by
  have hor := Nat.two_pow_add_eq_or_of_lt (i := 10) (or_valid_lt h) (pa / 4096)
  rw [mkPte, PA2PTE, Nat.or_assoc, Nat.mul_comm _ 1024]
  exact hor.symm

theorem PTE2PA_mkPte (hpa : pa % 4096 = 0 ∧ pa < 2 ^ 64) (h : perm < 1024) :
    PTE2PA (mkPte pa perm) = pa := by
  have hlow := or_valid_lt h
  rw [PTE2PA, mkPte_eq pa h]
  omega

theorem testBit_mkPte (pa : Nat) (h : perm < 1024) (hi : i < 10) :
    (mkPte pa perm).testBit i = (perm.testBit i || decide (i = 0)) := by
  have hbit : (mkPte pa perm).testBit i = (perm ||| PTE_V).testBit i := by
    rw [mkPte_eq pa h, Nat.mul_comm, show 1024 = 2 ^ 10 from rfl,
      Nat.testBit_two_pow_mul_add _ (or_valid_lt h), if_pos hi]
  have hone : PTE_V.testBit i = decide (i = 0) := by
    rw [Bool.eq_iff_iff, decide_eq_true_iff]
    exact Nat.testBit_one_eq_true_iff_self_eq_zero
  rw [hbit, Nat.testBit_or, hone]

theorem isValid_mkPte (pa : Nat) (h : perm < 1024) : isValid (mkPte pa perm) = true := by
  simp [isValid, testBit_mkPte pa h]

theorem isUser_mkPte (pa : Nat) (h : perm < 1024) :
    isUser (mkPte pa perm) = isUser perm := by
  simp [isUser, testBit_mkPte pa h]

theorem isWritable_mkPte (pa : Nat) (h : perm < 1024) :
    isWritable (mkPte pa perm) = isWritable perm := by
  simp [isWritable, testBit_mkPte pa h]

theorem isLeaf_mkPte (pa : Nat) (h : perm < 1024) :
    isLeaf (mkPte pa perm) = isLeaf perm := by
  simp [isLeaf, testBit_mkPte pa h]

/-- The entry of a lower page table, `PA2PTE(pagetable) | PTE_V`. -/
def tablePte (pa : Nat) : Nat := PA2PTE pa ||| PTE_V

theorem tablePte_eq (pa : Nat) : tablePte pa = mkPte pa 0 := by
  rw [tablePte, mkPte, Nat.or_zero]

theorem mkPte_lt (hpa : pa < 2 ^ 64) (h : perm < 1024) :
    mkPte pa perm < 256 ^ 8 := by
  have hlow := or_valid_lt h
  rw [mkPte_eq pa h]
  omega

theorem tablePte_lt (hpa : pa < 2 ^ 64) : tablePte pa < 256 ^ 8 :=
  tablePte_eq pa ▸ mkPte_lt hpa (by decide)

@[simp] theorem not_isValid_zero : isValid 0 = false := by decide

theorem testBit_clearUser {pte : Nat} (hi : i < 64) :
    (clearUser pte).testBit i = (pte.testBit i && decide (i ≠ 4)) := by
  have hmask : (2 ^ 64 - 1 - PTE_U).testBit i = decide (i ≠ 4) := by
    have hsub := Nat.testBit_two_pow_sub_succ (n := 64) (x := 16) (by decide) i
    have hbit : Nat.testBit 16 i = decide (i = 4) := by
      rw [show (16 : Nat) = 2 ^ 4 from rfl, Nat.testBit_two_pow]
      exact decide_eq_decide.mpr eq_comm
    rw [show 2 ^ 64 - 1 - PTE_U = 2 ^ 64 - (16 + 1) from rfl, hsub, hbit]
    simp [hi]
  rw [clearUser, Nat.testBit_and, hmask]

theorem PTE2PA_clearUser {pte : Nat} (h : pte < 256 ^ 8) : PTE2PA (clearUser pte) = PTE2PA pte := by
  have hdiv : clearUser pte / 2 ^ 10 = pte / 2 ^ 10 := by
    refine Nat.eq_of_testBit_eq fun i => ?_
    rw [Nat.testBit_div_two_pow, Nat.testBit_div_two_pow]
    by_cases hi : i + 10 < 64
    · rw [testBit_clearUser hi, decide_eq_true (by omega), Bool.and_true]
    · have hle : 2 ^ 64 ≤ 2 ^ (i + 10) := Nat.pow_le_pow_right (by omega) (by omega)
      rw [clearUser, Nat.testBit_and, Nat.testBit_lt_two_pow (x := pte) (by omega), Bool.false_and]
  exact congrArg (· * 4096 % 2 ^ 64) hdiv

/-! ## Machine memory -/

/-- The panics of the modelled functions. -/
inductive Panic where
  /-- "walk" -/
  | walk
  /-- "mappages: va not aligned" -/
  | mappagesVa
  /-- "mappages: size not aligned" -/
  | mappagesSizeAligned
  /-- "mappages: size" -/
  | mappagesSize
  /-- "mappages: remap" -/
  | mappagesRemap
  /-- "uvmunmap: not aligned" -/
  | uvmunmap
  /-- "freewalk: leaf" -/
  | freewalkLeaf
  /-- "uvmclear" -/
  | uvmclear
  /-- "loadseg: address should exist" -/
  | loadseg
  /-- "kfree" -/
  | kfree
  /-- "kerneltrap": the kernel follows a null pointer. -/
  | kerneltrap
  /-- `freewalk` below the three levels of a page table: it would go on in
  memory that is no page table. -/
  | freewalkDepth
deriving DecidableEq, Repr

/-- Physical memory and the page allocator. -/
structure Phys where
  /-- The bytes of a page, by the address of the page. -/
  mem : Nat → Nat → UInt8
  freelist : List Nat
  /-- Which of the coming calls of `kalloc` fail, whatever the free list. -/
  denied : List Bool := []
  /-- The symbol `end`, the first address after the kernel. -/
  kend : Nat := KERNBASE
  /-- The symbol `trampoline`. -/
  trampoline : Nat := KERNBASE

/-- Kernel code. -/
abbrev Kern := Prog Panic Phys

/-- The `i`-th entry of the page table in page `pt`. -/
def getPte (mem : Nat → Nat → UInt8) (pt i : Nat) : Nat :=
  readLE 8 (mem pt) (8 * i)

def setPte (mem : Nat → Nat → UInt8) (pt i v : Nat) : Nat → Nat → UInt8 :=
  update mem pt (writeLE 8 (mem pt) (8 * i) v)

/-- `pagetable[i]`. -/
def readPte (pt i : Nat) : Kern Nat :=
  reads fun s => getPte s.mem pt i

/-- `pagetable[i] = v`. -/
def writePte (pt i v : Nat) : Kern Unit :=
  updates fun s => { s with mem := setPte s.mem pt i v }

/-- Replace the contents of the page `pa`. -/
def setPage (pa : Nat) (f : (Nat → UInt8) → Nat → UInt8) : Kern Unit :=
  updates fun s => { s with mem := update s.mem pa (f (s.mem pa)) }

/-- `memset(pa, c, PGSIZE)`. -/
def memset (pa : Nat) (c : UInt8) : Kern Unit :=
  setPage pa fun _ _ => c

/-- `memmove(dst, src, PGSIZE)`. -/
def copyPage (dst src : Nat) : Kern Unit :=
  updates fun s => { s with mem := update s.mem dst (s.mem src) }

/-- Allocate one page; 0 if there is none. -/
def kalloc : Kern Nat := fun s =>
  match s.denied, s.freelist with
  | true :: rest, _ => .ok (0, { s with denied := rest })
  | _ :: rest, [] => .ok (0, { s with denied := rest })
  | [], [] => .ok (0, s)
  | denied, r :: rs =>
    .ok (r, { s with
      mem := update s.mem r fun _ => 5, freelist := rs, denied := denied.tail })

/-- Free the page at `pa`. -/
def kfree (pa : Nat) : Kern Unit := do
  let kend ← reads Phys.kend
  if pa % PGSIZE ≠ 0 ∨ pa < kend ∨ PHYSTOP ≤ pa then throw .kfree
  else do
    memset pa 1
    updates fun s => { s with freelist := pa :: s.freelist }

/-- How many of the coming calls of `kalloc` succeed in a row. -/
def supplyOf : List Nat → List Bool → Nat
  | [], _ => 0
  | _ :: rs, [] => rs.length + 1
  | _ :: rs, b :: bs => if b then 0 else supplyOf rs bs + 1

def Phys.supply (s : Phys) : Nat :=
  supplyOf s.freelist s.denied

theorem getPte_lt (mem : Nat → Nat → UInt8) (pt i : Nat) : getPte mem pt i < 256 ^ 8 :=
  readLE_lt _ _ _

theorem getPte_setPte_self (mem : Nat → Nat → UInt8) (pt i : Nat) {v : Nat} (h : v < 256 ^ 8) :
    getPte (setPte mem pt i v) pt i = v := by
  rw [getPte, setPte, update_self, readLE_writeLE, Nat.mod_eq_of_lt h]

theorem getPte_setPte_of_ne (mem : Nat → Nat → UInt8) {pt pt' j : Nat} (v : Nat)
    (h : pt' ≠ pt ∨ j ≠ i) : getPte (setPte mem pt i v) pt' j = getPte mem pt' j := by
  by_cases hpt : pt' = pt
  · subst hpt
    have hji : j ≠ i := h.resolve_left fun hne => hne rfl
    rw [getPte, setPte, update_self, readLE_writeLE_of_disjoint _ _ (by omega), getPte]
  · rw [getPte, setPte, update_of_ne hpt, getPte]

theorem getPte_update_of_ne (mem : Nat → Nat → UInt8) {pt : Nat} (page : Nat → UInt8) (i : Nat)
    (h : pt ≠ pa) : getPte (update mem pa page) pt i = getPte mem pt i := by
  rw [getPte, update_of_ne h, getPte]

/-- A page of zeros has no entries. -/
theorem getPte_update_zero (mem : Nat → Nat → UInt8) (pa i : Nat) :
    getPte (update mem pa fun _ => 0) pa i = 0 := by
  rw [getPte, update_self, readLE_zero]

end Xv6.Vm
