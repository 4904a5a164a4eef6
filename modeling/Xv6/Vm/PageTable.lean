import Xv6.Vm.Basic

/-!
# Page tables and user memory

The functions of `vm.c`.  A page table is the address of its root page; a
pointer to an entry is the page that holds it with the index in that page.

* `walk`, `walkaddr`, `mappages`, `uvmcreate`, `uvmunmap`, `uvmalloc`,
  `uvmdealloc`, `freewalk`, `uvmfree`, `uvmcopy`, `uvmclear`.
* `UProc`: what these functions use of the calling process.
* `vmfault`, `copyout`, `copyin`: the copies that may fault in a lazily
  allocated page.

A loop `for (a = va; a < last; a += PGSIZE)` runs for the number of steps it
needs to reach `last`.  `a` does not wrap: `walk` panics at `MAXVA`.
-/

namespace Xv6.Vm

open Xv6.Lib.Bytes Xv6.Lib.Wp

/-! ## Entries -/

/-- The levels of `walk` from `level` down; the result points to the entry. -/
def walkFrom (va : Nat) (alloc : Bool) : Nat → Nat → Kern (Option (Nat × Nat))
  | 0, pagetable => pure (some (pagetable, PX 0 va))
  | level + 1, pagetable => do
    let pte ← readPte pagetable (PX (level + 1) va)
    if isValid pte then walkFrom va alloc level (PTE2PA pte)
    else if alloc then do
      let child ← kalloc
      if child = 0 then pure none
      else do
        memset child 0
        writePte pagetable (PX (level + 1) va) (tablePte child)
        walkFrom va alloc level child
    else pure none

/-- The entry of `va`; `alloc` creates the tables that are missing. -/
def walk (pagetable va : Nat) (alloc : Bool) : Kern (Option (Nat × Nat)) :=
  if MAXVA ≤ va then throw .walk else walkFrom va alloc 2 pagetable

/-- The physical address of the user page at `va`, or 0. -/
def walkaddr (pagetable va : Nat) : Kern Nat :=
  if MAXVA ≤ va then pure 0
  else do
    match ← walk pagetable va false with
    | none => pure 0
    | some (pt, i) => do
      let pte ← readPte pt i
      if isValid pte = false then pure 0
      else if isUser pte = false then pure 0
      else pure (PTE2PA pte)

/-- The body of `mappages` for one page; `some r` returns `r`. -/
def mapPage (pagetable a pa perm : Nat) : Kern (Option Int) := do
  match ← walk pagetable a true with
  | none => pure (some (-1))
  | some (pt, i) => do
    let pte ← readPte pt i
    if isValid pte then throw .mappagesRemap
    else do
      writePte pt i (mkPte pa perm)
      pure none

/-- Map `[va, va + size)` to the physical memory at `pa`. -/
def mappages (pagetable va size pa perm : Nat) : Kern Int :=
  if va % PGSIZE ≠ 0 then throw .mappagesVa
  else if size % PGSIZE ≠ 0 then throw .mappagesSizeAligned
  else if size = 0 then throw .mappagesSize
  else do
    let r ← untilSome (fun k => mapPage pagetable (va + k * PGSIZE) (pa + k * PGSIZE) perm)
      (size / PGSIZE)
    pure (r.getD 0)

/-- An empty user page table, or 0. -/
def uvmcreate : Kern Nat := do
  let pagetable ← kalloc
  if pagetable = 0 then pure 0
  else do
    memset pagetable 0
    pure pagetable

/-! ## Unmapping -/

/-- The body of `uvmunmap` for one page. -/
def unmapPage (pagetable a : Nat) (doFree : Bool) : Kern Unit := do
  match ← walk pagetable a false with
  | none => pure ()
  | some (pt, i) => do
    let pte ← readPte pt i
    if isValid pte = false then pure ()
    else do
      if doFree then kfree (PTE2PA pte) else pure ()
      writePte pt i 0

/-- Remove the mappings of `npages` pages from `va`. -/
def uvmunmap (pagetable va npages : Nat) (doFree : Bool) : Kern Unit :=
  if va % PGSIZE ≠ 0 then throw .uvmunmap
  else
    let last := (va + npages * PGSIZE) % 2 ^ 64
    forRange (fun k => unmapPage pagetable (va + k * PGSIZE) doFree)
      ((last - va + PGSIZE - 1) / PGSIZE)

/-- A number of pages stored in an `int` and passed on as a `uint64`. -/
def intPages (n : Nat) : Nat :=
  ((BitVec.ofNat 32 n).signExtend 64).toNat

/-- Shrink from `oldsz` to `newsz`; the result is the new size. -/
def uvmdealloc (pagetable oldsz newsz : Nat) : Kern Nat :=
  if oldsz ≤ newsz then pure oldsz
  else do
    if PGROUNDUP newsz < PGROUNDUP oldsz then
      let npages := intPages ((PGROUNDUP oldsz - PGROUNDUP newsz) / PGSIZE)
      uvmunmap pagetable (PGROUNDUP newsz) npages true
    else pure ()
    pure newsz

/-- Free page-table pages, `depth` levels of them. -/
def freewalk : Nat → Nat → Kern Unit
  | 0, _ => throw .freewalkDepth
  | depth + 1, pagetable => do
    forRange (fun i => do
      let pte ← readPte pagetable i
      if isValid pte ∧ isLeaf pte = false then do
        freewalk depth (PTE2PA pte)
        writePte pagetable i 0
      else if isValid pte then throw .freewalkLeaf
      else pure ()) 512
    kfree pagetable

/-- Free the user pages below `sz`, then the page table. -/
def uvmfree (pagetable sz : Nat) : Kern Unit := do
  if 0 < sz then uvmunmap pagetable 0 (PGROUNDUP sz / PGSIZE) true else pure ()
  freewalk 3 pagetable

/-! ## Growing and copying -/

/-- The body of `uvmalloc` for the page at `a`; `some r` returns `r`. -/
def allocPage (pagetable oldsz a xperm : Nat) : Kern (Option Nat) := do
  let mem ← kalloc
  if mem = 0 then do
    let _ ← uvmdealloc pagetable a oldsz
    pure (some 0)
  else do
    memset mem 0
    let r ← mappages pagetable a PGSIZE mem (PTE_R ||| PTE_U ||| xperm)
    if r ≠ 0 then do
      kfree mem
      let _ ← uvmdealloc pagetable a oldsz
      pure (some 0)
    else pure none

/-- Grow from `oldsz` to `newsz`; the result is the new size, or 0. -/
def uvmalloc (pagetable oldsz newsz xperm : Nat) : Kern Nat :=
  if newsz < oldsz then pure oldsz
  else do
    let oldsz := PGROUNDUP oldsz
    let r ← untilSome (fun k => allocPage pagetable oldsz (oldsz + k * PGSIZE) xperm)
      ((newsz - oldsz + PGSIZE - 1) / PGSIZE)
    pure (r.getD newsz)

/-- The body of `uvmcopy` for the page at `i`; `some r` returns `r`. -/
def copyUserPage (old new i : Nat) : Kern (Option Int) := do
  match ← walk old i false with
  | none => pure none
  | some (pt, j) => do
    let pte ← readPte pt j
    if isValid pte = false then pure none
    else do
      let mem ← kalloc
      if mem = 0 then do
        uvmunmap new 0 (i / PGSIZE) true
        pure (some (-1))
      else do
        copyPage mem (PTE2PA pte)
        let r ← mappages new i PGSIZE mem (PTE_FLAGS pte)
        if r ≠ 0 then do
          kfree mem
          uvmunmap new 0 (i / PGSIZE) true
          pure (some (-1))
        else pure none

/-- Copy the user memory of `old` into `new`, from `PGSIZE` up. -/
def uvmcopy (old new sz : Nat) : Kern Int := do
  let r ← untilSome (fun k => copyUserPage old new (PGSIZE + k * PGSIZE))
    ((sz - PGSIZE + PGSIZE - 1) / PGSIZE)
  pure (r.getD 0)

/-- Make the page at `va` inaccessible to the user. -/
def uvmclear (pagetable va : Nat) : Kern Unit := do
  match ← walk pagetable va false with
  | none => throw .uvmclear
  | some (pt, i) => do
    let pte ← readPte pt i
    writePte pt i (clearUser pte)

/-! ## Lazily allocated pages -/

/-- What the memory functions use of a process. -/
structure UProc where
  pagetable : Nat
  /-- The page of the trapframe. -/
  trapframe : Nat
  sz : Nat
  name : List UInt8 := []
deriving DecidableEq, Repr

/-- Whether `va` has a valid entry. -/
def ismapped (pagetable va : Nat) : Kern Bool := do
  match ← walk pagetable va false with
  | none => pure false
  | some (pt, i) => do
    let pte ← readPte pt i
    pure (isValid pte)

/-- Allocate the page at `va` of process `p`, if it is below `p->sz` and not yet
mapped in `pagetable`. -/
def vmfault (p : UProc) (pagetable va : Nat) : Kern Nat :=
  if va < PGSIZE then pure 0
  else if p.sz ≤ va then pure 0
  else do
    let va := PGROUNDDOWN va
    if ← ismapped pagetable va then pure 0
    else do
      let mem ← kalloc
      if mem = 0 then pure 0
      else do
        memset mem 0
        let r ← mappages p.pagetable va PGSIZE mem (PTE_W ||| PTE_U ||| PTE_R)
        if r ≠ 0 then do
          kfree mem
          pure 0
        else pure mem

/-- The user page at `va0`, faulted in if need be, or 0. -/
def userPage (p : UProc) (pagetable va0 : Nat) : Kern Nat := do
  let pa0 ← walkaddr pagetable va0
  if pa0 = 0 then vmfault p pagetable va0 else pure pa0

/-- `copyout` with at most `fuel` pages to go; every round copies a byte, so the
number of bytes is enough. -/
def copyoutLoop (p : UProc) (pagetable : Nat) : Nat → Nat → List UInt8 → Kern Int
  | 0, _, _ => pure 0
  | fuel + 1, dstva, src =>
    if src.length = 0 then pure 0
    else
      let va0 := PGROUNDDOWN dstva
      if MAXVA ≤ va0 then pure (-1)
      else do
        let pa0 ← userPage p pagetable va0
        if pa0 = 0 then pure (-1)
        else do
          match ← walk pagetable va0 false with
          | none => throw .kerneltrap
          | some (pt, i) => do
            let pte ← readPte pt i
            if isWritable pte = false then pure (-1)
            else do
              let n := min (PGSIZE - (dstva - va0)) src.length
              setPage pa0 fun page => copyBytes page (dstva - va0) (fun k => src.getD k 0) 0 n
              copyoutLoop p pagetable fuel ((va0 + PGSIZE) % 2 ^ 64) (src.drop n)

/-- Copy `src` from the kernel to the user address `dstva`. -/
def copyout (p : UProc) (pagetable dstva : Nat) (src : List UInt8) : Kern Int :=
  copyoutLoop p pagetable src.length dstva src

/-- `copyin` with at most `fuel` pages to go; `dst` is what was copied so far. -/
def copyinLoop (p : UProc) (pagetable : Nat) : Nat → Nat → Nat → List UInt8 →
    Kern (Int × List UInt8)
  | 0, _, _, dst => pure (0, dst)
  | fuel + 1, srcva, len, dst =>
    if len = 0 then pure (0, dst)
    else do
      let va0 := PGROUNDDOWN srcva
      let pa0 ← userPage p pagetable va0
      if pa0 = 0 then pure (-1, dst)
      else do
        let n := min (PGSIZE - (srcva - va0)) len
        let bytes ← reads fun s => (List.range n).map fun k => s.mem pa0 (srcva - va0 + k)
        copyinLoop p pagetable fuel ((va0 + PGSIZE) % 2 ^ 64) (len - n) (dst ++ bytes)

/-- Copy `len` bytes from the user address `srcva` to the kernel. -/
def copyin (p : UProc) (pagetable srcva len : Nat) : Kern (Int × List UInt8) :=
  copyinLoop p pagetable len srcva len []

end Xv6.Vm
