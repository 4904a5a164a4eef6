import Xv6.Vm.PageTable

/-!
# The memory of processes

What `proc.c` and `sysproc.c` do with the memory of a process: its page table,
its trapframe page and its size.

* `procPagetable`, `procFreepagetable`: page tables with the trampoline and the
  trapframe.
* `allocproc`, `freeproc`, `kfork`: the memory of a new process.
* `growproc`, `sysSbrk`: changing the size, eagerly or lazily.
-/

namespace Xv6.Vm

open Xv6.Lib.Bytes Xv6.Lib.Wp

/-- A page table with no user memory, but with the trampoline and the trapframe
of `p`; 0 if there is no memory. -/
def procPagetable (p : UProc) : Kern Nat := do
  let pagetable ← uvmcreate
  if pagetable = 0 then pure 0
  else do
    let trampoline ← reads Phys.trampoline
    let r ← mappages pagetable TRAMPOLINE PGSIZE trampoline (PTE_R ||| PTE_X)
    if r < 0 then do
      uvmfree pagetable 0
      pure 0
    else do
      let r ← mappages pagetable TRAPFRAME PGSIZE p.trapframe (PTE_R ||| PTE_W)
      if r < 0 then do
        uvmunmap pagetable TRAMPOLINE 1 false
        uvmfree pagetable 0
        pure 0
      else pure pagetable

/-- Free a page table and the user memory it refers to. -/
def procFreepagetable (pagetable sz : Nat) : Kern Unit := do
  uvmunmap pagetable TRAMPOLINE 1 false
  uvmunmap pagetable TRAPFRAME 1 false
  uvmfree pagetable sz

/-- Free the trapframe and the memory of a process. -/
def freeproc (p : UProc) : Kern Unit := do
  if p.trapframe ≠ 0 then kfree p.trapframe else pure ()
  if p.pagetable ≠ 0 then procFreepagetable p.pagetable p.sz else pure ()

/-- The memory of a new process; its slot was unused, so its size is 0. -/
def allocproc : Kern (Option UProc) := do
  let trapframe ← kalloc
  if trapframe = 0 then do
    freeproc { pagetable := 0, trapframe := 0, sz := 0 }
    pure none
  else do
    let pagetable ← procPagetable { pagetable := 0, trapframe := trapframe, sz := 0 }
    if pagetable = 0 then do
      freeproc { pagetable := 0, trapframe := trapframe, sz := 0 }
      pure none
    else pure (some { pagetable := pagetable, trapframe := trapframe, sz := 0 })

/-- The size of `struct trapframe`. -/
def trapframeSize : Nat := 288

/-- Store a 64-bit field of the trapframe at `offset`. -/
def setTrapframe (p : UProc) (offset v : Nat) : Kern Unit :=
  setPage p.trapframe fun page => writeLE 8 page offset v

/-- Create the memory of a child of `p`. -/
def kfork (p : UProc) : Kern (Option UProc) := do
  match ← allocproc with
  | none => pure none
  | some np => do
    let r ← uvmcopy p.pagetable np.pagetable p.sz
    if r < 0 then do
      freeproc np
      pure none
    else do
      let frame ← reads fun s => s.mem p.trapframe
      setPage np.trapframe fun page => copyBytes page 0 frame 0 trapframeSize
      -- a0 of the child
      setTrapframe np 112 0
      pure (some { np with sz := p.sz, name := p.name })

/-- `sz + n` for a `uint64` and an `int`. -/
def addInt (sz : Nat) (n : BitVec 32) : Nat :=
  ((sz + n.toInt) % 2 ^ 64).toNat

/-- Grow or shrink user memory by `n` bytes. -/
def growproc (p : UProc) (n : BitVec 32) : Kern (Int × UProc) :=
  if 0 < n.toInt then
    if TRAPFRAME < addInt p.sz n then pure (-1, p)
    else do
      let sz ← uvmalloc p.pagetable p.sz (addInt p.sz n) PTE_W
      if sz = 0 then pure (-1, p) else pure (0, { p with sz := sz })
  else if n.toInt < 0 then do
    let sz ← uvmdealloc p.pagetable p.sz (addInt p.sz n)
    pure (0, { p with sz := sz })
  else pure (0, p)

/-- `SBRK_EAGER` of `vm.h`. -/
def SBRK_EAGER : BitVec 32 := 1

/-- The system call: `t` says whether to allocate at once. -/
def sysSbrk (p : UProc) (n t : BitVec 32) : Kern (Int × UProc) :=
  if t = SBRK_EAGER ∨ n.toInt < 0 then do
    let (r, p') ← growproc p n
    if r < 0 then pure (-1, p') else pure (p.sz, p')
  else if addInt p.sz n < p.sz then pure (-1, p)
  else if TRAPFRAME < addInt p.sz n then pure (-1, p)
  else pure (p.sz, { p with sz := addInt p.sz n })

end Xv6.Vm
