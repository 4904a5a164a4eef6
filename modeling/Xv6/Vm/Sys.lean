import Xv6.Lib.Run
import Xv6.Vm.Exec

/-!
# All address spaces of the machine

A system is the physical memory with the processes in their slots.  A step is
one operation of the kernel on the address space of one process, together with
the calls of `kalloc` that fail in it.  An operation that panics has no step.

* `Sys`, `Op`, `Act`, `step`.
* `Booted`: the state in which `userinit` makes the first process.
-/

namespace Xv6.Vm

open Xv6.Lib.Wp

/-- Memory and processes. -/
structure Sys where
  phys : Phys
  procs : Nat → Option UProc

/-- The operations of the kernel on address spaces. -/
inductive Op where
  /-- `userinit`: make a process without user memory. -/
  | userinit
  /-- `kexec` by process `i`; `file` is the content of the file at `path`. -/
  | exec (i : Nat) (path : List UInt8) (file : Option (List UInt8)) (argv : List (List UInt8))
  /-- `kfork` by process `i`. -/
  | fork (i : Nat)
  /-- `sys_sbrk(n, t)` by process `i`. -/
  | sbrk (i : Nat) (n t : BitVec 32)
  /-- A page fault of process `i` at `va`. -/
  | fault (i va : Nat)
  /-- A system call of process `i` that writes user memory. -/
  | copyout (i dstva : Nat) (src : List UInt8)
  /-- A system call of process `i` that reads user memory. -/
  | copyin (i srcva len : Nat)
  /-- The parent of the exited process `i` frees it. -/
  | freeproc (i : Nat)

/-- An operation and the failing calls of `kalloc` in it. -/
structure Act where
  op : Op
  denied : List Bool := []

/-- The number of processes. -/
def NPROC : Nat := 64

/-- The first unused slot. -/
def freeSlot (procs : Nat → Option UProc) : Option Nat :=
  (List.range NPROC).find? fun i => (procs i).isNone

/-- What `sys_exec` can pass to `kexec`. -/
def execOk (file : Option (List UInt8)) (argv : List (List UInt8)) : Bool :=
  decide (argv.length < MAXARG) && argv.all (fun a => decide (a.length < PGSIZE)) &&
    file.all fun f => decide (f.length < 2 ^ 32)

/-- The process in slot `i` runs `f`, which gives the new process. -/
def onProc (sys : Sys) (i : Nat) (f : UProc → Kern UProc) : Option Sys :=
  match sys.procs i with
  | none => none
  | some p =>
    match f p sys.phys with
    | .ok (p', s) => some ⟨s, Function.update sys.procs i (some p')⟩
    | .error _ => none

/-- A new process goes into a free slot. -/
def addProc (sys : Sys) (x : Kern (Option UProc)) : Option Sys :=
  match freeSlot sys.procs, x sys.phys with
  | some j, .ok (some p, s) => some ⟨s, Function.update sys.procs j (some p)⟩
  | some _, .ok (none, s) => some ⟨s, sys.procs⟩
  | _, _ => none

/-- One operation. -/
def stepOp (sys : Sys) : Op → Option Sys
  | .userinit => addProc sys allocproc
  | .exec i path file argv =>
    if execOk file argv then onProc sys i fun p => do
      let (_, p') ← kexec p path file argv
      pure p'
    else none
  | .fork i =>
    match sys.procs i with
    | none => none
    | some p => addProc sys (kfork p)
  | .sbrk i n t => onProc sys i fun p => do
      let (_, p') ← sysSbrk p n t
      pure p'
  | .fault i va => onProc sys i fun p => do
      let _ ← vmfault p p.pagetable va
      pure p
  | .copyout i dstva src => onProc sys i fun p => do
      let _ ← copyout p p.pagetable dstva src
      pure p
  | .copyin i srcva len => onProc sys i fun p => do
      let _ ← copyin p p.pagetable srcva len
      pure p
  | .freeproc i =>
    match sys.procs i with
    | none => none
    | some p =>
      match freeproc p sys.phys with
      | .ok (_, s) => some ⟨s, Function.update sys.procs i none⟩
      | .error _ => none

/-- One step. -/
def step (sys : Sys) (a : Act) : Option Sys :=
  stepOp { sys with phys := { sys.phys with denied := a.denied } } a.op

/-- After `kinit` and before `userinit`. -/
structure Booted (sys : Sys) : Prop where
  procs : ∀ i, sys.procs i = none
  kend : KERNBASE ≤ sys.phys.kend
  nodup : sys.phys.freelist.Nodup
  ram : ∀ p ∈ sys.phys.freelist, p % 4096 = 0 ∧ sys.phys.kend ≤ p ∧ p < PHYSTOP
  trampoline : sys.phys.trampoline < PHYSTOP

end Xv6.Vm
