import Mathlib.Init

/-!
# The process table entry

`struct proc` of `kernel/proc.h`.  A pointer field is an `Option Nat`: `none`
is the null pointer, and the number names the object the pointer refers to
(a slot of the process table for `parent`, a wait channel for `chan`, a
physical page for `pagetable` and `trapframe`, a slot of the file table for
`ofile`, a slot of the inode table for `cwd`).  `kstack` and `context` are
fixed or belong to `swtch`, so they are left out.
-/

namespace Xv6

/-- `NPROC` of `kernel/param.h`, the size of the process table. -/
def NPROC : Nat := 64

/-- `NOFILE` of `kernel/param.h`, the open files of one process. -/
def NOFILE : Nat := 16

/-- `enum procstate`. -/
inductive ProcState where
  | UNUSED
  | USED
  | SLEEPING
  | RUNNABLE
  | RUNNING
  | ZOMBIE
deriving DecidableEq, Repr

/-- `struct proc`.  The defaults are the contents of the zeroed array before
the first `allocproc`. -/
structure Proc where
  state : ProcState := .UNUSED
  chan : Option Nat := none
  killed : Bool := false
  xstate : BitVec 32 := 0
  pid : BitVec 32 := 0
  parent : Option Nat := none
  sz : BitVec 64 := 0
  pagetable : Option Nat := none
  trapframe : Option Nat := none
  ofile : List (Option Nat) := List.replicate NOFILE none
  cwd : Option Nat := none
  name : List UInt8 := []
  tickets : BitVec 32 := 0
  ticks : BitVec 32 := 0
deriving DecidableEq, Repr

/-! ## What the lock sections do to one slot -/

/-- `freeproc`.  The open files and the working directory are not touched. -/
def freeproc (p : Proc) : Proc :=
  { p with
    trapframe := none, pagetable := none, sz := 0, pid := 0, parent := none, name := [],
    chan := none, killed := false, xstate := 0, state := .UNUSED }

/-- What the scheduler does to the process it dispatches. -/
def dispatch (p : Proc) : Proc := { p with state := .RUNNING, ticks := p.ticks + 1 }

/-- What `yield` does to the running process. -/
def yield (p : Proc) : Proc := { p with state := .RUNNABLE }

/-- The body of the loop of `wakeup` for one slot. -/
def wakeupSlot (chan : Option Nat) (p : Proc) : Proc :=
  if p.state = .SLEEPING ∧ p.chan = chan then { p with state := .RUNNABLE } else p

/-- What `kkill` does to the slot whose `pid` matches. -/
def killSlot (p : Proc) : Proc :=
  { p with killed := true, state := if p.state = .SLEEPING then .RUNNABLE else p.state }

end Xv6
