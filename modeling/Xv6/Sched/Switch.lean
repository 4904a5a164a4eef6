import Xv6.Lib.Run
import Xv6.Proc.Table
import Xv6.Sched.Lottery

/-!
# Switching between the scheduler and the processes

`scheduler`, `sched`, `yield`, `sleep`, `wakeup`, `kkill`, `kexit` and `kfork`
of `kernel/proc.c` on any number of CPUs, with the locks of the slots.  A lock
that one thread acquires is released by another one behind `swtch`, so the
sections that call `swtch` are cut at the switch; every other lock section is
one step, which waits while the lock is held.

* `Resume`, `Slot`: a slot with its lock and its saved context.
* `ThreadPc`, `Pc`, `Cpu`: where a CPU is.  While a process runs, the loop of
  `scheduler` waits in its `swtch` with its local variable `p`.
* `Machine.swtchTo`, `Machine.sched`: the two directions of `swtch`.
* `tick`: the next step of a CPU that runs `scheduler` or is behind or before a
  switch; `Call`, `callStep`: what a running process may do.
* `Act`, `step`: all steps.  `wakeup` also runs in interrupt handlers, which
  interrupt `scheduler` at the top of its loop.
-/

namespace Xv6.Switch

open Xv6.ProcTable (Oracle allocproc forkSection)
open Xv6.Sched (countSlot ksettickets)

/-- Where a saved context goes on: behind the `sched` of one of these functions,
or at the start of `forkret`. -/
inductive Resume where
  | yield
  | sleep
  | exit
  | forkret
deriving DecidableEq, Repr

/-- `struct proc` with what belongs to the switch. -/
structure Slot where
  proc : Proc := {}
  /-- The CPU that holds `p->lock`. -/
  lock : Option Nat := none
  /-- `p->context`.  It is `none` before `allocproc` and while the thread
  executes, when the registers it holds are stale. -/
  context : Option Resume := none
deriving DecidableEq, Repr

/-- Where the thread of the process on a CPU is. -/
inductive ThreadPc where
  /-- Behind `swtch`: `p->lock` is still held. -/
  | resumed (r : Resume)
  /-- Outside the lock sections. -/
  | running
  /-- In `sched`, with `p->lock` held and the state changed. -/
  | leaving (r : Resume)
deriving DecidableEq, Repr

/-- Where a CPU is.  The index is the `p` of the loop of `scheduler`. -/
inductive Pc where
  | roundStart
  | firstPass (i : Nat) (total : BitVec 32)
  | secondPass (i : Nat) (counter winner : BitVec 32)
  /-- About to switch to the process. -/
  | dispatched (i : Nat)
  /-- The process executes. -/
  | thread (i : Nat) (t : ThreadPc)
  /-- Behind the `swtch` of `scheduler`. -/
  | back (i : Nat)
  /-- `c->proc` is zero again; about to release the lock. -/
  | cleared (i : Nat)
  | wfi
  /-- The process is in `panic`, or behind a jump through a stale context. -/
  | stopped (i : Nat)
deriving DecidableEq, Repr

/-- `struct cpu`. -/
structure Cpu where
  proc : Option Nat := none
  pc : Pc := .roundStart
deriving DecidableEq, Repr

structure Machine where
  slots : Nat → Slot := fun _ => {}
  cpus : Nat → Cpu := fun _ => {}
  /-- The new slot of a `kfork` that has not made it `RUNNABLE` yet. -/
  child : Nat → Option Nat := fun _ => none
  nextpid : BitVec 32 := 1
  initproc : Nat := 0

namespace Machine

variable (m : Machine)

def setSlot (i : Nat) (s : Slot) : Machine := { m with slots := Function.update m.slots i s }

def setProc (i : Nat) (p : Proc) : Machine := m.setSlot i { m.slots i with proc := p }

def setCpu (c : Nat) (k : Cpu) : Machine := { m with cpus := Function.update m.cpus c k }

def setPc (c : Nat) (pc : Pc) : Machine := m.setCpu c { m.cpus c with pc := pc }

def setChild (i : Nat) (j : Option Nat) : Machine :=
  { m with child := Function.update m.child i j }

/-- A lock section: it waits while somebody holds the lock of the slot. -/
def locked (j : Nat) (m' : Machine) : Option Machine :=
  if (m.slots j).lock = none then some m' else none

/-- `swtch(&c->context, &p->context)` of `scheduler` for slot `i`. -/
def swtchTo (c i : Nat) : Machine :=
  match (m.slots i).context with
  | some r => (m.setSlot i { m.slots i with context := none }).setPc c (.thread i (.resumed r))
  | none => m.setPc c (.stopped i)

/-- The thread behind its `swtch` in `sched`, or at the start of `forkret`: it
releases `p->lock`. -/
def resume (c i : Nat) : Resume → Machine
  | .yield | .forkret => (m.setSlot i { m.slots i with lock := none }).setPc c (.thread i .running)
  | .sleep =>
    (m.setSlot i
      { m.slots i with proc := { (m.slots i).proc with chan := none }, lock := none }).setPc
      c (.thread i .running)
  -- panic("zombie exit")
  | .exit => m.setPc c (.stopped i)

/-- `sched`: its checks, and `swtch(&p->context, &mycpu()->context)`.  The thread
is the one that the loop of `scheduler` on this CPU started for slot `i`. -/
def sched (c i : Nat) (r : Resume) : Machine :=
  match (m.cpus c).proc with
  | some p =>
    -- panic("sched p->lock"), panic("sched RUNNING")
    if (m.slots p).lock ≠ some c ∨ (m.slots p).proc.state = .RUNNING then m.setPc c (.stopped i)
    else (m.setSlot p { m.slots p with context := some r }).setPc c (.back i)
  | none => m.setPc c (.stopped i)

/-- The process changes its own state under its lock and enters `sched`. -/
def leave (c i : Nat) (p : Proc) (r : Resume) : Machine :=
  (m.setSlot i { m.slots i with proc := p, lock := some c }).setPc c (.thread i (.leaving r))

end Machine

/-! ## The scheduler and the two sides of a switch -/

/-- The next step of CPU `c` outside the code of a running process.  `r` is what
`rand_next` returns if this step draws. -/
def tick (m : Machine) (c : Nat) (r : BitVec 32) : Option Machine :=
  match (m.cpus c).pc with
  | .roundStart => some (m.setPc c (.firstPass 0 0))
  | .firstPass i total =>
    if i < NPROC then
      m.locked i (m.setPc c (.firstPass (i + 1) (countSlot total (m.slots i).proc)))
    else if total = 0 then some (m.setPc c .wfi)
    else some (m.setPc c (.secondPass 0 0 (r % total)))
  | .secondPass i counter winner =>
    if i < NPROC then
      let p := (m.slots i).proc
      m.locked i <|
        if p.state = .RUNNABLE then
          if winner.slt (counter + p.tickets) then
            (m.setSlot i { m.slots i with proc := dispatch p, lock := some c }).setCpu c
              ⟨some i, .dispatched i⟩
          else m.setPc c (.secondPass (i + 1) (counter + p.tickets) winner)
        else m.setPc c (.secondPass (i + 1) counter winner)
    else some (m.setPc c .wfi)
  | .wfi => some (m.setPc c .roundStart)
  | .dispatched i => some (m.swtchTo c i)
  | .thread i (.resumed r) => some (m.resume c i r)
  | .thread i (.leaving r) => some (m.sched c i r)
  | .back i => some (m.setCpu c ⟨none, .cleared i⟩)
  | .cleared i =>
    some ((m.setSlot i { m.slots i with lock := none }).setPc c .roundStart)
  | .thread _ .running => none
  | .stopped _ => none

/-! ## What a running process does -/

/-- The lock sections of a running process. -/
inductive Call where
  | yield
  | sleep (chan : Nat)
  | exit (status : BitVec 32)
  | settickets (number : BitVec 32)
  /-- `kkill` looks at slot `j`. -/
  | kill (pid : BitVec 32) (j : Nat)
  /-- `kwait` frees the zombie in slot `j`.  Whose child it is does not matter
  here. -/
  | reap (j : Nat)
  /-- `kfork` has found the free slot `j`. -/
  | fork (o : Oracle) (j : Nat)
  /-- The last lock section of `kfork`. -/
  | forkRunnable
deriving DecidableEq, Repr

/-- The section of `kfork` of slot `i` under the lock of the free slot `j`. -/
def fork (m : Machine) (o : Oracle) (i j : Nat) : Machine :=
  let np := forkSection o m.nextpid (m.slots i).proc (m.slots j).proc
  -- `allocproc` sets up the context behind its last failure
  let ready := (allocproc o m.nextpid (m.slots j).proc).2
  let context := if ready then some .forkret else (m.slots j).context
  ({ m with nextpid := m.nextpid + 1 }.setSlot j
    { m.slots j with proc := np.1, context := context }).setChild
    i (if np.2 then some j else none)

/-- Process `i` on CPU `c` runs a lock section.  A `kfork` between its sections
may only be preempted. -/
def callStep (m : Machine) (c i : Nat) (call : Call) : Option Machine :=
  let p := (m.slots i).proc
  match call, m.child i with
  | .yield, _ => m.locked i (m.leave c i (yield p) .yield)
  | .sleep chan, none =>
    m.locked i (m.leave c i { p with chan := some chan, state := .SLEEPING } .sleep)
  | .exit status, none =>
    -- panic("init exiting")
    if i = m.initproc then some (m.setPc c (.stopped i))
    else m.locked i (m.leave c i { p with xstate := status, state := .ZOMBIE } .exit)
  | .settickets number, none =>
    match ksettickets p number with
    | some p => m.locked i (m.setProc i p)
    | none => some m
  | .kill pid j, none =>
    let q := (m.slots j).proc
    m.locked j (if q.pid = pid then m.setProc j (killSlot q) else m)
  | .reap j, none =>
    let q := (m.slots j).proc
    m.locked j (if q.state = .ZOMBIE then m.setProc j (freeproc q) else m)
  | .fork o j, none =>
    m.locked j (if (m.slots j).proc.state = .UNUSED then fork m o i j else m)
  | .forkRunnable, some j =>
    m.locked j ((m.setProc j { (m.slots j).proc with state := .RUNNABLE }).setChild i none)
  | _, _ => none

/-! ## Steps -/

inductive Act where
  /-- CPU `c` goes on in `scheduler` or in a switch. -/
  | tick (c : Nat) (r : BitVec 32)
  /-- The process on CPU `c` runs a lock section. -/
  | call (c : Nat) (call : Call)
  /-- A `wakeup(chan)` on CPU `c` looks at slot `j`. -/
  | wakeup (c chan j : Nat)
deriving DecidableEq, Repr

/-- A CPU that may run a `wakeup`: a process does, and so do the interrupts at the
top of the loop of `scheduler`. -/
def Pc.wakes : Pc → Bool
  | .roundStart => true
  | .thread _ .running => true
  | _ => false

def step (m : Machine) : Act → Option Machine
  | .tick c r => tick m c r
  | .call c call =>
    match (m.cpus c).pc, (m.cpus c).proc with
    | .thread _ .running, some i => callStep m c i call
    | _, _ => none
  | .wakeup c chan j =>
    if (m.cpus c).pc.wakes = true ∧ (m.cpus c).proc ≠ some j then
      m.locked j (m.setProc j (wakeupSlot (some chan) (m.slots j).proc))
    else none

/-- The machine after `userinit`, with all CPUs at the start of `scheduler`. -/
def Machine.init (trapframe pagetable root : Nat) : Machine where
  slots := Function.update (fun _ => {}) 0
    { proc := (ProcTable.userinit trapframe pagetable root).procs 0, context := some .forkret }
  nextpid := 2

end Xv6.Switch
