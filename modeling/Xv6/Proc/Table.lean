import Mathlib.Logic.Function.Basic
import Xv6.Proc.Basic

/-!
# The process table under fork, exit, wait and kill

One step is one section of the code that runs under a `p->lock` or under
`wait_lock`; between two steps any other thread may run.  Every slot has the
kernel thread of its process, and `Pc` says where in `kfork`, `kexit`, `kwait`
or `kkill` that thread stands.

* `Pc`, `Table`: the program counters and the state they share.  A slot is a
  `Nat`; the table has `NPROC` of them.
* `Oracle`: the results of the allocations and copies that a section makes.
  They may fail at any time.
* `allocproc`, `forkCopy`: what `allocproc` and `kfork` do to the new slot
  while they hold its lock.
* `Table.forkScan` to `Table.killScan`: the sections, one definition each.
* `threadStep`: the next section of a thread inside a call.
* `Act`, `step`: all steps.  Beside the four calls there are the scheduler, a
  process changing its own private fields, and sleeping and waking elsewhere.
-/

namespace Xv6.ProcTable

/-- Where the kernel thread of a process stands. -/
inductive Pc where
  /-- Outside the modelled calls; `ret` is what the last one returned, and `status` what
  the `copyout` of `kwait` stored. -/
  | user (ret : BitVec 32) (status : Option (BitVec 32) := none)
  /-- In `sleep`, called outside `kwait`. -/
  | asleep
  /-- `allocproc` is about to look at slot `k`. -/
  | forkScan (k : Nat)
  /-- `kfork` is about to set the parent of slot `k`. -/
  | forkParent (k : Nat) (pid : BitVec 32)
  /-- `kfork` is about to make slot `k` `RUNNABLE`. -/
  | forkRunnable (k : Nat) (pid : BitVec 32)
  /-- `kexit` is about to close descriptor `fd`. -/
  | exitClose (status : BitVec 32) (fd : Nat)
  /-- `kexit` is about to drop the working directory. -/
  | exitCwd (status : BitVec 32)
  /-- `kexit` is about to take `wait_lock`. -/
  | exitLock (status : BitVec 32)
  /-- `reparent` is about to look at slot `k`. -/
  | reparent (status : BitVec 32) (k : Nat)
  /-- `reparent` has changed slot `k` and wakes `initproc`, next in slot `l`. -/
  | reparentWake (status : BitVec 32) (k l : Nat)
  /-- `kexit` wakes its parent, next in slot `l`. -/
  | exitWake (status : BitVec 32) (parent : Option Nat) (l : Nat)
  /-- `kexit` is about to become a zombie. -/
  | exitZombie (status : BitVec 32)
  /-- Behind the last `sched` of `kexit`. -/
  | dead
  /-- `kwait` is about to take `wait_lock` and start a scan. -/
  | waitLock (addr : BitVec 64)
  /-- `kwait` is about to look at slot `k`. -/
  | waitScan (addr : BitVec 64) (k : Nat) (havekids : Bool)
  /-- `kwait` is about to sleep. -/
  | waitSleep (addr : BitVec 64)
  /-- In the `sleep` of `kwait`. -/
  | waitAsleep (addr : BitVec 64)
  /-- `kkill` is about to look at slot `k`. -/
  | kill (pid : BitVec 32) (k : Nat)
deriving DecidableEq, Repr

/-- The shared state. -/
structure Table where
  procs : Nat → Proc := fun _ => {}
  pcs : Nat → Pc := fun _ => .user 0
  /-- The thread that holds `wait_lock`. -/
  waitLock : Option Nat := none
  nextpid : BitVec 32 := 1
  initproc : Nat := 0

def Table.setProc (m : Table) (j : Nat) (p : Proc) : Table :=
  { m with procs := Function.update m.procs j p }

def Table.setPc (m : Table) (i : Nat) (pc : Pc) : Table :=
  { m with pcs := Function.update m.pcs i pc }

/-- The results of what a section calls: the pages of `kalloc` and
`proc_pagetable`, and whether `uvmcopy` and `copyout` succeed. -/
structure Oracle where
  trapframe : Option Nat := none
  pagetable : Option Nat := none
  uvmcopy : Bool := true
  copyout : Bool := true
deriving DecidableEq, Repr

/-- `allocproc` on the `UNUSED` slot `p`, with the pid that `allocpid` gave.
The second component says whether it succeeded.  `killed` is not reset. -/
def allocproc (o : Oracle) (pid : BitVec 32) (p : Proc) : Proc × Bool :=
  let p := { p with pid := pid, state := .USED, trapframe := o.trapframe }
  if p.trapframe = none then (freeproc p, false)
  else
    let p := { p with pagetable := o.pagetable }
    if p.pagetable = none then (freeproc p, false)
    else ({ p with tickets := 1, ticks := 0 }, true)

/-- What `kfork` in process `p` does to the new slot `np` before it releases
its lock: `uvmcopy`, then the private fields. -/
def forkCopy (o : Oracle) (p np : Proc) : Proc × Bool :=
  if o.uvmcopy then
    ({ np with
        sz := p.sz
        -- a descriptor that is closed in the parent is not written in the child
        ofile := List.zipWith (fun f nf => f.or nf) p.ofile np.ofile
        cwd := p.cwd, name := p.name, tickets := p.tickets }, true)
  else (freeproc np, false)

/-- The section of `kfork` under the lock of the new slot. -/
def forkSection (o : Oracle) (pid : BitVec 32) (p np : Proc) : Proc × Bool :=
  match allocproc o pid np with
  | (np, true) => forkCopy o p np
  | (np, false) => (np, false)

/-- The section of `wakeup` for slot `l`, called by thread `i`. -/
def Table.wakeup (m : Table) (i : Nat) (chan : Option Nat) (l : Nat) : Table :=
  if l = i then m else m.setProc l (wakeupSlot chan (m.procs l))

namespace Table

variable (m : Table) (i : Nat)

/-- Thread `i` takes or releases `wait_lock`. -/
def setWaitLock (holder : Option Nat) : Table :=
  { m with waitLock := holder }

/-- `allocproc`, called by `kfork`, looks at slot `k`. -/
def forkScan (o : Oracle) (k : Nat) : Table :=
  if k < NPROC then
    if (m.procs k).state = .UNUSED then
      let (np, ok) := forkSection o m.nextpid (m.procs i) (m.procs k)
      let m' := { m with nextpid := m.nextpid + 1 }.setProc k np
      -- the context of a new thread starts it at `forkret`
      if ok then (m'.setPc k (.user 0)).setPc i (.forkParent k m.nextpid)
      else m'.setPc i (.user (-1))
    else m.setPc i (.forkScan (k + 1))
  else m.setPc i (.user (-1))

/-- `np->parent = p`, in one hold of `wait_lock`. -/
def forkParent (k : Nat) (pid : BitVec 32) : Table :=
  (m.setProc k { m.procs k with parent := some i }).setPc i (.forkRunnable k pid)

/-- `np->state = RUNNABLE`. -/
def forkRunnable (k : Nat) (pid : BitVec 32) : Table :=
  (m.setProc k { m.procs k with state := .RUNNABLE }).setPc i (.user pid)

/-- `kexit` closes descriptor `fd`. -/
def exitClose (status : BitVec 32) (fd : Nat) : Table :=
  if fd < NOFILE then
    (m.setProc i { m.procs i with ofile := (m.procs i).ofile.set fd none }).setPc i
      (.exitClose status (fd + 1))
  else m.setPc i (.exitCwd status)

/-- `kexit` drops the working directory. -/
def exitCwd (status : BitVec 32) : Table :=
  (m.setProc i { m.procs i with cwd := none }).setPc i (.exitLock status)

/-- `reparent` looks at slot `k`; behind the last slot `kexit` reads its parent. -/
def reparent (status : BitVec 32) (k : Nat) : Table :=
  if k < NPROC then
    if (m.procs k).parent = some i then
      (m.setProc k { m.procs k with parent := some m.initproc }).setPc i (.reparentWake status k 0)
    else m.setPc i (.reparent status (k + 1))
  else m.setPc i (.exitWake status (m.procs i).parent 0)

/-- The `wakeup(initproc)` of `reparent` looks at slot `l`. -/
def reparentWake (status : BitVec 32) (k l : Nat) : Table :=
  if l < NPROC then (m.wakeup i (some m.initproc) l).setPc i (.reparentWake status k (l + 1))
  else m.setPc i (.reparent status (k + 1))

/-- The `wakeup(p->parent)` of `kexit` looks at slot `l`. -/
def exitWake (status : BitVec 32) (parent : Option Nat) (l : Nat) : Table :=
  if l < NPROC then (m.wakeup i parent l).setPc i (.exitWake status parent (l + 1))
  else m.setPc i (.exitZombie status)

/-- `kexit` becomes a zombie and releases `wait_lock`. -/
def exitZombie (status : BitVec 32) : Table :=
  ((m.setWaitLock none).setProc i { m.procs i with xstate := status, state := .ZOMBIE }).setPc
    i .dead

/-- `kwait` looks at slot `k`; behind the last slot it returns or sleeps. -/
def waitScan (o : Oracle) (addr : BitVec 64) (k : Nat) (havekids : Bool) : Table :=
  if k < NPROC then
    if (m.procs k).parent = some i then
      if (m.procs k).state = .ZOMBIE then
        if addr ≠ 0 ∧ o.copyout = false then (m.setWaitLock none).setPc i (.user (-1))
        else
          ((m.setWaitLock none).setProc k (freeproc (m.procs k))).setPc i
            (.user (m.procs k).pid (if addr = 0 then none else some (m.procs k).xstate))
      else m.setPc i (.waitScan addr (k + 1) true)
    else m.setPc i (.waitScan addr (k + 1) havekids)
  else if havekids = false ∨ (m.procs i).killed = true then
    (m.setWaitLock none).setPc i (.user (-1))
  else m.setPc i (.waitSleep addr)

/-- The `sleep(p, &wait_lock)` of `kwait`, up to the switch to the scheduler. -/
def waitSleep (addr : BitVec 64) : Table :=
  ((m.setWaitLock none).setProc i { m.procs i with chan := some i, state := .SLEEPING }).setPc
    i (.waitAsleep addr)

/-- The end of `sleep`: the thread runs again. -/
def wakeUp (next : Pc) : Table :=
  (m.setProc i { m.procs i with chan := none }).setPc i next

/-- `kkill` looks at slot `k`. -/
def killScan (pid : BitVec 32) (k : Nat) : Table :=
  if k < NPROC then
    if (m.procs k).pid = pid then (m.setProc k (killSlot (m.procs k))).setPc i (.user 0)
    else m.setPc i (.kill pid (k + 1))
  else m.setPc i (.user (-1))

end Table

/-- The next section of thread `i`, which is inside a call.  It waits while
another thread holds the `wait_lock` it needs. -/
def threadStep (m : Table) (i : Nat) (o : Oracle) : Option Table :=
  match m.pcs i with
  | .user _ _ => none
  | .asleep => some (m.wakeUp i (.user 0))
  | .forkScan k => some (m.forkScan i o k)
  | .forkParent k pid => if m.waitLock = none then some (m.forkParent i k pid) else none
  | .forkRunnable k pid => some (m.forkRunnable i k pid)
  | .exitClose status fd => some (m.exitClose i status fd)
  | .exitCwd status => some (m.exitCwd i status)
  | .exitLock status =>
    if m.waitLock = none then some ((m.setWaitLock (some i)).setPc i (.reparent status 0)) else none
  | .reparent status k => some (m.reparent i status k)
  | .reparentWake status k l => some (m.reparentWake i status k l)
  | .exitWake status parent l => some (m.exitWake i status parent l)
  | .exitZombie status => some (m.exitZombie i status)
  | .dead => none
  | .waitLock addr =>
    if m.waitLock = none then some ((m.setWaitLock (some i)).setPc i (.waitScan addr 0 false))
    else none
  | .waitScan addr k havekids => some (m.waitScan i o addr k havekids)
  | .waitSleep addr => some (m.waitSleep i addr)
  | .waitAsleep addr => some (m.wakeUp i (.waitLock addr))
  | .kill pid k => some (m.killScan i pid k)

/-- A call that a thread makes. -/
inductive Call where
  | fork
  | exit (status : BitVec 32)
  | wait (addr : BitVec 64)
  | kill (pid : BitVec 32)
  /-- `sleep` on a channel, in a system call that is not modelled here. -/
  | sleep (chan : Nat)
  /-- `setkilled(myproc())`, after a fault in user space. -/
  | setkilled
  /-- Any other system call: it changes only fields that are private to the
  process (`open`, `chdir`, `exec`, `sbrk`, ...). -/
  | other (sz : BitVec 64) (pagetable : Nat) (ofile : List (Option Nat)) (cwd : Option Nat)
      (name : List UInt8) (tickets : BitVec 32)
deriving DecidableEq, Repr

/-- Thread `i`, outside any call, makes a call.  `exit` of `initproc` panics. -/
def callStep (m : Table) (i : Nat) : Call → Option Table
  | .fork => some (m.setPc i (.forkScan 0))
  | .exit status => if i = m.initproc then none else some (m.setPc i (.exitClose status 0))
  | .wait addr => some (m.setPc i (.waitLock addr))
  | .kill pid => some (m.setPc i (.kill pid 0))
  | .sleep chan =>
    some ((m.setProc i { m.procs i with chan := some chan, state := .SLEEPING }).setPc i .asleep)
  | .setkilled => some (m.setProc i { m.procs i with killed := true })
  | .other sz pagetable ofile cwd name tickets =>
    if ofile.length = NOFILE then
      some (m.setProc i
        { m.procs i with sz, pagetable := some pagetable, ofile, cwd, name, tickets })
    else none

/-- The steps of the system. -/
inductive Act where
  /-- The scheduler of some CPU dispatches slot `i`. -/
  | dispatch (i : Nat)
  /-- The process in slot `i` yields. -/
  | yield (i : Nat)
  /-- A `wakeup(chan)` elsewhere in the kernel looks at slot `j`. -/
  | wakeup (j chan : Nat)
  /-- Thread `i` makes a call. -/
  | call (i : Nat) (c : Call)
  /-- Thread `i` runs the next section of its call. -/
  | tick (i : Nat) (o : Oracle)
deriving DecidableEq, Repr

/-- One step.  A thread runs only while its process is `RUNNING`, and is not
interrupted while it holds `wait_lock`. -/
def step (m : Table) : Act → Option Table
  | .dispatch i =>
    if (m.procs i).state = .RUNNABLE then some (m.setProc i (dispatch (m.procs i))) else none
  | .yield i =>
    if (m.procs i).state = .RUNNING ∧ m.waitLock ≠ some i then
      some (m.setProc i (yield (m.procs i)))
    else none
  | .wakeup j chan => some (m.setProc j (wakeupSlot (some chan) (m.procs j)))
  | .call i c =>
    match m.pcs i with
    | .user _ _ => if (m.procs i).state = .RUNNING then callStep m i c else none
    | _ => none
  | .tick i o => if (m.procs i).state = .RUNNING then threadStep m i o else none

/-- The table after `userinit`: slot 0 holds `initproc`, whose trapframe, page
table and root directory are the given ones. -/
def userinit (trapframe pagetable root : Nat) : Table where
  procs := Function.update (fun _ => {}) 0
    { (allocproc { trapframe := some trapframe, pagetable := some pagetable } 1 {}).1 with
      cwd := some root, state := .RUNNABLE }
  nextpid := 2

/-! ## What the sections do to a slot -/

section Updates

variable {m : Table} {i j : Nat}

@[simp] theorem procs_setProc_self (p : Proc) : (m.setProc j p).procs j = p :=
  Function.update_self ..

theorem procs_setProc_of_ne (h : i ≠ j) (p : Proc) : (m.setProc j p).procs i = m.procs i :=
  Function.update_of_ne h ..

@[simp] theorem pcs_setPc_self (pc : Pc) : (m.setPc i pc).pcs i = pc :=
  Function.update_self ..

end Updates

theorem wakeupSlot_eq (chan : Option Nat) (p : Proc) :
    wakeupSlot chan p = p ∨ p.state = .SLEEPING ∧
    wakeupSlot chan p = { p with state := .RUNNABLE } := by
  by_cases hsleep : p.state = .SLEEPING ∧ p.chan = chan
  · exact .inr ⟨hsleep.1, if_pos hsleep⟩
  · exact .inl (if_neg hsleep)

/-- The section of `kfork` under the lock of the new slot gives the slot back, or
fills it: then it is `USED` under its new pid, and its `killed` flag and its
parent are what `allocproc` found. -/
theorem forkSection_cases (o : Oracle) (pid : BitVec 32) (p np : Proc) :
    (∃ q, forkSection o pid p np = (freeproc q, false) ∧ q.ofile = np.ofile ∧ q.cwd = np.cwd) ∨
      ∃ q, forkSection o pid p np = (q, true) ∧ (allocproc o pid np).2 = true ∧ q.state = .USED ∧
        q.pid = pid ∧ q.killed = np.killed ∧ q.parent = np.parent ∧
        q.ofile = List.zipWith (fun f nf => f.or nf) p.ofile np.ofile := by
  unfold forkSection allocproc forkCopy
  by_cases htf : o.trapframe = none
  · simp only [htf, if_true]
    exact .inl ⟨_, rfl, rfl, rfl⟩
  · by_cases hpt : o.pagetable = none
    · simp only [htf, hpt, if_true, if_false]
      exact .inl ⟨_, rfl, rfl, rfl⟩
    · by_cases hcopy : o.uvmcopy
      · simp only [htf, hpt, hcopy, if_true, if_false]
        exact .inr ⟨_, rfl, trivial, rfl, rfl, rfl, rfl, rfl⟩
      · simp only [htf, hpt, hcopy, if_false]
        exact .inl ⟨_, rfl, rfl, rfl⟩

end Xv6.ProcTable
