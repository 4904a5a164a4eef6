import Xv6.Lib.Run
import Xv6.Sched.Lottery

/-!
# Several CPUs in `scheduler`

Any number of CPUs run `scheduler` over one process table.  A CPU touches a
slot only while it holds the lock of that slot, and it holds one such lock at a
time, so a step of the machine is one lock section: a CPU looks at one slot in
one of its passes, or the process on a CPU yields, sleeps, exits, forks, wakes
or kills another one.  `rand_next` is not protected by a lock, so the value a
draw reduces is taken from the action, whatever it is.

`Pc` is the place of a CPU in the loop of `scheduler` with its local variables.
`running i` stands for the time between the two halves of `swtch`: the CPU
executes the process of slot `i`, and goes back to the top of the loop when
that process gives it up.
-/

namespace Xv6.Sched

/-- Where a CPU is in `scheduler`. -/
inductive Pc where
  | roundStart
  | firstPass (i : Nat) (total : BitVec 32)
  | secondPass (i : Nat) (counter winner : BitVec 32)
  | running (i : Nat)
  | wfi
deriving DecidableEq, Repr

/-- The process table and the CPUs. -/
structure Machine where
  procs : List Proc
  cpus : List Pc
deriving DecidableEq, Repr

namespace Machine

def setPc (m : Machine) (c : Nat) (pc : Pc) : Machine := { m with cpus := m.cpus.set c pc }

def setProc (m : Machine) (i : Nat) (p : Proc) : Machine := { m with procs := m.procs.set i p }

@[simp] theorem setPc_procs (m : Machine) (c : Nat) (pc : Pc) : (m.setPc c pc).procs = m.procs :=
  rfl

@[simp] theorem setPc_cpus (m : Machine) (c : Nat) (pc : Pc) :
    (m.setPc c pc).cpus = m.cpus.set c pc := rfl

@[simp] theorem setProc_procs (m : Machine) (i : Nat) (p : Proc) :
    (m.setProc i p).procs = m.procs.set i p := rfl

@[simp] theorem setProc_cpus (m : Machine) (i : Nat) (p : Proc) : (m.setProc i p).cpus = m.cpus :=
  rfl

/-- The process that CPU `c` executes. -/
def current (m : Machine) (c : Nat) : Option (Nat × Proc) :=
  match m.cpus[c]? with
  | some (.running i) => m.procs[i]?.map fun p => (i, p)
  | _ => none

end Machine

/-! ## Steps -/

/-- The next lock section of `scheduler` on CPU `c`.  `r` is what `rand_next`
returns if this step draws. -/
def schedStep (m : Machine) (c : Nat) (r : BitVec 32) : Option Machine :=
  match m.cpus[c]? with
  | some .roundStart => some (m.setPc c (.firstPass 0 0))
  | some (.firstPass i total) =>
    match m.procs[i]? with
    | some p => some (m.setPc c (.firstPass (i + 1) (countSlot total p)))
    | none =>
      if total = 0 then some (m.setPc c .wfi)
      else some (m.setPc c (.secondPass 0 0 (r % total)))
  | some (.secondPass i counter winner) =>
    match m.procs[i]? with
    | some p =>
      if p.state = .RUNNABLE then
        if winner.slt (counter + p.tickets) then
          some ((m.setProc i (dispatch p)).setPc c (.running i))
        else some (m.setPc c (.secondPass (i + 1) (counter + p.tickets) winner))
      else some (m.setPc c (.secondPass (i + 1) counter winner))
    | none => some (m.setPc c .wfi)
  | some .wfi => some (m.setPc c .roundStart)
  | some (.running _) => none
  | none => none

/-- The lock sections that interleave. -/
inductive Act where
  /-- CPU `c` goes on in `scheduler`. -/
  | sched (c : Nat) (r : BitVec 32)
  /-- The process on CPU `c` calls `yield`. -/
  | yield (c : Nat)
  /-- The process on CPU `c` sleeps on `chan`. -/
  | sleep (c chan : Nat)
  /-- The process on CPU `c` exits. -/
  | exit (c : Nat) (status : BitVec 32)
  /-- The process on CPU `c` calls `settickets`. -/
  | settickets (c : Nat) (number : BitVec 32)
  /-- The process on CPU `c` forks into slot `j`: `allocproc` and the copies
  that `kfork` makes under the lock of the new slot. -/
  | fork (c j : Nat) (pid : BitVec 32)
  /-- The last lock section of `kfork`. -/
  | forkRunnable (c j : Nat)
  /-- `wakeup` looks at slot `j`. -/
  | wakeup (j chan : Nat)
  /-- `kkill` looks at slot `j`. -/
  | kill (j : Nat) (pid : BitVec 32)
  /-- `kwait` frees the zombie in slot `j`. -/
  | reap (c j : Nat)
deriving DecidableEq, Repr

/-- One lock section. -/
def step (m : Machine) : Act → Option Machine
  | .sched c r => schedStep m c r
  | .yield c => do
    let (i, p) ← m.current c
    some ((m.setProc i (yield p)).setPc c .roundStart)
  | .sleep c chan => do
    let (i, p) ← m.current c
    some ((m.setProc i { p with state := .SLEEPING, chan := some chan }).setPc c .roundStart)
  | .exit c status => do
    let (i, p) ← m.current c
    some ((m.setProc i { p with state := .ZOMBIE, xstate := status }).setPc c .roundStart)
  | .settickets c number => do
    let (i, p) ← m.current c
    let p ← ksettickets p number
    some (m.setProc i p)
  | .fork c j pid => do
    let (_, p) ← m.current c
    let np ← m.procs[j]?
    if np.state = .UNUSED then
      some (m.setProc j { np with state := .USED, pid := pid, tickets := p.tickets, ticks := 0 })
    else none
  | .forkRunnable c j => do
    let _ ← m.current c
    let np ← m.procs[j]?
    if np.state = .USED then some (m.setProc j { np with state := .RUNNABLE }) else none
  | .wakeup j chan => do
    let p ← m.procs[j]?
    some (m.setProc j (wakeupSlot (some chan) p))
  | .kill j pid => do
    let p ← m.procs[j]?
    if p.pid = pid then some (m.setProc j (killSlot p)) else some m
  | .reap c j => do
    let _ ← m.current c
    let p ← m.procs[j]?
    if p.state = .ZOMBIE then some (m.setProc j (freeproc p)) else none

end Xv6.Sched
