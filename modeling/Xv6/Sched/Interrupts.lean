import Mathlib.Data.List.Nodup
import Mathlib.Logic.Function.Basic
import Xv6.Lib.Run

/-!
# Interrupts, locks and switches

`push_off` and `pop_off` of `kernel/spinlock.c`, the locks on top of them, and `sched` and
`swtch` of `kernel/proc.c`, on any number of CPUs.  `noff` and `intena` belong to a CPU, and
the nesting that they describe to a thread, which may go on on another CPU.

* `Stage`: where a thread is in `push_off`, `acquire` or `release`.  Between `intr_get` and
  `intr_off` of `push_off` an interrupt may come in, and its handler may give up the CPU.
* `Thread`, `Cpu`, `Machine`: the state.  Each CPU has its loop of `scheduler` besides the
  threads of the processes.
* `Act`, `step`: what the thread of a CPU may do next: locks are released in any order, and
  `sched` is called with `p->lock` as the only lock.
* `Inv`, `Inv.update`: the invariant, and one lemma for all steps inside of a thread.
* `interrupts_survive`: interrupts are off inside of the nesting, and for the thread of a
  process they are behind it what they were before it.

`left` is a history variable: what the interrupts were when the nesting of the thread left
zero.  A new process starts inside of the section of `scheduler` that switches to it, so it has
none before its first own section.  `scheduler` does not keep `intena` across its `swtch`.
-/

namespace Xv6.Intr

open Xv6.Lib.Run

variable {old : Bool}

/-! ## The state -/

/-- A spinlock: `p->lock` of a slot, or another one. -/
inductive Lock where
  | proc (i : Nat)
  | other (n : Nat)
deriving DecidableEq

variable {lk : Option Lock}

/-- What a CPU runs: its own loop of `scheduler`, which belongs to no process, or the kernel
thread of the process in a slot. -/
inductive Tid where
  | sched (c : Nat)
  | proc (i : Nat)
deriving DecidableEq

/-- Where a thread is.  The lock is the one to acquire, if `push_off` is called by
`acquire`. -/
inductive Stage where
  | idle
  /-- In `push_off`, behind `old = intr_get()`. -/
  | read (lk : Option Lock) (old : Bool)
  /-- In `push_off`, behind `intr_off()`. -/
  | off (lk : Option Lock) (old : Bool)
  /-- In the loop of `acquire`. -/
  | spin (lk : Lock)
  /-- In `release`, before `pop_off()`. -/
  | popping
deriving DecidableEq

structure Thread where
  stage : Stage := .idle
  /-- The code that interrupts came into, the last one first. -/
  traps : List Stage := []
  held : List Lock := []
  /-- Calls of `push_off` outside of `acquire` that have not been undone. -/
  bare : Nat := 0
  /-- All calls of `push_off` that have not been undone. -/
  depth : Nat := 0
  left : Option Bool := none
  /-- The local variable of `sched`. -/
  intena : Bool := false
deriving DecidableEq

structure Cpu where
  noff : Nat := 0
  intena : Bool := false
  /-- Are interrupts enabled? -/
  sie : Bool := false
  /-- The thread that the CPU executes. -/
  cur : Tid

/-- The context of a slot: it starts at `forkret`, or behind the `swtch` of `sched`, or the
slot is on a CPU. -/
inductive Context where
  | forkret
  | sched
  | running
deriving DecidableEq

structure Machine where
  cpus : Nat → Cpu
  threads : Tid → Thread
  /-- The CPU that holds the lock. -/
  locks : Lock → Option Nat
  contexts : Nat → Context
  panicked : Bool := false

/-- A new thread: it is going to release `p->lock`. -/
def newThread (i : Nat) : Thread := { held := [.proc i], depth := 1 }

/-- All CPUs in `scheduler`. -/
def init : Machine where
  cpus c := { cur := .sched c }
  threads
    | .sched _ => {}
    | .proc i => newThread i
  locks _ := none
  contexts _ := .forkret

namespace Machine

variable (m : Machine) (c : Nat)

/-- The thread on CPU `c`. -/
def thread : Thread := m.threads (m.cpus c).cur

/-- The thread on CPU `c` goes on. -/
def update (k : Cpu) (t : Thread) (locks : Lock → Option Nat) : Machine :=
  { m with
    cpus := Function.update m.cpus c k
    threads := Function.update m.threads (m.cpus c).cur t
    locks := locks }

def set (k : Cpu) (t : Thread) : Machine := m.update c k t m.locks

def panic : Machine := { m with panicked := true }

end Machine

/-! ## The steps -/

inductive Act where
  /-- `intr_on` and `intr_off`, outside of the nesting. -/
  | intr (c : Nat) (on : Bool)
  /-- An interrupt. -/
  | trap (c : Nat)
  /-- The end of an interrupt handler. -/
  | sret (c : Nat)
  /-- `push_off` for `acquire` of a lock, or alone. -/
  | push (c : Nat) (lk : Option Lock)
  | pushOff (c : Nat)
  | pushDone (c : Nat)
  /-- `acquire` gets the lock. -/
  | take (c : Nat)
  | release (c : Nat) (lk : Lock)
  /-- `pop_off`, at the end of `release` or alone. -/
  | pop (c : Nat)
  /-- The thread of a slot gives up the CPU. -/
  | sched (c i : Nat)
  /-- `scheduler` switches to the slot. -/
  | swtch (c i : Nat)
  /-- `allocproc` makes a new thread for the slot. -/
  | alloc (i : Nat)

/-- The rest of `push_off` behind `intr_off`, and the check of `acquire`. -/
def pushDone (m : Machine) (c : Nat) (lk : Option Lock) (old : Bool) : Machine :=
  let k := m.cpus c
  let t := m.thread c
  let k' := { k with intena := if k.noff = 0 then old else k.intena, noff := k.noff + 1 }
  match lk with
  | none => m.set c k' { t with stage := .idle, bare := t.bare + 1, depth := t.depth + 1 }
  | some lk =>
    -- panic("acquire")
    if m.locks lk = some c then m.panic
    else m.set c k' { t with stage := .spin lk, depth := t.depth + 1 }

/-- `pop_off`, for the thread that it leaves behind. -/
def popOff (m : Machine) (c : Nat) (t : Thread) : Machine :=
  let k := m.cpus c
  -- panic("pop_off - interruptible"), panic("pop_off")
  if k.sie = true ∨ k.noff < 1 then m.panic
  else
    m.set c { k with noff := k.noff - 1, sie := decide (k.noff - 1 = 0) && k.intena }
      { t with depth := t.depth - 1 }

/-- The thread is about to switch: it holds `p->lock` of the slot and nothing else. -/
def Thread.AtSwitch (t : Thread) (i : Nat) : Prop :=
  t.stage = .idle ∧ t.held = [.proc i] ∧ t.bare = 0

instance (t : Thread) (i : Nat) : Decidable (t.AtSwitch i) :=
  inferInstanceAs (Decidable (_ ∧ _ ∧ _))

/-- `sched` of the thread of slot `i`. -/
def sched (m : Machine) (c i : Nat) : Machine :=
  let k := m.cpus c
  -- panic("sched p->lock"), panic("sched locks"), panic("sched interruptible")
  if m.locks (.proc i) ≠ some c ∨ k.noff ≠ 1 ∨ k.sie = true then m.panic
  else
    { m with
      cpus := Function.update m.cpus c { k with cur := .sched c }
      threads := Function.update m.threads (.proc i) { m.threads (.proc i) with intena := k.intena }
      contexts := Function.update m.contexts i .sched }

/-- `swtch` to slot `i`, and `mycpu()->intena = intena` if it is behind its `sched`. -/
def swtch (m : Machine) (c i : Nat) : Machine :=
  let k := m.cpus c
  { m with
    cpus := Function.update m.cpus c { k with
      cur := .proc i
      intena := if m.contexts i = .sched then (m.threads (.proc i)).intena else k.intena }
    contexts := Function.update m.contexts i .running }

/-- What the thread on CPU `c` does next. -/
def threadStep (m : Machine) (c : Nat) (k : Cpu) (t : Thread) : Act → Option Machine
  | .intr _ on =>
    if t.stage = .idle ∧ t.depth = 0 then some (m.set c { k with sie := on } t) else none
  | .trap _ =>
    if k.sie = true then
      some (m.set c { k with sie := false } { t with stage := .idle, traps := t.stage :: t.traps })
    else none
  | .sret _ =>
    match t.traps with
    | st :: rest =>
      if t.stage = .idle ∧ t.depth = 0 then
        some (m.set c { k with sie := true } { t with stage := st, traps := rest })
      else none
    | [] => none
  | .push _ lk =>
    if t.stage = .idle ∧ ∀ l ∈ lk, l ∉ t.held then
      some (m.set c k { t with stage := .read lk k.sie })
    else none
  | .pushOff _ =>
    match t.stage with
    | .read lk old =>
      some (m.set c { k with sie := false }
        { t with stage := .off lk old, left := if t.depth = 0 then some k.sie else t.left })
    | _ => none
  | .pushDone _ =>
    match t.stage with
    | .off lk old => some (pushDone m c lk old)
    | _ => none
  | .take _ =>
    match t.stage with
    | .spin lk =>
      if m.locks lk = none then
        some (m.update c k { t with stage := .idle, held := lk :: t.held }
          (Function.update m.locks lk (some c)))
      else none
    | _ => none
  | .release _ lk =>
    if t.stage = .idle ∧ lk ∈ t.held then
      -- panic("release")
      if m.locks lk ≠ some c then some m.panic
      else
        some (m.update c k { t with stage := .popping, held := t.held.erase lk }
          (Function.update m.locks lk none))
    else none
  | .pop _ =>
    match t.stage with
    | .popping => some (popOff m c { t with stage := .idle })
    | .idle => if 0 < t.bare then some (popOff m c { t with bare := t.bare - 1 }) else none
    | _ => none
  | .sched _ i => if k.cur = .proc i ∧ t.AtSwitch i then some (sched m c i) else none
  | .swtch _ i =>
    if k.cur = .sched c ∧ t.AtSwitch i ∧ m.contexts i ≠ .running then some (swtch m c i) else none
  | .alloc _ => none

/-- The CPU of an action. -/
def Act.cpu : Act → Nat
  | .intr c _ | .trap c | .sret c | .push c _ | .pushOff c | .pushDone c | .take c | .release c _
  | .pop c | .sched c _ | .swtch c _ => c
  | .alloc _ => 0

def step (m : Machine) (a : Act) : Option Machine :=
  if m.panicked = true then none
  else
    match a with
    | .alloc i =>
      if m.contexts i = .sched then
        some { m with
          threads := Function.update m.threads (.proc i) (newThread i)
          contexts := Function.update m.contexts i .forkret }
      else none
    | a => threadStep m a.cpu (m.cpus a.cpu) (m.thread a.cpu) a

/-! ## The invariant -/

/-- A call of `push_off` that counts in `depth`, but not as a lock or as a bare call. -/
def Stage.pending : Stage → Nat
  | .spin _ | .popping => 1
  | _ => 0

/-- The lock that `acquire` is called for, before the loop. -/
def Stage.wanted : Stage → Option Lock
  | .read lk _ | .off lk _ => lk
  | _ => none

/-- Interrupts are enabled in code that an interrupt comes into. -/
def Stage.Interruptible : Stage → Prop
  | .idle => True
  | .read _ old => old = true
  | _ => False

structure ThreadInv (t : Thread) : Prop where
  count : t.depth = t.bare + t.held.length + t.stage.pending
  traps : ∀ st ∈ t.traps, st.Interruptible
  nodup : t.held.Nodup
  wanted : ∀ l ∈ t.stage.wanted, l ∉ t.held

/-- What the CPU knows of `push_off`. -/
def Stage.Agrees (k : Cpu) (t : Thread) : Stage → Prop
  | .read _ old => k.sie = old
  | .off _ old => k.sie = false ∧ (t.depth = 0 → t.left = some old)
  | _ => True

/-- A CPU and the thread that it executes. -/
structure CpuInv (k : Cpu) (t : Thread) : Prop where
  noff : k.noff = t.depth
  off : 0 < t.depth → k.sie = false
  stage : t.stage.Agrees k t

/-- `intena` of the CPU is what the interrupts were before the nesting of the thread. -/
def Restores (k : Cpu) (t : Thread) : Prop := 0 < t.depth → ∀ b, t.left = some b → k.intena = b

structure Inv (m : Machine) : Prop where
  going : m.panicked = false
  inj : ∀ c c', (m.cpus c).cur = (m.cpus c').cur → c = c'
  own : ∀ c c', (m.cpus c).cur = .sched c' → c' = c
  running : ∀ c i, (m.cpus c).cur = .proc i → m.contexts i = .running
  threads : ∀ t, ThreadInv (m.threads t)
  cpus : ∀ c, CpuInv (m.cpus c) (m.thread c)
  intena : ∀ c i, (m.cpus c).cur = .proc i → Restores (m.cpus c) (m.thread c)
  waits : ∀ c i, (m.cpus c).cur = .proc i → (m.threads (.sched c)).AtSwitch i
  switched : ∀ i, m.contexts i ≠ .running → (m.threads (.proc i)).AtSwitch i
  saved : ∀ i, m.contexts i = .sched →
    ∀ b, (m.threads (.proc i)).left = some b → (m.threads (.proc i)).intena = b
  fresh : ∀ i, m.contexts i = .forkret → (m.threads (.proc i)).left = none
  locks : ∀ lk c, m.locks lk = some c ↔ lk ∈ (m.thread c).held

section Facts

variable {m : Machine} {c i : Nat} {k : Cpu} {t : Thread} {locks : Lock → Option Nat}

theorem ThreadInv.depth_of_atSwitch (h : ThreadInv t) (hat : t.AtSwitch i) : t.depth = 1 := by
  obtain ⟨hstage, hheld, hbare⟩ := hat
  rw [h.count, hstage, hheld, hbare]
  rfl

theorem Inv.thread (h : Inv m) (c : Nat) : ThreadInv (m.thread c) := h.threads (m.cpus c).cur

/-- Interrupts come in outside of the nesting only, at a point where they are enabled. -/
theorem CpuInv.of_sie (h : CpuInv k t) (ht : ThreadInv t) (hsie : k.sie = true) :
    t.depth = 0 ∧ t.stage.Interruptible := by
  have hdepth : t.depth = 0 := by
    by_contra hne
    rw [h.off (Nat.pos_of_ne_zero hne)] at hsie
    cases hsie
  have hcount := ht.count
  have hstage := h.stage
  refine ⟨hdepth, ?_⟩
  cases hst : t.stage with
  | idle => trivial
  | read lk old =>
    rw [hst] at hstage
    exact hstage.symm.trans hsie
  | off lk old =>
    rw [hst] at hstage
    exact absurd (hsie.symm.trans hstage.1) (by decide)
  | spin lk =>
    rw [hst, Stage.pending] at hcount
    omega
  | popping =>
    rw [hst, Stage.pending] at hcount
    omega

/-- A thread that some other CPU or nobody executes is not changed. -/
theorem threads_update_of_ne {u : Tid} (hne : u ≠ (m.cpus c).cur) :
    (m.update c k t locks).threads u = m.threads u := Function.update_of_ne hne ..

/-- A step inside of a thread. -/
theorem Inv.update (h : Inv m) (hcur : k.cur = (m.cpus c).cur) (hthread : ThreadInv t)
    (hcpu : CpuInv k t) (hintena : ∀ i, (m.cpus c).cur = .proc i → Restores k t)
    (hlocks : ∀ lk, locks lk = some c ↔ lk ∈ t.held)
    (hothers : ∀ lk c', c' ≠ c → (locks lk = some c' ↔ m.locks lk = some c')) :
    Inv (m.update c k t locks) := by
  have hcurs : ∀ c', ((m.update c k t locks).cpus c').cur = (m.cpus c').cur := by
    intro c'
    show (Function.update m.cpus c k c').cur = _
    rw [Function.update_apply]
    split
    · next heq => rw [hcur, heq]
    · rfl
  have hself : (m.update c k t locks).thread c = t := by
    show Function.update m.threads (m.cpus c).cur t ((m.update c k t locks).cpus c).cur = t
    rw [hcurs, Function.update_self]
  have hother : ∀ c', c' ≠ c → (m.update c k t locks).thread c' = m.thread c' := by
    intro c' hne
    show Function.update m.threads (m.cpus c).cur t ((m.update c k t locks).cpus c').cur = _
    rw [hcurs, Function.update_of_ne fun heq => hne (h.inj c' c heq)]
    rfl
  -- a thread that is not on a CPU is not the one that changes
  have haway : ∀ j, m.contexts j ≠ .running →
      (m.update c k t locks).threads (.proc j) = m.threads (.proc j) :=
    fun j hj => threads_update_of_ne fun heq => hj (h.running c j heq.symm)
  refine ⟨h.going, fun c₁ c₂ heq => ?_, fun c₁ c₂ heq => ?_, fun c' j heq => ?_,
    (Function.forall_update_iff m.threads fun _ t => ThreadInv t).mpr
      ⟨hthread, fun u _ => h.threads u⟩,
    (Function.forall_update_iff m.cpus fun c' k => CpuInv k ((m.update c _ t locks).thread c')).mpr
      ⟨?_, fun c' hne => ?_⟩,
    (Function.forall_update_iff m.cpus fun c' k => ∀ j, k.cur = .proc j →
      Restores k ((m.update c _ t locks).thread c')).mpr ⟨fun j heq => ?_, fun c' hne j heq => ?_⟩,
    fun c' j heq => ?_, fun j hj => ?_, fun j hj b hb => ?_, fun j hj => ?_, fun lk c' => ?_⟩
  · rw [hcurs, hcurs] at heq
    exact h.inj c₁ c₂ heq
  · rw [hcurs] at heq
    exact h.own c₁ c₂ heq
  · rw [hcurs] at heq
    exact h.running c' j heq
  · rw [hself]
    exact hcpu
  · rw [hother c' hne]
    exact h.cpus c'
  · rw [hself]
    exact hintena j (hcur ▸ heq)
  · rw [hother c' hne]
    exact h.intena c' j heq
  · rw [hcurs] at heq
    rw [threads_update_of_ne fun hsched => ?_]
    · exact h.waits c' j heq
    · -- the loop of `scheduler` on `c'` waits while a process is there
      have hc := h.own c c' hsched.symm
      rw [← hc, heq] at hsched
      cases hsched
  · rw [haway j hj]
    exact h.switched j hj
  · rw [haway j (ne_of_eq_of_ne hj nofun)] at hb ⊢
    exact h.saved j hj b hb
  · rw [haway j (ne_of_eq_of_ne hj nofun)]
    exact h.fresh j hj
  · by_cases hc : c' = c
    · rw [hc, hself]
      exact hlocks lk
    · rw [hother c' hc, ← h.locks lk c']
      exact hothers lk c' hc

/-- A step that leaves the locks alone. -/
theorem Inv.set (h : Inv m) (hcur : k.cur = (m.cpus c).cur) (hthread : ThreadInv t)
    (hcpu : CpuInv k t) (hintena : ∀ i, (m.cpus c).cur = .proc i → Restores k t)
    (hheld : t.held = (m.thread c).held) :
    Inv (m.set c k t) := by
  refine h.update hcur hthread hcpu hintena (fun lk => ?_) fun _ _ _ => Iff.rfl
  rw [hheld]
  exact h.locks lk c

/-- The invariant holds afterwards, and no nesting was taken back. -/
structure Grows (m m' : Machine) : Prop where
  inv : Inv m'
  depth : ∀ u, (m.threads u).depth ≤ (m'.threads u).depth

theorem Inv.grows (h : Inv (m.update c k t locks)) (hle : (m.thread c).depth ≤ t.depth) :
    Grows m (m.update c k t locks) where
  inv := h
  depth := by
    refine (Function.forall_update_iff m.threads fun u t => (m.threads u).depth ≤ t.depth).mpr
      ⟨hle, ?_⟩
    exact fun u _ => Nat.le_refl _

end Facts

/-! ## Steps of a thread -/

section Steps

variable {m m' : Machine} {c i : Nat} {t : Thread}

theorem inv_intr (h : Inv m) (on : Bool) (hstage : (m.thread c).stage = .idle)
    (hdepth : (m.thread c).depth = 0) :
    Grows m (m.set c { m.cpus c with sie := on } (m.thread c)) := by
  refine Inv.grows ?_ (Nat.le_refl _)
  refine h.set rfl (h.threads _) ⟨(h.cpus c).noff, fun hpos => ?_, ?_⟩ (fun j hj hpos => ?_) rfl
  · omega
  · rw [hstage]
    trivial
  · omega

theorem inv_trap (h : Inv m) (hsie : (m.cpus c).sie = true) :
    Grows m (m.set c { m.cpus c with sie := false }
      { m.thread c with stage := .idle, traps := (m.thread c).stage :: (m.thread c).traps }) := by
  have hthread := h.thread c
  obtain ⟨hdepth, hinterruptible⟩ := (h.cpus c).of_sie hthread hsie
  have hcount := hthread.count
  refine Inv.grows ?_ (Nat.le_refl _)
  refine h.set rfl ⟨?_, fun st hst => ?_, hthread.nodup, nofun⟩
    ⟨(h.cpus c).noff, fun _ => rfl, trivial⟩
    (fun j hj => h.intena c j hj) rfl
  · show (m.thread c).depth = (m.thread c).bare + (m.thread c).held.length + 0
    omega
  · rcases List.mem_cons.mp hst with rfl | hst
    · exact hinterruptible
    · exact hthread.traps st hst

theorem inv_sret (h : Inv m) {st : Stage} {rest : List Stage}
    (htraps : (m.thread c).traps = st :: rest) (hdepth : (m.thread c).depth = 0) :
    Grows m (m.set c { m.cpus c with sie := true }
      { m.thread c with stage := st, traps := rest }) := by
  have hthread := h.thread c
  have hst : st.Interruptible := hthread.traps st (by rw [htraps]; exact List.mem_cons_self)
  have hcount := hthread.count
  have hheld : (m.thread c).held = [] := List.eq_nil_of_length_eq_zero (by omega)
  refine Inv.grows ?_ (Nat.le_refl _)
  refine h.set rfl ⟨?_, fun st' hst' => ?_, hthread.nodup, fun l _ => ?_⟩
    ⟨(h.cpus c).noff, fun hpos => absurd hpos (by rw [hdepth]; exact Nat.lt_irrefl 0), ?_⟩
    (fun j hj hpos => absurd hpos (by rw [hdepth]; exact Nat.lt_irrefl 0)) rfl
  · show (m.thread c).depth = (m.thread c).bare + (m.thread c).held.length + st.pending
    cases st <;> simp only [Stage.pending] <;> first | omega | cases hst
  · exact hthread.traps st' (by rw [htraps]; exact List.mem_cons_of_mem _ hst')
  · show l ∉ (m.thread c).held
    rw [hheld]
    exact List.not_mem_nil
  · cases st with
    | idle => trivial
    | read lk old => exact Eq.symm hst
    | off lk old => cases hst
    | spin lk => trivial
    | popping => trivial

theorem inv_push (h : Inv m) (hstage : (m.thread c).stage = .idle)
    (hlk : ∀ l ∈ lk, l ∉ (m.thread c).held) :
    Grows m (m.set c (m.cpus c) { m.thread c with stage := .read lk (m.cpus c).sie }) := by
  have hthread := h.thread c
  have hcount := hthread.count
  rw [hstage] at hcount
  refine Inv.grows ?_ (Nat.le_refl _)
  exact h.set rfl ⟨hcount, hthread.traps, hthread.nodup, hlk⟩ ⟨(h.cpus c).noff, (h.cpus c).off, rfl⟩
    (fun j hj => h.intena c j hj) rfl

theorem inv_pushOff (h : Inv m) (hstage : (m.thread c).stage = .read lk old) :
    Grows m (m.set c { m.cpus c with sie := false } { m.thread c with
      stage := .off lk old
      left := if (m.thread c).depth = 0 then some (m.cpus c).sie else (m.thread c).left }) := by
  have hthread := h.thread c
  have hcount := hthread.count
  have hwanted := hthread.wanted
  have hold := (h.cpus c).stage
  rw [hstage] at hcount hwanted hold
  have hold : (m.cpus c).sie = old := hold
  refine Inv.grows ?_ (Nat.le_refl _)
  refine h.set rfl ⟨hcount, hthread.traps, hthread.nodup, hwanted⟩
    ⟨(h.cpus c).noff, fun _ => rfl, rfl, fun hzero => ?_⟩ (fun j hj hpos b hb => ?_) rfl
  · rw [hold]
    exact if_pos hzero
  · have hpos : 0 < (m.thread c).depth := hpos
    have hb : (if (m.thread c).depth = 0 then some (m.cpus c).sie else (m.thread c).left) =
        some b := hb
    rw [if_neg (by omega)] at hb
    exact h.intena c j hj hpos b hb

/-- `push_off` counts, in the thread and in the CPU. -/
theorem inv_counted (h : Inv m) (hstage : (m.thread c).stage = .off lk old)
    {t : Thread} (hcount : t.depth = t.bare + t.held.length + t.stage.pending)
    (hdepth : t.depth = (m.thread c).depth + 1) (hleft : t.left = (m.thread c).left)
    (htraps : t.traps = (m.thread c).traps) (hheld : t.held = (m.thread c).held)
    (hwanted : t.stage.wanted = none) (hagrees : ∀ k, t.stage.Agrees k t) :
    Grows m (m.set c { m.cpus c with
      intena := if (m.cpus c).noff = 0 then old else (m.cpus c).intena
      noff := (m.cpus c).noff + 1 } t) := by
  have hthread := h.thread c
  have hnoff := (h.cpus c).noff
  have hoff := (h.cpus c).stage
  rw [hstage] at hoff
  obtain ⟨hsie, hold⟩ := hoff
  refine Inv.grows ?_ (hdepth ▸ Nat.le_succ _)
  refine h.set rfl ⟨hcount, ?_, ?_, ?_⟩ ⟨?_, fun _ => hsie, hagrees _⟩
    (fun j hj hpos b hb => ?_) hheld
  · rw [htraps]
    exact hthread.traps
  · rw [hheld]
    exact hthread.nodup
  · rw [hwanted]
    nofun
  · show (m.cpus c).noff + 1 = t.depth
    omega
  · show (if (m.cpus c).noff = 0 then old else (m.cpus c).intena) = b
    rw [hleft] at hb
    split
    · next hzero =>
      rw [hold (by omega)] at hb
      exact Option.some.inj hb
    · exact h.intena c j hj (by omega) b hb

theorem inv_pushDone (h : Inv m) (hstage : (m.thread c).stage = .off lk old) :
    Grows m (pushDone m c lk old) := by
  have hthread := h.thread c
  have hcount := hthread.count
  have hwanted := hthread.wanted
  rw [hstage] at hcount hwanted
  have hcount : (m.thread c).depth = (m.thread c).bare + (m.thread c).held.length + 0 := hcount
  unfold pushDone
  cases lk with
  | none =>
    refine inv_counted h hstage ?_ rfl rfl rfl rfl rfl fun _ => trivial
    show (m.thread c).depth + 1 = (m.thread c).bare + 1 + (m.thread c).held.length + 0
    omega
  | some l =>
    dsimp only
    rw [if_neg fun heq => hwanted l rfl ((h.locks l c).mp heq)]
    refine inv_counted h hstage ?_ rfl rfl rfl rfl rfl fun _ => trivial
    show (m.thread c).depth + 1 = (m.thread c).bare + (m.thread c).held.length + 1
    omega

theorem inv_take (h : Inv m) {lk : Lock} (hstage : (m.thread c).stage = .spin lk)
    (hfree : m.locks lk = none) :
    Grows m (m.update c (m.cpus c)
      { m.thread c with stage := .idle, held := lk :: (m.thread c).held }
      (Function.update m.locks lk (some c))) := by
  have hthread := h.thread c
  have hcount := hthread.count
  rw [hstage] at hcount
  have hcount : (m.thread c).depth = (m.thread c).bare + (m.thread c).held.length + 1 := hcount
  have hnew : lk ∉ (m.thread c).held := fun hmem => by
    rw [← h.locks lk c, hfree] at hmem
    cases hmem
  refine Inv.grows ?_ (Nat.le_refl _)
  refine h.update rfl ⟨?_, hthread.traps, List.nodup_cons.mpr ⟨hnew, hthread.nodup⟩, nofun⟩
    ⟨(h.cpus c).noff, (h.cpus c).off, trivial⟩ (fun j hj => h.intena c j hj) (fun l => ?_)
      fun l c' hne => ?_
  · show (m.thread c).depth = (m.thread c).bare + ((m.thread c).held.length + 1) + 0
    omega
  · rw [Function.update_apply]
    split
    · next heq => simp [heq]
    · next hne =>
      rw [h.locks l c, List.mem_cons, or_iff_right hne]
  · rw [Function.update_apply]
    split
    · next heq => simp [heq, hfree, hne.symm]
    · exact Iff.rfl

theorem inv_release (h : Inv m) {lk : Lock} (hstage : (m.thread c).stage = .idle)
    (hheld : lk ∈ (m.thread c).held) :
    Grows m (m.update c (m.cpus c)
      { m.thread c with stage := .popping, held := (m.thread c).held.erase lk }
      (Function.update m.locks lk none)) := by
  have hthread := h.thread c
  have hcount := hthread.count
  rw [hstage] at hcount
  have hcount : (m.thread c).depth = (m.thread c).bare + (m.thread c).held.length + 0 := hcount
  have hlen := List.length_erase_of_mem hheld
  have hpos := List.length_pos_of_mem hheld
  have hlock := (h.locks lk c).mpr hheld
  refine Inv.grows ?_ (Nat.le_refl _)
  refine h.update rfl ⟨?_, hthread.traps, hthread.nodup.erase lk, nofun⟩
    ⟨(h.cpus c).noff, (h.cpus c).off, trivial⟩ (fun j hj => h.intena c j hj) (fun l => ?_)
      fun l c' hne => ?_
  · show (m.thread c).depth = (m.thread c).bare + ((m.thread c).held.erase lk).length + 1
    omega
  · rw [hthread.nodup.mem_erase_iff, Function.update_apply]
    split
    · next heq => simp [heq]
    · next hne =>
      rw [h.locks l c, and_iff_right hne]
  · rw [Function.update_apply]
    split
    · next heq => simp [heq, hlock, hne.symm]
    · exact Iff.rfl

/-- `pop_off` does not panic, and enables interrupts if it ends the nesting and they were enabled
before it. -/
theorem popOff_eq (h : Inv m) (hpos : 0 < (m.thread c).depth) (t : Thread) :
    popOff m c t = m.set c { m.cpus c with
      noff := (m.cpus c).noff - 1
      sie := decide ((m.cpus c).noff - 1 = 0) && (m.cpus c).intena }
        { t with depth := t.depth - 1 } := by
  have hoff := (h.cpus c).off hpos
  have hnoff := (h.cpus c).noff
  unfold popOff
  rw [if_neg]
  rw [hoff]
  rintro (hbad | hbad)
  · cases hbad
  · omega

theorem inv_popOff (h : Inv m) {t : Thread} (hcount : t.depth = t.bare + t.held.length + 1)
    (hstage : t.stage = .idle) (hdepth : t.depth = (m.thread c).depth)
    (hleft : t.left = (m.thread c).left) (htraps : t.traps = (m.thread c).traps)
    (hheld : t.held = (m.thread c).held) : Inv (popOff m c t) := by
  have hthread := h.thread c
  have hnoff := (h.cpus c).noff
  rw [popOff_eq h (by omega)]
  refine h.set rfl ⟨?_, ?_, ?_, ?_⟩ ⟨?_, fun hpos => ?_, ?_⟩ (fun j hj hpos b hb => ?_) hheld
  · show t.depth - 1 = t.bare + t.held.length + t.stage.pending
    rw [hstage]
    show t.depth - 1 = t.bare + t.held.length + 0
    omega
  · show ∀ st ∈ t.traps, _
    rw [htraps]
    exact hthread.traps
  · show t.held.Nodup
    rw [hheld]
    exact hthread.nodup
  · show ∀ l ∈ t.stage.wanted, _
    rw [hstage]
    nofun
  · show (m.cpus c).noff - 1 = t.depth - 1
    omega
  · have hpos : 0 < t.depth - 1 := hpos
    show (decide ((m.cpus c).noff - 1 = 0) && (m.cpus c).intena) = false
    rw [decide_eq_false (by omega), Bool.false_and]
  · show t.stage.Agrees _ _
    rw [hstage]
    trivial
  · have hb : t.left = some b := hb
    exact h.intena c j hj (by omega) b (hleft ▸ hb)

end Steps

/-! ## Switches -/

section Switches

variable {m : Machine} {c i : Nat}

theorem threadInv_newThread (i : Nat) : ThreadInv (newThread i) where
  count := rfl
  traps := nofun
  nodup := List.nodup_singleton _
  wanted := nofun

theorem ThreadInv.cpuInv {k : Cpu} {t : Thread} (h : ThreadInv t) (hat : t.AtSwitch i)
    (hnoff : k.noff = 1) (hsie : k.sie = false) : CpuInv k t := by
  refine ⟨?_, fun _ => hsie, ?_⟩
  · rw [hnoff, h.depth_of_atSwitch hat]
  · rw [hat.1]
    trivial

/-- A slot gets a new thread and context. -/
theorem forall_slot (P : Nat → Thread → Context → Prop) {t : Thread} {x : Context} (hself : P i t x)
    (hother : ∀ j, P j (m.threads (.proc j)) (m.contexts j)) (j : Nat) :
    P j (Function.update m.threads (.proc i) t (.proc j)) (Function.update m.contexts i x j) := by
  rcases eq_or_ne j i with rfl | hne
  · rw [Function.update_self, Function.update_self]
    exact hself
  · rw [Function.update_of_ne hne, Function.update_of_ne fun hbad => hne (Tid.proc.inj hbad)]
    exact hother j

/-- CPU `c` switches between its `scheduler` and slot `i`: both are at their `swtch`, with
`p->lock` of the slot. -/
theorem Inv.switch (h : Inv m) {k : Cpu} {t : Thread} {x : Context}
    (hon : ∀ c', (m.cpus c').cur = .proc i → c' = c)
    (hcur : (k.cur = .proc i ∧ x = .running) ∨ (k.cur = .sched c ∧ x = .sched))
    (hat : (m.thread c).AtSwitch i) (hsched : (m.threads (.sched c)).AtSwitch i) (ht : t.AtSwitch i)
    (hthread : ThreadInv t) (hnoff : k.noff = 1) (hsie : k.sie = false) (hrestores : Restores k t)
    (hsaved : x = .sched → ∀ b, t.left = some b → t.intena = b) :
    Inv { m with
      cpus := Function.update m.cpus c k
      threads := Function.update m.threads (.proc i) t
      contexts := Function.update m.contexts i x } := by
  let threads := Function.update m.threads (.proc i) t
  have hscheds : ∀ c', threads (.sched c') = m.threads (.sched c') := fun c' =>
    Function.update_of_ne (by nofun) ..
  have hother : ∀ c', c' ≠ c → threads (m.cpus c').cur = m.thread c' := fun c' hc =>
    Function.update_of_ne (fun hbad => hc (hon c' hbad)) ..
  -- whoever is on the CPU afterwards is at a switch
  have hself : ThreadInv (threads k.cur) ∧ (threads k.cur).AtSwitch i := by
    rcases hcur with ⟨hcur, -⟩ | ⟨hcur, -⟩
    · rw [hcur, show threads (.proc i) = t from Function.update_self ..]
      exact ⟨hthread, ht⟩
    · rw [hcur, hscheds]
      exact ⟨h.threads _, hsched⟩
  have hnew : ∀ c', c' ≠ c → (m.cpus c').cur ≠ k.cur := fun c' hc heq => by
    rcases hcur with ⟨hcur, -⟩ | ⟨hcur, -⟩
    · exact hc (hon c' (heq.trans hcur))
    · exact hc (h.own c' c (heq.trans hcur)).symm
  have hcpus : ∀ {P : Nat → Cpu → Prop}, P c k → (∀ c', c' ≠ c → P c' (m.cpus c')) →
      ∀ c', P c' (Function.update m.cpus c k c') := fun hc hrest =>
    (Function.forall_update_iff m.cpus _).mpr ⟨hc, hrest⟩
  have hproc : ∀ {j}, k.cur = .proc j → j = i ∧ x = .running := fun hj => by
    rcases hcur with ⟨hcur, hx⟩ | ⟨hcur, -⟩ <;> cases hj.symm.trans hcur
    exact ⟨rfl, hx⟩
  refine ⟨h.going, ?_, ?_, ?_,
    (Function.forall_update_iff m.threads fun _ t => ThreadInv t).mpr
      ⟨hthread, fun u _ => h.threads u⟩,
    hcpus (P := fun _ k => CpuInv k (threads k.cur)) (hself.1.cpuInv hself.2 hnoff hsie)
      fun c' hc => by rw [hother c' hc]; exact h.cpus c',
    ?_, ?_, forall_slot (fun j t x => x ≠ .running → t.AtSwitch j) (fun _ => ht) h.switched,
    forall_slot (fun _ t x => x = .sched → ∀ b, t.left = some b → t.intena = b) hsaved h.saved,
    forall_slot (fun _ t x => x = .forkret → t.left = none) (fun hx => ?_) h.fresh, fun lk => ?_⟩
  · refine hcpus (P := fun c₁ k₁ => ∀ c₂, k₁.cur = (Function.update m.cpus c k c₂).cur → c₁ = c₂)
      (hcpus (P := fun c₂ k₂ => k.cur = k₂.cur → c = c₂) (fun _ => rfl)
        fun c₂ hc heq => absurd heq.symm (hnew c₂ hc)) fun c₁ hc => ?_
    exact hcpus (P := fun c₂ k₂ => (m.cpus c₁).cur = k₂.cur → c₁ = c₂)
      (fun heq => absurd heq (hnew c₁ hc)) fun c₂ _ => h.inj c₁ c₂
  · refine hcpus (P := fun c₁ k => ∀ c₂, k.cur = .sched c₂ → c₂ = c₁) (fun c₂ heq => ?_)
      fun c' _ => h.own c'
    rcases hcur with ⟨hcur, -⟩ | ⟨hcur, -⟩ <;> cases heq.symm.trans hcur
    rfl
  · refine hcpus
      (P := fun _ k => ∀ j, k.cur = .proc j → Function.update m.contexts i x j = .running)
      (fun j heq => ?_) fun c' hc j heq => ?_
    · obtain ⟨rfl, hx⟩ := hproc heq
      rw [Function.update_self, hx]
    · have hji : j ≠ i := fun hji => hc (hon c' (hji ▸ heq))
      rw [Function.update_of_ne hji]
      exact h.running c' j heq
  · refine hcpus (P := fun _ k => ∀ j, k.cur = .proc j → Restores k (threads k.cur))
      (fun j heq => ?_)
      fun c' hc j heq => ?_
    · obtain ⟨rfl, -⟩ := hproc heq
      rw [heq, show threads (.proc j) = t from Function.update_self ..]
      exact hrestores
    · rw [hother c' hc]
      exact h.intena c' j heq
  · refine hcpus (P := fun c' k => ∀ j, k.cur = .proc j → (threads (.sched c')).AtSwitch j)
      (fun j heq => ?_) fun c' _ j heq => ?_
    · obtain ⟨rfl, -⟩ := hproc heq
      rw [hscheds]
      exact hsched
    · rw [hscheds]
      exact h.waits c' j heq
  · rcases hcur with ⟨-, hx'⟩ | ⟨-, hx'⟩ <;> cases hx.symm.trans hx'
  · refine hcpus (P := fun c' k => m.locks lk = some c' ↔ lk ∈ (threads k.cur).held) ?_
      fun c' hc => ?_
    · rw [hself.2.2.1, h.locks, hat.2.1]
    · rw [hother c' hc]
      exact h.locks lk c'

theorem Inv.atSwitch (h : Inv m) (hat : (m.thread c).AtSwitch i) :
    (m.thread c).depth = 1 ∧ (m.cpus c).noff = 1 ∧ (m.cpus c).sie = false := by
  have hdepth := (h.thread c).depth_of_atSwitch hat
  exact ⟨hdepth, (h.cpus c).noff.trans hdepth, (h.cpus c).off (hdepth ▸ Nat.zero_lt_one)⟩

/-- `sched` does not panic. -/
theorem inv_sched (h : Inv m) (hcur : (m.cpus c).cur = .proc i) (hat : (m.thread c).AtSwitch i) :
    Grows m (sched m c i) := by
  have hthread : m.thread c = m.threads (.proc i) := by rw [Machine.thread, hcur]
  have hinv := h.thread c
  obtain ⟨hdepth, hnoff, hsie⟩ := h.atSwitch hat
  have hlock : m.locks (.proc i) = some c := by
    rw [h.locks, hat.2.1]
    exact List.mem_singleton_self _
  have hrestores := h.intena c i hcur
  have hwaits := h.waits c i hcur
  have hchecks : ¬ (m.locks (.proc i) ≠ some c ∨ (m.cpus c).noff ≠ 1 ∨ (m.cpus c).sie = true) := by
    simp [hlock, hnoff, hsie]
  unfold sched
  dsimp only
  rw [if_neg hchecks]
  rw [hthread] at hat hinv hdepth hrestores
  refine ⟨h.switch (fun c' hc' => h.inj c' c (hc'.trans hcur.symm)) (.inr ⟨rfl, rfl⟩)
    (hthread ▸ hat) hwaits hat
    ⟨hinv.count, hinv.traps, hinv.nodup, hinv.wanted⟩ hnoff hsie hrestores fun _ b hb => ?_, ?_⟩
  · exact hrestores (by omega) b hb
  · refine (Function.forall_update_iff m.threads fun u t => (m.threads u).depth ≤ t.depth).mpr
      ⟨Nat.le_refl _, ?_⟩
    exact fun u _ => Nat.le_refl _

theorem inv_swtch (h : Inv m) (hcur : (m.cpus c).cur = .sched c) (hat : (m.thread c).AtSwitch i)
    (hi : m.contexts i ≠ .running) : Grows m (swtch m c i) := by
  have hthread : m.thread c = m.threads (.sched c) := by rw [Machine.thread, hcur]
  obtain ⟨-, hnoff, hsie⟩ := h.atSwitch hat
  refine ⟨?_, fun u => Nat.le_refl _⟩
  have hswitch := h.switch (x := .running) (t := m.threads (.proc i)) (k := { m.cpus c with
    cur := .proc i
    intena := if m.contexts i = .sched then (m.threads (.proc i)).intena else (m.cpus c).intena })
    (fun c' hc' => absurd (h.running c' i hc') hi) (.inl ⟨rfl, rfl⟩) hat (hthread ▸ hat)
      (h.switched i hi)
    (h.threads _) hnoff hsie (fun _ b hb => ?_) nofun
  · rw [Function.update_eq_self] at hswitch
    exact hswitch
  · show (if m.contexts i = .sched then (m.threads (.proc i)).intena else (m.cpus c).intena) = b
    split
    · next hcontext => exact h.saved i hcontext b hb
    · next hcontext =>
      -- a new thread has not left the nesting yet
      have hforkret : m.contexts i = .forkret := by
        cases hx : m.contexts i with
        | forkret => rfl
        | sched => exact absurd hx hcontext
        | running => exact absurd hx hi
      rw [h.fresh i hforkret] at hb
      cases hb

theorem inv_alloc (h : Inv m) (hi : m.contexts i = .sched) :
    Inv { m with
      threads := Function.update m.threads (.proc i) (newThread i)
      contexts := Function.update m.contexts i .forkret } := by
  have haway : ∀ c, (m.cpus c).cur ≠ .proc i := fun c hc => by
    have hrunning := h.running c i hc
    rw [hi] at hrunning
    cases hrunning
  let threads := Function.update m.threads (.proc i) (newThread i)
  have hthread : ∀ c, threads (m.cpus c).cur = m.thread c :=
    fun c => Function.update_of_ne (haway c) ..
  refine ⟨h.going, h.inj, h.own, fun c j hj => ?_,
    (Function.forall_update_iff m.threads fun _ t => ThreadInv t).mpr
      ⟨threadInv_newThread i, fun u _ => h.threads u⟩,
    fun c => ?_, fun c j hj => ?_, fun c j hj => ?_,
    forall_slot (fun j t x => x ≠ .running → t.AtSwitch j) (fun _ => ⟨rfl, rfl, rfl⟩) h.switched,
    forall_slot (fun _ t x => x = .sched → ∀ b, t.left = some b → t.intena = b) nofun h.saved,
    forall_slot (fun _ t x => x = .forkret → t.left = none) (fun _ => rfl) h.fresh,
    fun lk c => ?_⟩
  · have hji : j ≠ i := fun hji => haway c (hji ▸ hj)
    exact (Function.update_of_ne hji ..).trans (h.running c j hj)
  · show CpuInv (m.cpus c) (threads (m.cpus c).cur)
    rw [hthread]
    exact h.cpus c
  · show Restores (m.cpus c) (threads (m.cpus c).cur)
    rw [hthread]
    exact h.intena c j hj
  · have hsched : Tid.sched c ≠ .proc i := nofun
    have hkept : threads (.sched c) = m.threads (.sched c) := Function.update_of_ne hsched ..
    exact hkept.symm ▸ h.waits c j hj
  · show _ ↔ lk ∈ (threads (m.cpus c).cur).held
    rw [hthread]
    exact h.locks lk c

end Switches

/-! ## Runs -/

section Runs

variable {m m' : Machine} {a : Act} {acts : List Act}

theorem inv_init : Inv init where
  going := rfl
  inj _ _ heq := Tid.sched.inj heq
  own _ _ heq := (Tid.sched.inj heq).symm
  running := nofun
  threads
    | .sched _ => ⟨rfl, nofun, List.nodup_nil, nofun⟩
    | .proc i => threadInv_newThread i
  cpus _ := ⟨rfl, nofun, trivial⟩
  intena := nofun
  waits := nofun
  switched _ _ := ⟨rfl, rfl, rfl⟩
  saved := nofun
  fresh _ _ := rfl
  locks _ _ := ⟨nofun, nofun⟩

/-- What `pop_off` is called for. -/
theorem pop_cases {c : Nat} (h : Inv m)
    (hstep : threadStep m c (m.cpus c) (m.thread c) (.pop c) = some m') :
    ∃ t : Thread, m' = popOff m c t ∧ t.depth = t.bare + t.held.length + 1 ∧ t.stage = .idle ∧
      t.depth = (m.thread c).depth ∧ t.left = (m.thread c).left ∧ t.traps = (m.thread c).traps ∧
      t.held = (m.thread c).held := by
  have hinv := h.thread c
  have hcount := hinv.count
  simp only [threadStep] at hstep
  split at hstep
  · next hstage =>
    rw [hstage] at hcount
    exact ⟨_, (Option.some.inj hstep).symm, hcount, rfl, rfl, rfl, rfl, rfl⟩
  · next hstage =>
    obtain ⟨hpos, rfl⟩ := of_guard hstep
    rw [hstage] at hcount
    have hcount : (m.thread c).depth = (m.thread c).bare + (m.thread c).held.length + 0 := hcount
    refine ⟨_, rfl, ?_, hstage, rfl, rfl, rfl, rfl⟩
    show (m.thread c).depth = (m.thread c).bare - 1 + (m.thread c).held.length + 1
    omega
  · cases hstep

/-- Only `pop_off` takes the nesting of a thread back. -/
theorem grows_threadStep {c : Nat} (h : Inv m) (hpop : ∀ c', a ≠ .pop c')
    (hstep : threadStep m c (m.cpus c) (m.thread c) a = some m') : Grows m m' := by
  cases a with
  | intr _ on =>
    obtain ⟨hguard, rfl⟩ := of_guard hstep
    exact inv_intr h on hguard.1 hguard.2
  | trap _ =>
    obtain ⟨hsie, rfl⟩ := of_guard hstep
    exact inv_trap h hsie
  | sret _ =>
    simp only [threadStep] at hstep
    split at hstep
    · next htraps =>
      obtain ⟨hguard, rfl⟩ := of_guard hstep
      exact inv_sret h htraps hguard.2
    · cases hstep
  | push _ lk =>
    obtain ⟨hguard, rfl⟩ := of_guard hstep
    exact inv_push h hguard.1 hguard.2
  | pushOff _ =>
    simp only [threadStep] at hstep
    split at hstep
    · next hstage =>
      cases hstep
      exact inv_pushOff h hstage
    · cases hstep
  | pushDone _ =>
    simp only [threadStep] at hstep
    split at hstep
    · next hstage =>
      cases hstep
      exact inv_pushDone h hstage
    · cases hstep
  | take _ =>
    simp only [threadStep] at hstep
    split at hstep
    · next hstage =>
      obtain ⟨hfree, rfl⟩ := of_guard hstep
      exact inv_take h hstage hfree
    · cases hstep
  | release _ lk =>
    simp only [threadStep] at hstep
    split at hstep
    · next hguard =>
      rw [if_neg (not_not.mpr ((h.locks lk c).mpr hguard.2))] at hstep
      cases hstep
      exact inv_release h hguard.1 hguard.2
    · cases hstep
  | pop c' => exact absurd rfl (hpop c')
  | sched _ i =>
    obtain ⟨hguard, rfl⟩ := of_guard hstep
    exact inv_sched h hguard.1 hguard.2
  | swtch _ i =>
    obtain ⟨hguard, rfl⟩ := of_guard hstep
    exact inv_swtch h hguard.1 hguard.2.1 hguard.2.2
  | alloc i => cases hstep

/-- A step is one of a thread, or makes a new one. -/
theorem step_cases (h : Inv m) (hstep : step m a = some m') :
    (∃ i, a = .alloc i ∧ m.contexts i = .sched ∧ m' = { m with
      threads := Function.update m.threads (.proc i) (newThread i)
      contexts := Function.update m.contexts i .forkret }) ∨
    threadStep m a.cpu (m.cpus a.cpu) (m.thread a.cpu) a = some m' := by
  unfold step at hstep
  rw [if_neg (by rw [h.going]; nofun)] at hstep
  split at hstep
  · obtain ⟨hi, rfl⟩ := of_guard hstep
    exact .inl ⟨_, rfl, hi, rfl⟩
  · exact .inr hstep

theorem inv_step (h : Inv m) (hstep : step m a = some m') : Inv m' := by
  obtain ⟨i, -, hi, rfl⟩ | hstep := step_cases h hstep
  · exact inv_alloc h hi
  · by_cases hpop : ∃ c, a = .pop c
    · obtain ⟨c, rfl⟩ := hpop
      obtain ⟨t, rfl, hcount, hstage, hdepth, hleft, htraps, hheld⟩ := pop_cases h hstep
      exact inv_popOff h hcount hstage hdepth hleft htraps hheld
    · exact (grows_threadStep h (fun c heq => hpop ⟨c, heq⟩) hstep).inv

theorem inv_of_run (hrun : exec step init acts = some m) : Inv m :=
  Lib.Run.inv_of_run (fun _ _ _ h hstep => inv_step h hstep) inv_init hrun

/-- The end of the nesting of a thread: interrupts are what they were before it. -/
theorem pop_restores {c i : Nat} {b : Bool} (h : Inv m)
    (hstep : threadStep m c (m.cpus c) (m.thread c) (.pop c) = some m')
    (hpos : 0 < (m.threads (.proc i)).depth) (hzero : (m'.threads (.proc i)).depth = 0)
    (hleft : (m.threads (.proc i)).left = some b) :
    (m.cpus c).cur = .proc i ∧ (m'.cpus c).cur = .proc i ∧ (m'.cpus c).sie = b := by
  obtain ⟨t, rfl, hcount, -, hdepth, -⟩ := pop_cases h hstep
  rw [popOff_eq h (by omega)] at hzero ⊢
  generalize hk : ({ m.cpus c with
    noff := (m.cpus c).noff - 1
    sie := decide ((m.cpus c).noff - 1 = 0) && (m.cpus c).intena } : Cpu) = k at hzero
  have hthreads :
      (Function.update m.threads (m.cpus c).cur { t with depth := t.depth - 1 }
        (.proc i)).depth = 0 :=
    hzero
  have hcur : (m.cpus c).cur = .proc i := by
    by_contra hne
    rw [Function.update_of_ne fun heq => hne heq.symm] at hthreads
    omega
  have hthread : m.thread c = m.threads (.proc i) := by rw [Machine.thread, hcur]
  rw [hcur, Function.update_self] at hthreads
  have hone : t.depth - 1 = 0 := hthreads
  have hnoff := (h.cpus c).noff
  have hself : (m.set c k { t with depth := t.depth - 1 }).cpus c = k := Function.update_self ..
  rw [hself, ← hk]
  refine ⟨hcur, hcur, ?_⟩
  show (decide ((m.cpus c).noff - 1 = 0) && (m.cpus c).intena) = b
  rw [decide_eq_true (by omega), Bool.true_and]
  exact h.intena c i hcur (by omega) b (by rw [hthread]; exact hleft)

/-- In every run nothing panics, interrupts are off on every CPU with `noff > 0`, and when the
nesting of the thread of a process returns to zero, interrupts are enabled on its CPU exactly
if they were enabled when it left zero, wherever that was. -/
theorem interrupts_survive (hrun : exec step init acts = some m) :
    m.panicked = false ∧ (∀ c, 0 < (m.cpus c).noff → (m.cpus c).sie = false) ∧
    ∀ a m' i b, step m a = some m' → 0 < (m.threads (.proc i)).depth →
      (m'.threads (.proc i)).depth = 0 → (m.threads (.proc i)).left = some b →
      ∃ c, (m.cpus c).cur = .proc i ∧ (m'.cpus c).cur = .proc i ∧ (m'.cpus c).sie = b := by
  have h := inv_of_run hrun
  refine ⟨h.going, fun c hpos => (h.cpus c).off ((h.cpus c).noff ▸ hpos),
    fun a m' i b hstep hpos hzero hleft => ?_⟩
  obtain ⟨j, -, -, rfl⟩ | hthread := step_cases h hstep
  · -- a new thread is inside of a nesting
    have hthreads : (Function.update m.threads (.proc j) (newThread j) (.proc i)).depth = 0 := hzero
    rw [Function.update_apply] at hthreads
    split at hthreads
    · cases hthreads
    · omega
  · obtain ⟨c, rfl⟩ : ∃ c, a = .pop c := by
      by_contra hne
      have hle := (grows_threadStep h (fun c heq => hne ⟨c, heq⟩) hthread).depth (.proc i)
      omega
    exact ⟨c, pop_restores h hthread hpos hzero hleft⟩

/-- A process takes its lock on CPU 0 with interrupts enabled, and gives it back on CPU 1. -/
def migration : List Act :=
  [.push 0 (some (.proc 5)), .pushOff 0, .pushDone 0, .take 0, .swtch 0 5,
    .release 0 (.proc 5), .pop 0, .intr 0 true, .push 0 (some (.proc 5)), .pushOff 0, .pushDone 0,
    .take 0, .sched 0 5, .release 0 (.proc 5), .pop 0, .push 1 (some (.proc 5)), .pushOff 1,
    .pushDone 1, .take 1, .swtch 1 5, .release 1 (.proc 5)]

theorem interrupts_survive_migration : ∃ m m', exec step init migration = some m ∧
    (m.cpus 1).sie = false ∧ step m (.pop 1) = some m' ∧ ∃ c, (m'.cpus c).cur = .proc 5 ∧
    (m'.cpus c).sie = true := by
  have hcheck : runCheck step (fun _ _ => true) (fun m => decide (
      0 < (m.threads (.proc 5)).depth ∧ (m.threads (.proc 5)).left = some true ∧
      0 < (m.cpus 1).noff ∧
      (step m (.pop 1)).map (fun m' => (m'.threads (.proc 5)).depth) = some 0)) init migration =
        true := by
    decide +kernel
  obtain ⟨-, m, hrun, hm⟩ := of_runCheck hcheck
  obtain ⟨hpos, hleft, hnoff, hmap⟩ := of_decide_eq_true hm
  obtain ⟨m', hstep, hzero⟩ := Option.map_eq_some_iff.mp hmap
  obtain ⟨-, hoff, hrestores⟩ := interrupts_survive hrun
  obtain ⟨c, -, hcur, hsie⟩ := hrestores _ m' 5 true hstep hpos hzero hleft
  exact ⟨m, m', hrun, hoff 1 hnoff, hstep, c, hcur, hsie⟩

end Runs

end Xv6.Intr
