import Xv6.Lib.Monitor

/-!
# Sleep locks

`acquiresleep` and `releasesleep` of `kernel/sleeplock.c`, with the inner spin lock
`lk->lk` as the lock of the monitor and `lk` as its only channel.  `sleep` gives up
the spin lock with the lock of the own process slot held, and only then sleeps.

* `Sleeplock`, `Place`, `instr`: the lock and the code.
* `Sys`, `step`: any number of processes.  `acquiresleep` may be called at any time,
  `releasesleep` by the process that has the lock.
* `owns`, `Exclusive`: the process that has the lock, of which there is at most one.
* `discipline`: a process sleeps only while the lock is taken, and whoever frees it
  owes a wakeup.
* `sleeplock_safe`.
-/

namespace Xv6.Sleeplocks

open Xv6.Lib.Run Xv6.Lib.Monitor

/-! ## The code -/

/-- The fields that `lk->lk` protects. -/
structure Sleeplock where
  locked : Bool
  pid : Nat
  deriving DecidableEq, Repr

/-- Where a process is. -/
inductive Place where
  /-- At the test of the loop of `acquiresleep`; `again` if the process has the lock
  already. -/
  | acquire (pid : Nat) (again : Bool)
  /-- At the start of `releasesleep`. -/
  | release
  /-- Before its `wakeup`. -/
  | wake
  /-- Before its end. -/
  | done
  deriving DecidableEq, Repr

inductive Result where
  | acquired
  | released
  deriving DecidableEq, Repr

/-- The code.  It does not look at whether the process has been killed. -/
def instr (_ : Unit) (_ : Bool) (lk : Sleeplock) : Place → Instr Unit Sleeplock Place Result
  | .acquire pid again =>
    if lk.locked then .sleep () (.acquire pid again) else .release
      { locked := true, pid := pid } .acquired
  | .release => .move { locked := false, pid := 0 } .wake
  | .wake => .wakeup () .done
  | .done => .release lk .released

def Place.entry : Place → Bool
  | .acquire _ _ | .release => true
  | .wake | .done => false

/-- The code in a kernel with `nproc` process slots. -/
def code (nproc : Nat) : Code Unit Sleeplock Place Result Unit where
  nproc := nproc
  entry := Place.entry
  alive _ := true
  instr := instr

abbrev Sys := State Unit Sleeplock Place Result

/-- The process has returned from `acquiresleep` and has not freed the lock since. -/
def owns : Option Result ⊕ Place → Bool
  | .inl r => r == some .acquired
  | .inr (.acquire _ again) => again
  | .inr .release => true
  | .inr .wake | .inr .done => false

/-- A process frees the lock only if it has it. -/
def proper (m : Sys) : Act Place Unit → Bool
  | .call p (.acquire _ again) => again == owns (m.phase p).site
  | .call p .release => owns (m.phase p).site
  | _ => true

def step (nproc : Nat) (m : Sys) (a : Act Place Unit) : Option Sys :=
  if proper m a = true then Lib.Monitor.step (code nproc) m a else none

/-- After `initsleeplock`. -/
def initial (killed : Nat → Bool) : Sys where
  data := { locked := false, pid := 0 }
  lock := none
  phase _ := .out none
  killed := killed

/-! ## Mutual exclusion -/

/-- The lock is taken if a process has it, and only one has. -/
structure Exclusive (m : Sys) : Prop where
  locked : ∀ p, owns (m.phase p).site = true → m.data.locked = true
  unique : ∀ p q, owns (m.phase p).site = true → owns (m.phase q).site = true → p = q

section Steps

variable {nproc : Nat} {m m' : Sys} {p : Nat} {a : Act Place Unit}

/-- A process moves to a site where it owns the lock if it did before. -/
theorem Exclusive.of_owns {m' : Sys} (h : Exclusive m) (hdata : m'.data = m.data)
    (howns : ∀ q, owns (m'.phase q).site = true → owns (m.phase q).site = true) : Exclusive m' := by
  refine ⟨fun q hq => ?_, fun q r hq hr => h.unique q r (howns q hq) (howns r hr)⟩
  rw [hdata]
  exact h.locked q (howns q hq)

theorem Exclusive.perform (h : Exclusive m) {l : Place} (hp : m.phase p = .hold l) :
    Exclusive (m.perform p (instr () (m.killed p) m.data l)) := by
  have hsite : (m.phase p).site = .inr l := by rw [hp]; rfl
  cases l with
  | acquire pid again =>
    rw [instr]
    by_cases hlocked : m.data.locked = true
    · rw [if_pos hlocked]
      refine h.of_owns rfl fun q hq => ?_
      rcases setPhase_cases (owns · = true) hq with ⟨rfl, hx⟩ | ⟨-, hq⟩
      · rw [hsite]
        exact hx
      · exact hq
    · -- the lock is free, so nobody had it
      rw [if_neg hlocked]
      have hnone : ∀ q, owns (m.phase q).site ≠ true := fun q hq => hlocked (h.locked q hq)
      refine ⟨fun _ _ => rfl, fun q r hq hr => ?_⟩
      rcases setPhase_cases (owns · = true) hq with ⟨rfl, -⟩ | ⟨-, hq⟩
      · rcases setPhase_cases (owns · = true) hr with ⟨rfl, -⟩ | ⟨-, hr⟩
        · rfl
        · exact absurd hr (hnone r)
      · exact absurd hq (hnone q)
  | release =>
    -- the process had the lock, and nobody else
    have hown : owns (m.phase p).site = true := by rw [hsite]; rfl
    have hnone : ∀ q, owns ((m.setPhase p (.hold .wake)).phase q).site ≠ true := fun q hq => by
      rcases setPhase_cases (owns · = true) hq with ⟨-, hq⟩ | ⟨hne, hq⟩
      · cases hq
      · exact hne (h.unique q p hq hown)
    exact ⟨fun q hq => absurd hq (hnone q), fun q _ hq => absurd hq (hnone q)⟩
  | wake =>
    refine h.of_owns rfl fun q hq => ?_
    rcases setPhase_cases (owns · = true) hq with ⟨-, hq⟩ | ⟨-, hq⟩
    · cases hq
    · exact hq
  | done =>
    refine h.of_owns rfl fun q hq => ?_
    rcases setPhase_cases (owns · = true) hq with ⟨-, hq⟩ | ⟨-, hq⟩
    · cases hq
    · exact hq

theorem of_step (hstep : step nproc m a = some m') :
    proper m a = true ∧ Lib.Monitor.step (code nproc) m a = some m' := by
  rw [step] at hstep
  split at hstep
  · next hproper => exact ⟨hproper, hstep⟩
  · cases hstep

theorem Exclusive.step (h : Exclusive m) (hstep : step nproc m a = some m') : Exclusive m' := by
  obtain ⟨hproper, hstep⟩ := of_step hstep
  rcases step_cases hstep with ⟨p, l, r, rfl, hentry, hp, rfl⟩ | ⟨p, i, l, rfl, hp, rfl⟩ | ⟨-,
    hdata, hsite, -⟩
  · refine h.of_owns rfl fun q hq => ?_
    rcases setPhase_cases (owns · = true) hq with ⟨rfl, hx⟩ | ⟨-, hq⟩
    · cases l with
      | acquire pid again =>
        have heq : again = owns (m.phase q).site := by simpa [proper] using hproper
        rw [← heq]
        exact hx
      | release => exact hproper
      | wake => cases hentry
      | done => cases hentry
    · exact hq
  · exact h.perform hp
  · refine h.of_owns hdata fun q hq => ?_
    rwa [hsite] at hq

end Steps

/-! ## Lost wakeups -/

/-- It is right to sleep while the lock is taken. -/
def justified (_ : Unit) (lk : Sleeplock) : Prop :=
  lk.locked = true

/-- A process that has freed the lock owes a wakeup. -/
def owes (_ : Unit) (_ : Bool) (_ : Sleeplock) (l : Place) : Prop :=
  l = .wake

theorem discipline (nproc : Nat) :
    Discipline (code nproc) (fun _ => True) (fun _ _ => True) justified owes where
  move {i k d l d' l'} _ _ hinstr c _ := by
    cases l with
    | acquire pid again =>
      simp only [code, instr] at hinstr
      split at hinstr <;> cases hinstr
    | release =>
      cases hinstr
      exact .inr rfl
    | wake => cases hinstr
    | done => cases hinstr
  wakeup {i k d l c' l'} _ _ hinstr c _ := .inl rfl
  sleep {i k d l c' l'} _ _ hinstr := by
    cases l with
    | acquire pid again =>
      simp only [code, instr] at hinstr
      split at hinstr
      · next hlocked => exact ⟨hlocked, fun _ _ => hlocked⟩
      · cases hinstr
    | release => cases hinstr
    | wake => cases hinstr
    | done => cases hinstr
  release {i k d l d' r} _ _ hinstr c hor := by
    cases l with
    | acquire pid again =>
      simp only [code, instr] at hinstr
      split at hinstr
      · cases hinstr
      · cases hinstr
        rfl
    | release => cases hinstr
    | wake => cases hinstr
    | done =>
      cases hinstr
      rcases hor with hlocked | howe
      · exact hlocked
      · cases howe

/-! ## Runs -/

section Runs

variable {nproc : Nat} {killed : Nat → Bool} {acts : List (Act Place Unit)} {m : Sys}

theorem exclusive_initial (killed : Nat → Bool) : Exclusive (initial killed) := by
  have hnone : ∀ p, owns ((initial killed).phase p).site = false := fun _ => rfl
  refine ⟨fun p hp => ?_, fun p _ hp => ?_⟩
  · rw [hnone] at hp
    cases hp
  · rw [hnone] at hp
    cases hp

theorem safe_run (hrun : exec (step nproc) (initial killed) acts = some m) :
    Exclusive m ∧ Safe (code nproc) justified owes m := by
  refine inv_of_run (I := fun m => Exclusive m ∧ Safe (code nproc) justified owes m)
    (fun s a t h hstep => ⟨h.1.step hstep, ?_⟩)
    ⟨exclusive_initial killed, Safe.initial ..⟩ hrun
  refine h.2.step (discipline nproc) (Asserts.trivial s) ?_ (of_step hstep).2
  cases a with
  | kill p => exact fun _ _ _ howe => howe
  | _ => trivial

/-- In every run at most one process is between the return of `acquiresleep` and its
`releasesleep`, and whenever the spin lock is free and the lock is not taken, no process
sleeps on it or is about to. -/
theorem sleeplock_safe (hrun : exec (step nproc) (initial killed) acts = some m) :
    (∀ p q, owns (m.phase p).site = true → owns (m.phase q).site = true → p = q) ∧
    (m.lock = none → m.data.locked = false → ∀ p l, m.phase p ≠ .doze () l ∧
      m.phase p ≠ .asleep () l) := by
  obtain ⟨hexclusive, hsafe⟩ := safe_run hrun
  refine ⟨hexclusive.unique, fun hfree hlocked p l => ?_⟩
  have hbed : (m.phase p).bed ≠ some () := fun hbed => by
    have hright : m.data.locked = true := hsafe.justified_of_free hfree hbed
    rw [hlocked] at hright
    cases hright
  refine ⟨fun hdoze => ?_, fun hasleep => ?_⟩
  · rw [hdoze] at hbed
    exact hbed rfl
  · rw [hasleep] at hbed
    exact hbed rfl

/-- Process 0 takes the lock, process 1 sleeps, is killed and sleeps again; the lock is
freed, and process 1 gets it. -/
def contention : List (Act Place Unit) :=
  [.call 0 (.acquire 7 false), .acquire 0, .run 0 (), .call 1 (.acquire 8 false), .acquire 1,
    .run 1 (), .fallAsleep 1, .kill 1, .acquire 1, .run 1 (), .fallAsleep 1,
    .call 0 .release, .acquire 0, .run 0 (), .run 0 (), .wakeNext 0, .wakeNext 0, .wakeNext 0,
    .run 0 (), .acquire 1, .run 1 ()]

theorem sleeplock_safe_contention :
    ∃ m, exec (step 2) (initial fun _ => false) contention = some m ∧
      owns (m.phase 1).site = true ∧ m.data = { locked := true, pid := 8 } ∧
      (∀ p q, owns (m.phase p).site = true → owns (m.phase q).site = true → p = q) ∧
      (m.lock = none → m.data.locked = false →
        ∀ p l, m.phase p ≠ .doze () l ∧ m.phase p ≠ .asleep () l) := by
  have hcheck : runCheck (step 2) (fun _ _ => true)
      (fun m => owns (m.phase 1).site && decide (m.data = { locked := true, pid := 8 }))
      (initial fun _ => false) contention = true := by
    decide +kernel
  obtain ⟨-, m, hrun, hend⟩ := of_runCheck hcheck
  obtain ⟨howns, hdata⟩ := Bool.and_eq_true_iff.mp hend
  exact ⟨m, hrun, howns, of_decide_eq_true hdata, sleeplock_safe hrun⟩

end Runs

end Xv6.Sleeplocks
