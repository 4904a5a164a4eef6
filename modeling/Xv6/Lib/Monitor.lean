import Mathlib.Logic.Function.Basic
import Xv6.Lib.Run

/-!
# Threads that sleep and wake up under a spin lock

Threads share data that a spin lock protects.  A thread that holds the lock runs
one instruction after the other; it may sleep on a channel, which gives the lock
up until another thread wakes the channel up.

* `Instr`, `Code`: what a thread does while it holds the lock.
* `Phase`: where a thread is.  Falling asleep takes two steps: the lock is given
  up first, while the lock of the thread's own slot is held, and only then does
  the thread sleep.  Waking up goes through the slots one by one and waits for
  the lock of each.
* `State`, `Act`, `step`: the threads together; any thread may be killed at any
  time.
* `Step`, `step_of_eq_some`: all that a step can do, one constructor for each case.
* `Phase.site` and `step_cases`: only a call and an instruction move a thread in its
  code.
* `Rests`: the places where a thread goes on that does not hold the lock.
* `Outline` and `Asserts.step`: the invariant rule, with an assertion about the
  data and one about the data and the place of the thread that holds the lock.
* `Discipline` and `Safe.step`: the rule for lost wakeups.  `justified c` says
  when it is right to sleep on `c`, and `owes c` which threads will wake `c` up
  before they give up the lock.
-/

namespace Xv6.Lib.Monitor

open Xv6.Lib.Run
open Function (update update_of_ne update_self)

/-- What a thread that holds the lock does next; `l` is where it goes on. -/
inductive Instr (Chan D L R : Type) where
  | move (d : D) (l : L)
  | wakeup (c : Chan) (l : L)
  | sleep (c : Chan) (l : L)
  | release (d : D) (r : R)

/-- The code of the threads.  An instruction depends on an input, on whether the
thread has been killed, on the data and on the place. -/
structure Code (Chan D L R I : Type) where
  /-- The number of slots. -/
  nproc : Nat
  /-- The places where a call starts. -/
  entry : L → Bool
  /-- The lock still exists. -/
  alive : D → Bool
  instr : I → Bool → D → L → Instr Chan D L R

inductive Phase (Chan L R : Type) where
  /-- Not in a call; `r` is the result of the last one. -/
  | out (r : Option R)
  /-- Spinning in `acquire`. -/
  | wait (l : L)
  | hold (l : L)
  /-- In `wakeup(c)`, with the slots below `j` done. -/
  | waking (c : Chan) (j : Nat) (l : L)
  /-- In `sleep(c)`: the lock is given up, the lock of the own slot is held. -/
  | doze (c : Chan) (l : L)
  | asleep (c : Chan) (l : L)
  deriving DecidableEq

structure State (Chan D L R : Type) where
  data : D
  lock : Option Nat
  phase : Nat → Phase Chan L R
  killed : Nat → Bool

inductive Act (L I : Type) where
  | call (p : Nat) (l : L)
  | acquire (p : Nat)
  | run (p : Nat) (i : I)
  | wakeNext (p : Nat)
  | fallAsleep (p : Nat)
  | kill (p : Nat)
  /-- The slot is given to a new process. -/
  | reset (p : Nat)

variable {Chan D L R I : Type}

/-! ## Steps -/

def State.setPhase (m : State Chan D L R) (p : Nat) (ph : Phase Chan L R) : State Chan D L R :=
  { m with phase := update m.phase p ph }

def State.setKilled (m : State Chan D L R) (p : Nat) (k : Bool) : State Chan D L R :=
  { m with killed := update m.killed p k }

/-- The thread `p` runs an instruction. -/
def State.perform (m : State Chan D L R) (p : Nat) : Instr Chan D L R → State Chan D L R
  | .move d l => { m.setPhase p (.hold l) with data := d }
  | .wakeup c l => m.setPhase p (.waking c 0 l)
  | .sleep c l => { m.setPhase p (.doze c l) with lock := none }
  | .release d r => { m.setPhase p (.out (some r)) with data := d, lock := none }

/-- The body of the loop of `wakeup(c)`, run by `p`, for the slot `j`. -/
def State.wakeupSlot [DecidableEq Chan] (m : State Chan D L R) (p : Nat) (c : Chan) (j : Nat) :
    Option (State Chan D L R) :=
  if j = p then some m
  else match m.phase j with
    -- the lock of the slot is held
    | .doze _ _ => none
    | .asleep c' l => some (if c' = c then m.setPhase j (.wait l) else m)
    | _ => some m

def step [DecidableEq Chan] (code : Code Chan D L R I) (m : State Chan D L R) :
    Act L I → Option (State Chan D L R)
  | .call p l =>
    match m.phase p with
    | .out _ => if p < code.nproc ∧ code.entry l = true then some (m.setPhase p (.wait l)) else none
    | _ => none
  | .acquire p =>
    match m.phase p with
    | .wait l =>
      if m.lock = none ∧ code.alive m.data = true then
        some { m.setPhase p (.hold l) with lock := some p }
      else none
    | _ => none
  | .run p i =>
    match m.phase p with
    | .hold l => some (m.perform p (code.instr i (m.killed p) m.data l))
    | _ => none
  | .wakeNext p =>
    match m.phase p with
    | .waking c j l =>
      if j < code.nproc then
        (m.wakeupSlot p c j).map fun m' => m'.setPhase p (.waking c (j + 1) l)
      else some (m.setPhase p (.hold l))
    | _ => none
  | .fallAsleep p =>
    match m.phase p with
    | .doze c l => some (m.setPhase p (.asleep c l))
    | _ => none
  | .kill p =>
    match m.phase p with
    -- the lock of the slot is held
    | .doze _ _ => none
    | .asleep _ l => some ((m.setPhase p (.wait l)).setKilled p true)
    | _ => some (m.setKilled p true)
  | .reset p =>
    match m.phase p with
    | .out _ => some (m.setKilled p false)
    | _ => none

/-! ## Places and channels -/

/-- Where the thread goes on while it holds the lock. -/
@[simp] def Phase.held : Phase Chan L R → Option L
  | .hold l | .waking _ _ l => some l
  | .out _ | .wait _ | .doze _ _ | .asleep _ _ => none

/-- Where the thread goes on once it has the lock. -/
@[simp] def Phase.later : Phase Chan L R → Option L
  | .wait l | .doze _ l | .asleep _ l => some l
  | .out _ | .hold _ | .waking _ _ _ => none

/-- The channel the thread sleeps on or has decided to sleep on. -/
@[simp] def Phase.bed : Phase Chan L R → Option Chan
  | .doze c _ | .asleep c _ => some c
  | .out _ | .wait _ | .hold _ | .waking _ _ _ => none

theorem held_of_bed {x : Phase Chan L R} {c : Chan} (h : x.bed = some c) : x.held = none := by
  cases x <;> simp_all

@[simp] theorem setPhase_self (m : State Chan D L R) (p : Nat) (ph : Phase Chan L R) :
    (m.setPhase p ph).phase p = ph :=
  update_self ..

theorem setPhase_of_ne (m : State Chan D L R) {p q : Nat} (ph : Phase Chan L R) (h : q ≠ p) :
    (m.setPhase p ph).phase q = m.phase q :=
  update_of_ne h ..

/-- What a step does. -/
inductive Step (code : Code Chan D L R I) (m : State Chan D L R) :
    Act L I → State Chan D L R → Prop
  | call {p l r} (hp : m.phase p = .out r) (hlt : p < code.nproc) (hentry : code.entry l = true) :
    Step code m (.call p l) (m.setPhase p (.wait l))
  | acquire {p l} (hp : m.phase p = .wait l) (hfree : m.lock = none) :
    Step code m (.acquire p) { m.setPhase p (.hold l) with lock := some p }
  | run {p i l} (hp : m.phase p = .hold l) :
    Step code m (.run p i) (m.perform p (code.instr i (m.killed p) m.data l))
  /-- The slot `j` does not sleep on the channel. -/
  | pass {p c j l} (hp : m.phase p = .waking c j l) (hj : j = p ∨ (m.phase j).bed ≠ some c) :
    Step code m (.wakeNext p) (m.setPhase p (.waking c (j + 1) l))
  | wake {p c j l l'} (hp : m.phase p = .waking c j l) (hne : j ≠ p)
      (hj : m.phase j = .asleep c l') :
    Step code m (.wakeNext p) ((m.setPhase j (.wait l')).setPhase p (.waking c (j + 1) l))
  | wakeDone {p c j l} (hp : m.phase p = .waking c j l) (hj : code.nproc ≤ j) :
    Step code m (.wakeNext p) (m.setPhase p (.hold l))
  | fallAsleep {p c l} (hp : m.phase p = .doze c l) :
    Step code m (.fallAsleep p) (m.setPhase p (.asleep c l))
  | killAsleep {p c l} (hp : m.phase p = .asleep c l) :
    Step code m (.kill p) ((m.setPhase p (.wait l)).setKilled p true)
  | kill (p : Nat) : Step code m (.kill p) (m.setKilled p true)
  | reset {p r} (hp : m.phase p = .out r) : Step code m (.reset p) (m.setKilled p false)

theorem step_wakeNext [DecidableEq Chan] {code : Code Chan D L R I} {m m' : State Chan D L R}
    {p j : Nat} {c : Chan} {l : L} (hp : m.phase p = .waking c j l)
    (hm : m.wakeupSlot p c j = some m') :
    Step code m (.wakeNext p) (m'.setPhase p (.waking c (j + 1) l)) := by
  unfold State.wakeupSlot at hm
  split at hm
  · next heq =>
    cases hm
    exact .pass hp (.inl heq)
  · next hne =>
    split at hm
    · cases hm
    · next c' l' hj =>
      cases hm
      by_cases hc : c' = c
      · subst hc
        rw [if_pos rfl]
        exact .wake hp hne hj
      · rw [if_neg hc]
        refine .pass hp (.inr ?_)
        rw [hj]
        exact fun heq => hc (Option.some.inj heq)
    · next hdoze hasleep =>
      cases hm
      refine .pass hp (.inr ?_)
      cases hj : m.phase j with
      | doze c' l => exact absurd hj (hdoze c' l)
      | asleep c' l => exact absurd hj (hasleep c' l)
      | out r => exact nofun
      | wait l => exact nofun
      | hold l => exact nofun
      | waking c' k l => exact nofun

theorem step_of_eq_some [DecidableEq Chan] {code : Code Chan D L R I} {m m' : State Chan D L R}
    {a : Act L I} (hm : step code m a = some m') : Step code m a m' := by
  cases a with
  | call p l =>
    simp only [step] at hm
    split at hm
    · obtain ⟨⟨hlt, hentry⟩, rfl⟩ := of_guard hm
      exact .call ‹_› hlt hentry
    · cases hm
  | acquire p =>
    simp only [step] at hm
    split at hm
    · obtain ⟨⟨hfree, -⟩, rfl⟩ := of_guard hm
      exact .acquire ‹_› hfree
    · cases hm
  | run p i =>
    simp only [step] at hm
    split at hm <;> cases hm
    exact .run ‹_›
  | wakeNext p =>
    simp only [step] at hm
    split at hm
    · split at hm
      · obtain ⟨m₁, hslot, rfl⟩ := Option.map_eq_some_iff.mp hm
        exact step_wakeNext ‹_› hslot
      · next hj =>
        cases hm
        exact .wakeDone ‹_› (Nat.le_of_not_lt hj)
    · cases hm
  | fallAsleep p =>
    simp only [step] at hm
    split at hm <;> cases hm
    exact .fallAsleep ‹_›
  | kill p =>
    simp only [step] at hm
    split at hm <;> cases hm
    · exact .killAsleep ‹_›
    · exact .kill p
  | reset p =>
    simp only [step] at hm
    split at hm <;> cases hm
    exact .reset ‹_›

/-! ## Sites -/

/-- Where the thread is in its code: the result of its last call, or the place where
it goes on. -/
@[simp] def Phase.site : Phase Chan L R → Option R ⊕ L
  | .out r => .inl r
  | .wait l | .hold l | .waking _ _ l | .doze _ l | .asleep _ l => .inr l

/-- The sites of all threads. -/
def State.sites (m : State Chan D L R) (p : Nat) : Option R ⊕ L := (m.phase p).site

theorem sites_setPhase (m : State Chan D L R) (p : Nat) (x : Phase Chan L R) :
    (m.setPhase p x).sites = update m.sites p x.site := by
  funext q
  rcases eq_or_ne q p with rfl | hne
  · rw [State.sites, setPhase_self, update_self]
  · rw [State.sites, setPhase_of_ne m x hne, update_of_ne hne]
    rfl

/-- The data after an instruction. -/
@[simp] def Instr.data (d : D) : Instr Chan D L R → D
  | .move d' _ | .release d' _ => d'
  | .wakeup _ _ | .sleep _ _ => d

/-- The site of the thread after an instruction. -/
@[simp] def Instr.site : Instr Chan D L R → Option R ⊕ L
  | .move _ l | .wakeup _ l | .sleep _ l => .inr l
  | .release _ r => .inl (some r)

theorem data_perform (m : State Chan D L R) (p : Nat) (y : Instr Chan D L R) :
    (m.perform p y).data = y.data m.data := by
  cases y <;> rfl

theorem sites_perform (m : State Chan D L R) (p : Nat) (y : Instr Chan D L R) :
    (m.perform p y).sites = update m.sites p y.site := by
  cases y <;> exact sites_setPhase m p _

theorem site_setPhase (m : State Chan D L R) {p : Nat} {x : Phase Chan L R}
    (hx : x.site = (m.phase p).site) (q : Nat) :
    ((m.setPhase p x).phase q).site = (m.phase q).site := by
  rcases eq_or_ne q p with rfl | hne
  · rw [setPhase_self, hx]
  · rw [setPhase_of_ne m x hne]

/-- The site of a thread after one thread moved. -/
theorem setPhase_cases {m : State Chan D L R} {p q : Nat} {x : Phase Chan L R}
    (P : Option R ⊕ L → Prop) (h : P ((m.setPhase p x).phase q).site) :
    q = p ∧ P x.site ∨ q ≠ p ∧ P (m.phase q).site := by
  rcases eq_or_ne q p with rfl | hne
  · rw [setPhase_self] at h
    exact .inl ⟨rfl, h⟩
  · rw [setPhase_of_ne m x hne] at h
    exact .inr ⟨hne, h⟩

theorem later_setPhase (m : State Chan D L R) {p : Nat} {x : Phase Chan L R}
    (hx : ∀ l, x.later = some l → (m.phase p).later = some l) (q : Nat) (l : L)
    (hl : ((m.setPhase p x).phase q).later = some l) : (m.phase q).later = some l := by
  rcases eq_or_ne q p with rfl | hne
  · rw [setPhase_self] at hl
    exact hx l hl
  · rwa [setPhase_of_ne m x hne] at hl

/-- A step is a call, an instruction, or changes neither the data nor the site of a
thread, and lets none wait for the lock that did not before. -/
theorem step_cases [DecidableEq Chan] {code : Code Chan D L R I} {m m' : State Chan D L R}
    {a : Act L I} (hm : step code m a = some m') :
    (∃ p l r, a = .call p l ∧ code.entry l = true ∧ m.phase p = .out r ∧
      m' = m.setPhase p (.wait l)) ∨
    (∃ p i l, a = .run p i ∧ m.phase p = .hold l ∧
      m' = m.perform p (code.instr i (m.killed p) m.data l)) ∨
    ((∀ p i, a ≠ .run p i) ∧ m'.data = m.data ∧ (∀ q, (m'.phase q).site = (m.phase q).site) ∧
      ∀ q l, (m'.phase q).later = some l → (m.phase q).later = some l) := by
  cases step_of_eq_some hm with
  | @call p l r hp _ hentry => exact .inl ⟨p, l, r, rfl, hentry, hp, rfl⟩
  | @run p i l hp => exact .inr (.inl ⟨p, i, l, rfl, hp, rfl⟩)
  | @acquire p l hp | @wakeDone p _ _ l hp =>
    exact .inr (.inr ⟨nofun, rfl, site_setPhase m (by rw [hp]; rfl),
      later_setPhase m (x := .hold l) nofun⟩)
  | @pass p c j l hp =>
    exact .inr (.inr ⟨nofun, rfl, site_setPhase m (by rw [hp]; rfl),
      later_setPhase m (x := .waking c (j + 1) l) nofun⟩)
  | @wake p c j l l' hp hne hj =>
    have hp' : (m.setPhase j (.wait l')).phase p = .waking c j l := by
      rw [setPhase_of_ne m _ hne.symm, hp]
    refine .inr (.inr ⟨nofun, rfl, fun q => ?_, fun q l'' hl => ?_⟩)
    · rw [site_setPhase _ (by rw [hp']; rfl), site_setPhase m (by rw [hj]; rfl)]
    · refine later_setPhase m (x := .wait l') (fun _ hl => by rw [hj]; exact hl) q l'' ?_
      exact later_setPhase _ (x := .waking c (j + 1) l) nofun q l'' hl
  | @fallAsleep p c l hp =>
    exact .inr (.inr ⟨nofun, rfl, site_setPhase m (by rw [hp]; rfl),
      later_setPhase m (x := .asleep c l) fun _ hl => by rw [hp]; exact hl⟩)
  | @killAsleep p c l hp =>
    exact .inr (.inr ⟨nofun, rfl, site_setPhase m (by rw [hp]; rfl),
      later_setPhase m (x := .wait l) fun _ hl => by rw [hp]; exact hl⟩)
  | kill | reset => exact .inr (.inr ⟨nofun, rfl, fun _ => rfl, fun _ _ => id⟩)

/-! ## Resting places -/

section Rests

variable {code : Code Chan D L R I} {rest : L → Prop} {m m' : State Chan D L R} {p : Nat}

/-- Whoever does not hold the lock goes on at a place of the given kind. -/
def Rests (rest : L → Prop) (m : State Chan D L R) : Prop :=
  ∀ p l, (m.phase p).later = some l → rest l

theorem Rests.setPhase (h : Rests rest m) {x : Phase Chan L R}
    (hx : ∀ l, x.later = some l → rest l) : Rests rest (m.setPhase p x) := by
  intro q l hl
  rcases eq_or_ne q p with rfl | hne
  · rw [setPhase_self] at hl
    exact hx l hl
  · rw [setPhase_of_ne m x hne] at hl
    exact h q l hl

/-- Calls start at such places, and threads sleep at them. -/
theorem Rests.step [DecidableEq Chan] (hentry : ∀ l, code.entry l = true → rest l)
    (hsleep : ∀ i k d l c l', code.instr i k d l = .sleep c l' → rest l') (h : Rests rest m)
    {a : Act L I} (hm : step code m a = some m') : Rests rest m' := by
  rcases step_cases hm with ⟨p, l, r, -, hl, -, rfl⟩ | ⟨p, i, l, -, -, rfl⟩ | ⟨-, -, -, hlater⟩
  · exact h.setPhase fun _ hx => Option.some.inj hx ▸ hentry l hl
  · cases hinstr : code.instr i (m.killed p) m.data l with
    | move d l' => exact h.setPhase (x := .hold l') nofun
    | wakeup c l' => exact h.setPhase (x := .waking c 0 l') nofun
    | sleep c l' =>
      exact h.setPhase (x := .doze c l') fun _ hx => Option.some.inj hx ▸ hsleep _ _ _ _ _ _ hinstr
    | release d r => exact h.setPhase (x := .out (some r)) nofun
  · exact fun q l hl => h q l (hlater q l hl)

end Rests

/-! ## The lock -/

section Lock

variable {code : Code Chan D L R I} {m m' : State Chan D L R} {p : Nat} {x : Phase Chan L R}

/-- Slots that do not exist make no calls, and the thread that holds the lock is the
one at a place that needs it. -/
structure Wf (code : Code Chan D L R I) (m : State Chan D L R) : Prop where
  slots : ∀ p, code.nproc ≤ p → ∃ r, m.phase p = .out r
  holder : ∀ p, m.lock = some p ↔ (m.phase p).held ≠ none

/-- Nobody has made a call yet. -/
theorem Wf.initial (code : Code Chan D L R I) (d : D) (killed : Nat → Bool) :
    Wf code ⟨d, none, fun _ => .out none, killed⟩ :=
  ⟨fun _ _ => ⟨none, rfl⟩, fun _ => ⟨nofun, fun h => absurd rfl h⟩⟩

theorem Wf.lt_nproc (h : Wf code m) (hp : ∀ r, m.phase p ≠ .out r) : p < code.nproc := by
  apply Nat.lt_of_not_le
  intro hle
  obtain ⟨r, hr⟩ := h.slots p hle
  exact hp r hr

/-- Nobody else is at a place that needs the lock. -/
theorem Wf.held_eq_none (h : Wf code m) (hlock : m.lock ≠ some p) : (m.phase p).held = none := by
  apply Classical.byContradiction
  intro hheld
  exact hlock ((h.holder p).mpr hheld)

/-- Nobody else is at a place where it needs the lock. -/
theorem Wf.rest_of_holder (h : Wf code m) {rest : L → Prop} (hrest : Rests rest m)
    (hlock : m.lock ≠ some p) {l : L} (hsite : (m.phase p).site = .inr l) : rest l := by
  have hheld := h.held_eq_none hlock
  apply hrest p l
  cases hp : m.phase p with
  | out r =>
    rw [hp] at hsite
    cases hsite
  | hold l' =>
    rw [hp] at hheld
    cases hheld
  | waking c j l' =>
    rw [hp] at hheld
    cases hheld
  | wait l' | doze c l' | asleep c l' =>
    rw [hp] at hsite
    exact congrArg some (Sum.inr.inj hsite)

/-- A thread moves and needs the lock afterwards if it did before. -/
theorem Wf.setPhase (h : Wf code m) (hp : p < code.nproc)
    (hheld : x.held ≠ none ↔ (m.phase p).held ≠ none) : Wf code (m.setPhase p x) := by
  refine ⟨fun q hq => ?_, fun q => ?_⟩
  · rw [setPhase_of_ne m x (by omega)]
    exact h.slots q hq
  · rcases eq_or_ne q p with rfl | hne
    · rw [setPhase_self, hheld]
      exact h.holder q
    · rw [setPhase_of_ne m x hne]
      exact h.holder q

/-- A thread takes the lock or gives it up. -/
theorem Wf.setLock (h : Wf code m) (hp : p < code.nproc) (lock : Option Nat)
    (hlock : ∀ q, q ≠ p → m.lock ≠ some q ∧ lock ≠ some q)
    (hheld : lock = some p ↔ x.held ≠ none) :
    Wf code { m.setPhase p x with lock } := by
  refine ⟨fun q hq => ?_, fun q => ?_⟩
  · show ∃ r, (m.setPhase p x).phase q = .out r
    rw [setPhase_of_ne m x (by omega)]
    exact h.slots q hq
  · show lock = some q ↔ ((m.setPhase p x).phase q).held ≠ none
    rcases eq_or_ne q p with rfl | hne
    · rw [setPhase_self]
      exact hheld
    · rw [setPhase_of_ne m x hne, h.held_eq_none (hlock q hne).1]
      exact ⟨fun heq => absurd heq (hlock q hne).2, fun hnone => absurd rfl hnone⟩

theorem Wf.perform (h : Wf code m) {l : L} (hp : m.phase p = .hold l) (y : Instr Chan D L R) :
    Wf code (m.perform p y) := by
  have hlt : p < code.nproc := h.lt_nproc (by simp [hp])
  have hlock : m.lock = some p := (h.holder p).mpr (by simp [hp])
  have hothers : ∀ q, q ≠ p → m.lock ≠ some q ∧ (none : Option Nat) ≠ some q := by
    intro q hne
    rw [hlock]
    exact ⟨fun heq => hne (Option.some.inj heq).symm, nofun⟩
  cases y with
  | move d l' =>
    have hset := h.setPhase (x := .hold l') hlt (by simp [hp])
    exact ⟨hset.slots, hset.holder⟩
  | wakeup c l' => exact h.setPhase hlt (by simp [hp])
  | sleep c l' => exact h.setLock hlt none hothers (by simp)
  | release d r =>
    have hset := h.setLock (x := .out (some r)) hlt none hothers (by simp)
    exact ⟨hset.slots, hset.holder⟩

/-- A sleeping thread is woken. -/
theorem Wf.wake (h : Wf code m) {c : Chan} {l : L} (hp : m.phase p = .asleep c l) :
    Wf code (m.setPhase p (.wait l)) :=
  h.setPhase (h.lt_nproc (by simp [hp])) (by simp [hp])

theorem Wf.step [DecidableEq Chan] (h : Wf code m) {a : Act L I} (hm : step code m a = some m') :
    Wf code m' := by
  cases step_of_eq_some hm with
  | call hp hlt hentry => exact h.setPhase hlt (by simp [hp])
  | @acquire p l hp hfree =>
    refine h.setLock (h.lt_nproc (by simp [hp])) (some p) (fun q hne => ⟨?_, ?_⟩) (by simp)
    · rw [hfree]
      exact nofun
    · exact fun heq => hne (Option.some.inj heq).symm
  | run hp => exact h.perform hp _
  | pass hp | wakeDone hp | fallAsleep hp =>
    exact h.setPhase (h.lt_nproc (by simp [hp])) (by simp [hp])
  | wake hp hne hj =>
    refine (h.wake hj).setPhase (h.lt_nproc (by simp [hp])) ?_
    rw [setPhase_of_ne m _ hne.symm, hp]
    exact Iff.rfl
  | killAsleep hp =>
    have hset := h.wake hp
    exact ⟨hset.slots, hset.holder⟩
  | kill | reset => exact ⟨h.slots, h.holder⟩

end Lock

/-! ## Assertions -/

section Assertions

variable {code : Code Chan D L R I} {A : D → Prop} {B : D → L → Prop} {m m' : State Chan D L R}
  {p : Nat}

/-- Every instruction keeps the assertion `A` about the data and the assertion `B` about
the data and the place of the thread that holds the lock. -/
structure Outline (code : Code Chan D L R I) (A : D → Prop) (B : D → L → Prop) : Prop where
  entry : ∀ {l}, code.entry l = true → ∀ d, A d → B d l
  move : ∀ {i k d l d' l'}, A d → B d l → code.instr i k d l = .move d' l' → A d' ∧ B d' l'
  wakeup : ∀ {i k d l c l'}, A d → B d l → code.instr i k d l = .wakeup c l' → B d l'
  sleep : ∀ {i k d l c l'}, A d → B d l → code.instr i k d l = .sleep c l' → ∀ d', A d' → B d' l'
  release : ∀ {i k d l d' r}, A d → B d l → code.instr i k d l = .release d' r → A d'

/-- The assertions hold, and a thread that does not hold the lock will find them. -/
structure Asserts (A : D → Prop) (B : D → L → Prop) (m : State Chan D L R) : Prop where
  data : A m.data
  holder : ∀ p l, (m.phase p).held = some l → B m.data l
  later : ∀ p l, (m.phase p).later = some l → ∀ d, A d → B d l

/-- Where nothing is asserted. -/
theorem Asserts.trivial (m : State Chan D L R) : Asserts (fun _ => True) (fun _ _ => True) m :=
  ⟨.intro, fun _ _ _ => .intro, fun _ _ _ _ _ => .intro⟩

/-- A thread moves without changing the data. -/
theorem Asserts.setPhase (h : Asserts A B m) {x : Phase Chan L R}
    (hheld : ∀ l, x.held = some l → B m.data l)
    (hlater : ∀ l, x.later = some l → ∀ d, A d → B d l) : Asserts A B (m.setPhase p x) := by
  refine ⟨h.data, fun q l hq => ?_, fun q l hq => ?_⟩
  · rcases eq_or_ne q p with rfl | hne
    · rw [setPhase_self] at hq
      exact hheld l hq
    · rw [setPhase_of_ne m x hne] at hq
      exact h.holder q l hq
  · rcases eq_or_ne q p with rfl | hne
    · rw [setPhase_self] at hq
      exact hlater l hq
    · rw [setPhase_of_ne m x hne] at hq
      exact h.later q l hq

/-- The thread that holds the lock changes the data. -/
theorem Asserts.setData (h : Asserts A B m) (hwf : Wf code m) {x : Phase Chan L R} {d : D}
    (hold : (m.phase p).held ≠ none) (hdata : A d) (hheld : ∀ l, x.held = some l → B d l)
    (hlater : x.later = none) : Asserts A B { m.setPhase p x with data := d } := by
  have hlock : m.lock = some p := (hwf.holder p).mpr hold
  refine ⟨hdata, fun q l hq => ?_, fun q l hq => ?_⟩
  · change ((m.setPhase p x).phase q).held = some l at hq
    rcases eq_or_ne q p with rfl | hne
    · rw [setPhase_self] at hq
      exact hheld l hq
    · rw [setPhase_of_ne m x hne, hwf.held_eq_none fun heq => ?_] at hq
      · cases hq
      · rw [hlock] at heq
        exact hne (Option.some.inj heq).symm
  · change ((m.setPhase p x).phase q).later = some l at hq
    rcases eq_or_ne q p with rfl | hne
    · rw [setPhase_self, hlater] at hq
      cases hq
    · rw [setPhase_of_ne m x hne] at hq
      exact h.later q l hq

theorem Asserts.perform (hcode : Outline code A B) (hwf : Wf code m) (h : Asserts A B m) {l : L}
    (hp : m.phase p = .hold l) (i : I) :
    Asserts A B (m.perform p (code.instr i (m.killed p) m.data l)) := by
  have hB : B m.data l := h.holder p l (by simp [hp])
  have hheld : (m.phase p).held ≠ none := by simp [hp]
  cases hinstr : code.instr i (m.killed p) m.data l with
  | move d l' =>
    obtain ⟨hA, hB'⟩ := hcode.move h.data hB hinstr
    exact h.setData hwf hheld hA (fun _ hl => Option.some.inj hl ▸ hB') rfl
  | wakeup c l' =>
    have hB' := hcode.wakeup h.data hB hinstr
    exact h.setPhase (fun _ hl => Option.some.inj hl ▸ hB') nofun
  | sleep c l' =>
    have hB' := hcode.sleep h.data hB hinstr
    have hset := h.setPhase (p := p) (x := .doze c l') nofun fun _ hl => Option.some.inj hl ▸ hB'
    exact ⟨hset.data, hset.holder, hset.later⟩
  | release d r =>
    have hset := h.setData hwf hheld (x := .out (some r)) (hcode.release h.data hB hinstr) nofun rfl
    exact ⟨hset.data, hset.holder, hset.later⟩

/-- Every step keeps the assertions. -/
theorem Asserts.step [DecidableEq Chan] (hcode : Outline code A B) (hwf : Wf code m)
    (h : Asserts A B m) {a : Act L I} (hm : step code m a = some m') : Asserts A B m' := by
  have hwake : ∀ {p c l}, m.phase p = .asleep c l → Asserts A B (m.setPhase p (.wait l)) :=
    fun {p _ _} hp => h.setPhase nofun fun l' hl => h.later p l' (by rw [hp]; exact hl)
  cases step_of_eq_some hm with
  | call hp hlt hentry => exact h.setPhase nofun fun _ hl => Option.some.inj hl ▸ hcode.entry hentry
  | @acquire p l hp =>
    have hB : B m.data l := h.later p l (by simp [hp]) m.data h.data
    have hset := h.setPhase (p := p) (x := .hold l) (fun _ hl => Option.some.inj hl ▸ hB) nofun
    exact ⟨hset.data, hset.holder, hset.later⟩
  | run hp => exact h.perform hcode hwf hp _
  | @pass p _ _ _ hp | @wakeDone p _ _ _ hp =>
    exact h.setPhase (fun l' hl => h.holder p l' (by rw [hp]; exact hl)) nofun
  | @wake p _ _ _ _ hp _ hj =>
    exact (hwake hj).setPhase (fun l' hl => h.holder p l' (by rw [hp]; exact hl)) nofun
  | @fallAsleep p _ _ hp => exact h.setPhase nofun fun l' hl => h.later p l' (by rw [hp]; exact hl)
  | killAsleep hp => exact ⟨(hwake hp).data, (hwake hp).holder, (hwake hp).later⟩
  | kill | reset => exact ⟨h.data, h.holder, h.later⟩

end Assertions

/-! ## Lost wakeups -/

section LostWakeups

variable {code : Code Chan D L R I} {A : D → Prop} {B : D → L → Prop} {justified : Chan → D → Prop}
  {owes : Chan → Bool → D → L → Prop} {m m' : State Chan D L R} {p q : Nat} {c : Chan}
  {x : Phase Chan L R}

/-- Where the assertions hold, an instruction that makes a sleep unjustified leaves the
thread owing a wakeup, a debt is paid by a wakeup only, and nobody leaves with a debt. -/
structure Discipline (code : Code Chan D L R I) (A : D → Prop) (B : D → L → Prop)
    (justified : Chan → D → Prop) (owes : Chan → Bool → D → L → Prop) : Prop where
  move : ∀ {i k d l d' l'}, A d → B d l → code.instr i k d l = .move d' l' → ∀ c,
    justified c d ∨ owes c k d l → justified c d' ∨ owes c k d' l'
  wakeup : ∀ {i k d l c' l'}, A d → B d l → code.instr i k d l = .wakeup c' l' → ∀ c,
    justified c d ∨ owes c k d l → c = c' ∨ justified c d ∨ owes c k d l'
  sleep : ∀ {i k d l c' l'}, A d → B d l → code.instr i k d l = .sleep c' l' →
    justified c' d ∧ ∀ c, justified c d ∨ owes c k d l → justified c d
  release : ∀ {i k d l d' r}, A d → B d l → code.instr i k d l = .release d' r → ∀ c,
    justified c d ∨ owes c k d l → justified c d'

/-- One channel can be looked at alone. -/
theorem Discipline.only (hcode : Discipline code A B justified owes) (c₀ : Chan) :
    Discipline code A B (fun c d => c = c₀ → justified c d)
      (fun c k d l => c = c₀ ∧ owes c k d l) := by
  have hown : ∀ {k d l}, (c₀ = c₀ → justified c₀ d) ∨ c₀ = c₀ ∧ owes c₀ k d l →
      justified c₀ d ∨ owes c₀ k d l := by
    intro k d l hor
    exact hor.imp (fun hright => hright rfl) And.right
  refine ⟨fun hA hB hinstr c hor => ?_, fun hA hB hinstr c hor => ?_, fun hA hB hinstr => ?_,
    fun hA hB hinstr c hor heq => ?_⟩
  · by_cases heq : c = c₀
    · subst heq
      exact (hcode.move hA hB hinstr c (hown hor)).imp (fun hright _ => hright) fun howe =>
        ⟨rfl, howe⟩
    · exact .inl fun h => absurd h heq
  · by_cases heq : c = c₀
    · subst heq
      exact (hcode.wakeup hA hB hinstr c (hown hor)).imp_right fun hor' =>
        hor'.imp (fun hright _ => hright) fun howe => ⟨rfl, howe⟩
    · exact .inr (.inl fun h => absurd h heq)
  · obtain ⟨hright, hkeep⟩ := hcode.sleep hA hB hinstr
    refine ⟨fun _ => hright, fun c hor heq => ?_⟩
    subst heq
    exact hkeep c (hown hor)
  · subst heq
    exact hcode.release hA hB hinstr c (hown hor)

/-- A thread in this phase will wake the sleeper `q` of the channel `c`. -/
def Phase.owing (owes : Chan → Bool → D → L → Prop) (c : Chan) (q : Nat) (k : Bool)
    (d : D) : Phase Chan L R → Prop
  | .hold l => owes c k d l
  | .waking c' j l => c = c' ∧ j ≤ q ∨ owes c k d l
  | .out _ | .wait _ | .doze _ _ | .asleep _ _ => False

/-- Whoever has decided to sleep is right or will be woken by the thread that holds
the lock. -/
structure Safe (code : Code Chan D L R I) (justified : Chan → D → Prop)
    (owes : Chan → Bool → D → L → Prop) (m : State Chan D L R) : Prop where
  wf : Wf code m
  sleepers : ∀ q c, (m.phase q).bed = some c → justified c m.data ∨
    ∃ h, m.lock = some h ∧ (m.phase h).owing owes c q (m.killed h) m.data

/-- A kill does not make the thread forget a wakeup that it owes. -/
def Harmless (owes : Chan → Bool → D → L → Prop) (m : State Chan D L R) : Act L I → Prop
  | .kill p => ∀ l, (m.phase p).held = some l → ∀ c,
    owes c (m.killed p) m.data l → owes c true m.data l
  | _ => True

theorem Safe.initial (code : Code Chan D L R I) (justified : Chan → D → Prop)
    (owes : Chan → Bool → D → L → Prop) (d : D) (killed : Nat → Bool) :
    Safe code justified owes ⟨d, none, fun _ => .out none, killed⟩ :=
  ⟨Wf.initial code d killed, nofun⟩

/-- Whenever the lock is free, every sleeper is right to sleep. -/
theorem Safe.justified_of_free (h : Safe code justified owes m) (hfree : m.lock = none)
    (hbed : (m.phase q).bed = some c) : justified c m.data := by
  rcases h.sleepers q c hbed with hright | ⟨p, hlock, -⟩
  · exact hright
  · rw [hfree] at hlock
    cases hlock

/-- A thread that does not hold the lock moves; it sleeps afterwards only where it did
before. -/
theorem Safe.setIdle (h : Safe code justified owes m) (hp : p < code.nproc)
    (hold : (m.phase p).held = none) (hnew : x.held = none)
    (hbed : ∀ c, x.bed = some c → (m.phase p).bed = some c) :
    Safe code justified owes (m.setPhase p x) := by
  refine ⟨h.wf.setPhase hp (by rw [hold, hnew]), fun q c hq => ?_⟩
  have hq' : (m.phase q).bed = some c := by
    rcases eq_or_ne q p with rfl | hne
    · rw [setPhase_self] at hq
      exact hbed c hq
    · rwa [setPhase_of_ne m x hne] at hq
  rcases h.sleepers q c hq' with hright | ⟨t, hlock, howing⟩
  · exact .inl hright
  · have hne : t ≠ p := by
      rintro rfl
      exact (h.wf.holder t).mp hlock hold
    refine .inr ⟨t, hlock, ?_⟩
    show ((m.setPhase p x).phase t).owing owes c q (m.killed t) m.data
    rwa [setPhase_of_ne m x hne]

/-- The thread that holds the lock moves and changes the data. -/
theorem Safe.setHeld (h : Safe code justified owes m) (hheld : (m.phase p).held ≠ none)
    {d : D} (hnew : x.held ≠ none)
    (howing : ∀ q c, (m.phase q).bed = some c →
      justified c m.data ∨ (m.phase p).owing owes c q (m.killed p) m.data →
      justified c d ∨ x.owing owes c q (m.killed p) d) :
    Safe code justified owes { m.setPhase p x with data := d } := by
  have hlock : m.lock = some p := (h.wf.holder p).mpr hheld
  have hlt : p < code.nproc := by
    apply h.wf.lt_nproc
    intro r hr
    rw [hr] at hheld
    exact hheld rfl
  have hwf := h.wf.setPhase (x := x) hlt ⟨fun _ => hheld, fun _ => hnew⟩
  refine ⟨⟨hwf.slots, hwf.holder⟩, fun q c hq => ?_⟩
  change ((m.setPhase p x).phase q).bed = some c at hq
  have hne : q ≠ p := by
    rintro rfl
    rw [setPhase_self] at hq
    exact hnew (held_of_bed hq)
  rw [setPhase_of_ne m x hne] at hq
  have hold : justified c m.data ∨ (m.phase p).owing owes c q (m.killed p) m.data := by
    refine (h.sleepers q c hq).imp_right ?_
    rintro ⟨t, ht, howe⟩
    rw [hlock, Option.some.injEq] at ht
    exact ht ▸ howe
  refine (howing q c hq hold).imp_right fun howe => ⟨p, hlock, ?_⟩
  show ((m.setPhase p x).phase p).owing owes c q (m.killed p) d
  rwa [setPhase_self]

/-- The thread that holds the lock gives it up. -/
theorem Safe.setFree (h : Safe code justified owes m) (hheld : (m.phase p).held ≠ none)
    {d : D} (hnew : x.held = none) (hbed : ∀ c, x.bed = some c → justified c d)
    (hright : ∀ q c, justified c m.data ∨ (m.phase p).owing owes c q (m.killed p) m.data →
      justified c d) :
    Safe code justified owes { m.setPhase p x with data := d, lock := none } := by
  have hlock : m.lock = some p := (h.wf.holder p).mpr hheld
  have hlt : p < code.nproc := by
    apply h.wf.lt_nproc
    intro r hr
    rw [hr] at hheld
    exact hheld rfl
  have hwf := h.wf.setLock (x := x) hlt none (fun q hne => ⟨?_, nofun⟩)
    (by rw [hnew]; exact ⟨nofun, fun hne => absurd rfl hne⟩)
  · refine ⟨⟨hwf.slots, hwf.holder⟩, fun q c hq => .inl ?_⟩
    change ((m.setPhase p x).phase q).bed = some c at hq
    rcases eq_or_ne q p with rfl | hne
    · rw [setPhase_self] at hq
      exact hbed c hq
    · rw [setPhase_of_ne m x hne] at hq
      refine hright q c ((h.sleepers q c hq).imp_right ?_)
      rintro ⟨t, ht, howe⟩
      rw [hlock, Option.some.injEq] at ht
      exact ht ▸ howe
  · rw [hlock]
    exact fun heq => hne (Option.some.inj heq).symm

theorem Safe.perform (hcode : Discipline code A B justified owes) (hassert : Asserts A B m)
    (h : Safe code justified owes m) {l : L} (hp : m.phase p = .hold l) (i : I) :
    Safe code justified owes (m.perform p (code.instr i (m.killed p) m.data l)) := by
  have hheld : (m.phase p).held ≠ none := by simp [hp]
  have hA : A m.data := hassert.data
  have hB : B m.data l := hassert.holder p l (by simp [hp])
  cases hinstr : code.instr i (m.killed p) m.data l with
  | move d l' =>
    refine h.setHeld hheld nofun fun q c _ => ?_
    rw [hp]
    exact hcode.move hA hB hinstr c
  | wakeup c' l' =>
    refine h.setHeld hheld nofun fun q c _ hold => ?_
    rw [hp] at hold
    rcases hcode.wakeup hA hB hinstr c hold with rfl | hright | howe
    · exact .inr (.inl ⟨rfl, Nat.zero_le q⟩)
    · exact .inl hright
    · exact .inr (.inr howe)
  | sleep c' l' =>
    obtain ⟨hsleep, hkeep⟩ := hcode.sleep hA hB hinstr
    refine h.setFree hheld rfl (fun c hc => ?_) fun q c hold => ?_
    · exact Option.some.inj hc ▸ hsleep
    · rw [hp] at hold
      exact hkeep c hold
  | release d r =>
    refine h.setFree hheld rfl nofun fun q c hold => ?_
    rw [hp] at hold
    exact hcode.release hA hB hinstr c hold

/-- A sleeping thread is woken. -/
theorem Safe.wake (h : Safe code justified owes m) {l : L} (hp : m.phase p = .asleep c l) :
    Safe code justified owes (m.setPhase p (.wait l)) :=
  h.setIdle (h.wf.lt_nproc (by simp [hp])) (by simp [hp]) rfl nofun

/-- One more slot of `wakeup` is done. -/
theorem Safe.wakeNext (h : Safe code justified owes m) {l : L} {j : Nat}
    (hp : m.phase p = .waking c j l) (hj : j = p ∨ (m.phase j).bed ≠ some c) :
    Safe code justified owes (m.setPhase p (.waking c (j + 1) l)) := by
  refine h.setHeld (by simp [hp]) nofun fun q c' hq => Or.imp_right fun howe => ?_
  rw [hp] at howe
  rcases howe with ⟨rfl, hle⟩ | howe
  · refine .inl ⟨rfl, Nat.lt_of_le_of_ne hle ?_⟩
    rintro rfl
    rcases hj with rfl | hbed
    · rw [hp] at hq
      cases hq
    · exact hbed hq
  · exact .inr howe

/-- The loop of `wakeup` ends after the last slot. -/
theorem Safe.wakeDone (h : Safe code justified owes m) {l : L} {j : Nat}
    (hp : m.phase p = .waking c j l) (hj : code.nproc ≤ j) :
    Safe code justified owes (m.setPhase p (.hold l)) := by
  refine h.setHeld (by simp [hp]) nofun fun q c' hq => Or.imp_right fun howe => ?_
  rw [hp] at howe
  rcases howe with ⟨rfl, hle⟩ | howe
  · have hlt : q < code.nproc := h.wf.lt_nproc fun r hr => by simp [hr] at hq
    omega
  · exact howe

theorem Safe.setKilled (h : Safe code justified owes m) {k : Bool}
    (howing : ∀ l, (m.phase p).held = some l → ∀ c,
      owes c (m.killed p) m.data l → owes c k m.data l) :
    Safe code justified owes (m.setKilled p k) := by
  refine ⟨⟨h.wf.slots, h.wf.holder⟩, fun q c hq => ?_⟩
  refine (h.sleepers q c hq).imp_right ?_
  rintro ⟨t, hlock, howe⟩
  refine ⟨t, hlock, ?_⟩
  show (m.phase t).owing owes c q (update m.killed p k t) m.data
  rcases eq_or_ne t p with rfl | hne
  · rw [update_self]
    cases ht : m.phase t with
    | hold l =>
      rw [ht] at howe
      exact howing l (by simp [ht]) c howe
    | waking c' j l =>
      rw [ht] at howe
      exact Or.imp_right (howing l (by simp [ht]) c) howe
    | out r => simp [ht, Phase.owing] at howe
    | wait l => simp [ht, Phase.owing] at howe
    | doze c' l => simp [ht, Phase.owing] at howe
    | asleep c' l => simp [ht, Phase.owing] at howe
  · rwa [update_of_ne hne]

/-- Disciplined code loses no wakeup in a step that is not a harmful kill. -/
theorem Safe.step [DecidableEq Chan] (hcode : Discipline code A B justified owes)
    (hassert : Asserts A B m) (h : Safe code justified owes m) {a : Act L I}
    (ha : Harmless owes m a) (hm : step code m a = some m') : Safe code justified owes m' := by
  have hwf := h.wf.step hm
  cases step_of_eq_some hm with
  | call hp hlt => exact h.setIdle hlt (by simp [hp]) rfl nofun
  | @acquire p l hp hfree =>
    -- nobody held the lock, so all sleepers are right
    refine ⟨hwf, fun q c hq => .inl (h.justified_of_free hfree (q := q) ?_)⟩
    change ((m.setPhase p (.hold l)).phase q).bed = some c at hq
    rcases eq_or_ne q p with rfl | hne
    · rw [setPhase_self] at hq
      cases hq
    · rwa [setPhase_of_ne m _ hne] at hq
  | run hp => exact h.perform hcode hassert hp _
  | pass hp hj => exact h.wakeNext hp hj
  | @wake p c j l l' hp hne hj =>
    refine (h.wake hj).wakeNext (by rw [setPhase_of_ne m _ hne.symm, hp]) (.inr ?_)
    rw [setPhase_self]
    exact nofun
  | wakeDone hp hj => exact h.wakeDone hp hj
  | fallAsleep hp =>
    refine h.setIdle (h.wf.lt_nproc (by simp [hp])) (by simp [hp]) rfl fun c' hc' => ?_
    rw [hp]
    exact hc'
  | killAsleep hp =>
    refine (h.wake hp).setKilled fun l' hl' => ?_
    rw [setPhase_self] at hl'
    cases hl'
  | kill => exact h.setKilled ha
  | reset hp =>
    refine h.setKilled fun l hl => ?_
    rw [hp] at hl
    cases hl

end LostWakeups

end Xv6.Lib.Monitor
