import Mathlib.Algebra.BigOperators.Group.Finset.Piecewise
import Xv6.Lib.Monitor
import Xv6.Log.System

/-!
# Lost wakeups on the log

`begin_op`, `log_write` and `end_op` of `kernel/log.c` as code under `log.lock`, with
the channel `&log` on which `begin_op` waits.

* `Log`, `Place`, `instr`: the fields that the lock protects, and the code.
* `Event`, `step`: processes that call `log_write` and `end_op` only between a
  `begin_op` and its `end_op`.  The call of `commit` between the two parts of
  `end_op` runs without the lock, and empties the header.
* `Role`, `Shape`: `log.outstanding` counts the processes in an operation, the last
  of them commits alone, and a log without operations and commit is empty.
* `justified`, `owes`, `discipline`: `begin_op` waits during a commit and for lack of
  space, and whoever changes that owes a wakeup.
* `begin_op_sleeps_for_reason`.
-/

namespace Xv6.LogWait

open Xv6.Lib.Run Xv6.Lib.Monitor
open Xv6.Log (LOGBLOCKS MAXOPBLOCKS)

/-! ## The code -/

/-- The fields that `log.lock` protects; `block` is the header, of which `lh.n` is the
length. -/
structure Log where
  outstanding : Int
  committing : Bool
  block : List Nat
  deriving DecidableEq, Repr

inductive Place where
  /-- In the loop of `begin_op`. -/
  | begin
  /-- In `log_write`, for a buffer with this block number. -/
  | write (blockno : Nat)
  /-- At the start of `end_op`. -/
  | endOp
  /-- Before the `wakeup` of an `end_op` that does not commit. -/
  | endWake
  /-- Before the end of the first part of an `end_op` that commits. -/
  | toCommit
  /-- At the start of the second part of `end_op`. -/
  | endCommit
  /-- Before the `wakeup` of that part. -/
  | commitWake
  /-- Before the end of `end_op`. -/
  | done
  /-- In `panic`. -/
  | panicked
  deriving DecidableEq, Repr

inductive Result where
  | begun
  | logged
  /-- The first part of `end_op` is over, and `commit` comes next. -/
  | mustCommit
  /-- `commit` has returned. -/
  | committed
  | ended
  deriving DecidableEq, Repr

abbrev LogInstr := Instr Unit Log Place Result

/-- One turn of the loop of `begin_op`. -/
def beginOp (d : Log) : LogInstr :=
  if d.committing then .sleep () .begin
  else if d.block.length + (d.outstanding + 1) * MAXOPBLOCKS > LOGBLOCKS then .sleep () .begin
  else .release { d with outstanding := d.outstanding + 1 } .begun

/-- `log_write`: a block that is in the log already is absorbed. -/
def logWrite (d : Log) (blockno : Nat) : LogInstr :=
  if d.block.length ≥ LOGBLOCKS then .move d .panicked
  else if d.outstanding < 1 then .move d .panicked
  else if blockno ∈ d.block then .release d .logged
  else .release { d with block := d.block ++ [blockno] } .logged

/-- The first part of `end_op`. -/
def endOp (d : Log) : LogInstr :=
  let d := { d with outstanding := d.outstanding - 1 }
  if d.committing then .move d .panicked
  else if d.outstanding = 0 then .move { d with committing := true } .toCommit
  else .move d .endWake

def instr (_ : Unit) (_ : Bool) (d : Log) : Place → LogInstr
  | .begin => beginOp d
  | .write blockno => logWrite d blockno
  | .endOp => endOp d
  | .endWake => .wakeup () .done
  | .toCommit => .release d .mustCommit
  | .endCommit => .move { d with committing := false } .commitWake
  | .commitWake => .wakeup () .done
  | .done => .release d .ended
  | .panicked => .move d .panicked

def Place.entry : Place → Bool
  | .begin | .write _ | .endOp | .endCommit => true
  | .endWake | .toCommit | .commitWake | .done | .panicked => false

/-- The code in a kernel with `nproc` process slots. -/
def code (nproc : Nat) : Code Unit Log Place Result Unit where
  nproc := nproc
  entry := Place.entry
  alive _ := true
  instr := instr

abbrev Sys := State Unit Log Place Result

/-! ## The processes together -/

inductive Role where
  | idle
  | op
  | committer
  deriving DecidableEq, Repr

/-- What a process is doing, by where it is in the code. -/
def role : Option Result ⊕ Place → Role
  | .inl none | .inl (some .ended) => .idle
  | .inl (some .begun) | .inl (some .logged) => .op
  | .inl (some .mustCommit) | .inl (some .committed) => .committer
  | .inr .begin | .inr .endWake | .inr .commitWake | .inr .done => .idle
  | .inr (.write _) | .inr .endOp | .inr .panicked => .op
  | .inr .toCommit | .inr .endCommit => .committer

inductive Event where
  | act (a : Act Place Unit)
  /-- The process runs `commit`, without `log.lock`. -/
  | commit (p : Nat)

/-- Operations are not nested, and `log_write` and `end_op` are called in one. -/
def proper (m : Sys) : Act Place Unit → Bool
  | .call p .begin => role (m.phase p).site == .idle
  | .call p (.write _) | .call p .endOp => role (m.phase p).site == .op
  | .call p .endCommit => decide ((m.phase p).site = .inl (some .committed))
  | _ => true

def step (nproc : Nat) (m : Sys) : Event → Option Sys
  | .act a => if proper m a = true then Lib.Monitor.step (code nproc) m a else none
  | .commit p =>
    if p < nproc ∧ m.phase p = .out (some .mustCommit) then
      some { m.setPhase p (.out (some .committed)) with data := { m.data with block := [] } }
    else none

/-- After `initlog`. -/
def initial (killed : Nat → Bool) : Sys where
  data := { outstanding := 0, committing := false, block := [] }
  lock := none
  phase _ := .out none
  killed := killed

/-! ## What an instruction can be -/

/-- It is right to wait during a commit and for lack of space. -/
def justified (_ : Unit) (d : Log) : Prop :=
  d.committing = true ∨ d.block.length + (d.outstanding + 1) * MAXOPBLOCKS > LOGBLOCKS

/-- The instructions at each place. -/
inductive Does (d : Log) : Place → LogInstr → Prop
  | wait (hwait : justified () d) : Does d .begin (.sleep () .begin)
  | begins (hcommit : d.committing = false) :
      Does d .begin (.release { d with outstanding := d.outstanding + 1 } .begun)
  | refuse {blockno : Nat} : Does d (.write blockno) (.move d .panicked)
  | absorb {blockno : Nat} : Does d (.write blockno) (.release d .logged)
  | log {blockno : Nat} (hop : 1 ≤ d.outstanding) :
      Does d (.write blockno) (.release { d with block := d.block ++ [blockno] } .logged)
  | bad (hcommit : d.committing = true) :
      Does d .endOp (.move { d with outstanding := d.outstanding - 1 } .panicked)
  | last (hcommit : d.committing = false) (hlast : d.outstanding - 1 = 0) :
      Does d .endOp
        (.move { d with outstanding := d.outstanding - 1, committing := true } .toCommit)
  | ends (hcommit : d.committing = false) (hmore : d.outstanding - 1 ≠ 0) :
      Does d .endOp (.move { d with outstanding := d.outstanding - 1 } .endWake)
  | endWake : Does d .endWake (.wakeup () .done)
  | toCommit : Does d .toCommit (.release d .mustCommit)
  | endCommit : Does d .endCommit (.move { d with committing := false } .commitWake)
  | commitWake : Does d .commitWake (.wakeup () .done)
  | done : Does d .done (.release d .ended)
  | panicked : Does d .panicked (.move d .panicked)

theorem instr_does (u : Unit) (k : Bool) (d : Log) (l : Place) : Does d l (instr u k d l) := by
  cases l with
  | begin =>
    simp only [instr, beginOp]
    split
    · next hcommit => exact .wait (.inl hcommit)
    · next hcommit =>
      split
      · next hfull => exact .wait (.inr hfull)
      · exact .begins (Bool.eq_false_iff.mpr hcommit)
  | write blockno =>
    simp only [instr, logWrite]
    split
    · exact .refuse
    split
    · exact .refuse
    · next hop =>
      split
      · exact .absorb
      · exact .log (Int.not_lt.mp hop)
  | endOp =>
    simp only [instr, endOp]
    split
    · next hcommit => exact .bad hcommit
    · next hcommit =>
      have hcommit : d.committing = false := Bool.eq_false_iff.mpr hcommit
      split
      · next hlast => exact .last hcommit hlast
      · next hmore => exact .ends hcommit hmore
  | endWake => exact .endWake
  | toCommit => exact .toCommit
  | endCommit => exact .endCommit
  | commitWake => exact .commitWake
  | done => exact .done
  | panicked => exact .panicked

theorem does_of_instr {nproc : Nat} {i : Unit} {k : Bool} {d : Log} {l : Place} {x : LogInstr}
    (h : (code nproc).instr i k d l = x) : Does d l x :=
  h ▸ instr_does i k d l

/-! ## Lost wakeups -/

/-- A process that has ended an operation or a commit owes a wakeup. -/
def owes (_ : Unit) (_ : Bool) (_ : Log) (l : Place) : Prop :=
  l = .endWake ∨ l = .commitWake

/-- More operations and more blocks leave less space. -/
theorem justified_mono {d d' : Log} (h : justified () d) (hcommit : d'.committing = d.committing)
    (hops : d.outstanding ≤ d'.outstanding) (hblocks : d.block.length ≤ d'.block.length) :
    justified () d' := by
  rcases h with hright | hfull
  · exact .inl (hcommit.trans hright)
  · refine .inr ?_
    simp only [MAXOPBLOCKS] at hfull ⊢
    omega

theorem discipline (nproc : Nat) :
    Discipline (code nproc) (fun _ => True) (fun _ _ => True) justified owes where
  move _ _ hinstr c hor := by
    cases does_of_instr hinstr with
    | refuse => exact .inl (hor.resolve_right (by rintro (h | h) <;> cases h))
    | bad hcommit => exact .inl (.inl hcommit)
    | last => exact .inl (.inl rfl)
    | ends => exact .inr (.inl rfl)
    | endCommit => exact .inr (.inr rfl)
    | panicked => exact .inl (hor.resolve_right (by rintro (h | h) <;> cases h))
  wakeup _ _ _ _ _ := .inl rfl
  sleep _ _ hinstr := by
    cases does_of_instr hinstr with
    | wait hwait => exact ⟨hwait, fun _ _ => hwait⟩
  release _ _ hinstr c hor := by
    cases does_of_instr hinstr with
    | begins =>
      have hright := hor.resolve_right (by rintro (h | h) <;> cases h)
      refine justified_mono hright rfl ?_ le_rfl
      dsimp only
      omega
    | absorb => exact hor.resolve_right (by rintro (h | h) <;> cases h)
    | log =>
      have hright := hor.resolve_right (by rintro (h | h) <;> cases h)
      exact justified_mono hright rfl le_rfl (by simp)
    | toCommit => exact hor.resolve_right (by rintro (h | h) <;> cases h)
    | done => exact hor.resolve_right (by rintro (h | h) <;> cases h)

/-! ## Operations and commits -/

/-- The processes in an operation. -/
def ops (nproc : Nat) (m : Sys) : Finset Nat :=
  (Finset.range nproc).filter fun p => role (m.phase p).site = .op

/-- The process has committed and has not said so yet. -/
def cleared : Option Result ⊕ Place → Prop
  | .inl (some .committed) | .inr .endCommit => True
  | _ => False

theorem committer_of_cleared {x : Option Result ⊕ Place} (h : cleared x) : role x = .committer := by
  unfold cleared at h
  split at h
  · rfl
  · rfl
  · exact h.elim

/-- The counter and the flag agree with what the processes do. -/
structure Shape (nproc : Nat) (m : Sys) : Prop where
  count : m.data.outstanding = (ops nproc m).card
  committer : ∀ p, role (m.phase p).site = .committer → m.data.committing = true
  unique : ∀ p q, role (m.phase p).site = .committer → role (m.phase q).site = .committer → p = q
  alone : m.data.committing = true → m.data.outstanding = 0
  cleared : ∀ p, cleared (m.phase p).site → m.data.block = []
  empty : m.data.committing = false → m.data.outstanding = 0 → m.data.block = []

section Steps

variable {nproc p : Nat} {m m' : Sys} {x : Phase Unit Place Result}

/-- The number of operations when one process moves. -/
theorem card_ops_setPhase (m : Sys) (hp : p < nproc) (x : Phase Unit Place Result) :
    (ops nproc (m.setPhase p x)).card + (if role (m.phase p).site = .op then 1 else 0) =
      (ops nproc m).card + (if role x.site = .op then 1 else 0) := by
  have hmem : p ∈ Finset.range nproc := Finset.mem_range.mpr hp
  have hrest : ∑ q ∈ (Finset.range nproc).erase p,
        (if role ((m.setPhase p x).phase q).site = .op then 1 else 0) =
      ∑ q ∈ (Finset.range nproc).erase p, (if role (m.phase q).site = .op then 1 else 0) := by
    refine Finset.sum_congr rfl fun q hq => ?_
    rw [setPhase_of_ne m x (Finset.ne_of_mem_erase hq)]
  rw [ops, ops, Finset.card_filter, Finset.card_filter, ← Finset.add_sum_erase _ _ hmem,
    ← Finset.add_sum_erase _ _ hmem, hrest, setPhase_self]
  omega

/-- A step that changes neither the data nor what the processes do. -/
theorem Shape.of_role (h : Shape nproc m) (hdata : m'.data = m.data)
    (hrole : ∀ q, role (m'.phase q).site = role (m.phase q).site)
    (hcleared : ∀ q, LogWait.cleared (m'.phase q).site → LogWait.cleared (m.phase q).site) :
    Shape nproc m' := by
  have hops : ops nproc m' = ops nproc m := by
    rw [ops, ops]
    exact Finset.filter_congr fun q _ => by rw [hrole]
  refine ⟨?_, fun q hq => ?_, fun q r hq hr => ?_, ?_, fun q hq => ?_, ?_⟩
  · rw [hdata, hops]
    exact h.count
  · rw [hdata]
    exact h.committer q ((hrole q).symm.trans hq)
  · exact h.unique q r ((hrole q).symm.trans hq) ((hrole r).symm.trans hr)
  · rw [hdata]
    exact h.alone
  · rw [hdata]
    exact h.cleared q (hcleared q hq)
  · rw [hdata]
    exact h.empty

/-- One process moves and goes on doing the same. -/
theorem Shape.move (h : Shape nproc m) (hrole : role x.site = role (m.phase p).site)
    (hcleared : LogWait.cleared x.site → LogWait.cleared (m.phase p).site) :
    Shape nproc (m.setPhase p x) := by
  refine h.of_role rfl (fun q => ?_) fun q hq => ?_
  · rcases eq_or_ne q p with rfl | hne
    · rw [setPhase_self, hrole]
    · rw [setPhase_of_ne m x hne]
  · rcases setPhase_cases LogWait.cleared hq with ⟨rfl, hx⟩ | ⟨-, hq⟩
    · exact hcleared hx
    · exact hq

/-- Only the data and the phases matter. -/
theorem Shape.congr (h : Shape nproc m) (hdata : m'.data = m.data) (hphase : m'.phase = m.phase) :
    Shape nproc m' :=
  h.of_role hdata (fun q => by rw [hphase]) fun q hq => by rwa [hphase] at hq

/-- A process in an operation is counted. -/
theorem Shape.outstanding_pos (h : Shape nproc m) (hp : p < nproc)
    (hrole : role (m.phase p).site = .op) : 1 ≤ m.data.outstanding := by
  have hpos : 0 < (ops nproc m).card :=
    Finset.card_pos.mpr ⟨p, Finset.mem_filter.mpr ⟨Finset.mem_range.mpr hp, hrole⟩⟩
  rw [h.count]
  omega

/-- One process moves and changes the data. -/
theorem Shape.set (h : Shape nproc m) (d : Log) (lock : Option Nat)
    (hcount : d.outstanding = (ops nproc (m.setPhase p x)).card)
    (hself : role x.site = .committer → d.committing = true ∧
      ∀ q, q ≠ p → role (m.phase q).site ≠ .committer)
    (hothers : ∀ q, q ≠ p → role (m.phase q).site = .committer →
      d.committing = true ∧ d.block.length ≤ m.data.block.length)
    (halone : d.committing = true → d.outstanding = 0)
    (hcleared : LogWait.cleared x.site → d.block = [])
    (hempty : d.committing = false → d.outstanding = 0 → d.block = []) :
    Shape nproc { m.setPhase p x with data := d, lock := lock } := by
  refine ⟨hcount, fun q hq => ?_, fun q r hq hr => ?_, halone, fun q hq => ?_, hempty⟩
  · rcases setPhase_cases (role · = .committer) hq with ⟨-, hx⟩ | ⟨hne, hq⟩
    · exact (hself hx).1
    · exact (hothers q hne hq).1
  · rcases setPhase_cases (role · = .committer) hq with ⟨hqp, hx⟩ | ⟨hqp, hq⟩
    · rcases setPhase_cases (role · = .committer) hr with ⟨hrp, -⟩ | ⟨hrp, hr⟩
      · exact hqp.trans hrp.symm
      · exact absurd hr ((hself hx).2 r hrp)
    · rcases setPhase_cases (role · = .committer) hr with ⟨-, hx⟩ | ⟨-, hr⟩
      · exact absurd hq ((hself hx).2 q hqp)
      · exact h.unique q r hq hr
  · rcases setPhase_cases LogWait.cleared hq with ⟨-, hx⟩ | ⟨hne, hq⟩
    · exact hcleared hx
    · have hle := (hothers q hne (committer_of_cleared hq)).2
      rw [h.cleared q hq] at hle
      exact List.length_eq_zero_iff.mp (Nat.le_zero.mp hle)

theorem Shape.perform (h : Shape nproc m) (hp : p < nproc) {l : Place} {y : LogInstr}
    (hhold : m.phase p = .hold l) (hdoes : Does m.data l y) : Shape nproc (m.perform p y) := by
  have hsite : (m.phase p).site = .inr l := by rw [hhold]; rfl
  have hcount := h.count
  have hcard := fun x : Phase Unit Place Result => card_ops_setPhase m hp x
  rw [hsite] at hcard
  -- while no commit goes on there is no committer
  have hnone : m.data.committing = false → ∀ q, role (m.phase q).site ≠ .committer := by
    intro hcommit q hq
    rw [h.committer q hq] at hcommit
    cases hcommit
  cases hdoes with
  | wait => exact (h.move (x := .doze () .begin) (by rw [hsite]; rfl) nofun).congr rfl rfl
  | begins hcommit =>
    have hcard : (ops nproc (m.setPhase p (.out (some .begun)))).card + 0 =
        (ops nproc m).card + 1 :=
      hcard _
    refine h.set _ none ?_ nofun (fun q _ hq => absurd hq (hnone hcommit q)) (fun htrue => ?_) nofun
      fun _ hzero => ?_
    · dsimp only
      omega
    · rw [hcommit] at htrue
      cases htrue
    · dsimp only at hzero
      omega
  | refuse => exact (h.move (x := .hold .panicked) (by rw [hsite]; rfl) nofun).congr rfl rfl
  | absorb => exact (h.move (x := .out (some .logged)) (by rw [hsite]; rfl) nofun).congr rfl rfl
  | log hop =>
    have hcard : (ops nproc (m.setPhase p (.out (some .logged)))).card + 1 =
        (ops nproc m).card + 1 :=
      hcard _
    have hcommit : m.data.committing = false := by
      refine Bool.eq_false_iff.mpr fun htrue => ?_
      have := h.alone htrue
      omega
    refine h.set _ none ?_ nofun (fun q _ hq => absurd hq (hnone hcommit q)) h.alone nofun
      fun _ hzero => ?_
    · dsimp only
      omega
    · dsimp only at hzero
      omega
  | bad hcommit =>
    have := h.outstanding_pos hp (by rw [hsite]; rfl)
    have := h.alone hcommit
    omega
  | last hcommit hlast =>
    have hcard : (ops nproc (m.setPhase p (.hold .toCommit))).card + 1 = (ops nproc m).card + 0 :=
      hcard _
    refine h.set _ m.lock ?_ (fun _ => ⟨rfl, fun q _ => hnone hcommit q⟩)
      (fun q _ hq => absurd hq (hnone hcommit q)) (fun _ => hlast) nofun nofun
    dsimp only
    omega
  | ends hcommit hmore =>
    have hcard : (ops nproc (m.setPhase p (.hold .endWake))).card + 1 = (ops nproc m).card + 0 :=
      hcard _
    refine h.set _ m.lock ?_ nofun (fun q _ hq => absurd hq (hnone hcommit q))
      (fun htrue => ?_) nofun
      fun _ hzero => absurd hzero hmore
    · dsimp only
      omega
    · rw [hcommit] at htrue
      cases htrue
  | endWake => exact h.move (by rw [hsite]; rfl) nofun
  | toCommit =>
    exact (h.move (x := .out (some .mustCommit)) (by rw [hsite]; rfl) nofun).congr rfl rfl
  | endCommit =>
    have hcard : (ops nproc (m.setPhase p (.hold .commitWake))).card + 0 = (ops nproc m).card + 0 :=
      hcard _
    have hrole : role (m.phase p).site = .committer := by rw [hsite]; rfl
    have hblock : m.data.block = [] := h.cleared p (by rw [hsite]; trivial)
    refine h.set _ m.lock ?_ nofun (fun q hne hq => absurd (h.unique q p hq hrole) hne) nofun nofun
      fun _ _ => hblock
    dsimp only
    omega
  | commitWake => exact h.move (by rw [hsite]; rfl) nofun
  | done => exact (h.move (x := .out (some .ended)) (by rw [hsite]; rfl) nofun).congr rfl rfl
  | panicked => exact (h.move (x := .hold .panicked) (by rw [hsite]; rfl) nofun).congr rfl rfl

theorem of_step {a : Act Place Unit} (hstep : step nproc m (.act a) = some m') :
    proper m a = true ∧ Lib.Monitor.step (code nproc) m a = some m' := by
  rw [step] at hstep
  split at hstep
  · next hproper => exact ⟨hproper, hstep⟩
  · cases hstep

theorem Shape.act (h : Shape nproc m) (hwf : Wf (code nproc) m) {a : Act Place Unit}
    (hstep : step nproc m (.act a) = some m') : Shape nproc m' := by
  obtain ⟨hproper, hstep⟩ := of_step hstep
  rcases step_cases hstep with ⟨p, l, r, rfl, hentry, hp, rfl⟩ | ⟨p, i, l, rfl, hp, rfl⟩ | ⟨-,
    hdata, hsite, -⟩
  · cases l with
    | begin =>
      have hrole : role (m.phase p).site = .idle := by simpa [proper] using hproper
      exact h.move hrole.symm (by rintro ⟨⟩)
    | write blockno =>
      have hrole : role (m.phase p).site = .op := by simpa [proper] using hproper
      exact h.move hrole.symm (by rintro ⟨⟩)
    | endOp =>
      have hrole : role (m.phase p).site = .op := by simpa [proper] using hproper
      exact h.move hrole.symm (by rintro ⟨⟩)
    | endCommit =>
      have hsite : (m.phase p).site = .inl (some .committed) := of_decide_eq_true hproper
      exact h.move (by rw [hsite]; rfl) fun _ => by rw [hsite]; trivial
    | endWake => cases hentry
    | toCommit => cases hentry
    | commitWake => cases hentry
    | done => cases hentry
    | panicked => cases hentry
  · exact h.perform (hwf.lt_nproc fun r hr => by rw [hp] at hr; cases hr) hp
      (instr_does i (m.killed p) m.data l)
  · exact h.of_role hdata (fun q => by rw [hsite]) fun q hq => by rwa [hsite] at hq

/-- `commit` empties the header while it is the only one to use the log. -/
theorem Shape.commit (h : Shape nproc m) (hlt : p < nproc)
    (hp : m.phase p = .out (some .mustCommit)) :
    Shape nproc { m.setPhase p (.out
      (some .committed)) with data := { m.data with block := [] } } := by
  have hsite : (m.phase p).site = .inl (some .mustCommit) := by rw [hp]; rfl
  have hrole : role (m.phase p).site = .committer := by rw [hsite]; rfl
  have hcard := card_ops_setPhase m hlt (.out (some .committed))
  rw [hsite] at hcard
  have hcard : (ops nproc (m.setPhase p (.out (some .committed)))).card + 0 =
      (ops nproc m).card + 0 :=
    hcard
  have hcount := h.count
  refine h.set _ m.lock ?_
    (fun _ => ⟨h.committer p hrole, fun q hne hq => hne (h.unique q p hq hrole)⟩)
    (fun q hne hq => absurd (h.unique q p hq hrole) hne) h.alone (fun _ => rfl) fun _ _ => rfl
  dsimp only
  omega

/-- During a commit every process that waits does so for a reason. -/
theorem safe_commit (hsafe : Safe (code nproc) justified owes m)
    (hp : m.phase p = .out (some .mustCommit)) (hcommit : m.data.committing = true)
    (hlt : p < nproc) :
    Safe (code nproc) justified owes
      { m.setPhase p (.out (some .committed)) with data := { m.data with block := [] } } := by
  have hwf := hsafe.wf.setPhase (x := .out (some .committed)) hlt (by rw [hp]; exact Iff.rfl)
  exact ⟨⟨hwf.slots, hwf.holder⟩, fun _ _ _ => .inl (.inl hcommit)⟩

end Steps

/-! ## Runs -/

section Runs

variable {nproc : Nat} {killed : Nat → Bool} {es : List Event} {m : Sys}

theorem shape_initial (nproc : Nat) (killed : Nat → Bool) : Shape nproc (initial killed) := by
  have hidle : ∀ p, role ((initial killed).phase p).site = .idle := fun _ => rfl
  refine ⟨?_, fun p hp => ?_, fun p _ hp => ?_, nofun, fun _ _ => rfl, fun _ _ => rfl⟩
  · rw [ops, Finset.filter_false_of_mem fun p _ => by rw [hidle]; decide]
    rfl
  · rw [hidle] at hp
    cases hp
  · rw [hidle] at hp
    cases hp

theorem safe_run (hrun : exec (step nproc) (initial killed) es = some m) :
    Shape nproc m ∧ Safe (code nproc) justified owes m := by
  refine inv_of_run (I := fun m => Shape nproc m ∧ Safe (code nproc) justified owes m)
    (fun s e t h hstep => ?_) ⟨shape_initial nproc killed, Safe.initial ..⟩ hrun
  obtain ⟨hshape, hsafe⟩ := h
  cases e with
  | act a =>
    refine ⟨hshape.act hsafe.wf hstep,
      hsafe.step (discipline nproc) (Asserts.trivial s) ?_ (of_step hstep).2⟩
    cases a with
    | kill p => exact fun _ _ _ howe => howe
    | _ => trivial
  | commit p =>
    obtain ⟨⟨hlt, hp⟩, rfl⟩ := of_guard hstep
    exact ⟨hshape.commit hlt hp,
      safe_commit hsafe hp (hshape.committer p (by rw [hp]; rfl)) hlt⟩

/-- Whenever `log.lock` is free, a process sleeps on `&log` only during a commit or for
lack of space, and then somebody is in an operation or commits. -/
theorem begin_op_sleeps_for_reason (hrun : exec (step nproc) (initial killed) es = some m)
    (hfree : m.lock = none) :
    (m.data.committing = false →
      m.data.block.length + (m.data.outstanding + 1) * MAXOPBLOCKS ≤ LOGBLOCKS →
      ∀ p l, m.phase p ≠ .asleep () l) ∧
    (∀ p l, m.phase p = .asleep () l → m.data.committing = true ∨ 1 ≤ m.data.outstanding) := by
  obtain ⟨hshape, hsafe⟩ := safe_run hrun
  have hright : ∀ p l, m.phase p = .asleep () l → justified () m.data := fun p l hasleep =>
    hsafe.justified_of_free hfree (q := p) (by rw [hasleep]; rfl)
  refine ⟨fun hcommit hroom p l hasleep => ?_, fun p l hasleep => ?_⟩
  · rcases hright p l hasleep with htrue | hfull
    · rw [hcommit] at htrue
      cases htrue
    · omega
  · rcases hright p l hasleep with htrue | hfull
    · exact .inl htrue
    · by_cases hcommit : m.data.committing = true
      · exact .inl hcommit
      · -- an idle log is empty, and has space for an operation
        refine .inr ?_
        have hcount := hshape.count
        have hempty := hshape.empty (Bool.eq_false_iff.mpr hcommit)
        by_contra hzero
        have hzero : m.data.outstanding = 0 := by omega
        rw [hempty hzero, hzero] at hfull
        exact absurd hfull (by decide)

/-- Three operations reserve the whole log, and a fourth process waits. -/
def reserved : List Event :=
  [.act (.call 0 .begin), .act (.acquire 0), .act (.run 0 ()),
    .act (.call 1 .begin), .act (.acquire 1), .act (.run 1 ()),
    .act (.call 2 .begin), .act (.acquire 2), .act (.run 2 ()),
    .act (.call 3 .begin), .act (.acquire 3), .act (.run 3 ()), .act (.fallAsleep 3)]

theorem begin_op_sleeps_for_reason_reserved :
    ∃ m, exec (step 4) (initial fun _ => false) reserved = some m ∧
      m.phase 3 = .asleep () .begin ∧ m.data.outstanding = 3 ∧
      (m.data.committing = false →
        m.data.block.length + (m.data.outstanding + 1) * MAXOPBLOCKS ≤ LOGBLOCKS →
        ∀ p l, m.phase p ≠ .asleep () l) ∧
      (∀ p l, m.phase p = .asleep () l → m.data.committing = true ∨ 1 ≤ m.data.outstanding) := by
  have hcheck : runCheck (step 4) (fun _ _ => true)
      (fun m => decide (m.lock = none ∧ m.phase 3 = .asleep () .begin ∧ m.data.outstanding = 3))
      (initial fun _ => false) reserved = true := by
    decide +kernel
  obtain ⟨-, m, hrun, hend⟩ := of_runCheck hcheck
  obtain ⟨hfree, hasleep, hcount⟩ := of_decide_eq_true hend
  exact ⟨m, hrun, hasleep, hcount, begin_op_sleeps_for_reason hrun hfree⟩

end Runs

end Xv6.LogWait
