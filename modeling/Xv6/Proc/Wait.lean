import Xv6.Lib.Run
import Xv6.Proc.Family
import Xv6.Proc.Table

/-!
# Exit and wait

The process table follows the steps of a family, so parents are alive and nobody
sleeps in `kwait` over a zombie child whenever `wait_lock` is free.

* `Table.family`: the families in a process table.
* `Follows`: a step of the table is a step of the families or none of their
  business.  `follows_tick`, `follows_call` and `follows_step` go through the
  sections.
* `TreeInv`, `treeInv_step`: what holds of the families in every run.
* `TreeInv.parent` and `TreeInv.noLostWakeup` read it off.
-/

namespace Xv6.ProcTable

open Xv6.Lib.Run
open Xv6.FamilyTree (Life Phase Family Kin Quiet)
open Function (update update_of_ne update_self update_eq_self)

variable {k l : Nat} {pid status : BitVec 32} {addr : BitVec 64} {m' : Table}

/-! ## The families in a process table -/

def lifeOf : ProcState → Life
  | .UNUSED => .unused
  | .USED => .used
  | .ZOMBIE => .zombie
  | .SLEEPING | .RUNNABLE | .RUNNING => .live

def Pc.phase : Pc → Phase
  | .user _ _ | .asleep | .forkScan _ | .waitLock _ | .kill _ _ => .idle
  | .forkParent k _ => .forking k
  | .forkRunnable k _ => .forked k
  | .exitClose _ _ | .exitCwd _ | .exitLock _ => .exiting
  | .reparent _ k => .giving k
  | .reparentWake _ k l => .calling k l
  | .exitWake _ parent l => .telling parent l
  | .exitZombie _ => .dying
  | .dead => .dead
  | .waitScan _ k _ => .looking k
  | .waitSleep _ => .tired
  | .waitAsleep _ => .bed

/-- The process is `SLEEPING` in the `sleep` of `kwait`. -/
def inBed (pc : Pc) (p : Proc) : Bool := decide (pc.phase = .bed ∧ p.state = .SLEEPING)

def Table.family (m : Table) : Family where
  life j := lifeOf (m.procs j).state
  parent j := (m.procs j).parent
  phase j := (m.pcs j).phase
  asleep j := inBed (m.pcs j) (m.procs j)
  lock := m.waitLock
  init := m.initproc

section Updates

variable {m : Table} {i j : Nat} {p : Proc} {pc : Pc}

theorem asleep_eq_false (h : (m.procs i).state ≠ .SLEEPING) : m.family.asleep i = false := by
  simp [Table.family, inBed, h]

theorem family_setPc (h : (m.procs i).state ≠ .SLEEPING) :
    (m.setPc i pc).family = m.family.setPhase i pc.phase := by
  have hphase : (fun j => (update m.pcs i pc j).phase) =
      update (fun j => (m.pcs j).phase) i pc.phase := by
    funext j
    rcases eq_or_ne j i with rfl | hne <;> simp [*]
  have hasleep : (m.setPc i pc).family.asleep = m.family.asleep := by
    funext j
    rcases eq_or_ne j i with rfl | hne
    · simp [Table.family, Table.setPc, inBed, h]
    · simp [Table.family, Table.setPc, hne]
  simp only [Table.family, Family.setPhase, Table.setPc] at hasleep ⊢
  rw [hphase, hasleep]

theorem family_setProc :
    (m.setProc j p).family = (m.family.setSlot j (lifeOf p.state) p.parent).setAsleep j
      (inBed (m.pcs j) p) := by
  have hupdate : ∀ {β : Type} (f : Proc → Pc → β), (fun k => f (update m.procs j p k) (m.pcs k)) =
      update (fun k => f (m.procs k) (m.pcs k)) j (f p (m.pcs j)) := by
    intro β f
    funext k
    rcases eq_or_ne k j with rfl | hne <;> simp [*]
  simp only [Table.family, Family.setSlot, Family.setAsleep, Table.setProc]
  rw [hupdate fun q _ => lifeOf q.state, hupdate fun q _ => q.parent,
    hupdate fun q pc => inBed pc q]

theorem setAsleep_self (t : Family) (j : Nat) : t.setAsleep j (t.asleep j) = t := by
  rw [Family.setAsleep, update_eq_self]

theorem setSlot_self (t : Family) (j : Nat) : t.setSlot j (t.life j) (t.parent j) = t := by
  rw [Family.setSlot, update_eq_self, update_eq_self]

theorem setPhase_self (t : Family) (j : Nat) : t.setPhase j (t.phase j) = t := by
  rw [Family.setPhase, update_eq_self]

/-- A slot changes and sleeps afterwards if it did before. -/
theorem family_setSlot (hsame : p.state = .SLEEPING ↔ (m.procs j).state = .SLEEPING) :
    (m.setProc j p).family = m.family.setSlot j (lifeOf p.state) p.parent := by
  have hasleep : inBed (m.pcs j) p = (m.family.setSlot j (lifeOf p.state) p.parent).asleep j := by
    simp only [Family.setSlot, Table.family, inBed, decide_eq_decide]
    exact and_congr_right fun _ => hsame
  rw [family_setProc, hasleep, setAsleep_self]

/-- The section of `wakeup` for one slot. -/
theorem family_wakeupSlot (chan : Option Nat) (j : Nat) :
    ∃ b, (m.setProc j (wakeupSlot chan (m.procs j))).family = m.family.setAsleep j b ∧
      (b = true → m.family.asleep j = true ∧ (m.procs j).chan ≠ chan) := by
  by_cases hsleep : (m.procs j).state = .SLEEPING ∧ (m.procs j).chan = chan
  · refine ⟨false, ?_, nofun⟩
    have hlife : lifeOf ({ m.procs j with state := ProcState.RUNNABLE }).state =
        m.family.life j := by
      show Life.live = lifeOf (m.procs j).state
      rw [hsleep.1]
      rfl
    rw [wakeupSlot, if_pos hsleep, family_setProc, hlife]
    show (m.family.setSlot j (m.family.life j) (m.family.parent j)).setAsleep j _ = _
    rw [setSlot_self]
    simp [inBed]
  · refine ⟨m.family.asleep j, ?_, fun ha => ⟨ha, fun hchan => hsleep ⟨?_, hchan⟩⟩⟩
    · rw [wakeupSlot, if_neg hsleep, setAsleep_self, family_setSlot Iff.rfl]
      exact setSlot_self m.family j
    · simp only [Table.family, inBed, decide_eq_true_eq] at ha
      exact ha.2

end Updates

/-! ## Steps -/

/-- Nobody falls asleep in `kwait`, and the sleepers keep their channel. -/
def Calm (m m' : Table) : Prop :=
  ∀ j, m'.family.asleep j = true → m.family.asleep j = true ∧ (m'.procs j).chan = (m.procs j).chan

/-- A step of the table is a step of the families or does not concern them, and who
falls asleep in `kwait` sleeps on its own slot. -/
structure Follows (m m' : Table) : Prop where
  family : m'.family = m.family ∨ FamilyTree.Step m.family m'.family
  chan : ∀ j, m'.family.asleep j = true →
    (m.family.asleep j = true → (m.procs j).chan = some j) → (m'.procs j).chan = some j

section Calm

variable {m m₁ m₂ : Table} {i j : Nat} {p : Proc} {pc : Pc}

theorem Calm.trans (h : Calm m m₁) (h' : Calm m₁ m₂) : Calm m m₂ := fun j hj =>
  have hj' := h' j hj
  ⟨(h j hj'.1).1, hj'.2.trans (h j hj'.1).2⟩

theorem Calm.setProc
    (hp : p.state = .SLEEPING → (m.procs j).state = .SLEEPING ∧ p.chan = (m.procs j).chan) :
    Calm m (m.setProc j p) := by
  intro k hk
  rcases eq_or_ne k j with rfl | hne
  · simp only [Table.family, Table.setProc, update_self, inBed, decide_eq_true_eq] at hk ⊢
    exact ⟨⟨hk.1, (hp hk.2).1⟩, (hp hk.2).2⟩
  · simp only [Table.family, Table.setProc, update_of_ne hne] at hk ⊢
    exact ⟨hk, trivial⟩

theorem Calm.setPc (h : (m.procs i).state ≠ .SLEEPING) : Calm m (m.setPc i pc) := by
  intro k hk
  rw [family_setPc h] at hk
  exact ⟨hk, rfl⟩

theorem Calm.follows (h : Calm m m₁)
    (hfamily : m₁.family = m.family ∨ FamilyTree.Step m.family m₁.family) : Follows m m₁ := by
  refine ⟨hfamily, fun j hj hchan => ?_⟩
  obtain ⟨hold, heq⟩ := h j hj
  rw [heq]
  exact hchan hold

/-- A slot changes in nothing that matters to the families. -/
theorem Follows.touch (hlife : lifeOf p.state = lifeOf (m.procs j).state)
    (hparent : p.parent = (m.procs j).parent)
    (hsame : p.state = .SLEEPING ↔ (m.procs j).state = .SLEEPING)
    (hchan : p.state = .SLEEPING → p.chan = (m.procs j).chan) : Follows m (m.setProc j p) := by
  apply (Calm.setProc fun hsleep => ⟨hsame.mp hsleep, hchan hsleep⟩).follows
  left
  rw [family_setSlot hsame, hlife, hparent]
  exact setSlot_self m.family j

theorem Follows.wakeupSlot (chan : Option Nat) :
    Follows m (m.setProc j (wakeupSlot chan (m.procs j))) := by
  obtain ⟨b, hfamily, hb⟩ := family_wakeupSlot (m := m) chan j
  have hcalm : Calm m (m.setProc j (Xv6.wakeupSlot chan (m.procs j))) := by
    apply Calm.setProc
    rcases wakeupSlot_eq chan (m.procs j) with heq | ⟨-, heq⟩ <;> rw [heq]
    · exact fun hsleep => ⟨hsleep, rfl⟩
    · exact nofun
  apply hcalm.follows
  rw [hfamily]
  cases b with
  | false => exact .inr (.wake j)
  | true =>
    left
    rw [← (hb rfl).1]
    exact setAsleep_self m.family j

end Calm

section Sections

variable {m : Table} {i : Nat} (hrun : (m.procs i).state = .RUNNING)

include hrun

theorem not_sleeping : (m.procs i).state ≠ .SLEEPING := by
  rw [hrun]
  exact nofun

theorem life_of_running : m.family.life i = .live := by
  show lifeOf (m.procs i).state = .live
  rw [hrun]
  rfl

/-- A running thread goes on to a program counter of the same phase. -/
theorem Follows.goto {pc : Pc} (hphase : pc.phase = (m.pcs i).phase) :
    Follows m (m.setPc i pc) := by
  apply (Calm.setPc (not_sleeping hrun)).follows
  left
  rw [family_setPc (not_sleeping hrun), hphase]
  exact setPhase_self m.family i

/-- A running thread takes a step of the families. -/
theorem Follows.step {pc : Pc} (h : FamilyTree.Step m.family (m.family.setPhase i pc.phase)) :
    Follows m (m.setPc i pc) := by
  apply (Calm.setPc (not_sleeping hrun)).follows
  right
  rw [family_setPc (not_sleeping hrun)]
  exact h

/-- A running thread takes or releases `wait_lock`. -/
theorem Follows.lockStep {pc : Pc} {holder : Option Nat}
    (h : FamilyTree.Step m.family ((m.family.setLock holder).setPhase i pc.phase)) :
    Follows m ((m.setWaitLock holder).setPc i pc) := by
  have hcalm : Calm m ((m.setWaitLock holder).setPc i pc) := fun j hj =>
    Calm.setPc (m := m.setWaitLock holder) (not_sleeping hrun) j hj
  apply hcalm.follows
  right
  rw [family_setPc (m := m.setWaitLock holder) (not_sleeping hrun)]
  exact h

/-- A running thread changes a slot and goes on, and may take or release
`wait_lock`. -/
theorem Follows.lockSlotStep {q : Option Nat} {j : Nat} {p : Proc} {pc : Pc}
    (hsame : p.state = .SLEEPING ↔ (m.procs j).state = .SLEEPING)
    (hchan : p.state = .SLEEPING → p.chan = (m.procs j).chan)
    (h : ((m.family.setLock q).setSlot j (lifeOf p.state) p.parent).setPhase i pc.phase = m.family ∨
      FamilyTree.Step m.family
        (((m.family.setLock q).setSlot j (lifeOf p.state) p.parent).setPhase i pc.phase)) :
    Follows m (((m.setWaitLock q).setProc j p).setPc i pc) := by
  have hi : (((m.setWaitLock q).setProc j p).procs i).state ≠ .SLEEPING := by
    rcases eq_or_ne i j with rfl | hne
    · rw [procs_setProc_self]
      exact fun hsleep => not_sleeping hrun (hsame.mp hsleep)
    · rw [procs_setProc_of_ne hne]
      exact not_sleeping hrun
  have hset : Calm m ((m.setWaitLock q).setProc j p) := fun k =>
    Calm.setProc (m := m.setWaitLock q) (fun hsleep => ⟨hsame.mp hsleep, hchan hsleep⟩) k
  apply (hset.trans (.setPc hi)).follows
  rw [family_setPc hi, family_setSlot (m := m.setWaitLock q) hsame]
  exact h

theorem Follows.slotStep {j : Nat} {p : Proc} {pc : Pc}
    (hsame : p.state = .SLEEPING ↔ (m.procs j).state = .SLEEPING)
    (hchan : p.state = .SLEEPING → p.chan = (m.procs j).chan)
    (h : (m.family.setSlot j (lifeOf p.state) p.parent).setPhase i pc.phase = m.family ∨
      FamilyTree.Step m.family
        ((m.family.setSlot j (lifeOf p.state) p.parent).setPhase i pc.phase)) :
    Follows m ((m.setProc j p).setPc i pc) :=
  .lockSlotStep (q := m.waitLock) hrun hsame hchan h

/-- A running thread changes its own slot, but not its state, and goes on in the same
phase. -/
theorem Follows.own {p : Proc} {pc : Pc} (hstate : p.state = .RUNNING)
    (hparent : p.parent = (m.procs i).parent) (hphase : pc.phase = (m.pcs i).phase) :
    Follows m ((m.setProc i p).setPc i pc) := by
  apply Follows.slotStep hrun (by simp [hstate, hrun]) (by simp [hstate])
  left
  rw [hstate, ← hrun, hparent, hphase]
  exact (congrArg (·.setPhase i (m.family.phase i)) (setSlot_self m.family i)).trans
    (setPhase_self m.family i)

/-- The section of `allocproc`. -/
theorem Follows.forkScan (hkin : Kin m.family) (o : Oracle)
    (hpc : m.pcs i = .forkScan k) : Follows m (m.forkScan i o k) := by
  have hphase : m.family.phase i = .idle := by
    show (m.pcs i).phase = .idle
    rw [hpc]
    rfl
  have hgoto : ∀ pc : Pc, pc.phase = .idle → Follows m (m.setPc i pc) := fun pc hidle =>
    .goto hrun (hidle.trans hphase.symm)
  unfold Table.forkScan
  split
  · next hk =>
    split
    · next hfree =>
      have hlife : m.family.life k = .unused := by
        show lifeOf (m.procs k).state = .unused
        rw [hfree]
        rfl
      have hne : i ≠ k := by
        rintro rfl
        rw [hrun] at hfree
        cases hfree
      let m₁ : Table := { m with nextpid := m.nextpid + 1 }
      rcases forkSection_cases o m.nextpid (m.procs i) (m.procs k) with
        ⟨q, hq, -⟩ | ⟨q, hq, -, hused, -, -, hparent, -⟩ <;> rw [hq]
      · -- the slot is given back, and had no parent before
        have hslot : m.family.setSlot k .unused none = m.family := by
          rw [← hlife, ← hkin.free k hlife]
          exact setSlot_self m.family k
        have hfollows : Follows m₁ ((m₁.setProc k (freeproc q)).setPc i (.user (-1))) := by
          refine .slotStep (m := m₁) (p := freeproc q) hrun ⟨nofun, fun hsleep => ?_⟩ nofun
            (.inl ?_)
          · exact (nomatch hfree.symm.trans hsleep)
          show (m.family.setSlot k .unused none).setPhase i .idle = m.family
          rw [hslot, ← hphase]
          exact setPhase_self m.family i
        exact ⟨hfollows.family, hfollows.chan⟩
      · have hk : ((m₁.setProc k q).procs k).state ≠ .SLEEPING := by simp [hused]
        have hi : (((m₁.setProc k q).setPc k (.user 0)).procs i).state ≠ .SLEEPING := by
          show ((m₁.setProc k q).procs i).state ≠ .SLEEPING
          rw [procs_setProc_of_ne hne]
          exact not_sleeping hrun
        have hcalm : Calm m
            (((m₁.setProc k q).setPc k (.user 0)).setPc i (.forkParent k m.nextpid)) := by
          have hset : Calm m₁ (m₁.setProc k q) := .setProc (by simp [hused])
          exact (hset.trans (.setPc hk)).trans (.setPc hi)
        apply hcalm.follows
        right
        rw [family_setPc hi, family_setPc hk, family_setSlot (by simp [m₁, hused, hfree]), hused,
          hparent]
        exact .alloc hphase (life_of_running hrun) ‹_› hlife
    · exact hgoto _ rfl
  · exact hgoto _ rfl

theorem Follows.forkParent (hpc : m.pcs i = .forkParent k pid)
    (hlock : m.waitLock = none) : Follows m (m.forkParent i k pid) := by
  have hphase : m.family.phase i = .forking k := congrArg Pc.phase hpc
  exact .slotStep (p := { m.procs k with parent := some i }) hrun Iff.rfl (fun _ => rfl)
    (.inr (.parent hphase hlock))

theorem Follows.forkRunnable (hkin : Kin m.family)
    (hpc : m.pcs i = .forkRunnable k pid) : Follows m (m.forkRunnable i k pid) := by
  have hphase : m.family.phase i = .forked k := congrArg Pc.phase hpc
  have hused : lifeOf (m.procs k).state = .used := hkin.used i k (by rw [hphase]; rfl)
  have hsame : ProcState.RUNNABLE = .SLEEPING ↔ (m.procs k).state = .SLEEPING := by
    refine ⟨nofun, fun hsleep => ?_⟩
    rw [hsleep] at hused
    cases hused
  exact .slotStep (p := { m.procs k with state := .RUNNABLE }) hrun hsame nofun
    (.inr (.release hphase))

theorem Follows.reparent (hpc : m.pcs i = .reparent status k) :
    Follows m (m.reparent i status k) := by
  have hphase : m.family.phase i = .giving k := congrArg Pc.phase hpc
  unfold Table.reparent
  split
  · split
    · next hchild =>
      exact .slotStep (p := { m.procs k with parent := some m.initproc }) hrun Iff.rfl
        (fun _ => rfl)
        (.inr (.give hphase hchild))
    · next hchild => exact .step hrun (.pass hphase hchild)
  · next hk => exact .step hrun (.given hphase (Nat.le_of_not_lt hk))

/-- The section of `wakeup` in a call of thread `i`, which goes on. -/
theorem Follows.wakeup {chan : Option Nat} {pc : Pc}
    (hchan : m.family.asleep l = true → (m.procs l).chan = some l)
    (h : ∀ b, (b = true → m.family.asleep l = true) → (chan = some l → l ≠ i → b = false) →
      FamilyTree.Step m.family ((m.family.setAsleep l b).setPhase i pc.phase)) :
    Follows m ((m.wakeup i chan l).setPc i pc) := by
  unfold Table.wakeup
  split
  · next hli =>
    have hself : m.family.setAsleep l (m.family.asleep l) = m.family := setAsleep_self m.family l
    have hstep := h (m.family.asleep l) id fun _ hne => absurd hli hne
    rw [hself] at hstep
    exact .step hrun hstep
  · next hli =>
    obtain ⟨b, hfamily, hb⟩ := family_wakeupSlot (m := m) chan l
    have hi : ((m.setProc l (Xv6.wakeupSlot chan (m.procs l))).procs i).state ≠ .SLEEPING := by
      rw [procs_setProc_of_ne (Ne.symm hli)]
      exact not_sleeping hrun
    have hcalm : Calm m ((m.setProc l (Xv6.wakeupSlot chan (m.procs l))).setPc i pc) := by
      refine Calm.trans (Calm.setProc ?_) (.setPc hi)
      rcases wakeupSlot_eq chan (m.procs l) with heq | ⟨-, heq⟩ <;> rw [heq]
      · exact fun hsleep => ⟨hsleep, rfl⟩
      · exact nofun
    apply hcalm.follows
    right
    rw [family_setPc hi, hfamily]
    refine h b (fun hbt => (hb hbt).1) fun hl _ => ?_
    -- a sleeper on its own channel is woken up
    by_contra hbt
    obtain ⟨hasleep, hne⟩ := hb (by simpa using hbt)
    exact hne ((hchan hasleep).trans hl.symm)

theorem Follows.reparentWake
    (hpc : m.pcs i = .reparentWake status k l)
    (hchan : m.family.asleep l = true → (m.procs l).chan = some l) (hinit : i ≠ m.initproc) :
    Follows m (m.reparentWake i status k l) := by
  have hphase : m.family.phase i = .calling k l := congrArg Pc.phase hpc
  unfold Table.reparentWake
  split
  · refine .wakeup hrun hchan fun b hb hwake => .call b hphase hb fun hl => ?_
    exact hwake (congrArg some hl.symm) fun hli => hinit (hli.symm.trans hl)
  · next hl => exact .step hrun (.called hphase (Nat.le_of_not_lt hl))

theorem Follows.exitWake {parent : Option Nat}
    (hpc : m.pcs i = .exitWake status parent l)
    (hchan : m.family.asleep l = true → (m.procs l).chan = some l) :
    Follows m (m.exitWake i status parent l) := by
  have hphase : m.family.phase i = .telling parent l := congrArg Pc.phase hpc
  unfold Table.exitWake
  split
  · exact .wakeup hrun hchan fun b hb hwake => .tell b hphase hb hwake
  · next hl => exact .step hrun (.told hphase (Nat.le_of_not_lt hl))

theorem Follows.exitZombie (hpc : m.pcs i = .exitZombie status) :
    Follows m (m.exitZombie i status) := by
  have hphase : m.family.phase i = .dying := congrArg Pc.phase hpc
  refine .lockSlotStep hrun (p := { m.procs i with xstate := status, state := .ZOMBIE })
    ⟨nofun, fun hsleep => absurd hsleep (not_sleeping hrun)⟩ nofun (.inr (.die hphase))

theorem Follows.waitScan {havekids : Bool} (o : Oracle)
    (hpc : m.pcs i = .waitScan addr k havekids) : Follows m (m.waitScan i o addr k havekids) := by
  have hphase : m.family.phase i = .looking k := congrArg Pc.phase hpc
  have hleave : ∀ ret, Follows m ((m.setWaitLock none).setPc i (.user ret)) := fun ret =>
    .lockStep hrun (.leave hphase)
  unfold Table.waitScan
  split
  · split
    · next hchild =>
      split
      · next hzombie =>
        split
        · exact hleave _
        · have hlife : m.family.life k = .zombie := congrArg lifeOf hzombie
          have hsame : (freeproc (m.procs k)).state = .SLEEPING ↔ (m.procs k).state = .SLEEPING :=
            ⟨nofun, fun hsleep => (nomatch hzombie.symm.trans hsleep)⟩
          exact .lockSlotStep hrun hsame (by simp [freeproc]) (.inr (.reap hphase hchild hlife))
      · next hzombie =>
        refine .step hrun (.look hphase fun _ hlife => hzombie ?_)
        have hlife : lifeOf (m.procs k).state = .zombie := hlife
        cases hstate : (m.procs k).state <;> rw [hstate] at hlife <;> first | rfl | cases hlife
    · next hchild => exact .step hrun (.look hphase fun hparent => absurd hparent hchild)
  · next hk =>
    split
    · exact hleave _
    · exact .step hrun (.tire hphase (Nat.le_of_not_lt hk))

/-- `kwait` goes to sleep on its own slot. -/
theorem Follows.waitSleep (hpc : m.pcs i = .waitSleep addr) :
    Follows m (m.waitSleep i addr) := by
  have hphase : m.family.phase i = .tired := congrArg Pc.phase hpc
  have hfamily : (m.waitSleep i addr).family =
      ((m.family.setLock none).setAsleep i true).setPhase i .bed := by
    let m₁ := (m.setWaitLock none).setPc i (.waitAsleep addr)
    have hm₁ : m₁.family = (m.family.setLock none).setPhase i .bed :=
      family_setPc (m := m.setWaitLock none) (not_sleeping hrun)
    have hlife : lifeOf .SLEEPING = m₁.family.life i := by
      rw [hm₁]
      exact (life_of_running hrun).symm
    have hbed : inBed (m₁.pcs i) { m.procs i with chan := some i, state := .SLEEPING } = true := by
      simp [m₁, inBed, Pc.phase]
    show (m₁.setProc i { m.procs i with chan := some i, state := .SLEEPING }).family = _
    rw [family_setProc, hlife, hbed]
    show (m₁.family.setSlot i (m₁.family.life i) (m₁.family.parent i)).setAsleep i true = _
    rw [setSlot_self, hm₁]
    rfl
  refine ⟨.inr (hfamily ▸ .sleep hphase), fun j hj hchan => ?_⟩
  rcases eq_or_ne j i with rfl | hne
  · simp [Table.waitSleep, Table.setPc]
  · have hproc : (m.waitSleep i addr).procs j = m.procs j := procs_setProc_of_ne hne _
    have hasleep : m.family.asleep j = true := by
      rw [hfamily] at hj
      have hj : update m.family.asleep i true j = true := hj
      rwa [update_of_ne hne] at hj
    rw [hproc]
    exact hchan hasleep

/-- A `sleep` outside `kwait`. -/
theorem Follows.sleep {chan : Nat} (hphase : (m.pcs i).phase = .idle) :
    Follows m ((m.setProc i { m.procs i with chan := some chan, state := .SLEEPING }).setPc i
      .asleep) := by
  let m₁ := m.setPc i .asleep
  let p : Proc := { m.procs i with chan := some chan, state := .SLEEPING }
  have hm₁ : m₁.family = m.family := by
    rw [family_setPc (not_sleeping hrun), Pc.phase, ← hphase]
    exact setPhase_self m.family i
  have hfamily : (m₁.setProc i p).family = m.family := by
    have hlife : lifeOf p.state = m.family.life i := (life_of_running hrun).symm
    have hbed : inBed (m₁.pcs i) p = m.family.asleep i := by
      rw [asleep_eq_false (not_sleeping hrun), show m₁.pcs i = .asleep from pcs_setPc_self _]
      rfl
    rw [family_setProc, hm₁, hlife, hbed]
    show (m.family.setSlot i (m.family.life i) (m.family.parent i)).setAsleep i _ = _
    rw [setSlot_self, setAsleep_self]
  refine ⟨.inl hfamily, fun j hj hchan => ?_⟩
  have hold : m.family.asleep j = true := by
    rw [← hfamily]
    exact hj
  have hne : j ≠ i := by
    rintro rfl
    rw [asleep_eq_false (not_sleeping hrun)] at hold
    cases hold
  show ((m₁.setProc i p).procs j).chan = some j
  rw [procs_setProc_of_ne hne]
  exact hchan hold

theorem Follows.killScan (hpc : m.pcs i = .kill pid k) :
    Follows m (m.killScan i pid k) := by
  have hphase : m.family.phase i = .idle := congrArg Pc.phase hpc
  have hgoto : ∀ pc : Pc, pc.phase = .idle → Follows m (m.setPc i pc) := fun pc hidle =>
    .goto hrun (hidle.trans hphase.symm)
  unfold Table.killScan
  split
  · split
    · by_cases hsleep : (m.procs k).state = .SLEEPING
      · -- the victim is woken up
        have hne : i ≠ k := by
          rintro rfl
          exact not_sleeping hrun hsleep
        have hi : ((m.setProc k (killSlot (m.procs k))).procs i).state ≠ .SLEEPING := by
          rw [procs_setProc_of_ne hne]
          exact not_sleeping hrun
        have hstate : (killSlot (m.procs k)).state = .RUNNABLE := if_pos hsleep
        have hset : Calm m (m.setProc k (killSlot (m.procs k))) := .setProc (by simp [hstate])
        have hlife : lifeOf .RUNNABLE = m.family.life k := (congrArg lifeOf hsleep).symm
        have hbed : inBed (m.pcs k) (killSlot (m.procs k)) = false := by simp [inBed, hstate]
        refine (hset.trans (.setPc hi)).follows (.inr ?_)
        rw [family_setPc hi, family_setProc, hstate, hlife, hbed]
        show FamilyTree.Step
          _ (((m.family.setSlot k (m.family.life k) (m.family.parent k)).setAsleep
          k false).setPhase i .idle)
        have hidle : (m.family.setAsleep k false).phase i = .idle := hphase
        rw [setSlot_self, ← hidle, setPhase_self]
        exact .wake k
      · have hstate : (killSlot (m.procs k)).state = (m.procs k).state := if_neg hsleep
        refine .slotStep (p := killSlot (m.procs k)) hrun (by rw [hstate]) (fun _ => rfl) (.inl ?_)
        rw [hstate]
        show (m.family.setSlot k (m.family.life k) (m.family.parent k)).setPhase i .idle = m.family
        rw [setSlot_self, ← hphase]
        exact setPhase_self m.family i
    · exact hgoto _ rfl
  · exact hgoto _ rfl

end Sections

/-- The sleepers in `kwait` sleep on their own slot. -/
def Chans (m : Table) : Prop := ∀ j, m.family.asleep j = true → (m.procs j).chan = some j

theorem follows_tick {m : Table} (hkin : Kin m.family) (hchans : Chans m) {i : Nat} {o : Oracle}
    (hrun : (m.procs i).state = .RUNNING) (hs : threadStep m i o = some m') : Follows m m' := by
  unfold threadStep at hs
  split at hs
  case h_1 | h_13 => cases hs
  case h_2 hpc =>
    cases hs
    exact .own hrun hrun rfl (by rw [hpc]; rfl)
  case h_3 hpc => cases hs; exact .forkScan hrun hkin o hpc
  case h_4 hpc =>
    obtain ⟨hlock, rfl⟩ := of_guard hs
    exact .forkParent hrun hpc hlock
  case h_5 hpc => cases hs; exact .forkRunnable hrun hkin hpc
  case h_6 status fd hpc =>
    cases hs
    unfold Table.exitClose
    split
    · exact .own hrun hrun rfl (by rw [hpc]; rfl)
    · exact .goto hrun (by rw [hpc]; rfl)
  case h_7 hpc =>
    cases hs
    exact .own hrun hrun rfl (by rw [hpc]; rfl)
  case h_8 status hpc =>
    obtain ⟨hlock, rfl⟩ := of_guard hs
    exact .lockStep hrun (.lockExit (congrArg Pc.phase hpc) hlock)
  case h_9 hpc => cases hs; exact .reparent hrun hpc
  case h_10 hpc =>
    cases hs
    have hphase : m.family.phase i = _ := congrArg Pc.phase hpc
    exact .reparentWake hrun hpc (hchans _)
      (hkin.exits (by rw [hphase]; rfl) (by simp [hphase, Pc.phase])).1
  case h_11 hpc => cases hs; exact .exitWake hrun hpc (hchans _)
  case h_12 hpc => cases hs; exact .exitZombie hrun hpc
  case h_14 addr hpc =>
    obtain ⟨hlock, rfl⟩ := of_guard hs
    exact .lockStep hrun (.lockWait (congrArg Pc.phase hpc) (life_of_running hrun) hlock)
  case h_15 hpc => cases hs; exact .waitScan hrun o hpc
  case h_16 hpc => cases hs; exact .waitSleep hrun hpc
  case h_17 addr hpc =>
    cases hs
    refine .slotStep (p := { m.procs i with chan := none }) hrun Iff.rfl ?_ (.inr ?_)
    · exact fun hsleep => absurd hsleep (not_sleeping hrun)
    · show FamilyTree.Step
        _ ((m.family.setSlot i (m.family.life i) (m.family.parent i)).setPhase i .idle)
      rw [setSlot_self]
      exact .rise (congrArg Pc.phase hpc) (asleep_eq_false (not_sleeping hrun))
  case h_18 hpc => cases hs; exact .killScan hrun hpc

theorem follows_call {m : Table} {i : Nat} {c : Call} (hrun : (m.procs i).state = .RUNNING)
    {ret : BitVec 32} {status : Option (BitVec 32)} (hpc : m.pcs i = .user ret status)
    (hs : callStep m i c = some m') : Follows m m' := by
  have hphase : (m.pcs i).phase = .idle := congrArg Pc.phase hpc
  cases c with
  | fork | wait | kill =>
    cases hs
    exact .goto hrun hphase.symm
  | exit status =>
    simp only [callStep] at hs
    split at hs <;> cases hs
    exact .step hrun (.exit hphase (life_of_running hrun) ‹_›)
  | sleep chan =>
    cases hs
    exact .sleep hrun hphase
  | setkilled =>
    cases hs
    exact .touch rfl rfl Iff.rfl fun _ => rfl
  | other sz pagetable ofile cwd name tickets =>
    simp only [callStep] at hs
    split at hs <;> cases hs
    exact .touch rfl rfl Iff.rfl fun _ => rfl

theorem follows_step {m : Table} (hkin : Kin m.family) (hchans : Chans m) {a : Act}
    (hs : step m a = some m') : Follows m m' := by
  cases a with
  | dispatch i =>
    obtain ⟨hstate, rfl⟩ := of_guard hs
    exact .touch (by rw [hstate]; rfl) rfl (by simp [dispatch, hstate]) nofun
  | yield i =>
    obtain ⟨hstate, rfl⟩ := of_guard hs
    exact .touch (by rw [hstate.1]; rfl) rfl (by simp [yield, hstate.1]) nofun
  | wakeup j chan =>
    cases hs
    exact .wakeupSlot (some chan)
  | call i c =>
    simp only [step] at hs
    split at hs
    · next ret hpc =>
      split at hs
      · exact follows_call ‹_› hpc hs
      · cases hs
    · cases hs
  | tick i o =>
    simp only [step] at hs
    split at hs
    · exact follows_tick hkin hchans ‹_› hs
    · cases hs

/-- The families of the table are well, and the sleepers can be woken up. -/
structure TreeInv (m : Table) : Prop where
  kin : Kin m.family
  quiet : Quiet m.family
  chans : Chans m

theorem treeInv_step (m : Table) (a : Act) (m' : Table) (h : TreeInv m) (hs : step m a = some m') :
    TreeInv m' := by
  have hfollows := follows_step h.kin h.chans hs
  have hchans : Chans m' := fun j hj => hfollows.chan j hj (h.chans j)
  rcases hfollows.family with heq | hstep
  · exact ⟨heq ▸ h.kin, heq ▸ h.quiet, hchans⟩
  · exact ⟨FamilyTree.kin_step h.kin hstep, FamilyTree.quiet_step h.kin h.quiet hstep, hchans⟩

theorem treeInv_userinit (trapframe pagetable root : Nat) :
    TreeInv (userinit trapframe pagetable root) := by
  have hother : ∀ j, j ≠ 0 → (userinit trapframe pagetable root).procs j = {} := by
    intro j hj
    simp only [userinit, update_of_ne hj]
  have hlife : ∀ j, (userinit trapframe pagetable root).family.life j ≠ .unused → j = 0 := by
    intro j hj
    by_contra hne
    apply hj
    show lifeOf ((userinit trapframe pagetable root).procs j).state = .unused
    rw [hother j hne]
    rfl
  have hparent : ∀ j, (userinit trapframe pagetable root).family.parent j = none := by
    intro j
    show ((userinit trapframe pagetable root).procs j).parent = none
    rcases eq_or_ne j 0 with rfl | hne
    · rfl
    · rw [hother j hne]
  have hnone : ∀ i j, (userinit trapframe pagetable root).family.parent j ≠ some i := by
    intro i j
    rw [hparent]
    exact nofun
  have hasleep : ∀ j, (userinit trapframe pagetable root).family.asleep j ≠ true := by
    intro j
    simp [Table.family, inBed, userinit, Pc.phase]
  have hidle : ∀ j, (userinit trapframe pagetable root).family.phase j = .idle := fun _ => rfl
  refine ⟨⟨Nat.zero_lt_succ 63, rfl, rfl, rfl, fun j hj => absurd (hidle j) hj, fun j hj => ?_,
    fun j _ => hparent j, fun i j hij => absurd hij (hnone i j), fun j => hnone j j,
    fun j hj hne => ?_, nofun, nofun, nofun, nofun, nofun⟩, ?_, fun j hj => absurd hj (hasleep j)⟩
  · rw [hlife j hj]
    exact Nat.zero_lt_succ 63
  · refine absurd (hlife j fun hfree => ?_) hne
    rw [hfree] at hj
    simp at hj
  · exact ⟨fun j hj => absurd hj (hasleep j), nofun, nofun, nofun,
      fun j _ hj => absurd hj (hasleep j)⟩

/-- Whenever `wait_lock` is free, the parent of a process is alive. -/
theorem TreeInv.parent {m : Table} (h : TreeInv m) {j : Nat} (hunused : (m.procs j).state ≠ .UNUSED)
    (hused : (m.procs j).state ≠ .USED) (hinit : j ≠ m.initproc) :
    ∃ i, (m.procs j).parent = some i ∧ (m.procs i).state ≠ .UNUSED ∧
      (m.procs i).state ≠ .ZOMBIE := by
  have hlife : m.family.life j = .live ∨ m.family.life j = .zombie := by
    show lifeOf (m.procs j).state = .live ∨ lifeOf (m.procs j).state = .zombie
    cases hstate : (m.procs j).state <;> simp_all [lifeOf]
  obtain ⟨i, hi⟩ := Option.ne_none_iff_exists'.mp (h.kin.born j hlife hinit)
  have hlive : lifeOf (m.procs i).state = .live := h.kin.live i j hi
  refine ⟨i, hi, fun hstate => ?_, fun hstate => ?_⟩ <;> rw [hstate] at hlive <;> cases hlive

/-- Whenever `wait_lock` is free, nobody sleeps in `kwait` over a zombie child. -/
theorem TreeInv.noLostWakeup {m : Table} (h : TreeInv m) (hlock : m.waitLock = none) {i j : Nat}
    (hpc : m.pcs i = .waitAsleep addr) (hsleep : (m.procs i).state = .SLEEPING)
    (hchild : (m.procs j).parent = some i) : (m.procs j).state ≠ .ZOMBIE := by
  intro hzombie
  have hasleep : m.family.asleep i = true := by simp [Table.family, inBed, hpc, hsleep, Pc.phase]
  obtain ⟨c, l, hc, -⟩ := h.quiet.quiet i j hasleep hchild (congrArg lifeOf hzombie)
  -- the only exception is a `reparent` under way, which holds the lock
  have hlocks := h.kin.unlocked hlock c
  rw [hc] at hlocks
  cases hlocks

end Xv6.ProcTable
