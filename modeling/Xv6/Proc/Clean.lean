import Xv6.Lib.Run
import Xv6.Proc.Table

/-!
# Free process slots are clean

`allocproc` does not reset `killed`, the open files or the working directory of
the slot it takes: it relies on `freeproc` and `kexit` having left every
`UNUSED` slot clean.  `kkill` looks for a pid in all slots, and a free slot has
pid 0, so `kkill(0)` marks a free slot as killed.  Without such a kill the free
slots stay clean.

* `CleanSlot`, `SlotsClean`: what a free slot looks like.
* `ExitFact`: what `kexit` has released by the time it stands at a `Pc`.
* `TableInv`: the invariant; `TableInv.setProc` and `TableInv.setPc` say which
  changes of a slot and of a program counter it survives.
* `tableInv_step`, `slotsClean_run`: the step and the run lemma.
* `newborn_step`: until it is first dispatched, a new process is marked as
  killed only by a `kkill` of its pid.
-/

namespace Xv6.ProcTable

open Xv6.Lib.Run
open Function (update_of_ne update_self)

variable {p q : Proc} {pc : Pc} {o : Oracle} {pid status : BitVec 32} {k l : Nat} {m' : Table}
  {as : List Act}

/-- A slot as `allocproc` expects to find it. -/
def CleanSlot (p : Proc) : Prop :=
  p.pid = 0 ∧ p.parent = none ∧ p.chan = none ∧ p.killed = false ∧ p.xstate = 0 ∧ p.sz = 0 ∧
    p.pagetable = none ∧ p.trapframe = none ∧ (∀ f ∈ p.ofile, f = none) ∧ p.cwd = none

instance (p : Proc) : Decidable (CleanSlot p) :=
  inferInstanceAs (Decidable (_ ∧ _))

/-- Every `UNUSED` slot is clean. -/
def SlotsClean (m : Table) : Prop :=
  ∀ j < NPROC, (m.procs j).state = .UNUSED → CleanSlot (m.procs j)

instance (m : Table) : Decidable (SlotsClean m) :=
  inferInstanceAs (Decidable (∀ j < NPROC, (m.procs j).state = .UNUSED → CleanSlot (m.procs j)))

/-- A section of `kkill` does not mark an `UNUSED` slot as killed. -/
def KillOk (m : Table) : Act → Prop
  | .tick i _ =>
    match m.pcs i with
    | .kill pid k => k < NPROC → (m.procs k).pid = pid → (m.procs k).state ≠ .UNUSED
    | _ => True
  | _ => True

/-! ## The invariant -/

/-- The slot that the thread in `kfork` has allocated. -/
def Pc.child : Pc → Option Nat
  | .forkParent k _ => some k
  | .forkRunnable k _ => some k
  | _ => none

/-- How many descriptors `kexit` has closed when it stands at a program counter. -/
def Pc.closed : Pc → Nat
  | .exitClose _ fd => fd
  | .exitCwd _ | .exitLock _ | .reparent _ _ | .reparentWake _ _ _ | .exitWake _ _ _
  | .exitZombie _ | .dead => NOFILE
  | _ => 0

/-- Whether `kexit` has dropped the working directory. -/
def Pc.noCwd : Pc → Bool
  | .exitLock _ | .reparent _ _ | .reparentWake _ _ _ | .exitWake _ _ _ | .exitZombie _ | .dead =>
    true
  | _ => false

/-- What `kexit` has released when it stands at a program counter is gone. -/
def ExitFact (p : Proc) (pc : Pc) : Prop :=
  (∀ f ∈ p.ofile.take pc.closed, f = none) ∧ (pc.noCwd = true → p.cwd = none)

theorem ExitFact.congr (h : ExitFact p pc) (hofile : q.ofile = p.ofile)
    (hcwd : q.cwd = p.cwd) : ExitFact q pc := by
  unfold ExitFact at h ⊢
  rw [hofile, hcwd]
  exact h

/-- Outside `kexit` nothing needs to be released. -/
theorem exitFact_of_closed_eq_zero (hclosed : pc.closed = 0)
    (hcwd : pc.noCwd = false) : ExitFact p pc := by
  unfold ExitFact
  rw [hclosed, hcwd]
  exact ⟨by simp, by simp⟩

/-- The next program counter of `kexit` that releases nothing. -/
theorem ExitFact.next {pc' : Pc} (h : ExitFact p pc) (hclosed : pc'.closed = pc.closed)
    (hcwd : pc'.noCwd = pc.noCwd) : ExitFact p pc' := by
  unfold ExitFact at h ⊢
  rwa [hclosed, hcwd]

structure TableInv (m : Table) : Prop where
  files : ∀ j, (m.procs j).ofile.length = NOFILE
  clean : ∀ j, (m.procs j).state = .UNUSED → CleanSlot (m.procs j)
  exit : ∀ j, ExitFact (m.procs j) (m.pcs j)
  zombie : ∀ j, (m.procs j).state = .ZOMBIE → m.pcs j = .dead
  /-- The slot of a fork under way stays `USED`. -/
  used : ∀ i k, (m.pcs i).child = some k → (m.procs k).state = .USED
  /-- No two forks work on one slot. -/
  unique : ∀ i j k, (m.pcs i).child = some k → (m.pcs j).child = some k → i = j

section Updates

variable {m : Table} (h : TableInv m)

include h

theorem TableInv.setWaitLock (holder : Option Nat) : TableInv (m.setWaitLock holder) :=
  ⟨h.files, h.clean, h.exit, h.zombie, h.used, h.unique⟩

theorem TableInv.setNextpid (pid : BitVec 32) : TableInv { m with nextpid := pid } :=
  ⟨h.files, h.clean, h.exit, h.zombie, h.used, h.unique⟩

/-- A change of one slot that keeps the invariant. -/
theorem TableInv.setProc {j : Nat} (hfiles : p.ofile.length = NOFILE)
    (hclean : p.state = .UNUSED → CleanSlot p) (hexit : ExitFact p (m.pcs j))
    (hzombie : p.state = .ZOMBIE → m.pcs j = .dead)
    (hused : ∀ i, (m.pcs i).child = some j → p.state = .USED) : TableInv (m.setProc j p) := by
  have hother : ∀ {k}, k ≠ j → (m.setProc j p).procs k = m.procs k := fun hk =>
    update_of_ne hk _ _
  have hself : (m.setProc j p).procs j = p := update_self _ _ _
  refine ⟨fun k => ?_, fun k => ?_, fun k => ?_, fun k => ?_, fun i k hchild => ?_, h.unique⟩
  all_goals rcases eq_or_ne k j with rfl | hk
  all_goals first | rw [hself] | rw [hother hk]
  exacts [hfiles, h.files k, hclean, h.clean k, hexit, h.exit k, hzombie, h.zombie k,
    hused i hchild, h.used i k hchild]

/-- A change of one program counter that keeps the invariant. -/
theorem TableInv.setPc {i : Nat} (hexit : ExitFact (m.procs i) pc)
    (hzombie : (m.procs i).state = .ZOMBIE → pc = .dead)
    (hchild : ∀ k, pc.child = some k →
      (m.procs k).state = .USED ∧ ∀ j, j ≠ i → (m.pcs j).child ≠ some k) :
    TableInv (m.setPc i pc) := by
  have hother : ∀ {k}, k ≠ i → (m.setPc i pc).pcs k = m.pcs k := fun hk =>
    update_of_ne hk _ _
  have hself : (m.setPc i pc).pcs i = pc := update_self _ _ _
  refine ⟨h.files, h.clean, fun k => ?_, fun k hz => ?_, fun k c hc => ?_, fun k l c hk hl => ?_⟩
  · rcases eq_or_ne k i with rfl | hk
    · rw [hself]
      exact hexit
    · rw [hother hk]
      exact h.exit k
  · rcases eq_or_ne k i with rfl | hk
    · rw [hself]
      exact hzombie hz
    · rw [hother hk]
      exact h.zombie k hz
  · rcases eq_or_ne k i with rfl | hne
    · rw [hself] at hc
      exact (hchild c hc).1
    · rw [hother hne] at hc
      exact h.used k c hc
  · rcases eq_or_ne k i with rfl | hki <;> rcases eq_or_ne l k with rfl | hlk
    · rfl
    · rw [hself] at hk
      rw [hother hlk] at hl
      exact absurd hl ((hchild c hk).2 l hlk)
    · rfl
    · rcases eq_or_ne l i with rfl | hli
      · rw [hself] at hl
        rw [hother hki] at hk
        exact absurd hk ((hchild c hl).2 k hki)
      · rw [hother hki] at hk
        rw [hother hli] at hl
        exact h.unique k l c hk hl

/-- A live thread moves on inside a call, other than to its fork's child. -/
theorem TableInv.movePc {i : Nat} (hstate : (m.procs i).state ≠ .ZOMBIE)
    (hchild : pc.child = none) (hexit : ExitFact (m.procs i) pc) : TableInv (m.setPc i pc) :=
  h.setPc hexit (fun hz => absurd hz hstate) fun k hk => by rw [hchild] at hk; cases hk

end Updates

/-! ## The sections of single slots -/

/-- A change of one slot that leaves the private fields alone and turns neither
`UNUSED` nor `ZOMBIE` nor away from `USED`. -/
theorem TableInv.touch {m : Table} (h : TableInv m) {j : Nat}
    (hofile : p.ofile = (m.procs j).ofile) (hcwd : p.cwd = (m.procs j).cwd)
    (hunused : p.state = .UNUSED → CleanSlot p)
    (hzombie : p.state = .ZOMBIE → (m.procs j).state = .ZOMBIE)
    (hused : (m.procs j).state = .USED → p.state = .USED) : TableInv (m.setProc j p) :=
  h.setProc (hofile ▸ h.files j) hunused ((h.exit j).congr hofile hcwd)
    (fun hz => h.zombie j (hzombie hz)) fun i hi => hused (h.used i j hi)

theorem TableInv.wakeupSlot {m : Table} (h : TableInv m) (chan : Option Nat) (j : Nat) :
    TableInv (m.setProc j (wakeupSlot chan (m.procs j))) := by
  rcases wakeupSlot_eq chan (m.procs j) with heq | ⟨hsleep, heq⟩ <;> rw [heq]
  · exact h.touch rfl rfl (h.clean j) id id
  · exact h.touch rfl rfl (by simp) (by simp) (by simp [hsleep])

theorem TableInv.wakeup {m : Table} (h : TableInv m) (i : Nat) (chan : Option Nat) (l : Nat) :
    TableInv (m.wakeup i chan l) := by
  unfold Table.wakeup
  split
  · exact h
  · exact h.wakeupSlot chan l

/-- The body of `kkill` on a slot that is not free. -/
theorem TableInv.killSlot {m : Table} (h : TableInv m) {j : Nat}
    (hlive : (m.procs j).state ≠ .UNUSED) : TableInv (m.setProc j (killSlot (m.procs j))) := by
  by_cases hsleep : (m.procs j).state = .SLEEPING
  · exact h.touch rfl rfl (by simp [Xv6.killSlot, hsleep]) (by simp [Xv6.killSlot, hsleep])
      (by simp [hsleep])
  · refine h.touch rfl rfl ?_ ?_ ?_ <;> simp [Xv6.killSlot, hsleep, hlive]

/-- What `freeproc` leaves is clean if the files and the directory are gone. -/
theorem cleanSlot_freeproc (hofile : ∀ f ∈ p.ofile, f = none) (hcwd : p.cwd = none) :
    CleanSlot (freeproc p) :=
  ⟨rfl, rfl, rfl, rfl, rfl, rfl, rfl, rfl, hofile, hcwd⟩

/-! ## The allocation section of `kfork` -/

/-- A fork that fails leaves the slot as `freeproc` does. -/
theorem forkSection_fail {np : Proc}
    (h : forkSection o pid p np = (q, false)) (hnp : CleanSlot np) :
    CleanSlot q ∧ q.ofile = np.ofile ∧ q.state = .UNUSED := by
  rcases forkSection_cases o pid p np with ⟨r, hr, hofile, hcwd⟩ | ⟨r, hr, -⟩ <;> rw [h] at hr <;>
    cases hr
  obtain ⟨_, _, _, _, _, _, _, _, hnone, hdir⟩ := hnp
  exact ⟨cleanSlot_freeproc (hofile ▸ hnone) (hcwd ▸ hdir), hofile, rfl⟩

/-- A fork that succeeds: the new slot is `USED` under its new pid, and its
`killed` flag is what `allocproc` found. -/
theorem forkSection_ok {np : Proc}
    (h : forkSection o pid p np = (q, true)) :
    q.state = .USED ∧ q.pid = pid ∧ q.killed = np.killed ∧
      q.ofile = List.zipWith (fun f nf => f.or nf) p.ofile np.ofile := by
  rcases forkSection_cases o pid p np with ⟨r, hr, -⟩ | ⟨r, hr, -, hstate, hpid, hkilled, -,
    hofile⟩ <;>
    rw [h] at hr <;> cases hr
  exact ⟨hstate, hpid, hkilled, hofile⟩

theorem TableInv.forkFail {m : Table} (h : TableInv m) (hfree : (m.procs k).state = .UNUSED)
    (hq : forkSection o pid p (m.procs k) = (q, false)) : TableInv (m.setProc k q) := by
  obtain ⟨hclean, hofile, hstate⟩ := forkSection_fail hq (h.clean k hfree)
  have hold := h.clean k hfree
  refine h.touch hofile ?_ (fun _ => hclean) (by simp [hstate]) (by simp [hfree])
  rw [hclean.2.2.2.2.2.2.2.2.2, hold.2.2.2.2.2.2.2.2.2]

/-- The allocation of slot `k` by the thread `i`, which goes on to set its
parent. -/
theorem TableInv.forkAlloc {m : Table} (h : TableInv m) {i : Nat}
    (hrun : (m.procs i).state = .RUNNING) (hfree : (m.procs k).state = .UNUSED)
    (hq : forkSection o pid (m.procs i) (m.procs k) = (q, true)) :
    TableInv (((m.setProc k q).setPc k (.user 0)).setPc i (.forkParent k pid)) := by
  obtain ⟨hstate, -, -, hofile⟩ := forkSection_ok hq
  have hne : i ≠ k := by
    rintro rfl
    rw [hrun] at hfree
    cases hfree
  -- no fork can hold a slot that is free
  have hnochild : ∀ j, (m.pcs j).child ≠ some k := by
    intro j hj
    have hused := h.used j k hj
    rw [hfree] at hused
    cases hused
  have hreset : TableInv (m.setPc k (.user 0)) :=
    h.movePc (by simp [hfree]) rfl (exitFact_of_closed_eq_zero rfl rfl)
  have halloc : TableInv ((m.setPc k (.user 0)).setProc k q) := by
    refine hreset.setProc ?_ (by simp [hstate]) ?_ (by simp [hstate]) fun _ _ => hstate
    · rw [hofile, List.length_zipWith, h.files i, h.files k]
      exact Nat.min_self _
    · rw [show (m.setPc k (.user 0)).pcs k = .user 0 from update_self _ _ _]
      exact exitFact_of_closed_eq_zero rfl rfl
  refine halloc.setPc (exitFact_of_closed_eq_zero rfl rfl) ?_ fun c hc => ?_
  · simp [Table.setPc, Table.setProc, hne, hrun]
  · cases hc
    refine ⟨by simp [Table.setPc, Table.setProc, hstate], fun j _ => ?_⟩
    rcases eq_or_ne j k with rfl | hjk
    · simp [Table.setPc, Table.setProc, Pc.child]
    · simpa [Table.setPc, Table.setProc, hjk] using hnochild j

/-! ## The sections of a thread -/

section Sections

variable {m : Table} (h : TableInv m) {i : Nat} (hrun : (m.procs i).state = .RUNNING)

include h hrun

/-- A thread goes on to a program counter outside `kexit`. -/
theorem TableInv.goto (hchild : pc.child = none) (hclosed : pc.closed = 0)
    (hcwd : pc.noCwd = false) : TableInv (m.setPc i pc) :=
  h.movePc (by simp [hrun]) hchild (exitFact_of_closed_eq_zero hclosed hcwd)

/-- A thread goes on inside `kexit` without releasing anything. -/
theorem TableInv.gotoExit (hchild : pc.child = none)
    (hclosed : pc.closed = (m.pcs i).closed) (hcwd : pc.noCwd = (m.pcs i).noCwd) :
    TableInv (m.setPc i pc) :=
  h.movePc (by simp [hrun]) hchild ((h.exit i).next hclosed hcwd)

omit h in
theorem running_setProc {j : Nat} (hp : j = i → p.state = .RUNNING) :
    ((m.setProc j p).procs i).state = .RUNNING := by
  rcases eq_or_ne i j with rfl | hij
  · simpa [Table.setProc] using hp rfl
  · simpa [Table.setProc, hij] using hrun

omit h in
theorem running_wakeup {chan : Option Nat}  :
    ((m.wakeup i chan l).procs i).state = .RUNNING := by
  unfold Table.wakeup
  split
  · exact hrun
  · exact running_setProc hrun fun hli => absurd hli ‹_›

/-- A running process changes its own slot, but not its files or directory. -/
theorem TableInv.touchOwn (hofile : p.ofile = (m.procs i).ofile)
    (hcwd : p.cwd = (m.procs i).cwd) (hunused : p.state ≠ .UNUSED) (hzombie : p.state ≠ .ZOMBIE) :
    TableInv (m.setProc i p) :=
  h.touch hofile hcwd (fun hu => absurd hu hunused) (fun hz => absurd hz hzombie)
    (by simp [hrun])

theorem TableInv.wakeUp (hchild : pc.child = none) (hclosed : pc.closed = 0)
    (hcwd : pc.noCwd = false) : TableInv (m.wakeUp i pc) := by
  have hset : TableInv (m.setProc i { m.procs i with chan := none }) :=
    h.touchOwn hrun rfl rfl (by simp [hrun]) (by simp [hrun])
  exact hset.goto (running_setProc hrun fun _ => hrun) hchild hclosed hcwd

theorem TableInv.forkScan (o : Oracle) (k : Nat) : TableInv (m.forkScan i o k) := by
  unfold Table.forkScan
  by_cases hk : k < NPROC
  · by_cases hfree : (m.procs k).state = .UNUSED
    · rw [if_pos hk, if_pos hfree]
      have hnext := h.setNextpid (m.nextpid + 1)
      rcases hsec : forkSection o m.nextpid (m.procs i) (m.procs k) with ⟨np, ok⟩
      cases ok
      · refine (hnext.forkFail hfree hsec).goto (running_setProc hrun ?_) rfl rfl rfl
        rintro rfl
        rw [hrun] at hfree
        cases hfree
      · exact hnext.forkAlloc hrun hfree hsec
    · rw [if_pos hk, if_neg hfree]
      exact h.goto hrun rfl rfl rfl
  · rw [if_neg hk]
    exact h.goto hrun rfl rfl rfl

theorem TableInv.forkParent (hpc : m.pcs i = .forkParent k pid) :
    TableInv (m.forkParent i k pid) := by
  have hchild : (m.pcs i).child = some k := by rw [hpc]; rfl
  have hstate := h.used i k hchild
  have hset : TableInv (m.setProc k { m.procs k with parent := some i }) :=
    h.touch rfl rfl (by simp [hstate]) id id
  refine hset.setPc (exitFact_of_closed_eq_zero rfl rfl) ?_ fun c hc => ?_
  · rw [running_setProc hrun (by rintro rfl; exact hrun)]
    exact nofun
  · cases hc
    exact ⟨hset.used i k hchild, fun j hji hj => hji (h.unique j i k hj hchild)⟩

/-- The last section of `kfork` gives up the slot it allocated. -/
theorem TableInv.forkRunnable (hpc : m.pcs i = .forkRunnable k pid) :
    TableInv (m.forkRunnable i k pid) := by
  have hchild : (m.pcs i).child = some k := by rw [hpc]; rfl
  have hleave : TableInv (m.setPc i (.user pid)) := h.goto hrun rfl rfl rfl
  refine hleave.setProc (h.files k) (by simp) ((hleave.exit k).congr rfl rfl) (by simp) ?_
  intro j hj
  -- the fork that held the slot has moved on, and it was the only one
  rcases eq_or_ne j i with rfl | hji
  · rw [show (m.setPc j (.user pid)).pcs j = .user pid from update_self _ _ _] at hj
    cases hj
  · rw [show (m.setPc i (.user pid)).pcs j = m.pcs j from update_of_ne hji _ _] at hj
    exact absurd (h.unique j i k hj hchild) hji

/-- A running process is not the child of a fork under way. -/
theorem TableInv.not_child_of_running (j : Nat) : (m.pcs j).child ≠ some i := by
  intro hj
  have hused := h.used j i hj
  rw [hrun] at hused
  cases hused

/-- `kexit` closes one more descriptor. -/
theorem TableInv.exitClose {fd : Nat} (hpc : m.pcs i = .exitClose status fd) :
    TableInv (m.exitClose i status fd) := by
  have hfact := h.exit i
  rw [hpc] at hfact
  unfold Table.exitClose
  split
  · have hset : ∀ f ∈ ((m.procs i).ofile.set fd none).take (fd + 1), f = none := by
      intro f hf
      rw [List.take_add_one, List.take_set_of_le (Nat.le_refl fd), List.mem_append] at hf
      rcases hf with hf | hf
      · exact hfact.1 f hf
      · by_cases hlt : fd < (m.procs i).ofile.length <;> simp_all
    have hclosed :
        TableInv (m.setProc i { m.procs i with ofile := (m.procs i).ofile.set fd none }) := by
      refine h.setProc (by rw [List.length_set, h.files]) (by simp [hrun]) ?_ (by simp [hrun])
        fun j hj => absurd hj (h.not_child_of_running hrun j)
      rw [hpc]
      exact ⟨fun f hf => hset f (List.take_subset_take_left _ (Nat.le_succ fd) hf), nofun⟩
    refine hclosed.movePc (by simp [Table.setProc, hrun]) rfl ⟨?_, nofun⟩
    rw [show (m.setProc i { m.procs i with ofile := (m.procs i).ofile.set fd none }).procs
      i = _ from
      update_self _ _ _]
    exact hset
  · -- all `NOFILE` descriptors are done
    refine h.movePc (by simp [hrun]) rfl ⟨fun f hf => hfact.1 f ?_, nofun⟩
    rename_i hdone
    exact List.take_subset_take_left _ (Nat.le_of_not_lt hdone) hf

/-- `kexit` drops the working directory. -/
theorem TableInv.exitCwd (hpc : m.pcs i = .exitCwd status) :
    TableInv (m.exitCwd i status) := by
  have hfact := h.exit i
  rw [hpc] at hfact
  have hdrop : TableInv (m.setProc i { m.procs i with cwd := none }) := by
    refine h.setProc (h.files i) (by simp [hrun]) ?_ (by simp [hrun]) fun j hj => h.used j i hj
    rw [hpc]
    exact ⟨hfact.1, fun _ => rfl⟩
  refine hdrop.movePc (by simp [Table.setProc, hrun]) rfl ?_
  rw [show (m.setProc i { m.procs i with cwd := none }).procs i = _ from update_self _ _ _]
  exact ⟨hfact.1, fun _ => rfl⟩

theorem TableInv.reparent (hpc : m.pcs i = .reparent status k) :
    TableInv (m.reparent i status k) := by
  unfold Table.reparent
  split
  · split
    · rename_i hparent
      have hset : TableInv (m.setProc k { m.procs k with parent := some m.initproc }) := by
        refine h.touch rfl rfl (fun hu => ?_) id id
        -- a free slot has no parent
        have hnone := (h.clean k hu).2.1
        rw [hparent] at hnone
        cases hnone
      refine hset.gotoExit (running_setProc hrun (by rintro rfl; exact hrun)) rfl ?_ ?_
      all_goals rw [show (m.setProc k _).pcs i = m.pcs i from rfl, hpc]; rfl
    · exact h.gotoExit hrun rfl (by rw [hpc]; rfl) (by rw [hpc]; rfl)
  · exact h.gotoExit hrun rfl (by rw [hpc]; rfl) (by rw [hpc]; rfl)

omit h hrun in
@[simp] theorem wakeup_pcs (chan : Option Nat) (l : Nat) : (m.wakeup i chan l).pcs = m.pcs := by
  unfold Table.wakeup
  split <;> rfl

theorem TableInv.reparentWake
    (hpc : m.pcs i = .reparentWake status k l) : TableInv (m.reparentWake i status k l) := by
  unfold Table.reparentWake
  split
  · refine (h.wakeup i _ l).gotoExit (running_wakeup hrun) rfl ?_ ?_
    all_goals rw [wakeup_pcs, hpc]; rfl
  · exact h.gotoExit hrun rfl (by rw [hpc]; rfl) (by rw [hpc]; rfl)

theorem TableInv.exitWake {parent : Option Nat}
    (hpc : m.pcs i = .exitWake status parent l) : TableInv (m.exitWake i status parent l) := by
  unfold Table.exitWake
  split
  · refine (h.wakeup i _ l).gotoExit (running_wakeup hrun) rfl ?_ ?_
    all_goals rw [wakeup_pcs, hpc]; rfl
  · exact h.gotoExit hrun rfl (by rw [hpc]; rfl) (by rw [hpc]; rfl)

/-- `kexit` becomes a zombie. -/
theorem TableInv.exitZombie (hpc : m.pcs i = .exitZombie status) :
    TableInv (m.exitZombie i status) := by
  have hdead : TableInv ((m.setWaitLock none).setPc i .dead) :=
    (h.setWaitLock none).gotoExit hrun rfl
      (by rw [show (m.setWaitLock none).pcs i = _ from hpc]; rfl)
      (by rw [show (m.setWaitLock none).pcs i = _ from hpc]; rfl)
  refine hdead.setProc (h.files i) (by simp) ((hdead.exit i).congr rfl rfl) ?_ fun j hj => ?_
  · exact fun _ => update_self _ _ _
  · exact absurd hj (hdead.not_child_of_running hrun j)

omit hrun in
/-- `kwait` frees a zombie, which `kexit` left without files and directory. -/
theorem TableInv.reap (hz : (m.procs k).state = .ZOMBIE) :
    TableInv (m.setProc k (freeproc (m.procs k))) := by
  have hfact := h.exit k
  rw [h.zombie k hz] at hfact
  have hofile : ∀ f ∈ (m.procs k).ofile, f = none := by
    have hall : (m.procs k).ofile.take NOFILE = (m.procs k).ofile :=
      List.take_of_length_le (Nat.le_of_eq (h.files k))
    exact hall ▸ hfact.1
  exact h.touch rfl rfl (fun _ => cleanSlot_freeproc hofile (hfact.2 rfl)) (by simp [freeproc])
    (by simp [hz])

theorem TableInv.waitScan (o : Oracle) (addr : BitVec 64) (k : Nat) (havekids : Bool) :
    TableInv (m.waitScan i o addr k havekids) := by
  have hunlock := h.setWaitLock none
  unfold Table.waitScan
  split
  · split
    · split
      · rename_i hz
        split
        · exact hunlock.goto hrun rfl rfl rfl
        · refine (hunlock.reap hz).goto (running_setProc hrun ?_) rfl rfl rfl
          rintro rfl
          rw [hrun] at hz
          cases hz
      · exact h.goto hrun rfl rfl rfl
    · exact h.goto hrun rfl rfl rfl
  · split
    · exact hunlock.goto hrun rfl rfl rfl
    · exact h.goto hrun rfl rfl rfl

/-- A running process goes to sleep. -/
theorem TableInv.sleep (chan : Nat) (hchild : pc.child = none) (hclosed : pc.closed = 0)
    (hcwd : pc.noCwd = false) :
    TableInv ((m.setProc i { m.procs i with chan := some chan, state := .SLEEPING }).setPc i
      pc) := by
  have hset : TableInv (m.setProc i { m.procs i with chan := some chan, state := .SLEEPING }) :=
    h.touchOwn hrun rfl rfl nofun nofun
  exact hset.movePc (by simp [Table.setProc]) hchild (exitFact_of_closed_eq_zero hclosed hcwd)

theorem TableInv.killScan
    (hkill : k < NPROC → (m.procs k).pid = pid → (m.procs k).state ≠ .UNUSED) :
    TableInv (m.killScan i pid k) := by
  unfold Table.killScan
  split
  · next hk =>
    split
    · refine (h.killSlot (hkill hk ‹_›)).goto (running_setProc hrun ?_) rfl rfl rfl
      rintro rfl
      simp [Xv6.killSlot, hrun]
    · exact h.goto hrun rfl rfl rfl
  · exact h.goto hrun rfl rfl rfl

end Sections

/-! ## Steps and runs -/

theorem tableInv_tick {m : Table} (h : TableInv m) {i : Nat}
    (hrun : (m.procs i).state = .RUNNING) (hkill : KillOk m (.tick i o))
    (hs : threadStep m i o = some m') : TableInv m' := by
  unfold threadStep at hs
  split at hs
  case h_1 | h_13 => cases hs
  case h_2 | h_17 => cases hs; exact h.wakeUp hrun rfl rfl rfl
  case h_3 k _ => cases hs; exact h.forkScan hrun o k
  case h_4 k pid hpc =>
    split at hs <;> cases hs
    exact h.forkParent hrun hpc
  case h_5 hpc => cases hs; exact h.forkRunnable hrun hpc
  case h_6 hpc => cases hs; exact h.exitClose hrun hpc
  case h_7 hpc => cases hs; exact h.exitCwd hrun hpc
  case h_8 status hpc =>
    split at hs <;> cases hs
    refine (h.setWaitLock (some i)).gotoExit hrun rfl ?_ ?_
    all_goals rw [show (m.setWaitLock (some i)).pcs i = _ from hpc]; rfl
  case h_9 hpc => cases hs; exact h.reparent hrun hpc
  case h_10 hpc => cases hs; exact h.reparentWake hrun hpc
  case h_11 hpc => cases hs; exact h.exitWake hrun hpc
  case h_12 hpc => cases hs; exact h.exitZombie hrun hpc
  case h_14 addr hpc =>
    split at hs <;> cases hs
    exact (h.setWaitLock (some i)).goto hrun rfl rfl rfl
  case h_15 addr k havekids _ => cases hs; exact h.waitScan hrun o addr k havekids
  case h_16 => cases hs; exact (h.setWaitLock none).sleep hrun i rfl rfl rfl
  case h_18 pid k hpc =>
    cases hs
    refine h.killScan hrun ?_
    unfold KillOk at hkill
    dsimp only at hkill
    rw [hpc] at hkill
    exact hkill

theorem tableInv_call {m : Table} (h : TableInv m) {i : Nat} {c : Call}
    (hrun : (m.procs i).state = .RUNNING) {ret : BitVec 32} {status : Option (BitVec 32)}
    (hpc : m.pcs i = .user ret status)
    (hs : callStep m i c = some m') : TableInv m' := by
  cases c with
  | fork | wait | kill =>
    cases hs
    exact h.goto hrun rfl rfl rfl
  | exit status =>
    simp only [callStep] at hs
    split at hs <;> cases hs
    exact h.goto hrun rfl rfl rfl
  | sleep chan =>
    cases hs
    exact h.sleep hrun chan rfl rfl rfl
  | setkilled =>
    cases hs
    exact h.touchOwn hrun rfl rfl (by simp [hrun]) (by simp [hrun])
  | other sz pagetable ofile cwd name tickets =>
    simp only [callStep] at hs
    split at hs <;> cases hs
    refine h.setProc ‹_› (by simp [hrun]) ?_ (by simp [hrun])
      fun j hj => absurd hj (h.not_child_of_running hrun j)
    rw [hpc]
    exact exitFact_of_closed_eq_zero rfl rfl

/-- Every step keeps the invariant, except a `kkill` that marks a free slot. -/
theorem tableInv_step (m : Table) (a : Act) (m' : Table) (h : TableInv m) (hkill : KillOk m a)
    (hs : step m a = some m') : TableInv m' := by
  unfold step at hs
  cases a with
  | dispatch i =>
    dsimp only at hs
    split at hs <;> cases hs
    exact h.touch rfl rfl nofun nofun (by simp_all)
  | yield i =>
    dsimp only at hs
    split at hs <;> cases hs
    exact h.touch rfl rfl nofun nofun (by simp_all)
  | wakeup j chan =>
    cases hs
    exact h.wakeupSlot (some chan) j
  | call i c =>
    dsimp only at hs
    split at hs
    · rename_i ret hpc
      split at hs
      · exact tableInv_call h ‹_› hpc hs
      · cases hs
    · cases hs
  | tick i o =>
    dsimp only at hs
    split at hs
    · exact tableInv_tick h ‹_› hkill hs
    · cases hs

theorem tableInv_userinit (trapframe pagetable root : Nat) :
    TableInv (userinit trapframe pagetable root) := by
  have hzero : TableInv {} := by
    refine ⟨fun _ => rfl, fun _ _ => ?_, fun _ => exitFact_of_closed_eq_zero rfl rfl, nofun, nofun,
      nofun⟩
    exact ⟨rfl, rfl, rfl, rfl, rfl, rfl, rfl, rfl, fun _ => List.eq_of_mem_replicate, rfl⟩
  have hpid := hzero.setNextpid 2
  exact hpid.setProc rfl nofun (exitFact_of_closed_eq_zero rfl rfl) nofun nofun

theorem TableInv.slotsClean {m : Table} (h : TableInv m) : SlotsClean m :=
  fun j _ => h.clean j

/-- The states of a run in which no `kkill` marks a free slot have clean slots. -/
theorem slotsClean_run {m : Table} (h : TableInv m)
    (hok : StepsMeet step KillOk m as) : StatesMeet step SlotsClean m as := by
  induction as generalizing m with
  | nil => exact h.slotsClean
  | cons a as ih =>
    exact ⟨h.slotsClean, fun t ht => ih (tableInv_step m a t h hok.1 ht) (hok.2 t ht)⟩

/-! ## What one thread can do to the slot of another -/

/-- The changes that a section of thread `i` can make to the slot `j` of another
process, which holds `p` before. -/
inductive SlotChange (m : Table) (i j : Nat) (p : Proc) : Proc → Prop
  | same : SlotChange m i j p p
  | woken (hsleep : p.state = .SLEEPING) : SlotChange m i j p { p with state := .RUNNABLE }
  | alloc (o : Oracle) (pid : BitVec 32) (hfree : p.state = .UNUSED) :
      SlotChange m i j p (forkSection o pid (m.procs i) p).1
  | parent (q : Option Nat) : SlotChange m i j p { p with parent := q }
  | runnable : SlotChange m i j p { p with state := .RUNNABLE }
  | reaped (hzombie : p.state = .ZOMBIE) : SlotChange m i j p (freeproc p)
  | killed (hpc : m.pcs i = .kill p.pid j) : SlotChange m i j p (killSlot p)

section Inversion

variable {m : Table} {i j : Nat}

theorem SlotChange.setProc
    (hk : k = j → SlotChange m i j (m.procs j) p) :
    SlotChange m i j (m.procs j) ((m.setProc k p).procs j) := by
  rcases eq_or_ne j k with rfl | hjk
  · rw [show (m.setProc j p).procs j = p from update_self _ _ _]
    exact hk rfl
  · rw [show (m.setProc k p).procs j = m.procs j from update_of_ne hjk _ _]
    exact .same

theorem SlotChange.setOwn (hne : i ≠ j) :
    SlotChange m i j (m.procs j) ((m.setProc i p).procs j) :=
  .setProc fun hij => absurd hij hne

theorem slotChange_wakeupSlot (chan : Option Nat) (k : Nat) :
    SlotChange m i j (m.procs j) ((m.setProc k (wakeupSlot chan (m.procs k))).procs j) := by
  refine .setProc ?_
  rintro rfl
  rcases wakeupSlot_eq chan (m.procs k) with heq | ⟨hsleep, heq⟩ <;> rw [heq]
  · exact .same
  · exact .woken hsleep

theorem slotChange_wakeup (chan : Option Nat) (l : Nat) :
    SlotChange m i j (m.procs j) ((m.wakeup i chan l).procs j) := by
  unfold Table.wakeup
  split
  · exact .same
  · exact slotChange_wakeupSlot chan l

theorem slotChange_tick (hne : i ≠ j)
    (hs : threadStep m i o = some m') : SlotChange m i j (m.procs j) (m'.procs j) := by
  unfold threadStep at hs
  split at hs
  case h_1 | h_13 => cases hs
  case h_2 | h_17 | h_7 | h_12 | h_16 => cases hs; exact .setOwn hne
  case h_3 k _ =>
    cases hs
    unfold Table.forkScan
    split
    · split
      · rename_i hfree
        have halloc : ∀ np, (forkSection o m.nextpid (m.procs i) (m.procs k)).1 = np →
            SlotChange m i j (m.procs j) ((m.setProc k np).procs j) := by
          rintro np rfl
          refine .setProc ?_
          rintro rfl
          exact .alloc o m.nextpid hfree
        rcases hsec : forkSection o m.nextpid (m.procs i) (m.procs k) with ⟨np, ok⟩
        cases ok <;> exact halloc np (by rw [hsec])
      · exact .same
    · exact .same
  case h_4 k _ _ =>
    split at hs <;> cases hs
    refine .setProc ?_
    rintro rfl
    exact .parent (some i)
  case h_5 k _ _ =>
    cases hs
    refine .setProc ?_
    rintro rfl
    exact .runnable
  case h_6 =>
    cases hs
    unfold Table.exitClose
    split
    · exact .setOwn hne
    · exact .same
  case h_8 | h_14 =>
    split at hs <;> cases hs
    exact .same
  case h_9 k _ =>
    cases hs
    unfold Table.reparent
    split
    · split
      · refine .setProc ?_
        rintro rfl
        exact .parent (some m.initproc)
      · exact .same
    · exact .same
  case h_10 =>
    cases hs
    unfold Table.reparentWake
    split
    · exact slotChange_wakeup _ _
    · exact .same
  case h_11 =>
    cases hs
    unfold Table.exitWake
    split
    · exact slotChange_wakeup _ _
    · exact .same
  case h_15 =>
    cases hs
    unfold Table.waitScan
    split
    · split
      · split
        · rename_i hzombie
          split
          · exact .same
          · refine SlotChange.setProc (m := m) ?_
            rintro rfl
            exact .reaped hzombie
        · exact .same
      · exact .same
    · split <;> exact .same
  case h_18 q k hpc =>
    cases hs
    unfold Table.killScan
    split
    · split
      · rename_i hq
        refine .setProc ?_
        rintro rfl
        exact .killed (hq ▸ hpc)
      · exact .same
    · exact .same

theorem callStep_other {c : Call} (hne : i ≠ j) (hs : callStep m i c = some m') :
    m'.procs j = m.procs j := by
  have hown : ∀ p : Proc, (m.setProc i p).procs j = m.procs j :=
    fun p => update_of_ne hne.symm _ _
  cases c with
  | fork | wait | kill => cases hs; rfl
  | exit => simp only [callStep] at hs; split at hs <;> cases hs; rfl
  | sleep => cases hs; exact hown _
  | setkilled => cases hs; exact hown _
  | other => simp only [callStep] at hs; split at hs <;> cases hs; exact hown _

end Inversion

/-! ## New processes -/

/-- The step is a section of `kkill(pid)`. -/
def KillNames (pid : BitVec 32) (m : Table) : Act → Prop
  | .tick i _ =>
    match m.pcs i with
    | .kill pid' _ => pid' = pid
    | _ => False
  | _ => False

/-- The slot holds the process `pid`, which has not run and is not killed. -/
def Newborn (pid : BitVec 32) (p : Proc) : Prop :=
  (p.state = .USED ∨ p.state = .RUNNABLE) ∧ p.pid = pid ∧ p.killed = false

theorem Newborn.slotChange {m : Table} {i j : Nat} {p' : Proc}
    (h : Newborn pid p) (hkill : ¬ KillNames pid m (.tick i o)) (hp : SlotChange m i j p p') :
    Newborn pid p' := by
  obtain ⟨hstate, hpid, hkilled⟩ := h
  cases hp with
  | same | parent => exact ⟨hstate, hpid, hkilled⟩
  | woken | runnable => exact ⟨.inr rfl, hpid, hkilled⟩
  | alloc _ _ hfree => simp [hfree] at hstate
  | reaped hzombie => simp [hzombie] at hstate
  | killed hpc =>
    refine absurd ?_ hkill
    unfold KillNames
    dsimp only
    rw [hpc]
    exact hpid

/-- Until it is dispatched, a new process is killed only by a `kkill` of its pid. -/
theorem newborn_step {m : Table} {a : Act} {j : Nat}
    (h : Newborn pid (m.procs j)) (hkill : ¬ KillNames pid m a) (hs : step m a = some m')
    (hrun : (m'.procs j).state ≠ .RUNNING) : Newborn pid (m'.procs j) := by
  have hne : ∀ {i}, (m.procs i).state = .RUNNING → i ≠ j := by
    rintro i hi rfl
    rcases h.1 with hstate | hstate <;> rw [hi] at hstate <;> cases hstate
  unfold step at hs
  cases a with
  | dispatch i =>
    dsimp only at hs
    split at hs <;> cases hs
    rcases eq_or_ne j i with rfl | hji
    · exact absurd (by simp [Table.setProc, dispatch]) hrun
    · rwa [show (m.setProc i _).procs j = m.procs j from update_of_ne hji _ _]
  | yield i =>
    dsimp only at hs
    split at hs <;> cases hs
    rename_i hi
    rwa [show (m.setProc i _).procs j = m.procs j from update_of_ne (hne hi.1).symm _ _]
  | wakeup k chan =>
    cases hs
    rcases eq_or_ne j k with rfl | hjk
    · rcases wakeupSlot_eq (some chan) (m.procs j) with heq | ⟨hsleep, -⟩
      · simpa [Table.setProc, heq] using h
      · simp [Newborn, hsleep] at h
    · rwa [show (m.setProc k _).procs j = m.procs j from update_of_ne hjk _ _]
  | call i c =>
    dsimp only at hs
    split at hs
    · split at hs
      · rwa [callStep_other (hne ‹_›) hs]
      · cases hs
    · cases hs
  | tick i o =>
    dsimp only at hs
    split at hs
    · exact h.slotChange hkill (slotChange_tick (hne ‹_›) hs)
    · cases hs

/-- A step that turns a free slot `USED` is the allocation section of `kfork`,
and the new process starts as it found the slot. -/
theorem newborn_of_alloc {m : Table} {a : Act} {j : Nat} (hclean : CleanSlot (m.procs j))
    (hfree : (m.procs j).state = .UNUSED) (hs : step m a = some m')
    (hused : (m'.procs j).state = .USED) : Newborn (m'.procs j).pid (m'.procs j) := by
  have hne : ∀ {i}, (m.procs i).state ≠ .UNUSED → j ≠ i := by
    rintro i hi rfl
    exact hi hfree
  -- a step that leaves the slot alone leaves it `UNUSED`
  have hsame : m'.procs j ≠ m.procs j := by
    intro heq
    rw [heq, hfree] at hused
    cases hused
  unfold step at hs
  cases a with
  | dispatch i =>
    dsimp only at hs
    split at hs <;> cases hs
    rename_i hi
    exact absurd (update_of_ne (hne (by simp [hi])) _ _) hsame
  | yield i =>
    dsimp only at hs
    split at hs <;> cases hs
    rename_i hi
    exact absurd (update_of_ne (hne (by simp [hi])) _ _) hsame
  | wakeup k chan =>
    cases hs
    refine absurd ?_ hsame
    rcases eq_or_ne j k with rfl | hjk
    · rcases wakeupSlot_eq (some chan) (m.procs j) with heq | ⟨hsleep, -⟩
      · simp [Table.setProc, heq]
      · simp [hsleep] at hfree
    · exact update_of_ne hjk _ _
  | call i c =>
    dsimp only at hs
    split at hs
    · split at hs
      · rename_i hi
        exact absurd (callStep_other (hne (by simp [hi])).symm hs) hsame
      · cases hs
    · cases hs
  | tick i o =>
    dsimp only at hs
    split at hs
    · rename_i hi
      have hchange := slotChange_tick (hne (by simp [hi])).symm hs
      generalize m'.procs j = p' at hchange hused
      refine ⟨.inl hused, rfl, ?_⟩
      cases hchange with
      | same | parent => simp [hfree] at hused
      | woken | runnable => simp at hused
      | reaped => simp [freeproc] at hused
      | killed => simp [killSlot, hfree] at hused
      | alloc o pid =>
        rcases hsec : forkSection o pid (m.procs i) (m.procs j) with ⟨np, ok⟩
        rw [hsec] at hused
        cases ok
        · simp [(forkSection_fail hsec hclean).2.2] at hused
        · rw [(forkSection_ok hsec).2.2.1]
          exact hclean.2.2.2.1
    · cases hs

/-- In the run `as` from `m₀`, a process made by `kfork` (its slot turns from
`UNUSED` to `USED`) is not killed before it is first dispatched, unless a
`kkill` of its pid runs after its creation. -/
def StartsUnkilled (m₀ : Table) (as : List Act) : Prop :=
  ∀ (before after : List Act) (a : Act) (s t u : Table) (j : Nat),
    as = before ++ a :: after → exec step m₀ before = some s → step s a = some t →
    j < NPROC → (s.procs j).state = .UNUSED → (t.procs j).state = .USED →
    exec step t after = some u → StatesMeet step (fun m => (m.procs j).state ≠ .RUNNING) t after →
    StepsMeet step (fun m b => ¬ KillNames (t.procs j).pid m b) t after →
    (u.procs j).killed = false

theorem newborn_run {m : Table} {j : Nat}
    (h : Newborn pid (m.procs j)) (hrun : exec step m as = some m')
    (hstates : StatesMeet step (fun m => (m.procs j).state ≠ .RUNNING) m as)
    (hsteps : StepsMeet step (fun m b => ¬ KillNames pid m b) m as) :
    Newborn pid (m'.procs j) := by
  induction as generalizing m with
  | nil =>
    cases hrun
    exact h
  | cons a as ih =>
    obtain ⟨u, hu, hrest⟩ := exec_cons_eq_some hrun
    have hnext := hstates.2 u hu
    exact ih (newborn_step h hsteps.1 hu hnext.head) hrest hnext (hsteps.2 u hu)

theorem startsUnkilled_of_tableInv {m₀ : Table} (h : TableInv m₀)
    (hok : StepsMeet step KillOk m₀ as) : StartsUnkilled m₀ as := by
  intro before after a s t u j has hs ht _ hfree hused hu hstates hsteps
  subst has
  have hinv : TableInv s := inv_of_exec tableInv_step h (hok.append hs).1 hs
  have hnew := newborn_of_alloc (hinv.clean j hfree) hfree ht hused
  exact (newborn_run hnew hu hstates hsteps).2.2

/-! ## The result -/

/-- In every run of forks, exits, waits and kills from the state after
`userinit` in which no `kkill` marks an `UNUSED` slot, every free slot is clean
in every state, and no new process starts killed. -/
theorem free_slots_clean (trapframe pagetable root : Nat) (as : List Act)
    (hok : StepsMeet step KillOk (userinit trapframe pagetable root) as) :
    StatesMeet step SlotsClean (userinit trapframe pagetable root) as ∧
      StartsUnkilled (userinit trapframe pagetable root) as :=
  ⟨slotsClean_run (tableInv_userinit _ _ _) hok,
    startsUnkilled_of_tableInv (tableInv_userinit _ _ _) hok⟩

instance (m : Table) (a : Act) : Decidable (KillOk m a) := by
  unfold KillOk
  split
  · split <;> infer_instance
  · infer_instance

/-- The first process forks a child and kills it before it runs. -/
theorem free_slots_clean_fork :
    let as :=
  [.dispatch 0, .call 0 .fork, .tick 0 {}, .tick 0 { trapframe := some 3, pagetable := some 4 },
      .tick 0 {}, .tick 0 {}, .call 0 (.kill 2), .tick 0 {}, .tick 0 {}]
    StatesMeet step SlotsClean (userinit 1 2 0) as ∧ StartsUnkilled (userinit 1 2 0) as :=
  free_slots_clean 1 2 0 _ (by decide +kernel)

/-- `kkill(0)` by the first process marks slot 1, which is free, as killed. -/
theorem not_slotsClean_killZero :
    ∃ as t, exec step (userinit 1 2 0) as = some t ∧ ¬ SlotsClean t := by
  let as : List Act := [.dispatch 0, .call 0 (.kill 0), .tick 0 {}, .tick 0 {}]
  have hrun : ∃ t, exec step (userinit 1 2 0) as = some t ∧ ¬ SlotsClean t := by
    refine ⟨(exec step (userinit 1 2 0) as).getD {}, rfl, ?_⟩
    decide +kernel
  exact ⟨as, hrun⟩

end Xv6.ProcTable
