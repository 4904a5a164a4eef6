import Mathlib.Logic.Function.Basic
import Xv6.Proc.Basic

/-!
# Families of processes

What `kfork`, `kexit` and `kwait` do to the families of the processes, without
everything else in the process table: who is alive, who is whose parent, and who
sleeps in `kwait`.

* `Life`, `Phase`, `Family`: the families, with the phase of each thread.
* `Step`: the steps of the threads.
* `Kin`: parents are alive, and an exiting process has given away the children it
  has looked at (`Phase.gone`).
* `Quiet`: nobody sleeps over a zombie child, except over one that was just given
  to `init`, which is about to be woken up.
* `kin_step`, `quiet_step`: every step keeps both.
-/

namespace Xv6.FamilyTree

open Function (update update_of_ne update_self)

variable {j : Nat}

/-- What the state of a slot means for its family. -/
inductive Life where
  | unused
  | used
  | live
  | zombie
deriving DecidableEq, Repr

/-- Where the thread of a process is. -/
inductive Phase where
  /-- Outside the phases below. -/
  | idle
  /-- `kfork` has allocated slot `k`. -/
  | forking (k : Nat)
  /-- `kfork` has set the parent of slot `k`. -/
  | forked (k : Nat)
  /-- In `kexit`, before `wait_lock`. -/
  | exiting
  /-- `reparent` is at slot `k`. -/
  | giving (k : Nat)
  /-- `reparent` has given slot `k` to `init` and its `wakeup` is at slot `l`. -/
  | calling (k l : Nat)
  /-- `kexit` wakes `parent`, and its `wakeup` is at slot `l`. -/
  | telling (parent : Option Nat) (l : Nat)
  /-- `kexit` is about to become a zombie. -/
  | dying
  | dead
  /-- `kwait` is at slot `k`. -/
  | looking (k : Nat)
  /-- `kwait` is about to sleep. -/
  | tired
  /-- In the `sleep` of `kwait`. -/
  | bed
deriving DecidableEq, Repr

variable {p : Phase}

namespace Phase

/-- The thread holds `wait_lock`. -/
def locks : Phase → Bool
  | giving _ | calling _ _ | telling _ _ | dying | looking _ | tired => true
  | _ => false

/-- The thread is in `kexit`. -/
def exits : Phase → Bool
  | exiting | giving _ | calling _ _ | telling _ _ | dying | dead => true
  | _ => false

/-- The slot that `kfork` has allocated. -/
def child : Phase → Option Nat
  | forking k | forked k => some k
  | _ => none

/-- `reparent` is behind slot `j`. -/
def gone (j : Nat) : Phase → Prop
  | giving k => j < k
  | calling k _ => j ≤ k
  | telling _ _ | dying => True
  | _ => False

theorem exits_of_gone (h : p.gone j) : p.exits = true := by
  cases p <;> first | rfl | exact h.elim

/-- The `wakeup` of `kexit` for its parent is behind slot `j`. -/
def woken (j : Nat) : Phase → Prop
  | telling _ l => j < l
  | dying => True
  | _ => False

theorem locks_of_woken (h : p.woken j) : p.locks = true := by
  cases p <;> first | rfl | exact h.elim

/-- `kwait` is behind slot `j`. -/
def seen (j : Nat) : Phase → Prop
  | looking k => j < k
  | tired => True
  | _ => False

theorem locks_of_seen (h : p.seen j) : p.locks = true := by
  cases p <;> first | rfl | exact h.elim

end Phase

structure Family where
  life : Nat → Life
  parent : Nat → Option Nat
  phase : Nat → Phase
  /-- The process is `SLEEPING` in the `sleep` of `kwait`. -/
  asleep : Nat → Bool
  /-- The holder of `wait_lock`. -/
  lock : Option Nat
  init : Nat

namespace Family

variable (t : Family)

def setPhase (i : Nat) (p : Phase) : Family := { t with phase := update t.phase i p }

/-- Slot `k` gets a life and a parent. -/
def setSlot (k : Nat) (l : Life) (p : Option Nat) : Family :=
  { t with life := update t.life k l, parent := update t.parent k p }

def setLock (holder : Option Nat) : Family := { t with lock := holder }

def setAsleep (i : Nat) (b : Bool) : Family := { t with asleep := update t.asleep i b }

variable {t}

@[simp] theorem phase_setPhase_self (i : Nat) (p : Phase) : (t.setPhase i p).phase i = p :=
  update_self ..

theorem phase_setPhase_of_ne {i : Nat} (h : j ≠ i) (p : Phase) :
    (t.setPhase i p).phase j = t.phase j :=
  update_of_ne h ..

@[simp] theorem life_setSlot_self (k : Nat) (l : Life) (p : Option Nat) :
    (t.setSlot k l p).life k = l :=
  update_self ..

theorem life_setSlot_of_ne {k : Nat} (h : j ≠ k) (l : Life) (p : Option Nat) :
    (t.setSlot k l p).life j = t.life j :=
  update_of_ne h ..

@[simp] theorem parent_setSlot_self (k : Nat) (l : Life) (p : Option Nat) :
    (t.setSlot k l p).parent k = p :=
  update_self ..

theorem parent_setSlot_of_ne {k : Nat} (h : j ≠ k) (l : Life) (p : Option Nat) :
    (t.setSlot k l p).parent j = t.parent j :=
  update_of_ne h ..

/-- What holds of every thread when the thread `i` has a new phase. -/
theorem forall_setPhase {P : Nat → Phase → Prop} {i : Nat} (hi : P i p)
    (hne : ∀ j, j ≠ i → P j (t.phase j)) (j : Nat) : P j ((t.setPhase i p).phase j) :=
  (Function.forall_update_iff t.phase P).mpr ⟨hi, hne⟩ j

/-- What holds of every slot when slot `k` has changed. -/
theorem forall_setSlot {P : Nat → Life → Option Nat → Prop} {k : Nat} {l : Life} {q : Option Nat}
    (hk : P k l q) (hne : ∀ j, j ≠ k → P j (t.life j) (t.parent j)) (j : Nat) :
    P j ((t.setSlot k l q).life j) ((t.setSlot k l q).parent j) := by
  rcases eq_or_ne j k with rfl | hj
  · rw [life_setSlot_self, parent_setSlot_self]
    exact hk
  · rw [life_setSlot_of_ne hj, parent_setSlot_of_ne hj]
    exact hne j hj

end Family

/-- The steps of the threads. -/
inductive Step (t : Family) : Family → Prop
  | wake (j : Nat) : Step t (t.setAsleep j false)
  | rise {i : Nat} (hphase : t.phase i = .bed) (hasleep : t.asleep i = false) :
      Step t (t.setPhase i .idle)
  | alloc {i k : Nat} (hphase : t.phase i = .idle) (hlive : t.life i = .live) (hk : k < NPROC)
      (hfree : t.life k = .unused) :
      Step t (((t.setSlot k .used (t.parent k)).setPhase k .idle).setPhase i (.forking k))
  | parent {i k : Nat} (hphase : t.phase i = .forking k) (hlock : t.lock = none) :
      Step t ((t.setSlot k (t.life k) (some i)).setPhase i (.forked k))
  | release {i k : Nat} (hphase : t.phase i = .forked k) :
      Step t ((t.setSlot k .live (t.parent k)).setPhase i .idle)
  | exit {i : Nat} (hphase : t.phase i = .idle) (hlive : t.life i = .live) (hinit : i ≠ t.init) :
      Step t (t.setPhase i .exiting)
  | lockExit {i : Nat} (hphase : t.phase i = .exiting) (hlock : t.lock = none) :
      Step t ((t.setLock (some i)).setPhase i (.giving 0))
  | give {i k : Nat} (hphase : t.phase i = .giving k) (hchild : t.parent k = some i) :
      Step t ((t.setSlot k (t.life k) (some t.init)).setPhase i (.calling k 0))
  | pass {i k : Nat} (hphase : t.phase i = .giving k) (hchild : t.parent k ≠ some i) :
      Step t (t.setPhase i (.giving (k + 1)))
  | given {i k : Nat} (hphase : t.phase i = .giving k) (hk : NPROC ≤ k) :
      Step t (t.setPhase i (.telling (t.parent i) 0))
  | call {i k l : Nat} (b : Bool) (hphase : t.phase i = .calling k l)
    (hb : b = true → t.asleep l = true)
      (hwake : l = t.init → b = false) :
      Step t ((t.setAsleep l b).setPhase i (.calling k (l + 1)))
  | called {i k l : Nat} (hphase : t.phase i = .calling k l) (hl : NPROC ≤ l) :
      Step t (t.setPhase i (.giving (k + 1)))
  | tell {i l : Nat} {p : Option Nat} (b : Bool) (hphase : t.phase i = .telling p l)
      (hb : b = true → t.asleep l = true) (hwake : p = some l → l ≠ i → b = false) :
      Step t ((t.setAsleep l b).setPhase i (.telling p (l + 1)))
  | told {i l : Nat} {p : Option Nat} (hphase : t.phase i = .telling p l) (hl : NPROC ≤ l) :
      Step t (t.setPhase i .dying)
  | die {i : Nat} (hphase : t.phase i = .dying) :
      Step t (((t.setLock none).setSlot i .zombie (t.parent i)).setPhase i .dead)
  | lockWait {i : Nat} (hphase : t.phase i = .idle) (hlive : t.life i = .live)
    (hlock : t.lock = none) :
      Step t ((t.setLock (some i)).setPhase i (.looking 0))
  | look {i k : Nat} (hphase : t.phase i = .looking k)
    (hlook : t.parent k = some i → t.life k ≠ .zombie) :
      Step t (t.setPhase i (.looking (k + 1)))
  | leave {i k : Nat} (hphase : t.phase i = .looking k) : Step t ((t.setLock none).setPhase i .idle)
  | reap {i k : Nat} (hphase : t.phase i = .looking k) (hchild : t.parent k = some i)
      (hzombie : t.life k = .zombie) :
      Step t (((t.setLock none).setSlot k .unused none).setPhase i .idle)
  | tire {i k : Nat} (hphase : t.phase i = .looking k) (hk : NPROC ≤ k) : Step t
    (t.setPhase i .tired)
  | sleep {i : Nat} (hphase : t.phase i = .tired) :
      Step t (((t.setLock none).setAsleep i true).setPhase i .bed)

/-! ## Parents are alive -/

structure Kin (t : Family) : Prop where
  init_lt : t.init < NPROC
  init_live : t.life t.init = .live
  init_stays : (t.phase t.init).exits = false
  init_parent : t.parent t.init = none
  /-- A thread in one of the phases runs a process. -/
  active : ∀ i, t.phase i ≠ .idle → t.phase i ≠ .dead → t.life i = .live
  range : ∀ j, t.life j ≠ .unused → j < NPROC
  free : ∀ j, t.life j = .unused → t.parent j = none
  live : ∀ i j, t.parent j = some i → t.life i = .live
  self : ∀ j, t.parent j ≠ some j
  born : ∀ j, t.life j = .live ∨ t.life j = .zombie → j ≠ t.init → t.parent j ≠ none
  used : ∀ i k, (t.phase i).child = some k → t.life k = .used
  unique : ∀ i j k, (t.phase i).child = some k → (t.phase j).child = some k → i = j
  forked : ∀ i k, t.phase i = .forked k → t.parent k ≠ none
  lock : ∀ i, (t.phase i).locks = true → t.lock = some i
  gone : ∀ i j, (t.phase i).gone j → t.parent j ≠ some i

section Kin

variable {t : Family} (h : Kin t) {i k : Nat}

include h

theorem Kin.setPhase (hinit : i = t.init → p.exits = false)
    (hactive : p ≠ .idle → p ≠ .dead → t.life i = .live)
    (hchild : ∀ k, p.child = some k → t.life k = .used ∧ ∀ j ≠ i, (t.phase j).child ≠ some k)
    (hforked : ∀ k, p = .forked k → t.parent k ≠ none) (hlock : p.locks = true → t.lock = some i)
    (hgone : ∀ j, p.gone j → t.parent j ≠ some i) : Kin (t.setPhase i p) := by
  refine ⟨h.init_lt, h.init_live, ?_, h.init_parent, ?_, h.range, h.free, h.live, h.self, h.born,
    fun j k => ?_, fun j j' k => ?_, fun j k => ?_, ?_, fun j k => ?_⟩
  · exact Family.forall_setPhase (P := fun j p => j = t.init → p.exits = false) hinit
      (fun j _ hj => hj ▸ h.init_stays) t.init rfl
  · exact Family.forall_setPhase (P := fun j p => p ≠ .idle → p ≠ .dead → t.life j = .live) hactive
      fun j _ => h.active j
  · exact Family.forall_setPhase (P := fun _ p => p.child = some k → t.life k = .used)
      (fun hk => (hchild k hk).1) (fun j _ => h.used j k) j
  · refine Family.forall_setPhase (P := fun j q => q.child = some k →
      ((t.setPhase i p).phase j').child = some k → j = j') (fun hk => ?_) (fun j hj hk => ?_) j
    · exact Family.forall_setPhase (P := fun j' q => q.child = some k → i = j') (fun _ => rfl)
        (fun j' hj' hk' => absurd hk' ((hchild k hk).2 j' hj')) j'
    · exact Family.forall_setPhase (P := fun j' q => q.child = some k → j = j')
        (fun hk' => absurd hk ((hchild k hk').2 j hj)) (fun j' _ => h.unique j j' k hk) j'
  · exact Family.forall_setPhase (P := fun _ p => p = .forked k → t.parent k ≠ none) (hforked k)
      (fun j _ => h.forked j k) j
  · exact Family.forall_setPhase (P := fun j p => p.locks = true → t.lock = some j) hlock
      fun j _ => h.lock j
  · exact Family.forall_setPhase (P := fun j p => p.gone k → t.parent k ≠ some j) (hgone k)
      (fun j _ => h.gone j k) j

/-- A phase without a child and outside `kexit`. -/
theorem Kin.settle (hexits : p.exits = false) (hactive : p ≠ .idle → t.life i = .live)
    (hchild : p.child = none) (hlock : p.locks = true → t.lock = some i) :
    Kin (t.setPhase i p) := by
  refine h.setPhase (fun _ => hexits) (fun hidle _ => hactive hidle) ?_ ?_ hlock ?_
  · rw [hchild]
    exact nofun
  · rintro k rfl
    cases hchild
  · intro j hgone
    rw [Phase.exits_of_gone hgone] at hexits
    cases hexits

theorem Kin.rest : Kin (t.setPhase i .idle) :=
  h.settle rfl (fun hne => absurd rfl hne) rfl nofun

/-- A slot changes.  `used` slots belong to a fork, and a parent has not yet given
the slot away. -/
theorem Kin.setSlot {l : Life} {q : Option Nat} (hinit : k ≠ t.init) (hk : k < NPROC)
    (hactive : l ≠ .live → t.phase k = .idle ∨ t.phase k = .dead) (hfree : l = .unused → q = none)
    (hlive : l ≠ .live → ∀ j, t.parent j ≠ some k)
    (hparent : ∀ i, q = some i → i ≠ k ∧ t.life i = .live ∧ ¬(t.phase i).gone k)
    (hborn : l = .live ∨ l = .zombie → q ≠ none) (hforked : ∀ i, t.phase i = .forked k → q ≠ none)
    (hused : l ≠ .used → ∀ i, (t.phase i).child ≠ some k) : Kin (t.setSlot k l q) := by
  refine ⟨h.init_lt, (Family.life_setSlot_of_ne hinit.symm ..).trans h.init_live, h.init_stays,
    (Family.parent_setSlot_of_ne hinit.symm ..).trans h.init_parent, ?_, ?_, ?_,
    fun i j => ?_, ?_, ?_, fun i => ?_, h.unique, fun i => ?_, h.lock, fun i => ?_⟩
  · refine Family.forall_setSlot (P := fun j l _ => t.phase j ≠ .idle → t.phase j ≠ .dead →
      l = .live) (fun hidle hdead => ?_) fun j _ => h.active j
    by_contra hl
    exact (hactive hl).elim hidle hdead
  · exact Family.forall_setSlot (P := fun j l _ => l ≠ .unused → j < NPROC) (fun _ => hk)
      fun j _ => h.range j
  · exact Family.forall_setSlot (P := fun _ l q => l = .unused → q = none) hfree fun j _ => h.free j
  · refine Family.forall_setSlot (P := fun _ _ q' => q' = some i → (t.setSlot k l q).life i = .live)
      (fun hq => ?_) (fun j hj hij => ?_) j
    · obtain ⟨hne, hi, -⟩ := hparent i hq
      exact (Family.life_setSlot_of_ne hne ..).trans hi
    · refine Family.forall_setSlot (P := fun i l _ => t.parent j = some i → l = .live)
        (fun hjk => ?_)
        (fun i _ => h.live i j) i hij
      by_contra hl
      exact hlive hl j hjk
  · exact Family.forall_setSlot (P := fun j _ q => q ≠ some j) (fun hq => (hparent k hq).1 rfl)
      fun j _ => h.self j
  · exact Family.forall_setSlot (P := fun j l q => l = .live ∨ l = .zombie → j ≠ t.init → q ≠ none)
      (fun hl _ => hborn hl) fun j _ => h.born j
  · refine Family.forall_setSlot (P := fun j l _ => (t.phase i).child = some j → l = .used)
      (fun hk => ?_) fun j _ => h.used i j
    by_contra hl
    exact hused hl i hk
  · exact Family.forall_setSlot (P := fun j _ q => t.phase i = .forked j → q ≠ none) (hforked i)
      fun j _ => h.forked i j
  · exact Family.forall_setSlot (P := fun j _ q => (t.phase i).gone j → q ≠ some i)
      (fun hgone hq => (hparent i hq).2.2 hgone) fun j _ => h.gone i j

theorem Kin.setAsleep (j : Nat) (b : Bool) : Kin (t.setAsleep j b) :=
  ⟨h.init_lt, h.init_live, h.init_stays, h.init_parent, h.active, h.range, h.free, h.live, h.self,
    h.born, h.used, h.unique, h.forked, h.lock, h.gone⟩

theorem Kin.setLock (holder : Option Nat) (hfree : ∀ j, (t.phase j).locks = false) :
    Kin (t.setLock holder) := by
  refine ⟨h.init_lt, h.init_live, h.init_stays, h.init_parent, h.active, h.range, h.free, h.live,
    h.self, h.born, h.used, h.unique, h.forked, fun j hj => ?_, h.gone⟩
  have hfalse : (t.phase j).locks = true := hj
  rw [hfree j] at hfalse
  cases hfalse

/-- Nobody is in a phase with `wait_lock` while it is free. -/
theorem Kin.unlocked (hlock : t.lock = none) (j : Nat) : (t.phase j).locks = false := by
  by_contra hlocks
  have hsome := h.lock j (by simpa using hlocks)
  rw [hlock] at hsome
  cases hsome

/-- The thread that takes `wait_lock` goes on to a phase with it. -/
theorem Kin.acquire (hlock : t.lock = none) (hinit : i = t.init → p.exits = false)
    (hlive : t.life i = .live) (hchild : p.child = none) (hgone : ∀ j, ¬p.gone j) :
    Kin ((t.setLock (some i)).setPhase i p) := by
  have hset := h.setLock (some i) (h.unlocked hlock)
  apply hset.setPhase hinit (fun _ _ => hlive)
  · rw [hchild]
    exact nofun
  · rintro k rfl
    cases hchild
  · exact fun _ => rfl
  · exact fun j hj => absurd hj (hgone j)

theorem Kin.holder (hi : (t.phase i).locks = true) (hj : (t.phase j).locks = true) :
    i = j := by
  have hlock := h.lock i hi
  rw [h.lock j hj] at hlock
  exact (Option.some.inj hlock).symm

/-- A process that does not run is in no phase. -/
theorem Kin.still (hlife : t.life k ≠ .live) : t.phase k = .idle ∨ t.phase k = .dead := by
  by_contra hne
  exact hlife (h.active k (fun hidle => hne (.inl hidle)) fun hdead => hne (.inr hdead))

/-- The holder of `wait_lock` goes on to a phase without it. -/
theorem Kin.unlock (hlock : (t.phase i).locks = true) (hp : p.locks = false)
    (hkin : Kin (t.setPhase i p)) : Kin ((t.setLock none).setPhase i p) := by
  refine hkin.setLock none fun j => ?_
  rcases eq_or_ne j i with rfl | hne
  · rw [Family.phase_setPhase_self]
    exact hp
  · rw [Family.phase_setPhase_of_ne hne]
    by_contra hlocks
    exact hne (h.holder (by simpa using hlocks) hlock)

/-- The facts about a thread in a phase of `kexit`. -/
theorem Kin.exits (hexits : (t.phase i).exits = true) (hdead : t.phase i ≠ .dead) :
    i ≠ t.init ∧ t.life i = .live := by
  constructor
  · rintro rfl
    rw [h.init_stays] at hexits
    cases hexits
  · apply h.active i _ hdead
    intro hidle
    rw [hidle] at hexits
    cases hexits

/-- A thread in `kexit` goes on to a phase in which it has given away the same
children. -/
theorem Kin.goOn (hexits : (t.phase i).exits = true) (hdead : t.phase i ≠ .dead)
    (hchild : p.child = none) (hlock : p.locks = true → t.lock = some i)
    (hgone : ∀ j, p.gone j → t.parent j ≠ some i) : Kin (t.setPhase i p) := by
  obtain ⟨hinit, hlive⟩ := h.exits hexits hdead
  apply h.setPhase (fun hi => absurd hi hinit) (fun _ _ => hlive) _ _ hlock hgone
  · rw [hchild]
    exact nofun
  · rintro k rfl
    cases hchild

/-- The same for a thread that has `wait_lock`. -/
theorem Kin.proceed (hexits : (t.phase i).exits = true) (hlocks : (t.phase i).locks = true)
    (hchild : p.child = none) (hgone : ∀ j, p.gone j → t.parent j ≠ some i) :
    Kin (t.setPhase i p) := by
  refine h.goOn hexits (fun hdead => ?_) hchild (fun _ => h.lock i hlocks) hgone
  rw [hdead] at hlocks
  cases hlocks

end Kin

/-- A slot that nobody uses. -/
theorem Kin.unused {t : Family} (h : Kin t) {k : Nat} (hfree : t.life k = .unused) :
    k ≠ t.init ∧ (∀ j, (t.phase j).child ≠ some k) ∧ (∀ j, t.parent j ≠ some k) ∧
      (t.phase k = .idle ∨ t.phase k = .dead) := by
  refine ⟨?_, fun j hj => ?_, fun j hj => ?_, ?_⟩
  · rintro rfl
    rw [h.init_live] at hfree
    cases hfree
  · have hused := h.used j k hj
    rw [hfree] at hused
    cases hused
  · have hlive := h.live k j hj
    rw [hfree] at hlive
    cases hlive
  · exact h.still (by simp [hfree])

/-- The thread `i` allocates slot `k`. -/
theorem Kin.alloc {t : Family} (h : Kin t) {i k : Nat} (hlive : t.life i = .live) (hk : k < NPROC)
    (hfree : t.life k = .unused) :
    Kin (((t.setSlot k .used (t.parent k)).setPhase k .idle).setPhase i (.forking k)) := by
  obtain ⟨hinit, hchild, hnone, hquiet⟩ := h.unused hfree
  have hslot : Kin (t.setSlot k .used (t.parent k)) := by
    refine h.setSlot hinit hk (fun _ => hquiet) (by simp) (fun _ => hnone) ?_ (by simp) ?_ (by simp)
    · rw [h.free k hfree]
      exact nofun
    · intro j hj
      exact absurd (by rw [hj]; rfl) (hchild j)
  have hidle : Kin ((t.setSlot k .used (t.parent k)).setPhase k .idle) := hslot.rest
  refine hidle.setPhase (fun _ => rfl) (fun _ _ => ?_) ?_ nofun nofun nofun
  · show (t.setSlot k .used (t.parent k)).life i = .live
    have hne : i ≠ k := by
      rintro rfl
      rw [hlive] at hfree
      cases hfree
    rw [Family.life_setSlot_of_ne hne, hlive]
  · rintro k' ⟨⟩
    refine ⟨t.life_setSlot_self k .used (t.parent k), fun j _ hj => ?_⟩
    rcases eq_or_ne j k with rfl | hne
    · rw [Family.phase_setPhase_self] at hj
      cases hj
    · rw [Family.phase_setPhase_of_ne hne] at hj
      exact hchild j hj

/-- A slot that is in use gets another parent. -/
theorem Kin.setParent {t : Family} (h : Kin t) {i k : Nat} (hinit : k ≠ t.init)
    (hused : t.life k ≠ .unused) (hne : i ≠ k) (hlive : t.life i = .live)
    (hstays : (t.phase i).exits = false) : Kin (t.setSlot k (t.life k) (some i)) := by
  refine h.setSlot hinit (h.range k hused) h.still (fun hl => absurd hl hused) (fun hl j hj => ?_)
    ?_ (fun _ => nofun) (fun _ _ => nofun) (fun hl j hj => hl (h.used j k hj))
  · exact hl (h.live k j hj)
  · rintro i' ⟨⟩
    refine ⟨hne, hlive, fun hgone => ?_⟩
    rw [Phase.exits_of_gone hgone] at hstays
    cases hstays

/-- `kexit` ends: nobody has the zombie as a parent. -/
theorem Kin.die {t : Family} (h : Kin t) {i : Nat} (hphase : t.phase i = .dying) :
    Kin (((t.setLock none).setSlot i .zombie (t.parent i)).setPhase i .dead) := by
  obtain ⟨hinit, hlive⟩ := h.exits (i := i) (by rw [hphase]; rfl) (by simp [hphase])
  have hlocks : (t.phase i).locks = true := by rw [hphase]; rfl
  have hdead : Kin (t.setPhase i .dead) :=
    h.goOn (by rw [hphase]; rfl) (by simp [hphase]) rfl nofun nofun
  have hunlock := h.unlock hlocks rfl hdead
  refine hunlock.setSlot hinit (h.range i (by simp [hlive])) (fun _ => .inr ?_) nofun
    (fun _ j => ?_)
    (fun j hj => ?_) (fun _ => h.born i (.inl hlive) hinit) (fun j hj => ?_) (fun _ j hj => ?_)
  · exact Family.phase_setPhase_self i _
  · exact h.gone i j (by rw [hphase]; trivial)
  · refine ⟨fun hji => h.self i (hji ▸ hj), h.live j i hj, fun hgone => ?_⟩
    exact hunlock.gone j i hgone hj
  · exact hunlock.forked j i hj
  · have hused := hunlock.used j i hj
    have hlive' : ((t.setLock none).setPhase i .dead).life i = .live := hlive
    rw [hlive'] at hused
    cases hused

/-- `kwait` frees a zombie. -/
theorem Kin.reap {t : Family} (h : Kin t) {i k : Nat} (hphase : t.phase i = .looking k)
    (hzombie : t.life k = .zombie) :
    Kin (((t.setLock none).setSlot k .unused none).setPhase i .idle) := by
  have hidle : Kin (t.setPhase i .idle) := h.rest
  have hunlock := h.unlock (p := .idle) (by rw [hphase]; rfl) rfl hidle
  have hlive' : ((t.setLock none).setPhase i .idle).life k = .zombie := hzombie
  have hused : ∀ j, (((t.setLock none).setPhase i .idle).phase j).child ≠ some k := by
    intro j hj
    have hused := hunlock.used j k hj
    rw [hlive'] at hused
    cases hused
  refine hunlock.setSlot ?_ (h.range k (by simp [hzombie]))
    (fun _ => hunlock.still (by simp [hlive']))
    (fun _ => rfl) (fun _ j hj => ?_) nofun (by simp) (fun j hj => ?_) (fun _ => hused)
  · rintro rfl
    rw [show ((t.setLock none).setPhase i .idle).init = t.init from rfl, h.init_live] at hzombie
    cases hzombie
  · have hlive := hunlock.live k j hj
    rw [hlive'] at hlive
    cases hlive
  · exact absurd (by rw [hj]; rfl) (hused j)

theorem kin_step {t t' : Family} (h : Kin t) (hs : Step t t') : Kin t' := by
  cases hs with
  | wake j => exact h.setAsleep j false
  | rise hphase hasleep => exact h.rest
  | alloc hphase hlive hk hfree => exact h.alloc hlive hk hfree
  | @parent i k hphase hlock =>
    have hlive := h.active i (by simp [hphase]) (by simp [hphase])
    have hchild : (t.phase i).child = some k := by rw [hphase]; rfl
    have hused := h.used i k hchild
    have hne : i ≠ k := by
      rintro rfl
      rw [hlive] at hused
      cases hused
    have hinit : k ≠ t.init := by
      rintro rfl
      rw [h.init_live] at hused
      cases hused
    have hslot : Kin (t.setSlot k (t.life k) (some i)) :=
      h.setParent hinit (by simp [hused]) hne hlive (by rw [hphase]; rfl)
    refine hslot.setPhase (fun _ => rfl) (fun _ _ => ?_) ?_ ?_ nofun nofun
    · rw [Family.life_setSlot_of_ne hne, hlive]
    · rintro k' ⟨⟩
      exact ⟨hslot.used i k hchild, fun j hj hjk => hj (h.unique j i k hjk hchild)⟩
    · rintro k' ⟨⟩
      simp
  | @release i k hphase =>
    have hchild : (t.phase i).child = some k := by rw [hphase]; rfl
    have hused := h.used i k hchild
    have hidle : Kin (t.setPhase i .idle) := h.rest
    refine hidle.setSlot ?_ (h.range k (by simp [hused])) (by simp) nofun (by simp) (fun j hj => ?_)
      (fun _ => h.forked i k hphase) (fun j hj => hidle.forked j k hj) (fun _ j hj => ?_)
    · rintro rfl
      rw [show (t.setPhase i .idle).init = t.init from rfl, h.init_live] at hused
      cases hused
    · exact ⟨fun hjk => h.self k (hjk ▸ hj), h.live j k hj, fun hgone => hidle.gone j k hgone hj⟩
    · rcases eq_or_ne j i with rfl | hne
      · rw [Family.phase_setPhase_self] at hj
        cases hj
      · rw [Family.phase_setPhase_of_ne hne] at hj
        exact hne (h.unique j i k hj hchild)
  | @exit i hphase hlive hinit =>
    exact h.setPhase (fun hi => absurd hi hinit) (fun _ _ => hlive) nofun nofun nofun nofun
  | @lockExit i hphase hlock =>
    obtain ⟨hinit, hlive⟩ := h.exits (i := i) (by rw [hphase]; rfl) (by simp [hphase])
    exact h.acquire hlock (fun hi => absurd hi hinit) hlive rfl fun j => Nat.not_lt_zero j
  | @give i k hphase hchild =>
    have hexits : (t.phase i).exits = true := by rw [hphase]; rfl
    obtain ⟨hi, -⟩ := h.exits hexits (by simp [hphase])
    have hinit : k ≠ t.init := by
      rintro rfl
      rw [h.init_parent] at hchild
      cases hchild
    have hused : t.life k ≠ .unused := by
      intro hfree
      rw [h.free k hfree] at hchild
      cases hchild
    have hslot : Kin (t.setSlot k (t.life k) (some t.init)) :=
      h.setParent hinit hused hinit.symm h.init_live h.init_stays
    refine hslot.goOn hexits (by simp [hphase, Family.setSlot]) rfl (fun _ => ?_) fun j hj => ?_
    · exact h.lock i (by rw [hphase]; rfl)
    · rcases eq_or_ne j k with rfl | hne
      · rw [Family.parent_setSlot_self]
        exact fun heq => hi (Option.some.inj heq).symm
      · rw [Family.parent_setSlot_of_ne hne]
        exact h.gone i j (by rw [hphase]; exact Nat.lt_of_le_of_ne hj hne)
  | @pass i k hphase hchild =>
    refine h.proceed (by rw [hphase]; rfl) (by rw [hphase]; rfl) rfl fun j hj => ?_
    rcases Nat.lt_succ_iff_lt_or_eq.mp hj with hlt | rfl
    · exact h.gone i j (by rw [hphase]; exact hlt)
    · exact hchild
  | @given i k hphase hk =>
    refine h.proceed (by rw [hphase]; rfl) (by rw [hphase]; rfl) rfl fun j _ hj => ?_
    by_cases hlt : j < k
    · exact h.gone i j (by rw [hphase]; exact hlt) hj
    · -- there are no processes behind the last slot
      have hfree : t.life j = .unused := by
        by_contra hused
        exact hlt (Nat.lt_of_lt_of_le (h.range j hused) hk)
      rw [h.free j hfree] at hj
      cases hj
  | @call i k l b hphase hb hwake =>
    have hi : (t.setAsleep l b).phase i = .calling k l := hphase
    refine (h.setAsleep l b).proceed (by rw [hi]; rfl) (by rw [hi]; rfl) rfl fun j hj => ?_
    exact h.gone i j (by rw [hphase]; exact hj)
  | @called i k l hphase hl =>
    refine h.proceed (by rw [hphase]; rfl) (by rw [hphase]; rfl) rfl fun j hj => ?_
    exact h.gone i j (by rw [hphase]; exact Nat.lt_succ_iff.mp hj)
  | @tell i l p b hphase hb hwake =>
    have hi : (t.setAsleep l b).phase i = .telling p l := hphase
    refine (h.setAsleep l b).proceed (by rw [hi]; rfl) (by rw [hi]; rfl) rfl fun j _ => ?_
    exact h.gone i j (by rw [hphase]; trivial)
  | @told i l p hphase hl =>
    refine h.proceed (by rw [hphase]; rfl) (by rw [hphase]; rfl) rfl fun j _ => ?_
    exact h.gone i j (by rw [hphase]; trivial)
  | die hphase => exact h.die hphase
  | @lockWait i hphase hlive hlock =>
    exact h.acquire hlock (fun _ => rfl) hlive rfl fun _ => id
  | @look i k hphase hlook | @tire i k hphase hk =>
    refine h.settle rfl (fun _ => h.active i (by simp [hphase]) (by simp [hphase])) rfl fun _ => ?_
    exact h.lock i (by rw [hphase]; rfl)
  | @leave i k hphase =>
    exact h.unlock (by rw [hphase]; rfl) rfl h.rest
  | reap hphase hchild hzombie => exact h.reap hphase hzombie
  | @sleep i hphase =>
    have hbed : Kin (t.setPhase i .bed) :=
      h.settle rfl (fun _ => h.active i (by simp [hphase]) (by simp [hphase])) rfl nofun
    exact (h.unlock (by rw [hphase]; rfl) rfl hbed).setAsleep i true

/-! ## Nobody sleeps over a zombie child -/

structure Quiet (t : Family) : Prop where
  bed : ∀ i, t.asleep i = true → t.phase i = .bed
  /-- The children that `kwait` has looked at are no zombies. -/
  seen : ∀ i j, (t.phase i).seen j → t.parent j = some i → t.life j ≠ .zombie
  telling : ∀ i p l, t.phase i = .telling p l → p = t.parent i
  /-- The parent of a process that is about to become a zombie was woken up. -/
  woken : ∀ i j, (t.phase i).woken j → t.parent i = some j → t.asleep j = false
  quiet : ∀ i j, t.asleep i = true → t.parent j = some i → t.life j = .zombie →
    ∃ h l, t.phase h = .calling j l ∧ i = t.init ∧ l ≤ i

section Quiet

variable {t : Family} (h : Quiet t) {i k : Nat}

include h

/-- A thread goes on.  What `reparent` owes to `init` stays owed. -/
theorem Quiet.setPhase (hold : t.phase i ≠ .bed ∨ t.asleep i = false)
    (hseen : ∀ j, p.seen j → t.parent j = some i → t.life j ≠ .zombie)
    (htelling : ∀ q l, p = .telling q l → q = t.parent i)
    (hwoken : ∀ j, p.woken j → t.parent i = some j → t.asleep j = false)
    (hcall : ∀ j l, t.phase i = .calling j l → l ≤ t.init → t.asleep t.init = true →
      ∃ l', p = .calling j l' ∧ l' ≤ t.init) :
    Quiet (t.setPhase i p) := by
  have hbed : t.asleep i = true → p = .bed := by
    intro ha
    rcases hold with hbed | hasleep
    · exact absurd (h.bed i ha) hbed
    · rw [hasleep] at ha
      cases ha
  refine ⟨?_, fun j j' => ?_, fun j q l => ?_, fun j j' => ?_, fun j j' hj hj' hz => ?_⟩
  · exact Family.forall_setPhase (P := fun j p => t.asleep j = true → p = .bed) hbed
      fun j _ => h.bed j
  · exact Family.forall_setPhase (P := fun j p => p.seen j' → t.parent j' = some j →
      t.life j' ≠ .zombie) (hseen j') (fun j _ => h.seen j j') j
  · exact Family.forall_setPhase (P := fun j p => p = .telling q l → q = t.parent j) (htelling q l)
      (fun j _ => h.telling j q l) j
  · exact Family.forall_setPhase (P := fun j p => p.woken j' → t.parent j = some j' →
      t.asleep j' = false) (hwoken j') (fun j _ => h.woken j j') j
  · obtain ⟨c, l, hc, rfl, hl⟩ := h.quiet j j' hj hj' hz
    rcases eq_or_ne c i with rfl | hne
    · obtain ⟨l', rfl, hl'⟩ := hcall j' l hc hl hj
      exact ⟨c, l', t.phase_setPhase_self c _, rfl, hl'⟩
    · exact ⟨c, l, (Family.phase_setPhase_of_ne hne p).trans hc, rfl, hl⟩

theorem Quiet.setLock (holder : Option Nat) : Quiet (t.setLock holder) :=
  ⟨h.bed, h.seen, h.telling, h.woken, h.quiet⟩

/-- A slot may stop sleeping. -/
theorem Quiet.setAsleep {b : Bool} (hb : b = true → t.asleep i = true) :
    Quiet (t.setAsleep i b) := by
  have hle : ∀ j, (t.setAsleep i b).asleep j = true → t.asleep j = true := by
    intro j hj
    rcases eq_or_ne j i with rfl | hne
    · exact hb (by simpa [Family.setAsleep] using hj)
    · simpa [Family.setAsleep, hne] using hj
  refine ⟨fun j hj => h.bed j (hle j hj), h.seen, h.telling, fun j j' hw hp => ?_,
    fun j j' hj => h.quiet j j' (hle j hj)⟩
  by_contra hj
  have hasleep := hle j' (by simpa using hj)
  rw [h.woken j j' hw hp] at hasleep
  cases hasleep

/-- A slot changes.  A process that tells its parent keeps it, and the parent of a
zombie has not looked at it yet and does not sleep. -/
theorem Quiet.setSlot {l : Life} {q : Option Nat}
    (htold : (t.phase k).locks = true → q = t.parent k)
    (hseen : l = .zombie → ∀ i, q = some i → ¬(t.phase i).seen k)
    (hquiet : l = .zombie → ∀ i, q = some i → t.asleep i = true →
      ∃ h l, t.phase h = .calling k l ∧ i = t.init ∧ l ≤ i) :
    Quiet (t.setSlot k l q) := by
  refine ⟨h.bed, fun i => ?_, fun i p l' hphase => ?_, fun i j => ?_, fun i => ?_⟩
  · exact Family.forall_setSlot (P := fun j l q => (t.phase i).seen j → q = some i → l ≠ .zombie)
      (fun hs hq hl => hseen hl i hq hs) fun j _ => h.seen i j
  · exact Family.forall_setSlot (P := fun i _ q => t.phase i = .telling p l' → p = q)
      (fun hp => (h.telling k p l' hp).trans (htold (by rw [hp]; rfl)).symm)
      (fun i _ => h.telling i p l') i hphase
  · exact Family.forall_setSlot (P := fun i _ q => (t.phase i).woken j → q = some j →
      t.asleep j =
        false) (fun hw hq => h.woken k j hw ((htold (Phase.locks_of_woken hw)).symm.trans hq))
      (fun i _ => h.woken i j) i
  · exact fun j ha => Family.forall_setSlot (P := fun j l q => q = some i → l = .zombie →
      ∃ h l, t.phase h = .calling j l ∧ i = t.init ∧ l ≤ i) (fun hq hl => hquiet hl i hq ha)
      (fun j _ => h.quiet i j ha) j

/-- A thread that is not in bed goes on to a phase that owes nothing. -/
theorem Quiet.settle
    (hold : (t.phase i ≠ .bed ∨ t.asleep i = false) ∧ ∀ j l, t.phase i ≠ .calling j l)
    (hseen : ∀ j, ¬p.seen j) (htelling : ∀ q l, p ≠ .telling q l) (hwoken : ∀ j, ¬p.woken j) :
    Quiet (t.setPhase i p) :=
  h.setPhase hold.1 (fun j hj => absurd hj (hseen j)) (fun q l hp => absurd hp (htelling q l))
    (fun j hj => absurd hj (hwoken j)) (fun j l hp => absurd hp (hold.2 j l))

end Quiet

/-- A process goes to bed; it has looked at all its children. -/
theorem Quiet.sleep {t : Family} (hk : Kin t) (h : Quiet t) {i : Nat}
    (hphase : t.phase i = .tired) :
    Quiet (((t.setLock none).setAsleep i true).setPhase i .bed) := by
  have hself := ((t.setLock none).setAsleep i true).phase_setPhase_self i .bed
  have hother : ∀ j, j ≠ i → (((t.setLock none).setAsleep i true).setPhase i .bed).phase j =
      t.phase j :=
    fun j hj => Family.phase_setPhase_of_ne hj .bed
  have hasleep : ∀ j, j ≠ i →
      (((t.setLock none).setAsleep i true).setPhase i .bed).asleep j = t.asleep j := fun j hj =>
    update_of_ne hj ..
  have hlocks : (t.phase i).locks = true := by rw [hphase]; rfl
  refine ⟨fun j hj => ?_, fun j j' hs hp => ?_, fun j p l hp => ?_, fun j j' hw hp => ?_,
    fun j j' ha hp hz => ?_⟩
  · rcases eq_or_ne j i with rfl | hne
    · exact hself
    · rw [hasleep j hne] at hj
      rw [hother j hne]
      exact h.bed j hj
  · rcases eq_or_ne j i with rfl | hne
    · rw [hself] at hs
      exact hs.elim
    · rw [hother j hne] at hs
      exact h.seen j j' hs hp
  · rcases eq_or_ne j i with rfl | hne
    · rw [hself] at hp
      cases hp
    · rw [hother j hne] at hp
      exact h.telling j p l hp
  · rcases eq_or_ne j i with rfl | hne
    · rw [hself] at hw
      exact hw.elim
    · -- the sleeper had the lock, so nobody is telling a parent
      rw [hother j hne] at hw
      exact absurd (hk.holder (Phase.locks_of_woken hw) hlocks) hne
  · rcases eq_or_ne j i with rfl | hne
    · exact absurd hz (h.seen j j' (by rw [hphase]; trivial) hp)
    · rw [hasleep j hne] at ha
      obtain ⟨c, l, hc, hinit, hl⟩ := h.quiet j j' ha hp hz
      refine ⟨c, l, (hother c ?_).trans hc, hinit, hl⟩
      rintro rfl
      rw [hphase] at hc
      cases hc

theorem quiet_step {t t' : Family} (hkin : Kin t) (h : Quiet t) (hs : Step t t') : Quiet t' := by
  cases hs with
  | wake j => exact h.setAsleep nofun
  | rise hphase hasleep => exact h.settle ⟨.inr hasleep, by simp [hphase]⟩ nofun nofun nofun
  | @alloc i k hphase hlive _ hfree =>
    have hslot : Quiet (t.setSlot k .used (t.parent k)) :=
      h.setSlot (fun _ => rfl) nofun nofun
    have hstill := hkin.still (k := k) (by simp [hfree])
    have hidle : Quiet ((t.setSlot k .used (t.parent k)).setPhase k .idle) := by
      refine hslot.settle ?_ nofun nofun nofun
      rcases hstill with hp | hp <;> simp [Family.setSlot, hp]
    have hne : i ≠ k := by
      rintro rfl
      rw [hlive] at hfree
      cases hfree
    have hi : ((t.setSlot k .used (t.parent k)).setPhase k .idle).phase i = .idle :=
      (Family.phase_setPhase_of_ne hne _).trans hphase
    exact hidle.settle (by simp [hi]) nofun nofun nofun
  | @parent i k hphase hlock =>
    have hused := hkin.used i k (by rw [hphase]; rfl)
    have hslot : Quiet (t.setSlot k (t.life k) (some i)) := by
      refine h.setSlot (fun hlocks => ?_) (by simp [hused]) (by simp [hused])
      rcases hkin.still (k := k) (by simp [hused]) with hp | hp <;> rw [hp] at hlocks <;>
        cases hlocks
    exact hslot.settle (by simp [Family.setSlot, hphase]) nofun nofun nofun
  | @release i k hphase =>
    have hslot : Quiet (t.setSlot k .live (t.parent k)) := h.setSlot (fun _ => rfl) nofun nofun
    exact hslot.settle (by simp [Family.setSlot, hphase]) nofun nofun nofun
  | @exit i hphase hlive hinit =>
    exact h.settle (by simp [hphase]) nofun nofun nofun
  | @lockExit i hphase hlock =>
    have hidle : Quiet (t.setPhase i (.giving 0)) :=
      h.settle (by simp [hphase]) nofun nofun nofun
    exact hidle.setLock (some i)
  | @give i k hphase hchild =>
    have hlocks : (t.phase i).locks = true := by rw [hphase]; rfl
    have hinit : i ≠ t.init := (hkin.exits (by rw [hphase]; rfl) (by simp [hphase])).1
    have hki : k ≠ i := fun hki => hkin.self i (hki ▸ hchild)
    have hcalling : Quiet (t.setPhase i (.calling k 0)) :=
      h.settle (by simp [hphase]) nofun nofun nofun
    -- the new parent `init` may sleep, and is owed a wakeup now
    refine hcalling.setSlot (fun hk => ?_) (fun _ j hj hseen => ?_) (fun _ j hj _ => ?_)
    · rw [Family.phase_setPhase_of_ne hki] at hk
      exact absurd (hkin.holder hk hlocks) hki
    · cases hj
      rw [Family.phase_setPhase_of_ne hinit.symm] at hseen
      exact hinit (hkin.holder hlocks (Phase.locks_of_seen hseen))
    · cases hj
      exact ⟨i, 0, Family.phase_setPhase_self i _, rfl, Nat.zero_le _⟩
  | @pass i k hphase hchild =>
    exact h.settle (by simp [hphase]) nofun nofun nofun
  | @given i k hphase hk =>
    refine h.setPhase (.inl (by simp [hphase])) nofun ?_ nofun (by simp [hphase])
    rintro q l ⟨⟩
    rfl
  | @call i k l b hphase hb hwake =>
    have hi : (t.setAsleep l b).phase i = .calling k l := hphase
    refine (h.setAsleep hb).setPhase (.inl (by simp [hi])) nofun nofun nofun fun j l' hp hl ha => ?_
    rw [hi] at hp
    cases hp
    refine ⟨l + 1, rfl, Nat.lt_of_le_of_ne hl fun hinit => ?_⟩
    -- `wakeup` has just been at the slot of `init`
    have hself : (t.setAsleep l b).asleep l = b := update_self ..
    rw [← hinit, hself, hwake hinit] at ha
    cases ha
  | @called i k l hphase hl =>
    refine h.setPhase (.inl (by simp [hphase])) nofun nofun nofun fun j l' hp hle _ => ?_
    rw [hphase] at hp
    cases hp
    exact absurd (Nat.le_trans hl hle) (Nat.not_le_of_lt hkin.init_lt)
  | @tell i l p b hphase hb hwake =>
    have hp := h.telling i p l hphase
    have hi : (t.setAsleep l b).phase i = .telling p l := hphase
    refine (h.setAsleep hb).setPhase (.inl (by simp [hi])) nofun ?_ (fun j hj hji => ?_)
      (by simp [hi])
    · rintro q l' ⟨⟩
      exact hp
    · rcases Nat.lt_succ_iff_lt_or_eq.mp hj with hlt | rfl
      · have hasleep := h.woken i j (by rw [hphase]; exact hlt) hji
        rw [← hasleep]
        exact update_of_ne (Nat.ne_of_lt hlt) ..
      · have hne : j ≠ i := by
          rintro rfl
          exact hkin.self j hji
        rw [← hwake (hp.trans hji) hne]
        exact update_self ..
  | @told i l p hphase hl =>
    refine h.setPhase (.inl (by simp [hphase])) nofun nofun (fun j _ hji => ?_) (by simp [hphase])
    · have hlt : j < NPROC := hkin.range j (by simp [hkin.live j i hji])
      exact h.woken i j (by rw [hphase]; exact Nat.lt_of_lt_of_le hlt hl) hji
  | @die i hphase =>
    have hlocks : (t.phase i).locks = true := by rw [hphase]; rfl
    have hslot : Quiet (t.setSlot i .zombie (t.parent i)) := by
      refine h.setSlot (fun _ => rfl) (fun _ j hj hseen => ?_) (fun _ j hj ha => ?_)
      · have hji := hkin.holder (Phase.locks_of_seen hseen) hlocks
        rw [hji, hphase] at hseen
        exact hseen
      · rw [h.woken i j (by rw [hphase]; trivial) hj] at ha
        cases ha
    have hdead := hslot.settle (i := i) (p := .dead) (by simp [Family.setSlot, hphase])
      nofun nofun nofun
    exact hdead.setLock none
  | @lockWait i hphase hlive hlock =>
    have hlook : Quiet (t.setPhase i (.looking 0)) :=
      h.settle (by simp [hphase]) Nat.not_lt_zero nofun nofun
    exact hlook.setLock (some i)
  | @look i k hphase hlook =>
    refine h.setPhase (.inl (by simp [hphase])) (fun j hj hp => ?_) nofun nofun (by simp [hphase])
    · rcases Nat.lt_succ_iff_lt_or_eq.mp hj with hlt | rfl
      · exact h.seen i j (by rw [hphase]; exact hlt) hp
      · exact hlook hp
  | @tire i k hphase hk =>
    refine h.setPhase (.inl (by simp [hphase])) (fun j _ hp hz => ?_) nofun nofun (by simp [hphase])
    · have hlt : j < NPROC := hkin.range j (by simp [hz])
      exact h.seen i j (by rw [hphase]; exact Nat.lt_of_lt_of_le hlt hk) hp hz
  | @leave i k hphase =>
    have hidle : Quiet (t.setPhase i .idle) :=
      h.settle (by simp [hphase]) nofun nofun nofun
    exact hidle.setLock none
  | @reap i k hphase hchild hzombie =>
    have hslot : Quiet (t.setSlot k .unused none) := by
      refine h.setSlot (fun hlocks => ?_) nofun nofun
      rcases hkin.still (k := k) (by simp [hzombie]) with hp | hp <;> rw [hp] at hlocks <;>
        cases hlocks
    have hidle := hslot.settle (i := i) (p := .idle) (by simp [Family.setSlot, hphase])
      nofun nofun nofun
    exact hidle.setLock none
  | sleep hphase => exact h.sleep hkin hphase

end Xv6.FamilyTree
