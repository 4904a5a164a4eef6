import Xv6.Proc.Wait

/-!
# Every exit is reaped once

* `Event`, `event`: the exits and the successful waits of a step, with the pid and
  the status they are about.
* `Kept`: what a step without an event does to a slot.
* `zombie`, `accounts_step`, `accounts_run`: the exits of a slot are those that
  were returned by `kwait`, followed by the zombie that is in it.
* `freed_iff`: a slot is freed exactly when `kwait` returns its pid.
* `process_tree_and_wait`.
-/

namespace Xv6.ProcTable

open Xv6.Lib.Run

variable {p : Proc} {m m' : Table} {i : Nat}

/-- An exit, or a `kwait` that found a zombie. -/
inductive Event where
  /-- The process in slot `k` became a zombie. -/
  | exit (k : Nat) (pid status : BitVec 32)
  /-- The process in slot `i` was told about the zombie in slot `k`. -/
  | reap (i k : Nat) (pid status : BitVec 32)
deriving DecidableEq, Repr

/-- `kwait` of process `i` frees the zombie in slot `k`. -/
def Reaps (m : Table) (i : Nat) (o : Oracle) (addr : BitVec 64) (k : Nat) : Prop :=
  k < NPROC ∧ (m.procs k).parent = some i ∧ (m.procs k).state = .ZOMBIE ∧
    ¬(addr ≠ 0 ∧ o.copyout = false)

instance (m : Table) (i : Nat) (o : Oracle) (addr : BitVec 64) (k : Nat) :
    Decidable (Reaps m i o addr k) :=
  inferInstanceAs (Decidable (_ ∧ _))

/-- The events of a step. -/
def event (m : Table) : Act → List Event
  | .tick i o =>
    match m.pcs i with
    | .exitZombie status => [.exit i (m.procs i).pid status]
    | .waitScan addr k _ =>
      if Reaps m i o addr k then [.reap i k (m.procs k).pid (m.procs k).xstate] else []
    | _ => []
  | _ => []

/-- The pid and the status of the exits of slot `k`. -/
def exits (k : Nat) (es : List Event) : List (BitVec 32 × BitVec 32) :=
  es.filterMap fun
    | .exit j pid status => if j = k then some (pid, status) else none
    | .reap _ _ _ _ => none

/-- The pid and the status that `kwait` returned for slot `k`. -/
def reaps (k : Nat) (es : List Event) : List (BitVec 32 × BitVec 32) :=
  es.filterMap fun
    | .exit _ _ _ => none
    | .reap _ j pid status => if j = k then some (pid, status) else none

/-- The zombie in a slot. -/
def zombie (p : Proc) : List (BitVec 32 × BitVec 32) :=
  if p.state = .ZOMBIE then [(p.pid, p.xstate)] else []

/-! ## Steps without an event -/

/-- The slot keeps its zombie and is not freed. -/
structure Kept (p q : Proc) : Prop where
  zombie : ProcTable.zombie q = ProcTable.zombie p
  unused : q.state = .UNUSED → p.state = .UNUSED

theorem Kept.refl (p : Proc) : Kept p p := ⟨rfl, id⟩

theorem Kept.of_state {q : Proc} (hstate : q.state = p.state) (hpid : q.pid = p.pid)
    (hxstate : q.xstate = p.xstate) : Kept p q := by
  refine ⟨?_, fun hunused => hstate.symm.trans hunused⟩
  unfold ProcTable.zombie
  rw [hstate, hpid, hxstate]

/-- A slot changes that is neither free nor a zombie before and after. -/
theorem Kept.of_ne {q : Proc} (hp : p.state ≠ .ZOMBIE) (hq : q.state ≠ .ZOMBIE)
    (hunused : q.state = .UNUSED → p.state = .UNUSED) : Kept p q := by
  refine ⟨?_, hunused⟩
  rw [ProcTable.zombie, ProcTable.zombie, if_neg hp, if_neg hq]

theorem kept_setProc {j : Nat} (h : Kept (m.procs j) p) (k : Nat) :
    Kept (m.procs k) ((m.setProc j p).procs k) := by
  rcases eq_or_ne k j with rfl | hne
  · rw [procs_setProc_self]
    exact h
  · rw [procs_setProc_of_ne hne]
    exact .refl _

theorem kept_wakeupSlot (chan : Option Nat) (p : Proc) : Kept p (wakeupSlot chan p) := by
  rcases wakeupSlot_eq chan p with heq | ⟨hsleep, heq⟩ <;> rw [heq]
  · exact .refl p
  · exact .of_ne (by simp [hsleep]) nofun nofun

theorem kept_wakeup (chan : Option Nat) (l k : Nat) :
    Kept (m.procs k) ((m.wakeup i chan l).procs k) := by
  unfold Table.wakeup
  split
  · exact .refl _
  · exact kept_setProc (kept_wakeupSlot chan _) k

theorem kept_killSlot (p : Proc) : Kept p (killSlot p) := by
  by_cases hsleep : p.state = .SLEEPING
  · exact .of_ne (by simp [hsleep]) (by simp [killSlot, hsleep]) (by simp [killSlot, hsleep])
  · exact .of_state (if_neg hsleep) rfl rfl

theorem kept_running {p : Proc} (hrun : (m.procs i).state = .RUNNING)
    (hp : p.state = .RUNNING ∨ p.state = .SLEEPING) (k : Nat) :
    Kept (m.procs k) ((m.setProc i p).procs k) :=
  kept_setProc (.of_ne (by simp [hrun]) (by rcases hp with hp | hp <;> simp [hp])
    (by rcases hp with hp | hp <;> simp [hp])) k

/-- A section of a thread without an event keeps every slot. -/
theorem kept_tick (h : TreeInv m) {o : Oracle}
    (hrun : (m.procs i).state = .RUNNING) (hs : threadStep m i o = some m')
    (hevent : event m (.tick i o) = []) (k : Nat) : Kept (m.procs k) (m'.procs k) := by
  unfold threadStep at hs
  simp only [event] at hevent
  split at hs
  case h_1 | h_13 => cases hs
  case h_2 | h_17 =>
    cases hs
    exact kept_running hrun (by simp [hrun]) k
  case h_3 j _ =>
    cases hs
    unfold Table.forkScan
    split
    · split
      · next hfree =>
        have hne : (m.procs j).state ≠ .ZOMBIE := by simp [hfree]
        rcases forkSection_cases o m.nextpid (m.procs i) (m.procs j) with
          ⟨q, hq, -⟩ | ⟨q, hq, -, hused, -⟩ <;> rw [hq]
        · refine kept_setProc (m := { m with nextpid := m.nextpid + 1 }) ?_ k
          exact .of_ne hne (by simp [freeproc]) fun _ => hfree
        · refine kept_setProc (m := { m with nextpid := m.nextpid + 1 }) ?_ k
          exact .of_ne hne (by simp [hused]) (by simp [hused])
      · exact .refl _
    · exact .refl _
  case h_4 j pid _ =>
    obtain ⟨-, rfl⟩ := of_guard hs
    refine kept_setProc ?_ k
    exact .of_state rfl rfl rfl
  case h_5 j pid hpc =>
    cases hs
    have hused : lifeOf (m.procs j).state = .used := h.kin.used i j (congrArg (·.phase.child) hpc)
    have hne : (m.procs j).state ≠ .ZOMBIE := by
      intro hz
      rw [hz] at hused
      cases hused
    refine kept_setProc ?_ k
    exact .of_ne hne nofun nofun
  case h_6 status fd _ =>
    cases hs
    unfold Table.exitClose
    split
    · exact kept_running hrun (by simp [hrun]) k
    · exact .refl _
  case h_7 =>
    cases hs
    exact kept_running hrun (by simp [hrun]) k
  case h_8 | h_14 =>
    obtain ⟨-, rfl⟩ := of_guard hs
    exact .refl _
  case h_9 status j _ =>
    cases hs
    unfold Table.reparent
    split
    · split
      · refine kept_setProc ?_ k
        exact .of_state rfl rfl rfl
      · exact .refl _
    · exact .refl _
  case h_10 status j l _ =>
    cases hs
    unfold Table.reparentWake
    split
    · exact kept_wakeup _ l k
    · exact .refl _
  case h_11 status parent l _ =>
    cases hs
    unfold Table.exitWake
    split
    · exact kept_wakeup _ l k
    · exact .refl _
  case h_12 hpc =>
    rw [hpc] at hevent
    cases hevent
  case h_15 addr j havekids hpc =>
    cases hs
    rw [hpc] at hevent
    have hreaps : ¬Reaps m i o addr j := by
      intro hreaps
      simp [hreaps] at hevent
    unfold Table.waitScan
    split
    · next hj =>
      split
      · next hchild =>
        split
        · next hz =>
          split
          · exact .refl _
          · next hcopy => exact absurd ⟨hj, hchild, hz, hcopy⟩ hreaps
        · exact .refl _
      · exact .refl _
    · split <;> exact .refl _
  case h_16 =>
    cases hs
    exact kept_running (m := m.setWaitLock none) hrun (by simp) k
  case h_18 pid j _ =>
    cases hs
    unfold Table.killScan
    split
    · split
      · exact kept_setProc (kept_killSlot _) k
      · exact .refl _
    · exact .refl _

/-- A call begins without an event. -/
theorem kept_call {c : Call} (hrun : (m.procs i).state = .RUNNING)
    (hs : callStep m i c = some m') (k : Nat) : Kept (m.procs k) (m'.procs k) := by
  cases c with
  | fork | wait | kill =>
    cases hs
    exact .refl _
  | exit status =>
    simp only [callStep] at hs
    split at hs <;> cases hs
    exact .refl _
  | sleep chan =>
    cases hs
    exact kept_running hrun (by simp) k
  | setkilled =>
    cases hs
    exact kept_running hrun (by simp [hrun]) k
  | other sz pagetable ofile cwd name tickets =>
    simp only [callStep] at hs
    split at hs <;> cases hs
    exact kept_running hrun (by simp [hrun]) k

/-! ## Steps and their events -/

/-- The slots after a step, by its event. -/
inductive Outcome (m m' : Table) : List Event → Prop
  | none (hkept : ∀ k, Kept (m.procs k) (m'.procs k)) : Outcome m m' []
  | exit {i : Nat} (status : BitVec 32) (hrun : (m.procs i).state = .RUNNING)
      (hprocs : m'.procs = Function.update m.procs i
        { m.procs i with xstate := status, state := .ZOMBIE }) :
      Outcome m m' [.exit i (m.procs i).pid status]
  | reap {i k : Nat} {addr : BitVec 64} {havekids : Bool}
    (hpc : m.pcs i = .waitScan addr k havekids)
      (hparent : (m.procs k).parent = some i) (hzombie : (m.procs k).state = .ZOMBIE)
      (hprocs : m'.procs = Function.update m.procs k (freeproc (m.procs k)))
      (hret : m'.pcs i = .user (m.procs k).pid
        (if addr = 0 then none else some (m.procs k).xstate)) :
      Outcome m m' [.reap i k (m.procs k).pid (m.procs k).xstate]

theorem outcome_step (h : TreeInv m) {a : Act} (hs : step m a = some m') :
    Outcome m m' (event m a) := by
  cases a with
  | dispatch i =>
    obtain ⟨hstate, rfl⟩ := of_guard hs
    refine .none fun k => kept_setProc ?_ k
    exact .of_ne (by simp [hstate]) nofun nofun
  | yield i =>
    obtain ⟨⟨hstate, -⟩, rfl⟩ := of_guard hs
    refine .none fun k => kept_setProc ?_ k
    exact .of_ne (by simp [hstate]) nofun nofun
  | wakeup j chan =>
    cases hs
    exact .none fun k => kept_setProc (kept_wakeupSlot _ _) k
  | call i c =>
    simp only [step] at hs
    split at hs
    · split at hs
      · next hrun => exact .none (kept_call hrun hs)
      · cases hs
    · cases hs
  | tick i o =>
    obtain ⟨hrun, hs⟩ : (m.procs i).state = .RUNNING ∧ threadStep m i o = some m' := by
      simp only [step] at hs
      split at hs
      · exact ⟨‹_›, hs⟩
      · cases hs
    by_cases hevent : event m (.tick i o) = []
    · rw [hevent]
      exact .none (kept_tick h hrun hs hevent)
    · simp only [event] at hevent ⊢
      split at hevent
      · next status hpc =>
        rw [threadStep, hpc] at hs
        cases hs
        exact .exit status hrun rfl
      · next addr k havekids hpc =>
        split at hevent
        · next hreaps =>
          have hreaps' := hreaps
          obtain ⟨hk, hparent, hzombie, hcopy⟩ := hreaps'
          rw [threadStep, hpc] at hs
          simp only [Table.waitScan, hk, hparent, hzombie, hcopy, if_true, if_false] at hs
          cases hs
          rw [if_pos hreaps]
          exact .reap hpc hparent hzombie rfl (pcs_setPc_self _)
        · exact absurd rfl hevent
      · exact absurd rfl hevent

/-- The exits of a slot are reaped in order, once each. -/
theorem accounts_step {es : List Event} (h : Outcome m m' es) (k : Nat) :
    zombie (m.procs k) ++ exits k es = reaps k es ++ zombie (m'.procs k) := by
  cases h with
  | none hkept => simp [exits, reaps, (hkept k).zombie]
  | @exit i status hrun hprocs =>
    rw [hprocs]
    rcases eq_or_ne k i with rfl | hne
    · simp [exits, reaps, zombie, hrun]
    · simp [exits, reaps, hne, hne.symm]
  | @reap i j _ _ _ hparent hzombie hprocs hret =>
    rw [hprocs]
    rcases eq_or_ne k j with rfl | hne
    · simp [exits, reaps, zombie, hzombie, freeproc]
    · simp [exits, reaps, hne, hne.symm]

theorem accounts_run {as : List Act} (h : TreeInv m)
    (hrun : exec step m as = some m') (k : Nat) :
    zombie (m.procs k) ++ exits k (trace step event m as) =
      reaps k (trace step event m as) ++ zombie (m'.procs k) := by
  induction as generalizing m with
  | nil =>
    cases hrun
    simp [trace, exits, reaps]
  | cons a as ih =>
    obtain ⟨u, hu, hrest⟩ := exec_cons_eq_some hrun
    have hstep := accounts_step (outcome_step h hu) k
    have htail := ih (treeInv_step m a u h hu) hrest
    rw [trace, hu]
    simp only [exits, reaps, List.filterMap_append] at hstep htail ⊢
    rw [← List.append_assoc, hstep, List.append_assoc, htail, List.append_assoc]

/-- A slot is freed exactly when `kwait` returns the pid in it to its parent and stores the
status, unless the parent asked for none. -/
theorem freed_iff {es : List Event} (h : Outcome m m' es) (k : Nat) :
    ((m.procs k).state ≠ .UNUSED ∧ (m'.procs k).state = .UNUSED) ↔
      ∃ i addr havekids, (m.procs k).parent = some i ∧ (m.procs k).state = .ZOMBIE ∧
        es = [.reap i k (m.procs k).pid (m.procs k).xstate] ∧
        m.pcs i = .waitScan addr k havekids ∧
        m'.pcs i = .user (m.procs k).pid
          (if addr = 0 then none else some (m.procs k).xstate) := by
  constructor
  · rintro ⟨hold, hnew⟩
    cases h with
    | none hkept => exact absurd ((hkept k).unused hnew) hold
    | @exit i status hrun hprocs =>
      rw [hprocs] at hnew
      rcases eq_or_ne k i with rfl | hne
      · rw [Function.update_self] at hnew
        cases hnew
      · rw [Function.update_of_ne hne] at hnew
        exact absurd hnew hold
    | @reap i j addr havekids hpc hparent hzombie hprocs hret =>
      rcases eq_or_ne k j with rfl | hne
      · exact ⟨i, addr, havekids, hparent, hzombie, rfl, hpc, hret⟩
      · rw [hprocs, Function.update_of_ne hne] at hnew
        exact absurd hnew hold
  · rintro ⟨i, -, -, -, hzombie, rfl, -⟩
    cases h with
    | reap _ _ _ hprocs _ =>
      rw [hprocs, Function.update_self, hzombie]
      exact ⟨nofun, rfl⟩

/-- In every run, whenever `wait_lock` is free, the parent of every process past
`kfork` other than `init` is neither free nor a zombie, and nobody sleeps in `kwait`
over a zombie child.  The exits of every slot are those that `kwait` has returned,
in the same order, and the zombie that is in the slot now.  A slot is freed exactly
when `kwait` returns its pid to the current parent and, at an address other than 0,
stores its status. -/
theorem process_tree_and_wait {trapframe pagetable root : Nat} {as : List Act}
    (hrun : exec step (userinit trapframe pagetable root) as = some m) :
    (m.waitLock = none →
      (∀ j, (m.procs j).state ≠ .UNUSED → (m.procs j).state ≠ .USED → j ≠ m.initproc →
        ∃ i, (m.procs j).parent = some i ∧ (m.procs i).state ≠ .UNUSED ∧
          (m.procs i).state ≠ .ZOMBIE) ∧
      ∀ i j addr, m.pcs i = .waitAsleep addr → (m.procs i).state = .SLEEPING →
        (m.procs j).parent = some i → (m.procs j).state ≠ .ZOMBIE) ∧
    (∀ k, exits k (trace step event (userinit trapframe pagetable root) as) =
      reaps k (trace step event (userinit trapframe pagetable root) as) ++ zombie (m.procs k)) ∧
    ∀ a m', step m a = some m' → ∀ k,
      ((m.procs k).state ≠ .UNUSED ∧ (m'.procs k).state = .UNUSED) ↔
        ∃ i addr havekids, (m.procs k).parent = some i ∧ (m.procs k).state = .ZOMBIE ∧
          event m a = [.reap i k (m.procs k).pid (m.procs k).xstate] ∧
          m.pcs i = .waitScan addr k havekids ∧
          m'.pcs i = .user (m.procs k).pid
            (if addr = 0 then none else some (m.procs k).xstate) := by
  have hinit := treeInv_userinit trapframe pagetable root
  have h := inv_of_run treeInv_step hinit hrun
  have hzombie : ∀ k, zombie ((userinit trapframe pagetable root).procs k) = [] := by
    intro k
    rcases eq_or_ne k 0 with rfl | hne
    · rfl
    · simp [userinit, hne, zombie]
  refine ⟨fun hlock => ⟨fun j => h.parent, fun i j addr => h.noLostWakeup hlock⟩, fun k => ?_,
    fun a m' hs => freed_iff (outcome_step h hs)⟩
  have haccounts := accounts_run hinit hrun k
  rw [hzombie, List.nil_append] at haccounts
  exact haccounts

/-- `init` forks a child, which exits with status 7, and waits for it. -/
def forkExitWait : List Act :=
  let o : Oracle := { trapframe := some 2, pagetable := some 3 }
  [.dispatch 0, .call 0 .fork] ++ List.replicate 4 (.tick 0 o) ++
    [.dispatch 1, .call 1 (.exit 7)] ++ List.replicate 150 (.tick 1 o) ++
    [.call 0 (.wait 0x1000)] ++ List.replicate 3 (.tick 0 o)

theorem process_tree_and_wait_child :
    ∃ m, exec step (userinit 0 1 1) forkExitWait = some m ∧ m.waitLock = none ∧
      m.pcs 0 = .user 2 (some 7) ∧
      exits 1 (trace step event (userinit 0 1 1) forkExitWait) = [(2, 7)] ∧
      exits 1 (trace step event (userinit 0 1 1) forkExitWait) =
        reaps 1 (trace step event (userinit 0 1 1) forkExitWait) ++ zombie (m.procs 1) := by
  have hcheck : runCheck step (fun _ _ => true)
      (fun m => decide (m.waitLock = none ∧ m.pcs 0 = .user 2 (some 7)))
      (userinit 0 1 1) forkExitWait = true := by decide +kernel
  obtain ⟨-, m, hrun, hm⟩ := of_runCheck hcheck
  have hm := of_decide_eq_true hm
  exact ⟨m, hrun, hm.1, hm.2, by decide +kernel, (process_tree_and_wait hrun).2.1 1⟩

end Xv6.ProcTable
