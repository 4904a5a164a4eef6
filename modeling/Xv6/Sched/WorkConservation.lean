import Xv6.Sched.Cpus

/-!
# When a CPU idles

A CPU that finds no process reaches `wfi`.  The two passes of a round are not
one critical section, so another CPU can dispatch a process between the moment
its tickets are counted and the moment the second pass comes to its slot.  The
prefix sums then end below the drawn ticket, and the CPU idles although other
processes have been RUNNABLE all the time.

* `DrawCovered` says that the tickets a draw relies on are still in the table.
* `StepOk` is the condition on a step: no addition leaves the `int` range, and
  a dispatch leaves the draws of the other CPUs covered.
* `SchedInv` is the invariant of the runs whose steps meet `StepOk`; `schedInv_step`
  is the step lemma.
* `workConserving_of_stepsMeet` is the result, and `idleRound` a round of two CPUs
  that breaks the condition and the property.
-/

namespace Xv6.Sched

open Xv6.Lib.Run

variable {procs : List Proc} {c i j k : Nat} {p q : Proc} {m m' : Machine}

/-! ## Ticket sums over parts of the table -/

/-- The tickets from slot `k` on. -/
def ticketsFrom (procs : List Proc) (k : Nat) : Nat := ticketSum (procs.drop k)

theorem ticketSum_append (ps qs : List Proc) :
    ticketSum (ps ++ qs) = ticketSum ps + ticketSum qs := by
  simp [ticketSum]

theorem ticketsBefore_succ (hk : procs[k]? = some p) :
    ticketsBefore procs (k + 1) = ticketsBefore procs k + slotTickets p := by
  rw [ticketsBefore, ticketsBefore, List.take_add_one, hk, ticketSum_append]
  simp

theorem ticketsFrom_eq (hk : procs[k]? = some p) :
    ticketsFrom procs k = slotTickets p + ticketsFrom procs (k + 1) := by
  obtain ⟨hlt, rfl⟩ := List.getElem?_eq_some_iff.mp hk
  rw [ticketsFrom, ticketsFrom, List.drop_eq_getElem_cons hlt, ticketSum_cons]

theorem ticketsFrom_eq_zero (hk : procs[k]? = none) :
    ticketsFrom procs k = 0 := by
  rw [ticketsFrom, List.drop_eq_nil_of_le (List.getElem?_eq_none_iff.mp hk), ticketSum_nil]

/-- Changing one slot to one with at least as many tickets does not lower a
sum. -/
theorem ticketSum_set_le
    (hq : ∀ p, procs[j]? = some p → slotTickets p ≤ slotTickets q) :
    ticketSum procs ≤ ticketSum (procs.set j q) := by
  induction procs generalizing j with
  | nil => simp
  | cons p procs ih =>
    cases j with
    | zero =>
      have := hq p rfl
      simp only [List.set_cons_zero, ticketSum_cons]
      omega
    | succ j =>
      have := ih (j := j) (fun p' hp' => hq p' (by simpa using hp'))
      simp only [List.set_cons_succ, ticketSum_cons]
      omega

theorem ticketsBefore_set_le
    (hq : ∀ p, procs[j]? = some p → slotTickets p ≤ slotTickets q) :
    ticketsBefore procs k ≤ ticketsBefore (procs.set j q) k := by
  rw [ticketsBefore, ticketsBefore, List.take_set]
  apply ticketSum_set_le
  intro p hp
  rw [List.getElem?_take] at hp
  split at hp
  · exact hq p hp
  · simp at hp

theorem ticketsFrom_set_le
    (hq : ∀ p, procs[j]? = some p → slotTickets p ≤ slotTickets q) :
    ticketsFrom procs k ≤ ticketsFrom (procs.set j q) k := by
  rw [ticketsFrom, ticketsFrom, List.drop_set]
  split
  · exact Nat.le_refl _
  · rename_i hjk
    apply ticketSum_set_le
    intro p hp
    rw [List.getElem?_drop, show k + (j - k) = j by omega] at hp
    exact hq p hp

/-! ## The condition on a step -/

/-- The tickets that the draw of a CPU relies on are still in the table: those
it has counted before the draw, those it has yet to reach after it. -/
def DrawCovered (procs : List Proc) : Pc → Prop
  | .firstPass i total => total.toNat ≤ ticketsBefore procs i
  | .secondPass i counter winner => winner.toNat < counter.toNat + ticketsFrom procs i
  | _ => True

instance (procs : List Proc) : DecidablePred (DrawCovered procs)
  | .firstPass i total => inferInstanceAs (Decidable (total.toNat ≤ ticketsBefore procs i))
  | .secondPass i counter winner =>
    inferInstanceAs (Decidable (winner.toNat < counter.toNat + ticketsFrom procs i))
  | .roundStart | .running _ | .wfi => .isTrue trivial

/-- The condition on a scheduler step of CPU `c` in the state before it. -/
def SchedOk (m : Machine) (c : Nat) : Prop :=
  match m.cpus[c]? with
  | some (.firstPass i total) =>
    ∀ p, m.procs[i]? = some p → p.state = .RUNNABLE → total.toNat + p.tickets.toNat < 2 ^ 31
  | some (.secondPass i counter winner) =>
    ∀ p, m.procs[i]? = some p → p.state = .RUNNABLE →
      counter.toNat + p.tickets.toNat < 2 ^ 31 ∧
        (winner.slt (counter + p.tickets) →
          ∀ d pc, d ≠ c → m.cpus[d]? = some pc → DrawCovered m.procs pc →
            DrawCovered (m.procs.set i (dispatch p)) pc)
  | _ => True

instance (m : Machine) (c : Nat) : Decidable (SchedOk m c) :=
  match hc : m.cpus[c]? with
  | none | some .roundStart | some (.running _) | some .wfi => .isTrue (by simp [SchedOk, hc])
  | some (.firstPass i total) =>
    match hp : m.procs[i]? with
    | none => .isTrue (by simp [SchedOk, hc, hp])
    | some p =>
      decidable_of_iff (p.state = .RUNNABLE → total.toNat + p.tickets.toNat < 2 ^ 31)
        (by simp [SchedOk, hc, hp])
  | some (.secondPass i counter winner) =>
    match hp : m.procs[i]? with
    | none => .isTrue (by simp [SchedOk, hc, hp])
    | some p =>
      decidable_of_iff
        (p.state = .RUNNABLE → counter.toNat + p.tickets.toNat < 2 ^ 31 ∧
          (winner.slt (counter + p.tickets) → ∀ d : Fin m.cpus.length, d.val ≠ c →
            DrawCovered m.procs m.cpus[d] →
              DrawCovered (m.procs.set i (dispatch p)) m.cpus[d]))
        (by
          simp only [SchedOk, hc, hp, Option.some.injEq, forall_eq', Fin.forall_iff,
            List.getElem?_eq_some_iff]
          refine imp_congr_right fun _ => and_congr_right fun _ => imp_congr_right fun _ => ?_
          constructor
          · rintro h d _ hne ⟨hd, rfl⟩
            exact h d hd hne
          · intro h d hd hne
            exact h d _ hne ⟨hd, rfl⟩)

/-- No addition of a scheduler step leaves the `int` range, and no dispatch
takes tickets that the draw of another CPU relies on. -/
def StepOk (m : Machine) : Act → Prop
  | .sched c _ => SchedOk m c
  | _ => True

instance (m : Machine) : DecidablePred (StepOk m)
  | .sched c _ => inferInstanceAs (Decidable (SchedOk m c))
  | .yield _ | .sleep _ _ | .exit _ _ | .settickets _ _ | .fork _ _ _ | .forkRunnable _ _
  | .wakeup _ _ | .kill _ _ | .reap _ _ => .isTrue trivial

/-! ## The invariant -/

/-- What the local variables of a CPU satisfy in every round. -/
def PassInv (procs : List Proc) : Pc → Prop
  | .firstPass _ total => total.toNat < 2 ^ 31
  | .secondPass _ counter winner => counter.toNat ≤ winner.toNat ∧ winner.toNat < 2 ^ 31
  | .running i => ∃ p, procs[i]? = some p ∧ p.state = .RUNNING
  | _ => True

structure SchedInv (m : Machine) : Prop where
  tickets : ∀ (i : Nat) (p : Proc), m.procs[i]? = some p → p.state ≠ .UNUSED → 1 ≤ p.tickets.toInt
  covered : ∀ (c : Nat) (pc : Pc), m.cpus[c]? = some pc → DrawCovered m.procs pc
  pass : ∀ (c : Nat) (pc : Pc), m.cpus[c]? = some pc → PassInv m.procs pc
  single : ∀ c d i : Nat, m.cpus[c]? = some (.running i) → m.cpus[d]? = some (.running i) → c = d

/-- A table in which every process in use holds a ticket, with every CPU at the
top of its loop. -/
def Init (m : Machine) : Prop :=
  (∀ p ∈ m.procs, p.state ≠ .UNUSED → 1 ≤ p.tickets.toInt) ∧ ∀ pc ∈ m.cpus, pc = .roundStart

theorem schedInv_of_init (h : Init m) : SchedInv m where
  tickets i p hp := h.1 p (List.mem_of_getElem? hp)
  covered c pc hc := by
    rw [h.2 pc (List.mem_of_getElem? hc)]
    trivial
  pass c pc hc := by
    rw [h.2 pc (List.mem_of_getElem? hc)]
    trivial
  single c d i hc _ := by
    have := h.2 _ (List.mem_of_getElem? hc)
    simp at this

theorem drawCovered_set {pc : Pc}
    (hq : ∀ p, procs[j]? = some p → slotTickets p ≤ slotTickets q) (h : DrawCovered procs pc) :
    DrawCovered (procs.set j q) pc := by
  cases pc with
  | firstPass i total => exact Nat.le_trans h (ticketsBefore_set_le hq)
  | secondPass i counter winner =>
    have := ticketsFrom_set_le (k := i) hq
    simp only [DrawCovered] at h ⊢
    omega
  | roundStart | running _ | wfi => trivial

theorem slotTickets_of_ne (h : p.state ≠ .RUNNABLE) : slotTickets p = 0 := if_neg h

/-- A CPU moves inside `scheduler`. -/
theorem SchedInv.setPc (h : SchedInv m) {pc : Pc} (hcov : DrawCovered m.procs pc)
    (hpass : PassInv m.procs pc) (hrun : ∀ i, pc ≠ .running i) : SchedInv (m.setPc c pc) where
  tickets := h.tickets
  covered d pc' hd := by
    rw [Machine.setPc_cpus, List.getElem?_set] at hd
    split at hd
    · split at hd <;> simp_all
    · exact h.covered d pc' hd
  pass d pc' hd := by
    rw [Machine.setPc_cpus, List.getElem?_set] at hd
    split at hd
    · split at hd <;> simp_all
    · exact h.pass d pc' hd
  single d e i hd he := by
    rw [Machine.setPc_cpus, List.getElem?_set] at hd he
    split at hd
    · split at hd <;> simp_all
    · split at he
      · split at he <;> simp_all
      · exact h.single d e i hd he

/-- A slot changes without losing tickets and without leaving a CPU. -/
theorem SchedInv.setProc (h : SchedInv m) (hj : m.procs[j]? = some p)
    (hstay : p.state = .RUNNING → q.state = .RUNNING) (hle : slotTickets p ≤ slotTickets q)
    (hq : q.state ≠ .UNUSED → 1 ≤ q.tickets.toInt) : SchedInv (m.setProc j q) where
  tickets i p' hp' hne := by
    rw [Machine.setProc_procs, List.getElem?_set] at hp'
    split at hp'
    · split at hp' <;> simp_all
    · exact h.tickets i p' hp' hne
  covered c pc hc := by
    refine drawCovered_set (fun p' hp' => ?_) (h.covered c pc hc)
    rw [hj, Option.some.injEq] at hp'
    exact hp' ▸ hle
  pass c pc hc := by
    have hold := h.pass c pc hc
    cases pc with
    | running i =>
      obtain ⟨p', hp', hrun⟩ := hold
      rw [PassInv, Machine.setProc_procs, List.getElem?_set]
      split
      · rename_i hji
        subst hji
        rw [hj, Option.some.injEq] at hp'
        subst hp'
        exact ⟨q, by simp [(List.getElem?_eq_some_iff.mp hj).1], hstay hrun⟩
      · exact ⟨p', hp', hrun⟩
    | roundStart | firstPass _ _ | secondPass _ _ _ | wfi => exact hold
  single := h.single

theorem current_eq_some (h : m.current c = some (i, p)) :
    m.cpus[c]? = some (.running i) ∧ m.procs[i]? = some p := by
  unfold Machine.current at h
  split at h
  · rename_i j hj
    obtain ⟨p', hp', heq⟩ := Option.map_eq_some_iff.mp h
    simp only [Prod.mk.injEq] at heq
    exact ⟨heq.1 ▸ hj, by rw [← heq.1, ← heq.2, hp']⟩
  · simp at h

/-- The process on a CPU is RUNNING, so it contributes no tickets. -/
theorem SchedInv.current_running (h : SchedInv m)
    (hc : m.current c = some (i, p)) : p.state = .RUNNING := by
  obtain ⟨hpc, hp⟩ := current_eq_some hc
  obtain ⟨p', hp', hrun⟩ := h.pass c _ hpc
  rw [hp, Option.some.injEq] at hp'
  exact hp' ▸ hrun

/-- The process of CPU `c` gives up the CPU. -/
theorem SchedInv.leave (h : SchedInv m)
    (hc : m.current c = some (i, p)) (hq : q.state ≠ .UNUSED → 1 ≤ q.tickets.toInt) :
    SchedInv ((m.setProc i q).setPc c .roundStart) := by
  obtain ⟨hpc, hp⟩ := current_eq_some hc
  have hzero : slotTickets p = 0 := slotTickets_of_ne (by simp [h.current_running hc])
  have hcpus : ∀ d pc, ((m.setProc i q).setPc c .roundStart).cpus[d]? = some pc →
      pc = .roundStart ∨ d ≠ c ∧ m.cpus[d]? = some pc := by
    intro d pc hd
    rw [Machine.setPc_cpus, Machine.setProc_cpus, List.getElem?_set] at hd
    split at hd
    · split at hd
      · left
        simpa using hd.symm
      · simp at hd
    · exact Or.inr ⟨by omega, hd⟩
  constructor
  · intro j p' hp' hne
    rw [Machine.setPc_procs, Machine.setProc_procs, List.getElem?_set] at hp'
    split at hp'
    · split at hp' <;> simp_all
    · exact h.tickets j p' hp' hne
  · intro d pc hd
    rcases hcpus d pc hd with rfl | ⟨_, hd'⟩
    · trivial
    · refine drawCovered_set (fun p' hp' => ?_) (h.covered d pc hd')
      rw [hp, Option.some.injEq] at hp'
      rw [← hp', hzero]
      exact Nat.zero_le _
  · intro d pc hd
    rcases hcpus d pc hd with rfl | ⟨hdc, hd'⟩
    · trivial
    · have hold := h.pass d pc hd'
      cases pc with
      | running j =>
        -- another CPU runs another slot
        obtain ⟨p', hp', hrun'⟩ := hold
        have hne : i ≠ j := by
          rintro rfl
          exact hdc (h.single d c i hd' hpc)
        exact ⟨p', by simpa [List.getElem?_set, hne] using hp', hrun'⟩
      | roundStart | firstPass _ _ | secondPass _ _ _ | wfi => exact hold
  · intro d e j hd he
    rcases hcpus d _ hd with hd' | ⟨_, hd'⟩
    · simp at hd'
    · rcases hcpus e _ he with he' | ⟨_, he'⟩
      · simp at he'
      · exact h.single d e j hd' he'

/-- CPU `c` dispatches slot `i`. -/
theorem SchedInv.dispatch (h : SchedInv m)
    (hp : m.procs[i]? = some p) (hrun : p.state = .RUNNABLE)
    (hcov : ∀ d pc, d ≠ c → m.cpus[d]? = some pc → DrawCovered m.procs pc →
      DrawCovered (m.procs.set i (dispatch p)) pc) :
    SchedInv ((m.setProc i (dispatch p)).setPc c (.running i)) := by
  have hilt := (List.getElem?_eq_some_iff.mp hp).1
  -- a RUNNABLE process is on no CPU
  have hfree : ∀ d : Nat, m.cpus[d]? ≠ some (.running i) := by
    intro d hd
    obtain ⟨p', hp', hrun'⟩ := h.pass d _ hd
    rw [hp, Option.some.injEq] at hp'
    rw [hp', hrun'] at hrun
    simp at hrun
  have hcpus : ∀ d pc, ((m.setProc i (Xv6.dispatch p)).setPc c (.running i)).cpus[d]? = some pc →
      d = c ∧ pc = .running i ∨ d ≠ c ∧ m.cpus[d]? = some pc := by
    intro d pc hd
    rw [Machine.setPc_cpus, Machine.setProc_cpus, List.getElem?_set] at hd
    split at hd
    · split at hd
      · left
        exact ⟨by omega, by simpa using hd.symm⟩
      · simp at hd
    · exact Or.inr ⟨by omega, hd⟩
  constructor
  · intro j p' hp' hne
    rw [Machine.setPc_procs, Machine.setProc_procs, List.getElem?_set] at hp'
    split at hp'
    · rw [Option.some.injEq] at hp'
      rw [← hp']
      exact h.tickets i p hp (by simp [hrun])
    · exact h.tickets j p' hp' hne
  · intro d pc hd
    rcases hcpus d pc hd with ⟨_, rfl⟩ | ⟨hdc, hd'⟩
    · trivial
    · exact hcov d pc hdc hd' (h.covered d pc hd')
  · intro d pc hd
    rcases hcpus d pc hd with ⟨_, rfl⟩ | ⟨hdc, hd'⟩
    · exact ⟨Xv6.dispatch p, by simp [hilt], rfl⟩
    · have hold := h.pass d pc hd'
      cases pc with
      | running j =>
        obtain ⟨p', hp', hrun'⟩ := hold
        have hne : i ≠ j := by
          rintro rfl
          exact hfree d hd'
        exact ⟨p', by simpa [List.getElem?_set, hne] using hp', hrun'⟩
      | roundStart | firstPass _ _ | secondPass _ _ _ | wfi => exact hold
  · intro d e j hd he
    rcases hcpus d _ hd with ⟨hdc, hd'⟩ | ⟨_, hd'⟩
    · rcases hcpus e _ he with ⟨hec, _⟩ | ⟨_, he'⟩
      · omega
      · simp only [Pc.running.injEq] at hd'
        exact absurd (hd' ▸ he') (hfree e)
    · rcases hcpus e _ he with ⟨_, he'⟩ | ⟨_, he'⟩
      · simp only [Pc.running.injEq] at he'
        exact absurd (he' ▸ hd') (hfree d)
      · exact h.single d e j hd' he'

/-- An addition that stays in the `int` range is exact. -/
theorem toNat_add_of_lt {a b : BitVec 32} (h : a.toNat + b.toNat < 2 ^ 31) :
    (a + b).toNat = a.toNat + b.toNat := by
  rw [BitVec.toNat_add, Nat.mod_eq_of_lt (by omega)]

theorem slt_iff_toNat_lt {a b : BitVec 32} (ha : a.toNat < 2 ^ 31) (hb : b.toNat < 2 ^ 31) :
    a.slt b ↔ a.toNat < b.toNat := by
  rw [BitVec.slt_iff_toInt_lt, toInt_of_toNat_lt ha, toInt_of_toNat_lt hb]
  omega

/-- The counting step of the first pass stays in range and counts exactly. -/
theorem countSlot_toNat {total : BitVec 32} (htotal : total.toNat < 2 ^ 31)
    (hok : p.state = .RUNNABLE → total.toNat + p.tickets.toNat < 2 ^ 31) :
    (countSlot total p).toNat = total.toNat + slotTickets p ∧
      (countSlot total p).toNat < 2 ^ 31 := by
  by_cases hrun : p.state = .RUNNABLE
  · rw [countSlot, slotTickets, if_pos hrun, if_pos hrun, toNat_add_of_lt (hok hrun)]
    exact ⟨rfl, hok hrun⟩
  · rw [countSlot, slotTickets, if_neg hrun, if_neg hrun]
    exact ⟨rfl, htotal⟩

/-- A scheduler step keeps the invariant. -/
theorem schedInv_schedStep {r : BitVec 32} (h : SchedInv m)
    (hok : SchedOk m c) (hs : schedStep m c r = some m') : SchedInv m' := by
  unfold schedStep at hs
  cases hpc : m.cpus[c]? with
  | none => simp [hpc] at hs
  | some pc =>
    have hcov := h.covered c pc hpc
    have hpass := h.pass c pc hpc
    rw [SchedOk, hpc] at hok
    cases pc with
    | roundStart =>
      simp only [hpc, Option.some.injEq] at hs
      subst hs
      exact h.setPc (Nat.zero_le _) (Nat.two_pow_pos 31) (by simp)
    | wfi =>
      simp only [hpc, Option.some.injEq] at hs
      subst hs
      exact h.setPc trivial trivial (by simp)
    | running i => simp [hpc] at hs
    | firstPass i total =>
      simp only [DrawCovered, PassInv] at hcov hpass
      cases hp : m.procs[i]? with
      | some p =>
        simp only [hpc, hp, Option.some.injEq] at hs
        subst hs
        obtain ⟨hnat, hlt⟩ := countSlot_toNat hpass (hok p hp)
        refine h.setPc ?_ hlt (by simp)
        rw [DrawCovered, hnat, ticketsBefore_succ hp]
        omega
      | none =>
        simp only [hpc, hp] at hs
        split at hs <;> simp only [Option.some.injEq] at hs <;> subst hs
        · exact h.setPc trivial trivial (by simp)
        · rename_i hne
          have hpos : 0 < total.toNat := by
            rw [Nat.pos_iff_ne_zero]
            intro h0
            exact hne (BitVec.eq_of_toNat_eq (by simpa using h0))
          have hwin : (r % total).toNat < total.toNat := by
            rw [BitVec.toNat_umod]
            exact Nat.mod_lt _ hpos
          have hall : ticketsBefore m.procs i = ticketsFrom m.procs 0 := by
            rw [ticketsBefore, ticketsFrom, List.take_of_length_le
              (List.getElem?_eq_none_iff.mp hp), List.drop_zero]
          refine h.setPc ?_ ⟨Nat.zero_le _, by omega⟩ (by simp)
          rw [DrawCovered, ← hall]
          omega
    | secondPass i counter winner =>
      simp only [DrawCovered, PassInv] at hcov hpass
      cases hp : m.procs[i]? with
      | some p =>
        rw [ticketsFrom_eq hp] at hcov
        simp only [hpc, hp] at hs
        split at hs
        · rename_i hrun
          obtain ⟨hfit, hother⟩ := hok p hp hrun
          have hadd := toNat_add_of_lt hfit
          split at hs <;> simp only [Option.some.injEq] at hs <;> subst hs
          · rename_i hlt
            exact h.dispatch hp hrun (hother hlt)
          · rename_i hge
            rw [slt_iff_toNat_lt hpass.2 (by omega), Nat.not_lt] at hge
            refine h.setPc ?_ ⟨hge, hpass.2⟩ (by simp)
            rw [slotTickets, if_pos hrun] at hcov
            rw [DrawCovered, hadd]
            omega
        · rename_i hrun
          simp only [Option.some.injEq] at hs
          subst hs
          rw [slotTickets_of_ne hrun] at hcov
          refine h.setPc ?_ hpass (by simp)
          rw [DrawCovered]
          omega
      | none =>
        simp only [hpc, hp, Option.some.injEq] at hs
        subst hs
        exact h.setPc trivial trivial (by simp)

/-- Every step that meets `StepOk` keeps the invariant. -/
theorem schedInv_step (m : Machine) (a : Act) (m' : Machine) (h : SchedInv m) (hok : StepOk m a)
    (hs : step m a = some m') : SchedInv m' := by
  -- the steps of the process on a CPU that give the CPU up
  have hleave : ∀ {c i : Nat} {p : Proc} (q : Proc), m.current c = some (i, p) →
      q.tickets = p.tickets → SchedInv ((m.setProc i q).setPc c .roundStart) := by
    intro c i p q hc hq
    refine h.leave hc fun _ => ?_
    rw [hq]
    exact h.tickets i p (current_eq_some hc).2 (by simp [h.current_running hc])
  cases a with
  | sched c r => exact schedInv_schedStep h hok hs
  | yield c | sleep c _ | exit c _ =>
    obtain ⟨⟨i, p⟩, hc, heq⟩ := Option.bind_eq_some_iff.mp hs
    cases heq
    exact hleave _ hc rfl
  | settickets c number =>
    obtain ⟨⟨i, p⟩, hc, heq⟩ := Option.bind_eq_some_iff.mp hs
    obtain ⟨q, hq, heq⟩ := Option.bind_eq_some_iff.mp heq
    cases heq
    have hrun := h.current_running hc
    have hone := (ksettickets_isSome_iff p number).mp (by rw [hq]; rfl)
    unfold ksettickets at hq
    split at hq
    · simp at hq
    · rw [Option.some.injEq] at hq
      subst hq
      refine h.setProc (current_eq_some hc).2 id ?_ (fun _ => hone)
      rw [slotTickets_of_ne (by simp [hrun])]
      exact Nat.zero_le _
  | fork c j pid =>
    obtain ⟨⟨i, p⟩, hc, heq⟩ := Option.bind_eq_some_iff.mp hs
    obtain ⟨np, hnp, heq⟩ := Option.bind_eq_some_iff.mp heq
    split at heq
    · rename_i hunused
      cases heq
      refine h.setProc hnp (by simp [hunused]) ?_ fun _ => ?_
      · rw [slotTickets_of_ne (by simp [hunused])]
        exact Nat.zero_le _
      · exact h.tickets i p (current_eq_some hc).2 (by simp [h.current_running hc])
    · simp at heq
  | forkRunnable c j =>
    obtain ⟨⟨i, p⟩, hc, heq⟩ := Option.bind_eq_some_iff.mp hs
    obtain ⟨np, hnp, heq⟩ := Option.bind_eq_some_iff.mp heq
    split at heq
    · rename_i hused
      cases heq
      refine h.setProc hnp (by simp [hused]) ?_ fun _ => h.tickets j np hnp (by simp [hused])
      rw [slotTickets_of_ne (by simp [hused])]
      exact Nat.zero_le _
    · simp at heq
  | wakeup j chan =>
    obtain ⟨p, hp, heq⟩ := Option.bind_eq_some_iff.mp hs
    cases heq
    unfold wakeupSlot
    split
    · rename_i hsleep
      refine h.setProc hp (by simp [hsleep.1]) ?_ fun _ => h.tickets j p hp (by simp [hsleep.1])
      rw [slotTickets_of_ne (by simp [hsleep.1])]
      exact Nat.zero_le _
    · exact h.setProc hp id (Nat.le_refl _) (h.tickets j p hp)
  | kill j pid =>
    obtain ⟨p, hp, heq⟩ := Option.bind_eq_some_iff.mp hs
    split at heq
    · cases heq
      by_cases hsleep : p.state = .SLEEPING
      · refine h.setProc hp (by simp [hsleep]) ?_ fun _ => h.tickets j p hp (by simp [hsleep])
        rw [slotTickets_of_ne (by simp [hsleep])]
        exact Nat.zero_le _
      · refine h.setProc hp (by simp [killSlot, hsleep]) ?_ fun hne => h.tickets j p hp ?_
        · simp [slotTickets, killSlot, hsleep]
        · simpa [killSlot, hsleep] using hne
    · cases heq
      exact h
  | reap c j =>
    obtain ⟨⟨i, p⟩, hc, heq⟩ := Option.bind_eq_some_iff.mp hs
    obtain ⟨p', hp', heq⟩ := Option.bind_eq_some_iff.mp heq
    split at heq
    · rename_i hz
      cases heq
      refine h.setProc hp' (by simp [hz]) ?_ (fun hne => absurd rfl hne)
      rw [slotTickets_of_ne (by simp [hz])]
      exact Nat.zero_le _
    · simp at heq

/-! ## A round -/

def Pc.inRoundOrWfi : Pc → Bool
  | .firstPass _ _ | .secondPass _ _ _ | .wfi => true
  | .roundStart | .running _ => false

/-- CPU `c` is in the passes of a round, or has just ended one without a
process. -/
def InRoundOrWfi (c : Nat) (m : Machine) : Prop := m.cpus[c]?.any Pc.inRoundOrWfi

instance (c : Nat) : DecidablePred (InRoundOrWfi c) :=
  fun m => inferInstanceAs (Decidable (m.cpus[c]?.any Pc.inRoundOrWfi = true))

/-- Slot `i` holds a RUNNABLE process. -/
def Runnable (i : Nat) (m : Machine) : Prop := m.procs[i]?.any (·.state = .RUNNABLE)

instance (i : Nat) : DecidablePred (Runnable i) :=
  fun m => inferInstanceAs (Decidable (m.procs[i]?.any (·.state = .RUNNABLE) = true))

/-- In every round of every CPU that ends in `wfi`, no process was RUNNABLE
from the start of the first pass to the end. -/
def WorkConserving (m : Machine) (as : List Act) : Prop :=
  ∀ before round after u v c, as = before ++ round ++ after →
    exec step m before = some u → u.cpus[c]? = some (.firstPass 0 0) →
    exec step u round = some v → StatesMeet step (InRoundOrWfi c) u round →
    v.cpus[c]? = some .wfi → ¬ ∃ i, StatesMeet step (Runnable i) u round

/-- What holds of CPU `c` in a round through which slot `i` stays RUNNABLE. -/
def RoundInv (c i : Nat) (m : Machine) : Prop :=
  match m.cpus[c]? with
  | some (.firstPass j total) => i < j → 0 < total.toNat
  | some .wfi => False
  | _ => True

/-- Only its own scheduler steps move a CPU that is in a round. -/
theorem step_cpus_other {a : Act} (hround : InRoundOrWfi c m)
    (ha : ∀ r, a ≠ .sched c r) (hs : step m a = some m') : m'.cpus[c]? = m.cpus[c]? := by
  have hcur : ∀ {d i p}, m.current d = some (i, p) → d ≠ c := by
    rintro d i p hd rfl
    rw [InRoundOrWfi, (current_eq_some hd).1] at hround
    simp [Pc.inRoundOrWfi] at hround
  cases a with
  | sched d r =>
    have hdc : d ≠ c := by
      rintro rfl
      exact ha r rfl
    simp only [step, schedStep] at hs
    repeat' split at hs
    all_goals first
      | (cases hs; simp [hdc])
      | simp at hs
  | yield d | sleep d _ | exit d _ =>
    obtain ⟨⟨i, p⟩, hd, heq⟩ := Option.bind_eq_some_iff.mp hs
    cases heq
    simp [hcur hd]
  | settickets d number =>
    obtain ⟨⟨i, p⟩, hd, heq⟩ := Option.bind_eq_some_iff.mp hs
    obtain ⟨q, hq, heq⟩ := Option.bind_eq_some_iff.mp heq
    cases heq
    rfl
  | fork d j _ | forkRunnable d j | reap d j =>
    obtain ⟨⟨i, p⟩, hd, heq⟩ := Option.bind_eq_some_iff.mp hs
    obtain ⟨np, hnp, heq⟩ := Option.bind_eq_some_iff.mp heq
    split at heq
    · cases heq
      rfl
    · simp at heq
  | wakeup j chan =>
    obtain ⟨p, hp, heq⟩ := Option.bind_eq_some_iff.mp hs
    cases heq
    rfl
  | kill j pid =>
    obtain ⟨p, hp, heq⟩ := Option.bind_eq_some_iff.mp hs
    split at heq <;> cases heq <;> rfl

theorem roundInv_step {a : Act} (h : SchedInv m) (hok : StepOk m a)
    (hround : InRoundOrWfi c m) (hi : Runnable i m) (hr : RoundInv c i m)
    (hs : step m a = some m') : RoundInv c i m' := by
  by_cases ha : ∃ r, a = .sched c r
  · obtain ⟨r, rfl⟩ := ha
    obtain ⟨p, hp, hrun⟩ : ∃ p, m.procs[i]? = some p ∧ p.state = .RUNNABLE := by
      simpa [Runnable, Option.any_eq_true] using hi
    simp only [step, schedStep] at hs
    cases hpc : m.cpus[c]? with
    | none => simp [hpc] at hs
    | some pc =>
      have hclt := (List.getElem?_eq_some_iff.mp hpc).1
      have hcov := h.covered c pc hpc
      have hpass := h.pass c pc hpc
      simp only [StepOk, SchedOk, hpc] at hok
      simp only [RoundInv, hpc] at hr
      cases pc with
      | roundStart => simp [InRoundOrWfi, hpc, Pc.inRoundOrWfi] at hround
      | running j => simp [hpc] at hs
      | wfi => exact hr.elim
      | firstPass j total =>
        cases hq : m.procs[j]? with
        | some q =>
          simp only [hpc, hq, Option.some.injEq] at hs
          subst hs
          simp only [RoundInv, Machine.setPc_cpus, List.getElem?_set_self hclt]
          intro hij
          obtain ⟨hnat, -⟩ := countSlot_toNat hpass (hok q hq)
          rw [hnat]
          rcases Nat.lt_succ_iff_lt_or_eq.mp hij with hlt | rfl
          · have := hr hlt
            omega
          · -- the step that counts slot `i` itself
            rw [hp, Option.some.injEq] at hq
            subst hq
            have hone := toNat_lt_of_one_le_toInt (h.tickets i p hp (by simp [hrun]))
            rw [slotTickets, if_pos hrun]
            omega
        | none =>
          have hpos : 0 < total.toNat := by
            apply hr
            have hlt := (List.getElem?_eq_some_iff.mp hp).1
            have hge := List.getElem?_eq_none_iff.mp hq
            omega
          simp only [hpc, hq] at hs
          split at hs
          · rename_i hzero
            rw [hzero] at hpos
            exact absurd hpos (by decide)
          · simp only [Option.some.injEq] at hs
            subst hs
            simp [RoundInv, hclt]
      | secondPass j counter winner =>
        cases hq : m.procs[j]? with
        | some q =>
          simp only [hpc, hq] at hs
          split at hs
          · split at hs <;> cases hs <;> simp [RoundInv, hclt]
          · cases hs
            simp [RoundInv, hclt]
        | none =>
          -- the prefix sums cannot end below the drawn ticket
          simp only [DrawCovered, PassInv, ticketsFrom_eq_zero hq] at hcov hpass
          omega
  · have hsame := step_cpus_other hround (fun r hr' => ha ⟨r, hr'⟩) hs
    rw [RoundInv, hsame]
    exact hr

theorem roundInv_exec {u v : Machine} {round : List Act} (h : SchedInv u)
    (hok : StepsMeet step StepOk u round) (hround : StatesMeet step (InRoundOrWfi c) u round)
    (hi : StatesMeet step (Runnable i) u round) (hr : RoundInv c i u)
    (hv : exec step u round = some v) : RoundInv c i v := by
  induction round generalizing u with
  | nil =>
    cases hv
    exact hr
  | cons a round ih =>
    obtain ⟨w, hw, hrest⟩ := exec_cons_eq_some hv
    exact ih (schedInv_step u a w h hok.1 hw) (hok.2 w hw) (hround.2 w hw) (hi.2 w hw)
      (roundInv_step h hok.1 hround.1 hi.1 hr hw) hrest

/-- In every run whose steps meet `StepOk`, a CPU idles
only when no process was RUNNABLE throughout its round. -/
theorem workConserving_of_stepsMeet (m : Machine) (as : List Act) (hm : Init m)
    (hok : StepsMeet step StepOk m as) : WorkConserving m as := by
  intro before round after u v c has hu hc hv hround hwfi
  rintro ⟨i, hi⟩
  rw [has, List.append_assoc] at hok
  obtain ⟨hbefore, hrest⟩ := hok.append hu
  have hinv := inv_of_exec schedInv_step (schedInv_of_init hm) hbefore hu
  have hstart : RoundInv c i u := by
    rw [RoundInv, hc]
    intro hlt
    omega
  have hend := roundInv_exec hinv (hrest.append hv).1 hround hi hstart hv
  rw [RoundInv, hwfi] at hend
  exact hend

/-! ## A run that idles -/

/-- Two RUNNABLE processes, with ten tickets and with one, and two CPUs. -/
def twoCpus : Machine where
  procs := [{ state := .RUNNABLE, pid := 1, tickets := 10 },
      { state := .RUNNABLE, pid := 2, tickets := 1 }] ++ List.replicate (NPROC - 2) ({} : Proc)
  cpus := [.roundStart, .roundStart]

/-- CPU 0 counts eleven tickets and draws the last one.  Before its second pass
CPU 1 dispatches the process with ten tickets, so the prefix sums of CPU 0 end
at one and it idles. -/
def idleRound : List Act :=
  List.replicate NPROC (.sched 0 0) ++ [.sched 0 10] ++
    (List.replicate (NPROC + 3) (.sched 1 0) ++ List.replicate (NPROC + 1) (.sched 0 0))

theorem not_workConserving_twoCpus :
    Init twoCpus ∧ ¬ WorkConserving twoCpus ([.sched 0 0] ++ idleRound ++ []) := by
  refine ⟨⟨by decide +kernel, by decide +kernel⟩, fun h => ?_⟩
  -- where CPU 0 is at the end of its round
  have hend : (exec step (twoCpus.setPc 0 (.firstPass 0 0)) idleRound).bind (·.cpus[0]?) =
      some .wfi := by decide +kernel
  obtain ⟨v, hv, hwfi⟩ := Option.bind_eq_some_iff.mp hend
  refine h _ _ _ (twoCpus.setPc 0 (.firstPass 0 0)) v 0 rfl rfl rfl hv (by decide +kernel) hwfi ?_
  exact ⟨1, by decide +kernel⟩

/-- Both CPUs dispatch a process, and when that of CPU 0 sleeps, CPU 0 idles. -/
def bothRun : List Act :=
  List.replicate (NPROC + 3) (.sched 0 0) ++ List.replicate (NPROC + 4) (.sched 1 0) ++
    .sleep 0 7 :: List.replicate (NPROC + 2) (.sched 0 0)

theorem workConserving_bothRun : ∃ m, exec step twoCpus bothRun = some m ∧
    m.cpus = [.wfi, .running 1] ∧ WorkConserving twoCpus bothRun := by
  have hcheck : runCheck step (fun m a => decide (StepOk m a))
      (fun m => decide (m.cpus = [.wfi, .running 1])) twoCpus bothRun = true := by decide +kernel
  obtain ⟨hok, m, hrun, hend⟩ := of_runCheck hcheck
  exact ⟨m, hrun, of_decide_eq_true hend, workConserving_of_stepsMeet _ _
    ⟨by decide +kernel, by decide +kernel⟩ (hok.mono fun _ _ => of_decide_eq_true)⟩

end Xv6.Sched
