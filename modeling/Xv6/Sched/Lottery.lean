import Mathlib.Algebra.Ring.Int.Defs
import Mathlib.Algebra.Ring.Nat
import Mathlib.Data.List.Basic
import Mathlib.Algebra.BigOperators.Group.List.Basic
import Xv6.Proc.Basic

/-!
# The two passes of the lottery scheduler

`scheduler` of `kernel/proc.c` makes two passes over the process table.  The
first adds up the tickets of the RUNNABLE processes in an `int`; the second
walks the same prefix sums until they exceed the drawn ticket.  `total`,
`winner` and `counter` are signed 32-bit words, and the draw reduces an
unsigned word modulo the total, so all of them are `BitVec 32` here: `+` wraps,
`%` is the unsigned remainder and `slt` is the signed comparison.

There are three groups.

* The passes, as the code computes them.
* What the passes compute.  `firstPass_toNat` says that the total is the ticket
  sum modulo `2 ^ 32`, and `secondPass_eq_some` that a draw below a ticket sum
  that fits an `int` selects the process whose interval of tickets holds it.
* The draw is correct exactly when the ticket sum fits an `int`
  (`drawCorrect_iff`).
-/

namespace Xv6.Sched

variable {procs : List Proc} {p : Proc}

/-! ## The passes -/

/-- `ksettickets`: a count below one is refused. -/
def ksettickets (p : Proc) (number : BitVec 32) : Option Proc :=
  if number.slt 1 then none else some { p with tickets := number }

/-- The body of the first pass: one slot is added to the total. -/
def countSlot (total : BitVec 32) (p : Proc) : BitVec 32 :=
  if p.state = .RUNNABLE then total + p.tickets else total

/-- The first pass of `scheduler`: the total over the table. -/
def firstPass (procs : List Proc) : BitVec 32 := procs.foldl countSlot 0

/-- The second pass of `scheduler` over the slots from `i` on: the slot whose
prefix sum is the first to exceed `winner`. -/
def secondPass (winner : BitVec 32) : List Proc → BitVec 32 → Nat → Option Nat
  | [], _, _ => none
  | p :: procs, counter, i =>
    if p.state = .RUNNABLE then
      let counter := counter + p.tickets
      if winner.slt counter then some i else secondPass winner procs counter (i + 1)
    else secondPass winner procs counter (i + 1)

/-! ## What the passes compute -/

/-- The tickets that one slot contributes to a draw. -/
def slotTickets (p : Proc) : Nat :=
  if p.state = .RUNNABLE then p.tickets.toNat else 0

/-- The tickets of the RUNNABLE processes of a table, as a natural number. -/
def ticketSum (procs : List Proc) : Nat := (procs.map slotTickets).sum

/-- Every RUNNABLE process holds a ticket count that `ksettickets` accepts. -/
def ValidTickets (procs : List Proc) : Prop :=
  ∀ p ∈ procs, p.state = .RUNNABLE → 1 ≤ p.tickets.toInt

@[simp] theorem ticketSum_nil : ticketSum [] = 0 := rfl

@[simp] theorem ticketSum_cons (p : Proc) (procs : List Proc) :
    ticketSum (p :: procs) = slotTickets p + ticketSum procs := by
  simp [ticketSum]

/-- `ksettickets` accepts exactly the positive `int`s. -/
theorem ksettickets_isSome_iff (p : Proc) (number : BitVec 32) :
    (ksettickets p number).isSome ↔ 1 ≤ number.toInt := by
  have hslt := BitVec.slt_iff_toInt_lt (x := number) (y := 1)
  have hone : (1 : BitVec 32).toInt = 1 := rfl
  unfold ksettickets
  split
  · rename_i h
    simp only [Option.isSome_none, Bool.false_eq_true, false_iff]
    have := hslt.mp h
    omega
  · rename_i h
    simp only [Option.isSome_some, true_iff]
    have := mt hslt.mpr h
    omega

/-- A positive `int` is its unsigned reading. -/
theorem toNat_lt_of_one_le_toInt {n : BitVec 32} (h : 1 ≤ n.toInt) :
    n.toNat < 2 ^ 31 ∧ 1 ≤ n.toNat := by
  rw [BitVec.toInt_eq_toNat_cond] at h
  split at h <;> omega

theorem foldl_countSlot_toNat (procs : List Proc) (total : BitVec 32) :
    (procs.foldl countSlot total).toNat = (total.toNat + ticketSum procs) % 2 ^ 32 := by
  induction procs generalizing total with
  | nil =>
    have := total.isLt
    rw [List.foldl_nil, ticketSum_nil, Nat.add_zero, Nat.mod_eq_of_lt this]
  | cons p procs ih =>
    rw [List.foldl_cons, ih, ticketSum_cons, countSlot, slotTickets]
    split
    · rw [BitVec.toNat_add]
      omega
    · omega

/-- The first pass computes the ticket sum modulo `2 ^ 32`. -/
theorem firstPass_toNat (procs : List Proc) :
    (firstPass procs).toNat = ticketSum procs % 2 ^ 32 := by
  rw [firstPass, foldl_countSlot_toNat]
  simp

theorem toInt_of_toNat_lt {n : BitVec 32} (h : n.toNat < 2 ^ 31) :
    n.toInt = n.toNat := by
  rw [BitVec.toInt_eq_toNat_cond]
  split <;> omega

/-- The total is the true sum exactly when that sum fits an `int`. -/
theorem firstPass_toInt_eq_iff (procs : List Proc) :
    (firstPass procs).toInt = ticketSum procs ↔ ticketSum procs < 2 ^ 31 := by
  have hnat := firstPass_toNat procs
  constructor
  · intro h
    have := BitVec.toInt_lt (x := firstPass procs)
    omega
  · intro h
    rw [toInt_of_toNat_lt] <;> omega

/-- The tickets that stand before slot `k` in the draw. -/
def ticketsBefore (procs : List Proc) (k : Nat) : Nat := ticketSum (procs.take k)

@[simp] theorem ticketsBefore_zero (procs : List Proc) : ticketsBefore procs 0 = 0 := by
  simp [ticketsBefore]

@[simp] theorem ticketsBefore_cons_succ (p : Proc) (procs : List Proc) (k : Nat) :
    ticketsBefore (p :: procs) (k + 1) = slotTickets p + ticketsBefore procs k := by
  simp [ticketsBefore]

/-- Slot `k` ends inside the ticket sum. -/
theorem ticketsBefore_add_le {k : Nat}
    (hk : procs[k]? = some p) :
    ticketsBefore procs k + slotTickets p ≤ ticketSum procs := by
  induction procs generalizing k with
  | nil => simp at hk
  | cons q procs ih =>
    cases k with
    | zero =>
      simp only [List.getElem?_cons_zero, Option.some.injEq] at hk
      simp [hk]
    | succ k =>
      simp only [List.getElem?_cons_succ] at hk
      have := ih hk
      simp only [ticketsBefore_cons_succ, ticketSum_cons]
      omega

/-- The second pass, as long as no prefix sum leaves the `int` range: a drawn
ticket selects slot `k` when it lies among the tickets of that slot. -/
theorem secondPass_eq_some (winner counter : BitVec 32) (i : Nat)
    {k : Nat} (hfit : counter.toNat + ticketSum procs < 2 ^ 31)
    (hk : procs[k]? = some p)
    (hlo : counter.toNat + ticketsBefore procs k ≤ winner.toNat)
    (hhi : winner.toNat < counter.toNat + ticketsBefore procs k + slotTickets p) :
    secondPass winner procs counter i = some (i + k) := by
  induction procs generalizing counter i k with
  | nil => simp at hk
  | cons q procs ih =>
    have hle := ticketsBefore_add_le hk
    rw [ticketSum_cons] at hfit hle
    have hwin : winner.toInt = winner.toNat := toInt_of_toNat_lt (by omega)
    have hadd : q.state = .RUNNABLE →
        (counter + q.tickets).toNat = counter.toNat + slotTickets q ∧
        (counter + q.tickets).toInt = counter.toNat + slotTickets q := by
      intro hq
      have hnat : (counter + q.tickets).toNat = counter.toNat + slotTickets q := by
        rw [slotTickets, if_pos hq] at hfit ⊢
        rw [BitVec.toNat_add, Nat.mod_eq_of_lt (by omega)]
      refine ⟨hnat, ?_⟩
      rw [toInt_of_toNat_lt (by omega), hnat]
      push_cast
      rfl
    cases k with
    | zero =>
      -- the drawn ticket belongs to the head, so the head is RUNNABLE
      simp only [List.getElem?_cons_zero, Option.some.injEq] at hk
      subst hk
      have hq : q.state = .RUNNABLE := by
        by_contra hq
        rw [slotTickets, if_neg hq] at hhi
        omega
      rw [ticketsBefore_zero] at hhi
      rw [secondPass, if_pos hq, if_pos]
      · rfl
      · rw [BitVec.slt_iff_toInt_lt, hwin, (hadd hq).2]
        omega
    | succ k =>
      simp only [List.getElem?_cons_succ] at hk
      rw [ticketsBefore_cons_succ] at hlo hhi
      have hidx : i + (k + 1) = i + 1 + k := by omega
      rw [secondPass, hidx]
      split
      · rename_i hq
        have hnat := (hadd hq).1
        rw [if_neg]
        · exact ih _ _ (by omega) hk (by omega) (by omega)
        · rw [BitVec.slt_iff_toInt_lt, hwin, (hadd hq).2]
          omega
      · rename_i hq
        rw [slotTickets, if_neg hq] at hfit hlo hhi
        exact ih _ _ (by omega) hk (by omega) (by omega)

/-- Every ticket below the sum belongs to a slot. -/
theorem exists_slot_of_lt (w : Nat) (hw : w < ticketSum procs) :
    ∃ k p, procs[k]? = some p ∧ ticketsBefore procs k ≤ w ∧
      w < ticketsBefore procs k + slotTickets p := by
  induction procs generalizing w with
  | nil => simp at hw
  | cons q procs ih =>
    by_cases h : w < slotTickets q
    · exact ⟨0, q, rfl, by simp, by simpa using h⟩
    · rw [ticketSum_cons] at hw
      obtain ⟨k, p, hk, hlo, hhi⟩ := ih (w - slotTickets q) (by omega)
      refine ⟨k + 1, p, by simpa using hk, ?_, ?_⟩ <;>
        rw [ticketsBefore_cons_succ] <;> omega

theorem runnable_of_slotTickets_pos (h : 0 < slotTickets p) :
    p.state = .RUNNABLE := by
  by_contra hp
  rw [slotTickets, if_neg hp] at h
  omega

/-- A RUNNABLE process with a valid ticket count makes the sum positive. -/
theorem ticketSum_pos (hv : ValidTickets procs)
    (hrun : ∃ p ∈ procs, p.state = .RUNNABLE) : 0 < ticketSum procs := by
  obtain ⟨p, hmem, hp⟩ := hrun
  obtain ⟨k, hk⟩ := List.mem_iff_getElem?.mp hmem
  have hle := ticketsBefore_add_le hk
  have := (toNat_lt_of_one_le_toInt (hv p hmem hp)).2
  rw [slotTickets, if_pos hp] at hle
  omega

/-! ## The draw -/

/-- The draw does what the scheduler promises: with a RUNNABLE process in the
table the total is the true and positive ticket sum, and every random value
leads the second pass to a RUNNABLE process. -/
def DrawCorrect (procs : List Proc) : Prop :=
  (∃ p ∈ procs, p.state = .RUNNABLE) →
    (firstPass procs).toInt =
        ((procs.filter (·.state = .RUNNABLE)).map (·.tickets.toInt)).sum ∧
      0 < (firstPass procs).toInt ∧
      ∀ r : BitVec 32, ∃ k p, secondPass (r % firstPass procs) procs 0 0 = some k ∧
        procs[k]? = some p ∧ p.state = .RUNNABLE

/-- The signed and the unsigned readings of the ticket sum agree. -/
theorem sum_toInt_eq_ticketSum (hv : ValidTickets procs) :
    ((procs.filter (·.state = .RUNNABLE)).map (·.tickets.toInt)).sum =
      (ticketSum procs : Int) := by
  induction procs with
  | nil => rfl
  | cons p procs ih =>
    have hrest := ih (fun q hq => hv q (List.mem_cons_of_mem _ hq))
    rw [ticketSum_cons, slotTickets]
    by_cases hp : p.state = .RUNNABLE
    · have hlt := (toNat_lt_of_one_le_toInt (hv p (by simp) hp)).1
      rw [List.filter_cons_of_pos (by simpa using hp), List.map_cons, List.sum_cons, hrest,
        if_pos hp, toInt_of_toNat_lt hlt]
      push_cast
      rfl
    · rw [List.filter_cons_of_neg (by simpa using hp), hrest, if_neg hp, Nat.zero_add]

/-- The draw is correct exactly when the tickets of the RUNNABLE processes add
up to an `int`. -/
theorem drawCorrect_iff (procs : List Proc) (hv : ValidTickets procs) :
    DrawCorrect procs ↔ ticketSum procs < 2 ^ 31 := by
  constructor
  · intro h
    by_cases hrun : ∃ p ∈ procs, p.state = .RUNNABLE
    · obtain ⟨htotal, -, -⟩ := h hrun
      rw [sum_toInt_eq_ticketSum hv] at htotal
      exact (firstPass_toInt_eq_iff procs).mp htotal
    · have hzero : ticketSum procs = 0 := by
        rw [ticketSum]
        apply List.sum_eq_zero
        intro n hn
        obtain ⟨p, hmem, rfl⟩ := List.mem_map.mp hn
        rw [slotTickets, if_neg (fun hp => hrun ⟨p, hmem, hp⟩)]
      omega
  · intro hfit hrun
    have hpos := ticketSum_pos hv hrun
    have htotal := (firstPass_toInt_eq_iff procs).mpr hfit
    refine ⟨by rw [htotal, sum_toInt_eq_ticketSum hv], by omega, fun r => ?_⟩
    have hnat : (firstPass procs).toNat = ticketSum procs := by
      rw [firstPass_toNat, Nat.mod_eq_of_lt (by omega)]
    have hw : (r % firstPass procs).toNat < ticketSum procs := by
      rw [BitVec.toNat_umod, hnat]
      exact Nat.mod_lt _ hpos
    obtain ⟨k, p, hk, hlo, hhi⟩ := exists_slot_of_lt _ hw
    refine ⟨k, p, ?_, hk, runnable_of_slotTickets_pos (by omega)⟩
    have hzero : (0 : BitVec 32).toNat = 0 := rfl
    have hsel := secondPass_eq_some (r % firstPass procs) 0 0
      (by omega) hk (by omega) (by omega)
    rw [hsel, Nat.zero_add]

/-- A table whose four RUNNABLE processes hold `2 ^ 30` tickets each. -/
def fourRichProcs : List Proc :=
  List.replicate 4 { state := .RUNNABLE, pid := 1, tickets := 0x40000000 } ++
    List.replicate (NPROC - 4) ({} : Proc)

/-- The witness table of `drawCorrect_iff`: the tickets of `testlottery`. -/
theorem drawCorrect_testlottery :
    DrawCorrect ([30, 20, 10].map fun n => { state := .RUNNABLE, pid := 1, tickets := n }) :=
  (drawCorrect_iff _ (by unfold ValidTickets; decide)).mpr (by decide)

/-- The sum `4 * 2 ^ 30` wraps to zero, so the scheduler idles although four
processes are RUNNABLE. -/
theorem not_drawCorrect_fourRichProcs :
    ValidTickets fourRichProcs ∧ firstPass fourRichProcs = 0 ∧
      ¬ DrawCorrect fourRichProcs := by
  have hzero : firstPass fourRichProcs = 0 := by decide +kernel
  refine ⟨by unfold ValidTickets; decide +kernel, hzero, fun h => ?_⟩
  obtain ⟨-, hpos, -⟩ := h (by decide +kernel)
  rw [hzero] at hpos
  exact absurd hpos (by decide)

end Xv6.Sched
