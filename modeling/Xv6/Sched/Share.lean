import Xv6.Lib.Affine
import Xv6.Lib.Count
import Xv6.Sched.Lottery

/-!
# The share of a process over a full period of the generator

One CPU runs the loop of `scheduler` over a fixed set of RUNNABLE processes:
each round draws a ticket, dispatches its owner, and the process yields before
the next draw.  `rand_next` is an affine generator modulo `2 ^ 32` with full
period, so `2 ^ 32` consecutive draws take every 32-bit value once, and each
process gets the values whose remainder modulo the ticket total falls among
its tickets.

* `schedRound` is one round of the loop, `roundStep` the round followed by the
  `yield` of the dispatched process.
* `randNext_iterate_injOn` is the full period, taken from `Xv6.Lib.Affine`.
* `schedRound_dispatch_iff` says which draws dispatch a process.
* `proportional_share` counts them.
* `randValues_perm`: the low bits of consecutive values; `rand_next_equidistributed`
  says what this means for the draws.
-/

namespace Xv6.Sched

open Xv6.Lib

variable {i k : Nat} {p : Proc} {ps qs : List Proc}

/-! ## One round -/

/-- `rand_next`: the new state is also the value returned. -/
def randNext (randState : BitVec 32) : BitVec 32 := randState * 1664525 + 1013904223

/-- The state of the lottery: the generator and the process table. -/
structure Lottery where
  randState : BitVec 32
  procs : List Proc

variable {s : Lottery}

/-- One round of `scheduler`, with the slot it dispatches. -/
def schedRound (s : Lottery) : Lottery × Option Nat :=
  let total := firstPass s.procs
  if total = 0 then (s, none)
  else
    let r := randNext s.randState
    match secondPass (r % total) s.procs 0 0 with
    | none => ({ s with randState := r }, none)
    | some i => ({ randState := r, procs := s.procs.modify i dispatch }, some i)

/-- A round after which the dispatched process yields. -/
def roundStep (s : Lottery) : Lottery :=
  match schedRound s with
  | (s', none) => s'
  | (s', some i) => { s' with procs := s'.procs.modify i yield }

/-- How often slot `i` is dispatched in `n` rounds. -/
def dispatches (s : Lottery) (n i : Nat) : Nat :=
  Nat.count (fun k => (schedRound (roundStep^[k] s)).2 = some i) n

/-! ## The period of `rand_next` -/

/-- The generator modulo `2 ^ k`, for the low `k` bits of its state. -/
theorem randNext_cast (hk : k ≤ 32) (x : BitVec 32) :
    ((randNext x).toNat : ZMod (2 ^ k)) =
      Affine.affine 1664525 1013904223 (x.toNat : ZMod (2 ^ k)) := by
  have hdvd : 2 ^ k ∣ 2 ^ 32 := Nat.pow_dvd_pow 2 hk
  have hcast : ∀ n : Nat, ((n % 2 ^ 32 : Nat) : ZMod (2 ^ k)) = n := by
    intro n
    rw [ZMod.natCast_eq_natCast_iff]
    exact (Nat.mod_modEq n (2 ^ 32)).of_dvd hdvd
  rw [randNext, BitVec.toNat_add, BitVec.toNat_mul, Affine.affine, hcast, Nat.cast_add, hcast,
    Nat.cast_mul]
  push_cast
  rw [mul_comm]

theorem randNext_iterate_cast (hk : k ≤ 32) (m : Nat) (x : BitVec 32) :
    ((randNext^[m] x).toNat : ZMod (2 ^ k)) =
      (Affine.affine 1664525 1013904223)^[m] (x.toNat : ZMod (2 ^ k)) := by
  induction m generalizing x with
  | zero => rfl
  | succ m ih => rw [Function.iterate_succ_apply, Function.iterate_succ_apply, ih, randNext_cast hk]

/-- The low `k` bits of `2 ^ k` consecutive states are pairwise different. -/
theorem randNext_iterate_injOn (hk : k ≤ 32) (x : BitVec 32) {j : Nat}
    (hi : i < 2 ^ k) (hj : j < 2 ^ k)
    (h : (randNext^[i] x).toNat % 2 ^ k = (randNext^[j] x).toNat % 2 ^ k) : i = j := by
  refine Affine.iterate_affine_injOn (a := 1664525) (c := 1013904223) (by decide) (by decide)
    (x.toNat : ZMod (2 ^ k)) hi hj ?_
  rw [← randNext_iterate_cast hk, ← randNext_iterate_cast hk]
  exact (ZMod.natCast_eq_natCast_iff' _ _ _).mpr h

/-- Over `2 ^ 32` rounds a property of the drawn value holds as often as among
all 32-bit values. -/
theorem count_randNext (x : BitVec 32) (P : Nat → Prop) [DecidablePred P] :
    Nat.count (fun k => P (randNext (randNext^[k] x)).toNat) (2 ^ 32) = Nat.count P (2 ^ 32) := by
  refine Count.count_comp_of_injOn (f := fun k => (randNext (randNext^[k] x)).toNat)
    (fun i _ => BitVec.isLt _) ?_ P
  intro i hi j hj h
  refine randNext_iterate_injOn (Nat.le_refl 32) (randNext x) hi hj ?_
  rw [← Function.iterate_succ_apply, ← Function.iterate_succ_apply, Function.iterate_succ_apply',
    Function.iterate_succ_apply']
  exact congrArg (· % 2 ^ 32) h

/-! ## Rounds over a fixed set of processes -/

/-- What a draw reads of a table entry. -/
def drawView (p : Proc) : ProcState × BitVec 32 := (p.state, p.tickets)

theorem slotTickets_congr {q : Proc} (h : drawView p = drawView q) :
    slotTickets p = slotTickets q := by
  simp only [drawView, Prod.mk.injEq] at h
  rw [slotTickets, slotTickets, h.1, h.2]

theorem map_slotTickets_congr (h : ps.map drawView = qs.map drawView) :
    ps.map slotTickets = qs.map slotTickets := by
  induction ps generalizing qs with
  | nil => cases qs <;> simp_all
  | cons p ps ih =>
    cases qs with
    | nil => simp at h
    | cons q qs =>
      simp only [List.map_cons, List.cons.injEq] at h ⊢
      exact ⟨slotTickets_congr h.1, ih h.2⟩

theorem ticketSum_congr (h : ps.map drawView = qs.map drawView) :
    ticketSum ps = ticketSum qs := by
  rw [ticketSum, ticketSum, map_slotTickets_congr h]

theorem ticketsBefore_congr (h : ps.map drawView = qs.map drawView) (k : Nat) :
    ticketsBefore ps k = ticketsBefore qs k := by
  apply ticketSum_congr
  rw [List.map_take, List.map_take, h]

theorem drawView_getElem?_congr (h : ps.map drawView = qs.map drawView)
      (hk : ps[k]? = some p) :
    ∃ q, qs[k]? = some q ∧ drawView q = drawView p := by
  have hmap : (qs.map drawView)[k]? = some (drawView p) := by
    rw [← h, List.getElem?_map, hk]
    rfl
  rw [List.getElem?_map, Option.map_eq_some_iff] at hmap
  exact hmap

/-- The ticket that a round draws. -/
def drawnTicket (s : Lottery) : Nat := (randNext s.randState).toNat % ticketSum s.procs

/-- A round over tickets that fit an `int` dispatches the owner of the drawn
ticket. -/
theorem schedRound_eq (hfit : ticketSum s.procs < 2 ^ 31)
    (hk : s.procs[k]? = some p) (hlo : ticketsBefore s.procs k ≤ drawnTicket s)
    (hhi : drawnTicket s < ticketsBefore s.procs k + slotTickets p) :
    schedRound s =
      ({ randState := randNext s.randState, procs := s.procs.modify k dispatch }, some k) := by
  have hle := ticketsBefore_add_le hk
  have hnat : (firstPass s.procs).toNat = ticketSum s.procs := by
    rw [firstPass_toNat, Nat.mod_eq_of_lt (by omega)]
  have hne : firstPass s.procs ≠ 0 := by
    intro h
    rw [h] at hnat
    have hzero : (0 : BitVec 32).toNat = 0 := rfl
    omega
  have hwin : (randNext s.randState % firstPass s.procs).toNat = drawnTicket s := by
    rw [BitVec.toNat_umod, hnat, drawnTicket]
  have hzero : (0 : BitVec 32).toNat = 0 := rfl
  have hsel := secondPass_eq_some (randNext s.randState % firstPass s.procs) 0 0
    (by omega) hk (by omega) (by omega)
  rw [Nat.zero_add] at hsel
  simp only [schedRound, if_neg hne, hsel]

/-- A round dispatches a process exactly when the drawn ticket is one of its
own. -/
theorem schedRound_dispatch_iff (hpos : 0 < ticketSum s.procs)
    (hfit : ticketSum s.procs < 2 ^ 31) (hi : s.procs[i]? = some p) :
    (schedRound s).2 = some i ↔
      ticketsBefore s.procs i ≤ drawnTicket s ∧
        drawnTicket s < ticketsBefore s.procs i + slotTickets p := by
  constructor
  · intro h
    obtain ⟨k, q, hk, hlo, hhi⟩ := exists_slot_of_lt (drawnTicket s) (Nat.mod_lt _ hpos)
    rw [schedRound_eq hfit hk hlo hhi, Option.some.injEq] at h
    subst h
    rw [hi, Option.some.injEq] at hk
    subst hk
    exact ⟨hlo, hhi⟩
  · rintro ⟨hlo, hhi⟩
    rw [schedRound_eq hfit hi hlo hhi]

/-- The round counts one tick for the process it dispatches, and leaves the
table as it was otherwise. -/
theorem roundStep_eq (hpos : 0 < ticketSum s.procs)
    (hfit : ticketSum s.procs < 2 ^ 31) :
    ∃ k, (schedRound s).2 = some k ∧
      roundStep s = { randState := randNext s.randState,
                      procs := s.procs.modify k fun p => { p with ticks := p.ticks + 1 } } := by
  obtain ⟨k, q, hk, hlo, hhi⟩ := exists_slot_of_lt (drawnTicket s) (Nat.mod_lt _ hpos)
  have hround := schedRound_eq hfit hk hlo hhi
  refine ⟨k, by rw [hround], ?_⟩
  have hq : q.state = .RUNNABLE := runnable_of_slotTickets_pos (by omega)
  have hmod : (s.procs.modify k dispatch).modify k yield =
      s.procs.modify k fun p => { p with ticks := p.ticks + 1 } := by
    apply List.ext_getElem?
    intro j
    by_cases hj : k = j
    · subst hj
      simp [hk, dispatch, yield, ← hq]
    · simp [hj]
  simp only [roundStep, hround, hmod]

/-- Every state of a run has the generator advanced once per round, and the
same processes with the same tickets. -/
theorem roundStep_iterate (hpos : 0 < ticketSum s.procs)
    (hfit : ticketSum s.procs < 2 ^ 31) (k : Nat) :
    (roundStep^[k] s).randState = randNext^[k] s.randState ∧
      (roundStep^[k] s).procs.map drawView = s.procs.map drawView := by
  induction k with
  | zero => exact ⟨rfl, rfl⟩
  | succ k ih =>
    obtain ⟨hrand, hview⟩ := ih
    rw [Function.iterate_succ_apply', Function.iterate_succ_apply']
    have hsum := ticketSum_congr hview
    obtain ⟨j, -, hstep⟩ := roundStep_eq (s := roundStep^[k] s) (by omega) (by omega)
    refine ⟨by rw [hstep, hrand], ?_⟩
    rw [hstep, ← hview]
    apply List.ext_getElem?
    intro i
    rw [List.getElem?_map, List.getElem?_map, List.getElem?_modify, Option.map_eq_map,
      Option.map_map]
    congr 1
    funext p
    by_cases hj : j = i <;> simp [hj, drawView]

theorem dispatches_eq_count (hpos : 0 < ticketSum s.procs)
    (hfit : ticketSum s.procs < 2 ^ 31) (hi : s.procs[i]? = some p) (n : Nat) :
    dispatches s n i =
      Nat.count (fun k => ticketsBefore s.procs i ≤
          (randNext (randNext^[k] s.randState)).toNat % ticketSum s.procs ∧
        (randNext (randNext^[k] s.randState)).toNat % ticketSum s.procs <
          ticketsBefore s.procs i + slotTickets p) n := by
  rw [dispatches]
  congr 1
  funext k
  obtain ⟨hrand, hview⟩ := roundStep_iterate hpos hfit k
  have hsum := ticketSum_congr hview
  obtain ⟨q, hq, hqv⟩ := drawView_getElem?_congr hview.symm hi
  rw [schedRound_dispatch_iff (by omega) (by omega) hq, drawnTicket, hrand, hsum,
    ticketsBefore_congr hview, slotTickets_congr hqv]

/-- The `ticks` of a process count its dispatches. -/
theorem ticks_roundStep_iterate (hpos : 0 < ticketSum s.procs)
    (hfit : ticketSum s.procs < 2 ^ 31) (hi : s.procs[i]? = some p) (n : Nat) :
    (roundStep^[n] s).procs[i]? =
      some { p with ticks := p.ticks + BitVec.ofNat 32 (dispatches s n i) } := by
  induction n with
  | zero => simp [hi, dispatches]
  | succ n ih =>
    obtain ⟨-, hview⟩ := roundStep_iterate hpos hfit n
    have hsum := ticketSum_congr hview
    obtain ⟨k, hk, hstep⟩ := roundStep_eq (s := roundStep^[n] s) (by omega) (by omega)
    rw [Function.iterate_succ_apply', hstep, List.getElem?_modify, ih, dispatches, dispatches,
      Nat.count_succ, hk]
    by_cases hki : k = i
    · simp [hki, BitVec.ofNat_add, BitVec.add_assoc]
    · simp [hki]

/-- Over any `2 ^ 32` consecutive rounds a process
with `t` of `T` tickets is dispatched between `t * ⌊2 ^ 32 / T⌋` and
`t * ⌈2 ^ 32 / T⌉` times, at least once, and its `ticks` grow by that number. -/
theorem proportional_share (s : Lottery) (hv : ValidTickets s.procs)
    (hfit : ticketSum s.procs < 2 ^ 31) (i : Nat) (p : Proc) (hi : s.procs[i]? = some p)
    (hp : p.state = .RUNNABLE) :
    p.tickets.toNat * (2 ^ 32 / ticketSum s.procs) ≤ dispatches s (2 ^ 32) i ∧
      dispatches s (2 ^ 32) i ≤
        p.tickets.toNat * ((2 ^ 32 + ticketSum s.procs - 1) / ticketSum s.procs) ∧
      0 < dispatches s (2 ^ 32) i ∧
      (roundStep^[2 ^ 32] s).procs[i]? =
        some { p with ticks := p.ticks + BitVec.ofNat 32 (dispatches s (2 ^ 32) i) } := by
  have hmem := List.mem_of_getElem? hi
  have hpos := ticketSum_pos hv ⟨p, hmem, hp⟩
  have ht : slotTickets p = p.tickets.toNat := if_pos hp
  have hle := ticketsBefore_add_le hi
  have hcount : dispatches s (2 ^ 32) i =
      Nat.count (fun v => ticketsBefore s.procs i ≤ v % ticketSum s.procs ∧
        v % ticketSum s.procs < ticketsBefore s.procs i + p.tickets.toNat) (2 ^ 32) := by
    rw [dispatches_eq_count hpos hfit hi, ht]
    exact count_randNext s.randState (fun v => ticketsBefore s.procs i ≤ v % ticketSum s.procs ∧
      v % ticketSum s.procs < ticketsBefore s.procs i + p.tickets.toNat)
  rw [ht] at hle
  have hlower := Count.le_count_mod_interval hpos (2 ^ 32) hle
  rw [← hcount] at hlower
  refine ⟨hlower, ?_, ?_, ticks_roundStep_iterate hpos hfit hi _⟩
  · rw [hcount]
    exact Count.count_mod_interval_le hpos (2 ^ 32) hle
  · have hone := (toNat_lt_of_one_le_toInt (hv p hmem hp)).2
    have hdiv : 0 < 2 ^ 32 / ticketSum s.procs := Nat.div_pos (by omega) hpos
    exact Nat.lt_of_lt_of_le (Nat.mul_pos hone hdiv) hlower

/-- The three children of `testlottery`, with 30, 20 and 10 tickets. -/
def testlottery : Lottery where
  randState := 1
  procs := [30, 20, 10].map fun n => { state := .RUNNABLE, pid := 1, tickets := n }

/-- The child with 20 of the 60 tickets gets a third of the rounds. -/
theorem proportional_share_testlottery :
    20 * (2 ^ 32 / 60) ≤ dispatches testlottery (2 ^ 32) 1 ∧
      dispatches testlottery (2 ^ 32) 1 ≤ 20 * ((2 ^ 32 + 60 - 1) / 60) := by
  have h := proportional_share testlottery (by unfold ValidTickets; decide) (by decide) 1
    { state := .RUNNABLE, pid := 1, tickets := 20 } rfl rfl
  have hsum : ticketSum testlottery.procs = 60 := by decide
  rw [hsum] at h
  exact ⟨h.1, h.2.1⟩

/-! ## The low bits of consecutive values -/

/-- The values of `n` consecutive calls of `rand_next`, after `m` calls. -/
def randValues (randState : BitVec 32) (m n : Nat) : List (BitVec 32) :=
  (List.range n).map fun i => randNext (randNext^[m + i] randState)

theorem randValue_injOn (hk : k ≤ 32) (x : BitVec 32) (m : Nat) {j : Nat}
    (hi : i < 2 ^ k) (hj : j < 2 ^ k)
    (h : (randNext (randNext^[m + i] x)).toNat % 2 ^ k =
      (randNext (randNext^[m + j] x)).toNat % 2 ^ k) : i = j := by
  have hshift : ∀ n, randNext (randNext^[m + n] x) = randNext^[n] (randNext^[m + 1] x) := by
    intro n
    have hsum : m + n + 1 = n + (m + 1) := by omega
    calc randNext (randNext^[m + n] x) = randNext^[m + n + 1] x :=
          (Function.iterate_succ_apply' randNext (m + n) x).symm
      _ = randNext^[n] (randNext^[m + 1] x) := by rw [hsum, Function.iterate_add_apply]
  rw [hshift, hshift] at h
  exact randNext_iterate_injOn hk _ hi hj h

theorem randValues_lowBits (x : BitVec 32) (m k n : Nat) :
    (randValues x m n).map (·.toNat % 2 ^ k) =
      (List.range n).map fun i => (randNext (randNext^[m + i] x)).toNat % 2 ^ k := by
  rw [randValues, List.map_map]
  rfl

/-- Modulo `2 ^ k` they are each residue once. -/
theorem randValues_perm (hk : k ≤ 32) (x : BitVec 32) (m : Nat) :
    ((randValues x m (2 ^ k)).map (·.toNat % 2 ^ k)).Perm (List.range (2 ^ k)) := by
  rw [randValues_lowBits]
  apply List.Subperm.perm_of_length_le
  · apply List.Nodup.subperm
    · apply List.Nodup.map_on _ List.nodup_range
      intro i hi j hj h
      exact randValue_injOn hk x m (List.mem_range.mp hi) (List.mem_range.mp hj) h
    · intro v hv
      obtain ⟨i, -, rfl⟩ := List.mem_map.mp hv
      exact List.mem_range.mpr (Nat.mod_lt _ (Nat.two_pow_pos k))
  · rw [List.length_map]

/-- So every residue is that of exactly one of the values. -/
theorem existsUnique_randValue (hk : k ≤ 32) (x : BitVec 32) (m : Nat) {t : Nat}
    (ht : t < 2 ^ k) : ∃! i, i < 2 ^ k ∧ (randNext (randNext^[m + i] x)).toNat % 2 ^ k = t := by
  have hmem : t ∈ (randValues x m (2 ^ k)).map (·.toNat % 2 ^ k) :=
    (randValues_perm hk x m).mem_iff.mpr (List.mem_range.mpr ht)
  rw [randValues_lowBits] at hmem
  obtain ⟨i, hi, hval⟩ := List.mem_map.mp hmem
  refine ⟨i, ⟨List.mem_range.mp hi, hval⟩, fun j hj => ?_⟩
  exact randValue_injOn hk x m hj.1 (List.mem_range.mp hi) (hj.2.trans hval.symm)

/-- The values of any `2 ^ k` consecutive calls
of `rand_next` are, modulo `2 ^ k`, a permutation of the numbers below `2 ^ k`; so any
`2 ^ k` consecutive draws from `2 ^ k` tickets hit every ticket exactly once, whether
the total is taken as a word or the draws are those of the rounds of `scheduler`. -/
theorem rand_next_equidistributed (k : Nat) (hk : k ≤ 32) (x : BitVec 32) (m : Nat) :
    ((randValues x m (2 ^ k)).map (·.toNat % 2 ^ k)).Perm (List.range (2 ^ k)) ∧
    (∀ total : BitVec 32, total.toNat = 2 ^ k → ∀ t < total,
      ∃! i, i < 2 ^ k ∧ randNext (randNext^[m + i] x) % total = t) ∧
    ∀ s : Lottery, ticketSum s.procs = 2 ^ k → k < 31 → ∀ t < 2 ^ k,
      ∃! i, i < 2 ^ k ∧ drawnTicket (roundStep^[m + i] s) = t := by
  refine ⟨randValues_perm hk x m, fun total htotal t ht => ?_, fun s hsum hlt t ht => ?_⟩
  · have hval : ∀ i, randNext (randNext^[m + i] x) % total = t ↔
        (randNext (randNext^[m + i] x)).toNat % 2 ^ k = t.toNat := by
      intro i
      rw [← BitVec.toNat_inj, BitVec.toNat_umod, htotal]
    simp only [hval]
    rw [BitVec.lt_def, htotal] at ht
    exact existsUnique_randValue hk x m ht
  · have hpos : 0 < ticketSum s.procs := by
      rw [hsum]
      exact Nat.two_pow_pos k
    have hfit : ticketSum s.procs < 2 ^ 31 := by
      rw [hsum]
      exact Nat.pow_lt_pow_right (by decide) hlt
    have hdrawn : ∀ i, drawnTicket (roundStep^[m + i] s) =
        (randNext (randNext^[m + i] s.randState)).toNat % 2 ^ k := by
      intro i
      obtain ⟨hrand, hview⟩ := roundStep_iterate hpos hfit (m + i)
      rw [drawnTicket, hrand, ticketSum_congr hview, hsum]
    simp only [hdrawn]
    exact existsUnique_randValue hk s.randState m ht

/-- Eight consecutive values from the initial state of the generator. -/
theorem rand_next_equidistributed_eight :
    ((randValues 1 0 (2 ^ 3)).map (·.toNat % 2 ^ 3)).Perm (List.range (2 ^ 3)) :=
  (rand_next_equidistributed 3 (by decide) 1 0).1

end Xv6.Sched
