import Xv6.Console.Line

/-!
# Console input is delivered once

What readers have consumed, together with what they may still take, is what was
committed, as long as readers can be given what they read.

* `Account`: the bytes committed are those consumed, those lost and those that
  are still in the buffer; without losses they are so in order.
* `Ends`: an end of file is consumed by a read that returns 0, and is never
  stored; `readLoop_ends` and `ends_step`.
* `toStore`, `Writable`: what a read stores of the bytes that are ready, and that it
  can store them.
* `readLoop_lost`, `lost_eq_nil_iff`: no byte is lost exactly if it can.
* `delivered_iff`: so input is delivered exactly once in the runs in which reads are to
  memory that can be written, and only in those (`lost_line`).
-/

namespace Xv6.Console

open Xv6.Lib.Fifo Xv6.Lib.Run

variable {s s' : Sys} {as : List Act}

/-! ## The account -/

/-- The bytes committed, by what has become of them. -/
structure Account (s : Sys) (ready : List UInt8) : Prop where
  shows : Shows s.cons ready s.typing
  line : newline ∉ s.typing
  length : s.committed.length = (consumed s.log).length + s.lost.length + ready.length
  order : s.lost = [] → s.committed = consumed s.log ++ ready

theorem account_init : Account init [] := by
  obtain ⟨ready, hshows, hline⟩ := lineOk_init
  obtain rfl : ready = [] := by
    rw [← hshows.r_eq_w]
    rfl
  exact ⟨hshows, hline, rfl, fun _ => rfl⟩

theorem consumed_append (l l' : List Event) : consumed (l ++ l') = consumed l ++ consumed l' :=
  List.filterMap_append

theorem account_step {a : Act} {ready : List UInt8} (h : Account s ready)
    (hstep : step s a = some s') : ∃ ready', Account s' ready' := by
  cases a with
  | intr ch =>
    cases hstep
    rcases consoleintr_typed h.shows h.line ch with ⟨hr, ⟨hw, htyped, hopen⟩ | ⟨hw, htyped⟩⟩
    · obtain ⟨hcons, hcommitted, htyping⟩ := intr_of_eq hw
      obtain ⟨hlog, hlost, -⟩ := intr_log s ch
      refine ⟨ready, ?_, ?_, ?_, ?_⟩
      · rw [hcons, htyping]
        exact htyped
      · rw [htyping]
        exact hopen
      · rw [hcommitted, hlog, hlost]
        exact h.length
      · rw [hcommitted, hlog, hlost]
        exact h.order
    · -- the line goes over to the bytes that may be read
      have hcount := h.shows.count
      rw [← hr] at hcount
      have hnew := htyped.between_eq hcount
      rw [intr_of_ne hw, hnew]
      refine ⟨_, htyped, List.not_mem_nil, ?_, fun hlost => ?_⟩
      · have := h.length
        simp only [List.length_append] at this ⊢
        omega
      · show s.committed ++ _ = consumed s.log ++ _
        rw [h.order hlost, List.append_assoc]
  | read i dst n =>
    obtain ⟨-, rfl⟩ := of_guard hstep
    exact ⟨ready, h.shows, h.line, h.length, h.order⟩
  | run i killed copies =>
    rw [step] at hstep
    split at hstep
    · cases hstep
    · next rd hrd =>
      cases hstep
      obtain ⟨-, -, rest, rfl, htaken⟩ :=
        readLoop_taken i killed copies rd.target rd.n rd.dst h.shows
      refine ⟨rest, htaken, h.line, ?_, fun hlost => ?_⟩
      · have := h.length
        simp only [consumed_append, List.length_append] at this ⊢
        omega
      · obtain ⟨hlost, hnew⟩ := List.append_eq_nil_iff.mp hlost
        show s.committed = _
        rw [h.order hlost, consumed_append, hnew, List.append_nil, List.append_assoc]

/-! ## The end of file -/

/-- In a log, an end of file is consumed by a read that then returns 0, and is not
stored. -/
structure Ends (log : List Event) : Prop where
  returns : ∀ k i, log[k]? = some (.eof i) → log[k + 1]? = some (.returned i 0)
  stored : ∀ i dst, .stored i dst ctrlD ∉ log

theorem Ends.append {l l' : List Event} (h : Ends l) (h' : Ends l') : Ends (l ++ l') := by
  refine ⟨fun k i hk => ?_, fun i dst hmem => ?_⟩
  · rcases Nat.lt_or_ge k l.length with hlt | hge
    · rw [List.getElem?_append_left hlt] at hk
      have hnext := h.returns k i hk
      obtain ⟨hlt', -⟩ := List.getElem?_eq_some_iff.mp hnext
      rw [List.getElem?_append_left hlt', hnext]
    · rw [List.getElem?_append_right hge] at hk
      rw [List.getElem?_append_right (by omega), show k + 1 - l.length = k - l.length + 1 by omega]
      exact h'.returns _ i hk
  · rcases List.mem_append.mp hmem with hmem | hmem
    · exact h.stored i dst hmem
    · exact h'.stored i dst hmem

theorem ends_nil : Ends [] :=
  ⟨fun _ _ hk => by simp at hk, fun _ _ => List.not_mem_nil⟩

theorem ends_returned (i : Nat) (v : Int) : Ends [.returned i v] := by
  refine ⟨fun k j hk => ?_, fun j dst => by simp⟩
  cases k with
  | zero => simp at hk
  | succ k => simp at hk

theorem ends_stored {i dst : Nat} {ch : UInt8} (hch : ch ≠ ctrlD) : Ends [.stored i dst ch] := by
  refine ⟨fun k j hk => ?_, fun j dst' => by simpa using fun _ _ => hch.symm⟩
  cases k with
  | zero => simp at hk
  | succ k => simp at hk

theorem ends_eof (i : Nat) : Ends [.eof i, .returned i 0] := by
  refine ⟨fun k j hk => ?_, fun j dst => by simp⟩
  rcases k with _ | _ | k
  · simp at hk ⊢
    exact hk
  · simp at hk
  · simp at hk

/-- A read consumes an end of file only if it has stored nothing. -/
theorem readLoop_ends (i : Nat) (killed : Bool) (copies : Nat → Bool) (target n : Nat) :
    ∀ (dst : Nat) (c : Cons), n ≤ target →
      Ends (readLoop i killed copies target n dst c).log ∧
        ∀ rd, (readLoop i killed copies target n dst c).rest = some rd → rd.n ≤ rd.target := by
  induction n with
  | zero => exact fun _ _ _ => ⟨ends_returned i _, by simp [readLoop]⟩
  | succ n ih =>
    intro dst c hn
    rw [readLoop]
    split
    · split
      · exact ⟨ends_returned i _, by simp⟩
      · exact ⟨ends_nil, by rintro rd ⟨⟩; exact hn⟩
    dsimp only
    split
    · split
      · exact ⟨ends_returned i _, by simp⟩
      · have hzero : (target : Int) - (n + 1) = 0 := by omega
        rw [hzero]
        exact ⟨ends_eof i, by simp⟩
    next hD =>
    split
    · split
      · exact ⟨(ends_stored hD).append (ends_returned i _), by simp⟩
      · obtain ⟨hends, hrest⟩ := ih (dst + 1) { c with r := c.r + 1 } (by omega)
        exact ⟨(ends_stored hD).append hends, hrest⟩
    · exact ⟨ends_returned i _, by simp⟩

/-- No call wants more bytes than it wanted at first. -/
def ReadsOk (s : Sys) : Prop :=
  ∀ i rd, s.reads i = some rd → rd.n ≤ rd.target

theorem ends_step {a : Act} (h : ReadsOk s ∧ Ends s.log) (hstep : step s a = some s') :
    ReadsOk s' ∧ Ends s'.log := by
  cases a with
  | intr ch =>
    cases hstep
    obtain ⟨hlog, -, hreads⟩ := intr_log s ch
    rw [ReadsOk, hlog, hreads]
    exact h
  | read i dst n =>
    obtain ⟨-, rfl⟩ := of_guard hstep
    refine ⟨fun j rd hrd => ?_, h.2⟩
    dsimp only at hrd
    rcases eq_or_ne j i with rfl | hne
    · rw [Function.update_self] at hrd
      cases hrd
      exact Nat.le_refl _
    · rw [Function.update_of_ne hne] at hrd
      exact h.1 j rd hrd
  | run i killed copies =>
    rw [step] at hstep
    split at hstep
    · cases hstep
    · next rd hrd =>
      cases hstep
      obtain ⟨hends, hrest⟩ :=
        readLoop_ends i killed copies rd.target rd.n rd.dst s.cons (h.1 i rd hrd)
      refine ⟨fun j rd' hrd' => ?_, h.2.append hends⟩
      dsimp only at hrd'
      rcases eq_or_ne j i with rfl | hne
      · rw [Function.update_self] at hrd'
        exact hrest rd' hrd'
      · rw [Function.update_of_ne hne] at hrd'
        exact h.1 j rd' hrd'

/-! ## Failed copies -/

/-- What a read of at most `n` bytes stores of the bytes that are ready: the bytes up to a
newline, and nothing from an end of file on. -/
def toStore : Nat → List UInt8 → List UInt8
  | n + 1, ch :: ready =>
    if ch = ctrlD then [] else if ch = newline then [ch] else ch :: toStore n ready
  | _, _ => []

/-- A reader that goes on can write to the addresses of the bytes it is to get. -/
def Writable (s : Sys) : Act → Prop
  | .run i _ copies => ∀ rd, s.reads i = some rd →
      ∀ k < (toStore rd.n (s.cons.between s.cons.r s.cons.w)).length, copies (rd.dst + k) = true
  | _ => True

theorem Cons.between_pop {c : Cons} (h : c.r ≠ c.w) :
    c.between c.r c.w = c.at c.r :: c.between (c.r + 1) c.w := by
  rw [between, ← toNat_sub_pop h, cells_pop, between, cells_toNat_add_one size_dvd (by decide)]
  rfl

/-- The loop loses a byte exactly if it cannot store one. -/
theorem readLoop_lost (i : Nat) (killed : Bool) (copies : Nat → Bool) (target n : Nat) :
    ∀ (dst : Nat) (c : Cons), (readLoop i killed copies target n dst c).lost = [] ↔
      ∀ k < (toStore n (c.between c.r c.w)).length, copies (dst + k) = true := by
  induction n with
  | zero => exact fun dst c => by simp [readLoop, toStore]
  | succ n ih =>
    intro dst c
    rw [readLoop]
    by_cases hempty : c.r = c.w
    · have hnone : c.between c.r c.w = [] := by simp [Cons.between, hempty, cells]
      rw [if_pos hempty, hnone]
      split <;> simp [toStore]
    rw [if_neg hempty, Cons.between_pop hempty, toStore]
    dsimp only
    by_cases hD : c.at c.r = ctrlD
    · rw [if_pos hD, if_pos hD]
      split <;> simp
    rw [if_neg hD, if_neg hD]
    by_cases hcopy : copies dst = true
    · rw [if_pos hcopy]
      split
      · simpa using hcopy
      · rw [List.length_cons, Nat.forall_lt_succ_left,
          and_iff_right (show copies (dst + 0) = true from hcopy)]
        refine (ih (dst + 1) { c with r := c.r + 1 }).trans ?_
        simp only [Nat.add_assoc, Nat.add_comm 1]
        rfl
    · rw [if_neg hcopy]
      refine iff_of_false (by simp) fun hall => hcopy (hall 0 ?_)
      split <;> simp

theorem lost_step {a : Act} (hstep : step s a = some s') :
    s'.lost = [] ↔ s.lost = [] ∧ Writable s a := by
  cases a with
  | intr ch =>
    cases hstep
    rw [(intr_log s ch).2.1]
    exact (and_true _).symm ▸ Iff.rfl
  | read i dst n =>
    obtain ⟨-, rfl⟩ := of_guard hstep
    exact (and_true _).symm ▸ Iff.rfl
  | run i killed copies =>
    rw [step] at hstep
    split at hstep
    · cases hstep
    · next rd hrd =>
      cases hstep
      show s.lost ++ _ = [] ↔ _
      rw [List.append_eq_nil_iff, readLoop_lost]
      refine and_congr_right fun _ => ⟨fun hlost rd' hrd' => ?_, fun h => h rd hrd⟩
      rw [hrd] at hrd'
      cases hrd'
      exact hlost

theorem lost_eq_nil_iff (hexec : exec step s as = some s') :
    s'.lost = [] ↔ s.lost = [] ∧ StepsMeet step Writable s as := by
  induction as generalizing s with
  | nil =>
    cases hexec
    exact ⟨fun h => ⟨h, trivial⟩, fun h => h.1⟩
  | cons a as ih =>
    obtain ⟨u, hu, hrest⟩ := exec_cons_eq_some hexec
    rw [ih hrest, lost_step hu, and_assoc]
    refine and_congr_right fun _ =>
      ⟨fun ⟨ha, has⟩ => ⟨ha, fun t ht => ?_⟩, fun h => ⟨h.1, h.2 u hu⟩⟩
    rw [hu] at ht
    cases ht
    exact has

/-! ## Exactly once -/

/-- The bytes that readers consumed and those that are still there are the bytes
committed, in order, and every end of file made one read return 0. -/
def Delivered (s : Sys) : Prop :=
  s.committed = consumed s.log ++ s.cons.between s.cons.r s.cons.w ∧ Ends s.log

/-- Input is delivered exactly once in the runs in which readers can write to the addresses
of the bytes that they are to get, and only in those. -/
theorem delivered_iff (hexec : exec step init as = some s) :
    Delivered s ↔ StepsMeet step Writable init as := by
  obtain ⟨ready, haccount⟩ := inv_of_run (I := fun s => ∃ ready, Account s ready)
    (fun _ _ _ ⟨_, h⟩ hstep => account_step h hstep) ⟨[], account_init⟩ hexec
  have hends := inv_of_run (I := fun s => ReadsOk s ∧ Ends s.log)
    (fun _ _ _ h hstep => ends_step h hstep) ⟨fun _ _ h => by simp [init] at h, ends_nil⟩ hexec
  have hlost : s.lost = [] ↔ StepsMeet step Writable init as :=
    (lost_eq_nil_iff hexec).trans (and_iff_right rfl)
  rw [← hlost, Delivered, haccount.shows.ready_eq]
  refine ⟨fun h => ?_, fun h => ⟨haccount.order h, hends.2⟩⟩
  -- a lost byte is missing from the account
  have hlength := haccount.length
  rw [h.1, List.length_append] at hlength
  exact List.length_eq_zero_iff.mp (by omega)

theorem delivered_iff_typeAndRead : ∃ s, exec step init typeAndRead = some s ∧ Delivered s := by
  have hcheck : runCheck step (fun _ _ => true) (fun s => s.lost == []) init typeAndRead =
      true := by
    decide +kernel
  obtain ⟨-, s, hexec, hlost⟩ := of_runCheck hcheck
  exact ⟨s, hexec, (delivered_iff hexec).mpr ((lost_eq_nil_iff hexec).mp (by simpa using hlost)).2⟩

/-- A line of one letter is read to an address that is not mapped: the read
returns 0, and the next one gets the newline. -/
def readUnmapped : List Act :=
  [.intr 0x68, .intr newline, .read 0 0 10, .run 0 false fun _ => false, .read 0 4096 10,
    .run 0 false fun _ => true]

theorem lost_line : ∃ s, exec step init readUnmapped = some s ∧ s.committed = [0x68, newline] ∧
    s.log = [.returned 0 0, .stored 0 4096 newline, .returned 0 1] ∧ ¬ Delivered s := by
  have hcheck : runCheck step (fun _ _ => true) (fun s => s.committed == [0x68, newline] &&
      s.log == [.returned 0 0, .stored 0 4096 newline, .returned 0 1] &&
      s.cons.between s.cons.r s.cons.w == []) init readUnmapped = true := by
    decide +kernel
  obtain ⟨-, s, hexec, hend⟩ := of_runCheck hcheck
  simp only [Bool.and_eq_true, beq_iff_eq] at hend
  obtain ⟨⟨hcommitted, hlog⟩, hrest⟩ := hend
  refine ⟨s, hexec, hcommitted, hlog, fun h => ?_⟩
  have heq := h.1
  rw [hcommitted, hlog, hrest] at heq
  exact absurd heq (by decide)

end Xv6.Console
