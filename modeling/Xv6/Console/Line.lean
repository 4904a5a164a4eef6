import Mathlib.Data.List.Induction
import Xv6.Console.Basic

/-!
# The line buffer

The buffer holds two lists of bytes: those that readers may take and the line
that is being typed.

* `Shows c ready line`: the buffer holds the two lists.  `Shows.push`,
  `Shows.commit`, `Shows.erase` and `Shows.pop` are the operations of the code.
* `edit`: what a character does to the line that is being typed.
* `Typed`: what `consoleintr` does, in terms of the two lists.
* `line_buffer`: the indices stay in order in every run, and the line is the
  result of editing.
-/

namespace Xv6.Console

open Xv6.Lib.Fifo Xv6.Lib.Run

variable {c : Cons} {ready line : List UInt8} {ch : UInt8}

/-! ## The two lists -/

/-- The bytes from `r` to `w` are `ready`, and those from `w` to `e` are `line`. -/
structure Shows (c : Cons) (ready line : List UInt8) : Prop where
  count : (c.w - c.r).toNat = ready.length
  total : (c.e - c.r).toNat = ready.length + line.length
  bounded : ready.length + line.length ≤ INPUT_BUF_SIZE
  bytes : cells INPUT_BUF_SIZE c.buf c.r.toNat (ready.length + line.length) = ready ++ line

theorem size_dvd : INPUT_BUF_SIZE ∣ 2 ^ 32 := by decide

theorem Shows.length_line (h : Shows c ready line) : (c.e - c.w).toNat = line.length := by
  have hcount := h.count
  have htotal := h.total
  bv_omega

theorem Shows.r_eq_w (h : Shows c ready line) : c.r = c.w ↔ ready = [] := by
  rw [← List.length_eq_zero_iff, ← h.count]
  bv_omega

theorem Shows.e_eq_w (h : Shows c ready line) : c.e = c.w ↔ line = [] := by
  rw [← List.length_eq_zero_iff, ← h.length_line]
  bv_omega

/-- The bytes that readers may take. -/
theorem Shows.ready_eq (h : Shows c ready line) : c.between c.r c.w = ready := by
  have hbytes := h.bytes
  rw [cells_add] at hbytes
  rw [Cons.between, h.count]
  exact (List.append_inj hbytes length_cells).1

/-- The line that is being typed. -/
theorem Shows.line_eq (h : Shows c ready line) : c.between c.w c.e = line := by
  have hbytes := h.bytes
  rw [cells_add] at hbytes
  have hw : cells INPUT_BUF_SIZE c.buf c.w.toNat line.length
      = cells INPUT_BUF_SIZE c.buf (c.r.toNat + ready.length) line.length := by
    have hsum : (c.r.toNat + (c.w - c.r).toNat) % 2 ^ 32 = c.w.toNat := by bv_omega
    rw [← h.count, ← hsum, cells_mod size_dvd]
  rw [Cons.between, h.length_line, hw]
  exact (List.append_inj hbytes length_cells).2

/-- The `k`-th byte that readers may take. -/
theorem Shows.at_eq (h : Shows c ready line) {k : Nat} (hk : k < ready.length) :
    ready[k]? = some (c.at (c.r + BitVec.ofNat 32 k)) := by
  have hbytes := congrArg (·[k]?) h.bytes
  have hindex : (c.r + BitVec.ofNat 32 k).toNat % INPUT_BUF_SIZE =
      (c.r.toNat + k) % INPUT_BUF_SIZE := by
    rw [show INPUT_BUF_SIZE = 128 from rfl]
    bv_omega
  rw [List.getElem?_append_left hk, cells, List.getElem?_map,
    List.getElem?_range (by omega)] at hbytes
  rw [← hbytes, Cons.at, hindex]
  rfl

/-- The bytes from an index in the middle of `ready` up to `w`. -/
theorem Shows.between_eq {front back : List UInt8} {i : BitVec 32}
    (h : Shows c (front ++ back) line) (hi : (i - c.r).toNat = front.length) :
    c.between i c.w = back := by
  have hbytes := h.bytes
  rw [cells_add] at hbytes
  have hfront := (List.append_inj hbytes length_cells).1
  have hcount := h.count
  have hbounded := h.bounded
  rw [List.length_append] at hfront hcount hbounded
  have hcut : Shows { c with w := i, e := c.w } front back := ⟨hi, hcount, by omega, hfront⟩
  exact hcut.line_eq

/-- A character is stored at `e`. -/
theorem Shows.push (h : Shows c ready line) (hroom : ready.length + line.length < INPUT_BUF_SIZE)
    (ch : UInt8) :
    Shows { c with buf := Function.update c.buf (c.e.toNat % INPUT_BUF_SIZE) ch, e := c.e + 1 }
      ready (line ++ [ch]) := by
  have htotal := h.total
  have hsize : INPUT_BUF_SIZE = 128 := rfl
  have hlen : ready.length + (line ++ [ch]).length = ready.length + line.length + 1 := by
    simp
    omega
  have hindex : c.e.toNat % INPUT_BUF_SIZE = (c.r.toNat + (c.e - c.r).toNat) % INPUT_BUF_SIZE :=
    index_eq size_dvd
  refine ⟨h.count, ?_, by rw [hlen]; exact hroom, ?_⟩
  · rw [hlen, ← htotal]
    show (c.e + 1 - c.r).toNat = (c.e - c.r).toNat + 1
    exact toNat_sub_push (by omega)
  · show cells INPUT_BUF_SIZE (Function.update c.buf (c.e.toNat % INPUT_BUF_SIZE) ch)
      c.r.toNat _ = _
    rw [hlen, hindex, htotal, cells_push hroom, h.bytes, List.append_assoc]

/-- The line is committed. -/
theorem Shows.commit (h : Shows c ready line) : Shows { c with w := c.e } (ready ++ line) [] := by
  have hlen : (ready ++ line).length = ready.length + line.length := List.length_append
  refine ⟨?_, ?_, ?_, ?_⟩
  · exact h.total.trans hlen.symm
  · exact h.total.trans hlen.symm
  · rw [hlen]
    exact h.bounded
  · rw [hlen, List.append_nil]
    exact h.bytes

/-- The last character of the line is erased. -/
theorem Shows.erase (h : Shows c ready (line ++ [ch])) :
    c.at (c.e - 1) = ch ∧ Shows { c with e := c.e - 1 } ready line := by
  have hlen : ready.length + (line ++ [ch]).length = ready.length + line.length + 1 := by
    simp
    omega
  have htotal := h.total
  have hbounded := h.bounded
  have hbytes := h.bytes
  rw [hlen] at htotal hbounded hbytes
  have hsub : (c.e - 1 - c.r).toNat = ready.length + line.length := by bv_omega
  rw [cells_succ, ← List.append_assoc] at hbytes
  obtain ⟨hkept, hlast⟩ := List.append_inj' hbytes rfl
  have hindex : (c.e - 1).toNat % INPUT_BUF_SIZE
      = (c.r.toNat + (c.e - 1 - c.r).toNat) % INPUT_BUF_SIZE := index_eq size_dvd
  refine ⟨?_, h.count, hsub, by omega, hkept⟩
  rw [Cons.at, hindex, hsub]
  exact List.singleton_inj.mp hlast

/-- A reader takes the first byte. -/
theorem Shows.pop (h : Shows c (ch :: ready) line) :
    c.at c.r = ch ∧ Shows { c with r := c.r + 1 } ready line := by
  have hcount := h.count
  have htotal := h.total
  have hbounded := h.bounded
  have hbytes := h.bytes
  have hlen : (ch :: ready).length + line.length = ready.length + line.length + 1 := by simp; omega
  rw [List.length_cons] at hcount
  rw [hlen] at htotal hbounded hbytes
  rw [cells_pop, List.cons_append] at hbytes
  obtain ⟨hfirst, hrest⟩ := List.cons_eq_cons.mp hbytes
  refine ⟨hfirst, ?_, ?_, by omega, ?_⟩
  · show (c.w - (c.r + 1)).toNat = ready.length
    bv_omega
  · show (c.e - (c.r + 1)).toNat = ready.length + line.length
    bv_omega
  · show cells INPUT_BUF_SIZE c.buf (c.r + 1).toNat _ = _
    rw [cells_toNat_add_one size_dvd (by decide)]
    exact hrest

/-! ## Editing -/

/-- What an accepted character does to the line that is being typed. -/
def edit (line : List UInt8) (ch : UInt8) : List UInt8 :=
  if ch = ctrlP then line
  else if ch = ctrlU then []
  else if ch = ctrlH ∨ ch = delete then line.dropLast
  else line ++ [translate ch]

/-- A line without a newline is killed as a whole. -/
theorem killLoop_spec (line : List UInt8) : ∀ {c : Cons}, Shows c ready line → newline ∉ line →
    Shows (killLoop line.length c) ready [] ∧ (killLoop line.length c).r = c.r ∧
      (killLoop line.length c).w = c.w := by
  induction line using List.reverseRecOn with
  | nil => exact fun h _ => ⟨h, rfl, rfl⟩
  | append_singleton line ch ih =>
    intro c h hline
    obtain ⟨hat, herase⟩ := h.erase
    have hne : c.e ≠ c.w := fun heq => by simpa using h.e_eq_w.mp heq
    have hch : c.at (c.e - 1) ≠ newline := fun heq => hline (by rw [← heq, hat]; simp)
    rw [List.length_append, List.length_singleton, killLoop, if_pos ⟨hne, hch⟩]
    exact ih herase fun hmem => hline (List.mem_append_left _ hmem)

/-- What a character did: `c` became `c'`, and the line became `line'` or was
committed. -/
structure Typed (c c' : Cons) (ready line line' : List UInt8) : Prop where
  r_eq : c'.r = c.r
  shows : c'.w = c.w ∧ Shows c' ready line' ∧ newline ∉ line' ∨
    c'.w ≠ c.w ∧ Shows c' (ready ++ line') []

theorem hasRoom_iff (h : Shows c ready line) :
    c.hasRoom = true ↔ ready.length + line.length < INPUT_BUF_SIZE := by
  rw [Cons.hasRoom, decide_eq_true_eq, h.total]

theorem store_typed (h : Shows c ready line) (hline : newline ∉ line)
    (hroom : ready.length + line.length < INPUT_BUF_SIZE) :
    Typed c (c.store ch) ready line (line ++ [ch]) := by
  have hpush := h.push hroom ch
  rw [Cons.store]
  split
  · next hcommit =>
    refine ⟨rfl, Or.inr ⟨fun heq => ?_, hpush.commit⟩⟩
    -- the line is not empty
    have hempty := hpush.e_eq_w.mp heq
    simp at hempty
  · next hopen =>
    refine ⟨rfl, Or.inl ⟨rfl, hpush, fun hmem => ?_⟩⟩
    rcases List.mem_append.mp hmem with hmem | hmem
    · exact hline hmem
    · exact hopen (Or.inl (List.mem_singleton.mp hmem).symm)

theorem consoleintr_typed (h : Shows c ready line) (hline : newline ∉ line) (ch : UInt8) :
    Typed c (consoleintr ch c) ready line (if c.accepts ch then edit line ch else line) := by
  have hsame : Typed c c ready line line := ⟨rfl, Or.inl ⟨rfl, h, hline⟩⟩
  by_cases hP : ch = ctrlP
  · rw [consoleintr, if_pos hP, edit, if_pos hP, ite_self]
    exact hsame
  by_cases hU : ch = ctrlU
  · rw [if_pos (by simp [Cons.accepts, hU]), consoleintr, if_neg hP, if_pos hU, edit, if_neg hP,
      if_pos hU, h.length_line]
    obtain ⟨hshows, hr, hw⟩ := killLoop_spec line h hline
    exact ⟨hr, Or.inl ⟨hw, hshows, List.not_mem_nil⟩⟩
  by_cases hH : ch = ctrlH ∨ ch = delete
  · rw [if_pos (by simp only [Cons.accepts, decide_eq_true_eq, Bool.or_eq_true]; tauto),
      consoleintr, if_neg hP, if_neg hU, if_pos hH, edit, if_neg hP, if_neg hU, if_pos hH]
    rcases List.eq_nil_or_concat line with rfl | ⟨line, last, rfl⟩
    · rw [if_neg (not_not.mpr (h.e_eq_w.mpr rfl))]
      exact hsame
    · rw [List.concat_eq_append] at h hline ⊢
      have hne : c.e ≠ c.w := fun heq => by simpa using h.e_eq_w.mp heq
      rw [if_pos hne, List.dropLast_concat]
      exact ⟨rfl, Or.inl ⟨rfl, h.erase.2, fun hmem => hline (List.mem_append_left _ hmem)⟩⟩
  · have haccepts : c.accepts ch = true ↔ ch ≠ 0 ∧ c.hasRoom = true := by
      simp only [Cons.accepts, decide_eq_true_eq, Bool.or_eq_true, Bool.and_eq_true]
      tauto
    rw [consoleintr, if_neg hP, if_neg hU, if_neg hH]
    by_cases hroom : ch ≠ 0 ∧ c.hasRoom = true
    · rw [if_pos hroom, if_pos (haccepts.mpr hroom), edit, if_neg hP, if_neg hU, if_neg hH]
      exact store_typed h hline ((hasRoom_iff h).mp hroom.2)
    · rw [if_neg hroom, if_neg fun hacc => hroom (haccepts.mp hacc)]
      exact hsame

/-! ## Reading -/

/-- The byte of the input that an event consumes. -/
def Event.consumed : Event → Option UInt8
  | .stored _ _ ch => some ch
  | .eof _ => some ctrlD
  | .returned _ _ => none

/-- The bytes that the events of a log consume. -/
def consumed (log : List Event) : List UInt8 :=
  log.filterMap Event.consumed

/-- What a reader did before it gave the lock up: it took some bytes from the
front, and lost the last of them if it could not be copied. -/
structure Taken (c : Cons) (ready line : List UInt8) (o : Outcome) : Prop where
  w_eq : o.cons.w = c.w
  e_eq : o.cons.e = c.e
  shows : ∃ rest, ready = consumed o.log ++ o.lost ++ rest ∧ Shows o.cons rest line

theorem Taken.refl (h : Shows c ready line) {rest : Option Read} {log : List Event}
    (hlog : consumed log = []) : Taken c ready line ⟨c, rest, log, []⟩ :=
  ⟨rfl, rfl, ready, by rw [hlog]; rfl, h⟩

theorem readLoop_taken (i : Nat) (killed : Bool) (copies : Nat → Bool) (target n : Nat) :
    ∀ (dst : Nat) {c : Cons} {ready : List UInt8}, Shows c ready line →
      Taken c ready line (readLoop i killed copies target n dst c) := by
  induction n with
  | zero => exact fun _ _ _ h => Taken.refl h rfl
  | succ n ih =>
    intro dst c ready h
    rw [readLoop]
    by_cases hempty : c.r = c.w
    · rw [if_pos hempty]
      split
      · exact Taken.refl h rfl
      · exact Taken.refl h rfl
    rw [if_neg hempty]
    obtain ⟨ch, ready, rfl⟩ := List.exists_cons_of_ne_nil fun hnil => hempty (h.r_eq_w.mpr hnil)
    obtain ⟨hch, hpop⟩ := h.pop
    dsimp only
    rw [hch]
    split
    · next hD =>
      split
      · -- the end of file is put back
        have hback : ({ c with r := c.r + 1 - 1 } : Cons) = c := by
          rw [BitVec.add_sub_cancel]
        exact ⟨rfl, rfl, ch :: ready, rfl, by rw [hback]; exact h⟩
      · exact ⟨rfl, rfl, ready, by rw [hD]; rfl, hpop⟩
    split
    · split
      · exact ⟨rfl, rfl, ready, rfl, hpop⟩
      · obtain ⟨hw, he, rest, hready, hshows⟩ := ih (dst + 1) hpop
        exact ⟨hw, he, rest, congrArg (ch :: ·) hready, hshows⟩
    · exact ⟨rfl, rfl, ready, rfl, hpop⟩

/-! ## The buffer in every run -/

/-- The line that is being typed, by the characters accepted. -/
def Sys.typing (s : Sys) : List UInt8 :=
  s.accepted.foldl edit []

/-- The buffer shows the edited line, which is not complete. -/
def LineOk (s : Sys) : Prop :=
  ∃ ready, Shows s.cons ready s.typing ∧ newline ∉ s.typing

theorem lineOk_init : LineOk init := by
  refine ⟨[], ⟨?_, ?_, Nat.zero_le _, rfl⟩, List.not_mem_nil⟩
  · show ((0 : BitVec 32) - 0).toNat = 0
    decide
  · show ((0 : BitVec 32) - 0).toNat = 0
    decide

/-- A character is no event of a reader. -/
theorem intr_log (s : Sys) (ch : UInt8) :
    (s.intr ch).log = s.log ∧ (s.intr ch).lost = s.lost ∧ (s.intr ch).reads = s.reads := by
  unfold Sys.intr
  dsimp only
  split
  · exact ⟨rfl, rfl, rfl⟩
  · exact ⟨rfl, rfl, rfl⟩

/-- The state after a character that was not committed. -/
theorem intr_of_eq {s : Sys} {ch : UInt8} (hw : (consoleintr ch s.cons).w = s.cons.w) :
    (s.intr ch).cons = consoleintr ch s.cons ∧ (s.intr ch).committed = s.committed ∧
      (s.intr ch).typing = if s.cons.accepts ch then edit s.typing ch else s.typing := by
  have hintr : s.intr ch = { s with
      cons := consoleintr ch s.cons
      accepted := if s.cons.accepts ch then s.accepted ++ [ch] else s.accepted } := if_pos hw
  rw [hintr]
  refine ⟨rfl, rfl, ?_⟩
  rw [Sys.typing]
  split
  · rw [List.foldl_append]
    rfl
  · rfl

/-- The state after a character with which the line was committed. -/
theorem intr_of_ne {s : Sys} {ch : UInt8} (hw : (consoleintr ch s.cons).w ≠ s.cons.w) :
    s.intr ch = { s with
      cons := consoleintr ch s.cons, accepted := []
      committed := s.committed ++
        (consoleintr ch s.cons).between s.cons.w (consoleintr ch s.cons).w } :=
  if_neg hw

theorem lineOk_step {s s' : Sys} {a : Act} (h : LineOk s) (hstep : step s a = some s') :
    LineOk s' := by
  obtain ⟨ready, hshows, hline⟩ := h
  cases a with
  | intr ch =>
    cases hstep
    rcases consoleintr_typed hshows hline ch with ⟨-, ⟨hw, htyped, hopen⟩ | ⟨hw, htyped⟩⟩
    · obtain ⟨hcons, -, htyping⟩ := intr_of_eq hw
      refine ⟨ready, ?_, ?_⟩
      · rw [hcons, htyping]
        exact htyped
      · rw [htyping]
        exact hopen
    · rw [intr_of_ne hw]
      exact ⟨_, htyped, List.not_mem_nil⟩
  | read i dst n =>
    obtain ⟨-, rfl⟩ := of_guard hstep
    exact ⟨ready, hshows, hline⟩
  | run i killed copies =>
    rw [step] at hstep
    split at hstep
    · cases hstep
    · next rd hrd =>
      cases hstep
      obtain ⟨-, -, rest, -, htaken⟩ := readLoop_taken i killed copies rd.target rd.n rd.dst hshows
      exact ⟨rest, htaken, hline⟩

/-- In every run the indices are in order, no character changes a committed byte
that has not been read, and the bytes between `w` and `e` are the characters
accepted since the last commit, edited. -/
theorem line_buffer {s : Sys} {as : List Act} (hexec : exec step init as = some s) :
    (s.cons.w - s.cons.r).toNat ≤ (s.cons.e - s.cons.r).toNat ∧
    (s.cons.e - s.cons.r).toNat ≤ INPUT_BUF_SIZE ∧
    (∀ ch, (consoleintr ch s.cons).r = s.cons.r ∧
      ∀ k < (s.cons.w - s.cons.r).toNat,
        (consoleintr ch s.cons).at (s.cons.r + BitVec.ofNat 32 k) =
          s.cons.at (s.cons.r + BitVec.ofNat 32 k)) ∧
    s.cons.between s.cons.w s.cons.e = s.accepted.foldl edit [] := by
  obtain ⟨ready, hshows, hline⟩ : LineOk s :=
    inv_of_run (fun _ _ _ h hstep => lineOk_step h hstep) lineOk_init hexec
  refine ⟨?_, ?_, fun ch => ?_, hshows.line_eq⟩
  · rw [hshows.count, hshows.total]
    exact Nat.le_add_right _ _
  · rw [hshows.total]
    exact hshows.bounded
  · obtain ⟨hr, htyped⟩ := consoleintr_typed hshows hline ch
    refine ⟨hr, fun k hk => ?_⟩
    rw [hshows.count] at hk
    have hold := hshows.at_eq hk
    have hnew : ready[k]? = some ((consoleintr ch s.cons).at (s.cons.r + BitVec.ofNat 32 k)) := by
      rw [← hr]
      rcases htyped with ⟨-, htyped, -⟩ | ⟨-, htyped⟩
      · exact htyped.at_eq hk
      · rw [← htyped.at_eq (by rw [List.length_append]; omega), List.getElem?_append_left hk]
    exact Option.some.inj (hnew.symm.trans hold)

/-- A line is typed with a mistake and read, and another one is begun. -/
def typeAndRead : List Act :=
  [.intr 0x68, .intr 0x6a, .intr ctrlH, .intr 0x69, .intr carriageReturn, .intr 0x78,
    .read 0 4096 10, .run 0 false fun _ => true]

theorem line_buffer_typeAndRead : ∃ s, exec step init typeAndRead = some s ∧
    s.log = [.stored 0 4096 0x68, .stored 0 4097 0x69, .stored 0 4098 newline, .returned 0 3] ∧
    ((s.cons.w - s.cons.r).toNat ≤ (s.cons.e - s.cons.r).toNat ∧
    (s.cons.e - s.cons.r).toNat ≤ INPUT_BUF_SIZE ∧
    (∀ ch, (consoleintr ch s.cons).r = s.cons.r ∧
      ∀ k < (s.cons.w - s.cons.r).toNat,
        (consoleintr ch s.cons).at (s.cons.r + BitVec.ofNat 32 k) =
          s.cons.at (s.cons.r + BitVec.ofNat 32 k)) ∧
    s.cons.between s.cons.w s.cons.e = s.accepted.foldl edit []) := by
  have hcheck : runCheck step (fun _ _ => true) (fun s => s.log ==
      [.stored 0 4096 0x68, .stored 0 4097 0x69, .stored 0 4098 newline, .returned 0 3])
      init typeAndRead = true := by
    decide +kernel
  obtain ⟨-, s, hexec, hlog⟩ := of_runCheck hcheck
  exact ⟨s, hexec, by simpa using hlog, line_buffer hexec⟩

end Xv6.Console
