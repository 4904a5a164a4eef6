import Xv6.Pipe.Fifo

/-!
# Lost wakeups on a pipe

Readers sleep on `&pi->nread` while the pipe is empty and its write end open, and
writers sleep on `&pi->nwrite` while it is full and its read end open.

* `justified`, `owes`: when a sleep is right, and which processes will wake a channel
  up before they release `pi->lock`.  A writer that has been killed leaves through an
  exit without a `wakeup`.
* `discipline`: the code pays its debts, on both channels.
* `timely`: the kills that do not hit a writer between its first byte and its `wakeup`.
* `pipe_no_lost_wakeup`: nobody sleeps without reason when the lock is free;
  `lost_wakeup` is a reader that does.
-/

namespace Xv6.Pipes

open Xv6.Lib.Run Xv6.Lib.Monitor

/-- When it is right to sleep on a channel. -/
def justified : Chan → Shared → Prop
  | .nread, d => d.pi.empty = true ∧ d.pi.writeopen = true
  | .nwrite, d => d.pi.full = true ∧ d.pi.readopen = true

/-- A writer owes a wakeup from the first byte it stores, but forgets it when it is
killed before the last one. -/
def owes : Chan → Bool → Place → Prop
  | .nread, k, .write n i since => since < i ∧ (k = true → n ≤ i)
  | .nread, _, .closeWake writable => writable = true
  | .nwrite, _, .copy _ _ => True
  | .nwrite, _, .closeWake writable => writable = false
  | _, _, _ => False

/-- The process holds `pi->lock` in `pipewrite`, has stored a byte since it took the lock
and has more bytes to write. -/
def midWrite (m : PipeSys) (p : Nat) : Bool :=
  match (m.phase p).held with
  | some (.write n i since) => since < i ∧ (i : Int) < n
  | _ => false

/-- A kill does not reach a process in the middle of its bytes. -/
def timely (m : PipeSys) : Act Place User → Bool
  | .kill p => !midWrite m p
  | _ => true

/-! ## The discipline of the pipe code -/

section Discipline

variable {k : Bool} {d d' : Shared} {l l' : Place} {c c' : Chan} {r : Result}

theorem owes_moves (hl : Knows d l) (hmove : Moves k d l d' l') (h : justified c d ∨ owes c k l) :
    justified c d' ∨ owes c k l' := by
  cases hmove with
  | store ch hi hopen hk hfull =>
    cases c with
    | nread =>
      refine .inr ⟨Nat.lt_succ_of_le hl.1, fun hkilled => ?_⟩
      rw [hk] at hkilled
      cases hkilled
    | nwrite =>
      -- there was room, so no writer had a reason to sleep
      rcases h with hright | howe
      · rw [hright.1] at hfull
        cases hfull
      · exact howe.elim
  | ready hready =>
    rcases h with hright | howe
    · exact .inl hright
    · cases c <;> exact howe.elim
  | fetch hempty =>
    cases c with
    | nread =>
      rcases h with hright | howe
      · rw [hright.1] at hempty
        cases hempty
      · exact howe.elim
    | nwrite => exact .inr trivial
  | close writable =>
    have hright : justified c d := by
      rcases h with hright | howe
      · exact hright
      · cases c <;> exact howe.elim
    cases c with
    | nread =>
      cases writable with
      | true => exact .inr rfl
      | false => exact .inl hright
    | nwrite =>
      cases writable with
      | true => exact .inl hright
      | false => exact .inr rfl

theorem owes_wakes (hwake : Wakes d l c' l') (h : justified c d ∨ owes c k l) :
    c = c' ∨ justified c d ∨ owes c k l' := by
  rcases h with hright | howe
  · exact .inr (.inl hright)
  · -- whoever owes a wakeup pays it
    refine .inl ?_
    cases hwake with
    | full hopen hfull =>
      cases c with
      | nread => rfl
      | nwrite => exact howe.elim
    | wrote =>
      cases c with
      | nread => rfl
      | nwrite => exact howe.elim
    | drained hempty =>
      cases c with
      | nread => exact howe.elim
      | nwrite => rfl
    | fault =>
      cases c with
      | nread => exact howe.elim
      | nwrite => rfl
    | enough hi =>
      cases c with
      | nread => exact howe.elim
      | nwrite => rfl
    | close writable =>
      cases c with
      | nread =>
        have hw : writable = true := howe
        rw [hw]
        rfl
      | nwrite =>
        have hw : writable = false := howe
        rw [hw]
        rfl

theorem owes_sleeps (hl : Knows d l) (hsleep : Sleeps d l c' l') :
    justified c' d ∧ ∀ c, justified c d ∨ owes c k l → justified c d := by
  cases hsleep with
  | full =>
    refine ⟨hl, fun c h => ?_⟩
    rcases h with hright | howe
    · exact hright
    · cases c <;> exact howe.elim
  | empty hempty hopen =>
    refine ⟨⟨hempty, hopen⟩, fun c h => ?_⟩
    rcases h with hright | howe
    · exact hright
    · cases c <;> exact howe.elim

theorem justified_closeFree (h : justified c d) : justified c (closeFree d) := by
  unfold closeFree
  split
  · cases c <;> exact h
  · exact h

theorem owes_leaves (hl : Knows d l) (hleave : Leaves k d l d' r) (h : justified c d ∨ owes c k l) :
    justified c d' := by
  rcases h with hright | howe
  · cases hleave with
    | closed => exact justified_closeFree hright
    | refused => exact hright
    | wrote => exact hright
    | killed => exact hright
    | read => exact hright
  · cases hleave with
    | refused hi hexit =>
      cases c with
      | nread =>
        -- the read end was open when the last byte was stored
        rcases hexit with hclosed | hkilled
        · rw [hl.2 howe.1] at hclosed
          cases hclosed
        · have hle := howe.2 hkilled
          omega
      | nwrite => exact howe.elim
    | wrote => cases c <;> exact howe.elim
    | killed => cases c <;> exact howe.elim
    | read => cases c <;> exact howe.elim
    | closed => cases c <;> exact howe.elim

end Discipline

theorem discipline (nproc : Nat) :
    Discipline (code nproc) Queue Knows justified fun c k _ l => owes c k l where
  move _ hl hinstr _ := owes_moves hl (moves_of_instr hinstr)
  wakeup _ _ hinstr _ := owes_wakes (wakes_of_instr hinstr)
  sleep _ hl hinstr := owes_sleeps hl (sleeps_of_instr hinstr)
  release _ hl hinstr _ := owes_leaves hl (leaves_of_instr hinstr)

/-! ## Runs -/

section Runs

variable {nproc : Nat} {data : Nat → UInt8} {killed : Nat → Bool} {acts : List (Act Place User)}
  {m : PipeSys}

theorem harmless_of_timely {a : Act Place User} (h : timely m a = true) :
    Harmless (fun c k _ l => owes c k l) m a := by
  cases a with
  | kill p =>
    intro l hheld c howe
    cases c with
    | nread =>
      cases l with
      | write n i since =>
        have hmid : i ≤ since ∨ n ≤ i := by
          rw [timely, midWrite, hheld] at h
          simpa using h
        exact ⟨howe.1, fun _ => hmid.resolve_left (Nat.not_le.mpr howe.1)⟩
      | closeWake writable => exact howe
      | _ => exact howe.elim
    | nwrite =>
      cases l with
      | copy n i => exact trivial
      | closeWake writable => exact howe
      | _ => exact howe.elim
  | _ => exact trivial

/-- No kill makes a process forget the writers. -/
theorem harmless_nwrite (m : PipeSys) (a : Act Place User) :
    Harmless (fun c k _ l => c = Chan.nwrite ∧ owes c k l) m a := by
  cases a with
  | kill p =>
    rintro l - c ⟨rfl, howe⟩
    cases l with
    | copy n i => exact ⟨rfl, trivial⟩
    | closeWake writable => exact ⟨rfl, howe⟩
    | _ => exact howe.elim
  | _ => exact trivial

theorem safe_run
    (hsteps : StepsMeet (step (code nproc)) (fun m a => timely m a = true)
      (initial data killed) acts)
    (hrun : exec (step (code nproc)) (initial data killed) acts = some m) :
    Safe (code nproc) justified (fun c k _ l => owes c k l) m := by
  refine (inv_of_exec (I := fun m => (Wf (code nproc) m ∧ Asserts Queue Knows m) ∧
    Safe (code nproc) justified (fun c k _ l => owes c k l) m)
    (fun s a t h htimely hstep => ⟨⟨h.1.1.step hstep, h.1.2.step (outline nproc) h.1.1 hstep⟩, ?_⟩)
    ?_ hsteps hrun).2
  · exact h.2.step (discipline nproc) h.1.2 (harmless_of_timely htimely) hstep
  · exact ⟨queue_initial nproc data killed, Safe.initial ..⟩

theorem safe_nwrite_run (hrun : exec (step (code nproc)) (initial data killed) acts = some m) :
    Safe (code nproc) (fun c d => c = Chan.nwrite → justified c d)
      (fun c k _ l => c = Chan.nwrite ∧ owes c k l) m := by
  refine (inv_of_run (I := fun m => (Wf (code nproc) m ∧ Asserts Queue Knows m) ∧
    Safe (code nproc) (fun c d => c = Chan.nwrite → justified c d)
      (fun c k _ l => c = Chan.nwrite ∧ owes c k l) m)
    (fun s a t h hstep => ⟨⟨h.1.1.step hstep, h.1.2.step (outline nproc) h.1.1 hstep⟩, ?_⟩)
    ?_ hrun).2
  · exact h.2.step ((discipline nproc).only .nwrite) h.1.2 (harmless_nwrite s a) hstep
  · exact ⟨queue_initial nproc data killed, Safe.initial ..⟩

/-- Whenever `pi->lock` is free, no writer sleeps unless the pipe is full and its read end
open, in any run; and no reader sleeps unless the pipe is empty and its write end open, in
the runs in which all kills are timely. -/
theorem pipe_no_lost_wakeup
    (hrun : exec (step (code nproc)) (initial data killed) acts = some m) (hfree : m.lock = none) :
    (StepsMeet (step (code nproc)) (fun m a => timely m a = true) (initial data killed) acts →
      m.data.pi.empty = false ∨ m.data.pi.writeopen = false →
      ∀ p l, m.phase p ≠ .asleep .nread l) ∧
    (m.data.pi.full = false ∨ m.data.pi.readopen = false →
      ∀ p l, m.phase p ≠ .asleep .nwrite l) := by
  refine ⟨fun htimely hready p l hasleep => ?_, fun hready p l hasleep => ?_⟩
  · have hright : justified .nread m.data :=
      (safe_run htimely hrun).justified_of_free hfree (q := p) (by rw [hasleep]; rfl)
    rcases hready with hempty | hclosed
    · rw [hright.1] at hempty
      cases hempty
    · rw [hright.2] at hclosed
      cases hclosed
  · have hright : justified .nwrite m.data :=
      (safe_nwrite_run hrun).justified_of_free hfree (q := p) (by rw [hasleep]; rfl) rfl
    rcases hready with hfull | hclosed
    · rw [hright.1] at hfull
      cases hfull
    · rw [hright.2] at hclosed
      cases hclosed

/-- The reader 0 sleeps on the empty pipe; the writer 1 stores the first of two bytes, is
killed and leaves. -/
def lateKill : List (Act Place User) :=
  let ok : User := { copyin := some 65, copyout := true }
  [.call 0 (.read 1), .acquire 0, .run 0 ok, .fallAsleep 0,
    .call 1 (.write 2 0 0), .acquire 1, .run 1 ok, .kill 1, .run 1 ok]

/-- The writer is killed before it stores anything, and the second writer wakes the reader. -/
def earlyKill : List (Act Place User) :=
  let ok : User := { copyin := some 65, copyout := true }
  [.call 0 (.read 1), .acquire 0, .run 0 ok, .fallAsleep 0,
    .call 1 (.write 2 0 0), .acquire 1, .kill 1, .run 1 ok,
    .call 2 (.write 1 0 0), .acquire 2, .run 2 ok, .run 2 ok, .wakeNext 2, .wakeNext 2,
    .wakeNext 2, .wakeNext 2, .run 2 ok]

/-- The reader keeps sleeping although the lock is free and a byte is in the pipe. -/
theorem lost_wakeup :
    ∃ m, exec (step (code 2)) (initial (fun _ => 0) fun _ => false) lateKill = some m ∧
      m.lock = none ∧ m.data.pi.empty = false ∧ m.phase 0 = .asleep .nread (.read 1) := by
  have hcheck : runCheck (step (code 2)) (fun _ _ => true)
      (fun m => decide (m.lock = none ∧ m.data.pi.empty = false ∧
        m.phase 0 = .asleep .nread (.read 1)))
      (initial (fun _ => 0) fun _ => false) lateKill = true := by
    decide +kernel
  obtain ⟨-, m, hrun, hm⟩ := of_runCheck hcheck
  exact ⟨m, hrun, of_decide_eq_true hm⟩

theorem pipe_no_lost_wakeup_earlyKill :
    ∃ m, exec (step (code 3)) (initial (fun _ => 0) fun _ => false) earlyKill = some m ∧
      m.data.pi.empty = false ∧ (∀ p l, m.phase p ≠ .asleep .nread l) ∧
      ∀ p l, m.phase p ≠ .asleep .nwrite l := by
  have hcheck : runCheck (step (code 3)) timely
      (fun m => decide (m.lock = none ∧ m.data.pi.empty = false ∧ m.data.pi.full = false))
      (initial (fun _ => 0) fun _ => false) earlyKill = true := by
    decide +kernel
  obtain ⟨htimely, m, hrun, hm⟩ := of_runCheck hcheck
  obtain ⟨hfree, hempty, hfull⟩ := of_decide_eq_true hm
  obtain ⟨hread, hwrite⟩ := pipe_no_lost_wakeup hrun hfree
  exact ⟨m, hrun, hempty, hread htimely (.inl hempty), hwrite (.inl hfull)⟩

end Runs

end Xv6.Pipes
