import Xv6.Pipe.Basic

/-!
# A pipe is a bounded queue

* `Queue`: the pipe holds at most `PIPESIZE` bytes, and they are the accepted bytes
  that have not been delivered.  `queue_store` and `queue_fetch` are its steps.
* `Knows`: what a process knows about the pipe while it holds the lock.
* `outline`: every instruction of the pipe code keeps both, so they hold in every run
  (`queue_run`).
-/

namespace Xv6.Pipes

open Xv6.Lib.Run Xv6.Lib.Fifo Xv6.Lib.Monitor

/-! ## The queue -/

/-- The pipe holds the accepted bytes that have not been delivered. -/
structure Queue (d : Shared) : Prop where
  bounded : (d.pi.nwrite - d.pi.nread).toNat ≤ PIPESIZE
  accepted : d.accepted = d.delivered ++ d.pi.contents

theorem pipesize_dvd : PIPESIZE ∣ 2 ^ 32 := by decide

theorem queue_pipealloc (data : Nat → UInt8) : Queue (pipealloc data) := by
  have hcount : ((0 : BitVec 32) - 0).toNat = 0 := by decide
  refine ⟨?_, ?_⟩
  · show ((0 : BitVec 32) - 0).toNat ≤ PIPESIZE
    rw [hcount]
    exact Nat.zero_le _
  · show [] = [] ++ cells PIPESIZE data 0 ((0 : BitVec 32) - 0).toNat
    rw [hcount]
    rfl

theorem Queue.lt_of_not_full {d : Shared} (h : Queue d) (hfull : d.pi.full = false) :
    (d.pi.nwrite - d.pi.nread).toNat < PIPESIZE := by
  apply Nat.lt_of_le_of_ne h.bounded
  intro heq
  have hsub : d.pi.nwrite - d.pi.nread = BitVec.ofNat 32 PIPESIZE := by
    apply BitVec.eq_of_toNat_eq
    rw [heq]
    rfl
  have hwrite : d.pi.nwrite = d.pi.nread + BitVec.ofNat 32 PIPESIZE := by
    rw [← hsub, BitVec.add_comm, BitVec.sub_add_cancel]
  simp [Pipe.full, hwrite] at hfull

theorem queue_store {d : Shared} (h : Queue d) (hfull : d.pi.full = false) (ch : UInt8) :
    Queue (d.store ch) := by
  have hlt := h.lt_of_not_full hfull
  have hcount : (d.pi.nwrite + 1 - d.pi.nread).toNat = (d.pi.nwrite - d.pi.nread).toNat + 1 :=
    toNat_sub_push (Nat.lt_of_le_of_lt hlt (by decide))
  refine ⟨?_, ?_⟩
  · show (d.pi.nwrite + 1 - d.pi.nread).toNat ≤ PIPESIZE
    rw [hcount]
    exact hlt
  · show d.accepted ++ [ch] = d.delivered ++ cells PIPESIZE
      (Function.update d.pi.data (d.pi.nwrite.toNat % PIPESIZE) ch) d.pi.nread.toNat
      (d.pi.nwrite + 1 - d.pi.nread).toNat
    rw [hcount, index_eq pipesize_dvd, cells_push hlt, h.accepted, List.append_assoc]
    rfl

theorem queue_fetch {d : Shared} (h : Queue d) (hempty : d.pi.empty = false) : Queue d.fetch := by
  have hne : d.pi.nread ≠ d.pi.nwrite := by simpa [Pipe.empty] using hempty
  have hcount : (d.pi.nwrite - (d.pi.nread + 1)).toNat + 1 = (d.pi.nwrite - d.pi.nread).toNat :=
    toNat_sub_pop hne
  have hbound := h.bounded
  refine ⟨?_, ?_⟩
  · show (d.pi.nwrite - (d.pi.nread + 1)).toNat ≤ PIPESIZE
    omega
  · show d.accepted = d.delivered ++ [d.pi.next] ++ cells PIPESIZE d.pi.data
      (d.pi.nread + 1).toNat (d.pi.nwrite - (d.pi.nread + 1)).toNat
    rw [h.accepted, Pipe.contents, ← hcount, cells_pop,
      cells_toNat_add_one pipesize_dvd (by decide), List.append_assoc]
    rfl

theorem queue_closeEnd {d : Shared} (h : Queue d) (writable : Bool) :
    Queue (closeEnd d writable) := by
  cases writable with
  | true => exact ⟨h.bounded, h.accepted⟩
  | false => exact ⟨h.bounded, h.accepted⟩

theorem queue_closeFree {d : Shared} (h : Queue d) : Queue (closeFree d) := by
  unfold closeFree
  split
  · exact ⟨h.bounded, h.accepted⟩
  · exact h

/-! ## What a process knows -/

/-- What a process knows about the pipe where it holds the lock. -/
def Knows (d : Shared) : Place → Prop
  | .write _ i since => since ≤ i ∧ (since < i → d.pi.readopen = true)
  | .writeFull _ _ => d.pi.full = true ∧ d.pi.readopen = true
  | .copy _ i => i = 0 → d.pi.empty = true → d.pi.writeopen = false
  | .readDone n r => 0 < n → r = 0 → d.pi.empty = true ∧ d.pi.writeopen = false
  | .writeDone .. | .read _ | .close _ | .closeWake _ | .closeDone => True

section Outline

variable {k : Bool} {d d' : Shared} {l l' : Place} {c : Chan} {r : Result}

theorem queue_moves (h : Queue d) (hl : Knows d l) (hmove : Moves k d l d' l') :
    Queue d' ∧ Knows d' l' := by
  cases hmove with
  | store ch hi hopen hk hfull =>
    exact ⟨queue_store h hfull ch, Nat.le_succ_of_le hl.1, fun _ => hopen⟩
  | ready hready => exact ⟨h, fun _ => hready⟩
  | fetch hempty => exact ⟨queue_fetch h hempty, nofun⟩
  | close writable => exact ⟨queue_closeEnd h writable, trivial⟩

theorem knows_wakes (hl : Knows d l) (hwake : Wakes d l c l') : Knows d l' := by
  cases hwake with
  | full hopen hfull => exact ⟨hfull, hopen⟩
  | wrote => exact trivial
  | drained hempty => exact fun _ hi => ⟨hempty, hl (Int.natCast_eq_zero.mp hi) hempty⟩
  | fault =>
    -- a copy that fails at the first byte does not return 0
    intro _ hr
    split at hr <;> omega
  | enough hi =>
    intro hn hr
    omega
  | close writable => exact trivial

/-- Whoever sleeps knows nothing afterwards. -/
theorem knows_sleeps (hsleep : Sleeps d l c l') (d' : Shared) : Knows d' l' := by
  cases hsleep with
  | full => exact ⟨Nat.le_refl _, fun hlt => absurd hlt (Nat.lt_irrefl _)⟩
  | empty => exact trivial

theorem queue_leaves (h : Queue d) (hleave : Leaves k d l d' r) : Queue d' := by
  cases hleave with
  | refused => exact h
  | wrote => exact h
  | killed => exact h
  | read => exact h
  | closed => exact queue_closeFree h

end Outline

theorem knows_of_entry {l : Place} (h : l.entry = true) (d : Shared) : Knows d l := by
  cases l with
  | write n i since =>
    obtain ⟨rfl, rfl⟩ : i = 0 ∧ since = 0 := by simpa [Place.entry] using h
    exact ⟨Nat.le_refl _, fun hlt => absurd hlt (Nat.lt_irrefl _)⟩
  | read n => exact trivial
  | close writable => exact trivial
  | writeFull n i => cases h
  | copy n i => cases h
  | readDone n r => cases h
  | writeDone n i => exact trivial
  | closeWake writable => exact trivial
  | closeDone => exact trivial

theorem outline (nproc : Nat) : Outline (code nproc) Queue Knows where
  entry h d _ := knows_of_entry h d
  move h hl hinstr := queue_moves h hl (moves_of_instr hinstr)
  wakeup _ hl hinstr := knows_wakes hl (wakes_of_instr hinstr)
  sleep _ _ hinstr d' _ := knows_sleeps (sleeps_of_instr hinstr) d'
  release h _ hinstr := queue_leaves h (leaves_of_instr hinstr)

/-! ## Runs -/

section Runs

variable {nproc : Nat} {data : Nat → UInt8} {killed : Nat → Bool} {acts : List (Act Place User)}
  {m m' : PipeSys}

theorem queue_initial (nproc : Nat) (data : Nat → UInt8) (killed : Nat → Bool) :
    Wf (code nproc) (initial data killed) ∧ Asserts Queue Knows (initial data killed) :=
  ⟨Wf.initial .., queue_pipealloc data, nofun, nofun⟩

theorem queue_run (hrun : exec (step (code nproc)) (initial data killed) acts = some m) :
    Wf (code nproc) m ∧ Asserts Queue Knows m := by
  refine inv_of_run (I := fun m => Wf (code nproc) m ∧ Asserts Queue Knows m)
    (fun s a t h hstep => ⟨h.1.step hstep, h.2.step (outline nproc) h.1 hstep⟩) ?_ hrun
  exact queue_initial nproc data killed

/-- A read of at least one byte that returns 0 found the pipe empty and its write end
closed. -/
theorem empty_of_read_zero (h : Asserts Queue Knows m) {p : Nat} {u : User} {n : Int}
    (hstep : step (code nproc) m (.run p u) = some m')
    (hret : m'.phase p = .out (some (.didRead n 0))) (hn : 0 < n) :
    m'.data.pi.empty = true ∧ m'.data.pi.writeopen = false := by
  simp only [step] at hstep
  split at hstep
  · next l hp =>
    cases hstep
    have hholder : Knows m.data l := h.holder p l (by simp [hp])
    change (m.perform p (instr u (m.killed p) m.data l)).phase p = _ at hret
    show (m.perform p (instr u (m.killed p) m.data l)).data.pi.empty = true ∧
      (m.perform p (instr u (m.killed p) m.data l)).data.pi.writeopen = false
    cases hinstr : instr u (m.killed p) m.data l with
    | release d r =>
      rw [hinstr] at hret
      have hr : r = .didRead n 0 := by simpa [State.perform] using hret
      subst hr
      cases leaves_of_instr hinstr with
      | read => exact hholder hn rfl
    | move d l' => simp [hinstr, State.perform] at hret
    | wakeup c l' => simp [hinstr, State.perform] at hret
    | sleep c l' => simp [hinstr, State.perform] at hret
  · cases hstep

/-- A pipe is a bounded queue: in every run the counters are at most `PIPESIZE` apart, the
bytes delivered to readers and then those in the buffer are the bytes accepted from
writers, and a read of at least one byte returns 0 only when the pipe is empty and its
write end is closed. -/
theorem pipe_bounded_fifo
    (hrun : exec (step (code nproc)) (initial data killed) acts = some m) :
    (m.data.pi.nwrite - m.data.pi.nread).toNat ≤ PIPESIZE ∧
    m.data.accepted = m.data.delivered ++ m.data.pi.contents ∧
    m.data.delivered <+: m.data.accepted ∧
    ∀ p u n m', step (code nproc) m (.run p u) = some m' →
      m'.phase p = .out (some (.didRead n 0)) → 0 < n →
      m'.data.pi.empty = true ∧ m'.data.pi.writeopen = false := by
  obtain ⟨-, hasserts⟩ := queue_run hrun
  refine ⟨hasserts.data.bounded, hasserts.data.accepted, ?_,
    fun p u n m' => empty_of_read_zero hasserts⟩
  rw [hasserts.data.accepted]
  exact List.prefix_append _ _

/-- A writer stores two bytes, a reader takes the first and then faults, and after the
writer has closed its end a read drains the pipe and the next one returns 0. -/
def fifoRun : List (Act Place User) :=
  let ok : User := { copyin := some 65, copyout := true }
  let fault : User := { copyin := none, copyout := false }
  [.call 0 (.write 2 0 0), .acquire 0, .run 0 ok, .run 0 ok, .run 0 ok, .wakeNext 0, .wakeNext 0,
    .wakeNext 0, .run 0 ok,
    .call 1 (.read 2), .acquire 1, .run 1 ok, .run 1 ok, .run 1 fault, .wakeNext 1, .wakeNext 1,
    .wakeNext 1, .run 1 ok,
    .call 0 (.close true), .acquire 0, .run 0 ok, .run 0 ok, .wakeNext 0, .wakeNext 0, .wakeNext 0,
    .run 0 ok,
    .call 1 (.read 2), .acquire 1, .run 1 ok, .run 1 ok, .run 1 ok, .wakeNext 1, .wakeNext 1,
    .wakeNext 1, .run 1 ok,
    .call 1 (.read 2), .acquire 1, .run 1 ok, .run 1 ok, .wakeNext 1, .wakeNext 1, .wakeNext 1]

theorem pipe_bounded_fifo_fifoRun :
    ∃ m, exec (step (code 2)) (initial (fun _ => 0) fun _ => false) fifoRun = some m ∧
      m.data.delivered = [65, 65] ∧ m.data.delivered <+: m.data.accepted ∧
      ∃ m', step (code 2) m (.run 1 ⟨none, false⟩) = some m' ∧
        m'.data.pi.empty = true ∧ m'.data.pi.writeopen = false := by
  have hcheck : runCheck (step (code 2)) (fun _ _ => true)
      (fun m => decide (m.data.delivered = [65, 65] ∧ m.phase 1 = .hold (.readDone 2 0)))
      (initial (fun _ => 0) fun _ => false) fifoRun = true := by
    decide +kernel
  obtain ⟨-, m, hrun, hm⟩ := of_runCheck hcheck
  obtain ⟨hdelivered, hp⟩ := of_decide_eq_true hm
  obtain ⟨-, -, hpre, hzero⟩ := pipe_bounded_fifo hrun
  refine ⟨m, hrun, hdelivered, hpre, m.perform 1 (.release m.data (.didRead 2 0)),
    ?_, ?_⟩
  · simp only [step, hp]
    rfl
  · refine hzero 1 ⟨none, false⟩ 2 _ ?_ ?_ (by decide)
    · simp only [step, hp]
      rfl
    · exact setPhase_self m 1 _

end Runs

end Xv6.Pipes
