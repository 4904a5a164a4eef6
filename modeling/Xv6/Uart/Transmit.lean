import Mathlib.Data.List.Chain
import Xv6.Lib.Monitor

/-!
# The UART transmitter

`uartwrite` and the transmit half of `uartintr` of `kernel/uart.c`, with `tx_lock` as the
lock of the monitor and `tx_chan` as its only channel.  `uartputc_sync`, which writes to
`THR` without the lock, is not part of it.

* `Tx`, `Place`, `instr`: the state and the code.  The input of an instruction is the bit
  `LSR_TX_IDLE`, and an interrupt may come at any time.
* `Spaced`: the UART has reported that it is idle between two bytes.
* `discipline`: a process sleeps only while the UART is busy.
* `uart_transmit`.
-/

namespace Xv6.Uart

open Xv6.Lib.Run Xv6.Lib.Monitor

inductive Event where
  /-- `uartwrite` writes a byte to `THR`. -/
  | byte (b : UInt8)
  /-- `uartintr` finds the transmitter idle. -/
  | idle
  deriving DecidableEq

/-- `tx_busy`, and what happened so far, the last event first. -/
structure Tx where
  busy : Bool := false
  log : List Event := []

inductive Place where
  /-- The loop of `uartwrite`, with the bytes that are left. -/
  | write (buf : List UInt8)
  /-- `uartintr` reads `LSR`. -/
  | intr
  | intrWakeup
  | intrRelease

def instr (idle : Bool) (d : Tx) : Place → Instr Unit Tx Place Unit
  | .write [] => .release d ()
  | .write (b :: buf) =>
    if d.busy then .sleep () (.write (b :: buf)) else .move ⟨true, .byte b :: d.log⟩ (.write buf)
  | .intr => if idle then .move ⟨false, .idle :: d.log⟩ .intrWakeup else .release d ()
  | .intrWakeup => .wakeup () .intrRelease
  | .intrRelease => .release d ()

def code (nproc : Nat) : Code Unit Tx Place Unit Bool where
  nproc := nproc
  entry
    | .write _ | .intr => true
    | .intrWakeup | .intrRelease => false
  alive _ := true
  instr idle _ := instr idle

/-- After `uartinit`. -/
def initial (killed : Nat → Bool) : State Unit Tx Place Unit :=
  ⟨{}, none, fun _ => .out none, killed⟩

/-! ## What an instruction does -/

section Instr

variable {idle : Bool} {d d' : Tx} {l l' : Place} {r : Unit}

theorem instr_move (h : instr idle d l = .move d' l') :
    (∃ b, d.busy = false ∧ d' = ⟨true, .byte b :: d.log⟩) ∨
      d' = ⟨false, .idle :: d.log⟩ ∧ l' = .intrWakeup := by
  unfold instr at h
  repeat' split at h
  all_goals cases h
  · next b buf hbusy => exact .inl ⟨b, eq_false_of_ne_true hbusy, rfl⟩
  · exact .inr ⟨rfl, rfl⟩

theorem instr_sleep (h : instr idle d l = .sleep () l') : d.busy = true := by
  unfold instr at h
  repeat' split at h
  all_goals cases h
  assumption

theorem instr_release (h : instr idle d l = .release d' r) : d' = d ∧ l ≠ .intrWakeup := by
  unfold instr at h
  repeat' split at h
  all_goals cases h
  all_goals simp

end Instr

/-! ## What the transmitter keeps -/

/-- Not both events are bytes. -/
def Apart : Event → Event → Prop
  | .byte _, .byte _ => False
  | _, _ => True

/-- No byte follows a byte, and after a byte the transmitter is busy. -/
def Spaced (d : Tx) : Prop :=
  d.log.IsChain Apart ∧ (d.busy = false → ∀ b, d.log.head? ≠ some (.byte b))

theorem Spaced.byte {d : Tx} (h : Spaced d) (hbusy : d.busy = false) (b : UInt8) :
    Spaced ⟨true, .byte b :: d.log⟩ := by
  refine ⟨List.isChain_cons.mpr ⟨fun e he => ?_, h.1⟩, by simp⟩
  cases e with
  | byte b' => exact h.2 hbusy b' he
  | idle => trivial

theorem Spaced.idle {d : Tx} (h : Spaced d) : Spaced ⟨false, .idle :: d.log⟩ :=
  ⟨List.isChain_cons.mpr ⟨fun _ _ => trivial, h.1⟩, by simp⟩

theorem outline (nproc : Nat) : Outline (code nproc) Spaced fun _ _ => True where
  entry _ _ _ := trivial
  move h _ hinstr := by
    rcases instr_move hinstr with ⟨b, hbusy, rfl⟩ | ⟨rfl, -⟩
    · exact ⟨h.byte hbusy b, trivial⟩
    · exact ⟨h.idle, trivial⟩
  wakeup _ _ _ := trivial
  sleep _ _ _ _ _ := trivial
  release h _ hinstr := (instr_release hinstr).1 ▸ h

def justified (_ : Unit) (d : Tx) : Prop := d.busy = true

/-- Whoever has found the transmitter idle owes a wakeup. -/
def owes (_ : Unit) (_ : Bool) (_ : Tx) (l : Place) : Prop := l = .intrWakeup

theorem discipline (nproc : Nat) :
    Discipline (code nproc) Spaced (fun _ _ => True) justified owes where
  move _ _ hinstr _ _ := by
    rcases instr_move hinstr with ⟨b, -, rfl⟩ | ⟨-, rfl⟩
    · exact .inl rfl
    · exact .inr rfl
  wakeup _ _ _ _ _ := .inl rfl
  sleep _ _ hinstr := ⟨instr_sleep hinstr, fun _ _ => instr_sleep hinstr⟩
  release _ _ hinstr _ hor := by
    obtain ⟨rfl, hl⟩ := instr_release hinstr
    exact hor.resolve_right hl

/-! ## Runs -/

theorem inv_run {nproc : Nat} {killed : Nat → Bool} {acts : List (Act Place Bool)}
    {m : State Unit Tx Place Unit}
    (hrun : exec (step (code nproc)) (initial killed) acts = some m) :
    Asserts Spaced (fun _ _ => True) m ∧ Safe (code nproc) justified owes m := by
  apply inv_of_run (I := fun m => Asserts Spaced (fun _ _ => True) m ∧
    Safe (code nproc) justified owes m) ?_ ?_ hrun
  · intro s a t h hstep
    refine ⟨h.1.step (outline nproc) h.2.wf hstep, h.2.step (discipline nproc) h.1 ?_ hstep⟩
    cases a with
    | kill p => exact fun _ _ _ howe => howe
    | _ => trivial
  · exact ⟨⟨⟨.nil, by simp [initial]⟩, nofun, nofun⟩, Safe.initial ..⟩

/-- In every run of writers and interrupts the UART has reported that it is idle between
any two bytes of `uartwrite`, and whenever `tx_lock` is free and the transmitter is not busy,
no writer sleeps or is about to. -/
theorem uart_transmit {nproc : Nat} {killed : Nat → Bool} {acts : List (Act Place Bool)}
    {m : State Unit Tx Place Unit}
    (hrun : exec (step (code nproc)) (initial killed) acts = some m) :
    m.data.log.IsChain Apart ∧ (m.lock = none → m.data.busy = false →
      ∀ p l, m.phase p ≠ .doze () l ∧ m.phase p ≠ .asleep () l) := by
  obtain ⟨hasserts, hsafe⟩ := inv_run hrun
  refine ⟨hasserts.data.1, fun hfree hbusy p l => ?_⟩
  have hbed : (m.phase p).bed ≠ some () := fun hbed => by
    have hright : m.data.busy = true := hsafe.justified_of_free hfree hbed
    rw [hbusy] at hright
    cases hright
  exact ⟨fun hdoze => hbed (by rw [hdoze]; rfl), fun hasleep => hbed (by rw [hasleep]; rfl)⟩

/-- Writer 0 sends a byte and sleeps before the second one; the interrupt 1 wakes it up. -/
def twoBytes : List (Act Place Bool) :=
  [.call 0 (.write [1, 2]), .acquire 0, .run 0 false, .run 0 false, .fallAsleep 0, .call 1 .intr,
    .acquire 1, .run 1 true, .run 1 false, .wakeNext 1, .wakeNext 1, .wakeNext 1, .run 1 false,
    .acquire 0, .run 0 false, .run 0 false]

theorem uart_transmit_twoBytes :
    ∃ m, exec (step (code 2)) (initial fun _ => false) twoBytes = some m ∧
      m.data.log = [.byte 2, .idle, .byte 1] ∧ m.data.log.IsChain Apart ∧
      (m.lock = none → m.data.busy = false →
        ∀ p l, m.phase p ≠ .doze () l ∧ m.phase p ≠ .asleep () l) := by
  have hcheck : runCheck (step (code 2)) (fun _ _ => true)
      (fun m => decide (m.data.log = [.byte 2, .idle, .byte 1])) (initial fun _ => false)
      twoBytes = true := by
    decide +kernel
  obtain ⟨-, m, hrun, hlog⟩ := of_runCheck hcheck
  exact ⟨m, hrun, of_decide_eq_true hlog, uart_transmit hrun⟩

end Xv6.Uart
