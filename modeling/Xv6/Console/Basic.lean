import Xv6.Lib.Fifo
import Xv6.Lib.Run

/-!
# Console input

The input half of `kernel/console.c`: the interrupt handler, which edits the line
that is being typed, and `consoleread`, which takes committed bytes out of the
buffer.  Both run under `cons.lock`, and a reader gives the lock up where it
sleeps, so these are the steps of the model.

* `Cons`: the buffer with its three free-running indices.
* `consoleintr`: one input character.
* `readLoop`: what a call of `consoleread` does between two points where it gives
  the lock up.
* `Sys`, `step`: runs of any number of readers.  The fields after `reads` record
  the history of the run and are not read by the code.

The output of `consputc` and `procdump` is left out, and so is `wakeup`: a reader
that sleeps may go on at any time, as one that is killed does, and tests again
whether there is input.
-/

namespace Xv6.Console

open Xv6.Lib.Fifo Xv6.Lib.Run

def INPUT_BUF_SIZE : Nat := 128

/-- Control-D, end of file. -/
def ctrlD : UInt8 := 0x04

/-- Control-H, backspace. -/
def ctrlH : UInt8 := 0x08

/-- Control-P, print the process list. -/
def ctrlP : UInt8 := 0x10

/-- Control-U, kill the line. -/
def ctrlU : UInt8 := 0x15

/-- The delete key. -/
def delete : UInt8 := 0x7f

def newline : UInt8 := 0x0a

def carriageReturn : UInt8 := 0x0d

/-- The input buffer: `r` is the read index, `w` the write index and `e` the edit
index. -/
structure Cons where
  buf : Nat → UInt8
  r : BitVec 32
  w : BitVec 32
  e : BitVec 32

/-- `cons.buf[i % INPUT_BUF_SIZE]`. -/
def Cons.at (c : Cons) (i : BitVec 32) : UInt8 :=
  c.buf (i.toNat % INPUT_BUF_SIZE)

/-! ## The interrupt handler -/

/-- The loop that kills the line; every round brings `e` nearer to `w`. -/
def killLoop : Nat → Cons → Cons
  | 0, c => c
  | k + 1, c =>
    if c.e ≠ c.w ∧ c.at (c.e - 1) ≠ newline then killLoop k { c with e := c.e - 1 } else c

/-- There is room for another character. -/
def Cons.hasRoom (c : Cons) : Bool :=
  decide ((c.e - c.r).toNat < INPUT_BUF_SIZE)

/-- Store a character, and commit the line if it is complete or the buffer full. -/
def Cons.store (c : Cons) (ch : UInt8) : Cons :=
  let c := { c with buf := Function.update c.buf (c.e.toNat % INPUT_BUF_SIZE) ch, e := c.e + 1 }
  if ch = newline ∨ ch = ctrlD ∨ (c.e - c.r).toNat = INPUT_BUF_SIZE then { c with w := c.e } else c

/-- A carriage return becomes a newline. -/
def translate (ch : UInt8) : UInt8 :=
  if ch = carriageReturn then newline else ch

/-- One input character. -/
def consoleintr (ch : UInt8) (c : Cons) : Cons :=
  if ch = ctrlP then c
  else if ch = ctrlU then killLoop (c.e - c.w).toNat c
  else if ch = ctrlH ∨ ch = delete then
    if c.e ≠ c.w then { c with e := c.e - 1 } else c
  else if ch ≠ 0 ∧ c.hasRoom = true then c.store (translate ch)
  else c

/-! ## Reading -/

/-- A call of `consoleread`: the next address, the bytes still wanted, and the
bytes wanted at first. -/
structure Read where
  dst : Nat
  n : Nat
  target : Nat
  deriving DecidableEq, Repr

/-- What readers do: store a byte, consume an end of file, return. -/
inductive Event where
  | stored (i dst : Nat) (ch : UInt8)
  | eof (i : Nat)
  | returned (i : Nat) (v : Int)
  deriving DecidableEq, Repr

/-- The buffer when a reader gives the lock up, with the rest of the call unless it
has returned, what it did, and the bytes that it took but could not store. -/
structure Outcome where
  cons : Cons
  rest : Option Read
  log : List Event
  lost : List UInt8

/-- The loop of `consoleread` for the process `i`, from the point where it has the
lock until it sleeps or returns.  `copies` says at which addresses
`either_copyout` succeeds. -/
def readLoop (i : Nat) (killed : Bool) (copies : Nat → Bool) (target : Nat) :
    Nat → Nat → Cons → Outcome
  | 0, _, c => ⟨c, none, [.returned i target], []⟩
  | n + 1, dst, c =>
    if c.r = c.w then
      if killed then ⟨c, none, [.returned i (-1)], []⟩ else ⟨c, some ⟨dst, n + 1, target⟩, [], []⟩
    else
      let ch := c.at c.r
      let c := { c with r := c.r + 1 }
      if ch = ctrlD then
        -- a read that has stored bytes leaves it for the next one
        if n + 1 < target then ⟨{ c with r := c.r - 1 }, none, [.returned i (target - (n + 1))], []⟩
        else ⟨c, none, [.eof i, .returned i (target - (n + 1))], []⟩
      else if copies dst then
        if ch = newline then ⟨c, none, [.stored i dst ch, .returned i (target - n)], []⟩
        else
          let o := readLoop i killed copies target n (dst + 1) c
          { o with log := .stored i dst ch :: o.log }
      else ⟨c, none, [.returned i (target - (n + 1))], [ch]⟩

/-! ## Runs -/

/-- The console and its readers. -/
structure Sys where
  cons : Cons
  reads : Nat → Option Read
  /-- The characters accepted since the last commit. -/
  accepted : List UInt8 := []
  /-- The bytes committed so far. -/
  committed : List UInt8 := []
  /-- What readers have done so far. -/
  log : List Event := []
  /-- The bytes that were taken but not stored. -/
  lost : List UInt8 := []

/-- The console at boot. -/
def init : Sys where
  cons := { buf := fun _ => 0, r := 0, w := 0, e := 0 }
  reads := fun _ => none

inductive Act where
  /-- An input character. -/
  | intr (ch : UInt8)
  /-- A process calls `consoleread`; a count that is not positive reads nothing. -/
  | read (i dst : Nat) (n : Int)
  /-- A reader gets the lock. -/
  | run (i : Nat) (killed : Bool) (copies : Nat → Bool)

/-- The character is not dropped: it edits the line, or there is room for it. -/
def Cons.accepts (c : Cons) (ch : UInt8) : Bool :=
  decide (ch = ctrlP ∨ ch = ctrlU ∨ ch = ctrlH ∨ ch = delete) || (decide (ch ≠ 0) && c.hasRoom)

/-- The bytes from the index `i` to the index `j`. -/
def Cons.between (c : Cons) (i j : BitVec 32) : List UInt8 :=
  cells INPUT_BUF_SIZE c.buf i.toNat (j - i).toNat

def Sys.intr (s : Sys) (ch : UInt8) : Sys :=
  let c := consoleintr ch s.cons
  if c.w = s.cons.w then
    { s with cons := c, accepted := if s.cons.accepts ch then s.accepted ++ [ch] else s.accepted }
  else { s with cons := c, accepted := [], committed := s.committed ++ c.between s.cons.w c.w }

def step (s : Sys) : Act → Option Sys
  | .intr ch => some (s.intr ch)
  | .read i dst n =>
    if s.reads i = none then
      some { s with reads := Function.update s.reads i (some ⟨dst, n.toNat, n.toNat⟩) }
    else none
  | .run i killed copies =>
    match s.reads i with
    | none => none
    | some rd =>
      let o := readLoop i killed copies rd.target rd.n rd.dst s.cons
      some { s with
        cons := o.cons, reads := Function.update s.reads i o.rest
        log := s.log ++ o.log, lost := s.lost ++ o.lost }

end Xv6.Console
