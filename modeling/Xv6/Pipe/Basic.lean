import Xv6.Lib.Fifo
import Xv6.Lib.Monitor

/-!
# Pipes

`kernel/pipe.c` for one pipe and any number of processes, one instruction for each
turn of a loop.  `sleep`, `wakeup` and `kkill` are those of `Lib.Monitor`.

* `Pipe`: `struct pipe` without its lock.
* `Shared`: the pipe with its history.  `accepted` are the bytes stored by writers
  and `delivered` those copied to readers, both in order.
* `Place`: where a process is while it holds `pi->lock`.
* `instr`: the next instruction at each place, from `pipewrite`, `piperead` and
  `pipeclose`; `instr_allowed` says once what it can be.
* `pipealloc`: the state in which a pipe starts.
-/

namespace Xv6.Pipes

open Xv6.Lib.Fifo Xv6.Lib.Monitor

def PIPESIZE : Nat := 512

/-- `struct pipe`. -/
structure Pipe where
  data : Nat → UInt8
  nread : BitVec 32
  nwrite : BitVec 32
  readopen : Bool
  writeopen : Bool

structure Shared where
  pi : Pipe
  /-- The page of the pipe has been given to `kfree`. -/
  freed : Bool
  accepted : List UInt8
  delivered : List UInt8

/-- The two channels, `&pi->nread` and `&pi->nwrite`. -/
inductive Chan where
  | nread
  | nwrite
  deriving DecidableEq, Repr

inductive Place where
  /-- Top of the loop of `pipewrite`; `i` was `since` when the lock was taken. -/
  | write (n : Int) (i since : Nat)
  /-- Before the `sleep` of `pipewrite`. -/
  | writeFull (n : Int) (i : Nat)
  /-- After the last `wakeup` of `pipewrite`. -/
  | writeDone (n : Int) (i : Nat)
  /-- Top of the `while` loop of `piperead`. -/
  | read (n : Int)
  /-- Top of the `for` loop of `piperead`. -/
  | copy (n : Int) (i : Nat)
  /-- After the last `wakeup` of `piperead`. -/
  | readDone (n r : Int)
  /-- Start of `pipeclose`. -/
  | close (writable : Bool)
  /-- Before the `wakeup` of `pipeclose`. -/
  | closeWake (writable : Bool)
  /-- After the `wakeup` of `pipeclose`. -/
  | closeDone
  deriving DecidableEq

/-- The calls with their argument `n` and their result. -/
inductive Result where
  | wrote (n r : Int)
  | didRead (n r : Int)
  | closed
  deriving DecidableEq

/-- What the user memory has at the current address: `copyin` gives a byte or fails,
`copyout` succeeds or fails. -/
structure User where
  copyin : Option UInt8
  copyout : Bool

abbrev PipeInstr := Instr Chan Shared Place Result

/-! ## The state -/

def Pipe.empty (pi : Pipe) : Bool := pi.nread = pi.nwrite

def Pipe.full (pi : Pipe) : Bool := pi.nwrite = pi.nread + BitVec.ofNat 32 PIPESIZE

/-- `pi->data[pi->nwrite++ % PIPESIZE] = ch;` -/
def Shared.store (d : Shared) (ch : UInt8) : Shared :=
  { d with
    pi.data := Function.update d.pi.data (d.pi.nwrite.toNat % PIPESIZE) ch
    pi.nwrite := d.pi.nwrite + 1
    accepted := d.accepted ++ [ch] }

/-- `ch = pi->data[pi->nread % PIPESIZE]` -/
def Pipe.next (pi : Pipe) : UInt8 := pi.data (pi.nread.toNat % PIPESIZE)

/-- `pi->nread++` after the byte has been copied out. -/
def Shared.fetch (d : Shared) : Shared :=
  { d with pi.nread := d.pi.nread + 1, delivered := d.delivered ++ [d.pi.next] }

/-- The bytes in the pipe. -/
def Pipe.contents (pi : Pipe) : List UInt8 :=
  cells PIPESIZE pi.data pi.nread.toNat (pi.nwrite - pi.nread).toNat

/-! ## The code -/

/-- One turn of the loop of `pipewrite`. -/
def pipewrite (u : User) (killed : Bool) (d : Shared) (n : Int) (i since : Nat) : PipeInstr :=
  if (i : Int) < n then
    if d.pi.readopen = false ∨ killed = true then .release d (.wrote n (-1))
    else if d.pi.full then .wakeup .nread (.writeFull n i)
    else match u.copyin with
      | none => .wakeup .nread (.writeDone n i)
      | some ch => .move (d.store ch) (.write n (i + 1) since)
  else .wakeup .nread (.writeDone n i)

/-- One turn of the `while` loop of `piperead`. -/
def pipereadWait (killed : Bool) (d : Shared) (n : Int) : PipeInstr :=
  if d.pi.empty ∧ d.pi.writeopen = true then
    if killed = true then .release d (.didRead n (-1)) else .sleep .nread (.read n)
  else .move d (.copy n 0)

/-- One turn of the `for` loop of `piperead`. -/
def pipereadCopy (u : User) (d : Shared) (n : Int) (i : Nat) : PipeInstr :=
  if (i : Int) < n then
    if d.pi.empty then .wakeup .nwrite (.readDone n i)
    else if u.copyout then .move d.fetch (.copy n (i + 1))
    else .wakeup .nwrite (.readDone n (if i = 0 then -1 else i))
  else .wakeup .nwrite (.readDone n i)

def closeEnd (d : Shared) (writable : Bool) : Shared :=
  if writable then { d with pi.writeopen := false } else { d with pi.readopen := false }

/-- The end of `pipeclose`: the page is freed when both ends are closed. -/
def closeFree (d : Shared) : Shared :=
  if d.pi.readopen = false ∧ d.pi.writeopen = false then { d with freed := true } else d

def instr (u : User) (killed : Bool) (d : Shared) : Place → PipeInstr
  | .write n i since => pipewrite u killed d n i since
  | .writeFull n i => .sleep .nwrite (.write n i i)
  | .writeDone n i => .release d (.wrote n i)
  | .read n => pipereadWait killed d n
  | .copy n i => pipereadCopy u d n i
  | .readDone n r => .release d (.didRead n r)
  | .close writable => .move (closeEnd d writable) (.closeWake writable)
  | .closeWake writable => .wakeup (if writable then .nread else .nwrite) .closeDone
  | .closeDone => .release (closeFree d) .closed

/-! ## What an instruction can be -/

section Inversion

variable {u : User} {k : Bool} {d d' : Shared} {l l' : Place} {c : Chan} {r : Result}

/-- The instructions that go on with the lock. -/
inductive Moves (k : Bool) (d : Shared) : Place → Shared → Place → Prop
  | store {n : Int} {i since : Nat} (ch : UInt8) (hi : (i : Int) < n) (hopen : d.pi.readopen = true)
      (hk : k = false) (hfull : d.pi.full = false) :
      Moves k d (.write n i since) (d.store ch) (.write n (i + 1) since)
  | ready {n : Int} (hready : d.pi.empty = true → d.pi.writeopen = false) :
      Moves k d (.read n) d (.copy n 0)
  | fetch {n : Int} {i : Nat} (hempty : d.pi.empty = false) :
      Moves k d (.copy n i) d.fetch (.copy n (i + 1))
  | close (writable : Bool) : Moves k d (.close writable) (closeEnd d writable)
    (.closeWake writable)

/-- The instructions that wake a channel up. -/
inductive Wakes (d : Shared) : Place → Chan → Place → Prop
  | full {n : Int} {i since : Nat} (hopen : d.pi.readopen = true) (hfull : d.pi.full = true) :
      Wakes d (.write n i since) .nread (.writeFull n i)
  | wrote {n : Int} {i since : Nat} : Wakes d (.write n i since) .nread (.writeDone n i)
  | drained {n : Int} {i : Nat} (hempty : d.pi.empty = true) :
      Wakes d (.copy n i) .nwrite (.readDone n i)
  | fault {n : Int} {i : Nat} : Wakes d (.copy n i) .nwrite (.readDone n (if i = 0 then -1 else i))
  | enough {n : Int} {i : Nat} (hi : n ≤ i) : Wakes d (.copy n i) .nwrite (.readDone n i)
  | close (writable : Bool) :
      Wakes d (.closeWake writable) (if writable then .nread else .nwrite) .closeDone

/-- The instructions that sleep. -/
inductive Sleeps (d : Shared) : Place → Chan → Place → Prop
  | full {n : Int} {i : Nat} : Sleeps d (.writeFull n i) .nwrite (.write n i i)
  | empty {n : Int} (hempty : d.pi.empty = true) (hopen : d.pi.writeopen = true) :
      Sleeps d (.read n) .nread (.read n)

/-- The instructions that give the lock up. -/
inductive Leaves (k : Bool) (d : Shared) : Place → Shared → Result → Prop
  | refused {n : Int} {i since : Nat} (hi : (i : Int) < n)
      (hexit : d.pi.readopen = false ∨ k = true) :
      Leaves k d (.write n i since) d (.wrote n (-1))
  | wrote {n : Int} {i : Nat} : Leaves k d (.writeDone n i) d (.wrote n i)
  | killed {n : Int} : Leaves k d (.read n) d (.didRead n (-1))
  | read {n r : Int} : Leaves k d (.readDone n r) d (.didRead n r)
  | closed : Leaves k d .closeDone (closeFree d) .closed

/-- What an instruction does, by its kind. -/
def Allowed (k : Bool) (d : Shared) (l : Place) : PipeInstr → Prop
  | .move d' l' => Moves k d l d' l'
  | .wakeup c l' => Wakes d l c l'
  | .sleep c l' => Sleeps d l c l'
  | .release d' r => Leaves k d l d' r

theorem pipewrite_allowed (n : Int) (i since : Nat) :
    Allowed k d (.write n i since) (pipewrite u k d n i since) := by
  unfold pipewrite
  split
  · next hi =>
    split
    · next hexit => exact .refused hi hexit
    · next hexit =>
      rw [not_or, Bool.not_eq_false, Bool.not_eq_true] at hexit
      split
      · next hfull => exact .full hexit.1 hfull
      · next hfull =>
        split
        · exact .wrote
        · next ch _ => exact .store ch hi hexit.1 hexit.2 (Bool.eq_false_iff.mpr hfull)
  · exact .wrote

theorem pipereadWait_allowed (n : Int) : Allowed k d (.read n) (pipereadWait k d n) := by
  unfold pipereadWait
  split
  · next hwait =>
    split
    · exact .killed
    · exact .empty hwait.1 hwait.2
  · next hready =>
    refine .ready fun hempty => Bool.eq_false_iff.mpr ?_
    intro hopen
    exact hready ⟨hempty, hopen⟩

theorem pipereadCopy_allowed (n : Int) (i : Nat) :
    Allowed k d (.copy n i) (pipereadCopy u d n i) := by
  unfold pipereadCopy
  split
  · split
    · next hempty => exact .drained hempty
    · next hempty =>
      split
      · exact .fetch (Bool.eq_false_iff.mpr hempty)
      · exact .fault
  · next hi => exact .enough (Int.not_lt.mp hi)

/-- Every instruction of the pipe code is one of those above. -/
theorem instr_allowed : Allowed k d l (instr u k d l) := by
  cases l with
  | write n i since => exact pipewrite_allowed n i since
  | writeFull n i => exact .full
  | writeDone n i => exact .wrote
  | read n => exact pipereadWait_allowed n
  | copy n i => exact pipereadCopy_allowed n i
  | readDone n r => exact .read
  | close writable => exact .close writable
  | closeWake writable => exact .close writable
  | closeDone => exact .closed

theorem moves_of_instr (h : instr u k d l = .move d' l') : Moves k d l d' l' := by
  have hallowed := instr_allowed (u := u) (k := k) (d := d) (l := l)
  rwa [h] at hallowed

theorem wakes_of_instr (h : instr u k d l = .wakeup c l') : Wakes d l c l' := by
  have hallowed := instr_allowed (u := u) (k := k) (d := d) (l := l)
  rwa [h] at hallowed

theorem sleeps_of_instr (h : instr u k d l = .sleep c l') : Sleeps d l c l' := by
  have hallowed := instr_allowed (u := u) (k := k) (d := d) (l := l)
  rwa [h] at hallowed

theorem leaves_of_instr (h : instr u k d l = .release d' r) : Leaves k d l d' r := by
  have hallowed := instr_allowed (u := u) (k := k) (d := d) (l := l)
  rwa [h] at hallowed

end Inversion

/-! ## The processes together -/

/-- The places where a call takes the lock for the first time. -/
def Place.entry : Place → Bool
  | .write _ i since => i = 0 ∧ since = 0
  | .read _ | .close _ => true
  | .writeFull .. | .writeDone .. | .copy .. | .readDone .. | .closeWake _ | .closeDone => false

/-- The pipe code of a kernel with `nproc` process slots. -/
def code (nproc : Nat) : Code Chan Shared Place Result User where
  nproc := nproc
  entry := Place.entry
  alive d := !d.freed
  instr := instr

abbrev PipeSys := State Chan Shared Place Result

/-- A new pipe: `pipealloc` sets everything but the bytes of the buffer. -/
def pipealloc (data : Nat → UInt8) : Shared where
  pi := { data, nread := 0, nwrite := 0, readopen := true, writeopen := true }
  freed := false
  accepted := []
  delivered := []

/-- Nobody uses the pipe yet; processes may have been killed already. -/
def initial (data : Nat → UInt8) (killed : Nat → Bool) : PipeSys where
  data := pipealloc data
  lock := none
  phase _ := .out none
  killed := killed

end Xv6.Pipes
