import Xv6.Bio.Cache
import Xv6.Log.Atomic

/-!
# The log over the buffer cache

`log.c` with any number of threads.  A step is one section under `log.lock` or
`bcache.lock`, one step of `acquiresleep`, or accesses to buffers whose sleep
locks the thread holds.

* `Instr`, `Phase`, `Committer`: `commit` as a program.  Each phase is the body
  of one loop or one call; the loop tests read `log.lh` when they are reached.
* `Pc`, `Sys`: where a thread stands, and the state they share.  `logged` is the
  list of blocks that the current section has written to the log.
* `beginOp`, `logWrite`, `endOp`, `commitTick`: the functions of `log.c`.
* `Act`, `stepE`, `step`: one step, which may be disabled or panic.

Threads other than the committing one leave the blocks of the log area alone.
-/

namespace Xv6.Log

open Xv6.Bio

/-- Max number of blocks that any file-system operation writes. -/
def MAXOPBLOCKS : Nat := 10

/-- `log.dev`. -/
def ROOTDEV : Nat := 1

/-! ## `commit` as a program -/

/-- The two buffers that `write_log` and `install_trans` hold; `write_head` has
one. -/
inductive Reg where
  | a
  | b
deriving DecidableEq, Repr

/-- The blocks that `commit` reads. -/
inductive BlockRef where
  /-- `log.start`. -/
  | header
  /-- `log.start+tail+1`. -/
  | slot (tail : Nat)
  /-- `log.lh.block[tail]`. -/
  | home (tail : Nat)
deriving DecidableEq, Repr

inductive Instr where
  /-- The section of `bget`. -/
  | bget (r : Reg) (ref : BlockRef)
  /-- The rest of `bread`: wait for the sleep lock, read the block if needed. -/
  | acquire (r : Reg)
  /-- `memmove(to->data, from->data, BSIZE); bwrite(to)`. -/
  | writeLog
  /-- The stores of `write_head` and its `bwrite`. -/
  | writeHead
  /-- `memmove(dbuf->data, lbuf->data, BSIZE); bwrite(dbuf)`. -/
  | install
  | bunpin (r : Reg)
  /-- `releasesleep`, called by `brelse`. -/
  | unlock (r : Reg)
  | brelse (r : Reg)
deriving DecidableEq, Repr

/-- The parts of `commit`, and the end of `end_op` behind it. -/
inductive Phase where
  | start
  | writeLog (tail : Nat)
  | writeHead
  | install (tail : Nat)
  | clear
  | clearHead
  | finish
deriving DecidableEq, Repr

/-- The body of `write_head`. -/
def headCode : List Instr :=
  [.bget .a .header, .acquire .a, .writeHead, .unlock .a, .brelse .a]

/-- The instructions of a phase. -/
def Phase.code : Phase → List Instr
  | .writeLog tail =>
    [.bget .a (.slot tail), .acquire .a, .bget .b (.home tail), .acquire .b, .writeLog,
      .unlock .b, .brelse .b, .unlock .a, .brelse .a]
  | .install tail =>
    [.bget .a (.slot tail), .acquire .a, .bget .b (.home tail), .acquire .b, .install,
      .bunpin .b, .unlock .a, .brelse .a, .unlock .b, .brelse .b]
  | .writeHead | .clearHead => headCode
  | .start | .clear | .finish => []

/-- A thread inside `commit`: the phase, the rest of its code and the buffers. -/
structure Committer where
  phase : Phase
  code : List Instr
  bufA : Nat
  bufB : Nat
deriving DecidableEq, Repr

def Committer.reg (c : Committer) : Reg → Nat
  | .a => c.bufA
  | .b => c.bufB

def Committer.setReg (c : Committer) (r : Reg) (buf : Nat) : Committer :=
  match r with
  | .a => { c with bufA := buf }
  | .b => { c with bufB := buf }

/-- The beginning of a phase. -/
def Phase.enter (p : Phase) : Committer := ⟨p, p.code, 0, 0⟩

/-! ## The state -/

/-- Where a thread stands. -/
inductive Pc where
  | outside
  /-- Between `begin_op` and `end_op`. -/
  | inside (logged : List Nat)
  /-- In the `commit` of `end_op`. -/
  | commit (c : Committer)
deriving DecidableEq, Repr

structure Sys where
  cache : Cache
  disk : Disk
  outstanding : Nat := 0
  committing : Bool := false
  /-- `log.lh.block[0..n)`. -/
  lh : List Nat := []
  pcs : Nat → Pc := fun _ => .outside

inductive Panic where
  /-- "too big a transaction". -/
  | tooBig
  /-- "log_write outside of trans". -/
  | outsideTrans
  /-- "log.committing". -/
  | committing
  /-- "bget: no buffers". -/
  | noBuffers
deriving DecidableEq, Repr

/-- Why a step is not taken. -/
inductive Stop where
  /-- The thread is elsewhere, or it waits. -/
  | disabled
  | panic (p : Panic)
deriving DecidableEq, Repr

section Code

variable (start : Nat)

def Sys.setPc (s : Sys) (t : Nat) (pc : Pc) : Sys :=
  { s with pcs := Function.update s.pcs t pc }

/-- A step of the cache. -/
def Sys.onCache (s : Sys) (a : Bio.Act) : Except Stop Sys :=
  match Bio.step s.cache a with
  | some cache => .ok { s with cache := cache }
  | none => .error .disabled

/-- The section of `bget`, with the buffer it returns. -/
def Sys.bget (s : Sys) (t blockno : Nat) : Except Stop (Nat × Sys) :=
  match s.cache.bc.bget ROOTDEV blockno with
  | .ok (buf, _) => do
    let s ← s.onCache (.bget t ROOTDEV blockno)
    .ok (buf, s)
  | .error .noBuffers => .error (.panic .noBuffers)
  | .error .noEnd => .error .disabled

/-- The rest of `bread`. -/
def Sys.acquire (s : Sys) (t buf : Nat) : Except Stop Sys := do
  let s ← s.onCache (.acquire t buf)
  s.onCache (.fill t buf (s.disk (s.cache.bc.bufs buf).blockno))

/-- The holder of a buffer stores `data` in it and calls `bwrite`. -/
def Sys.bwrite (s : Sys) (t buf : Nat) (data : Block) : Except Stop Sys := do
  let s ← s.onCache (.store t buf data)
  .ok { s with disk := Function.update s.disk (s.cache.bc.bufs buf).blockno data }

/-! ## Sections -/

/-- `begin_op`; it sleeps while the log is committing or might run out of space. -/
def beginOp (s : Sys) (t : Nat) : Except Stop Sys :=
  if s.pcs t ≠ .outside then .error .disabled
  else if s.committing then .error .disabled
  else if LOGBLOCKS < s.lh.length + (s.outstanding + 1) * MAXOPBLOCKS then .error .disabled
  else .ok ({ s with outstanding := s.outstanding + 1 }.setPc t (.inside []))

/-- A section stores `data` in a buffer it holds and calls `log_write`. -/
def logWrite (s : Sys) (t buf : Nat) (data : Block) : Except Stop Sys :=
  match s.pcs t with
  | .inside logged => do
    let s ← s.onCache (.store t buf data)
    let blockno := (s.cache.bc.bufs buf).blockno
    if LOGBLOCKS ≤ s.lh.length then .error (.panic .tooBig)
    else if s.outstanding < 1 then .error (.panic .outsideTrans)
    else
      let s := s.setPc t (.inside (logged.insert blockno))
      -- log absorption
      if blockno ∈ s.lh then .ok s
      else do
        let s ← s.onCache (.bpin buf)
        .ok { s with lh := s.lh ++ [blockno] }
  | _ => .error .disabled

/-- `end_op` up to the decision to commit. -/
def endOp (s : Sys) (t : Nat) : Except Stop Sys :=
  match s.pcs t with
  | .inside _ =>
    let s := { s with outstanding := s.outstanding - 1 }
    if s.committing then .error (.panic .committing)
    else if s.outstanding = 0 then
      .ok ({ s with committing := true }.setPc t (.commit Phase.start.enter))
    else .ok (s.setPc t .outside)
  | _ => .error .disabled

/-! ## Commit -/

/-- The block number that an instruction names. -/
def Sys.blockno (s : Sys) : BlockRef → Nat
  | .header => start
  | .slot tail => start + tail + 1
  | .home tail => s.lh.getD tail 0

/-- One instruction of `commit`. -/
def runInstr (s : Sys) (t : Nat) (c : Committer) : Instr → Except Stop (Sys × Committer)
  | .bget r ref => do
    let (buf, s) ← s.bget t (s.blockno start ref)
    .ok (s, c.setReg r buf)
  | .acquire r => do
    let s ← s.acquire t (c.reg r)
    .ok (s, c)
  | .writeLog => do
    let s ← s.bwrite t c.bufA (s.cache.bc.bufs c.bufB).data
    .ok (s, c)
  | .writeHead => do
    let s ← s.bwrite t c.bufA (putHead (s.cache.bc.bufs c.bufA).data s.lh)
    .ok (s, c)
  | .install => do
    let s ← s.bwrite t c.bufB (s.cache.bc.bufs c.bufA).data
    .ok (s, c)
  | .bunpin r => do
    let s ← s.onCache (.bunpin (c.reg r))
    .ok (s, c)
  | .unlock r => do
    let s ← s.onCache (.unlock t (c.reg r))
    .ok (s, c)
  | .brelse r => do
    let s ← s.onCache (.brelse t (c.reg r))
    .ok (s, c)

/-- The end of a phase. -/
def nextPhase (s : Sys) (t : Nat) : Phase → Sys
  | .start =>
    s.setPc t (.commit (if 0 < s.lh.length then (Phase.writeLog 0).enter else Phase.finish.enter))
  | .writeLog tail =>
    s.setPc t (.commit
      (if tail + 1 < s.lh.length then (Phase.writeLog (tail + 1)).enter else Phase.writeHead.enter))
  | .writeHead =>
    s.setPc t (.commit (if 0 < s.lh.length then (Phase.install 0).enter else Phase.clear.enter))
  | .install tail =>
    s.setPc t (.commit
      (if tail + 1 < s.lh.length then (Phase.install (tail + 1)).enter else Phase.clear.enter))
  | .clear => { s with lh := [] }.setPc t (.commit Phase.clearHead.enter)
  | .clearHead => s.setPc t (.commit Phase.finish.enter)
  | .finish => { s with committing := false }.setPc t .outside

/-- The next step of a thread inside `commit`. -/
def commitTick (s : Sys) (t : Nat) : Except Stop Sys :=
  match s.pcs t with
  | .commit c =>
    match c.code with
    | [] => .ok (nextPhase s t c.phase)
    | i :: rest => do
      let (s, c) ← runInstr start s t { c with code := rest } i
      .ok (s.setPc t (.commit c))
  | _ => .error .disabled

/-! ## Steps -/

inductive Act where
  | beginOp (t : Nat)
  /-- The section of `bget`, outside `commit`. -/
  | bget (t blockno : Nat)
  | acquire (t buf : Nat)
  | logWrite (t buf : Nat) (data : Block)
  | unlock (t buf : Nat)
  | brelse (t buf : Nat)
  | endOp (t : Nat)
  | commit (t : Nat)

/-- The thread is not inside `commit`. -/
def Sys.Free (s : Sys) (t : Nat) : Prop :=
  ∀ c, s.pcs t ≠ .commit c

instance (s : Sys) (t : Nat) : Decidable (s.Free t) :=
  match h : s.pcs t with
  | .outside => .isTrue fun c hc => by rw [h] at hc; cases hc
  | .inside w => .isTrue fun c hc => by rw [h] at hc; cases hc
  | .commit c => .isFalse fun hfree => hfree c h

/-- One step. -/
def stepE (s : Sys) : Act → Except Stop Sys
  | .beginOp t => beginOp s t
  | .bget t blockno =>
    if s.Free t ∧ ¬ InLog start blockno ∧ blockno < 2 ^ 32 then do
      let (_, s) ← s.bget t blockno
      .ok s
    else .error .disabled
  | .acquire t buf => if s.Free t then s.acquire t buf else .error .disabled
  | .logWrite t buf data => logWrite s t buf data
  | .unlock t buf => if s.Free t then s.onCache (.unlock t buf) else .error .disabled
  | .brelse t buf => if s.Free t then s.onCache (.brelse t buf) else .error .disabled
  | .endOp t => endOp s t
  | .commit t => commitTick start s t

def step (s : Sys) (a : Act) : Option Sys :=
  (stepE start s a).toOption

/-- The system after `binit` and `initlog`, on a disk whose log is empty. -/
def Sys.init (disk : Disk) : Sys where
  cache := Cache.init
  disk := disk

end Code

end Xv6.Log
