import Xv6.Disk.Block
import Xv6.Lib.Loop
import Xv6.Lib.Ring

/-!
# The buffer cache

`bio.c`.  The buffers are numbered below `NBUF`, and `head` is the node
`bcache.head` of the ring.

* `Buf`, `Bcache`, `binit`: the buffers and the pointers between them.  A sleep
  lock is the thread that holds it.
* `Bcache.bget`, `Bcache.brelse`, `Bcache.bpin`, `Bcache.bunpin`: the sections
  under `bcache.lock`.
* `Use`, `Cache`: the buffers with everybody who uses them.  A use begins with the
  section of `bget`; it waits for the sleep lock, holds it, and has given it
  back but still counts until the section of `brelse`.  `order` is the abstract
  list behind the ring: the buffers by how recently their last user left.
* `Act`, `step`: one section or one access of a holder to its buffer.
-/

namespace Xv6.Bio

open Xv6.Lib.Loop Xv6.Lib.Ring

/-- Size of the disk block cache. -/
def NBUF : Nat := 30

/-- `&bcache.head`. -/
def head : Nat := NBUF

/-- `struct buf`, without its pointers. -/
structure Buf where
  valid : Bool := false
  dev : Nat := 0
  blockno : Nat := 0
  lock : Option Nat := none
  refcnt : Nat := 0
  data : Block := zeroBlock

structure Bcache where
  links : Links Nat
  bufs : Nat → Buf

/-- Why `bget` does not return. -/
inductive Failure where
  /-- `panic("bget: no buffers")`. -/
  | noBuffers
  /-- A loop over the ring does not come back to the head. -/
  | noEnd
deriving DecidableEq, Repr

namespace Bcache

def set (c : Bcache) (b : Nat) (f : Buf → Buf) : Bcache :=
  { c with bufs := Function.update c.bufs b (f (c.bufs b)) }

/-- The section of `bget`: find the block, or take an unused buffer for it. -/
def bget (c : Bcache) (dev blockno : Nat) : Except Failure (Nat × Bcache) :=
  let cached b := decide ((c.bufs b).dev = dev ∧ (c.bufs b).blockno = blockno)
  -- Is the block already cached?
  match walk c.links.next head cached (NBUF + 1) (c.links.next head) with
  | none => .error .noEnd
  | some (some b) => .ok (b, c.set b fun x => { x with refcnt := x.refcnt + 1 })
  | some none =>
    -- Recycle the least recently used (LRU) unused buffer.
    match walk c.links.prev head (fun b => decide ((c.bufs b).refcnt = 0)) (NBUF + 1)
        (c.links.prev head) with
    | none => .error .noEnd
    | some none => .error .noBuffers
    | some (some b) =>
      .ok (b, c.set b fun x =>
        { x with dev := dev, blockno := blockno, valid := false, refcnt := 1 })

/-- The section of `brelse`: a buffer without users moves to the front. -/
def brelse (c : Bcache) (b : Nat) : Bcache :=
  let c := c.set b fun x => { x with refcnt := x.refcnt - 1 }
  if (c.bufs b).refcnt = 0 then { c with links := (c.links.unlink b).insertFront head b } else c

def bpin (c : Bcache) (b : Nat) : Bcache :=
  c.set b fun x => { x with refcnt := x.refcnt + 1 }

def bunpin (c : Bcache) (b : Nat) : Bcache :=
  c.set b fun x => { x with refcnt := x.refcnt - 1 }

end Bcache

/-- The cache after `binit`. -/
def binit : Bcache where
  links := forUpTo (fun b k => k.insertFront head b) NBUF ⟨fun _ => head, fun _ => head⟩
  bufs := fun _ => {}

/-! ## Users of the cache -/

/-- How far a thread is with a buffer. -/
inductive Stage where
  /-- In `acquiresleep`, called by `bget`. -/
  | waiting
  | holding
  /-- In `brelse`, behind `releasesleep`. -/
  | leaving
deriving DecidableEq, Repr

/-- The thread `tid` uses the buffer `buf`. -/
structure Use where
  tid : Nat
  buf : Nat
  stage : Stage
deriving DecidableEq, Repr

structure Cache where
  bc : Bcache
  uses : List Use := []
  /-- How often each buffer is pinned. -/
  pins : Nat → Nat := fun _ => 0
  order : List Nat

/-- The cache after `binit`, without users. -/
def Cache.init : Cache where
  bc := binit
  order := (List.range NBUF).reverse

/-- The use of a buffer goes on to its next stage. -/
def Cache.advance (s : Cache) (t b : Nat) (old new : Stage) : List Use :=
  ⟨t, b, new⟩ :: s.uses.erase ⟨t, b, old⟩

/-- What can happen to the cache. -/
inductive Act where
  | bget (t dev blockno : Nat)
  /-- `acquiresleep` succeeds. -/
  | acquire (t b : Nat)
  /-- `bread` reads `data` from the disk if the buffer is not valid. -/
  | fill (t b : Nat) (data : Block)
  /-- The holder changes the data. -/
  | store (t b : Nat) (data : Block)
  /-- `releasesleep`, called by `brelse`. -/
  | unlock (t b : Nat)
  | brelse (t b : Nat)
  | bpin (b : Nat)
  | bunpin (b : Nat)

/-- One step.  `bunpin` undoes a `bpin`. -/
def step (s : Cache) : Act → Option Cache
  | .bget t dev blockno =>
    match s.bc.bget dev blockno with
    | .ok (b, bc) => some { s with bc := bc, uses := ⟨t, b, .waiting⟩ :: s.uses }
    | .error _ => none
  | .acquire t b =>
    if ⟨t, b, .waiting⟩ ∈ s.uses ∧ (s.bc.bufs b).lock = none then
      some { s with
        bc := s.bc.set b fun x => { x with lock := some t }
        uses := s.advance t b .waiting .holding }
    else none
  | .fill t b data =>
    if ⟨t, b, .holding⟩ ∈ s.uses then
      some { s with bc := s.bc.set b fun x =>
        if x.valid then x else { x with valid := true, data := data } }
    else none
  | .store t b data =>
    if ⟨t, b, .holding⟩ ∈ s.uses then
      some { s with bc := s.bc.set b fun x => { x with data := data } }
    else none
  | .unlock t b =>
    if ⟨t, b, .holding⟩ ∈ s.uses then
      some { s with
        bc := s.bc.set b fun x => { x with lock := none }
        uses := s.advance t b .holding .leaving }
    else none
  | .brelse t b =>
    if ⟨t, b, .leaving⟩ ∈ s.uses then
      some { s with
        bc := s.bc.brelse b
        uses := s.uses.erase ⟨t, b, .leaving⟩
        order := if (s.bc.bufs b).refcnt - 1 = 0 then b :: s.order.erase b else s.order }
    else none
  | .bpin b =>
    if b < NBUF then
      some { s with bc := s.bc.bpin b, pins := Function.update s.pins b (s.pins b + 1) }
    else none
  | .bunpin b =>
    if b < NBUF ∧ 0 < s.pins b then
      some { s with bc := s.bc.bunpin b, pins := Function.update s.pins b (s.pins b - 1) }
    else none

end Xv6.Bio
