import Xv6.Lib.Run
import Mathlib.Algebra.Ring.Nat
import Mathlib.Logic.Function.Basic

/-!
# The allocator of user programs

The memory allocator of `user/umalloc.c`: a circular list of free blocks through
the static header `base`, searched from the roving pointer `freep`.

* `Heap`: the headers in memory, by their address, with `freep`; an address is a
  number, and the null pointer is 0.  The environment `E` is what `sbrk` works on.
* `free`: the search `findPlace` for the neighbours of the block, and `link`,
  which inserts the block and merges it with them.
* `malloc`: the search for a block that is large enough, with `carve`, which cuts
  the block off it, and `morecore`, which gets memory from `sbrk`.
* `Sys`, `step`: runs of calls of `malloc` and `free`, in which only live blocks
  are freed.

The loops take a bound on the number of their rounds.  When it is reached, `free`
returns `none`, and `malloc` an error with the environment.  A run bounds the
loops by the number of calls before, and is `stuck` when they go on.
-/

namespace Xv6.Umalloc

/-! ## Headers -/

/-- `sizeof(Header)`. -/
def headerSize : Nat := 16

/-- The allocator's view of user memory: the fields of the header at an address,
and `freep`. -/
structure Heap (E : Type) where
  ptr : Nat → Nat
  size : Nat → Nat
  freep : Nat
  env : E

variable {E : Type}

/-- `p->s.ptr = q`. -/
def Heap.setPtr (h : Heap E) (p q : Nat) : Heap E :=
  { h with ptr := Function.update h.ptr p q }

/-- `p->s.size = n`, for a `uint`. -/
def Heap.setSize (h : Heap E) (p n : Nat) : Heap E :=
  { h with size := Function.update h.size p (n % 2 ^ 32) }

/-- `p + p->s.size`. -/
def Heap.after (h : Heap E) (p : Nat) : Nat :=
  p + headerSize * h.size p

/-! ## Freeing -/

/-- The loop of `free`, from the node `p`: the node after which `bp` belongs. -/
def findPlace (h : Heap E) (bp : Nat) : Nat → Nat → Option Nat
  | 0, _ => none
  | fuel + 1, p =>
    if bp > p ∧ bp < h.ptr p then some p
    else if p ≥ h.ptr p ∧ (bp > p ∨ bp < h.ptr p) then some p
    else findPlace h bp fuel (h.ptr p)

/-- The first half of the insertion of `bp` after `p`: merge `bp` with the block
after it, or let it point there. -/
def linkNext (h : Heap E) (bp p : Nat) : Heap E :=
  if h.after bp = h.ptr p then
    let h := h.setSize bp (h.size bp + h.size (h.ptr p))
    h.setPtr bp (h.ptr (h.ptr p))
  else h.setPtr bp (h.ptr p)

/-- The second half: merge `p` with `bp`, or let it point there. -/
def linkPrev (h : Heap E) (bp p : Nat) : Heap E :=
  if h.after p = bp then
    let h := h.setSize p (h.size p + h.size bp)
    h.setPtr p (h.ptr bp)
  else h.setPtr p bp

/-- Give the block at `ap` back. -/
def free (fuel : Nat) (ap : Nat) (h : Heap E) : Option (Heap E) :=
  let bp := ap - headerSize
  (findPlace h bp fuel h.freep).map fun p =>
    { linkPrev (linkNext h bp p) bp p with freep := p }

/-! ## Allocating -/

/-- The system call that extends the memory of the program: the address of the
new memory, or `none` for `SBRK_ERROR`, and the environment afterwards. -/
abbrev Sbrk (E : Type) := E → Nat → Option Nat × E

/-- Ask `sbrk` for `nu` units at least.  The result is `freep`, or 0 if there is
no memory. -/
def morecore (sbrk : Sbrk E) (fuel nu : Nat) (h : Heap E) : Except E (Nat × Heap E) :=
  let nu := if nu < 4096 then 4096 else nu
  match sbrk h.env (nu * headerSize) with
  | (none, env) => .ok (0, { h with env := env })
  | (some hp, env) =>
    let h := { h with env := env }.setSize hp nu
    match free fuel (hp + headerSize) h with
    | none => .error env
    | some h => .ok (h.freep, h)

/-- Cut `nunits` units off the block `p`, whose predecessor is `prevp`: the whole
block, or its tail. -/
def carve (nunits : Nat) (h : Heap E) (prevp p : Nat) : Nat × Heap E :=
  if h.size p = nunits then
    (p + headerSize, { h.setPtr prevp (h.ptr p) with freep := prevp })
  else
    let h := h.setSize p (h.size p - nunits)
    let p := h.after p
    (p + headerSize, { h.setSize p nunits with freep := prevp })

/-- The loop of `malloc`, at the node `p` after `prevp`. -/
def mallocLoop (sbrk : Sbrk E) (fuel nunits : Nat) :
    Nat → Heap E → Nat → Nat → Except E (Nat × Heap E)
  | 0, h, _, _ => .error h.env
  | rounds + 1, h, prevp, p =>
    if h.size p ≥ nunits then .ok (carve nunits h prevp p)
    else if p = h.freep then
      match morecore sbrk fuel nunits h with
      | .error env => .error env
      | .ok (p, h) =>
        if p = 0 then .ok (0, h) else mallocLoop sbrk fuel nunits rounds h p (h.ptr p)
    else mallocLoop sbrk fuel nunits rounds h p (h.ptr p)

/-- The units of a block of `nbytes` bytes, with its header. -/
def nunits (nbytes : Nat) : Nat :=
  ((nbytes + headerSize - 1) / headerSize + 1) % 2 ^ 32

/-- The start of `malloc`: the first call makes `base` the only node of the list. -/
def prepare (base : Nat) (h : Heap E) : Heap E :=
  if h.freep = 0 then ({ h with freep := base }.setPtr base base).setSize base 0 else h

/-- Allocate `nbytes` bytes: the address of the block, or 0. -/
def malloc (base : Nat) (sbrk : Sbrk E) (fuel nbytes : Nat) (h : Heap E) :
    Except E (Nat × Heap E) :=
  let h := prepare base h
  mallocLoop sbrk fuel (nunits nbytes) fuel h h.freep (h.ptr h.freep)

/-! ## Runs -/

/-- A program that uses the allocator. -/
structure Sys (E : Type) where
  heap : Heap E
  /-- The blocks that are in use: the address and the size asked for. -/
  live : List (Nat × Nat) := []
  /-- The number of calls so far. -/
  calls : Nat := 0
  /-- A loop of the last call does not end in time. -/
  stuck : Bool := false

/-- The program before its first call: all its static data is zero. -/
def init (env : E) : Sys E where
  heap := { ptr := fun _ => 0, size := fun _ => 0, freep := 0, env := env }

inductive Act where
  | malloc (nbytes : BitVec 32)
  | free (ap : Nat)
  deriving DecidableEq, Repr

/-- The bound on the rounds of the loops in a call. -/
def Sys.fuel (s : Sys E) : Nat :=
  2 * s.calls + 6

/-- One call. -/
def step (base : Nat) (sbrk : Sbrk E) (s : Sys E) : Act → Option (Sys E)
  | .malloc nbytes =>
    if s.stuck then none
    else match malloc base sbrk s.fuel nbytes.toNat s.heap with
      | .error env => some { s with heap := { s.heap with env := env }, stuck := true }
      | .ok (ap, heap) => some { s with
          heap := heap, calls := s.calls + 1,
          live := if ap = 0 then s.live else (ap, nbytes.toNat) :: s.live }
  | .free ap =>
    if s.stuck then none
    else match s.live.find? (·.1 == ap) with
      | none => none
      | some b => match free s.fuel ap s.heap with
        | none => some { s with stuck := true }
        | some heap => some { s with
            heap := heap, calls := s.calls + 1, live := s.live.erase b }

end Xv6.Umalloc
