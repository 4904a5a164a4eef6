import Xv6.Disk.Block
import Xv6.Lib.Fifo
import Xv6.Lib.Monitor

/-!
# The disk driver

`virtio_disk_rw` and `virtio_disk_intr` of `kernel/virtio_disk.c` as code under
`disk.vdisk_lock`, and the device behind the two rings.

* `Disk`: the descriptors, the rings and the driver's own book-keeping, with the field
  `disk` of the buffers and what the device knows.
* `allocDesc`, `freeDesc`, `format`: the functions on the descriptors.
* `Place`, `instr`, `code`: the driver, from one access to shared memory to the next.
  `alloc3_desc` takes the descriptors one by one and gives them back one by one if there
  are not enough.
* `consume`, `complete`: the device takes a chain from the avail ring, and returns it
  in the used ring.  It reads a chain through the pointers of the descriptors, and writes
  the status where the last one says.
* `Event`, `step`: any number of callers, and the device between any two accesses.
-/

namespace Xv6.Virtio

open Xv6.Lib.Run Xv6.Lib.Monitor Xv6.Lib.Fifo
open Function (update)

/-! ## Memory -/

/-- The number of descriptors, and of cells in each ring. -/
def NUM : Nat := 8

def VRING_DESC_F_NEXT : Nat := 1

def VRING_DESC_F_WRITE : Nat := 2

def VIRTIO_BLK_T_IN : Nat := 0

def VIRTIO_BLK_T_OUT : Nat := 1

/-- What a descriptor points to. -/
inductive Addr where
  | null
  /-- `&disk.ops[i]` -/
  | ops (i : Nat)
  /-- `b->data` -/
  | data (b : Nat)
  /-- `&disk.info[i].status` -/
  | status (i : Nat)
  deriving DecidableEq, Repr

/-- `struct virtq_desc`. -/
structure Desc where
  addr : Addr
  len : Nat
  flags : Nat
  next : Nat
  deriving DecidableEq, Repr

/-- `struct virtio_blk_req`. -/
structure BlkReq where
  type : Nat
  reserved : Nat
  sector : Nat
  deriving DecidableEq, Repr

structure Info where
  b : Option Nat
  status : Nat
  deriving DecidableEq, Repr

/-- `struct virtq_avail` and `struct virtq_used`: the counter is not reduced modulo
`NUM`, but wraps around. -/
structure Ring where
  idx : BitVec 16
  ring : Nat → Nat

structure Disk where
  desc : Nat → Desc
  avail : Ring
  used : Ring
  free : Nat → Bool
  usedIdx : BitVec 16
  info : Nat → Info
  ops : Nat → BlkReq
  /-- The field `disk` of each buffer. -/
  disk : Nat → Nat
  /-- How far the device has read the avail ring. -/
  seen : BitVec 16
  /-- The chains that the device works on. -/
  taken : List Nat

/-- A call of `virtio_disk_rw`. -/
structure Req where
  b : Nat
  blockno : Nat
  write : Bool
  deriving DecidableEq, Repr

/-- The three descriptors `idx` of a request. -/
structure Chain where
  head : Nat
  data : Nat
  status : Nat
  deriving DecidableEq, Repr

def Chain.list (c : Chain) : List Nat := [c.head, c.data, c.status]

/-! ## Descriptors -/

inductive Panic where
  /-- `free_desc 1` -/
  | freeDesc1
  /-- `free_desc 2` -/
  | freeDesc2
  /-- `virtio_disk_intr status` -/
  | intrStatus
  /-- A null pointer is followed. -/
  | kerneltrap
  deriving DecidableEq, Repr

def allocDesc (d : Disk) : Option Nat := (List.range NUM).find? d.free

/-- `free_desc`, up to its `wakeup`. -/
def freeDesc (d : Disk) (i : Nat) : Except Panic Disk :=
  if i ≥ NUM then .error .freeDesc1
  else if d.free i = true then .error .freeDesc2
  else .ok { d with
    desc := update d.desc i { addr := .null, len := 0, flags := 0, next := 0 }
    free := update d.free i true }

/-- The first descriptor of a request. -/
def headDesc (c : Chain) : Desc :=
  { addr := .ops c.head, len := 16, flags := VRING_DESC_F_NEXT, next := c.data }

/-- The second descriptor of a request: the device reads or writes `b->data`. -/
def dataDesc (r : Req) (c : Chain) : Desc :=
  { addr := .data r.b, len := BSIZE
    flags := (if r.write then 0 else VRING_DESC_F_WRITE) ||| VRING_DESC_F_NEXT, next := c.status }

/-- The third descriptor of a request: the device writes the status. -/
def statusDesc (c : Chain) : Desc :=
  { addr := .status c.head, len := 1, flags := VRING_DESC_F_WRITE, next := 0 }

def blkReq (r : Req) : BlkReq :=
  { type := if r.write then VIRTIO_BLK_T_OUT else VIRTIO_BLK_T_IN, reserved := 0
    sector := r.blockno * (BSIZE / 512) % 2 ^ 32 }

/-- The request is written down. -/
def format (d : Disk) (r : Req) (c : Chain) : Disk :=
  { d with
    ops := update d.ops c.head (blkReq r)
    desc := update (update (update d.desc c.head (headDesc c))
      c.data (dataDesc r c)) c.status (statusDesc c)
    info := update d.info c.head { b := some r.b, status := 0xff }
    disk := update d.disk r.b 1 }

/-! ## The driver -/

/-- The channels `&disk.free[0]` and `b`. -/
inductive Chan where
  | free
  | buf (b : Nat)
  deriving DecidableEq, Repr

inductive Place where
  /-- In `alloc3_desc`, with the descriptors so far. -/
  | alloc (r : Req) (idx : List Nat)
  /-- In the loop of `alloc3_desc` that frees descriptors. -/
  | undo (r : Req) (idx : List Nat)
  /-- In that loop, before the `wakeup` of `free_desc`. -/
  | undone (r : Req) (idx : List Nat)
  | format (r : Req) (c : Chain)
  /-- Before the store to the avail ring. -/
  | ring (r : Req) (c : Chain)
  /-- Before the increment of `avail->idx`. -/
  | publish (r : Req) (c : Chain)
  /-- In the loop that waits for `b->disk`. -/
  | wait (r : Req) (c : Chain)
  | finish (r : Req) (c : Chain)
  /-- In `free_chain`, at the descriptor `i`. -/
  | freeChain (r : Req) (c : Chain) (i : Nat)
  /-- In `free_chain`, before the `wakeup` of `free_desc`. -/
  | freed (r : Req) (c : Chain) (next : Option Nat)
  | done (r : Req) (c : Chain)
  /-- In the loop of `virtio_disk_intr`. -/
  | intr
  /-- In the body of that loop. -/
  | entry
  /-- Before its `wakeup`. -/
  | wake (b : Nat)
  /-- Before the increment of `used_idx`. -/
  | advance
  | panicked (e : Panic)
  deriving DecidableEq, Repr

abbrev DiskInstr := Instr Chan Disk Place Unit

/-- One turn of the loop of `alloc3_desc`, or its end. -/
def allocNext (d : Disk) (r : Req) : List Nat → DiskInstr
  | [i, j, k] => .move d (.format r { head := i, data := j, status := k })
  | idx =>
    match allocDesc d with
    | some i => .move { d with free := update d.free i false } (.alloc r (idx ++ [i]))
    | none => .move d (.undo r idx)

/-- The body of the loop of `virtio_disk_intr`, up to its `wakeup`. -/
def intrEntry (d : Disk) : DiskInstr :=
  let id := d.used.ring (d.usedIdx.toNat % NUM)
  if (d.info id).status ≠ 0 then .move d (.panicked .intrStatus)
  else match (d.info id).b with
    | some b => .move { d with disk := update d.disk b 0 } (.wake b)
    | none => .move d (.panicked .kerneltrap)

/-- The next descriptor of a chain. -/
def Desc.link (x : Desc) : Option Nat :=
  if x.flags &&& VRING_DESC_F_NEXT ≠ 0 then some x.next else none

def instr (_ : Unit) (_ : Bool) (d : Disk) : Place → DiskInstr
  | .alloc r idx => allocNext d r idx
  | .undo r [] => .sleep .free (.alloc r [])
  | .undo r (j :: idx) =>
    match freeDesc d j with
    | .ok d' => .move d' (.undone r idx)
    | .error e => .move d (.panicked e)
  | .undone r idx => .wakeup .free (.undo r idx)
  | .format r c => .move (format d r c) (.ring r c)
  | .ring r c =>
    .move { d with avail.ring := update d.avail.ring (d.avail.idx.toNat % NUM) c.head }
      (.publish r c)
  | .publish r c => .move { d with avail.idx := d.avail.idx + 1 } (.wait r c)
  | .wait r c => if d.disk r.b = 1 then .sleep (.buf r.b) (.wait r c) else .move d (.finish r c)
  | .finish r c =>
    .move { d with info := update d.info c.head { d.info c.head with b := none } }
      (.freeChain r c c.head)
  | .freeChain r c i =>
    match freeDesc d i with
    | .ok d' => .move d' (.freed r c (d.desc i).link)
    | .error e => .move d (.panicked e)
  | .freed r c (some i) => .wakeup .free (.freeChain r c i)
  | .freed r c none => .wakeup .free (.done r c)
  | .done _ _ => .release d ()
  | .intr => if d.usedIdx ≠ d.used.idx then .move d .entry else .release d ()
  | .entry => intrEntry d
  | .wake b => .wakeup (.buf b) .advance
  | .advance => .move { d with usedIdx := d.usedIdx + 1 } .intr
  | .panicked e => .move d (.panicked e)

def Place.isEntry : Place → Bool
  | .alloc _ [] | .intr => true
  | _ => false

/-- The code for `nproc` callers. -/
def code (nproc : Nat) : Code Chan Disk Place Unit Unit where
  nproc := nproc
  entry := Place.isEntry
  alive _ := true
  instr := instr

abbrev Sys := State Chan Disk Place Unit

/-! ## The device -/

/-- The device takes the next chain from the avail ring. -/
def consume (d : Disk) : Option Disk :=
  if d.seen ≠ d.avail.idx then
    some { d with seen := d.seen + 1, taken := d.taken ++ [d.avail.ring (d.seen.toNat % NUM)] }
  else none

/-- The address of the data of the chain at `h`, as the device finds it. -/
def dataAddr (d : Disk) (h : Nat) : Addr := (d.desc (d.desc h).next).addr

/-- The address of the status of the chain at `h`, as the device finds it. -/
def statusAddr (d : Disk) (h : Nat) : Addr := (d.desc (d.desc (d.desc h).next).next).addr

/-- The device writes the status 0 to an address. -/
def writeStatus (d : Disk) : Addr → Disk
  | .status i => { d with info := update d.info i { d.info i with status := 0 } }
  | _ => d

/-- The device has done the work of the chain at `h` and puts it in the used ring. -/
def complete (d : Disk) (h : Nat) : Option Disk :=
  if h ∈ d.taken then
    some { writeStatus d (statusAddr d h) with
      used := { idx := d.used.idx + 1, ring := update d.used.ring (d.used.idx.toNat % NUM) h }
      taken := d.taken.erase h }
  else none

/-! ## Driver and device together -/

/-- The request that a caller is busy with. -/
def Place.req : Place → Option Req
  | .alloc r _ | .undo r _ | .undone r _ | .format r _ | .ring r _ | .publish r _ | .wait r _
  | .finish r _ | .freeChain r _ _ | .freed r _ _ | .done r _ => some r
  | .intr | .entry | .wake _ | .advance | .panicked _ => none

/-- The request of a caller, if it is in a call of `virtio_disk_rw`. -/
def siteReq : Option Unit ⊕ Place → Option Req
  | .inl _ => none
  | .inr l => l.req

inductive Event where
  | act (a : Act Place Unit)
  | consume
  | complete (h : Nat)

/-- `bread` and `bwrite` hold the lock of the buffer, so that no two calls are about the
same buffer. -/
def proper (nproc : Nat) (m : Sys) : Act Place Unit → Bool
  | .call _ (.alloc r _) => (List.range nproc).all fun q => (siteReq (m.sites q)).all fun r' =>
    r'.b != r.b
  | _ => true

def step (nproc : Nat) (m : Sys) : Event → Option Sys
  | .act a => if proper nproc m a = true then Lib.Monitor.step (code nproc) m a else none
  | .consume => (consume m.data).map fun d => { m with data := d }
  | .complete h => (complete m.data h).map fun d => { m with data := d }

/-- After `virtio_disk_init`. -/
def initial (killed : Nat → Bool) : Sys where
  data := {
    desc := fun _ => { addr := .null, len := 0, flags := 0, next := 0 }
    avail := { idx := 0, ring := fun _ => 0 }
    used := { idx := 0, ring := fun _ => 0 }
    free := fun _ => true
    usedIdx := 0
    info := fun _ => { b := none, status := 0 }
    ops := fun _ => { type := 0, reserved := 0, sector := 0 }
    disk := fun _ => 0
    seen := 0
    taken := [] }
  lock := none
  phase _ := .out none
  killed := killed

end Xv6.Virtio
