import Xv6.Fs.Basic

/-!
# Blocks and inodes

The two lower layers of `fs.c`, one definition for each function.

* `balloc`, `bfree`: the free map.
* `ialloc`, `iupdate`, `iget`, `idup`, `ilock`, `iunlock`, `iput`: inodes on the
  disk and in the table.  An inode pointer is an index into the table.
* `bmap`, `itrunc`, `readi`, `writei`: the content of an inode.
* `Mem`: the memory that `readi` and `writei` copy to and from.  Kernel memory
  can be accessed everywhere; user memory up to the first address that is not
  mapped, and a copy that reaches it stops there and fails.

Numbers of type `uint` are natural numbers; the sums that can wrap around are
reduced.
-/

namespace Xv6.Fs

open Xv6.Lib.Bytes Xv6.Lib.Wp

/-! ## Blocks -/

/-- The data of the buffer that `bread` returns.  The cache is left out: its `NBUF` buffers
are taken to be enough for the blocks in `lh`, which it pins, and those that are held. -/
def bread (b : Nat) : FsM Block := reads fun s => s.disk b

/-- `bp->data[bi/8] & m` with `m = 1 << (bi % 8)`. -/
def testBit (blk : Block) (bi : Nat) : Bool := (blk (bi / 8)).toNat.testBit (bi % 8)

/-- `bp->data[bi/8] |= m` -/
def markBit (bi : Nat) (blk : Block) : Block :=
  Function.update blk (bi / 8) (UInt8.ofNat ((blk (bi / 8)).toNat ||| 2 ^ (bi % 8)))

/-- `bp->data[bi/8] &= ~m` -/
def clearBit (bi : Nat) (blk : Block) : Block :=
  Function.update blk (bi / 8) (UInt8.ofNat ((blk (bi / 8)).toNat &&& (255 ^^^ 2 ^ (bi % 8))))

/-- Zero a block. -/
def bzero (bno : Nat) : FsM Unit := do
  setBlock bno fun _ => zeroBlock
  logWrite bno

/-- The body of the loops of `balloc`: the bit `bi` of the map block for `b`. -/
def ballocTry (sb : Superblock) (b bi : Nat) : FsM (Option Nat) := do
  let blk ← bread (sb.BBLOCK b)
  if testBit blk bi = false then
    setBlock (sb.BBLOCK b) (markBit bi)
    logWrite (sb.BBLOCK b)
    bzero (b + bi)
    pure (some (b + bi))
  else pure none

/-- Allocate a zeroed disk block; 0 if out of disk space. -/
def balloc : FsM Nat := do
  let sb ← reads Vol.sb
  let found ← untilSome
    (fun g => untilSome (ballocTry sb (g * BPB)) (min BPB (sb.size - g * BPB)))
    ((sb.size + BPB - 1) / BPB)
  pure (found.getD 0)

/-- Free a disk block. -/
def bfree (b : Nat) : FsM Unit := do
  let sb ← reads Vol.sb
  let blk ← bread (sb.BBLOCK b)
  if testBit blk (b % BPB) = false then throw .freeingFreeBlock
  else
    setBlock (sb.BBLOCK b) (clearBit (b % BPB))
    logWrite (sb.BBLOCK b)

/-! ## Inodes -/

/-- The inode pointer `ip`. -/
def inode (ip : Nat) : FsM Inode := reads fun s => s.itable ip

/-- What `memset` and the type make of a free inode on the disk. -/
def freshDinode (type : BitVec 16) : Dinode where
  type := type
  major := 0
  minor := 0
  nlink := 0
  size := 0
  addrs _ := 0

/-- Copy a modified in-memory inode to disk. -/
def iupdate (ip : Nat) : FsM Unit := do
  let i ← inode ip
  let sb ← reads Vol.sb
  setBlock (sb.IBLOCK i.inum) fun blk => writeDinode i.din blk (i.inum % IPB * dinodeSize)
  logWrite (sb.IBLOCK i.inum)

/-- The table entry that holds the inode `inum`. -/
def findInode (itable : Nat → Inode) (inum : Nat) : Option Nat :=
  (List.range NINODE).find? fun e => decide (0 < (itable e).ref ∧ (itable e).inum = inum)

/-- The first entry that can be recycled. -/
def emptyInode (itable : Nat → Inode) : Option Nat :=
  (List.range NINODE).find? fun e => decide ((itable e).ref = 0)

/-- Find the inode `inum` and return the in-memory copy. -/
def iget (inum : Nat) : FsM Nat := do
  let itable ← reads Vol.itable
  match findInode itable inum with
  | some ip =>
    setInode ip fun i => { i with ref := i.ref + 1 }
    pure ip
  | none =>
    match emptyInode itable with
    | none => throw .igetNoInodes
    | some ip =>
      setInode ip fun i => { i with inum, ref := 1, valid := false }
      pure ip

/-- Allocate an inode and give it a type; `none` if there is no free inode. -/
def ialloc (type : BitVec 16) : FsM (Option Nat) := do
  let sb ← reads Vol.sb
  untilSome
    (fun j => do
      let inum := j + 1
      let blk ← bread (sb.IBLOCK inum)
      if (readDinode blk (inum % IPB * dinodeSize)).type = 0 then
        setBlock (sb.IBLOCK inum) fun blk =>
          writeDinode (freshDinode type) blk (inum % IPB * dinodeSize)
        logWrite (sb.IBLOCK inum)
        let ip ← iget inum
        pure (some ip)
      else pure none)
    (sb.ninodes - 1)

/-- Increment the reference count. -/
def idup (ip : Nat) : FsM Nat := do
  setInode ip fun i => { i with ref := i.ref + 1 }
  pure ip

/-- `acquiresleep` of the lock of the inode. -/
def acquiresleep (ip : Nat) : FsM Unit := do
  let i ← inode ip
  if i.locked then throw .stuck else setInode ip fun i => { i with locked := true }

/-- Lock the inode; read it from disk if necessary. -/
def ilock (ip : Nat) : FsM Unit := do
  let i ← inode ip
  if i.ref < 1 then throw .ilock
  else
    acquiresleep ip
    if i.valid then pure ()
    else
      let sb ← reads Vol.sb
      let blk ← bread (sb.IBLOCK i.inum)
      let din := readDinode blk (i.inum % IPB * dinodeSize)
      setInode ip fun i => { i with din, valid := true }
      if din.type = 0 then throw .ilockNoType else pure ()

/-- Unlock the inode. -/
def iunlock (ip : Nat) : FsM Unit := do
  let i ← inode ip
  if i.locked = false ∨ i.ref < 1 then throw .iunlock
  else setInode ip fun i => { i with locked := false }

/-! ## The content of an inode -/

/-- The block number in slot `j` of an indirect block. -/
def slot (blk : Block) (j : Nat) : Nat := readLE 4 blk (4 * j)

/-- The address `ip->addrs[x]`, with a new block if there is none; 0 if out of disk
space. -/
def addrOf (ip x : Nat) : FsM Nat := do
  let i ← inode ip
  if i.din.addrs x = 0 then
    let addr ← balloc
    if addr = 0 then pure 0
    else
      setDin ip fun d => { d with addrs := Function.update d.addrs x addr }
      pure addr
  else pure (i.din.addrs x)

/-- The same for the slot `j` of the indirect block `ind`. -/
def slotOf (ind j : Nat) : FsM Nat := do
  let blk ← bread ind
  if slot blk j = 0 then
    let addr ← balloc
    if addr = 0 then pure 0
    else
      setBlock ind fun blk => writeLE 4 blk (4 * j) addr
      logWrite ind
      pure addr
  else pure (slot blk j)

/-- The disk block of the block `bn` of the inode, allocated if there is none; 0 if out
of disk space. -/
def bmap (ip bn : Nat) : FsM Nat := do
  if bn < NDIRECT then addrOf ip bn
  else if bn - NDIRECT < NINDIRECT then
    let ind ← addrOf ip NDIRECT
    if ind = 0 then pure 0 else slotOf ind (bn - NDIRECT)
  else throw .bmapRange

/-- Free the block in the direct address `k`. -/
def truncDirect (ip k : Nat) : FsM Unit := do
  let i ← inode ip
  if i.din.addrs k = 0 then pure ()
  else
    bfree (i.din.addrs k)
    setDin ip fun d => { d with addrs := Function.update d.addrs k 0 }

/-- Free the block in the slot `j` of the indirect block `ind`. -/
def truncSlot (ind j : Nat) : FsM Unit := do
  let blk ← bread ind
  if slot blk j = 0 then pure () else bfree (slot blk j)

/-- Truncate the inode. -/
def itrunc (ip : Nat) : FsM Unit := do
  forRange (truncDirect ip) NDIRECT
  let i ← inode ip
  (if i.din.addrs NDIRECT = 0 then pure ()
    else do
      forRange (truncSlot (i.din.addrs NDIRECT)) NINDIRECT
      bfree (i.din.addrs NDIRECT)
      setDin ip fun d => { d with addrs := Function.update d.addrs NDIRECT 0 })
  setDin ip fun d => { d with size := 0 }
  iupdate ip

/-- The part of `iput` that frees the inode. -/
def ifree (ip : Nat) : FsM Unit := do
  acquiresleep ip
  itrunc ip
  setDin ip fun d => { d with type := 0 }
  iupdate ip
  setInode ip fun i => { i with valid := false }
  setInode ip fun i => { i with locked := false }

/-- Drop a reference to the inode, and free it if that was the last one and it has no
links. -/
def iput (ip : Nat) : FsM Unit := do
  let i ← inode ip
  (if i.ref = 1 ∧ i.valid = true ∧ i.din.nlink = 0 then ifree ip else pure ())
  setInode ip fun i => { i with ref := i.ref - 1 }

/-- Memory from some address on: its bytes, and the first of them that cannot be
accessed. -/
structure Mem where
  byte : Nat → UInt8
  limit : Option Nat

/-- The number of bytes that a copy of `m` bytes from position `tot` on transfers. -/
def Mem.reach (u : Mem) (tot m : Nat) : Nat :=
  match u.limit with
  | none => m
  | some l => min m (l - tot)

/-- The loop of `readi`, with the bytes stored so far. -/
def readiLoop (ip n : Nat) : Nat → Nat → Nat → Mem → FsM (Int × Mem)
  | 0, tot, _, dst => pure (tot, dst)
  | fuel + 1, tot, off, dst => do
    if tot < n then
      let addr ← bmap ip (off / BSIZE)
      if addr = 0 then pure (tot, dst)
      else
        let blk ← bread addr
        let m := min (n - tot) (BSIZE - off % BSIZE)
        let k := dst.reach tot m
        let dst := { dst with byte := copyBytes dst.byte tot blk (off % BSIZE) k }
        if k < m then pure (-1, dst)
        else readiLoop ip n fuel (tot + m) (off + m) dst
    else pure (tot, dst)

/-- Read `n` bytes of the inode from `off` on into `dst`. -/
def readi (ip : Nat) (dst : Mem) (off n : Nat) : FsM (Int × Mem) := do
  let i ← inode ip
  if off > i.din.size ∨ (off + n) % 2 ^ 32 < off then pure (0, dst)
  else
    let n := if (off + n) % 2 ^ 32 > i.din.size then i.din.size - off else n
    readiLoop ip n n 0 off dst

/-- The loop of `writei`: the number of bytes written and the offset behind them. -/
def writeiLoop (ip : Nat) (src : Mem) (n : Nat) : Nat → Nat → Nat → FsM (Nat × Nat)
  | 0, tot, off => pure (tot, off)
  | fuel + 1, tot, off => do
    if tot < n then
      let addr ← bmap ip (off / BSIZE)
      if addr = 0 then pure (tot, off)
      else
        let m := min (n - tot) (BSIZE - off % BSIZE)
        let k := src.reach tot m
        -- a copy that fails has changed the buffer up to where it stopped
        setBlock addr fun blk => copyBytes blk (off % BSIZE) src.byte tot k
        if k < m then pure (tot, off)
        else
          logWrite addr
          writeiLoop ip src n fuel (tot + m) (off + m)
    else pure (tot, off)

/-- Write `n` bytes of `src` to the inode from `off` on; the number of bytes written, or
-1. -/
def writei (ip : Nat) (src : Mem) (off n : Nat) : FsM Int := do
  let i ← inode ip
  if off > i.din.size ∨ (off + n) % 2 ^ 32 < off then pure (-1)
  else if (off + n) % 2 ^ 32 > MAXFILE * BSIZE then pure (-1)
  else
    let (tot, off) ← writeiLoop ip src n n 0 off
    setDin ip fun d => { d with size := if off > d.size then off else d.size }
    iupdate ip
    pure tot

end Xv6.Fs
