import Xv6.Disk.Block
import Xv6.Lib.Wp

/-!
# The disk format and the inode table

`fs.h` and the data that `fs.c` works on.

* `Superblock`, `IBLOCK`, `BBLOCK`: where the inodes and the free map lie.
* `Dinode`, `readDinode`, `writeDinode`: the on-disk inode, 64 bytes.
* `Inode`: an entry of the table of in-memory inodes.
* `Vol`: the state of the file system.  `disk` is what `bread` returns, so it
  includes the blocks of the open transaction; `lh` is `log.lh`.
* `Panic`: how a function can fail to return.
* `logWrite`: change a buffer and hand it to the log.

There is one device, so device numbers are left out.  Programs run one at a
time: a lock that is held will not be released, and waiting for it is `stuck`.
-/

namespace Xv6.Fs

open Xv6.Lib.Bytes Xv6.Lib.Wp

/-! ## Constants -/

def ROOTINO : Nat := 1
def NDIRECT : Nat := 12
def NINDIRECT : Nat := 256
def MAXFILE : Nat := NDIRECT + NINDIRECT
/-- Inodes per block. -/
def IPB : Nat := 16
/-- Bitmap bits per block. -/
def BPB : Nat := 8192
def DIRSIZ : Nat := 14
/-- `sizeof(struct dirent)`. -/
def direntSize : Nat := 16
def NINODE : Nat := 50
def LOGBLOCKS : Nat := 30

def T_DIR : BitVec 16 := 1
def T_FILE : BitVec 16 := 2

/-! ## The disk -/

/-- The fields of the super block that the file system uses. -/
structure Superblock where
  size : Nat
  nblocks : Nat
  ninodes : Nat
  inodestart : Nat
  bmapstart : Nat

/-- Block containing inode `i`. -/
def Superblock.IBLOCK (sb : Superblock) (i : Nat) : Nat :=
  i / IPB + sb.inodestart

/-- Block of free map containing the bit for block `b`. -/
def Superblock.BBLOCK (sb : Superblock) (b : Nat) : Nat :=
  b / BPB + sb.bmapstart

/-- An inode on disk.  `addrs[NDIRECT]` is the indirect block. -/
structure Dinode where
  type : BitVec 16
  major : BitVec 16
  minor : BitVec 16
  nlink : BitVec 16
  size : Nat
  addrs : Nat → Nat

/-- `sizeof(struct dinode)`. -/
def dinodeSize : Nat := 64

/-- The inode at `off` of a block. -/
def readDinode (blk : Block) (off : Nat) : Dinode where
  type := BitVec.ofNat 16 (readLE 2 blk off)
  major := BitVec.ofNat 16 (readLE 2 blk (off + 2))
  minor := BitVec.ofNat 16 (readLE 2 blk (off + 4))
  nlink := BitVec.ofNat 16 (readLE 2 blk (off + 6))
  size := readLE 4 blk (off + 8)
  addrs k := if k ≤ NDIRECT then readLE 4 blk (off + 12 + 4 * k) else 0

/-- Store an inode at `off` of a block. -/
def writeDinode (d : Dinode) (blk : Block) (off : Nat) : Block :=
  let blk := writeLE 2 blk off d.type.toNat
  let blk := writeLE 2 blk (off + 2) d.major.toNat
  let blk := writeLE 2 blk (off + 4) d.minor.toNat
  let blk := writeLE 2 blk (off + 6) d.nlink.toNat
  let blk := writeLE 4 blk (off + 8) d.size
  writeWords 4 (NDIRECT + 1) d.addrs blk (off + 12)

/-- The inode `inum` on the disk. -/
def dinodeAt (sb : Superblock) (disk : Disk) (inum : Nat) : Dinode :=
  readDinode (disk (sb.IBLOCK inum)) (inum % IPB * dinodeSize)

/-- The bit of block `b` in the free map. -/
def bitAt (sb : Superblock) (disk : Disk) (b : Nat) : Bool :=
  (disk (sb.BBLOCK b) (b % BPB / 8)).toNat.testBit (b % 8)

/-! ## The state -/

/-- An in-memory inode: `din` is the copy of the disk inode. -/
structure Inode where
  inum : Nat
  ref : Int
  locked : Bool
  valid : Bool
  din : Dinode

structure Vol where
  sb : Superblock
  disk : Disk
  itable : Nat → Inode
  /-- `log.outstanding`. -/
  outstanding : Nat := 0
  /-- `log.lh.block[0..n)`. -/
  lh : List Nat := []

inductive Panic where
  | logTooBig
  | logOutside
  | freeingFreeBlock
  | igetNoInodes
  | ilock
  | ilockNoType
  | iunlock
  | bmapRange
  | dirlookupNotDir
  | dirlookupRead
  | dirlinkRead
  | isdiremptyRead
  | unlinkNlink
  | unlinkWritei
  | filedup
  | fileclose
  | fileread
  | filewrite
  | initExiting
  /-- Not a panic: a sleep lock that this thread holds already. -/
  | stuck
  deriving DecidableEq

abbrev FsM := Prog Panic Vol

/-! ## The log and the buffers -/

/-- `begin_op`. -/
def beginOp : FsM Unit :=
  updates fun s => { s with outstanding := s.outstanding + 1 }

/-- `end_op`: the last operation commits, which empties the log. -/
def endOp : FsM Unit :=
  updates fun s =>
    { s with
      outstanding := s.outstanding - 1
      lh := if s.outstanding - 1 = 0 then [] else s.lh }

/-- `log_write` of the buffer of block `b`. -/
def logWrite (b : Nat) : FsM Unit := do
  let lh ← reads Vol.lh
  let outstanding ← reads Vol.outstanding
  if LOGBLOCKS ≤ lh.length then throw .logTooBig
  else if outstanding < 1 then throw .logOutside
  else updates fun s => { s with lh := if b ∈ lh then lh else lh ++ [b] }

/-- Change the data of the buffer of block `b`. -/
def setBlock (b : Nat) (f : Block → Block) : FsM Unit :=
  updates fun s => { s with disk := Function.update s.disk b (f (s.disk b)) }

/-- Change the table entry `ip`. -/
def setInode (ip : Nat) (f : Inode → Inode) : FsM Unit :=
  updates fun s => { s with itable := Function.update s.itable ip (f (s.itable ip)) }

/-- Change the copy of the disk inode in the table entry `ip`. -/
def setDin (ip : Nat) (f : Dinode → Dinode) : FsM Unit :=
  setInode ip fun i => { i with din := f i.din }

end Xv6.Fs
