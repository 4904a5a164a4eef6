import Xv6.Fs.Inode

/-!
# Reading and writing open files

`fileread` and `filewrite` of `file.c` for files of type `FD_INODE`.

* `IFile`: the fields of `struct file` that such a file has.
* `fileread`: one `readi` under the lock of the inode.
* `filewrite`: a long write is cut into chunks, one transaction for each.
-/

namespace Xv6.Fs

open Xv6.Lib.Wp

def MAXOPBLOCKS : Nat := 10

/-- An open file of type `FD_INODE`. -/
structure IFile where
  readable : Bool
  writable : Bool
  ip : Nat
  off : Nat

/-- `f->off += r` for a positive `r`. -/
def IFile.advance (f : IFile) (r : Int) : IFile :=
  if r > 0 then { f with off := (f.off + r.toNat) % 2 ^ 32 } else f

/-- Read from the file into user memory. -/
def fileread (f : IFile) (dst : Mem) (n : BitVec 32) : FsM (Int × Mem × IFile) := do
  if f.readable = false then pure (-1, dst, f)
  else
    ilock f.ip
    let (r, dst) ← readi f.ip dst f.off n.toNat
    iunlock f.ip
    pure (r, dst, f.advance r)

/-- User memory from `i` bytes further on. -/
def Mem.drop (u : Mem) (i : Nat) : Mem where
  byte a := u.byte (i + a)
  limit := u.limit.map (· - i)

/-- The longest chunk that one transaction writes. -/
def maxChunk : Nat := (MAXOPBLOCKS - 1 - 1 - 2) / 2 * BSIZE

/-- The loop of `filewrite`: the number of bytes written. -/
def filewriteLoop (src : Mem) (n : Nat) : Nat → Nat → IFile → FsM (Nat × IFile)
  | 0, i, f => pure (i, f)
  | fuel + 1, i, f => do
    if i < n then
      let n1 := min (n - i) maxChunk
      beginOp
      ilock f.ip
      let r ← writei f.ip (src.drop i) f.off n1
      iunlock f.ip
      endOp
      if r ≠ n1 then pure (i, f.advance r) else filewriteLoop src n fuel (i + n1) (f.advance r)
    else pure (i, f)

/-- Write user memory to the file. -/
def filewrite (f : IFile) (src : Mem) (n : BitVec 32) : FsM (Int × IFile) := do
  if f.writable = false then pure (-1, f)
  else
    let (i, f) ← filewriteLoop src n.toInt.toNat n.toInt.toNat 0 f
    pure (if (i : Int) = n.toInt then n.toInt else -1, f)

end Xv6.Fs
