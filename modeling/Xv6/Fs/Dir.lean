import Xv6.Fs.Inode

/-!
# Directories

The directory layer of `fs.c`, `isdirempty` of `sysfile.c`, and the string functions of
`string.c` that they use.

* `strncmp`, `strncpy`, `namecmp`: a string is its bytes from its address on.
* `Dirent`, `readDirent`: a directory entry, 16 bytes.
* `dirlookup`, `dirlink`, `isdirempty`.
-/

namespace Xv6.Fs

open Xv6.Lib.Bytes Xv6.Lib.Wp

/-! ## Strings -/

/-- `strncmp(p + k, q + k, n)` -/
def strncmp (p q : Nat → UInt8) : Nat → Nat → Int
  | 0, _ => 0
  | n + 1, k =>
    if p k ≠ 0 ∧ p k = q k then strncmp p q n (k + 1) else (p k).toNat - (q k).toNat

/-- The second loop of `strncpy`: clear `n` bytes from `k` on. -/
def strncpyPad (s : Nat → UInt8) : Nat → Nat → Nat → UInt8
  | 0, _ => s
  | n + 1, k => strncpyPad (Function.update s k 0) n (k + 1)

/-- `strncpy(s + k, t + k, n)` -/
def strncpy (s t : Nat → UInt8) : Nat → Nat → Nat → UInt8
  | 0, _ => s
  | n + 1, k =>
    if t k ≠ 0 then strncpy (Function.update s k (t k)) t n (k + 1)
    else strncpyPad (Function.update s k (t k)) n (k + 1)

def namecmp (s t : Nat → UInt8) : Int := strncmp s t DIRSIZ 0

/-! ## Entries -/

structure Dirent where
  inum : Nat
  name : Nat → UInt8

/-- The entry in a buffer. -/
def readDirent (buf : Nat → UInt8) : Dirent where
  inum := readLE 2 buf 0
  name a := buf (2 + a)

/-- The bytes of an entry. -/
def direntBytes (de : Dirent) : Nat → UInt8 := fun a =>
  if a < 2 then writeLE 2 (fun _ => 0) 0 de.inum a else de.name (a - 2)

/-- Read the entry at `off` of the directory; `panic` if it cannot be read. -/
def readDirentAt (dp off : Nat) (failure : Panic) : FsM Dirent := do
  let (r, de) ← readi dp ⟨fun _ => 0, none⟩ off direntSize
  if r ≠ direntSize then throw failure else pure (readDirent de.byte)

/-- The number of rounds of `for(off = 0; off < dp->size; off += sizeof(de))`. -/
def rounds (size : Nat) : Nat := (size + direntSize - 1) / direntSize

/-! ## Directories -/

/-- Look for a directory entry in a directory: the inode and the offset of the entry. -/
def dirlookup (dp : Nat) (name : Nat → UInt8) : FsM (Option (Nat × Nat)) := do
  let d ← inode dp
  if d.din.type ≠ T_DIR then throw .dirlookupNotDir
  else
    untilSome
      (fun k => do
        let de ← readDirentAt dp (k * direntSize) .dirlookupRead
        if de.inum = 0 then pure none
        else if namecmp name de.name = 0 then
          let ip ← iget de.inum
          pure (some (ip, k * direntSize))
        else pure none)
      (rounds d.din.size)

/-- The offset of the first empty entry, or the end of the directory. -/
def emptySlot (dp : Nat) : FsM Nat := do
  let d ← inode dp
  let found ← untilSome
    (fun k => do
      let de ← readDirentAt dp (k * direntSize) .dirlinkRead
      pure (if de.inum = 0 then some (k * direntSize) else none))
    (rounds d.din.size)
  pure (found.getD (rounds d.din.size * direntSize))

/-- Write a new directory entry into the directory; 0 on success, -1 on failure. -/
def dirlink (dp : Nat) (name : Nat → UInt8) (inum : Nat) : FsM Int := do
  match ← dirlookup dp name with
  | some (ip, _) =>
    iput ip
    pure (-1)
  | none =>
    let off ← emptySlot dp
    let de : Dirent := ⟨inum % 2 ^ 16, strncpy (fun _ => 0) name DIRSIZ 0⟩
    let r ← writei dp ⟨direntBytes de, none⟩ off direntSize
    pure (if r ≠ direntSize then -1 else 0)

/-- Is the directory empty except for `.` and `..`? -/
def isdirempty (dp : Nat) : FsM Bool := do
  let d ← inode dp
  let found ← untilSome
    (fun k => do
      let de ← readDirentAt dp ((k + 2) * direntSize) .isdiremptyRead
      pure (if de.inum ≠ 0 then some () else none))
    (rounds d.din.size - 2)
  pure found.isNone

end Xv6.Fs
