import Xv6.Lib.Bytes

/-!
# Disk blocks

A block is the `uchar data[BSIZE]` of a buffer: a function from offsets to
bytes, of which only the offsets below `BSIZE` are used.  A disk assigns a
block to every block number.
-/

namespace Xv6

/-- Block size in bytes. -/
def BSIZE : Nat := 1024

/-- The contents of one disk block. -/
abbrev Block := Nat → UInt8

/-- The contents of a disk, by block number. -/
abbrev Disk := Nat → Block

/-- The block `bzero` leaves behind. -/
def zeroBlock : Block := fun _ => 0

end Xv6
