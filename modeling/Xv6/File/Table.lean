import Mathlib.Logic.Function.Basic

/-!
# Descriptors

The open files of a process: `fdalloc` and the lookup of `argfd` of `kernel/sysfile.c`.
-/

namespace Xv6.Files

/-- Open files per process. -/
def NOFILE : Nat := 16

/-- The open files of a process, by descriptor. -/
abbrev Ofile := Nat → Option Nat

/-- A descriptor for file `f`, with the descriptors after it was allocated. -/
def fdalloc (ofile : Ofile) (f : Nat) : Option (Nat × Ofile) :=
  ((List.range NOFILE).find? fun fd => (ofile fd).isNone).map fun fd =>
    (fd, Function.update ofile fd (some f))

/-- The file of the descriptor `fd`, an `int` below `NOFILE`. -/
def argfd (ofile : Ofile) (fd : Nat) : Option Nat :=
  if fd < NOFILE then ofile fd else none

end Xv6.Files
