import Xv6.Vm.Proc

/-!
# The loader

`kexec` and `loadseg` of `exec.c` on the bytes of an executable.  The file
system part (`namei`, `ilock`, `iunlockput` and the transaction around them) is
the parameter `file`: the bytes of the inode, or `none` if `namei` fails.

* `readi`, `Elfhdr`, `Proghdr`: reading headers from the file.
* `loadseg`, `loadSegment`: one program header.
* `pushArg`, `pushArgs`, `kexec`.
-/

namespace Xv6.Vm

open Xv6.Lib.Bytes Xv6.Lib.Wp

/-! ## Executables -/

/-- `readi(ip, 0, dst, off, n)`: the bytes it copies; their number is the result. -/
def readi (file : List UInt8) (off n : Nat) : List UInt8 :=
  if file.length < off ∨ (off + n) % 2 ^ 32 < off then [] else (file.drop off).take n

/-- The little-endian word of `n` bytes at `off`. -/
def wordAt (bytes : List UInt8) (n off : Nat) : Nat :=
  readLE n (fun k => bytes.getD k 0) off

/-- `ELF_MAGIC`. -/
def ELF_MAGIC : Nat := 0x464C457F

/-- `ELF_PROG_LOAD`. -/
def ELF_PROG_LOAD : Nat := 1

/-- `sizeof(struct elfhdr)`. -/
def elfhdrSize : Nat := 64

/-- `sizeof(struct proghdr)`. -/
def proghdrSize : Nat := 56

/-- The fields of `struct elfhdr` that `kexec` reads. -/
structure Elfhdr where
  magic : Nat
  entry : Nat
  phoff : Nat
  phnum : Nat
deriving DecidableEq, Repr

def elfhdrOf (bytes : List UInt8) : Elfhdr :=
  { magic := wordAt bytes 4 0, entry := wordAt bytes 8 24, phoff := wordAt bytes 8 32,
    phnum := wordAt bytes 2 56 }

/-- The fields of `struct proghdr` that `kexec` reads. -/
structure Proghdr where
  type : Nat
  flags : Nat
  off : Nat
  vaddr : Nat
  filesz : Nat
  memsz : Nat
deriving DecidableEq, Repr

def proghdrOf (bytes : List UInt8) : Proghdr :=
  { type := wordAt bytes 4 0, flags := wordAt bytes 4 4, off := wordAt bytes 8 8,
    vaddr := wordAt bytes 8 16, filesz := wordAt bytes 8 32, memsz := wordAt bytes 8 40 }

/-- Where the program header `i` is read; `off` is an `int` that `readi` takes
as a `uint`. -/
def proghdrOff (elf : Elfhdr) (i : Nat) : Nat :=
  (elf.phoff + proghdrSize * i) % 2 ^ 32

/-- Permission bits of a segment. -/
def flags2perm (flags : Nat) : Nat :=
  (if flags.testBit 0 then PTE_X else 0) ||| if flags.testBit 1 then PTE_W else 0

/-! ## Segments -/

/-- The body of `loadseg` for the page at `va + i`; `some r` returns `r`. -/
def loadPage (pagetable va : Nat) (file : List UInt8) (offset sz i : Nat) : Kern (Option Int) := do
  let pa ← walkaddr pagetable ((va + i) % 2 ^ 64)
  if pa = 0 then throw .loadseg
  else do
    let n := if sz - i < PGSIZE then sz - i else PGSIZE
    let bytes := readi file ((offset + i) % 2 ^ 32) n
    setPage pa fun page => copyBytes page 0 (fun k => bytes.getD k 0) 0 bytes.length
    if bytes.length ≠ n then pure (some (-1)) else pure none

/-- Load a segment.  `offset` and `sz` are a `uint`.  The counter `i` would wrap
for a `sz` in the last page below `2 ^ 32`, which no memory can hold. -/
def loadseg (pagetable va : Nat) (file : List UInt8) (offset sz : Nat) : Kern Int := do
  let r ← untilSome (fun k => loadPage pagetable va file offset sz (k * PGSIZE))
    ((sz + PGSIZE - 1) / PGSIZE)
  pure (r.getD 0)

/-- The body of the loop over the program headers.  `ok sz` goes on with the
size `sz`, `error sz` is `goto bad` with that size. -/
def loadSegment (pagetable : Nat) (file : List UInt8) (elf : Elfhdr) (i sz : Nat) :
    Kern (Except Nat Nat) := do
  let bytes := readi file (proghdrOff elf i) proghdrSize
  if bytes.length ≠ proghdrSize then pure (.error sz)
  else
    let ph := proghdrOf bytes
    if ph.type ≠ ELF_PROG_LOAD then pure (.ok sz)
    else if ph.memsz < ph.filesz then pure (.error sz)
    else if (ph.vaddr + ph.memsz) % 2 ^ 64 < ph.vaddr then pure (.error sz)
    else if ph.vaddr % PGSIZE ≠ 0 then pure (.error sz)
    else do
      let sz1 ← uvmalloc pagetable sz ((ph.vaddr + ph.memsz) % 2 ^ 64) (flags2perm ph.flags)
      if sz1 = 0 then pure (.error sz)
      else do
        let r ← loadseg pagetable ph.vaddr file (ph.off % 2 ^ 32) (ph.filesz % 2 ^ 32)
        if r < 0 then pure (.error sz1) else pure (.ok sz1)

/-! ## Arguments -/

/-- `MAXARG`. -/
def MAXARG : Nat := 32

/-- `a - b` on `uint64`. -/
def sub64 (a b : Nat) : Nat := (a + (2 ^ 64 - b)) % 2 ^ 64

/-- `sp -= n; sp -= sp % 16;` -/
def pushDown (sp n : Nat) : Nat :=
  sub64 sp n - sub64 sp n % 16

/-- The body of the loop over `argv`, with `sp` and `ustack`; `error` is `goto
bad`. -/
def pushArg (p : UProc) (pagetable stackbase : Nat) (argv : List (List UInt8)) (argc : Nat)
    (acc : Nat × List Nat) : Kern (Except Unit (Nat × List Nat)) :=
  if MAXARG ≤ argc then pure (.error ())
  else
    let arg := argv.getD argc []
    let sp := pushDown acc.1 (arg.length + 1)
    if sp < stackbase then pure (.error ())
    else do
      let r ← copyout p pagetable sp (arg ++ [0])
      if r < 0 then pure (.error ()) else pure (.ok (sp, acc.2 ++ [sp]))

/-- The bytes of an array of `uint64`. -/
def wordBytes (words : List Nat) : List UInt8 :=
  words.flatMap fun w => (List.range 8).map fun k => UInt8.ofNat (w / 256 ^ k % 256)

/-- Copy the arguments and the array of pointers to them to the stack; the
result is the stack pointer. -/
def pushArgs (p : UProc) (pagetable sz : Nat) (argv : List (List UInt8)) :
    Kern (Except Unit Nat) := do
  let stackbase := sub64 sz (USERSTACK * PGSIZE)
  match ← foldUntil (pushArg p pagetable stackbase argv) argv.length (sz, []) with
  | .error _ => pure (.error ())
  | .ok (sp, ustack) => do
    let sp := pushDown sp ((argv.length + 1) * 8)
    if sp < stackbase then pure (.error ())
    else do
      let r ← copyout p pagetable sp (wordBytes (ustack ++ [0]))
      if r < 0 then pure (.error ()) else pure (.ok sp)

/-- The last component of a path, as `safestrcpy` copies it into the 16 bytes of
`p->name`. -/
def progName (path : List UInt8) : List UInt8 :=
  ((path.splitOn 47).getLastD []).take 15

/-- `bad:` with a page table. -/
def execBad (p : UProc) (pagetable sz : Nat) : Kern (Int × UProc) := do
  procFreepagetable pagetable sz
  pure (-1, p)

/-- Commit to the user image. -/
def execCommit (p : UProc) (path : List UInt8) (elf : Elfhdr) (pagetable sz sp argc : Nat) :
    Kern (Int × UProc) := do
  -- a1, epc and sp of the trapframe
  setTrapframe p 120 sp
  setTrapframe p 24 elf.entry
  setTrapframe p 48 sp
  procFreepagetable p.pagetable p.sz
  pure (argc, { p with pagetable := pagetable, sz := sz, name := progName path })

/-- What `kexec` does once the segments are loaded: the stack and the arguments. -/
def execStack (p : UProc) (path : List UInt8) (elf : Elfhdr) (argv : List (List UInt8))
    (pagetable sz : Nat) : Kern (Int × UProc) := do
  let sz := PGROUNDUP sz
  let sz1 ← uvmalloc pagetable sz ((sz + (USERSTACK + 1) * PGSIZE) % 2 ^ 64) PTE_W
  if sz1 = 0 then execBad p pagetable sz
  else do
    uvmclear pagetable (sub64 sz1 ((USERSTACK + 1) * PGSIZE))
    match ← pushArgs p pagetable sz1 argv with
    | .error _ => execBad p pagetable sz1
    | .ok sp => execCommit p path elf pagetable sz1 sp argv.length

/-- The `exec` system call on the bytes of the file at `path`. -/
def kexec (p : UProc) (path : List UInt8) (file : Option (List UInt8)) (argv : List (List UInt8)) :
    Kern (Int × UProc) :=
  match file with
  | none => pure (-1, p)
  | some file => do
    let header := readi file 0 elfhdrSize
    if header.length ≠ elfhdrSize then pure (-1, p)
    else
      let elf := elfhdrOf header
      if elf.magic ≠ ELF_MAGIC then pure (-1, p)
      else do
        let pagetable ← procPagetable p
        if pagetable = 0 then pure (-1, p)
        else do
          match ← foldUntil (loadSegment pagetable file elf) elf.phnum PGSIZE with
          | .error sz => execBad p pagetable sz
          | .ok sz => execStack p path elf argv pagetable sz

end Xv6.Vm
