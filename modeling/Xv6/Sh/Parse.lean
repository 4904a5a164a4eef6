import Mathlib.Logic.Function.Basic
import Xv6.Lib.Bytes

/-!
# The parser of the shell

The parser of `user/sh.c`, one definition for each function.

* `Ptr`: a pointer into the command line, given by the bytes from there to its end `es`.
* `Cmd`: the tree of commands; a word is a pair of pointers to its start and its end
  until `nulterminate` has cut the words out of the line.
* `gettoken`, `peek`: the tokens.
* `parseredirs`, `parseexec`, `parseblock`, `parsepipe`, `parseline`, `parsecmd`: the
  grammar.  The argument `fuel` counts calls and rounds of loops.
* `nulterminate`, `Cmd.strings`: the strings that the tree refers to in the end.
-/

namespace Xv6.Sh

/-! ## Commands -/

inductive Cmd (W : Type) where
  | exec (argv : List W)
  | redir (cmd : Cmd W) (file : W) (mode fd : Nat)
  | pipe (left right : Cmd W)
  | list (left right : Cmd W)
  | back (cmd : Cmd W)
  deriving DecidableEq

def MAXARGS : Nat := 10

def O_RDONLY : Nat := 0x000
def O_WRONLY : Nat := 0x001
def O_CREATE : Nat := 0x200
def O_TRUNC : Nat := 0x400

/-- A pointer into the line. -/
abbrev Ptr := List UInt8

/-- The start and the end of a word. -/
abbrev Word := Ptr × Ptr

/-- Why the parser does not return. -/
inductive Failure where
  /-- `missing file for redirection` -/
  | missingFile
  /-- `parseblock` -/
  | parseblock
  /-- `syntax - missing )` -/
  | missingParen
  /-- `syntax` -/
  | syntaxError
  /-- `too many args` -/
  | tooManyArgs
  /-- `leftovers: ...` -/
  | leftovers
  /-- The fuel of the model is used up. -/
  | outOfFuel
  deriving DecidableEq

/-! ## Tokens -/

def less : UInt8 := 60
def greater : UInt8 := 62
def bar : UInt8 := 124
def ampersand : UInt8 := 38
def semicolon : UInt8 := 59
def lparen : UInt8 := 40
def rparen : UInt8 := 41
def plus : UInt8 := 43
def letterA : UInt8 := 97

/-- Space, tab, carriage return, newline and vertical tab. -/
def whitespace : List UInt8 := [32, 9, 13, 10, 11]

def symbols : List UInt8 := [less, bar, greater, ampersand, semicolon, lparen, rparen]

/-- `while(s < es && strchr(whitespace, *s)) s++;` -/
def skip (s : Ptr) : Ptr := s.dropWhile fun c => decide (c ∈ whitespace)

/-- A character that can stand in a word. -/
def inWord (c : UInt8) : Bool := decide (c ∉ whitespace) && decide (c ∉ symbols)

/-- What `gettoken` returns: the token, its start and end, and the new `*ps`. -/
structure Got where
  ret : UInt8
  q : Ptr
  eq : Ptr
  ps : Ptr

def gettoken (ps : Ptr) : Got :=
  match skip ps with
  | [] => ⟨0, [], [], []⟩
  | c :: s =>
    if c ∈ [bar, lparen, rparen, semicolon, ampersand, less] then ⟨c, c :: s, s, skip s⟩
    else if c = greater then
      if s.head? = some greater then ⟨plus, c :: s, s.tail, skip s.tail⟩
      else ⟨greater, c :: s, s, skip s⟩
    else ⟨letterA, c :: s, (c :: s).dropWhile inWord, skip ((c :: s).dropWhile inWord)⟩

/-- Whether the next character is one of `toks`, and the new `*ps`. -/
def peek (ps : Ptr) (toks : List UInt8) : Bool × Ptr :=
  match skip ps with
  | [] => (false, [])
  | c :: s => (decide (c ∈ toks), c :: s)

/-! ## The parser -/

/-- The redirection for the token `tok`. -/
def redirFor (tok : UInt8) (cmd : Cmd Word) (file : Word) : Cmd Word :=
  if tok = less then .redir cmd file O_RDONLY 0
  else if tok = greater then .redir cmd file (O_WRONLY ||| O_CREATE ||| O_TRUNC) 1
  else if tok = plus then .redir cmd file (O_WRONLY ||| O_CREATE) 1
  else cmd

def parseredirs : Nat → Cmd Word → Ptr → Except Failure (Cmd Word × Ptr)
  | 0, _, _ => .error .outOfFuel
  | fuel + 1, cmd, ps =>
    let (more, ps) := peek ps [less, greater]
    if more then
      let tok := gettoken ps
      let file := gettoken tok.ps
      if file.ret ≠ letterA then .error .missingFile
      else parseredirs fuel (redirFor tok.ret cmd (file.q, file.eq)) file.ps
    else .ok (cmd, ps)

/-- A new argument for the `EXEC` node below the redirections. -/
def Cmd.addArg {W : Type} : Cmd W → W → Cmd W
  | .exec argv, w => .exec (argv ++ [w])
  | .redir cmd file mode fd, w => .redir (cmd.addArg w) file mode fd
  | cmd, _ => cmd

/-- The loop of `parseexec` over the arguments. -/
def parseargs : Nat → Nat → Cmd Word → Ptr → Except Failure (Cmd Word × Ptr)
  | 0, _, _, _ => .error .outOfFuel
  | fuel + 1, argc, ret, ps =>
    let (stop, ps) := peek ps [bar, rparen, ampersand, semicolon]
    if stop then .ok (ret, ps)
    else
      let tok := gettoken ps
      if tok.ret = 0 then .ok (ret, tok.ps)
      else if tok.ret ≠ letterA then .error .syntaxError
      else
        let ret := ret.addArg (tok.q, tok.eq)
        if argc + 1 ≥ MAXARGS then .error .tooManyArgs
        else do
          let (ret, ps) ← parseredirs fuel ret tok.ps
          parseargs fuel (argc + 1) ret ps

/-- The loop of `parseline` over `&`. -/
def parsebacks : Nat → Cmd Word → Ptr → Except Failure (Cmd Word × Ptr)
  | 0, _, _ => .error .outOfFuel
  | fuel + 1, cmd, ps =>
    let (more, ps) := peek ps [ampersand]
    if more then parsebacks fuel (.back cmd) (gettoken ps).ps else .ok (cmd, ps)

mutual

def parseline : Nat → Ptr → Except Failure (Cmd Word × Ptr)
  | 0, _ => .error .outOfFuel
  | fuel + 1, ps => do
    let (cmd, ps) ← parsepipe fuel ps
    let (cmd, ps) ← parsebacks fuel cmd ps
    let (more, ps) := peek ps [semicolon]
    if more then
      let (right, ps) ← parseline fuel (gettoken ps).ps
      pure (.list cmd right, ps)
    else pure (cmd, ps)

def parsepipe : Nat → Ptr → Except Failure (Cmd Word × Ptr)
  | 0, _ => .error .outOfFuel
  | fuel + 1, ps => do
    let (cmd, ps) ← parseexec fuel ps
    let (more, ps) := peek ps [bar]
    if more then
      let (right, ps) ← parsepipe fuel (gettoken ps).ps
      pure (.pipe cmd right, ps)
    else pure (cmd, ps)

def parseexec : Nat → Ptr → Except Failure (Cmd Word × Ptr)
  | 0, _ => .error .outOfFuel
  | fuel + 1, ps => do
    let (block, ps) := peek ps [lparen]
    if block then parseblock fuel ps
    else
      let (ret, ps) ← parseredirs fuel (.exec []) ps
      parseargs fuel 0 ret ps

def parseblock : Nat → Ptr → Except Failure (Cmd Word × Ptr)
  | 0, _ => .error .outOfFuel
  | fuel + 1, ps => do
    let (block, ps) := peek ps [lparen]
    if !block then .error .parseblock
    else
      let (cmd, ps) ← parseline fuel (gettoken ps).ps
      let (closed, ps) := peek ps [rparen]
      if !closed then .error .missingParen
      else parseredirs fuel cmd (gettoken ps).ps

end

/-! ## The strings of a command -/

/-- The address of a pointer into a line of `len` bytes that starts at 0. -/
def addr (len : Nat) (p : Ptr) : Nat := len - p.length

/-- `*p = 0` -/
def terminate (len : Nat) (mem : Nat → UInt8) (w : Word) : Nat → UInt8 :=
  Function.update mem (addr len w.2) 0

def nulterminate (len : Nat) : Cmd Word → (Nat → UInt8) → (Nat → UInt8)
  | .exec argv, mem => argv.foldl (terminate len) mem
  | .redir cmd file _ _, mem => terminate len (nulterminate len cmd mem) file
  | .pipe left right, mem => nulterminate len right (nulterminate len left mem)
  | .list left right, mem => nulterminate len right (nulterminate len left mem)
  | .back cmd, mem => nulterminate len cmd mem

/-- The fuel for a line of `len` bytes. -/
def enough (len : Nat) : Nat := 4 * len + 4

/-- `parsecmd` returns the tree and changes the line. -/
def parsecmd (line : List UInt8) : Except Failure (Cmd Word × (Nat → UInt8)) := do
  let (cmd, ps) ← parseline (enough line.length) line
  if (peek ps []).2 ≠ [] then .error .leftovers
  else pure (cmd, nulterminate line.length cmd fun a => line.getD a 0)

def Cmd.map {W V : Type} (f : W → V) : Cmd W → Cmd V
  | .exec argv => .exec (argv.map f)
  | .redir cmd file mode fd => .redir (cmd.map f) (f file) mode fd
  | .pipe left right => .pipe (left.map f) (right.map f)
  | .list left right => .list (left.map f) (right.map f)
  | .back cmd => .back (cmd.map f)

end Xv6.Sh
