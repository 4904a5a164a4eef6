import Mathlib.Data.List.Basic
import Xv6.File.Table
import Xv6.Sh.Correct

/-!
# Running a command

`runcmd` of `user/sh.c`.  A process is described by the system calls that it makes,
with what it does for each answer; its descriptors are carried along, and `open`,
`dup` and `pipe` take the lowest ones that are free, as `fdalloc` does.

* `Proc`, `runcmd`: the processes that run a command.
* `Reaches`: one of them calls `exec`, when every `open` succeeds.
* `redirect`, `reaches_wrap`: the redirections around a command act one after the
  other, the outermost first.
* `LastWins`: what a user expects of several redirections of one descriptor, and
  `lastWins_iff`: the first one decides, since the parser nests the last one
  outermost and `runcmd` goes from the outside to the inside.
-/

namespace Xv6.Sh

open Xv6.Files

/-! ## The code -/

/-- The descriptors after `close(fd)`. -/
def close (ofile : Ofile) (fd : Nat) : Ofile :=
  if (argfd ofile fd).isSome then Function.update ofile fd none else ofile

/-- The descriptors after `dup(fd)`. -/
def dup (ofile : Ofile) (fd : Nat) : Ofile :=
  match (argfd ofile fd).bind (fdalloc ofile) with
  | none => ofile
  | some (_, ofile) => ofile

/-- The descriptors of the two ends of a pipe. -/
def pipeFds (ofile : Ofile) (ends : Nat × Nat) : Option (Nat × Nat × Ofile) := do
  let (p0, ofile) ← fdalloc ofile ends.1
  let (p1, ofile) ← fdalloc ofile ends.2
  pure (p0, p1, ofile)

/-- What a process does. -/
inductive Proc where
  | exit (status : Nat)
  /-- `exec`, and what follows if it returns. -/
  | exec (argv : List (List UInt8)) (ofile : Ofile) (returned : Proc)
  /-- `open`; the answer is the file, if there is one. -/
  | openFile (file : List UInt8) (mode : Nat) (next : Option Nat → Proc)
  /-- `pipe`; the answer is the read end and the write end. -/
  | pipe (next : Option (Nat × Nat) → Proc)
  /-- `fork1`, which does not return when there is no new process. -/
  | fork (child parent : Proc)
  | wait (next : Proc)

def runcmd : Cmd (List UInt8) → Ofile → Proc
  | .exec [], _ => .exit 1
  | .exec (arg :: argv), ofile => .exec (arg :: argv) ofile (.exit 0)
  | .redir cmd file mode fd, ofile =>
    .openFile file mode fun f =>
      match f.bind (fdalloc (close ofile fd)) with
      | none => .exit 1
      | some (_, ofile) => runcmd cmd ofile
  | .list left right, ofile => .fork (runcmd left ofile) (.wait (runcmd right ofile))
  | .pipe left right, ofile =>
    .pipe fun ends =>
      match ends.bind (pipeFds ofile) with
      | none => .exit 1
      | some (p0, p1, ofile) =>
        .fork (runcmd left (close (close (dup (close ofile 1) p1) p0) p1))
          (.fork (runcmd right (close (close (dup (close ofile 0) p0) p0) p1))
            (.wait (.wait (.exit 0))))
  | .back cmd, ofile => .fork (runcmd cmd ofile) (.exit 0)

/-! ## Reaching `exec` -/

/-- A process of `p` calls `exec` with `argv` and the descriptors `t`, when every
`open` succeeds; `files` gives the file of every name. -/
inductive Reaches (files : List UInt8 → Nat) : Proc → List (List UInt8) → Ofile → Prop where
  | exec (argv : List (List UInt8)) (t : Ofile) (returned : Proc) :
      Reaches files (.exec argv t returned) argv t
  | openFile {file : List UInt8} {mode : Nat} {next : Option Nat → Proc} {argv : List (List UInt8)}
      {t : Ofile} (h : Reaches files (next (some (files file))) argv t) :
      Reaches files (.openFile file mode next) argv t
  | pipe {next : Option (Nat × Nat) → Proc} {argv : List (List UInt8)} {t : Ofile}
    (ends : Nat × Nat)
      (h : Reaches files (next (some ends)) argv t) : Reaches files (.pipe next) argv t
  | child {child parent : Proc} {argv : List (List UInt8)} {t : Ofile}
      (h : Reaches files child argv t) : Reaches files (.fork child parent) argv t
  | parent {child parent : Proc} {argv : List (List UInt8)} {t : Ofile}
      (h : Reaches files parent argv t) : Reaches files (.fork child parent) argv t
  | wait {next : Proc} {argv : List (List UInt8)} {t : Ofile} (h : Reaches files next argv t) :
      Reaches files (.wait next) argv t

section Redirections

variable {files : List UInt8 → Nat} {ofile t : Ofile} {argv : List (List UInt8)}

/-- The descriptor of a redirection. -/
def RedirOp.fd : RedirOp → Nat
  | .less => 0
  | .greater => 1
  | .append => 1

/-- The descriptors after a redirection. -/
def redirect (files : List UInt8 → Nat) (r : Redir) (ofile : Ofile) : Ofile :=
  Function.update ofile r.1.fd (some (files r.2))

/-- The standard input and output are open. -/
def StdOpen (ofile : Ofile) : Prop := (ofile 0).isSome ∧ (ofile 1).isSome

theorem StdOpen.redirect (h : StdOpen ofile) (r : Redir) : StdOpen (redirect files r ofile) := by
  obtain ⟨op, file⟩ := r
  cases op <;>
    exact ⟨by simp [Sh.redirect, RedirOp.fd, h.1], by simp [Sh.redirect, RedirOp.fd, h.2]⟩

/-- A standard descriptor that was closed is the next one that is taken. -/
theorem fdalloc_close (h : StdOpen ofile) (op : RedirOp) (f : Nat) :
    fdalloc (close ofile op.fd) f = some (op.fd, Function.update ofile op.fd (some f)) := by
  obtain ⟨h0, h1⟩ := h
  have hrange : List.range Files.NOFILE = 0 :: 1 :: (List.range 14).map (· + 2) := by decide
  have hclose : close ofile op.fd = Function.update ofile op.fd none := by
    cases op
    · exact if_pos h0
    · exact if_pos h1
    · exact if_pos h1
  have hzero : (ofile 0).isNone = false := by simpa using h0
  rw [hclose, fdalloc, hrange]
  cases op <;> simp [RedirOp.fd, hzero]

theorem runcmd_node (cmd : Cmd (List UInt8)) (r : Redir) (ofile : Ofile) :
    ∃ mode, runcmd (Redir.node cmd r) ofile = .openFile r.2 mode fun f =>
      match f.bind (fdalloc (close ofile r.1.fd)) with
      | none => .exit 1
      | some (_, ofile) => runcmd cmd ofile := by
  obtain ⟨op, file⟩ := r
  cases op <;> exact ⟨_, rfl⟩

theorem reaches_node (h : StdOpen ofile) (cmd : Cmd (List UInt8)) (r : Redir) :
    Reaches files (runcmd (Redir.node cmd r) ofile) argv t ↔
      Reaches files (runcmd cmd (redirect files r ofile)) argv t := by
  obtain ⟨mode, hrun⟩ := runcmd_node cmd r ofile
  have hopen : (some (files r.2)).bind (fdalloc (close ofile r.1.fd)) =
      some (r.1.fd, redirect files r ofile) := fdalloc_close h r.1 (files r.2)
  rw [hrun]
  constructor
  · intro hreach
    cases hreach with
    | openFile hnext =>
      beta_reduce at hnext
      rw [hopen] at hnext
      exact hnext
  · intro hreach
    apply Reaches.openFile
    rw [hopen]
    exact hreach

/-- The redirections around a command act from the last one to the first one. -/
theorem reaches_wrap (h : StdOpen ofile) (rs : List Redir) : ∀ (cmd : Cmd (List UInt8)),
    Reaches files (runcmd (wrap rs cmd) ofile) argv t ↔
      Reaches files (runcmd cmd (rs.foldr (redirect files) ofile)) argv t := by
  have hopen : ∀ qs : List Redir, StdOpen (qs.foldr (redirect files) ofile) := by
    intro qs
    induction qs with
    | nil => exact h
    | cons q qs ih => exact ih.redirect q
  induction rs with
  | nil =>
    intro cmd
    exact Iff.rfl
  | cons r rs ih =>
    intro cmd
    show Reaches files (runcmd (wrap rs (Redir.node cmd r)) ofile) argv t ↔ _
    rw [ih, reaches_node (hopen rs), List.foldr_cons]

theorem reaches_exec {arg : List UInt8} {args : List (List UInt8)} :
    Reaches files (runcmd (.exec (arg :: args)) ofile) argv t ↔ argv = arg :: args ∧ t = ofile := by
  constructor
  · intro h
    cases h
    exact ⟨rfl, rfl⟩
  · rintro ⟨rfl, rfl⟩
    exact .exec _ _ _

/-! ## The file that a descriptor refers to -/

/-- The files of the redirections of the descriptor `fd`, from left to right. -/
def targets (fd : Nat) (rs : List Redir) : List (List UInt8) :=
  (rs.filter fun r => decide (r.1.fd = fd)).map (·.2)

/-- The first redirection of a descriptor decides. -/
theorem foldr_redirect (rs : List Redir) (fd : Nat) :
    rs.foldr (redirect files) ofile fd =
      match (targets fd rs).head? with
      | some file => some (files file)
      | none => ofile fd := by
  induction rs with
  | nil => rfl
  | cons r rs ih =>
    rw [List.foldr_cons, redirect, Function.update_apply]
    by_cases hfd : r.1.fd = fd
    · rw [if_pos hfd.symm, targets, List.filter_cons_of_pos (by simpa using hfd)]
      rfl
    · rw [if_neg fun heq => hfd heq.symm, ih, targets, targets,
        List.filter_cons_of_neg (by simpa using hfd)]

end Redirections

/-- The descriptor `fd` refers to the file of its last redirection, or to what it did
before. -/
def RefersToLast (files : List UInt8 → Nat) (rs : List Redir) (ofile t : Ofile) (fd : Nat) : Prop :=
  t fd = match (targets fd rs).getLast? with
    | some file => some (files file)
    | none => ofile fd

/-- Whenever `line` is accepted and its command gets to `exec`, the standard input and output
refer to the files of the last of the redirections `rs`. -/
def LastWins (files : List UInt8 → Nat) (line : List UInt8) (rs : List Redir) (ofile : Ofile) :
    Prop :=
  ∀ cmd mem, parsecmd line = .ok (cmd, mem) →
    ∀ argv t, Reaches files (runcmd (cmd.strings line.length mem) ofile) argv t →
      RefersToLast files rs ofile t 0 ∧ RefersToLast files rs ofile t 1

section Lines

variable {files : List UInt8 → Nat} {line : List UInt8} {rs : List Redir} {args : List Arg}
  {ofile : Ofile}

/-! The number of arguments can be read off the tokens, so a line with too many of them has no
derivation at all. -/

/-- Words count up, redirections count down. -/
def Token.weight : Token → Int
  | .word _ => 1
  | .less | .greater | .append => -1
  | _ => 0

/-- Words and redirections only. -/
def Token.simple : Token → Bool
  | .word _ | .less | .greater | .append => true
  | _ => false

theorem weight_redirTokens (rs : List Redir) : ((redirTokens rs).map Token.weight).sum = 0 := by
  induction rs with
  | nil => rfl
  | cons r rs ih =>
    obtain ⟨op, file⟩ := r
    rw [redirTokens_cons]
    cases op <;> simpa [RedirOp.token, Token.weight] using ih

theorem weight_argTokens (args : List Arg) :
    ((argTokens args).map Token.weight).sum = args.length := by
  induction args with
  | nil => rfl
  | cons a args ih =>
    rw [argTokens_cons]
    simp only [List.map_cons, List.map_append, List.sum_cons, List.sum_append,
      weight_redirTokens, ih, Token.weight, List.length_cons]
    omega

theorem simple_redirTokens (rs : List Redir) : ∀ t ∈ redirTokens rs, t.simple = true := by
  intro t ht
  obtain ⟨⟨op, file⟩, -, hmem⟩ := List.mem_flatMap.mp ht
  rcases List.mem_pair.mp hmem with rfl | rfl
  · cases op <;> rfl
  · rfl

theorem simple_argTokens (args : List Arg) : ∀ t ∈ argTokens args, t.simple = true := by
  intro t ht
  obtain ⟨a, -, hmem⟩ := List.mem_flatMap.mp ht
  rcases List.mem_cons.mp hmem with rfl | hmem
  · rfl
  · exact simple_redirTokens a.2 t hmem

/-- A derivation of words and redirections only has fewer than `MAXARGS` arguments. -/
theorem Derives.weight_lt {nt : Nonterminal} {ts : List Token} {t : Cmd (List UInt8)}
    (h : Derives nt ts t) : (∀ t ∈ ts, t.simple = true) → (ts.map Token.weight).sum < MAXARGS := by
  induction h with
  | line k left ih =>
    intro hsimple
    cases k with
    | zero =>
      rw [List.replicate_zero, List.append_nil] at hsimple ⊢
      exact ih hsimple
    | succ k => cases hsimple .ampersand (by simp)
  | list k left right ihl ihr =>
    intro hsimple
    cases hsimple .semicolon (by simp)
  | single left ih => exact ih
  | pipe left right ihl ihr =>
    intro hsimple
    cases hsimple .bar (by simp)
  | block inner rs ih =>
    intro hsimple
    cases hsimple .lparen (by simp)
  | words rs args hargs =>
    intro hsimple
    rw [List.map_append, List.sum_append, weight_redirTokens, weight_argTokens, Int.zero_add]
    exact_mod_cast hargs

/-- An accepted line of words and redirections has fewer than `MAXARGS` arguments. -/
theorem args_lt_of_parsecmd (hline : 0 ∉ line)
    (htokens : tokens line = redirTokens rs ++ argTokens args) {cmd : Cmd Word} {mem : Nat → UInt8}
    (h : parsecmd line = .ok (cmd, mem)) : args.length < MAXARGS := by
  obtain ⟨-, -, hderives⟩ := parsecmd_sound hline h
  rw [htokens] at hderives
  have hlt := hderives.weight_lt fun t ht => by
    rcases List.mem_append.mp ht with ht | ht
    · exact simple_redirTokens rs t ht
    · exact simple_argTokens args t ht
  rw [List.map_append, List.sum_append, weight_redirTokens, weight_argTokens, Int.zero_add] at hlt
  exact_mod_cast hlt

/-- What a line of words and redirections executes: its words, if there are any. -/
theorem runcmd_simple (hline : 0 ∉ line) (htokens : tokens line = redirTokens rs ++ argTokens args)
    (hcount : args.length < MAXARGS) (hopen : StdOpen ofile) :
    ∃ cmd mem, parsecmd line = .ok (cmd, mem) ∧ ∀ argv t,
      Reaches files (runcmd (cmd.strings line.length mem) ofile) argv t ↔
        args ≠ [] ∧ argv = args.map (·.1) ∧
          t = (rs ++ args.flatMap (·.2)).foldr (redirect files) ofile := by
  obtain ⟨cmd, mem, hparse, hstrings⟩ := parsecmd_complete hline (htokens ▸ derives_simple hcount)
  refine ⟨cmd, mem, hparse, fun argv t => ?_⟩
  rw [hstrings, reaches_wrap hopen]
  cases args with
  | nil =>
    constructor
    · intro hreach
      cases hreach
    · intro h
      exact absurd rfl h.1
  | cons a args =>
    rw [List.map_cons, reaches_exec]
    exact (and_iff_right (List.cons_ne_nil a args)).symm

/-- For every line of words and redirections that gets to `exec`,
the descriptors 0 and 1 refer to the files of their last redirections then exactly if those
are also the files of their first ones. -/
theorem lastWins_iff (hline : 0 ∉ line) (htokens : tokens line = redirTokens rs ++ argTokens args)
    (hopen : StdOpen ofile) :
    LastWins files line (rs ++ args.flatMap (·.2)) ofile ↔
      args = [] ∨ MAXARGS ≤ args.length ∨
        ∀ fd, fd = 0 ∨ fd = 1 → (targets fd (rs ++ args.flatMap (·.2))).head?.map files =
          (targets fd (rs ++ args.flatMap (·.2))).getLast?.map files := by
  by_cases hcount : args.length < MAXARGS
  swap
  · refine iff_of_true (fun cmd mem hparse => ?_) (.inr (.inl (not_lt.mp hcount)))
    exact absurd (args_lt_of_parsecmd hline htokens hparse) hcount
  obtain ⟨cmd, mem, hparse, hreach⟩ := runcmd_simple hline htokens hcount hopen
  generalize rs ++ args.flatMap (·.2) = all at hreach ⊢
  -- a descriptor gets the first file, and should get the last one
  have hfd : ∀ fd, RefersToLast files all ofile (all.foldr (redirect files) ofile) fd ↔
      (targets fd all).head?.map files = (targets fd all).getLast?.map files := by
    intro fd
    rw [RefersToLast, foldr_redirect]
    cases hlist : targets fd all with
    | nil => simp
    | cons file rest => simp [List.getLast?_cons]
  constructor
  · intro hlast
    by_cases hargs : args = []
    · exact .inl hargs
    obtain ⟨h0, h1⟩ := hlast cmd mem hparse _ _ ((hreach _ _).mpr ⟨hargs, rfl, rfl⟩)
    refine .inr (.inr fun fd hcases => ?_)
    rw [← hfd]
    rcases hcases with rfl | rfl
    · exact h0
    · exact h1
  · intro hcond cmd' mem' hparse' argv t hargv
    obtain ⟨rfl, rfl⟩ : cmd' = cmd ∧ mem' = mem := by
      rw [hparse] at hparse'
      cases hparse'
      exact ⟨rfl, rfl⟩
    obtain ⟨hargs, -, rfl⟩ := (hreach _ _).mp hargv
    obtain hnil | hmany | hsame := hcond
    · exact absurd hnil hargs
    · exact absurd hcount (not_lt.mpr hmany)
    · exact ⟨(hfd 0).mpr (hsame 0 (.inl rfl)), (hfd 1).mpr (hsame 1 (.inr rfl))⟩

end Lines

/-- The descriptors of a process that only has the standard ones. -/
def stdFds : Ofile := fun fd => if fd < 3 then some 0 else none

/-- A file for every first character. -/
def byInitial (name : List UInt8) : Nat := (name.headD 0).toNat

/-- `a>b>c` runs `a` with the file `b` as its output. -/
theorem not_lastWins_twoFiles :
    (∃ cmd mem, parsecmd [97, 62, 98, 62, 99] = .ok (cmd, mem) ∧ ∃ t, t 1 = some 98 ∧
      Reaches byInitial (runcmd (cmd.strings 5 mem) stdFds) [[97]] t) ∧
    ¬ LastWins byInitial [97, 62, 98, 62, 99] [(.greater, [98]), (.greater, [99])] stdFds := by
  have htokens : tokens [97, 62, 98, 62, 99] =
      redirTokens [] ++ argTokens [([97], [(.greater, [98]), (.greater, [99])])] := by
    decide +kernel
  have hstd : StdOpen stdFds := ⟨rfl, rfl⟩
  obtain ⟨cmd, mem, hparse, hreach⟩ := runcmd_simple (by decide) htokens (by decide) hstd
  have hexec := (hreach [[97]] _).mpr ⟨by decide, rfl, rfl⟩
  refine ⟨⟨cmd, mem, hparse, _, rfl, hexec⟩, fun hlast => ?_⟩
  obtain ⟨-, hout⟩ := hlast cmd mem hparse _ _ hexec
  exact absurd (Option.some.inj hout) (by decide)

/-- `a>b>>b` redirects the output twice to `b`. -/
theorem lastWins_sameFile : LastWins byInitial [97, 62, 98, 62, 62, 98]
    [(.greater, [98]), (.append, [98])] stdFds := by
  have htokens : tokens [97, 62, 98, 62, 62, 98] =
      redirTokens [] ++ argTokens [([97], [(.greater, [98]), (.append, [98])])] := by
    decide +kernel
  refine (lastWins_iff (by decide) htokens ⟨rfl, rfl⟩).mpr (.inr (.inr fun fd hfd => ?_))
  rcases hfd with rfl | rfl <;> rfl

end Xv6.Sh
