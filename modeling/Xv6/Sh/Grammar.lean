import Xv6.Sh.Tokens

/-!
# The grammar of the shell

    line  ::= pipe '&'* [';' line]
    pipe  ::= exec ['|' pipe]
    exec  ::= '(' line ')' redir* | redir* (word redir*)^k,  k < MAXARGS
    redir ::= ('<' | '>' | '>>') word

* `Derives`: the derivations, with the tree of each.
* `nextStarts`, `peek_eq`, `next_eq`: `peek` on the token sequence.
* `Cmd.All`, `addArg_wrap`, `wrap_append`: words and redirections of a tree.
-/

namespace Xv6.Sh

/-! ## Derivations -/

inductive Nonterminal where
  | line
  | pipe
  | exec

inductive RedirOp where
  | less
  | greater
  | append

def RedirOp.token : RedirOp → Token
  | .less => .less
  | .greater => .greater
  | .append => .append

/-- A redirection and its file. -/
abbrev Redir := RedirOp × List UInt8

/-- The node of a redirection. -/
def Redir.node (cmd : Cmd (List UInt8)) : Redir → Cmd (List UInt8)
  | (.less, file) => .redir cmd file O_RDONLY 0
  | (.greater, file) => .redir cmd file (O_WRONLY ||| O_CREATE ||| O_TRUNC) 1
  | (.append, file) => .redir cmd file (O_WRONLY ||| O_CREATE) 1

def redirTokens (rs : List Redir) : List Token := rs.flatMap fun r => [r.1.token, .word r.2]

/-- The redirections around a command, the last one outermost. -/
def wrap (rs : List Redir) (cmd : Cmd (List UInt8)) : Cmd (List UInt8) := rs.foldl Redir.node cmd

/-- An argument, and the redirections behind it. -/
abbrev Arg := List UInt8 × List Redir

def argTokens (args : List Arg) : List Token := args.flatMap fun a => .word a.1 :: redirTokens a.2

/-- `k` times `&`. -/
def backs (cmd : Cmd (List UInt8)) : Nat → Cmd (List UInt8)
  | 0 => cmd
  | k + 1 => .back (backs cmd k)

inductive Derives : Nonterminal → List Token → Cmd (List UInt8) → Prop where
  | line {ts : List Token} {t : Cmd (List UInt8)} (k : Nat) (left : Derives .pipe ts t) :
      Derives .line (ts ++ List.replicate k .ampersand) (backs t k)
  | list {ts us : List Token} {t u : Cmd (List UInt8)} (k : Nat) (left : Derives .pipe ts t)
      (right : Derives .line us u) :
      Derives .line (ts ++ List.replicate k .ampersand ++ .semicolon :: us) (.list (backs t k) u)
  | single {ts : List Token} {t : Cmd (List UInt8)} (left : Derives .exec ts t) : Derives .pipe ts t
  | pipe {ts us : List Token} {t u : Cmd (List UInt8)} (left : Derives .exec ts t)
      (right : Derives .pipe us u) : Derives .pipe (ts ++ .bar :: us) (.pipe t u)
  | block {ts : List Token} {t : Cmd (List UInt8)} (inner : Derives .line ts t) (rs : List Redir) :
      Derives .exec (.lparen :: ts ++ .rparen :: redirTokens rs) (wrap rs t)
  | words (rs : List Redir) (args : List Arg) (hargs : args.length < MAXARGS) :
      Derives .exec (redirTokens rs ++ argTokens args)
        (wrap (rs ++ args.flatMap (·.2)) (.exec (args.map (·.1))))

/-! ## Looking at the next token -/

/-- The token is a symbol that starts with one of the characters. -/
def Token.starts (toks : List UInt8) : Token → Bool
  | .word _ => false
  | t => t.first.any fun c => decide (c ∈ toks)

def nextStarts (toks : List UInt8) : List Token → Bool
  | [] => false
  | t :: _ => t.starts toks

section Peek

variable {s : Ptr} {t : Token} {ts : List Token} {toks : List UInt8}

/-- A word does not start with a symbol. -/
theorem first_of_word {w : List UInt8} (h : tokens s = .word w :: ts) :
    ∃ c, w.head? = some c ∧ c ∉ symbols := by
  cases hskip : skip s with
  | nil =>
    rw [tokens_eq_nil_iff.mpr hskip] at h
    cases h
  | cons c r =>
    obtain ⟨t, r', hlex, heq⟩ := lexed_of_skip hskip
    rw [h, List.cons.injEq] at heq
    obtain ⟨rfl, -⟩ := heq
    have hspec := symbolToken_spec c
    cases hlex with
    | symbol hnot ht =>
      rw [ht] at hspec
      exact absurd rfl (hspec.2.2.2 w)
    | word ht =>
      rw [ht] at hspec
      exact ⟨c, rfl, hspec⟩

theorem peek_eq (htoks : ∀ c ∈ toks, c ∈ symbols) :
    peek s toks = (nextStarts toks (tokens s), skip s) := by
  refine Prod.ext ?_ (peek_snd s toks)
  rw [Bool.eq_iff_iff, peek_fst]
  cases h : tokens s with
  | nil => exact iff_of_false nofun Bool.false_ne_true
  | cons t ts =>
    show _ ↔ t.starts toks = true
    have hfirst : (∃ t' ts', t :: ts = t' :: ts' ∧ ∃ c ∈ toks, t'.first = some c) ↔
        ∃ c ∈ toks, t.first = some c := by
      constructor
      · rintro ⟨t', ts', heq, hc⟩
        rw [List.cons.injEq] at heq
        exact heq.1 ▸ hc
      · intro hc
        exact ⟨t, ts, rfl, hc⟩
    rw [hfirst]
    cases t with
    | word w =>
      obtain ⟨c, hw, hc⟩ := first_of_word h
      refine iff_of_false ?_ Bool.false_ne_true
      rintro ⟨c', hc', hfirst⟩
      rw [Token.first, hw, Option.some.injEq] at hfirst
      exact hc (hfirst ▸ htoks c' hc')
    | _ => simp [Token.starts, Token.first]

/-- A symbol other than `>` is one token. -/
theorem next_eq {c : UInt8} (hc : symbolToken c = some t) (hne : c ≠ greater)
    (h : nextStarts [c] ts = true) : ∃ us, ts = t :: us := by
  cases ts with
  | nil => cases h
  | cons t' us =>
    have hfirst : t'.first = some c ∧ ∀ w, t' ≠ .word w := by
      cases t' with
      | word w => cases h
      | _ =>
        refine ⟨?_, nofun⟩
        simpa [nextStarts, Token.starts, Token.first] using h
    have hsame : t' = .append ∨ symbolToken c = some t' := by
      cases t' with
      | word w => exact absurd rfl (hfirst.2 w)
      | append => exact .inl rfl
      | _ =>
        right
        obtain rfl := Option.some.inj hfirst.1
        decide
    rcases hsame with rfl | hsame
    · exact absurd (Option.some.inj hfirst.1).symm hne
    · rw [hc, Option.some.injEq] at hsame
      exact ⟨us, by rw [hsame]⟩

end Peek

/-! ## The trees of the parser -/

/-- All words of a command satisfy `P`. -/
def Cmd.All {W : Type} (P : W → Prop) : Cmd W → Prop
  | .exec argv => ∀ w ∈ argv, P w
  | .redir cmd file _ _ => cmd.All P ∧ P file
  | .pipe left right => left.All P ∧ right.All P
  | .list left right => left.All P ∧ right.All P
  | .back cmd => cmd.All P

section Trees

variable {W V : Type} {P Q : W → Prop} {cmd : Cmd W}

theorem Cmd.All.mono (h : cmd.All P) (hPQ : ∀ w, P w → Q w) : cmd.All Q := by
  induction cmd with
  | exec argv => exact fun w hw => hPQ w (h w hw)
  | redir cmd file mode fd ih => exact ⟨ih h.1, hPQ file h.2⟩
  | pipe left right ihl ihr => exact ⟨ihl h.1, ihr h.2⟩
  | list left right ihl ihr => exact ⟨ihl h.1, ihr h.2⟩
  | back cmd ih => exact ih h

theorem Cmd.All.addArg (h : cmd.All P) {w : W} (hw : P w) : (cmd.addArg w).All P := by
  induction cmd with
  | exec argv =>
    intro x hx
    rcases List.mem_append.mp hx with hx | hx
    · exact h x hx
    · rw [List.mem_singleton.mp hx]
      exact hw
  | redir cmd file mode fd ih => exact ⟨ih h.1, h.2⟩
  | _ => exact h

theorem map_addArg (f : W → V) (cmd : Cmd W) (w : W) :
    (cmd.addArg w).map f = (cmd.map f).addArg (f w) := by
  induction cmd with
  | exec argv => simp [Cmd.addArg, Cmd.map]
  | redir cmd file mode fd ih => rw [Cmd.addArg, Cmd.map, ih, Cmd.map, Cmd.addArg]
  | _ => rfl

theorem wrap_append (rs qs : List Redir) (t : Cmd (List UInt8)) :
    wrap (rs ++ qs) t = wrap qs (wrap rs t) :=
  List.foldl_append

theorem addArg_node (t : Cmd (List UInt8)) (r : Redir) (w : List UInt8) :
    (Redir.node t r).addArg w = Redir.node (t.addArg w) r := by
  obtain ⟨op, file⟩ := r
  cases op <;> rfl

/-- An argument goes below the redirections. -/
theorem addArg_wrap (rs : List Redir) (t : Cmd (List UInt8)) (w : List UInt8) :
    (wrap rs t).addArg w = wrap rs (t.addArg w) := by
  induction rs generalizing t with
  | nil => rfl
  | cons r rs ih =>
    show (wrap rs (Redir.node t r)).addArg w = wrap rs (Redir.node (t.addArg w) r)
    rw [ih, addArg_node]

theorem redirTokens_cons (r : Redir) (rs : List Redir) :
    redirTokens (r :: rs) = r.1.token :: .word r.2 :: redirTokens rs := by
  simp [redirTokens]

theorem length_le_redirTokens (rs : List Redir) : rs.length ≤ (redirTokens rs).length := by
  induction rs with
  | nil => exact Nat.le_refl _
  | cons r rs ih =>
    rw [redirTokens_cons, List.length_cons, List.length_cons, List.length_cons]
    omega

theorem argTokens_cons (a : Arg) (args : List Arg) :
    argTokens (a :: args) = .word a.1 :: (redirTokens a.2 ++ argTokens args) := by
  simp [argTokens]

end Trees

end Xv6.Sh
