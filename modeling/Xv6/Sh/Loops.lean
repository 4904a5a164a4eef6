import Xv6.Lib.Run
import Xv6.Sh.Grammar

/-!
# The loops of the shell parser

`parseredirs`, the loop of `parseexec` over the arguments and the loop of `parseline`
over `&`.  For each loop there are

* an equation for each kind of token that may follow,
* `_meets`: what it has consumed when it returns, and that the fuel lasts for the tokens
  that are left (`Meets`),
* `_complete`: it finds what the grammar allows.
-/

namespace Xv6.Sh

open Xv6.Lib.Run

variable {t : Token} {op : RedirOp} {rest ts : List Token} {args : List Arg} {argc : Nat}

/-! ## Results -/

section Meets

variable {α β : Type} {F F' : Prop} {Q : α → Prop} {x : Except Failure α}

/-- The result of a parser, if there is one, satisfies `Q`, and the fuel lasts if `F`. -/
def Meets (F : Prop) (Q : α → Prop) : Except Failure α → Prop
  | .ok a => Q a
  | .error e => F → e ≠ .outOfFuel

theorem Meets.mono {Q' : α → Prop} (h : Meets F Q x) (hF : F' → F) (hQ : ∀ a, Q a → Q' a) :
    Meets F' Q' x := by
  cases x with
  | ok a => exact hQ a h
  | error e => exact fun hF' => h (hF hF')

theorem Meets.bind {Q' : β → Prop} {f : α → Except Failure β} (h : Meets F Q x) (hF : F' → F)
    (hf : ∀ a, Q a → Meets F' Q' (f a)) : Meets F' Q' (x >>= f) := by
  cases x with
  | ok a => exact hf a h
  | error e => exact fun hF' => h (hF hF')

end Meets

/-- `peek` for one symbol, and the token if it is there. -/
theorem peek_symbol (c : UInt8) (t : Token)
    (hc : c ∈ symbols ∧ symbolToken c = some t ∧ c ≠ greater) (s : Ptr) :
    peek s [c] = (false, skip s) ∨ peek s [c] = (true, skip s) ∧ (gettoken (skip s)).ps <:+ s ∧
      tokens s = t :: tokens (gettoken (skip s)).ps := by
  rw [peek_eq (by simpa using hc.1)]
  cases hnext : nextStarts [c] (tokens s) with
  | false => exact .inl rfl
  | true =>
    obtain ⟨ts, hts⟩ := next_eq hc.2.1 hc.2.2 hnext
    have htok := gettoken_cons ((tokens_skip s).trans hts)
    exact .inr ⟨rfl, htok.suffix.trans (skip_suffix s), by rw [hts, htok.rest]⟩

section Loops

variable {s s' : Ptr} {cmd cmd' : Cmd Word} {fuel : Nat}

/-! ## Redirections -/

/-- The operator of a redirection. -/
theorem starts_redir (h : t.starts [less, greater] = true) : ∃ op : RedirOp, t = op.token := by
  cases t with
  | less => exact ⟨.less, rfl⟩
  | greater => exact ⟨.greater, rfl⟩
  | append => exact ⟨.append, rfl⟩
  | word w => cases h
  | _ => exact absurd h (by decide)

theorem redirOp_starts (op : RedirOp) : op.token.starts [less, greater] = true := by
  cases op <;> decide

theorem redirFor_eq (op : RedirOp) (cmd : Cmd Word) (file : Word) :
    (redirFor op.token.code cmd file).map Word.text =
      Redir.node (cmd.map Word.text) (op, file.text) := by
  cases op <;> rfl

theorem redirFor_all {P : Word → Prop} (op : RedirOp) {file : Word} (hcmd : cmd.All P)
    (hfile : P file) :
    (redirFor op.token.code cmd file).All P := by
  cases op <;> exact ⟨hcmd, hfile⟩

/-- A token that is a word is what `gettoken` returns `'a'` for. -/
theorem word_of_ret (h : t.code = letterA) : ∃ w, t = .word w := by
  cases t with
  | word w => exact ⟨w, rfl⟩
  | _ => exact absurd h (by decide)

/-- `parseredirs` at a redirection. -/
theorem parseredirs_cons {w : List UInt8}
    (h : tokens s = op.token :: .word w :: ts) (fuel : Nat) (cmd : Cmd Word) :
    ∃ file r, tokens r = ts ∧ r <:+ s ∧ Good s file ∧ file.text = w ∧
      parseredirs (fuel + 1) cmd s = parseredirs fuel (redirFor op.token.code cmd file) r := by
  have hstarts : nextStarts [less, greater] (tokens s) = true := by
    rw [h]
    exact redirOp_starts op
  rw [parseredirs, peek_eq (by simp [symbols]), hstarts]
  dsimp only
  rw [if_pos rfl]
  have htok := gettoken_cons ((tokens_skip s).trans h)
  have hfile := gettoken_cons htok.rest
  obtain ⟨hgood, htext⟩ := hfile.word w rfl
  have hsuffix := htok.suffix.trans (skip_suffix s)
  refine ⟨_, _, hfile.rest, hfile.suffix.trans hsuffix, hgood.mono hsuffix, htext, ?_⟩
  have hret : (gettoken (gettoken (skip s)).ps).ret = letterA := hfile.ret
  rw [htok.ret, if_neg (not_not.mpr hret)]

/-- `parseredirs` where no redirection follows. -/
theorem parseredirs_stop (h : nextStarts [less, greater] (tokens s) = false) (fuel : Nat)
    (cmd : Cmd Word) :
    parseredirs (fuel + 1) cmd s = .ok (cmd, skip s) := by
  rw [parseredirs, peek_eq (by simp [symbols]), h]
  rfl

/-- What follows an operator, for the parser and for the grammar. -/
theorem parseredirs_missing (h : tokens s = op.token :: ts)
    (hword : ∀ w us, ts ≠ .word w :: us) (fuel : Nat) (cmd : Cmd Word) :
    parseredirs (fuel + 1) cmd s = .error .missingFile := by
  have hstarts : nextStarts [less, greater] (tokens s) = true := by
    rw [h]
    exact redirOp_starts op
  rw [parseredirs, peek_eq (by simp [symbols]), hstarts]
  dsimp only
  rw [if_pos rfl]
  have htok := gettoken_cons ((tokens_skip s).trans h)
  have hret : (gettoken (gettoken (skip s)).ps).ret ≠ letterA := by
    cases hts : tokens (gettoken (skip s)).ps with
    | nil =>
      rw [(gettoken_nil hts).1]
      decide
    | cons t us =>
      rw [(gettoken_cons hts).ret]
      intro hcode
      obtain ⟨w, rfl⟩ := word_of_ret hcode
      exact hword w us (htok.rest.symm.trans hts)
  rw [if_pos hret]

/-- The tokens start with a redirection, or with an operator alone, or with neither. -/
theorem redirs_cases (ts : List Token) :
    (∃ (op : RedirOp) (w : List UInt8) (us : List Token), ts = op.token :: .word w :: us) ∨
    (∃ (op : RedirOp) (us : List Token), ts = op.token :: us ∧ ∀ w vs, us ≠ .word w :: vs) ∨
    nextStarts [less, greater] ts = false := by
  cases ts with
  | nil => exact .inr (.inr rfl)
  | cons t us =>
    cases hstarts : t.starts [less, greater] with
    | false => exact .inr (.inr hstarts)
    | true =>
      obtain ⟨op, rfl⟩ := starts_redir hstarts
      by_cases hword : ∃ w vs, us = .word w :: vs
      · obtain ⟨w, vs, rfl⟩ := hword
        exact .inl ⟨op, w, vs, rfl⟩
      · refine .inr (.inl ⟨op, us, rfl, fun w vs heq => hword ⟨w, vs, heq⟩⟩)

/-- What `parseredirs` has done when it returns. -/
structure Redirected (s : Ptr) (cmd : Cmd Word) (rs : List Redir) (cmd' : Cmd Word)
    (s' : Ptr) : Prop where
  suffix : s' <:+ s
  tokens : tokens s = redirTokens rs ++ tokens s'
  map : cmd'.map Word.text = wrap rs (cmd.map Word.text)
  all : ∀ P : Word → Prop, cmd.All P → (∀ w, Good s w → P w) → cmd'.All P

theorem Redirected.cons {r : Ptr} {file : Word} {rs : List Redir}
    (h : Redirected r (redirFor op.token.code cmd file) rs cmd' s') (hs : r <:+ s)
    (hgood : Good s file) (htokens : Sh.tokens s = op.token :: .word file.text :: Sh.tokens r) :
    Redirected s cmd ((op, file.text) :: rs) cmd' s' := by
  refine ⟨h.suffix.trans hs, ?_, ?_, fun P hcmd hP => ?_⟩
  · rw [htokens, h.tokens, redirTokens_cons]
    rfl
  · rw [h.map, redirFor_eq]
    rfl
  · exact h.all P (redirFor_all op hcmd (hP file hgood)) fun w hw => hP w (hw.mono hs)

theorem Redirected.nil (cmd : Cmd Word) (s : Ptr) : Redirected s cmd [] cmd (skip s) :=
  ⟨skip_suffix s, by rw [tokens_skip]; rfl, rfl, fun _ hcmd _ => hcmd⟩

theorem parseredirs_meets (fuel : Nat) (cmd : Cmd Word) (s : Ptr) :
    Meets ((tokens s).length < fuel) (fun p => ∃ rs, Redirected s cmd rs p.1 p.2)
      (parseredirs fuel cmd s) := by
  induction fuel generalizing cmd s with
  | zero => exact fun h => absurd h (Nat.not_lt_zero _)
  | succ fuel ih =>
    rcases redirs_cases (tokens s) with ⟨op, w, us, hts⟩ | ⟨op, us, hts, hword⟩ | hstop
    · obtain ⟨file, r, hr, hsuffix, hgood, rfl, heq⟩ := parseredirs_cons hts fuel cmd
      rw [heq]
      refine (ih _ r).mono (fun h => ?_) fun p hp => ?_
      · rw [hts, List.length_cons, List.length_cons, ← hr] at h
        omega
      · obtain ⟨rs, hrs⟩ := hp
        exact ⟨_, hrs.cons hsuffix hgood (by rw [hts, hr])⟩
    · rw [parseredirs_missing hts hword]
      exact fun _ => nofun
    · rw [parseredirs_stop hstop]
      exact ⟨[], .nil _ s⟩

theorem parseredirs_complete (cmd : Cmd Word) {rs : List Redir}
    (h : tokens s = redirTokens rs ++ rest) (hrest : nextStarts [less, greater] rest = false)
    (hfuel : rs.length < fuel) :
    ∃ cmd' s', parseredirs fuel cmd s = .ok (cmd', s') ∧ tokens s' = rest ∧
      cmd'.map Word.text = wrap rs (cmd.map Word.text) := by
  induction rs generalizing fuel cmd s with
  | nil =>
    obtain ⟨fuel, rfl⟩ : ∃ f, fuel = f + 1 := ⟨fuel - 1, by simp at hfuel; omega⟩
    refine ⟨cmd, skip s, parseredirs_stop (by rw [h]; exact hrest) fuel cmd, ?_, rfl⟩
    rw [tokens_skip, h]
    rfl
  | cons q rs ih =>
    obtain ⟨fuel, rfl⟩ : ∃ f, fuel = f + 1 := ⟨fuel - 1, by simp at hfuel; omega⟩
    obtain ⟨op, w⟩ := q
    rw [redirTokens_cons] at h
    obtain ⟨file, r, hr, -, -, rfl, heq⟩ := parseredirs_cons h fuel cmd
    rw [heq]
    obtain ⟨cmd', s', hparse, hs', hmap⟩ := ih _ hr (Nat.lt_of_succ_lt_succ hfuel)
    exact ⟨cmd', s', hparse, hs', by rw [hmap, redirFor_eq]; rfl⟩

/-! ## Arguments -/

/-- The characters that end the arguments. -/
def argEnds : List UInt8 := [bar, rparen, ampersand, semicolon]

/-- No argument and no redirection follows. -/
def EndsArgs (ts : List Token) : Prop := ts = [] ∨ nextStarts argEnds ts = true

theorem EndsArgs.no_redir (h : EndsArgs ts) : nextStarts [less, greater] ts = false := by
  rcases h with rfl | h
  · rfl
  · cases ts with
    | nil => rfl
    | cons t ts =>
      cases t with
      | word w => rfl
      | _ =>
        first
        | rfl
        | exact absurd h (by simp [nextStarts, Token.starts, Token.first, argEnds]; decide)

theorem no_redir_args (h : EndsArgs rest) :
    nextStarts [less, greater] (argTokens args ++ rest) = false := by
  cases args with
  | nil => exact h.no_redir
  | cons a args =>
    rw [argTokens_cons]
    rfl

theorem parseargs_stop (h : EndsArgs (tokens s)) (fuel argc : Nat) (ret : Cmd Word) :
    ∃ s', parseargs (fuel + 1) argc ret s = .ok (ret, s') ∧ tokens s' = tokens s ∧ s' <:+ s := by
  rw [parseargs, peek_eq (by simp [symbols])]
  rcases h with h | h
  · have hnone : nextStarts [bar, rparen, ampersand, semicolon] (tokens s) = false := by
      rw [h]
      rfl
    obtain ⟨hret, hps⟩ := gettoken_nil ((tokens_skip s).trans h)
    dsimp only
    rw [hnone, hret, hps, h]
    exact ⟨[], rfl, tokens_nil, List.nil_suffix⟩
  · have hsome : nextStarts [bar, rparen, ampersand, semicolon] (tokens s) = true := h
    dsimp only
    rw [hsome]
    exact ⟨skip s, rfl, tokens_skip s, skip_suffix s⟩

theorem parseargs_word {w : List UInt8} (h : tokens s = .word w :: ts) (fuel argc : Nat)
    (ret : Cmd Word) :
    ∃ a r, tokens r = ts ∧ r <:+ s ∧ Good s a ∧ a.text = w ∧
      parseargs (fuel + 1) argc ret s =
        if argc + 1 ≥ MAXARGS then .error .tooManyArgs
        else parseredirs fuel (ret.addArg a) r >>= fun p => parseargs fuel (argc + 1) p.1 p.2 := by
  have htok := gettoken_cons ((tokens_skip s).trans h)
  obtain ⟨hgood, htext⟩ := htok.word w rfl
  have hret : (gettoken (skip s)).ret = letterA := htok.ret
  have hnone : nextStarts [bar, rparen, ampersand, semicolon] (tokens s) = false := by
    rw [h]
    rfl
  refine ⟨_, _, htok.rest, htok.suffix.trans (skip_suffix s), hgood.mono (skip_suffix s), htext, ?_⟩
  rw [parseargs, peek_eq (by simp [symbols])]
  dsimp only
  rw [hnone, if_neg Bool.false_ne_true, hret, if_neg (by decide), if_neg (by decide)]

/-- A token that is neither a word nor an end. -/
theorem parseargs_bad (h : tokens s = t :: ts)
    (hend : t.starts argEnds = false) (hword : ∀ w, t ≠ .word w) (fuel argc : Nat)
    (ret : Cmd Word) :
    parseargs (fuel + 1) argc ret s = .error .syntaxError := by
  have htok := gettoken_cons ((tokens_skip s).trans h)
  have hnone : nextStarts [bar, rparen, ampersand, semicolon] (tokens s) = false := by
    rw [h]
    exact hend
  have hzero : t.code ≠ 0 := by
    cases t with
    | word w => exact show letterA ≠ 0 by decide
    | _ => decide
  have hletter : t.code ≠ letterA := by
    intro hcode
    obtain ⟨w, rfl⟩ := word_of_ret hcode
    exact hword w rfl
  rw [parseargs, peek_eq (by simp [symbols])]
  dsimp only
  rw [hnone, if_neg Bool.false_ne_true, htok.ret, if_neg hzero, if_pos hletter]

theorem args_cases (ts : List Token) :
    EndsArgs ts ∨ (∃ w us, ts = .word w :: us) ∨
      ∃ t us, ts = t :: us ∧ t.starts argEnds = false ∧ ∀ w, t ≠ .word w := by
  cases ts with
  | nil => exact .inl (.inl rfl)
  | cons t us =>
    cases hend : t.starts argEnds with
    | true => exact .inl (.inr hend)
    | false =>
      by_cases hword : ∃ w, t = .word w
      · obtain ⟨w, rfl⟩ := hword
        exact .inr (.inl ⟨w, us, rfl⟩)
      · exact .inr (.inr ⟨t, us, rfl, hend, fun w heq => hword ⟨w, heq⟩⟩)

/-- What the loop over the arguments has done when it returns. -/
structure Filled (s : Ptr) (ret : Cmd Word) (args : List Arg) (ret' : Cmd Word)
    (s' : Ptr) : Prop where
  suffix : s' <:+ s
  tokens : tokens s = argTokens args ++ tokens s'
  map : ∀ rs ws, ret.map Word.text = wrap rs (.exec ws) →
    ret'.map Word.text = wrap (rs ++ args.flatMap (·.2)) (.exec (ws ++ args.map (·.1)))
  all : ∀ P : Word → Prop, ret.All P → (∀ w, Good s w → P w) → ret'.All P

/-- An argument and its redirections, and then the others. -/
theorem wrap_args {ret₁ ret₂ ret' : Cmd Word} {a : Word} {qs : List Redir}
    (hredir : ret₁.map Word.text = wrap qs ((ret₂.addArg a).map Word.text))
    (hrest : ∀ rs ws, ret₁.map Word.text = wrap rs (.exec ws) →
      ret'.map Word.text = wrap (rs ++ args.flatMap (·.2)) (.exec (ws ++ args.map (·.1))))
    (rs : List Redir) (ws : List (List UInt8)) (hret : ret₂.map Word.text = wrap rs (.exec ws)) :
    ret'.map Word.text = wrap (rs ++ ((a.text, qs) :: args).flatMap (·.2))
      (.exec (ws ++ ((a.text, qs) :: args).map (·.1))) := by
  rw [hrest (rs ++ qs) (ws ++ [a.text])]
  · simp [List.append_assoc]
  · rw [hredir, map_addArg, hret, addArg_wrap, wrap_append]
    rfl

theorem parseargs_meets (fuel : Nat) (ret : Cmd Word) (s : Ptr) (hargc : argc < MAXARGS) :
    Meets ((tokens s).length < fuel)
      (fun p => ∃ args, argc + args.length < MAXARGS ∧ Filled s ret args p.1 p.2)
      (parseargs fuel argc ret s) := by
  induction fuel generalizing argc ret s with
  | zero => exact fun h => absurd h (Nat.not_lt_zero _)
  | succ fuel ih =>
    rcases args_cases (tokens s) with hend | ⟨w, us, hts⟩ | ⟨t, us, hts, hstart, hword⟩
    · obtain ⟨r, hparse, htokens, hsuffix⟩ := parseargs_stop hend fuel argc ret
      rw [hparse]
      exact ⟨[], hargc, hsuffix, htokens.symm, fun rs ws hret => by simpa using hret,
        fun P hret _ => hret⟩
    · obtain ⟨a, r, hr, hsuffix, hgood, rfl, heq⟩ := parseargs_word hts fuel argc ret
      rw [heq]
      split
      · exact fun _ => nofun
      rw [hts, ← hr, List.length_cons]
      refine (parseredirs_meets fuel _ r).bind (fun h => by omega) ?_
      rintro ⟨ret₁, s₁⟩ ⟨qs, hqs⟩
      have hs₁ : s₁ <:+ s := hqs.suffix.trans hsuffix
      refine (ih ret₁ s₁ (by omega)).mono (fun h => ?_) fun p hp => ?_
      · rw [hqs.tokens, List.length_append] at h
        dsimp only at h
        omega
      · obtain ⟨args, hcount, hargs⟩ := hp
        refine ⟨(a.text, qs) :: args, by rw [List.length_cons]; omega, hargs.suffix.trans hs₁,
          ?_, ?_, ?_⟩
        · rw [hts, argTokens_cons, ← hr, hqs.tokens, hargs.tokens]
          simp [List.append_assoc]
        · exact wrap_args hqs.map hargs.map
        · intro P hret hP
          refine hargs.all P (hqs.all P (hret.addArg (hP a hgood)) fun w hw => ?_) fun w hw => ?_
          · exact hP w (hw.mono hsuffix)
          · exact hP w (hw.mono hs₁)
    · rw [parseargs_bad hts hstart hword]
      exact fun _ => nofun

theorem parseargs_complete (ret : Cmd Word)
    (h : tokens s = argTokens args ++ rest) (hrest : EndsArgs rest)
    (hcount : argc + args.length < MAXARGS) (hfuel : (argTokens args).length < fuel) :
    ∃ ret' s', parseargs fuel argc ret s = .ok (ret', s') ∧ tokens s' = rest ∧
      ∀ rs ws, ret.map Word.text = wrap rs (.exec ws) →
        ret'.map Word.text = wrap (rs ++ args.flatMap (·.2)) (.exec (ws ++ args.map (·.1))) := by
  induction args generalizing fuel argc ret s with
  | nil =>
    obtain ⟨fuel, rfl⟩ : ∃ f, fuel = f + 1 := ⟨fuel - 1, by omega⟩
    have htokens : tokens s = rest := h
    obtain ⟨s', hparse, hs', -⟩ := parseargs_stop (by rw [htokens]; exact hrest) fuel argc ret
    exact ⟨ret, s', hparse, hs'.trans htokens, fun rs ws hret => by simpa using hret⟩
  | cons a args ih =>
    obtain ⟨fuel, rfl⟩ : ∃ f, fuel = f + 1 := ⟨fuel - 1, by omega⟩
    obtain ⟨w, qs⟩ := a
    rw [argTokens_cons, List.length_cons, List.length_append] at hfuel
    rw [List.length_cons] at hcount
    rw [argTokens_cons, List.cons_append, List.append_assoc] at h
    obtain ⟨a, r, hr, -, -, rfl, heq⟩ := parseargs_word h fuel argc ret
    have hlen := length_le_redirTokens qs
    dsimp only at hfuel
    obtain ⟨ret₁, s₁, hredirs, hs₁, hmap⟩ := parseredirs_complete (ret.addArg a) hr
      (no_redir_args hrest) (show qs.length < fuel by omega)
    obtain ⟨ret', s', hparse, hs', hmap'⟩ :=
      ih ret₁ hs₁ (show argc + 1 + args.length < MAXARGS by omega)
      (show (argTokens args).length < fuel by omega)
    refine ⟨ret', s', ?_, hs', wrap_args hmap hmap'⟩
    rw [heq, if_neg (by omega), hredirs]
    exact hparse

/-! ## Background commands -/

theorem parsebacks_more (h : tokens s = .ampersand :: ts) (fuel : Nat) (cmd : Cmd Word) :
    ∃ r, tokens r = ts ∧ r <:+ s ∧ parsebacks (fuel + 1) cmd s = parsebacks fuel (.back cmd) r := by
  have htok := gettoken_cons ((tokens_skip s).trans h)
  refine ⟨_, htok.rest, htok.suffix.trans (skip_suffix s), ?_⟩
  rw [parsebacks, peek_eq (by simp [symbols]), h]
  rfl

theorem parsebacks_stop (h : nextStarts [ampersand] (tokens s) = false) (fuel : Nat)
    (cmd : Cmd Word) :
    parsebacks (fuel + 1) cmd s = .ok (cmd, skip s) := by
  rw [parsebacks, peek_eq (by simp [symbols]), h]
  rfl

theorem backs_back (t : Cmd (List UInt8)) (k : Nat) : backs (.back t) k = .back (backs t k) := by
  induction k with
  | zero => rfl
  | succ k ih => rw [backs, ih, backs]

theorem parsebacks_meets (fuel : Nat) (cmd : Cmd Word) (s : Ptr) :
    Meets ((tokens s).length < fuel)
      (fun p => p.2 <:+ s ∧ (∀ P : Word → Prop, cmd.All P → p.1.All P) ∧
        ∃ k, tokens s = List.replicate k .ampersand ++ tokens p.2 ∧
          p.1.map Word.text = backs (cmd.map Word.text) k)
      (parsebacks fuel cmd s) := by
  induction fuel generalizing cmd s with
  | zero => exact fun h => absurd h (Nat.not_lt_zero _)
  | succ fuel ih =>
    rw [parsebacks]
    rcases peek_symbol ampersand .ampersand (by decide) s with hpeek | ⟨hpeek, hsuffix, hts⟩
    · simp only [hpeek, Bool.false_eq_true, if_false]
      exact ⟨skip_suffix s, fun P hcmd => hcmd, 0, by rw [tokens_skip]; rfl, rfl⟩
    · simp only [hpeek, if_true, hts, List.length_cons]
      refine (ih (.back cmd) _).mono (fun h => by omega) ?_
      rintro p ⟨hs', hall, k, htokens, hmap⟩
      refine ⟨hs'.trans hsuffix, fun P hcmd => hall P hcmd, k + 1, ?_, ?_⟩
      · rw [htokens, List.replicate_succ, List.cons_append]
      · rw [hmap, Cmd.map, backs_back, backs]

theorem parsebacks_complete (cmd : Cmd Word) {k : Nat}
    (h : tokens s = List.replicate k .ampersand ++ rest)
    (hrest : nextStarts [ampersand] rest = false) (hfuel : k < fuel) :
    ∃ cmd' s', parsebacks fuel cmd s = .ok (cmd', s') ∧ tokens s' = rest ∧
      cmd'.map Word.text = backs (cmd.map Word.text) k := by
  induction k generalizing fuel cmd s with
  | zero =>
    obtain ⟨fuel, rfl⟩ : ∃ f, fuel = f + 1 := ⟨fuel - 1, by omega⟩
    have htokens : tokens s = rest := h
    exact ⟨cmd, skip s, parsebacks_stop (by rw [htokens]; exact hrest) fuel cmd,
      (tokens_skip s).trans htokens, rfl⟩
  | succ k ih =>
    obtain ⟨fuel, rfl⟩ : ∃ f, fuel = f + 1 := ⟨fuel - 1, by omega⟩
    rw [List.replicate_succ, List.cons_append] at h
    obtain ⟨r, hr, -, heq⟩ := parsebacks_more h fuel cmd
    obtain ⟨cmd', s', hparse, hs', hmap⟩ := ih (.back cmd) hr (Nat.lt_of_succ_lt_succ hfuel)
    refine ⟨cmd', s', heq.trans hparse, hs', ?_⟩
    rw [hmap, Cmd.map, backs_back, backs]

end Loops

end Xv6.Sh
