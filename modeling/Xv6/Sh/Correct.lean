import Xv6.Sh.Loops
import Xv6.Ulib.Strings

/-!
# The shell parser is right

* `Parsed`, `parse_meets`: a parser that returns has found a derivation of the tokens that
  it has consumed, and the fuel lasts.
* `Follows`, `parse_complete`: a parser finds every derivation that is followed by a token
  that cannot continue it.
* `cstring_nulterminate`: what `nulterminate` leaves of the words.
* `parsecmd_iff`: all of it for whole lines.
* `Derives.words_mem`, `tokens_terminated_in_place`: the strings of a tree are tokens of the
  line as it was.
-/

namespace Xv6.Sh

open Xv6.Lib.Run Xv6.Ulib

variable {nt : Nonterminal} {t : Cmd (List UInt8)} {mem : Nat → UInt8}

/-- The parser of a nonterminal. -/
def parse : Nonterminal → Nat → Ptr → Except Failure (Cmd Word × Ptr)
  | .line => parseline
  | .pipe => parsepipe
  | .exec => parseexec

/-! ## Soundness and termination -/

/-- The parser has consumed the tokens of a derivation. -/
structure Parsed (nt : Nonterminal) (s : Ptr) (cmd : Cmd Word) (s' : Ptr) : Prop where
  suffix : s' <:+ s
  all : cmd.All (Good s)
  derives : ∃ us, tokens s = us ++ tokens s' ∧ Derives nt us (cmd.map Word.text)

/-- A parser of the nonterminal `nt` at `s`, whose fuel lasts if `F`. -/
def Parses (nt : Nonterminal) (F : Prop) (s : Ptr) : Except Failure (Cmd Word × Ptr) → Prop :=
  Meets F fun p => Parsed nt s p.1 p.2

/-- The fuel that a parser needs for `n` tokens. -/
def Nonterminal.need (n : Nat) : Nonterminal → Nat
  | .line => 4 * n + 4
  | .pipe => 4 * n + 3
  | .exec => 4 * n + 2

section Soundness

variable {fuel : Nat} {s s' : Ptr} {cmd : Cmd Word}

theorem parseline_meets
    (hpipe : ∀ s, Parses .pipe (4 * (tokens s).length + 3 ≤ fuel) s (parsepipe fuel s))
    (hline : ∀ s, Parses .line (4 * (tokens s).length + 4 ≤ fuel) s (parseline fuel s)) (s : Ptr) :
    Parses .line (4 * (tokens s).length + 4 ≤ fuel + 1) s (parseline (fuel + 1) s) := by
  rw [parseline]
  refine (hpipe s).bind (fun h => by omega) ?_
  rintro ⟨cmd₁, s₁⟩ hp
  obtain ⟨us, htokens₁, hderives⟩ := hp.derives
  refine (parsebacks_meets fuel cmd₁ s₁).bind (fun h => ?_) ?_
  · rw [htokens₁, List.length_append] at h
    dsimp only at h
    omega
  rintro ⟨cmd₂, s₂⟩ ⟨hs₂, hall₂, k, htokens₂, hmap₂⟩
  dsimp only at hp htokens₁ hs₂ hall₂ htokens₂ hmap₂ ⊢
  have hs₂' : s₂ <:+ s := hs₂.trans hp.suffix
  rcases peek_symbol semicolon .semicolon (by decide) s₂ with hpeek | ⟨hpeek, hsuffix, hts⟩
  · simp only [hpeek, Bool.false_eq_true, if_false]
    refine ⟨(skip_suffix s₂).trans hs₂', hall₂ _ hp.all, us ++ List.replicate k .ampersand, ?_, ?_⟩
    · rw [htokens₁, htokens₂, tokens_skip, List.append_assoc]
    · rw [hmap₂]
      exact .line k hderives
  · simp only [hpeek, if_true]
    refine (hline _).bind (fun h => ?_) ?_
    · simp only [htokens₁, htokens₂, hts, List.length_append, List.length_cons] at h
      omega
    rintro ⟨right, s₃⟩ hr
    obtain ⟨vs, htokens₃, hderives₃⟩ := hr.derives
    refine ⟨hr.suffix.trans (hsuffix.trans hs₂'), ⟨hall₂ _ hp.all, ?_⟩,
      us ++ List.replicate k .ampersand ++ .semicolon :: vs, ?_, ?_⟩
    · exact hr.all.mono fun w hw => hw.mono (hsuffix.trans hs₂')
    · rw [htokens₁, htokens₂, hts, htokens₃]
      simp only [List.append_assoc, List.cons_append]
    · rw [Cmd.map, hmap₂]
      exact .list k hderives hderives₃

theorem parsepipe_meets
    (hexec : ∀ s, Parses .exec (4 * (tokens s).length + 2 ≤ fuel) s (parseexec fuel s))
    (hpipe : ∀ s, Parses .pipe (4 * (tokens s).length + 3 ≤ fuel) s (parsepipe fuel s)) (s : Ptr) :
    Parses .pipe (4 * (tokens s).length + 3 ≤ fuel + 1) s (parsepipe (fuel + 1) s) := by
  rw [parsepipe]
  refine (hexec s).bind (fun h => by omega) ?_
  rintro ⟨cmd₁, s₁⟩ he
  obtain ⟨us, htokens₁, hderives⟩ := he.derives
  dsimp only at he htokens₁ ⊢
  rcases peek_symbol bar .bar (by decide) s₁ with hpeek | ⟨hpeek, hsuffix, hts⟩
  · simp only [hpeek, Bool.false_eq_true, if_false]
    refine ⟨(skip_suffix s₁).trans he.suffix, he.all, us, ?_, .single hderives⟩
    rw [htokens₁, tokens_skip]
  · simp only [hpeek, if_true]
    refine (hpipe _).bind (fun h => ?_) ?_
    · simp only [htokens₁, hts, List.length_append, List.length_cons] at h
      omega
    rintro ⟨right, s₃⟩ hr
    obtain ⟨vs, htokens₃, hderives₃⟩ := hr.derives
    refine ⟨hr.suffix.trans (hsuffix.trans he.suffix), ⟨he.all, ?_⟩, _, ?_,
      .pipe hderives hderives₃⟩
    · exact hr.all.mono fun w hw => hw.mono (hsuffix.trans he.suffix)
    · rw [htokens₁, hts, htokens₃]
      simp only [List.append_assoc, List.cons_append]

theorem parseblock_meets
    (hline : ∀ s, Parses .line (4 * (tokens s).length + 4 ≤ fuel) s (parseline fuel s)) (s : Ptr) :
    Parses .exec (4 * (tokens s).length + 1 ≤ fuel + 1) s (parseblock (fuel + 1) s) := by
  rw [parseblock]
  rcases peek_symbol lparen .lparen (by decide) s with hpeek | ⟨hpeek, hsuffix, hts⟩
  · simp only [hpeek]
    exact fun _ => nofun
  simp only [hpeek]
  refine (hline _).bind (fun h => ?_) ?_
  · rw [hts, List.length_cons] at h
    omega
  rintro ⟨cmd₁, s₁⟩ hl
  obtain ⟨us, htokens₁, hderives⟩ := hl.derives
  dsimp only at hl htokens₁ ⊢
  rcases peek_symbol rparen .rparen (by decide) s₁ with hpeek₁ | ⟨hpeek₁, hsuffix₁, hts₁⟩
  · simp only [hpeek₁]
    exact fun _ => nofun
  simp only [hpeek₁]
  have hs₁ : s₁ <:+ s := hl.suffix.trans hsuffix
  refine (parseredirs_meets fuel cmd₁ _).mono (fun h => ?_) ?_
  · simp only [hts, htokens₁, hts₁, List.length_append, List.length_cons] at h
    omega
  rintro ⟨cmd', s'⟩ ⟨rs, hrs⟩
  refine ⟨hrs.suffix.trans (hsuffix₁.trans hs₁), ?_,
    .lparen :: us ++ .rparen :: redirTokens rs, ?_, ?_⟩
  · exact hrs.all _ (hl.all.mono fun w hw => hw.mono hsuffix) fun w hw =>
      hw.mono (hsuffix₁.trans hs₁)
  · rw [hts, htokens₁, hts₁, hrs.tokens]
    simp only [List.append_assoc, List.cons_append]
  · rw [hrs.map]
    exact .block hderives rs

theorem parseexec_meets
    (hblock : ∀ s, Parses .exec (4 * (tokens s).length + 1 ≤ fuel) s (parseblock fuel s))
    (s : Ptr) :
    Parses .exec (4 * (tokens s).length + 2 ≤ fuel + 1) s (parseexec (fuel + 1) s) := by
  rw [parseexec, ← tokens_skip]
  rcases peek_symbol lparen .lparen (by decide) s with hpeek | ⟨hpeek, -, -⟩
  · simp only [hpeek]
    refine (parseredirs_meets fuel (.exec []) (skip s)).bind (fun h => by omega) ?_
    rintro ⟨ret, s₁⟩ ⟨rs, hrs⟩
    have hs₁ : s₁ <:+ s := hrs.suffix.trans (skip_suffix s)
    refine (parseargs_meets fuel ret s₁ (by decide)).mono (fun h => ?_) ?_
    · rw [hrs.tokens, List.length_append] at h
      dsimp only at h
      omega
    rintro ⟨ret', s'⟩ ⟨args, hcount, hargs⟩
    have hmap := hargs.map rs [] hrs.map
    refine ⟨hargs.suffix.trans hs₁, ?_, redirTokens rs ++ argTokens args, ?_, ?_⟩
    · refine hargs.all _ (hrs.all _ (by rintro _ ⟨⟩) fun w hw => ?_) fun w hw => ?_
      · exact hw.mono (skip_suffix s)
      · exact hw.mono hs₁
    · rw [← tokens_skip, hrs.tokens, hargs.tokens, List.append_assoc]
    · rw [hmap, List.nil_append]
      exact .words rs args (by omega)
  · simp only [hpeek]
    refine (hblock (skip s)).mono (fun h => by omega) fun p hb => ?_
    obtain ⟨us, htokens, hderives⟩ := hb.derives
    refine ⟨hb.suffix.trans (skip_suffix s), ?_, us, ?_, hderives⟩
    · exact hb.all.mono fun w hw => hw.mono (skip_suffix s)
    · rw [← tokens_skip, htokens]

/-- By induction on the fuel, for all parsers together. -/
theorem parse_meets (fuel : Nat) :
    (∀ (nt : Nonterminal) s, Parses nt (nt.need (tokens s).length ≤ fuel) s (parse nt fuel s)) ∧
      ∀ s, Parses .exec (4 * (tokens s).length + 1 ≤ fuel) s (parseblock fuel s) := by
  induction fuel with
  | zero =>
    refine ⟨fun nt s => ?_, fun s => ?_⟩
    · cases nt with
      | line => rw [parse, parseline]; exact fun h => absurd h (Nat.not_succ_le_zero _)
      | pipe => rw [parse, parsepipe]; exact fun h => absurd h (Nat.not_succ_le_zero _)
      | exec => rw [parse, parseexec]; exact fun h => absurd h (Nat.not_succ_le_zero _)
    · rw [parseblock]
      exact fun h => absurd h (Nat.not_succ_le_zero _)
  | succ fuel ih =>
    obtain ⟨ih, ihblock⟩ := ih
    refine ⟨fun nt s => ?_, parseblock_meets (ih .line)⟩
    cases nt with
    | line => exact parseline_meets (ih .pipe) (ih .line) s
    | pipe => exact parsepipe_meets (ih .exec) (ih .pipe) s
    | exec => exact parseexec_meets ihblock s

theorem parse_sound (h : parse nt fuel s = .ok (cmd, s')) : Parsed nt s cmd s' := by
  have hmeets := (parse_meets fuel).1 nt s
  rw [h] at hmeets
  exact hmeets

end Soundness

/-! ## Completeness -/

/-- The characters that may follow a nonterminal. -/
def Nonterminal.ends : Nonterminal → List UInt8
  | .line => [rparen]
  | .pipe => [rparen, ampersand, semicolon]
  | .exec => argEnds

/-- The tokens do not continue a derivation from the nonterminal. -/
def Follows (nt : Nonterminal) (ts : List Token) : Prop := ts = [] ∨ nextStarts nt.ends ts = true

section Completeness

variable {fuel : Nat} {s s' : Ptr} {cmd cmd' : Cmd Word} {ts : List Token} {A B : List UInt8}

theorem nextStarts_mono (h : nextStarts A ts = true) (hAB : ∀ c ∈ A, c ∈ B) :
    nextStarts B ts = true := by
  cases ts with
  | nil => cases h
  | cons t ts =>
    cases t with
    | word w => cases h
    | _ => exact decide_eq_true (hAB _ (of_decide_eq_true h))

theorem nextStarts_disjoint (h : nextStarts A ts = true) (hAB : ∀ c ∈ A, c ∉ B) :
    nextStarts B ts = false := by
  cases ts with
  | nil => cases h
  | cons t ts =>
    cases t with
    | word w => rfl
    | _ => exact decide_eq_false (hAB _ (of_decide_eq_true h))

theorem Follows.mono {nt' : Nonterminal} (h : Follows nt ts) (hends : ∀ c ∈ nt.ends, c ∈ nt'.ends) :
    Follows nt' ts := h.imp_right fun h => nextStarts_mono h hends

theorem Follows.disjoint (h : Follows nt ts) (hends : ∀ c ∈ nt.ends, c ∉ A) :
    nextStarts A ts = false := by
  rcases h with rfl | h
  · rfl
  · exact nextStarts_disjoint h hends

theorem exec_ends_lparen : ∀ c ∈ Nonterminal.exec.ends, c ∉ [lparen] := by
  simp [Nonterminal.ends, argEnds, bar, rparen, ampersand, semicolon, lparen]

theorem line_ends_pipe : ∀ c ∈ Nonterminal.line.ends, c ∈ Nonterminal.pipe.ends := by
  simp [Nonterminal.ends]

theorem line_ends_ampersand : ∀ c ∈ Nonterminal.line.ends, c ∉ [ampersand] := by
  simp [Nonterminal.ends, rparen, ampersand]

theorem line_ends_semicolon : ∀ c ∈ Nonterminal.line.ends, c ∉ [semicolon] := by
  simp [Nonterminal.ends, rparen, semicolon]

theorem pipe_ends_exec : ∀ c ∈ Nonterminal.pipe.ends, c ∈ Nonterminal.exec.ends := by
  simp [Nonterminal.ends, argEnds]

theorem pipe_ends_bar : ∀ c ∈ Nonterminal.pipe.ends, c ∉ [bar] := by
  simp [Nonterminal.ends, rparen, ampersand, semicolon, bar]

/-- `&` and what may follow a line. -/
theorem follows_ampersands (k : Nat) (h : Follows .pipe ts) :
    Follows .pipe (List.replicate k .ampersand ++ ts) := by
  cases k with
  | zero => exact h
  | succ k => exact .inr (by rw [List.replicate_succ]; rfl)

/-- Redirections and arguments do not start with a parenthesis. -/
theorem no_lparen (rs : List Redir) (args : List Arg) (h : Follows .exec ts) :
    nextStarts [lparen] (redirTokens rs ++ argTokens args ++ ts) = false := by
  cases rs with
  | nil =>
    cases args with
    | nil => exact h.disjoint exec_ends_lparen
    | cons a args =>
      rw [argTokens_cons]
      rfl
  | cons r rs =>
    obtain ⟨op, w⟩ := r
    rw [redirTokens_cons]
    cases op <;> rfl

theorem ok_bind {α β : Type} (a : α) (f : α → Except Failure β) : (Except.ok a >>= f) = f a := rfl

theorem parseline_complete {us : List Token} {k : Nat}
    (hpipe : ∀ {s rest}, tokens s = us ++ rest → Follows .pipe rest →
      ∃ cmd s', parsepipe fuel s = .ok (cmd, s') ∧ tokens s' = rest ∧ cmd.map Word.text = t)
    (h : tokens s = us ++ (List.replicate k .ampersand ++ ts)) (hts : Follows .pipe ts)
    (hamp : nextStarts [ampersand] ts = false) (hk : k < fuel) :
    ∃ cmd s', tokens s' = ts ∧ cmd.map Word.text = backs t k ∧
      parseline (fuel + 1) s =
        if nextStarts [semicolon] ts then
          parseline fuel (gettoken (skip s')).ps >>= fun p => pure (.list cmd p.1, p.2)
        else pure (cmd, skip s') := by
  obtain ⟨cmd₁, s₁, h₁, hs₁, rfl⟩ := hpipe h (follows_ampersands k hts)
  obtain ⟨cmd₂, s₂, h₂, hs₂, hmap⟩ := parsebacks_complete cmd₁ hs₁ hamp hk
  refine ⟨cmd₂, s₂, hs₂, hmap, ?_⟩
  rw [parseline, h₁, ok_bind]
  dsimp only
  rw [h₂, ok_bind]
  dsimp only
  rw [peek_eq (by simp [symbols]), hs₂]

/-- By induction on the derivation. -/
theorem parse_complete {us : List Token} (hd : Derives nt us t)
    {s : Ptr} {rest : List Token} {fuel : Nat} (h : tokens s = us ++ rest) (hrest : Follows nt rest)
    (hfuel : nt.need us.length ≤ fuel) :
    ∃ cmd s', parse nt fuel s = .ok (cmd, s') ∧ tokens s' = rest ∧ cmd.map Word.text = t := by
  induction hd generalizing s rest fuel with
  | line k left ih =>
    rename_i us t
    rw [Nonterminal.need, List.length_append, List.length_replicate] at hfuel
    obtain ⟨fuel, rfl⟩ : ∃ f, fuel = f + 1 := ⟨fuel - 1, by omega⟩
    rw [List.append_assoc] at h
    obtain ⟨cmd, s', hs', hmap, hparse⟩ := parseline_complete
      (fun h hf => ih h hf (show 4 * us.length + 3 ≤ fuel by omega)) h (hrest.mono line_ends_pipe)
      (hrest.disjoint line_ends_ampersand) (by omega)
    rw [hrest.disjoint line_ends_semicolon, if_neg Bool.false_ne_true] at hparse
    exact ⟨cmd, skip s', hparse, (tokens_skip s').trans hs', hmap⟩
  | list k left right ihl ihr =>
    rename_i us vs t u
    rw [Nonterminal.need, List.length_append, List.length_append, List.length_replicate,
      List.length_cons] at hfuel
    obtain ⟨fuel, rfl⟩ : ∃ f, fuel = f + 1 := ⟨fuel - 1, by omega⟩
    rw [List.append_assoc, List.append_assoc] at h
    obtain ⟨cmd, s', hs', hmap, hparse⟩ := parseline_complete
      (fun h hf => ihl h hf (show 4 * us.length + 3 ≤ fuel by omega)) h (.inr rfl) rfl (by omega)
    have hr := (gettoken_cons ((tokens_skip s').trans hs')).rest
    obtain ⟨right, s'', hright, hs'', hmap'⟩ :=
      ihr hr hrest (show 4 * vs.length + 4 ≤ fuel by omega)
    change parseline fuel (gettoken (skip s')).ps = .ok (right, s'') at hright
    refine ⟨.list cmd right, s'', ?_, hs'', by rw [Cmd.map, hmap, hmap']⟩
    rw [parse, hparse, hright]
    rfl
  | single left ih =>
    rename_i us t
    rw [Nonterminal.need] at hfuel
    obtain ⟨fuel, rfl⟩ : ∃ f, fuel = f + 1 := ⟨fuel - 1, by omega⟩
    obtain ⟨cmd, s', hexec, hs', hmap⟩ := ih h (hrest.mono pipe_ends_exec)
      (show 4 * us.length + 2 ≤ fuel by omega)
    refine ⟨cmd, skip s', ?_, (tokens_skip s').trans hs', hmap⟩
    change parseexec fuel s = .ok (cmd, s') at hexec
    rw [parse, parsepipe, hexec, ok_bind]
    dsimp only
    rw [peek_eq (by simp [symbols]), hs', hrest.disjoint pipe_ends_bar]
    rfl
  | pipe left right ihl ihr =>
    rename_i us vs t u
    rw [Nonterminal.need, List.length_append, List.length_cons] at hfuel
    obtain ⟨fuel, rfl⟩ : ∃ f, fuel = f + 1 := ⟨fuel - 1, by omega⟩
    rw [List.append_assoc] at h
    obtain ⟨cmd, s', hexec, hs', hmap⟩ := ihl h (.inr rfl) (show 4 * us.length + 2 ≤ fuel by omega)
    have hr := (gettoken_cons ((tokens_skip s').trans hs')).rest
    obtain ⟨right, s'', hright, hs'', hmap'⟩ :=
      ihr hr hrest (show 4 * vs.length + 3 ≤ fuel by omega)
    change parseexec fuel s = .ok (cmd, s') at hexec
    change parsepipe fuel (gettoken (skip s')).ps = .ok (right, s'') at hright
    refine ⟨.pipe cmd right, s'', ?_, hs'', by rw [Cmd.map, hmap, hmap']⟩
    rw [parse, parsepipe, hexec, ok_bind]
    dsimp only
    rw [peek_eq (by simp [symbols]), hs']
    dsimp only
    rw [if_pos (by rfl), hright]
    rfl
  | block inner rs ih =>
    rename_i us t
    rw [Nonterminal.need, List.length_append, List.length_cons, List.length_cons] at hfuel
    obtain ⟨fuel, rfl⟩ : ∃ f, fuel = f + 2 := ⟨fuel - 2, by omega⟩
    have hlen := length_le_redirTokens rs
    rw [List.append_assoc, List.cons_append] at h
    have hr := (gettoken_cons ((tokens_skip (skip s)).trans ((tokens_skip s).trans h))).rest
    obtain ⟨cmd, s', hline, hs', hmap⟩ := ih hr (.inr rfl) (show 4 * us.length + 4 ≤ fuel by omega)
    have hr₁ := (gettoken_cons ((tokens_skip s').trans hs')).rest
    obtain ⟨cmd', s'', hredirs, hs'', hmap'⟩ :=
      parseredirs_complete cmd hr₁ (EndsArgs.no_redir hrest)
      (show rs.length < fuel by omega)
    change parseline fuel (gettoken (skip (skip s))).ps = .ok (cmd, s') at hline
    refine ⟨cmd', s'', ?_, hs'', by rw [hmap', hmap]⟩
    rw [parse, parseexec, peek_eq (by simp [symbols]), h]
    show parseblock (fuel + 1) (skip s) = _
    rw [parseblock, peek_eq (by simp [symbols]), (tokens_skip s).trans h]
    dsimp only
    rw [if_neg (by exact Bool.false_ne_true), hline, ok_bind]
    dsimp only
    rw [peek_eq (by simp [symbols]), hs']
    exact hredirs
  | words rs args hargs =>
    rw [Nonterminal.need, List.length_append] at hfuel
    obtain ⟨fuel, rfl⟩ : ∃ f, fuel = f + 1 := ⟨fuel - 1, by omega⟩
    have hlen := length_le_redirTokens rs
    have hopen := no_lparen rs args hrest
    rw [← h] at hopen
    rw [List.append_assoc] at h
    obtain ⟨ret, s₁, hredirs, hs₁, hmap⟩ :=
      parseredirs_complete (.exec []) ((tokens_skip s).trans h)
      (no_redir_args hrest) (show rs.length < fuel by omega)
    obtain ⟨ret', s', hparse, hs', hmap'⟩ := parseargs_complete ret hs₁ hrest
      (show 0 + args.length < MAXARGS by omega) (show (argTokens args).length < fuel by omega)
    refine ⟨ret', s', ?_, hs', hmap' rs [] hmap⟩
    rw [parse, parseexec, peek_eq (by simp [symbols]), hopen]
    dsimp only
    rw [if_neg Bool.false_ne_true, hredirs, ok_bind]
    exact hparse

end Completeness

theorem length_tokens_le (s : Ptr) : (tokens s).length ≤ s.length := by
  fun_induction tokens s with
  | case1 => exact Nat.le_refl _
  | case2 c s hc ih => exact Nat.le_succ_of_le ih
  | case3 c s hc happend ih =>
    rw [List.length_cons, List.length_cons]
    rw [List.length_tail] at ih
    omega
  | case4 c s hc happend t ht ih =>
    rw [List.length_cons, List.length_cons]
    omega
  | case5 c s hc happend ht ih =>
    have hle := (List.dropWhile_sublist inWord (l := s)).length_le
    rw [List.length_cons, List.length_cons]
    omega

/-! ## The strings -/

section Strings

variable {line : List UInt8} {cmd : Cmd Word} {w : Word}

theorem map_congr {V : Type} {f g : Word → V} (h : cmd.All fun w => f w = g w) :
    cmd.map f = cmd.map g := by
  induction cmd with
  | exec argv => rw [Cmd.map, Cmd.map, List.map_congr_left h]
  | redir cmd file mode fd ih => rw [Cmd.map, Cmd.map, ih h.1, h.2]
  | pipe left right ihl ihr => rw [Cmd.map, Cmd.map, ihl h.1, ihr h.2]
  | list left right ihl ihr => rw [Cmd.map, Cmd.map, ihl h.1, ihr h.2]
  | back cmd ih => rw [Cmd.map, Cmd.map, ih h]

/-- The words of a command. -/
def Cmd.words : Cmd Word → List Word
  | .exec argv => argv
  | .redir cmd file _ _ => cmd.words ++ [file]
  | .pipe left right => left.words ++ right.words
  | .list left right => left.words ++ right.words
  | .back cmd => cmd.words

theorem all_iff_words {P : Word → Prop} : cmd.All P ↔ ∀ w ∈ cmd.words, P w := by
  induction cmd with
  | exec argv => exact Iff.rfl
  | redir cmd file mode fd ih => simp [Cmd.All, Cmd.words, ih, or_imp, forall_and]
  | pipe left right ihl ihr => simp [Cmd.All, Cmd.words, ihl, ihr, or_imp, forall_and]
  | list left right ihl ihr => simp [Cmd.All, Cmd.words, ihl, ihr, or_imp, forall_and]
  | back cmd ih => exact ih

/-- `nulterminate` ends the words one after the other. -/
theorem nulterminate_eq (len : Nat) (cmd : Cmd Word) (mem : Nat → UInt8) :
    nulterminate len cmd mem = cmd.words.foldl (terminate len) mem := by
  induction cmd generalizing mem with
  | exec argv => rfl
  | redir cmd file mode fd ih => rw [nulterminate, ih, Cmd.words, List.foldl_append]; rfl
  | pipe left right ihl ihr => rw [nulterminate, ihl, ihr, Cmd.words, List.foldl_append]
  | list left right ihl ihr => rw [nulterminate, ihl, ihr, Cmd.words, List.foldl_append]
  | back cmd ih => exact ih mem

theorem foldl_terminate (len a : Nat) (ws : List Word) (mem : Nat → UInt8) :
    ws.foldl (terminate len) mem a = if a ∈ ws.map (fun w => addr len w.2) then 0 else mem a := by
  induction ws generalizing mem with
  | nil => rfl
  | cons w ws ih =>
    rw [List.foldl_cons, ih, List.map_cons]
    by_cases hin : a ∈ ws.map fun w => addr len w.2
    · rw [if_pos hin, if_pos (List.mem_cons_of_mem _ hin)]
    · rw [if_neg hin, terminate, Function.update_apply]
      by_cases ha : a = addr len w.2
      · rw [if_pos ha, if_pos (by rw [ha]; exact List.mem_cons_self ..)]
      · rw [if_neg ha, if_neg]
        rw [List.mem_cons, not_or]
        exact ⟨ha, hin⟩

/-- A character of a word is not where another word ends. -/
theorem not_end_of_inWord {a : Nat} {c : UInt8} (h : Good line w) (ha : (line)[a]? = some c)
    (hc : inWord c = true) : addr line.length w.2 ≠ a := by
  obtain ⟨before, text, hline, -, -, hend⟩ := h
  intro heq
  have haddr : addr line.length w.2 = (before ++ text).length := by
    rw [addr, hline, List.length_append, Nat.add_sub_cancel]
  rw [haddr] at heq
  rw [hline, ← heq, List.getElem?_append_right (Nat.le_refl _), Nat.sub_self,
    ← List.head?_eq_getElem?] at ha
  rw [hend c ha] at hc
  cases hc

/-- After `nulterminate` every word of the command is a string. -/
theorem cstring_nulterminate (hline : 0 ∉ line) (h : cmd.All (Good line)) (hw : w ∈ cmd.words) :
    cstring (nulterminate line.length cmd fun a => line.getD a 0) line.length
      (addr line.length w.1) =
      w.text := by
  have hall := all_iff_words.mp h
  obtain ⟨before, text, heq, hw₁, htext, -⟩ := hall w hw
  have hlen : line.length = before.length + text.length + w.2.length := by
    rw [heq, List.length_append, List.length_append]
  have hstart : addr line.length w.1 = before.length := by
    rw [addr, hlen, hw₁, List.length_append]
    omega
  have hstop : addr line.length w.2 = before.length + text.length := by
    rw [addr, hlen]
    omega
  have hword : w.text = text := by
    obtain ⟨q, eq⟩ := w
    change q = text ++ eq at hw₁
    rw [hw₁]
    exact text_mk text eq
  rw [hstart, hword]
  apply cstring_eq (by omega)
  · rw [holds_append, holds_cons]
    refine ⟨fun i hi => ?_, ?_, holds_nil _ _⟩
    · have hget : (line)[before.length + i]? = some (text.get ⟨i, hi⟩) := by
        rw [heq, List.append_assoc, List.getElem?_append_right (Nat.le_add_right _ _),
          Nat.add_sub_cancel_left, List.getElem?_append_left hi, List.get_eq_getElem,
          List.getElem?_eq_getElem hi]
      rw [nulterminate_eq, foldl_terminate, if_neg, List.getD, hget, Option.getD_some]
      intro hin
      obtain ⟨x, hx, hend⟩ := List.mem_map.mp hin
      exact not_end_of_inWord (hall x hx) hget (htext _ (List.get_mem ..)) hend
    · rw [nulterminate_eq, foldl_terminate, if_pos]
      exact List.mem_map.mpr ⟨w, hw, hstop⟩
  · intro hzero
    apply hline
    rw [heq]
    exact List.mem_append_left _ (List.mem_append_right _ hzero)

end Strings

/-! ## Whole lines -/

/-- The command with the strings that its words have become. -/
def Cmd.strings (len : Nat) (mem : Nat → UInt8) (cmd : Cmd Word) : Cmd (List UInt8) :=
  cmd.map fun w => cstring mem len (addr len w.1)

/-- The parser of a line, without `nulterminate`. -/
theorem parsecmd_eq_ok {line : List UInt8} {cmd : Cmd Word}  :
    parsecmd line = .ok (cmd, mem) ↔
      ∃ s, parseline (enough line.length) line = .ok (cmd, s) ∧ tokens s = [] ∧
        mem = nulterminate line.length cmd fun a => line.getD a 0 := by
  constructor
  · intro h
    rw [parsecmd] at h
    obtain ⟨⟨cmd₁, s⟩, hparse, h⟩ := bind_eq_ok h
    dsimp only at h
    rw [peek_snd] at h
    split at h
    · cases h
    · next hskip =>
      cases h
      exact ⟨s, hparse, tokens_eq_nil_iff.mpr (not_not.mp hskip), rfl⟩
  · rintro ⟨s, hparse, hs, rfl⟩
    rw [parsecmd, hparse, ok_bind]
    dsimp only
    rw [peek_snd, if_neg (not_not.mpr (tokens_eq_nil_iff.mp hs))]
    rfl

theorem strings_eq {line : List UInt8} {cmd : Cmd Word} (hline : 0 ∉ line)
    (h : cmd.All (Good line)) :
    cmd.strings line.length (nulterminate line.length cmd fun a => line.getD a 0) =
      cmd.map Word.text :=
  map_congr (all_iff_words.mpr fun _ hw => cstring_nulterminate hline h hw)

/-- The tree that `parsecmd` returns is that of a derivation. -/
theorem parsecmd_sound {line : List UInt8} {cmd : Cmd Word} (hline : 0 ∉ line)
    (h : parsecmd line = .ok (cmd, mem)) :
    cmd.All (Good line) ∧ cmd.strings line.length mem = cmd.map Word.text ∧
      Derives .line (tokens line) (cmd.map Word.text) := by
  obtain ⟨s, hparse, hs, rfl⟩ := parsecmd_eq_ok.mp h
  change parse .line (enough line.length) line = .ok (cmd, s) at hparse
  have hparsed := parse_sound hparse
  obtain ⟨us, htokens, hderives⟩ := hparsed.derives
  rw [hs, List.append_nil] at htokens
  refine ⟨hparsed.all, strings_eq hline hparsed.all, ?_⟩
  rw [htokens]
  exact hderives

theorem need_le_enough (line : List UInt8) :
    Nonterminal.need (tokens line).length .line ≤ enough line.length := by
  have hle := length_tokens_le line
  rw [Nonterminal.need, enough]
  omega

/-- `parsecmd` returns the tree of every derivation. -/
theorem parsecmd_complete {line : List UInt8} (hline : 0 ∉ line)
    (h : Derives .line (tokens line) t) :
    ∃ cmd mem, parsecmd line = .ok (cmd, mem) ∧ cmd.strings line.length mem = t := by
  obtain ⟨cmd, s, hparse, hs, hmap⟩ :=
    parse_complete h (List.append_nil _).symm (.inl rfl) (need_le_enough line)
  have hparsed := parse_sound hparse
  refine ⟨cmd, _, parsecmd_eq_ok.mpr ⟨s, hparse, hs, rfl⟩, ?_⟩
  rw [strings_eq hline hparsed.all, hmap]

/-- A line of words and redirections only. -/
theorem derives_simple {rs : List Redir} {args : List Arg} (hargs : args.length < MAXARGS) :
    Derives .line (redirTokens rs ++ argTokens args)
      (wrap (rs ++ args.flatMap (·.2)) (.exec (args.map (·.1)))) := by
  have hline := Derives.line 0 (.single (.words rs args hargs))
  rwa [List.replicate_zero, List.append_nil] at hline

/-- Parsing ends for every line, and it returns a tree exactly when the tokens of the line
derive from the grammar; the tree is the one of the derivation. -/
theorem parsecmd_iff (line : List UInt8) (hline : 0 ∉ line) :
    parsecmd line ≠ .error .outOfFuel ∧
    ∀ t, (∃ cmd mem, parsecmd line = .ok (cmd, mem) ∧ cmd.strings line.length mem = t) ↔
      Derives .line (tokens line) t := by
  refine ⟨fun h => ?_, fun t => ⟨?_, parsecmd_complete hline⟩⟩
  · rw [parsecmd] at h
    rcases bind_eq_error h with h | ⟨⟨cmd, s⟩, -, h⟩
    · have hmeets := (parse_meets (enough line.length)).1 .line line
      change parse .line (enough line.length) line = .error .outOfFuel at h
      rw [h] at hmeets
      exact hmeets (need_le_enough line) rfl
    · dsimp only at h
      split at h
      · cases h
      · cases h
  · rintro ⟨cmd, mem, h, rfl⟩
    obtain ⟨-, hstrings, hderives⟩ := parsecmd_sound hline h
    rw [hstrings]
    exact hderives

/-- `(a;b&)>c|d<e` -/
def blockLine : List UInt8 := [40, 97, 59, 98, 38, 41, 62, 99, 124, 100, 60, 101]

def blockTree : Cmd (List UInt8) :=
  .pipe (.redir (.list (.exec [[97]]) (.back (.exec [[98]]))) [99]
    (O_WRONLY ||| O_CREATE ||| O_TRUNC) 1)
    (.redir (.exec [[100]]) [101] O_RDONLY 0)

theorem parsecmd_iff_blockLine : ∃ cmd mem, parsecmd blockLine = .ok (cmd, mem) ∧
    cmd.strings 12 mem = blockTree ∧ Derives .line (tokens blockLine) blockTree := by
  have hcheck : (parsecmd blockLine).toOption.map (fun p => p.1.strings 12 p.2) =
      some blockTree := by
    decide +kernel
  cases hparse : parsecmd blockLine with
  | error e =>
    rw [hparse] at hcheck
    cases hcheck
  | ok p =>
    rw [hparse] at hcheck
    have htree := Option.some.inj hcheck
    exact ⟨p.1, p.2, rfl, htree,
      ((parsecmd_iff blockLine (by decide)).2 blockTree).mp ⟨p.1, p.2, hparse, htree⟩⟩

/-! ## Where the strings come from -/

section Origin

variable {P : List UInt8 → Prop}

theorem all_map {W V : Type} {f : W → V} {P : V → Prop} {cmd : Cmd W} :
    (cmd.map f).All P ↔ cmd.All fun w => P (f w) := by
  induction cmd with
  | exec argv => simp [Cmd.map, Cmd.All]
  | redir cmd file mode fd ih => simp only [Cmd.map, Cmd.All, ih]
  | pipe left right ihl ihr => simp only [Cmd.map, Cmd.All, ihl, ihr]
  | list left right ihl ihr => simp only [Cmd.map, Cmd.All, ihl, ihr]
  | back cmd ih => exact ih

theorem all_node {r : Redir} (ht : t.All P) (hr : P r.2) :
    (Redir.node t r).All P := by
  obtain ⟨op, file⟩ := r
  cases op <;> exact ⟨ht, hr⟩

theorem all_wrap (rs : List Redir) : ∀ {t : Cmd (List UInt8)}, t.All P → (∀ r ∈ rs, P r.2) →
    (wrap rs t).All P := by
  induction rs with
  | nil =>
    intro t ht _
    exact ht
  | cons r rs ih =>
    intro t ht hrs
    apply ih
    · exact all_node ht (hrs r (List.mem_cons_self ..))
    · intro q hq
      exact hrs q (List.mem_cons_of_mem _ hq)

theorem all_backs (ht : t.All P) (k : Nat) : (backs t k).All P := by
  induction k with
  | zero => exact ht
  | succ k ih => exact ih

theorem word_mem_redirTokens {rs : List Redir} {r : Redir} (h : r ∈ rs) :
    Token.word r.2 ∈ redirTokens rs :=
  List.mem_flatMap.mpr ⟨r, h, by simp⟩

/-- The words of a tree are words of the tokens that it derives from. -/
theorem Derives.words_mem {ts : List Token}
    (h : Derives nt ts t) : t.All fun w => Token.word w ∈ ts := by
  induction h with
  | line k _ ih =>
    apply all_backs
    exact ih.mono fun w hw => List.mem_append_left _ hw
  | list k _ _ ihl ihr =>
    constructor
    · apply all_backs
      exact ihl.mono fun w hw => List.mem_append_left _ (List.mem_append_left _ hw)
    · exact ihr.mono fun w hw => List.mem_append_right _ (List.mem_cons_of_mem _ hw)
  | single _ ih => exact ih
  | pipe _ _ ihl ihr =>
    constructor
    · exact ihl.mono fun w hw => List.mem_append_left _ hw
    · exact ihr.mono fun w hw => List.mem_append_right _ (List.mem_cons_of_mem _ hw)
  | block _ rs ih =>
    apply all_wrap
    · exact ih.mono fun w hw => List.mem_append_left _ (List.mem_cons_of_mem _ hw)
    · intro r hr
      exact List.mem_append_right _ (List.mem_cons_of_mem _ (word_mem_redirTokens hr))
  | words rs args hargs =>
    apply all_wrap
    · intro w hw
      obtain ⟨a, ha, rfl⟩ := List.mem_map.mp hw
      apply List.mem_append_right
      exact List.mem_flatMap.mpr ⟨a, ha, List.mem_cons_self ..⟩
    · intro r hr
      rcases List.mem_append.mp hr with hr | hr
      · exact List.mem_append_left _ (word_mem_redirTokens hr)
      · obtain ⟨a, ha, hra⟩ := List.mem_flatMap.mp hr
        apply List.mem_append_right
        exact List.mem_flatMap.mpr ⟨a, ha, List.mem_cons_of_mem _ (word_mem_redirTokens hra)⟩

end Origin

/-- The bytes of the line between the two pointers of a word. -/
def Word.substring (line : List UInt8) (w : Word) : List UInt8 :=
  (line.drop (addr line.length w.1)).take (addr line.length w.2 - addr line.length w.1)

theorem Good.substring_eq {line : List UInt8} {w : Word} (h : Good line w) :
    w.substring line = w.text := by
  obtain ⟨before, text, hline, hw, -, -⟩ := h
  obtain ⟨q, eq⟩ := w
  change line = before ++ text ++ eq at hline
  change q = text ++ eq at hw
  have hstart : addr line.length q = before.length := by
    rw [addr, hline, hw, List.length_append, List.length_append, List.length_append]
    omega
  have hstop : addr line.length eq = before.length + text.length := by
    rw [addr, hline, List.length_append, List.length_append]
    omega
  rw [hw, text_mk, Word.substring]
  dsimp only
  rw [← hw, hstart, hstop, hline, List.append_assoc, List.drop_left, Nat.add_sub_cancel_left]
  exact List.take_left

/-- When `parsecmd` has accepted a line,
every word of its tree, read as a string from the changed line, is the part of the original
line between its two pointers, and that part is a token of the line. -/
theorem tokens_terminated_in_place {line : List UInt8} (hline : 0 ∉ line) {cmd : Cmd Word}
    (h : parsecmd line = .ok (cmd, mem)) :
    ∀ w ∈ cmd.words, cstring mem line.length (addr line.length w.1) = w.substring line ∧
      Token.word (w.substring line) ∈ tokens line := by
  obtain ⟨hall, -, hderives⟩ := parsecmd_sound hline h
  obtain ⟨s, -, -, rfl⟩ := parsecmd_eq_ok.mp h
  intro w hw
  have hgood := all_iff_words.mp hall w hw
  rw [hgood.substring_eq]
  refine ⟨cstring_nulterminate hline hall hw, ?_⟩
  exact all_iff_words.mp (all_map.mp hderives.words_mem) w hw

/-- The line `a>b`. -/
theorem tokens_terminated_in_place_redirect : ∃ cmd mem, parsecmd [97, 62, 98] = .ok (cmd, mem) ∧
    ∀ w ∈ cmd.words, cstring mem 3 (addr 3 w.1) = w.substring [97, 62, 98] ∧
      Token.word (w.substring [97, 62, 98]) ∈ tokens [97, 62, 98] := by
  have htokens : tokens [97, 62, 98] = redirTokens [] ++ argTokens
      [([97], [(.greater, [98])])] := by
    decide +kernel
  obtain ⟨cmd, mem, h, -⟩ := parsecmd_complete (by decide) (htokens ▸ derives_simple (by decide))
  exact ⟨cmd, mem, h, tokens_terminated_in_place (by decide) h⟩

end Xv6.Sh
