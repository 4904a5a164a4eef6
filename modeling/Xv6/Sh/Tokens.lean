import Mathlib.Data.List.TakeWhile
import Xv6.Sh.Parse

/-!
# The tokens of a command line

`gettoken` and `peek` walk over the token sequence of the line.

* `Token`, `tokens`: the token sequence.
* `peek_spec`: `peek` looks at the first character of the next token.
* `gettoken_nil`, `gettoken_cons`: `gettoken` takes the next token.
* `Good`: where a word stands in the line; `Word.text`: its bytes.
-/

namespace Xv6.Sh

/-! ## Token sequences -/

inductive Token where
  | word (w : List UInt8)
  | less
  | greater
  /-- `>>` -/
  | append
  | bar
  | ampersand
  | semicolon
  | lparen
  | rparen
  deriving DecidableEq

/-- The token of a symbol. -/
def symbolToken (c : UInt8) : Option Token :=
  if c = less then some .less
  else if c = greater then some .greater
  else if c = bar then some .bar
  else if c = ampersand then some .ampersand
  else if c = semicolon then some .semicolon
  else if c = lparen then some .lparen
  else if c = rparen then some .rparen
  else none

/-- White space separates tokens; symbols are tokens, and the other characters form words. -/
def tokens : List UInt8 → List Token
  | [] => []
  | c :: s =>
    if c ∈ whitespace then tokens s
    else if c = greater ∧ s.head? = some greater then .append :: tokens s.tail
    else
      match symbolToken c with
      | some t => t :: tokens s
      | none => .word (c :: s.takeWhile inWord) :: tokens (s.dropWhile inWord)
termination_by s => s.length
decreasing_by
  all_goals simp only [List.length_cons]
  · omega
  · simp only [List.length_tail]
    omega
  · omega
  · have := (List.dropWhile_sublist inWord (l := s)).length_le
    omega

/-- The character that a token starts with, and the number that `gettoken` returns for it. -/
def Token.first : Token → Option UInt8
  | .word w => w.head?
  | .less => some Sh.less
  | .greater => some Sh.greater
  | .append => some Sh.greater
  | .bar => some Sh.bar
  | .ampersand => some Sh.ampersand
  | .semicolon => some Sh.semicolon
  | .lparen => some Sh.lparen
  | .rparen => some Sh.rparen

def Token.code : Token → UInt8
  | .word _ => letterA
  | .less => Sh.less
  | .greater => Sh.greater
  | .append => plus
  | .bar => Sh.bar
  | .ampersand => Sh.ampersand
  | .semicolon => Sh.semicolon
  | .lparen => Sh.lparen
  | .rparen => Sh.rparen

/-! ## Words in the line -/

/-- The bytes between the start and the end of a word. -/
def Word.text (w : Word) : List UInt8 := w.1.take (w.1.length - w.2.length)

/-- The word stands in the line `s`, and the character behind it does not belong to it. -/
def Good (s : Ptr) (w : Word) : Prop :=
  ∃ before text, s = before ++ text ++ w.2 ∧ w.1 = text ++ w.2 ∧ (∀ c ∈ text, inWord c = true) ∧
    ∀ c, w.2.head? = some c → inWord c = false

section Words

variable {s s' : Ptr} {w : Word}

theorem Good.mono (h : Good s' w) (hs : s' <:+ s) : Good s w := by
  obtain ⟨before, text, hs', hw, htext, hend⟩ := h
  obtain ⟨pre, rfl⟩ := hs
  exact ⟨pre ++ before, text, by rw [hs']; simp [List.append_assoc], hw, htext, hend⟩

theorem text_mk (text after : List UInt8) : Word.text (text ++ after, after) = text := by
  rw [Word.text, List.length_append, Nat.add_sub_cancel, List.take_left]

end Words

/-! ## The lexer -/

section Lexer

variable {s : Ptr} {c : UInt8}

theorem tokens_nil : tokens [] = [] := by
  rw [tokens]

theorem tokens_space (hc : c ∈ whitespace) (s : Ptr) : tokens (c :: s) = tokens s := by
  rw [tokens, if_pos hc]

theorem tokens_skip (s : Ptr) : tokens (skip s) = tokens s := by
  induction s with
  | nil => rfl
  | cons c s ih =>
    by_cases hc : c ∈ whitespace
    · have hskip : skip (c :: s) = skip s := List.dropWhile_cons_of_pos (by exact decide_eq_true hc)
      rw [hskip, ih, tokens_space hc]
    · have hskip : skip (c :: s) = c :: s := List.dropWhile_cons_of_neg (by simpa using hc)
      rw [hskip]

theorem skip_suffix (s : Ptr) : skip s <:+ s := List.dropWhile_suffix _

/-- The first character behind white space is not white space. -/
theorem not_space_of_skip {r : Ptr} (h : skip s = c :: r) : c ∉ whitespace := by
  have hnot := List.head?_dropWhile_not (fun c => decide (c ∈ whitespace)) s
  rw [show s.dropWhile (fun c => decide (c ∈ whitespace)) = c :: r from h] at hnot
  exact of_decide_eq_false hnot

/-- A symbol, and the token that it is. -/
theorem symbolToken_spec (c : UInt8) :
    match symbolToken c with
    | none => c ∉ symbols
    | some t => t.first = some c ∧ t.code = c ∧ c ∈ symbols ∧ ∀ w, t ≠ .word w := by
  unfold symbolToken
  split_ifs with h₁ h₂ h₃ h₄ h₅ h₆ h₇
  · exact ⟨by rw [h₁]; rfl, h₁.symm, by rw [h₁]; decide, nofun⟩
  · exact ⟨by rw [h₂]; rfl, h₂.symm, by rw [h₂]; decide, nofun⟩
  · exact ⟨by rw [h₃]; rfl, h₃.symm, by rw [h₃]; decide, nofun⟩
  · exact ⟨by rw [h₄]; rfl, h₄.symm, by rw [h₄]; decide, nofun⟩
  · exact ⟨by rw [h₅]; rfl, h₅.symm, by rw [h₅]; decide, nofun⟩
  · exact ⟨by rw [h₆]; rfl, h₆.symm, by rw [h₆]; decide, nofun⟩
  · exact ⟨by rw [h₇]; rfl, h₇.symm, by rw [h₇]; decide, nofun⟩
  · simp [symbols, h₁, h₂, h₃, h₄, h₅, h₆, h₇]

/-- The token at a character that is not white space. -/
inductive Lexed (c : UInt8) (r : Ptr) : Token → Ptr → Prop where
  | append (hc : c = greater) (hr : r.head? = some greater) : Lexed c r .append r.tail
  | symbol {t : Token} (hnot : ¬ (c = greater ∧ r.head? = some greater))
    (ht : symbolToken c = some t) :
      Lexed c r t r
  | word (ht : symbolToken c = none) :
      Lexed c r (.word (c :: r.takeWhile inWord)) (r.dropWhile inWord)

/-- The next token starts with the next character that is not white space. -/
theorem lexed_of_skip {r : Ptr} (h : skip s = c :: r) :
    ∃ t r', Lexed c r t r' ∧ tokens s = t :: tokens r' := by
  rw [← tokens_skip, h, tokens, if_neg (not_space_of_skip h)]
  by_cases happend : c = greater ∧ r.head? = some greater
  · rw [if_pos happend]
    exact ⟨_, _, .append happend.1 happend.2, rfl⟩
  · rw [if_neg happend]
    cases ht : symbolToken c with
    | some t => exact ⟨t, r, .symbol happend ht, rfl⟩
    | none => exact ⟨_, _, .word ht, rfl⟩

theorem tokens_eq_nil_iff : tokens s = [] ↔ skip s = [] := by
  constructor
  · intro h
    cases hskip : skip s with
    | nil => rfl
    | cons c r =>
      obtain ⟨t, r', -, heq⟩ := lexed_of_skip hskip
      rw [h] at heq
      cases heq
  · intro h
    rw [← tokens_skip, h, tokens_nil]

theorem Lexed.first {r r' : Ptr} {t : Token} (h : Lexed c r t r') : t.first = some c := by
  cases h with
  | append hc hr =>
    rw [hc]
    rfl
  | symbol hnot ht =>
    have hspec := symbolToken_spec c
    rw [ht] at hspec
    exact hspec.1
  | word ht => rfl

theorem peek_snd (s : Ptr) (toks : List UInt8) : (peek s toks).2 = skip s := by
  unfold peek
  split
  · next h => exact h.symm
  · next h => exact h.symm

/-- `peek` tells whether the next token starts with one of the characters. -/
theorem peek_fst (s : Ptr) (toks : List UInt8) :
    (peek s toks).1 = true ↔ ∃ t ts, tokens s = t :: ts ∧ ∃ c ∈ toks, t.first = some c := by
  unfold peek
  split
  · next h =>
    rw [tokens_eq_nil_iff.mpr h]
    exact iff_of_false Bool.false_ne_true nofun
  · next c r h =>
    obtain ⟨t, r', hlex, heq⟩ := lexed_of_skip h
    rw [decide_eq_true_iff, heq]
    constructor
    · intro hc
      exact ⟨t, _, rfl, c, hc, hlex.first⟩
    · rintro ⟨t', ts', heq', c', hc', hfirst⟩
      rw [List.cons.injEq] at heq'
      rw [← heq'.1, hlex.first, Option.some.injEq] at hfirst
      rw [hfirst]
      exact hc'

theorem gettoken_nil (h : tokens s = []) : (gettoken s).ret = 0 ∧ (gettoken s).ps = [] := by
  unfold gettoken
  rw [tokens_eq_nil_iff.mp h]
  exact ⟨rfl, rfl⟩

/-- What `gettoken` makes of the next token. -/
structure Gets (s : Ptr) (t : Token) (ts : List Token) (g : Got) : Prop where
  ret : g.ret = t.code
  rest : tokens g.ps = ts
  suffix : g.ps <:+ s
  word : ∀ w, t = .word w → Good s (g.q, g.eq) ∧ Word.text (g.q, g.eq) = w

theorem gettoken_cons {t : Token} {ts : List Token} (h : tokens s = t :: ts) :
    Gets s t ts (gettoken s) := by
  cases hskip : skip s with
  | nil =>
    rw [tokens_eq_nil_iff.mpr hskip] at h
    cases h
  | cons c r =>
    obtain ⟨t', r', hlex, heq⟩ := lexed_of_skip hskip
    rw [h, List.cons.injEq] at heq
    obtain ⟨rfl, rfl⟩ := heq
    have hsuffix : c :: r <:+ s := hskip ▸ skip_suffix s
    have hr : r <:+ s := (List.suffix_cons c r).trans hsuffix
    unfold gettoken
    rw [hskip]
    dsimp only
    cases hlex with
    | append hc hr' =>
      rw [hc, if_neg (by decide), if_pos rfl, if_pos hr']
      exact ⟨rfl, tokens_skip _, (skip_suffix _).trans ((List.tail_suffix r).trans hr), nofun⟩
    | symbol hnot ht =>
      have hspec := symbolToken_spec c
      rw [ht] at hspec
      obtain ⟨-, hcode, hmem, hword⟩ := hspec
      have hgets : ∀ q eq, Gets s t (tokens r) ⟨c, q, eq, skip r⟩ := fun q eq =>
        ⟨hcode.symm, tokens_skip r, (skip_suffix r).trans hr, fun w hw => absurd hw (hword w)⟩
      split
      · exact hgets _ _
      · next hsym =>
        have hc : c = greater := by
          simp only [symbols, List.mem_cons, List.not_mem_nil, or_false] at hmem hsym
          tauto
        rw [if_pos hc, if_neg fun hhead => hnot ⟨hc, hhead⟩, ← hc]
        exact hgets _ _
    | word ht =>
      have hspec := symbolToken_spec c
      rw [ht] at hspec
      have hin : inWord c = true := by
        simp [inWord, not_space_of_skip hskip, hspec]
      have hsym : c ∉ [bar, lparen, rparen, semicolon, ampersand, less] := by
        simp only [symbols, List.mem_cons, List.not_mem_nil, or_false] at hspec ⊢
        tauto
      have hgreater : c ≠ greater := by
        intro hc
        exact hspec (by rw [hc]; decide)
      have hdrop : (c :: r).dropWhile inWord = r.dropWhile inWord := List.dropWhile_cons_of_pos hin
      have hsplit : c :: r = c :: r.takeWhile inWord ++ r.dropWhile inWord := by
        rw [List.cons_append, List.takeWhile_append_dropWhile]
      rw [if_neg hsym, if_neg hgreater, hdrop]
      refine ⟨rfl, tokens_skip _, ?_, ?_⟩
      · exact (skip_suffix _).trans ((List.dropWhile_suffix _).trans hr)
      · intro w hw
        cases hw
        obtain ⟨before, hbefore⟩ := hsuffix
        refine ⟨⟨before, c :: r.takeWhile inWord, ?_, hsplit, ?_, ?_⟩, ?_⟩
        · rw [← hbefore, List.append_assoc, ← hsplit]
        · intro x hx
          rcases List.mem_cons.mp hx with rfl | hx
          · exact hin
          · exact List.mem_takeWhile_imp hx
        · intro x hx
          have hnot := List.head?_dropWhile_not inWord r
          change (r.dropWhile inWord).head? = some x at hx
          rw [hx] at hnot
          simpa using hnot
        · rw [hsplit]
          exact text_mk _ _

end Lexer

end Xv6.Sh
