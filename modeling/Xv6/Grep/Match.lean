import Mathlib.Data.List.Basic

/-!
# The pattern matcher of grep

`match`, `matchhere` and `matchstar` of `user/grep.c` against the meaning of the
pattern language.  A string is the list of its bytes without the final NUL.

* `matchRe`, `matchhere`, `matchstar`: the code, with `matchRe` for `match`.  The
  recursion ends because the pattern gets shorter, or stays while the text gets
  shorter.
* `Item`, `items`: the pattern language.
* `Item.Takes`, `Matches`: what an item, and a list of items, matches.
* `matchhere_iff`, `matchstar_iff`, `matchRe_iff`: the code decides the meaning.
-/

namespace Xv6.Grep

/-! ## The code -/

def caret : UInt8 := 94
def star : UInt8 := 42
def dot : UInt8 := 46
def dollar : UInt8 := 36

mutual

/-- Search for `re` at the beginning of `text`. -/
def matchhere : List UInt8 → List UInt8 → Bool
  | [], _ => true
  | c :: re, text =>
    if re.head? = some star then matchstar c re.tail text
    else if c = dollar ∧ re = [] then text.isEmpty
    else
      match text with
      | [] => false
      | t :: text => if c = dot ∨ c = t then matchhere re text else false
termination_by re text => (re.length, text.length, 0)

/-- Search for `c*re` at the beginning of `text`. -/
def matchstar (c : UInt8) (re : List UInt8) : List UInt8 → Bool
  | [] => matchhere re []
  | t :: text =>
    if matchhere re (t :: text) then true
    else if t = c ∨ c = dot then matchstar c re text
    else false
termination_by text => (re.length, text.length, 1)

end

/-- The loop of `match`: search for `re` at every position, the end included. -/
def matchAnywhere (re : List UInt8) : List UInt8 → Bool
  | [] => matchhere re []
  | t :: text => if matchhere re (t :: text) then true else matchAnywhere re text

/-- `match(re, text)` -/
def matchRe (re text : List UInt8) : Bool :=
  if re.head? = some caret then matchhere re.tail text else matchAnywhere re text

/-! ## The pattern language -/

inductive Item where
  /-- Zero or more of `c`, of any character if `c` is `.`. -/
  | many (c : UInt8)
  | any
  | char (c : UInt8)
  /-- The end of the text. -/
  | final
  deriving DecidableEq, Repr

/-- The pattern, read from left to right. -/
def items : List UInt8 → List Item
  | [] => []
  | [c] => [if c = dollar then .final else if c = dot then .any else .char c]
  | c :: d :: re =>
    if d = star then .many c :: items re
    else (if c = dot then .any else .char c) :: items (d :: re)

/-- The item matches the string `w` where the rest of the text is `rest`. -/
def Item.Takes : Item → List UInt8 → List UInt8 → Prop
  | .many c, w, _ => c = dot ∨ ∀ x ∈ w, x = c
  | .any, w, _ => ∃ x, w = [x]
  | .char c, w, _ => w = [c]
  | .final, w, rest => w = [] ∧ rest = []

/-- The items match the string `s`, one after the other, where the rest of the text is
`rest`. -/
inductive Matches : List Item → List UInt8 → List UInt8 → Prop where
  | nil (rest) : Matches [] [] rest
  | cons {item : Item} {is : List Item} {w s rest : List UInt8} (head : item.Takes w (s ++ rest))
      (tail : Matches is s rest) : Matches (item :: is) (w ++ s) rest

/-- The items match at the beginning of the text. -/
def MatchesHere (is : List Item) (text : List UInt8) : Prop :=
  ∃ s rest, text = s ++ rest ∧ Matches is s rest

/-- What a pattern means: the text contains a string that the items match, at its beginning
if the pattern starts with `^`. -/
def Denotes (re text : List UInt8) : Prop :=
  if re.head? = some caret then MatchesHere (items re.tail) text
  else ∃ before after, text = before ++ after ∧ MatchesHere (items re) after

/-! ## Matching one item -/

section Items

variable {is : List Item} {text : List UInt8} {c t : UInt8}

theorem matchesHere_nil (text : List UInt8) : MatchesHere [] text := ⟨[], text, rfl, .nil text⟩

/-- The first item takes a part of the text and the others match behind it. -/
theorem matchesHere_cons {item : Item} :
    MatchesHere (item :: is) text ↔
      ∃ w after, text = w ++ after ∧ item.Takes w after ∧ MatchesHere is after := by
  constructor
  · intro h
    obtain ⟨s, rest, htext, hmatch⟩ := h
    cases hmatch with
    | @cons item is w s' rest head tail =>
      exact ⟨w, s' ++ rest, by rw [htext, List.append_assoc], head, s', rest, rfl, tail⟩
  · intro h
    obtain ⟨w, after, htext, htakes, s, rest, hafter, hmatch⟩ := h
    rw [hafter] at htakes
    exact ⟨w ++ s, rest, by rw [htext, hafter, List.append_assoc], .cons htakes hmatch⟩

theorem matchesHere_final : MatchesHere [.final] text ↔ text = [] := by
  rw [matchesHere_cons]
  constructor
  · intro h
    obtain ⟨w, after, htext, ⟨hw, hafter⟩, -⟩ := h
    rw [htext, hw, hafter, List.append_nil]
  · intro h
    exact ⟨[], [], h, ⟨rfl, rfl⟩, matchesHere_nil []⟩

/-- An item for one character. -/
def oneChar (c : UInt8) : Item := if c = dot then .any else .char c

theorem takes_oneChar {w rest : List UInt8} :
    (oneChar c).Takes w rest ↔ ∃ x, w = [x] ∧ (c = dot ∨ c = x) := by
  unfold oneChar
  split
  · next hdot => simp [Item.Takes, hdot]
  · next hdot =>
    simp only [Item.Takes, hdot, false_or]
    constructor
    · intro h
      exact ⟨c, h, rfl⟩
    · rintro ⟨x, hw, rfl⟩
      exact hw

theorem matchesHere_oneChar_nil : ¬ MatchesHere (oneChar c :: is) [] := by
  rw [matchesHere_cons]
  rintro ⟨w, after, htext, htakes, -⟩
  obtain ⟨x, rfl, -⟩ := takes_oneChar.mp htakes
  cases htext

theorem matchesHere_oneChar_cons :
    MatchesHere (oneChar c :: is) (t :: text) ↔ (c = dot ∨ c = t) ∧ MatchesHere is text := by
  rw [matchesHere_cons]
  constructor
  · rintro ⟨w, after, htext, htakes, hrest⟩
    obtain ⟨x, rfl, hx⟩ := takes_oneChar.mp htakes
    rw [List.singleton_append, List.cons.injEq] at htext
    obtain ⟨rfl, rfl⟩ := htext
    exact ⟨hx, hrest⟩
  · rintro ⟨ht, hrest⟩
    exact ⟨[t], text, rfl, takes_oneChar.mpr ⟨t, rfl, ht⟩, hrest⟩

/-- A starred item takes nothing, or one character and then again a starred item. -/
theorem matchesHere_many_cons :
    MatchesHere (.many c :: is) (t :: text) ↔
      MatchesHere is (t :: text) ∨ (t = c ∨ c = dot) ∧ MatchesHere (.many c :: is) text := by
  simp only [matchesHere_cons, Item.Takes]
  constructor
  · rintro ⟨w, after, htext, htakes, hrest⟩
    cases w with
    | nil =>
      rw [List.nil_append] at htext
      exact .inl (htext ▸ hrest)
    | cons x w =>
      rw [List.cons_append, List.cons.injEq] at htext
      obtain ⟨rfl, rfl⟩ := htext
      refine .inr ⟨?_, w, after, rfl, ?_, hrest⟩
      · rcases htakes with hdot | hall
        · exact .inr hdot
        · exact .inl (hall t (List.mem_cons_self ..))
      · exact htakes.imp_right fun hall y hy => hall y (List.mem_cons_of_mem _ hy)
  · rintro (hrest | ⟨ht, w, after, rfl, htakes, hrest⟩)
    · exact ⟨[], t :: text, rfl, .inr nofun, hrest⟩
    · refine ⟨t :: w, after, rfl, ?_, hrest⟩
      rcases ht with rfl | hdot
      · exact htakes.imp_right fun hall y hy => (List.mem_cons.mp hy).elim id (hall y)
      · exact .inl hdot

theorem matchesHere_many_nil : MatchesHere (.many c :: is) [] ↔ MatchesHere is [] := by
  simp only [matchesHere_cons, Item.Takes]
  constructor
  · rintro ⟨w, after, htext, -, hrest⟩
    obtain ⟨-, rfl⟩ := List.append_eq_nil_iff.mp htext.symm
    exact hrest
  · intro hrest
    exact ⟨[], [], rfl, .inr nofun, hrest⟩

end Items

/-! ## The code decides the meaning -/

theorem items_star (c : UInt8) (re : List UInt8) :
    items (c :: star :: re) = .many c :: items re := by
  rw [items, if_pos rfl]

theorem items_final : items [dollar] = [.final] := rfl

/-- A character that is not followed by `*` and is not a final `$`. -/
theorem items_oneChar {c : UInt8} {re : List UInt8} (hstar : re.head? ≠ some star)
    (hfinal : ¬ (c = dollar ∧ re = [])) : items (c :: re) = oneChar c :: items re := by
  cases re with
  | nil =>
    show [if c = dollar then .final else oneChar c] = [oneChar c]
    rw [if_neg fun hc => hfinal ⟨hc, rfl⟩]
  | cons d re =>
    rw [items, if_neg fun hd => hstar (by rw [hd]; rfl)]
    rfl

/-- `matchstar` is right where `matchhere` is, by induction on the text. -/
theorem matchstar_iff {c : UInt8} {re : List UInt8}
    (hhere : ∀ text, matchhere re text = true ↔ MatchesHere (items re) text) (text : List UInt8) :
    matchstar c re text = true ↔ MatchesHere (.many c :: items re) text := by
  induction text with
  | nil => rw [matchstar, matchesHere_many_nil, hhere]
  | cons t text ih =>
    rw [matchstar, matchesHere_many_cons, ← ih, ← hhere]
    split
    · next hmatch => exact ⟨fun _ => .inl hmatch, fun _ => rfl⟩
    · next hmatch =>
      rw [or_iff_right hmatch]
      split
      · next ht => exact (and_iff_right ht).symm
      · next ht => exact iff_of_false Bool.false_ne_true fun h => ht h.1

/-- By induction on the length of the pattern, which `c*` shortens by two. -/
theorem matchhere_iff (re text : List UInt8) :
    matchhere re text = true ↔ MatchesHere (items re) text := by
  match re with
  | [] =>
    rw [matchhere]
    exact iff_of_true rfl (matchesHere_nil text)
  | c :: re =>
    rw [matchhere.eq_def]
    dsimp only
    by_cases hstar : re.head? = some star
    · obtain ⟨re', rfl⟩ : ∃ re', re = star :: re' := ⟨re.tail, (List.cons_head?_tail hstar).symm⟩
      rw [if_pos hstar, items_star, List.tail_cons]
      exact matchstar_iff (fun text => matchhere_iff re' text) text
    · rw [if_neg hstar]
      by_cases hfinal : c = dollar ∧ re = []
      · obtain ⟨rfl, rfl⟩ := hfinal
        rw [if_pos ⟨rfl, rfl⟩, items_final, matchesHere_final]
        exact List.isEmpty_iff
      · rw [if_neg hfinal, items_oneChar hstar hfinal]
        cases text with
        | nil => exact iff_of_false Bool.false_ne_true matchesHere_oneChar_nil
        | cons t text =>
          rw [matchesHere_oneChar_cons]
          dsimp only
          split
          · next ht => rw [matchhere_iff re text, and_iff_right ht]
          · next ht => exact iff_of_false Bool.false_ne_true fun h => ht h.1
termination_by re.length

theorem matchAnywhere_iff (re text : List UInt8) :
    matchAnywhere re text = true ↔
      ∃ before after, text = before ++ after ∧ MatchesHere (items re) after := by
  induction text with
  | nil =>
    rw [matchAnywhere, matchhere_iff]
    constructor
    · intro h
      exact ⟨[], [], rfl, h⟩
    · rintro ⟨before, after, htext, h⟩
      obtain ⟨-, rfl⟩ := List.append_eq_nil_iff.mp htext.symm
      exact h
  | cons t text ih =>
    have hsplit : (∃ before after, t :: text = before ++ after ∧ MatchesHere (items re) after) ↔
        MatchesHere (items re) (t :: text) ∨
          ∃ before after, text = before ++ after ∧ MatchesHere (items re) after := by
      constructor
      · rintro ⟨before, after, htext, h⟩
        cases before with
        | nil => exact .inl (htext ▸ h)
        | cons x before =>
          rw [List.cons_append, List.cons.injEq] at htext
          exact .inr ⟨before, after, htext.2, h⟩
      · rintro (h | ⟨before, after, rfl, h⟩)
        · exact ⟨[], t :: text, rfl, h⟩
        · exact ⟨t :: before, after, rfl, h⟩
    rw [matchAnywhere, hsplit, ← ih, ← matchhere_iff]
    split
    · next hmatch => exact ⟨fun _ => .inl hmatch, fun _ => rfl⟩
    · next hmatch => rw [or_iff_right hmatch]

/-- The matcher returns for every pattern and every text, and it finds a match exactly when
the text has one. -/
theorem matchRe_iff (re text : List UInt8) : matchRe re text = true ↔ Denotes re text := by
  unfold matchRe Denotes
  split
  · exact matchhere_iff re.tail text
  · exact matchAnywhere_iff re text

end Xv6.Grep
