import Xv6.Grep.Match
import Xv6.Ulib.Strings

/-!
# The lines that grep writes

The function `grep` of `user/grep.c` reads its input in pieces into a buffer of 1024
bytes and carries the beginning of a line over to the next piece.

* `read`, `scan`, `grepLoop`, `grep`: the code.
* `unlines`, `exists_lines`, `exists_append_of_unlines`: lines, and a text cut into lines.
* `scan_spec`: the inner loop writes the lines that match and keeps the rest.
* `Carried`, `carried_loop`, `carried_grep`: the outer loop, with a line begun in the
  buffer.
* `grep_lines_iff`: the output is right exactly when no line is too long for the
  buffer; `grep_long_line` is an input whose line is.
-/

namespace Xv6.Grep

open Xv6.Ulib Xv6.Lib.Bytes
open Function (update update_of_ne update_self)

/-! ## The code -/

/-- `sizeof(buf)` -/
def BUFSIZE : Nat := 1024

def newline : UInt8 := 10

/-- `read` of at most `n` bytes.  The result is not empty unless the input has ended or
nothing was asked for; how much of the input is there at once is up to `more`. -/
def read (input : List UInt8) (n more : Nat) : List UInt8 × List UInt8 :=
  input.splitAt (min n (more + 1))

/-- The inner loop: `p` is where the next line starts, and `out` what has been written. -/
def scan (pattern : List UInt8) : Nat → (Nat → UInt8) → Nat → List UInt8 →
    (Nat → UInt8) × Nat × List UInt8
  | 0, buf, p, out => (buf, p, out)
  | fuel + 1, buf, p, out =>
    match strchr buf newline BUFSIZE p with
    | none => (buf, p, out)
    | some q =>
      let cut := update buf q 0
      if matchRe pattern (cstring cut BUFSIZE p) then
        let buf := update cut q newline
        scan pattern fuel buf (q + 1) (out ++ slice buf p (q + 1 - p))
      else scan pattern fuel cut (q + 1) out

/-- What `grep` has written, and the input that it has not read. -/
structure Result where
  out : List UInt8
  rest : List UInt8

theorem read_lt {input : List UInt8} {n more : Nat} (h : (read input n more).1 ≠ []) :
    (read input n more).2.length < input.length := by
  simp only [read, List.splitAt_eq] at h ⊢
  have hpos : 0 < (input.take (min n (more + 1))).length := List.length_pos_iff.mpr h
  rw [List.length_take] at hpos
  rw [List.length_drop]
  omega

/-- The outer loop: `m` bytes of the buffer are in use. -/
def grepLoop (pattern : List UInt8) (more : Nat → Nat) (i : Nat) (buf : Nat → UInt8) (m : Nat)
    (out input : List UInt8) : Result :=
  let piece := read input (BUFSIZE - m - 1) (more i)
  if piece.1 = [] then ⟨out, input⟩
  else
    let m := m + piece.1.length
    let buf := copyBytes buf (m - piece.1.length) (fun a => piece.1.getD a 0) 0 piece.1.length
    let buf := update buf m 0
    let (buf, p, out) := scan pattern BUFSIZE buf 0 out
    if 0 < m then
      grepLoop pattern more (i + 1) (memmove buf 0 p (m - p)) (m - p) out piece.2
    else grepLoop pattern more (i + 1) buf m out piece.2
termination_by input.length
decreasing_by
  all_goals exact read_lt ‹_›

/-- `grep(pattern, fd)`, where the `i`-th `read` finds `more i + 1` bytes.  The buffer is
shared by all calls and is as the last one left it. -/
def grep (pattern : List UInt8) (more : Nat → Nat) (buf : Nat → UInt8) (input : List UInt8) :
    Result :=
  grepLoop pattern more 0 buf 0 [] input

/-! ## Lines -/

/-- The text of a list of lines. -/
def unlines (ls : List (List UInt8)) : List UInt8 := (ls.map (· ++ [newline])).flatten

section Lines

variable {ls ks : List (List UInt8)} {l c d e : List UInt8}

theorem unlines_cons (l : List UInt8) (ls : List (List UInt8)) :
    unlines (l :: ls) = l ++ newline :: unlines ls := by
  simp [unlines]

theorem unlines_append (ls ks : List (List UInt8)) :
    unlines (ls ++ ks) = unlines ls ++ unlines ks := by
  simp [unlines]

theorem length_le_unlines (ls : List (List UInt8)) : ls.length ≤ (unlines ls).length := by
  induction ls with
  | nil => exact Nat.zero_le _
  | cons l ls ih =>
    rw [unlines_cons, List.length_append, List.length_cons, List.length_cons]
    omega

/-- Every text is a list of lines and the beginning of one more. -/
theorem exists_lines (text : List UInt8) :
    ∃ ls c, text = unlines ls ++ c ∧ (∀ l ∈ ls, newline ∉ l) ∧ newline ∉ c := by
  induction text with
  | nil => exact ⟨[], [], rfl, nofun, nofun⟩
  | cons b text ih =>
    obtain ⟨ls, c, rfl, hls, hc⟩ := ih
    by_cases hb : b = newline
    · refine ⟨[] :: ls, c, ?_, ?_, hc⟩
      · rw [hb, unlines_cons]
        rfl
      · intro l hl
        rcases List.mem_cons.mp hl with rfl | hl
        · exact List.not_mem_nil
        · exact hls l hl
    · cases ls with
      | nil =>
        refine ⟨[], b :: c, rfl, nofun, fun hin => ?_⟩
        rcases List.mem_cons.mp hin with heq | hin
        · exact hb heq.symm
        · exact hc hin
      | cons l ls =>
        refine ⟨(b :: l) :: ls, c, ?_, ?_, hc⟩
        · rw [unlines_cons, unlines_cons]
          rfl
        · intro k hk
          rcases List.mem_cons.mp hk with rfl | hk
          · intro hin
            rcases List.mem_cons.mp hin with heq | hin
            · exact hb heq.symm
            · exact hls l (List.mem_cons_self ..) hin
          · exact hls k (List.mem_cons_of_mem _ hk)

/-- The first newline of a text ends its first line. -/
theorem first_line_inj (hl : newline ∉ l) (hc : newline ∉ c)
    (h : l ++ newline :: d = c ++ newline :: e) : l = c ∧ d = e := by
  induction l generalizing c with
  | nil =>
    cases c with
    | nil =>
      rw [List.nil_append, List.nil_append, List.cons.injEq] at h
      exact ⟨rfl, h.2⟩
    | cons b c =>
      rw [List.nil_append, List.cons_append, List.cons.injEq] at h
      rw [← h.1] at hc
      exact absurd (List.mem_cons_self ..) hc
  | cons b l ih =>
    cases c with
    | nil =>
      rw [List.nil_append, List.cons_append, List.cons.injEq] at h
      rw [h.1] at hl
      exact absurd (List.mem_cons_self ..) hl
    | cons b' c =>
      rw [List.cons_append, List.cons_append, List.cons.injEq] at h
      rw [List.mem_cons, not_or] at hl hc
      obtain ⟨hlc, hde⟩ := ih hl.2 hc.2 h.2
      exact ⟨by rw [h.1, hlc], hde⟩

/-- A line begun is not longer than the line. -/
theorem begun_le (hc : newline ∉ c) (h : c ++ d = l ++ newline :: e) : c.length ≤ l.length := by
  rcases List.append_eq_append_iff.mp h with ⟨k, rfl, -⟩ | ⟨k, rfl, hk⟩
  · rw [List.length_append]
    exact Nat.le_add_right _ _
  · cases k with
    | nil =>
      rw [List.append_nil]
    | cons b k =>
      rw [List.cons_append, List.cons.injEq] at hk
      rw [← hk.1] at hc
      exact absurd (List.mem_append_right _ (List.mem_cons_self ..)) hc

theorem eq_nil_of_unlines (hc : newline ∉ c) (h : c = unlines ls) : ls = [] := by
  cases ls with
  | nil => rfl
  | cons l ls =>
    rw [h, unlines_cons] at hc
    exact absurd (List.mem_append_right _ (List.mem_cons_self ..)) hc

/-- A text that begins with whole lines: its further lines follow them. -/
theorem exists_append_of_unlines (hls : ∀ l ∈ ls, newline ∉ l) (hks : ∀ l ∈ ks, newline ∉ l)
    (h : unlines ks ++ d = unlines ls) : ∃ more, ls = ks ++ more ∧ d = unlines more := by
  induction ks generalizing ls with
  | nil => exact ⟨ls, rfl, h⟩
  | cons k ks ih =>
    cases ls with
    | nil =>
      rw [unlines_cons] at h
      simp [unlines] at h
    | cons l ls =>
      rw [unlines_cons, unlines_cons, List.append_assoc, List.cons_append] at h
      obtain ⟨rfl, hrest⟩ := first_line_inj (hks k (List.mem_cons_self ..))
        (hls l (List.mem_cons_self ..)) h
      obtain ⟨more, rfl, hd⟩ := ih (fun x hx => hls x (List.mem_cons_of_mem _ hx))
        (fun x hx => hks x (List.mem_cons_of_mem _ hx)) hrest
      exact ⟨more, rfl, hd⟩

end Lines

/-! ## The inner loop -/

section Scan

variable {ls : List (List UInt8)} {l c : List UInt8} {buf : Nat → UInt8}

/-- The lines that match. -/
def matching (pattern : List UInt8) (ls : List (List UInt8)) : List (List UInt8) :=
  ls.filter (matchRe pattern)

/-- One line: `*q` is 0 while the line is matched. -/
theorem scan_line (pattern out : List UInt8) (fuel : Nat) {p : Nat} (hlen : l.length < BUFSIZE)
    (h : Holds buf p (l ++ [newline])) (hzero : 0 ∉ l) (hline : newline ∉ l) :
    ∃ buf', (∀ a, a < p + l.length ∨ p + l.length < a → buf' a = buf a) ∧
      scan pattern (fuel + 1) buf p out =
        scan pattern fuel buf' (p + l.length + 1) (out ++ unlines (matching pattern [l])) := by
  obtain ⟨hl, -⟩ := holds_append.mp h
  have hnext : ∀ x a, a < p + l.length ∨ p + l.length < a →
      update buf (p + l.length) x a = buf a := by
    intro x a ha
    exact update_of_ne (by omega) _ _
  have hstring : cstring (update buf (p + l.length) 0) BUFSIZE p = l := by
    apply cstring_eq (Nat.le_of_lt hlen) _ hzero
    rw [holds_append, holds_cons]
    exact ⟨hl.congr fun a _ ha => hnext 0 a (.inl ha), update_self .., holds_nil _ _⟩
  rw [scan, strchr_found (by decide) hlen h hzero hline]
  dsimp only
  rw [hstring, matching]
  by_cases hmatch : matchRe pattern l = true
  · refine ⟨update (update buf (p + l.length) 0) (p + l.length) newline, ?_, ?_⟩
    · intro a ha
      rw [Function.update_idem]
      exact hnext newline a ha
    · have hwrite : slice (update (update buf (p + l.length) 0) (p + l.length) newline)
          p (p + l.length + 1 - p) = l ++ [newline] := by
        apply Holds.slice_eq
        · rw [Function.update_idem, holds_append, holds_cons]
          exact ⟨hl.congr fun a _ ha => hnext newline a (.inl ha), update_self ..,
            holds_nil _ _⟩
        · rw [List.length_append, List.length_singleton]
          omega
      rw [if_pos hmatch, hwrite, List.filter_cons_of_pos hmatch, List.filter_nil, unlines_cons]
      rfl
  · refine ⟨update buf (p + l.length) 0, hnext 0, ?_⟩
    rw [if_neg hmatch, List.filter_cons_of_neg hmatch]
    show _ = scan pattern fuel _ _ (out ++ [])
    rw [List.append_nil]

/-- By induction on the lines that the buffer holds. -/
theorem scan_spec (pattern out : List UInt8) {fuel p : Nat} (hfuel : ls.length < fuel)
    (hlen : p + (unlines ls ++ c).length < BUFSIZE) (h : Holds buf p (unlines ls ++ c ++ [0]))
    (hls : ∀ l ∈ ls, newline ∉ l) (hc : newline ∉ c) (hzero : 0 ∉ unlines ls ++ c) :
    ∃ buf', Holds buf' (p + (unlines ls).length) c ∧
      scan pattern fuel buf p out =
        (buf', p + (unlines ls).length, out ++ unlines (matching pattern ls)) := by
  induction ls generalizing fuel p buf out with
  | nil =>
    obtain ⟨fuel, rfl⟩ : ∃ f, fuel = f + 1 := ⟨fuel - 1, by simp at hfuel; omega⟩
    have hnone : strchr buf newline BUFSIZE p = none := strchr_none h hc
    refine ⟨buf, (holds_append.mp h).1, ?_⟩
    rw [scan, hnone]
    show (buf, p, out) = (buf, p, out ++ [])
    rw [List.append_nil]
  | cons l ls ih =>
    obtain ⟨fuel, rfl⟩ : ∃ f, fuel = f + 1 := ⟨fuel - 1, by simp at hfuel; omega⟩
    rw [unlines_cons] at hlen hzero h ⊢
    simp only [List.append_assoc, List.cons_append, List.mem_append, List.mem_cons, not_or] at hzero
    have hlength : (l ++ newline :: unlines ls).length = l.length + 1 + (unlines ls).length := by
      rw [List.length_append, List.length_cons]
      omega
    rw [List.length_append, hlength] at hlen
    rw [List.append_assoc, List.append_assoc, List.cons_append, ← List.singleton_append,
      ← List.append_assoc, holds_append] at h
    obtain ⟨hl, hrest⟩ := h
    rw [List.length_append, List.length_singleton, ← Nat.add_assoc] at hrest
    obtain ⟨buf₁, hsame, hscan⟩ := scan_line pattern out fuel (by omega) hl
      hzero.1 (hls l (List.mem_cons_self ..))
    have hrest₁ : Holds buf₁ (p + l.length + 1) (unlines ls ++ c ++ [0]) := by
      rw [List.append_assoc]
      exact hrest.congr fun a ha _ => hsame a (.inr (by omega))
    obtain ⟨buf₂, hc₂, hscan₂⟩ := ih (out ++ unlines (matching pattern [l]))
      (Nat.lt_of_succ_lt_succ hfuel)
      (by rw [List.length_append]; omega) hrest₁ (fun k hk => hls k (List.mem_cons_of_mem _ hk))
      (by rw [List.mem_append, not_or]; exact hzero.2.2)
    have hend : p + l.length + 1 + (unlines ls).length =
        p + (l ++ newline :: unlines ls).length := by
      rw [hlength]
      omega
    rw [hend] at hc₂ hscan₂
    refine ⟨buf₂, hc₂, ?_⟩
    rw [hscan, hscan₂, List.append_assoc, ← unlines_append, matching, matching,
      ← List.filter_append, List.singleton_append, matching]

end Scan

/-! ## The outer loop -/

section Loop

variable {pattern text : List UInt8}

/-- The text consists of lines that are done, a line begun and the input that has not been
read. -/
structure Carried (pattern text : List UInt8) (done : List (List UInt8)) (c out rest : List UInt8) :
    Prop where
  text : text = unlines done ++ c ++ rest
  lines : ∀ l ∈ done, newline ∉ l ∧ l.length + 1 < BUFSIZE
  begun : newline ∉ c
  fits : c.length < BUFSIZE
  out : out = unlines (matching pattern done)

/-- A piece is read behind the line begun and cut into lines. -/
theorem Carried.next {done ls : List (List UInt8)} {c c' out piece rest : List UInt8}
    (h : Carried pattern text done c out (piece ++ rest)) (hcut : c ++ piece = unlines ls ++ c')
    (hls : ∀ l ∈ ls, newline ∉ l) (hc' : newline ∉ c') (hfits : (c ++ piece).length < BUFSIZE) :
    Carried pattern text (done ++ ls) c' (out ++ unlines (matching pattern ls)) rest := by
  rw [hcut, List.length_append] at hfits
  have htext := h.text
  refine ⟨?_, fun l hl => ?_, hc', by omega, ?_⟩
  · rw [htext, unlines_append, List.append_assoc (unlines done), ← List.append_assoc c, hcut]
    simp only [List.append_assoc]
  · rcases List.mem_append.mp hl with hl | hl
    · exact h.lines l hl
    · refine ⟨hls l hl, ?_⟩
      obtain ⟨before, after, rfl⟩ := List.append_of_mem hl
      rw [unlines_append, unlines_cons, List.length_append, List.length_append,
        List.length_cons] at hfits
      omega
  · rw [h.out, matching, matching, matching, List.filter_append, unlines_append]

/-- By induction on the input that is left: at the end it has been read, or the line begun
fills the buffer. -/
theorem carried_loop (more : Nat → Nat) (i : Nat) (hzero : 0 ∉ text) {buf : Nat → UInt8}
    {done : List (List UInt8)} {c out rest : List UInt8} (h : Carried pattern text done c out rest)
    (hbuf : Holds buf 0 c) :
    ∃ done' c', Carried pattern text done' c' (grepLoop pattern more i buf c.length out rest).out
        (grepLoop pattern more i buf c.length out rest).rest ∧
      ((grepLoop pattern more i buf c.length out rest).rest = [] ∨ c'.length + 1 = BUFSIZE) := by
  induction hn : rest.length using Nat.strong_induction_on generalizing i buf done c out rest with
  | _ n ih =>
    rw [grepLoop]
    dsimp only
    have hread : (read rest (BUFSIZE - c.length - 1) (more i)).1 ++
        (read rest (BUFSIZE - c.length - 1) (more i)).2 = rest := by
      simp [read, List.splitAt_eq]
    have hshort : (read rest (BUFSIZE - c.length - 1) (more i)).1.length ≤
        BUFSIZE - c.length - 1 := by
      simp only [read, List.splitAt_eq, List.length_take]
      omega
    by_cases hend : (read rest (BUFSIZE - c.length - 1) (more i)).1 = []
    · rw [if_pos hend]
      refine ⟨done, c, h, ?_⟩
      have hfits := h.fits
      simp only [read, List.splitAt_eq, List.take_eq_nil_iff] at hend
      rcases hend with hnone | hnil
      · right
        omega
      · exact .inl hnil
    · have hlt := read_lt hend
      rw [if_neg hend]
      generalize (read rest (BUFSIZE - c.length - 1) (more i)).1 = piece at hread hshort hend hlt ⊢
      generalize (read rest (BUFSIZE - c.length - 1) (more i)).2 = rest' at hread hlt ⊢
      subst hread
      have hfits := h.fits
      have hpos : 0 < piece.length := List.length_pos_iff.mpr hend
      obtain ⟨ls, c', hcut, hls, hc'⟩ := exists_lines (c ++ piece)
      have hlength : (c ++ piece).length = c.length + piece.length := List.length_append
      have hsplit : c.length + piece.length = (unlines ls).length + c'.length := by
        rw [← hlength, hcut, List.length_append]
      have hnext := h.next hcut hls hc' (by omega)
      -- the buffer holds the line begun and the piece, and a NUL
      have hbuf₁ : Holds (update (copyBytes buf (c.length + piece.length - piece.length)
          (fun a => piece.getD a 0) 0 piece.length) (c.length + piece.length) 0) 0
          (unlines ls ++ c' ++ [0]) := by
        rw [← hcut, holds_append, holds_append, hlength, holds_cons, Nat.add_sub_cancel]
        refine ⟨⟨hbuf.congr fun a _ ha => ?_, fun a ha => ?_⟩, ?_, holds_nil _ _⟩
        · rw [update_of_ne (by omega)]
          exact if_neg (by omega)
        · rw [update_of_ne (by omega), copyBytes, if_pos (by omega)]
          simp only [Nat.zero_add, Nat.add_sub_cancel_left, List.get_eq_getElem]
          rw [List.getD, List.getElem?_eq_getElem ha, Option.getD_some]
        · rw [Nat.zero_add]
          exact update_self ..
      have hnul : 0 ∉ unlines ls ++ c' := by
        rw [← hcut]
        intro hin
        apply hzero
        rw [h.text]
        simp only [List.mem_append] at hin ⊢
        rcases hin with hin | hin
        · exact .inl (.inr hin)
        · exact .inr (.inl hin)
      have hcount := length_le_unlines ls
      obtain ⟨buf₂, hc₂, hscan⟩ := scan_spec pattern out (show ls.length < BUFSIZE by omega)
        (by rw [List.length_append]; omega) hbuf₁ hls hc' hnul
      rw [hscan]
      dsimp only
      rw [if_pos (by omega), Nat.zero_add, memmove_eq]
      have hm : c.length + piece.length - (unlines ls).length = c'.length := by omega
      rw [hm]
      refine ih rest'.length (by omega) (i + 1) hnext (fun a ha => ?_) rfl
      rw [Nat.zero_add, copyBytes, if_pos (by omega), Nat.sub_zero]
      rw [Nat.zero_add] at hc₂
      exact hc₂ a ha

end Loop

/-! ## Whole runs -/

section Runs

variable {ls : List (List UInt8)} {buf : Nat → UInt8}

/-- At the end some of the lines are done, and the rest of the text has not been read, or
the line begun fills the buffer. -/
theorem carried_grep (pattern : List UInt8) (more : Nat → Nat)
    (hls : ∀ l ∈ ls, newline ∉ l ∧ 0 ∉ l) :
    ∃ done later c, ls = done ++ later ∧
    c ++ (grep pattern more buf (unlines ls)).rest = unlines later ∧
      Carried pattern (unlines ls) done c (grep pattern more buf (unlines ls)).out
        (grep pattern more buf (unlines ls)).rest ∧
      ((grep pattern more buf (unlines ls)).rest = [] ∨ c.length + 1 = BUFSIZE) := by
  have hnul : 0 ∉ unlines ls := by
    intro hin
    obtain ⟨k, hk, hin⟩ := List.mem_flatten.mp hin
    obtain ⟨l, hl, rfl⟩ := List.mem_map.mp hk
    rcases List.mem_append.mp hin with hin | hin
    · exact (hls l hl).2 hin
    · exact absurd (List.mem_singleton.mp hin) (by decide)
  have hstart : Carried pattern (unlines ls) [] [] [] (unlines ls) :=
    ⟨rfl, nofun, nofun, by decide, rfl⟩
  obtain ⟨done, c, hfinal, hend⟩ := carried_loop more 0 hnul hstart (holds_nil buf 0)
  obtain ⟨later, hsplit, hrest⟩ := exists_append_of_unlines (fun l hl => (hls l hl).1)
    (fun l hl => (hfinal.lines l hl).1) (by rw [← List.append_assoc]; exact hfinal.text.symm)
  exact ⟨done, later, c, hsplit, hrest, hfinal, hend⟩

/-- If everything has been read, all lines went through the buffer. -/
theorem fits_of_read (pattern : List UInt8) (more : Nat → Nat) (hls : ∀ l ∈ ls, newline ∉ l ∧ 0 ∉ l)
    (hread : (grep pattern more buf (unlines ls)).rest = []) :
    ∀ l ∈ ls, l.length + 1 < BUFSIZE := by
  obtain ⟨done, later, c, hsplit, hrest, hfinal, -⟩ := carried_grep pattern more hls
  rw [hread, List.append_nil] at hrest
  rw [eq_nil_of_unlines hfinal.begun hrest, List.append_nil] at hsplit
  intro l hl
  exact (hfinal.lines l (hsplit ▸ hl)).2

/-- For lines without NUL bytes, `grep` writes the lines that match and reads its whole input,
whatever the buffer holds at first and however the input is cut, if and only if each line with its
newline fits the buffer. -/
theorem grep_lines_iff (pattern : List UInt8) (more : Nat → Nat) (buf : Nat → UInt8)
    (ls : List (List UInt8)) (hls : ∀ l ∈ ls, newline ∉ l ∧ 0 ∉ l) :
    (grep pattern more buf (unlines ls)).out = unlines (ls.filter (matchRe pattern)) ∧
        (grep pattern more buf (unlines ls)).rest = [] ↔
      ∀ l ∈ ls, l.length + 1 < BUFSIZE := by
  constructor
  · rintro ⟨-, hread⟩
    exact fits_of_read pattern more hls hread
  · intro hfit
    obtain ⟨done, later, c, hsplit, hrest, hfinal, hend⟩ := carried_grep pattern more hls
    have hread : (grep pattern more buf (unlines ls)).rest = [] := by
      rcases hend with hread | hfull
      · exact hread
      · -- a line that fills the buffer would be too long
        exfalso
        cases later with
        | nil =>
          obtain ⟨rfl, -⟩ := List.append_eq_nil_iff.mp hrest
          exact absurd hfull (by decide)
        | cons l later =>
          rw [unlines_cons] at hrest
          have hle := begun_le hfinal.begun hrest
          have hlt := hfit l (by rw [hsplit]; exact List.mem_append_right _ (List.mem_cons_self ..))
          omega
    refine ⟨?_, hread⟩
    rw [hread, List.append_nil] at hrest
    rw [eq_nil_of_unlines hfinal.begun hrest, List.append_nil] at hsplit
    rw [hfinal.out, hsplit, matching]

/-- Two lines, read byte by byte into a buffer full of letters. -/
theorem grep_lines_iff_twoLines :
    (grep [97] (fun _ => 0) (fun _ => 97) (unlines [[97], [98]])).out =
        unlines ([[97], [98]].filter (matchRe [97])) ∧
      (grep [97] (fun _ => 0) (fun _ => 97) (unlines [[97], [98]])).rest = [] :=
  (grep_lines_iff [97] (fun _ => 0) (fun _ => 97) [[97], [98]] (by decide)).mpr (by decide)

/-- A line of 1023 letters is not read to its end, although it matches. -/
theorem grep_long_line :
    newline ∉ List.replicate 1023 (97 : UInt8) ∧ 0 ∉ List.replicate 1023 (97 : UInt8) ∧
    (grep [97] (fun _ => 1023) (fun _ => 0) (unlines [List.replicate 1023 97])).rest ≠ [] := by
  have hletters : ∀ b : UInt8, b ≠ 97 → b ∉ List.replicate 1023 (97 : UInt8) := by
    intro b hb hin
    exact hb (List.eq_of_mem_replicate hin)
  refine ⟨hletters _ (by decide), hletters _ (by decide), fun hread => ?_⟩
  have hfit := fits_of_read [97] (fun _ => 1023) (fun l hl => by
    rw [List.mem_singleton.mp hl]
    exact ⟨hletters _ (by decide), hletters _ (by decide)⟩) hread _ (List.mem_singleton_self _)
  rw [List.length_replicate] at hfit
  exact absurd hfit (by decide)

end Runs

end Xv6.Grep
