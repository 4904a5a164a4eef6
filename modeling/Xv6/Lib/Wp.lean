import Mathlib.Init

/-!
# Programs with a state and failures

A program reads and changes a state and may stop with a failure.  `wp x E Q s`
says what a run of `x` from `s` does: it returns with `Q`, or it fails with `E`.
Taking `E` to be false says that the program does not fail; a specification
that holds for every `E` can be used inside programs that may fail elsewhere.

* `Prog`, `reads`, `updates`: programs and the two ways to touch the state.
* `wp` with its rules `wp_pure`, `wp_bind`, `wp_throw`, `wp_reads`, `wp_updates`
  and the rule of consequence `wp.mono`.
* `forRange`, `untilSome`, `foldUntil`: counting loops, the second with an early
  exit, the third with an accumulator too, and their invariant rules
  `wp_forRange`, `wp_untilSome`, `wp_foldUntil`.
-/

namespace Xv6.Lib.Wp

variable {ε σ α β γ : Type}

/-- Programs over the state `σ` that may fail with an `ε`. -/
abbrev Prog (ε σ α : Type) := StateT σ (Except ε) α

/-- Read something of the state. -/
def reads (f : σ → α) : Prog ε σ α := fun s => .ok (f s, s)

/-- Change the state. -/
def updates (f : σ → σ) : Prog ε σ Unit := fun s => .ok ((), f s)

/-- A run from `s` returns with `Q` or fails with `E`. -/
@[irreducible] def wp (x : Prog ε σ α) (E : ε → Prop) (Q : α → σ → Prop) (s : σ) : Prop :=
  match x s with
  | .ok (a, t) => Q a t
  | .error e => E e

section Rules

variable {E : ε → Prop} {Q : α → σ → Prop} {s : σ}

@[simp] theorem wp_pure (a : α) : wp (pure a : Prog ε σ α) E Q s ↔ Q a s := by
  unfold wp
  exact Iff.rfl

@[simp] theorem wp_throw (e : ε) : wp (throw e : Prog ε σ α) E Q s ↔ E e := by
  unfold wp
  exact Iff.rfl

@[simp] theorem wp_reads (f : σ → α) : wp (reads f : Prog ε σ α) E Q s ↔ Q (f s) s := by
  unfold wp
  exact Iff.rfl

@[simp] theorem wp_updates {Q : Unit → σ → Prop} (f : σ → σ) :
    wp (updates f : Prog ε σ Unit) E Q s ↔ Q () (f s) := by
  unfold wp
  exact Iff.rfl

@[simp] theorem wp_bind {x : Prog ε σ β} {f : β → Prog ε σ α} :
    wp (x >>= f) E Q s ↔ wp x E (fun b t => wp (f b) E Q t) s := by
  unfold wp
  show (match (x s >>= fun p => f p.1 p.2) with | .ok (a, t) => Q a t | .error e => E e) ↔ _
  cases x s with
  | error e => exact Iff.rfl
  | ok p => exact Iff.rfl

/-- The rule of consequence. -/
theorem wp.mono {Q' : α → σ → Prop} {x : Prog ε σ α} (h : wp x E Q s)
    (hQ : ∀ a t, Q a t → Q' a t) : wp x E Q' s := by
  unfold wp at h ⊢
  cases hx : x s with
  | error e => simpa [hx] using h
  | ok p =>
    rw [hx] at h
    exact hQ _ _ h

theorem wp.mono_fail {E' : ε → Prop} {x : Prog ε σ α} (h : wp x E Q s)
    (hE : ∀ e, E e → E' e) : wp x E' Q s := by
  unfold wp at h ⊢
  cases hx : x s with
  | error e =>
    rw [hx] at h
    exact hE e h
  | ok p => simpa [hx] using h

/-- Two things that are known of a program. -/
theorem wp.and {E' : ε → Prop} {Q' : α → σ → Prop} {x : Prog ε σ α} (h : wp x E Q s)
    (h' : wp x E' Q' s) :
    wp x (fun e => E e ∧ E' e) (fun a t => Q a t ∧ Q' a t) s := by
  unfold wp at h h' ⊢
  cases hx : x s with
  | error e =>
    rw [hx] at h h'
    exact ⟨h, h'⟩
  | ok p =>
    rw [hx] at h h'
    exact ⟨h, h'⟩

/-- What a run that returns has reached. -/
theorem wp.of_ok {x : Prog ε σ α} (h : wp x E Q s) {a : α} {t : σ} (hx : x s = .ok (a, t)) :
    Q a t := by
  unfold wp at h
  rwa [hx] at h

/-- The failure of a run that fails is an allowed one. -/
theorem wp.of_error {x : Prog ε σ α} (h : wp x E Q s) {e : ε} (hx : x s = .error e) : E e := by
  unfold wp at h
  rwa [hx] at h

/-- A program with no allowed failure returns. -/
theorem wp.returns {x : Prog ε σ α} (h : wp x (fun _ => False) Q s) :
    ∃ a t, x s = .ok (a, t) ∧ Q a t := by
  unfold wp at h
  cases hx : x s with
  | error e =>
    rw [hx] at h
    exact h.elim
  | ok p =>
    rw [hx] at h
    exact ⟨p.1, p.2, rfl, h⟩

end Rules

/-! ## Counting loops -/

/-- `for (i = 0; i < n; i++) body(i);` -/
def forRange (body : Nat → Prog ε σ Unit) : Nat → Prog ε σ Unit
  | 0 => pure ()
  | n + 1 => do
    forRange body n
    body n

/-- `for (i = 0; i < n; i++) body(i);` where `some r` returns `r` from the loop. -/
def untilSome (body : Nat → Prog ε σ (Option β)) : Nat → Prog ε σ (Option β)
  | 0 => pure none
  | n + 1 => do
    match ← untilSome body n with
    | some r => pure (some r)
    | none => body n

/-- `for (i = 0; i < n; i++) b = body(i, b);` where `error c` leaves the loop
with `c`. -/
def foldUntil (body : Nat → β → Prog ε σ (Except γ β)) : Nat → β → Prog ε σ (Except γ β)
  | 0, b => pure (.ok b)
  | n + 1, b => do
    match ← foldUntil body n b with
    | .error c => pure (.error c)
    | .ok b' => body n b'

theorem wp_forRange {E : ε → Prop} {body : Nat → Prog ε σ Unit} {I : Nat → σ → Prop} {n : Nat}
    {s : σ} (h0 : I 0 s)
    (hstep : ∀ i, i < n → ∀ t, I i t → wp (body i) E (fun _ => I (i + 1)) t) :
    wp (forRange body n) E (fun _ => I n) s := by
  induction n with
  | zero => exact wp_pure _ |>.mpr h0
  | succ n ih =>
    simp only [forRange, wp_bind]
    refine (ih fun i hi => hstep i (by omega)).mono fun _ t ht => ?_
    exact hstep n (by omega) t ht

/-- The loop runs on with `I` or leaves early with `R`. -/
theorem wp_untilSome {E : ε → Prop} {body : Nat → Prog ε σ (Option β)} {I : Nat → σ → Prop}
    {R : β → σ → Prop} {n : Nat} {s : σ} (h0 : I 0 s)
    (hstep : ∀ i, i < n → ∀ t, I i t →
      wp (body i) E (fun r u => match r with | none => I (i + 1) u | some b => R b u) t) :
    wp (untilSome body n) E (fun r u => match r with | none => I n u | some b => R b u) s := by
  induction n with
  | zero => exact wp_pure _ |>.mpr h0
  | succ n ih =>
    simp only [untilSome, wp_bind]
    refine (ih fun i hi => hstep i (by omega)).mono fun r t ht => ?_
    cases r with
    | none => exact hstep n (by omega) t ht
    | some b => exact wp_pure _ |>.mpr ht

/-- The loop runs on with `I` or leaves early with `R`. -/
theorem wp_foldUntil {E : ε → Prop} {body : Nat → β → Prog ε σ (Except γ β)}
    {I : Nat → β → σ → Prop} {R : γ → σ → Prop} {n : Nat} {b : β} {s : σ} (h0 : I 0 b s)
    (hstep : ∀ i, i < n → ∀ b t, I i b t →
      wp (body i b) E (fun r u => match r with | .ok b' => I (i + 1) b' u | .error c => R c u) t) :
    wp (foldUntil body n b) E
      (fun r u => match r with | .ok b' => I n b' u | .error c => R c u) s := by
  induction n with
  | zero => exact wp_pure _ |>.mpr h0
  | succ n ih =>
    simp only [foldUntil, wp_bind]
    refine (ih fun i hi => hstep i (by omega)).mono fun r t ht => ?_
    cases r with
    | ok b' => exact hstep n (by omega) b' t ht
    | error c => exact wp_pure _ |>.mpr ht

end Xv6.Lib.Wp
