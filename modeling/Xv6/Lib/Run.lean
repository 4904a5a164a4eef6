import Mathlib.Init

/-!
# Runs of a step function

A system is given by a step function `step : σ → α → Option σ`: the action `a`
is enabled in `s` when `step s a` is some state.  A run is a start state with a
list of actions, so it can be evaluated.

* `exec` runs a list of actions.
* `StepsMeet P` says that every step of a run satisfies `P` in the state before
  it, and `StatesMeet P` that every state of the run satisfies `P`.
* `inv_of_exec` is the invariant rule: what every step that meets `P` preserves
  holds at the end of every run whose steps meet `P`; `inv_of_run` is the rule
  without a condition.
* `runCheck` evaluates a run once and tests its steps and its end.
* `trace` and `simulation` are for a second system that follows the first one:
  the label of a step lists the steps it takes.
-/

namespace Xv6.Lib.Run

variable {σ α : Type} (step : σ → α → Option σ)

/-- The state after a list of actions, if all of them are enabled. -/
def exec : σ → List α → Option σ
  | s, [] => some s
  | s, a :: as => (step s a).bind fun t => exec t as

/-- Every step of the run satisfies `P`. -/
def StepsMeet (P : σ → α → Prop) : σ → List α → Prop
  | _, [] => True
  | s, a :: as => P s a ∧ ∀ t, step s a = some t → StepsMeet P t as

/-- Every state of the run satisfies `P`. -/
def StatesMeet (P : σ → Prop) : σ → List α → Prop
  | s, [] => P s
  | s, a :: as => P s ∧ ∀ t, step s a = some t → StatesMeet P t as

instance decidableStepsMeet (P : σ → α → Prop) [∀ s a, Decidable (P s a)] :
    ∀ (s : σ) (as : List α), Decidable (StepsMeet step P s as)
  | _, [] => .isTrue trivial
  | s, a :: as =>
    match h : step s a with
    | none => decidable_of_iff (P s a) (by simp [StepsMeet, h])
    | some t =>
      have := decidableStepsMeet P t as
      decidable_of_iff (P s a ∧ StepsMeet step P t as) (by simp [StepsMeet, h])

instance decidableStatesMeet (P : σ → Prop) [DecidablePred P] :
    ∀ (s : σ) (as : List α), Decidable (StatesMeet step P s as)
  | s, [] => inferInstanceAs (Decidable (P s))
  | s, a :: as =>
    match h : step s a with
    | none => decidable_of_iff (P s) (by simp [StatesMeet, h])
    | some t =>
      have := decidableStatesMeet P t as
      decidable_of_iff (P s ∧ StatesMeet step P t as) (by simp [StatesMeet, h])

/-- A run is taken to its end, with a test before each step and one at the end. -/
def runCheck (P : σ → α → Bool) (Q : σ → Bool) : σ → List α → Bool
  | s, [] => Q s
  | s, a :: as =>
    P s a && match step s a with
      | some t => runCheck P Q t as
      | none => false

/-- The abstract actions of a run whose steps are labelled with them. -/
def trace {β : Type} (label : σ → α → List β) : σ → List α → List β
  | _, [] => []
  | s, a :: as =>
    label s a ++ match step s a with
      | some t => trace label t as
      | none => []

variable {step}

theorem exec_cons_eq_some {s t : σ} {a : α} {as : List α} (h : exec step s (a :: as) = some t) :
    ∃ u, step s a = some u ∧ exec step u as = some t :=
  Option.bind_eq_some_iff.mp h

/-- The conditions on the steps of a run split with the run. -/
theorem StepsMeet.append {P : σ → α → Prop} {s u : σ} {as bs : List α}
    (h : StepsMeet step P s (as ++ bs)) (hu : exec step s as = some u) :
    StepsMeet step P s as ∧ StepsMeet step P u bs := by
  induction as generalizing s with
  | nil =>
    cases hu
    exact ⟨trivial, h⟩
  | cons a as ih =>
    obtain ⟨v, hv, hrest⟩ := exec_cons_eq_some hu
    obtain ⟨hP, hall⟩ := h
    have hsplit := ih (hall v hv) hrest
    refine ⟨⟨hP, fun t ht => ?_⟩, hsplit.2⟩
    rw [hv, Option.some.injEq] at ht
    exact ht ▸ hsplit.1

theorem StatesMeet.head {P : σ → Prop} {s : σ} {as : List α} (h : StatesMeet step P s as) :
    P s := by
  cases as with
  | nil => exact h
  | cons a as => exact h.1

/-- The invariant rule, for runs whose steps all meet `P`. -/
theorem inv_of_exec {P : σ → α → Prop} {I : σ → Prop}
    (hstep : ∀ s a t, I s → P s a → step s a = some t → I t) {s t : σ} {as : List α}
    (hs : I s) (hP : StepsMeet step P s as) (ht : exec step s as = some t) : I t := by
  induction as generalizing s with
  | nil =>
    cases ht
    exact hs
  | cons a as ih =>
    obtain ⟨u, hu, hrest⟩ := exec_cons_eq_some ht
    exact ih (hstep s a u hs hP.1 hu) (hP.2 u hu) hrest

/-- A condition on the actions alone. -/
theorem stepsMeet_of_forall {P : α → Prop} {as : List α} (h : ∀ a ∈ as, P a) (s : σ) :
    StepsMeet step (fun _ => P) s as := by
  induction as generalizing s with
  | nil => exact trivial
  | cons a as ih =>
    obtain ⟨ha, has⟩ := List.forall_mem_cons.mp h
    exact ⟨ha, fun t _ => ih has t⟩

/-- The invariant rule, for all runs. -/
theorem inv_of_run {I : σ → Prop} (hstep : ∀ s a t, I s → step s a = some t → I t) {s t : σ}
    {as : List α} (hs : I s) (ht : exec step s as = some t) : I t :=
  inv_of_exec (fun s a t h _ => hstep s a t h) hs
    (stepsMeet_of_forall (P := fun _ => True) (fun _ _ => trivial) s) ht

theorem of_runCheck {P : σ → α → Bool} {Q : σ → Bool} {s : σ} {as : List α}
    (h : runCheck step P Q s as = true) :
    StepsMeet step (fun s a => P s a = true) s as ∧ ∃ t, exec step s as = some t ∧ Q t = true := by
  induction as generalizing s with
  | nil => exact ⟨trivial, s, rfl, h⟩
  | cons a as ih =>
    obtain ⟨hP, h⟩ := Bool.and_eq_true_iff.mp h
    cases hstep : step s a with
    | none =>
      rw [hstep] at h
      cases h
    | some u =>
      rw [hstep] at h
      obtain ⟨hmeet, t, hexec, hQ⟩ := ih h
      refine ⟨⟨hP, fun v hv => ?_⟩, t, ?_, hQ⟩
      · rw [hstep] at hv
        cases hv
        exact hmeet
      · rw [exec, hstep]
        exact hexec

theorem StepsMeet.mono {P P' : σ → α → Prop} (hP : ∀ s a, P s a → P' s a) {s : σ} {as : List α}
    (h : StepsMeet step P s as) : StepsMeet step P' s as := by
  induction as generalizing s with
  | nil => exact trivial
  | cons a as ih => exact ⟨hP s a h.1, fun t ht => ih (h.2 t ht)⟩

theorem exec_append_eq (s : σ) (as bs : List α) :
    exec step s (as ++ bs) = (exec step s as).bind fun t => exec step t bs := by
  induction as generalizing s with
  | nil => rfl
  | cons a as ih =>
    simp only [List.cons_append, exec, Option.bind_assoc]
    exact congrArg _ (funext fun t => ih t)

/-- The simulation rule: a relation that every step keeps, with the abstract
actions of its label, relates the ends of a run and of its trace. -/
theorem simulation {τ β : Type} {next : τ → β → Option τ} {label : σ → α → List β}
    {R : σ → τ → Prop}
    (hstep : ∀ s a s' g, R s g → step s a = some s' →
      ∃ g', exec next g (label s a) = some g' ∧ R s' g')
    {s s' : σ} {g : τ} {as : List α} (h : R s g) (hrun : exec step s as = some s') :
    ∃ g', exec next g (trace step label s as) = some g' ∧ R s' g' := by
  induction as generalizing s g with
  | nil =>
    cases hrun
    exact ⟨g, rfl, h⟩
  | cons a as ih =>
    obtain ⟨u, hu, hrest⟩ := exec_cons_eq_some hrun
    obtain ⟨g₁, hlabel, hR⟩ := hstep s a u g h hu
    obtain ⟨g₂, htrace, hR'⟩ := ih hR hrest
    refine ⟨g₂, ?_, hR'⟩
    rw [trace, hu, exec_append_eq, hlabel]
    exact htrace

/-- A guarded step was taken. -/
theorem of_guard {p : Prop} [Decidable p] {s t : σ} (h : (if p then some s else none) = some t) :
    p ∧ s = t := by
  split at h
  · next hp => exact ⟨hp, Option.some.inj h⟩
  · cases h

/-- A computation that may fail returned. -/
theorem bind_eq_ok {ε β γ : Type} {x : Except ε β} {f : β → Except ε γ} {c : γ}
    (h : x >>= f = .ok c) : ∃ b, x = .ok b ∧ f b = .ok c := by
  cases x with
  | error e => cases h
  | ok b => exact ⟨b, rfl, h⟩

theorem bind_eq_error {ε β γ : Type} {x : Except ε β} {f : β → Except ε γ} {e : ε}
    (h : x >>= f = .error e) : x = .error e ∨ ∃ b, x = .ok b ∧ f b = .error e := by
  cases x with
  | error e' =>
    cases h
    exact .inl rfl
  | ok b => exact .inr ⟨b, rfl, h⟩

end Xv6.Lib.Run
