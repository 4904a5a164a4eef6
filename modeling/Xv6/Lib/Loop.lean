import Mathlib.Init

/-!
# Counting loops

`forUpTo f n s` is the loop `for (i = 0; i < n; i++) s = f(i, s);`.  The rule
`forUpTo_inv` carries an invariant that may mention the loop counter through
the whole loop.
-/

namespace Xv6.Lib.Loop

variable {σ : Type} (f : Nat → σ → σ)

/-- The state after `n` iterations of `f` with the counter from `0`. -/
def forUpTo : Nat → σ → σ
  | 0, s => s
  | n + 1, s => f n (forUpTo n s)

variable {f}

/-- The invariant rule of the counting loop. -/
theorem forUpTo_inv {I : Nat → σ → Prop} {n : Nat} {s : σ} (h0 : I 0 s)
    (hstep : ∀ i, i < n → ∀ t, I i t → I (i + 1) (f i t)) : I n (forUpTo f n s) := by
  induction n with
  | zero => exact h0
  | succ n ih =>
    exact hstep n (Nat.lt_succ_self n) _ (ih fun i hi => hstep i (Nat.lt_succ_of_lt hi))

end Xv6.Lib.Loop
