import Mathlib.Logic.Function.Basic

/-!
# Devices that can crash between writes

A device stores a value at every address and performs single writes atomically
and in issue order.  `Device` keeps, beside the current contents, the writes
issued since it was started, so that a crash is a prefix of that list.

* `applyWrites`: the contents after a list of writes.
* `Device.crash k`: the contents found after a crash that let through the first
  `k` writes.
* `Safe P`: whatever the crash point `k`, the contents found satisfy `P k`.
  `Safe.write` extends this by one write, so a program is proved crash safe by
  looking at its writes one at a time.
-/

namespace Xv6.Lib.Crash

variable {A V : Type} [DecidableEq A]

/-- The contents after the writes `ws`, in order. -/
def applyWrites (d : A → V) (ws : List (A × V)) : A → V :=
  ws.foldl (fun d w => Function.update d w.1 w.2) d

@[simp] theorem applyWrites_nil (d : A → V) : applyWrites d [] = d := rfl

/-- A device that was started with the contents `init`. -/
structure Device (A V : Type) where
  init : A → V
  issued : List (A × V) := []

/-- The current contents. -/
def Device.now (dev : Device A V) : A → V :=
  applyWrites dev.init dev.issued

/-- Issue one write. -/
def Device.write (dev : Device A V) (a : A) (v : V) : Device A V :=
  { dev with issued := dev.issued ++ [(a, v)] }

/-- The contents found after a crash that let through the first `k` writes. -/
def Device.crash (dev : Device A V) (k : Nat) : A → V :=
  applyWrites dev.init (dev.issued.take k)

@[simp] theorem Device.now_start (d : A → V) : (Device.now { init := d }) = d := rfl

@[simp] theorem Device.now_write (dev : Device A V) (a : A) (v : V) :
    (dev.write a v).now = Function.update dev.now a v := by
  simp [Device.now, Device.write, applyWrites]

omit [DecidableEq A] in
@[simp] theorem Device.length_issued_write (dev : Device A V) (a : A) (v : V) :
    (dev.write a v).issued.length = dev.issued.length + 1 := by
  simp [Device.write]

theorem Device.crash_of_le {dev : Device A V} {k : Nat} (h : dev.issued.length ≤ k) :
    dev.crash k = dev.now := by
  rw [Device.crash, List.take_of_length_le h, Device.now]

theorem Device.crash_write_of_le {dev : Device A V} {a : A} {v : V} {k : Nat}
    (h : k ≤ dev.issued.length) : (dev.write a v).crash k = dev.crash k := by
  simp only [Device.crash, Device.write]
  rw [List.take_append_of_le_length h]

/-- Every crash after `k` of the writes issued so far leaves contents in `P k`. -/
def Safe (P : Nat → (A → V) → Prop) (dev : Device A V) : Prop :=
  ∀ k ≤ dev.issued.length, P k (dev.crash k)

variable {P : Nat → (A → V) → Prop} {dev : Device A V}

/-- A crash after the last write finds what the last write left. -/
theorem Safe.crash (h : Safe P dev) (k : Nat) : P (min k dev.issued.length) (dev.crash k) := by
  rcases Nat.le_total k dev.issued.length with hk | hk
  · rw [Nat.min_eq_left hk]
    exact h k hk
  · have hlast := h _ (Nat.le_refl _)
    rw [Nat.min_eq_right hk, Device.crash_of_le hk, ← Device.crash_of_le (Nat.le_refl _)]
    exact hlast

theorem Safe.start {d : A → V} (h : P 0 d) : Safe P { init := d } := by
  intro k hk
  cases Nat.le_zero.mp hk
  exact h

theorem Safe.write {a : A} {v : V} (h : Safe P dev)
    (hnew : P (dev.issued.length + 1) (Function.update dev.now a v)) : Safe P (dev.write a v) := by
  intro k hk
  rw [Device.length_issued_write] at hk
  rcases Nat.lt_or_ge dev.issued.length k with hlast | hk
  · cases Nat.le_antisymm hk hlast
    rw [Device.crash_of_le (by simp), Device.now_write]
    exact hnew
  · rw [Device.crash_write_of_le hk]
    exact h k hk

end Xv6.Lib.Crash
