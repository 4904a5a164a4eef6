import Mathlib.Data.List.Chain

/-!
# Linked lists

A linked list in memory is a function `next` from a node to the one it points
to.  A path through it is a list of nodes.

* `Links next l`: every node of `l` points to the one after it.
* `Links.append`, `Links.congr`: paths compose, and a path reads the pointers of
  all its nodes but the last; `Links.replaceHead` gives it another first node.
* `Ring next a l`: the circular list through `a` whose other nodes are `l`;
  `Ring.rotate` starts it at another node and `Ring.suffix` ends it at `a`.
-/

namespace Xv6.Lib.Linked

variable {α : Type} {next next' : α → α}

/-- Every node of `l` points to the one after it. -/
def Links (next : α → α) (l : List α) : Prop :=
  l.IsChain fun x y => next x = y

theorem links_singleton (x : α) : Links next [x] :=
  List.IsChain.singleton x

theorem links_cons_cons {x y : α} {l : List α} :
    Links next (x :: y :: l) ↔ next x = y ∧ Links next (y :: l) :=
  List.isChain_cons_cons

/-- The links of two paths with one node in common. -/
theorem Links.append {u v : List α} {x : α} :
    Links next (u ++ x :: v) ↔ Links next (u ++ [x]) ∧ Links next (x :: v) :=
  List.isChain_split

/-- A path reads the pointers of all its nodes but the last. -/
theorem Links.congr {u : List α} {x : α} (h : Links next (u ++ [x]))
    (heq : ∀ y ∈ u, next' y = next y) : Links next' (u ++ [x]) := by
  induction u with
  | nil => exact links_singleton x
  | cons a u ih =>
    obtain ⟨b, l, hl⟩ : ∃ b l, u ++ [x] = b :: l := List.exists_cons_of_ne_nil (by simp)
    rw [List.cons_append, hl] at h ⊢
    rw [hl] at ih
    obtain ⟨hab, hrest⟩ := links_cons_cons.mp h
    refine links_cons_cons.mpr ⟨?_, ih hrest fun y hy => heq y (List.mem_cons_of_mem a hy)⟩
    rw [heq a List.mem_cons_self]
    exact hab

/-- Another node takes the place of the first one. -/
theorem Links.replaceHead {x y z : α} {l : List α} (h : Links next (x :: l ++ [z]))
    (hy : next' y = next x) (heq : ∀ w ∈ l, next' w = next w) : Links next' (y :: l ++ [z]) := by
  cases l with
  | nil => exact links_cons_cons.mpr ⟨hy.trans (links_cons_cons.mp h).1, links_singleton z⟩
  | cons a l =>
    obtain ⟨hxa, hrest⟩ := links_cons_cons.mp h
    exact links_cons_cons.mpr ⟨hy.trans hxa, Links.congr (u := a :: l) hrest heq⟩

/-- The circular list through `a` and then the nodes of `l`. -/
def Ring (next : α → α) (a : α) (l : List α) : Prop :=
  Links next (a :: l ++ [a])

theorem ring_nil {a : α} (h : next a = a) : Ring next a [] :=
  links_cons_cons.mpr ⟨h, links_singleton a⟩

variable {a x : α} {l u v : List α}

/-- The path from a node of a circular list back to `a`. -/
theorem Ring.suffix (h : Ring next a l) (hl : a :: l = u ++ x :: v) :
    Links next (x :: v ++ [a]) := by
  rw [Ring, hl, List.append_assoc] at h
  exact (Links.append.mp h).2

/-- The path from `a` to a node of a circular list. -/
theorem Ring.initial (h : Ring next a l) (hl : a :: l = u ++ x :: v) :
    Links next (u ++ [x]) := by
  rw [Ring, hl, List.append_assoc] at h
  exact (Links.append.mp h).1

/-- A circular list can be read from each of its nodes. -/
theorem Ring.rotate (h : Ring next a l) (hl : a :: l = u ++ x :: v) : Ring next x (v ++ u) := by
  have hback := h.suffix hl
  have hfront := h.initial hl
  cases u with
  | nil =>
    obtain ⟨rfl, rfl⟩ := List.cons_eq_cons.mp hl
    rw [List.append_nil]
    exact h
  | cons b u =>
    obtain rfl : a = b := (List.cons_eq_cons.mp hl).1
    have hjoin := Links.append.mpr ⟨hback, hfront⟩
    rw [Ring]
    simpa using hjoin

end Xv6.Lib.Linked
