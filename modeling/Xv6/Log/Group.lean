import Xv6.Disk.Block

/-!
# Group commit

What the log is for, without buffers, blocks of the log area or a disk that
writes one block at a time: sections write blocks, and when the last running
section ends, everything written since the last commit becomes durable at once.

* `Contents`: the durable contents and the writes since the last commit, the
  latest first; `Contents.current` is what a section sees.
* `Group`: the contents, the running sections and the thread that commits.
* `Event`, `Group.step`: sections begin, write and end; the thread that ended the
  last one commits.
-/

namespace Xv6.Log

/-- The durable contents with the writes since the last commit. -/
structure Contents where
  writes : List (Nat × Block) := []
  durable : Disk

/-- A block with its latest content. -/
def Contents.current (g : Contents) (b : Nat) : Block :=
  (g.writes.lookup b).getD (g.durable b)

structure Group extends Contents where
  running : List Nat := []
  committing : Option Nat := none

inductive Event where
  | beginOp (t : Nat)
  | logWrite (t blockno : Nat) (data : Block)
  | endOp (t : Nat)
  /-- The commit point. -/
  | commit (t : Nat)
  | finish (t : Nat)

/-- One step.  A commit takes all writes of the sections that ended since the
last one, when no section runs. -/
def Group.step (g : Group) : Event → Option Group
  | .beginOp t =>
    if t ∉ g.running ∧ g.committing = none then some { g with running := t :: g.running } else none
  | .logWrite t blockno data =>
    if t ∈ g.running ∧ g.committing = none then
      some { g with writes := (blockno, data) :: g.writes }
    else none
  | .endOp t =>
    if t ∈ g.running ∧ g.committing = none then
      some { g with
        running := g.running.erase t
        committing := if g.running.erase t = [] then some t else none }
    else none
  | .commit t =>
    if g.running = [] ∧ g.committing = some t then
      some { g with durable := g.current, writes := [] }
    else none
  | .finish t =>
    if g.writes = [] ∧ g.committing = some t then some { g with committing := none } else none

section Lemmas

variable {g : Contents} {b : Nat} {data : Block}

theorem Contents.current_write (g : Contents) (b : Nat) (data : Block) :
    ({ g with writes := (b, data) :: g.writes } : Contents).current =
    Function.update g.current b data := by
  funext c
  by_cases hc : c = b
  · subst hc
    rw [Function.update_self]
    simp [Contents.current]
  · rw [Function.update_of_ne hc]
    have hne : (c == b) = false := beq_eq_false_iff_ne.mpr hc
    simp [Contents.current, List.lookup_cons, hne]

/-- A block that was not written is as durable. -/
theorem Contents.current_of_not_mem (hb : b ∉ g.writes.map Prod.fst) :
    g.current b = g.durable b := by
  have hnone : g.writes.lookup b = none := by
    rw [List.lookup_eq_none_iff]
    intro p hp
    rw [bne_iff_ne]
    intro heq
    exact hb (List.mem_map.mpr ⟨p, hp, heq.symm⟩)
  rw [Contents.current, hnone, Option.getD_none]

end Lemmas

end Xv6.Log
