import Mathlib.Data.List.Basic
import Mathlib.Logic.Function.Basic

/-!
# Doubly linked rings

Nodes of a type `α` with a `next` and a `prev` pointer each.  A ring starts at a
head node `h`, runs through the nodes of a list and closes at `h`.

* `Links`, `Path`, `IsRing`: the pointers, a stretch of a ring, a whole ring.
* `Links.unlink`, `Links.insertFront`: the two pieces of pointer surgery, with
  `IsRing.unlink` and `IsRing.insertFront`.
* `walk`: a loop that follows pointers until it is back at the head or has found
  a node; on a ring it is `List.find?` (`IsRing.walk_next`, `IsRing.walk_prev`).
-/

namespace Xv6.Lib.Ring

open Function (update update_of_ne update_self)

/-- The pointers of all nodes. -/
structure Links (α : Type) where
  next : α → α
  prev : α → α

variable {α : Type} {k k' : Links α} {a b c h : α} {l l₁ l₂ : List α}

/-- Following `next` from `a` visits the nodes of `l` and then `b`, and `prev`
leads back. -/
def Path (k : Links α) : α → List α → α → Prop
  | a, [], b => k.next a = b ∧ k.prev b = a
  | a, x :: l, b => (k.next a = x ∧ k.prev x = a) ∧ Path k x l b

/-- The nodes of the ring of `h` are those of `l`, in the order of `next`. -/
structure IsRing (k : Links α) (h : α) (l : List α) : Prop where
  path : Path k h l h
  nodup : (h :: l).Nodup

/-! ## Stretches -/

theorem path_append : Path k a (l₁ ++ b :: l₂) c ↔ Path k a l₁ b ∧ Path k b l₂ c := by
  induction l₁ generalizing a with
  | nil => exact Iff.rfl
  | cons x l₁ ih =>
    show (k.next a = x ∧ k.prev x = a) ∧ Path k x (l₁ ++ b :: l₂) c ↔
      ((k.next a = x ∧ k.prev x = a) ∧ Path k x l₁ b) ∧ Path k b l₂ c
    rw [ih, and_assoc (a := k.next a = x ∧ k.prev x = a)]

/-- The start of a stretch points to its first node. -/
theorem Path.next_eq (hp : Path k a l b) : k.next a = l.headD b := by
  cases l with
  | nil => exact hp.1
  | cons x l => exact hp.1.1

theorem Path.prev_mem (hp : Path k a l b) : k.prev b ∈ a :: l := by
  induction l generalizing a with
  | nil =>
    rw [hp.2]
    exact List.mem_cons_self
  | cons x l ih => exact List.mem_cons_of_mem a (ih hp.2)

theorem Path.congr (hp : Path k a l b) (hnext : ∀ x ∈ a :: l, k'.next x = k.next x)
    (hprev : ∀ x ∈ l ++ [b], k'.prev x = k.prev x) : Path k' a l b := by
  induction l generalizing a with
  | nil =>
    refine ⟨?_, ?_⟩
    · rw [hnext a List.mem_cons_self]
      exact hp.1
    · rw [hprev b List.mem_cons_self]
      exact hp.2
  | cons x l ih =>
    refine ⟨⟨?_, ?_⟩, ih hp.2 (fun y hy => hnext y (List.mem_cons_of_mem a hy))
      fun y hy => hprev y (List.mem_cons_of_mem x hy)⟩
    · rw [hnext a List.mem_cons_self]
      exact hp.1.1
    · rw [hprev x List.mem_cons_self]
      exact hp.1.2

/-- The last node of a stretch is made to point to `c` instead. -/
theorem Path.retarget (hp : Path k a l b) (hnodup : (a :: l).Nodup)
    (hlast : k'.next (k.prev b) = c) (hback : k'.prev c = k.prev b)
    (hnext : ∀ x ∈ a :: l, x ≠ k.prev b → k'.next x = k.next x)
    (hprev : ∀ x ∈ l, k'.prev x = k.prev x) : Path k' a l c := by
  induction l generalizing a with
  | nil =>
    rw [hp.2] at hlast hback
    exact ⟨hlast, hback⟩
  | cons x l ih =>
    have hne : a ≠ k.prev b := by
      intro heq
      exact (List.nodup_cons.mp hnodup).1 (heq ▸ hp.2.prev_mem)
    refine ⟨⟨?_, ?_⟩, ih hp.2 (List.nodup_cons.mp hnodup).2
      (fun y hy => hnext y (List.mem_cons_of_mem a hy)) fun y hy =>
        hprev y (List.mem_cons_of_mem x hy)⟩
    · rw [hnext a List.mem_cons_self hne]
      exact hp.1.1
    · rw [hprev x List.mem_cons_self]
      exact hp.1.2

/-- The same nodes, seen against the pointers. -/
def Links.flip (k : Links α) : Links α := ⟨k.prev, k.next⟩

theorem path_flip (hp : Path k a l b) : Path k.flip b l.reverse a := by
  induction l generalizing a with
  | nil => exact ⟨hp.2, hp.1⟩
  | cons x l ih =>
    rw [List.reverse_cons, path_append]
    exact ⟨ih hp.2, hp.1.2, hp.1.1⟩

/-! ## Following the pointers -/

section Walk

variable [DecidableEq α]

/-- `for (x = start; x != stop; x = step(x)) if (p(x)) return x;` with at most
`fuel` tests of the loop condition; `none` if they do not suffice. -/
def walk (step : α → α) (stop : α) (p : α → Bool) : Nat → α → Option (Option α)
  | 0, _ => none
  | fuel + 1, x =>
    if x = stop then some none
    else if p x then some (some x)
    else walk step stop p fuel (step x)

theorem Path.walk_eq (hp : Path k a l h) (hh : h ∉ l) (p : α → Bool) {fuel : Nat}
    (hfuel : l.length < fuel) : walk k.next h p fuel (k.next a) = some (l.find? p) := by
  induction l generalizing a fuel with
  | nil =>
    obtain ⟨fuel, rfl⟩ := Nat.exists_eq_succ_of_ne_zero (Nat.ne_of_gt hfuel)
    rw [hp.1, walk, if_pos rfl, List.find?_nil]
  | cons x l ih =>
    obtain ⟨fuel, rfl⟩ := Nat.exists_eq_succ_of_ne_zero (show fuel ≠ 0 by omega)
    have hx : x ≠ h := fun heq => hh (heq ▸ List.mem_cons_self)
    rw [hp.1.1, walk, if_neg hx, List.find?_cons]
    cases p x with
    | true => rfl
    | false =>
      have hrest : h ∉ l := fun hmem => hh (List.mem_cons_of_mem x hmem)
      exact ih hp.2 hrest (Nat.lt_of_succ_lt_succ hfuel)

theorem IsRing.walk_next (hr : IsRing k h l) (p : α → Bool) {fuel : Nat} (hfuel : l.length < fuel) :
    walk k.next h p fuel (k.next h) = some (l.find? p) :=
  hr.path.walk_eq (List.nodup_cons.mp hr.nodup).1 p hfuel

theorem IsRing.walk_prev (hr : IsRing k h l) (p : α → Bool) {fuel : Nat} (hfuel : l.length < fuel) :
    walk k.prev h p fuel (k.prev h) = some (l.reverse.find? p) := by
  have hh : h ∉ l.reverse := fun hmem =>
    (List.nodup_cons.mp hr.nodup).1 (List.mem_reverse.mp hmem)
  exact (path_flip hr.path).walk_eq hh p (by rwa [List.length_reverse])

end Walk

/-! ## Pointer surgery -/

section Surgery

variable [DecidableEq α]

/-- `b->next->prev = b->prev; b->prev->next = b->next;` -/
def Links.unlink (k : Links α) (b : α) : Links α :=
  let k := { k with prev := update k.prev (k.next b) (k.prev b) }
  { k with next := update k.next (k.prev b) (k.next b) }

/-- `b->next = h.next; b->prev = &h; h.next->prev = b; h.next = b;` -/
def Links.insertFront (k : Links α) (h b : α) : Links α :=
  let k := { k with next := update k.next b (k.next h) }
  let k := { k with prev := update k.prev b h }
  let k := { k with prev := update k.prev (k.next h) b }
  { k with next := update k.next h b }

theorem IsRing.unlink (hr : IsRing k h (l₁ ++ b :: l₂)) : IsRing (k.unlink b) h (l₁ ++ l₂) := by
  obtain ⟨hfront, hback⟩ := path_append.mp hr.path
  have hnodup : (h :: (l₁ ++ b :: l₂)).Nodup := hr.nodup
  have hsub : (h :: (l₁ ++ l₂)).Nodup :=
    hnodup.sublist ((List.sublist_cons_self b l₂).append_left l₁ |>.cons_cons h)
  have hb : b ∉ h :: (l₁ ++ l₂) := by
    have hperm : (h :: l₁ ++ b :: l₂).Perm (b :: (h :: l₁ ++ l₂)) := List.perm_middle
    exact (List.nodup_cons.mp (hperm.nodup_iff.mp hnodup)).1
  have hprev : k.prev b ∈ h :: l₁ := hfront.prev_mem
  have hnext : k.next b = l₂.headD h := hback.next_eq
  have hnb : k.next b ≠ b := by
    rw [hnext]
    intro heq
    refine hb ?_
    cases l₂ with
    | nil => exact heq ▸ List.mem_cons_self
    | cons x l₂ => exact heq ▸ List.mem_cons_of_mem h (List.mem_append_right l₁ List.mem_cons_self)
  have hpb : (update k.prev (k.next b) (k.prev b)) b = k.prev b :=
    update_of_ne hnb.symm _ _
  have hunlink : k.unlink b = ⟨update k.next (k.prev b) (k.next b),
      update k.prev (k.next b) (k.prev b)⟩ := by
    unfold Links.unlink
    dsimp only
    rw [hpb]
  rw [hunlink]
  have hfresh : k.next b ∉ l₁ := by
    rw [hnext]
    intro hmem
    cases l₂ with
    | nil => exact (List.nodup_cons.mp hsub).1 (List.mem_append_left _ hmem)
    | cons x l₂ =>
      exact (List.nodup_append.mp (List.nodup_cons.mp hsub).2).2.2 x hmem x List.mem_cons_self rfl
  refine ⟨?_, hsub⟩
  have hjoin : Path ⟨update k.next (k.prev b) (k.next b),
      update k.prev (k.next b) (k.prev b)⟩ h l₁ (k.next b) := by
    refine hfront.retarget (hsub.sublist ((List.sublist_append_left l₁ l₂).cons_cons h))
      (update_self ..) (update_self ..)
      (fun x _ hx => update_of_ne hx _ _) fun x hx => update_of_ne ?_ _ _
    rintro rfl
    exact hfresh hx
  cases l₂ with
  | nil =>
    rw [List.append_nil]
    exact (show k.next b = h from hnext) ▸ hjoin
  | cons x l₂ =>
    have hx : k.next b = x := hnext
    rw [path_append]
    refine ⟨hx ▸ hjoin, ?_⟩
    have hsplit : (h :: l₁ ++ x :: l₂).Nodup := hsub
    have hdisj := (List.nodup_append.mp hsplit).2.2
    refine hback.2.congr (fun y hy => update_of_ne ?_ _ _)
      fun y hy => update_of_ne ?_ _ _
    · intro heq
      exact hdisj _ hprev y hy heq.symm
    · rw [hx]
      intro heq
      rcases List.mem_append.mp hy with hy | hy
      · exact (List.nodup_cons.mp (List.nodup_append.mp hsplit).2.1).1 (heq ▸ hy)
      · exact hdisj h List.mem_cons_self x List.mem_cons_self
          ((List.mem_singleton.mp hy).symm.trans heq)

theorem IsRing.insertFront (hr : IsRing k h l) (hb : b ∉ h :: l) :
    IsRing (k.insertFront h b) h (b :: l) := by
  have hbh : b ≠ h := fun heq => hb (heq ▸ List.mem_cons_self)
  have hbl : b ∉ l := fun hmem => hb (List.mem_cons_of_mem h hmem)
  have hh : h ∉ l := (List.nodup_cons.mp hr.nodup).1
  have hnext : k.next h = l.headD h := hr.path.next_eq
  have hold : update k.next b (k.next h) h = k.next h := update_of_ne hbh.symm _ _
  have hins : k.insertFront h b = ⟨update (update k.next b (k.next h)) h b,
      update (update k.prev b h) (k.next h) b⟩ := by
    unfold Links.insertFront
    dsimp only
    rw [hold]
  rw [hins]
  have hnb : b ≠ k.next h := by
    rw [hnext]
    cases l with
    | nil => exact hbh
    | cons x l => exact fun heq => hbl (heq ▸ List.mem_cons_self)
  refine ⟨⟨⟨update_self .., ?_⟩, ?_⟩, ?_⟩
  · exact (update_of_ne hnb _ _).trans (update_self ..)
  · have hself : update (update k.next b (k.next h)) h b b = k.next h :=
      (update_of_ne hbh _ _).trans (update_self ..)
    cases l with
    | nil =>
      have hn : k.next h = h := hnext
      refine ⟨hself.trans hn, ?_⟩
      show update (update k.prev b h) (k.next h) b h = b
      rw [hn]
      exact update_self ..
    | cons x l =>
      have hn : k.next h = x := hnext
      refine ⟨⟨hself.trans hn, ?_⟩, hr.path.2.congr (fun y hy => ?_) fun y hy => ?_⟩
      · show update (update k.prev b h) (k.next h) b x = b
        rw [hn]
        exact update_self ..
      · have hyh : y ≠ h := fun heq => hh (heq ▸ hy)
        have hyb : y ≠ b := fun heq => hbl (heq ▸ hy)
        exact (update_of_ne hyh _ _).trans (update_of_ne hyb _ _)
      · have hyx : y ≠ k.next h := by
          rw [hn]
          rintro rfl
          rcases List.mem_append.mp hy with hy | hy
          · exact (List.nodup_cons.mp (List.nodup_cons.mp hr.nodup).2).1 hy
          · exact hh (List.mem_singleton.mp hy ▸ List.mem_cons_self)
        have hyb : y ≠ b := by
          rintro rfl
          rcases List.mem_append.mp hy with hy | hy
          · exact hbl (List.mem_cons_of_mem x hy)
          · exact hbh (List.mem_singleton.mp hy)
        exact (update_of_ne hyx _ _).trans (update_of_ne hyb _ _)
  · refine List.nodup_cons.mpr ⟨?_, List.nodup_cons.mpr ⟨hbl, (List.nodup_cons.mp hr.nodup).2⟩⟩
    intro hmem
    rcases List.mem_cons.mp hmem with heq | hmem
    · exact hbh heq.symm
    · exact hh hmem

end Surgery

end Xv6.Lib.Ring
