import Mathlib.Tactic.IntervalCases
import Xv6.Vm.Tree

/-!
# Who owns which page

A page-table walk goes through memory that it must not share: a table page of
one process that another process could free or rewrite would break both.  An
`Owner` gives every page that the allocator manages one role, and `Owned` says
that memory agrees with the roles.  A role names the place of the page exactly
(the root of its table, the level, the part of the address space it serves), so
that no page can be reached along two ways.

* `Role`, `Owner`, `Owned`: the invariant.  `OwnedX` leaves out some entries of
  page tables, which `freewalk` needs between freeing a table and clearing the
  entry that points to it.
* `layoutOf`, `Owned.tree`: the tables of one root form a tree, so that the
  entries of its pages are read off the roles (`Owned.pteOf_eq`).
* `Frame`: what an operation on one page table leaves alone.
* `OwnedX.relabel`, `Owned.link`, `Owned.setLeaf`, `Owned.clearLeaf`,
  `Owned.newRoot`, ...: the changes of memory and roles that keep the invariant.
-/

namespace Xv6.Vm

open Xv6.Lib.Bytes Xv6.Lib.Wp
open Function (update update_of_ne update_self)

variable {l p q v : Nat}

/-- The page number of `TRAPFRAME`; user pages are below it. -/
def TFVPN : Nat := TRAPFRAME / PGSIZE

theorem tfvpn_lt : TFVPN < 2 ^ 26 := by decide

theorem trapframe_eq : TRAPFRAME = TFVPN * 4096 := by decide

/-- What a page is used for. -/
inductive Role where
  /-- It is on the free list. -/
  | free
  /-- It was allocated for something other than user memory. -/
  | held
  /-- The table of `level` with number `vpn` in the page table `root`. -/
  | table (root level vpn : Nat)
  /-- The user page `vpn` of the page table `root`. -/
  | user (root vpn : Nat)
deriving DecidableEq

variable {x : Role}

/-- The roles of the pages that the allocator manages. -/
abbrev Owner := Nat → Option Role

/-- Memory agrees with the roles, apart from the entries in `X`. -/
structure OwnedX (X : Nat → Nat → Prop) (own : Owner) (s : Phys) : Prop where
  kend : KERNBASE ≤ s.kend
  ram : ∀ p, own p ≠ none → p % 4096 = 0 ∧ s.kend ≤ p ∧ p < PHYSTOP
  free : ∀ p, own p = some .free ↔ p ∈ s.freelist
  nodup : s.freelist.Nodup
  level : ∀ p r l v, own p = some (.table r l v) → l ≤ 2
  root : ∀ p r v, own p = some (.table r 2 v) → p = r ∧ v = 0
  /-- A table below the root hangs in the table above it. -/
  linked : ∀ p r l v, own p = some (.table r l v) → l < 2 →
    ∃ q, own q = some (.table r (l + 1) (v / 512)) ∧ getPte s.mem q (v % 512) = tablePte p
  /-- A valid entry above level 0 points to the table that belongs there. -/
  entry : ∀ p r l v i, own p = some (.table r (l + 1) v) → i < 512 → ¬ X p i →
    isValid (getPte s.mem p i) = true →
    ∃ c, getPte s.mem p i = tablePte c ∧ own c = some (.table r l (v * 512 + i))
  /-- A valid entry of level 0 below `TRAPFRAME` points to the user page that
  belongs there. -/
  leaf : ∀ p r v i, own p = some (.table r 0 v) → i < 512 → isValid (getPte s.mem p i) = true →
    isLeaf (getPte s.mem p i) = true ∧ v * 512 + i < 2 ^ 26 ∧
      (v * 512 + i < TFVPN → own (PTE2PA (getPte s.mem p i)) = some (.user r (v * 512 + i)))
  /-- A user page is mapped where its role says. -/
  user : ∀ p r v, own p = some (.user r v) → v < TFVPN ∧
    ∃ q, own q = some (.table r 0 (v / 512)) ∧ isValid (getPte s.mem q (v % 512)) = true ∧
      PTE2PA (getPte s.mem q (v % 512)) = p

/-- Memory agrees with the roles. -/
abbrev Owned (own : Owner) (s : Phys) : Prop :=
  OwnedX (fun _ _ => False) own s

/-- `r` is the root of a page table. -/
abbrev Root (own : Owner) (r : Nat) : Prop :=
  own r = some (.table r 2 0)

/-- The page table `r` has the table of level `l` with number `b`. -/
def HasTable (own : Owner) (r l b : Nat) : Prop :=
  ∃ q, own q = some (.table r l b)

/-- The roles when nothing is allocated. -/
def freeOwner (freelist : List Nat) : Owner :=
  fun p => if p ∈ freelist then some .free else none

/-- After `kinit`, the pages of the free list are free and there is nothing else. -/
theorem owned_freeOwner {s : Phys} (hkend : KERNBASE ≤ s.kend) (hnodup : s.freelist.Nodup)
    (hram : ∀ p ∈ s.freelist, p % 4096 = 0 ∧ s.kend ≤ p ∧ p < PHYSTOP) :
    Owned (freeOwner s.freelist) s := by
  have hrole : ∀ {p x}, freeOwner s.freelist p = some x → x = .free ∧ p ∈ s.freelist := by
    intro p x hp
    unfold freeOwner at hp
    split at hp
    · exact ⟨(Option.some.inj hp).symm, ‹_›⟩
    · cases hp
  refine ⟨hkend, fun p hp => ?_, fun p => ⟨fun hp => (hrole hp).2, fun hp => if_pos hp⟩, hnodup,
    fun p r l v hp => absurd (hrole hp).1 nofun, fun p r v hp => absurd (hrole hp).1 nofun,
    fun p r l v hp => absurd (hrole hp).1 nofun, fun p r l v i hp => absurd (hrole hp).1 nofun,
    fun p r v i hp => absurd (hrole hp).1 nofun, fun p r v hp => absurd (hrole hp).1 nofun⟩
  obtain ⟨x, hx⟩ := Option.ne_none_iff_exists'.mp hp
  exact hram p (hrole hx).2

/-! ## What a walk finds -/

section Lookup

variable {X : Nat → Nat → Prop} {own : Owner} {s : Phys}

theorem OwnedX.pageAddr (h : OwnedX X own s) (hp : own p = some x) :
    p % 4096 = 0 ∧ p < 2 ^ 64 :=
  have hram := h.ram p (by simp [hp])
  ⟨hram.1, hram.2.2.trans (by decide)⟩

theorem OwnedX.pos (h : OwnedX X own s) (hp : own p = some x) : p ≠ 0 := by
  have hram := (h.ram p (by simp [hp])).2.1
  have hkend := h.kend
  have hbase : KERNBASE = 0x80000000 := rfl
  omega

/-- Two tables never have the same role. -/
theorem OwnedX.inj (h : OwnedX X own s) {r : Nat} (hp : own p = some (.table r l v))
    (hq : own q = some (.table r l v)) : p = q := by
  -- from the root down
  have hstep : ∀ l, (∀ {p q v}, own p = some (.table r (l + 1) v) →
      own q = some (.table r (l + 1) v) → p = q) → l < 2 → ∀ {p q v},
      own p = some (.table r l v) → own q = some (.table r l v) → p = q := by
    intro l ih hl p q v hp hq
    obtain ⟨p', hp', hpe⟩ := h.linked p r l v hp hl
    obtain ⟨q', hq', hqe⟩ := h.linked q r l v hq hl
    cases ih hp' hq'
    rw [← PTE2PA_tablePte (h.pageAddr hp), ← hpe, hqe, PTE2PA_tablePte (h.pageAddr hq)]
  have h2 : ∀ {p q v}, own p = some (.table r 2 v) → own q = some (.table r 2 v) → p = q :=
    fun hp hq => (h.root _ _ _ hp).1.trans (h.root _ _ _ hq).1.symm
  have h1 := @hstep 1 h2 (by omega)
  have h0 := @hstep 0 h1 (by omega)
  have hle := h.level p r l v hp
  interval_cases l
  exacts [h0 hp hq, h1 hp hq, h2 hp hq]

/-- Every table belongs to a root. -/
theorem OwnedX.root_of_table (h : OwnedX X own s) {r : Nat}
    (hp : own p = some (.table r l v)) : Root own r := by
  have h2 : ∀ {p v}, own p = some (.table r 2 v) → Root own r := by
    intro p v hp
    obtain ⟨rfl, rfl⟩ := h.root p r v hp
    exact hp
  have hle := h.level p r l v hp
  interval_cases l
  · obtain ⟨q, hq, -⟩ := h.linked p r 0 v hp (by omega)
    obtain ⟨q', hq', -⟩ := h.linked q r 1 _ hq (by omega)
    exact h2 hq'
  · obtain ⟨q, hq, -⟩ := h.linked p r 1 v hp (by omega)
    exact h2 hq
  · exact h2 hp

theorem OwnedX.root_of_user (h : OwnedX X own s) {r : Nat} (hp : own p = some (.user r v)) :
    Root own r := by
  obtain ⟨-, q, hq, -⟩ := h.user p r v hp
  exact h.root_of_table hq

/-- The places of the tables of the page table `r`. -/
def layoutOf (own : Owner) (r : Nat) : Layout := fun p =>
  match own p with
  | some (.table r' l b) => if r' = r then some (l, b) else none
  | _ => none

theorem layoutOf_eq_some {r b : Nat} :
    layoutOf own r p = some (l, b) ↔ own p = some (.table r l b) := by
  unfold layoutOf
  split
  · rename_i r' l' b' hp
    simp only [hp, Option.some.injEq, Role.table.injEq]
    split <;> simp [*]
  · rename_i hno
    exact ⟨nofun, fun hp => absurd hp (hno r l b)⟩

/-- The places when the page `c` becomes a table of `r`. -/
theorem layoutOf_update (own : Owner) (r c l b : Nat) :
    layoutOf (update own c (some (.table r l b))) r =
      update (layoutOf own r) c (some (l, b)) := by
  funext p
  by_cases hp : p = c
  · rw [hp, update_self, layoutOf_eq_some, update_self]
  · rw [update_of_ne hp, layoutOf, update_of_ne hp, layoutOf]

/-- The tables of one root form a tree. -/
theorem Owned.tree (h : Owned own s) {r : Nat} (hr : Root own r) :
    Tree (layoutOf own r) s.mem r := by
  constructor
  case root => exact layoutOf_eq_some.mpr hr
  case unique => exact fun p b hp => (h.root p r b (layoutOf_eq_some.mp hp)).1
  case level => exact fun p l b hp => h.level p r l b (layoutOf_eq_some.mp hp)
  case linked =>
    intro p l b hp hl
    have hown := layoutOf_eq_some.mp hp
    obtain ⟨q, hq, hqe⟩ := h.linked p r l b hown hl
    exact ⟨q, layoutOf_eq_some.mpr hq, nextTable_of_getPte hqe (h.pageAddr hown)⟩
  case entry =>
    intro p l b i c hp hi hc
    unfold nextTable at hc
    split at hc
    · rename_i hvalid
      obtain ⟨c', hce, hown⟩ := h.entry p r l b i (layoutOf_eq_some.mp hp) hi not_false hvalid
      rw [hce, PTE2PA_tablePte (h.pageAddr hown)] at hc
      cases hc
      exact layoutOf_eq_some.mpr hown
    · cases hc

theorem layoutOf_ne {r b : Nat} (hno : ¬ HasTable own r 0 b) (q : Nat) :
    layoutOf own r q ≠ some (0, b) :=
  fun hq => hno ⟨q, layoutOf_eq_some.mp hq⟩

/-- The entry of a page is in the table whose role covers it. -/
theorem Owned.locate_eq (h : Owned own s) {r : Nat} (hq : own q = some (.table r 0 (v / 512))) :
    locate s.mem r v = some q :=
  (h.tree (h.root_of_table hq)).locate_eq (layoutOf_eq_some.mpr hq)

theorem Owned.own_of_locate (h : Owned own s) {r : Nat} (hr : Root own r) (hv : v < 2 ^ 27)
    (hq : locate s.mem r v = some q) : own q = some (.table r 0 (v / 512)) :=
  layoutOf_eq_some.mp ((h.tree hr).tab_of_locate hv hq)

theorem Owned.pteOf_eq (h : Owned own s) {r : Nat} (hq : own q = some (.table r 0 (v / 512))) :
    pteOf s.mem r v = getPte s.mem q (v % 512) :=
  (h.tree (h.root_of_table hq)).pteOf_eq (layoutOf_eq_some.mpr hq)

theorem Owned.pteOf_eq_zero (h : Owned own s) {r : Nat} (hr : Root own r) (hv : v < 2 ^ 27)
    (hno : ¬ HasTable own r 0 (v / 512)) : pteOf s.mem r v = 0 :=
  (h.tree hr).pteOf_eq_zero hv (layoutOf_ne hno)

/-- Two states with the same tables have the same entries. -/
theorem Owned.pteOf_congr {own' : Owner} {s' : Phys} {r : Nat} (h : Owned own s)
    (h' : Owned own' s')
    (htab : ∀ p l w, own' p = some (.table r l w) ↔ own p = some (.table r l w))
    (hmem : ∀ p l w, own p = some (.table r l w) → s'.mem p = s.mem p) (hr : Root own r)
    (hv : v < 2 ^ 27) : pteOf s'.mem r v = pteOf s.mem r v := by
  refine (h.tree hr).pteOf_congr (h'.tree ((htab ..).mpr hr)) (fun q => ?_) (fun q hq => ?_) hv
  · rw [layoutOf_eq_some, layoutOf_eq_some]
    exact htab q 0 _
  · exact hmem q 0 _ (layoutOf_eq_some.mp hq)

end Lookup

/-! ## What an operation on one page table leaves alone -/

/-- From `own`, `s` to `own'`, `s'` an operation worked on the page table `r`
alone: other page tables are as before, and so are user pages and held pages
outside `H`, and memory that the allocator does not manage.  No page is lost, and
none but those in `T` is held that was not held before. -/
structure FrameX (T : Nat → Prop) (r : Nat) (H : Nat → Prop) (own own' : Owner) (s s' : Phys) :
    Prop where
  kend : s'.kend = s.kend
  trampoline : s'.trampoline = s.trampoline
  dom : ∀ p, own' p = none ↔ own p = none
  outside : ∀ p, own p = none → s'.mem p = s.mem p
  newHeld : ∀ p, own' p = some .held → own p = some .held ∨ T p
  table : ∀ p r' l v, r' ≠ r → own p = some (.table r' l v) →
    own' p = some (.table r' l v) ∧ s'.mem p = s.mem p
  newTable : ∀ p r' l v, r' ≠ r → own' p = some (.table r' l v) → own p = some (.table r' l v)
  held : ∀ p, own p = some .held → ¬ H p → own' p = some .held ∧ s'.mem p = s.mem p
  user : ∀ p r' v, own p = some (.user r' v) → ¬ H p →
    own' p = some (.user r' v) ∧ s'.mem p = s.mem p

/-- No page is exempt. -/
abbrev NoPage : Nat → Prop := fun _ => False

/-- No page was freed. -/
def Consumes (own own' : Owner) : Prop :=
  ∀ p, own' p = some .free → own p = some .free

/-- What an operation on the page table `r` leaves alone when it keeps no page
for itself. -/
abbrev Frame (r : Nat) (H : Nat → Prop) (own own' : Owner) (s s' : Phys) : Prop :=
  FrameX NoPage r H own own' s s'

section FrameRules

variable {T : Nat → Prop} {r : Nat} {H : Nat → Prop} {own own' own'' : Owner} {s s' s'' : Phys}

theorem ne_of_none (hp : own p = none) (hq : own q = some x) : p ≠ q := by
  rintro rfl
  rw [hp] at hq
  cases hq

theorem Frame.refl (r : Nat) (H : Nat → Prop) (own : Owner) (s : Phys) : Frame r H own own s s :=
  ⟨rfl, rfl, fun _ => Iff.rfl, fun _ _ => rfl, fun _ => .inl, fun _ _ _ _ _ hp => ⟨hp, rfl⟩,
    fun _ _ _ _ _ hp => hp, fun _ hp _ => ⟨hp, rfl⟩, fun _ _ _ hp _ => ⟨hp, rfl⟩⟩

theorem FrameX.trans (h : FrameX T r H own own' s s') (h' : FrameX T r H own' own'' s' s'') :
    FrameX T r H own own'' s s'' := by
  refine ⟨h'.kend.trans h.kend, h'.trampoline.trans h.trampoline,
    fun p => (h'.dom p).trans (h.dom p),
    fun p hp => (h'.outside p ((h.dom p).mpr hp)).trans (h.outside p hp), fun p hp => ?_,
    fun p r' l v hne hp => ?_,
    fun p r' l v hne hp => h.newTable p r' l v hne (h'.newTable p r' l v hne hp),
    fun p hp hH => ?_, fun p r' v hp hH => ?_⟩
  · rcases h'.newHeld p hp with hp | hT
    · exact h.newHeld p hp
    · exact .inr hT
  · have h1 := h.table p r' l v hne hp
    have h2 := h'.table p r' l v hne h1.1
    exact ⟨h2.1, h2.2.trans h1.2⟩
  · have h1 := h.held p hp hH
    have h2 := h'.held p h1.1 hH
    exact ⟨h2.1, h2.2.trans h1.2⟩
  · have h1 := h.user p r' v hp hH
    have h2 := h'.user p r' v h1.1 hH
    exact ⟨h2.1, h2.2.trans h1.2⟩

/-- A page need not be exempt if it was neither held nor a user page before. -/
theorem FrameX.narrow {H' : Nat → Prop} (h : FrameX T r H own own' s s')
    (hH : ∀ p, H p → H' p ∨ own p ≠ some .held ∧ ∀ r' v, own p ≠ some (.user r' v)) :
    FrameX T r H' own own' s s' := by
  refine ⟨h.kend, h.trampoline, h.dom, h.outside, h.newHeld, h.table, h.newTable,
    fun p hp hp' => h.held p hp fun hHp => ?_, fun p r' v hp hp' => h.user p r' v hp fun hHp => ?_⟩
  · rcases hH p hHp with h' | h'
    · exact hp' h'
    · exact h'.1 hp
  · rcases hH p hHp with h' | h'
    · exact hp' h'
    · exact h'.2 r' v hp

theorem FrameX.widen {H' : Nat → Prop} (h : FrameX T r H own own' s s') (hH : ∀ p, H p → H' p) :
    FrameX T r H' own own' s s' :=
  h.narrow fun p hp => .inl (hH p hp)

/-- The pages in `T` matter only if they are held in the end. -/
theorem FrameX.settle {T' : Nat → Prop} (h : FrameX T r H own own' s s')
    (hT : ∀ p, T p → own' p = some .held → T' p) : FrameX T' r H own own' s s' :=
  ⟨h.kend, h.trampoline, h.dom, h.outside,
    fun p hp => (h.newHeld p hp).imp_right fun hTp => hT p hTp hp, h.table, h.newTable,
    h.held, h.user⟩

theorem Frame.allow (h : Frame r H own own' s s') (T : Nat → Prop) : FrameX T r H own own' s s' :=
  h.settle nofun

theorem FrameX.root (h : FrameX T r H own own' s s') {r' : Nat} (hne : r' ≠ r) (hr : Root own r') :
    Root own' r' :=
  (h.table r' r' 2 0 hne hr).1

/-- The entries of other page tables are untouched. -/
theorem FrameX.pteOf_eq (h : FrameX T r H own own' s s') (hs : Owned own s) (hs' : Owned own' s')
    {r' : Nat} (hne : r' ≠ r) (hr : Root own r') (hv : v < 2 ^ 27) :
    pteOf s'.mem r' v = pteOf s.mem r' v := by
  refine hs.pteOf_congr hs' (fun p l w => ?_) (fun p l w hp => (h.table p r' l w hne hp).2) hr hv
  exact ⟨h.newTable p r' l w hne, fun hp => (h.table p r' l w hne hp).1⟩

end FrameRules

/-! ## Changes that keep the invariant -/

section Changes

variable {X : Nat → Nat → Prop} {own own' : Owner} {s s' : Phys}

/-- The page tables and the user pages stay as they are. -/
theorem OwnedX.relabel (h : OwnedX X own s)
    (htab : ∀ p r l v, own' p = some (.table r l v) ↔ own p = some (.table r l v))
    (huser : ∀ p r v, own' p = some (.user r v) ↔ own p = some (.user r v))
    (hmem : ∀ p r l v, own p = some (.table r l v) → s'.mem p = s.mem p)
    (hkend : s'.kend = s.kend) (hram : ∀ p, own' p ≠ none → own p ≠ none)
    (hfree : ∀ p, own' p = some .free ↔ p ∈ s'.freelist) (hnodup : s'.freelist.Nodup) :
    OwnedX X own' s' := by
  have hpte : ∀ {p r l v}, own p = some (.table r l v) →
      ∀ i, getPte s'.mem p i = getPte s.mem p i :=
    fun hp i => by rw [getPte, getPte, hmem _ _ _ _ hp]
  refine ⟨hkend ▸ h.kend, fun p hp => hkend ▸ h.ram p (hram p hp), hfree, hnodup,
    fun p r l v hp => h.level p r l v ((htab ..).mp hp),
    fun p r v hp => h.root p r v ((htab ..).mp hp), fun p r l v hp hl => ?_,
    fun p r l v i hp hi hX hvalid => ?_, fun p r v i hp hi hvalid => ?_, fun p r v hp => ?_⟩
  · obtain ⟨q, hq, hpe⟩ := h.linked p r l v ((htab ..).mp hp) hl
    exact ⟨q, (htab ..).mpr hq, by rw [hpte hq, hpe]⟩
  · have hp' := (htab ..).mp hp
    rw [hpte hp'] at hvalid ⊢
    obtain ⟨c, hc, hown⟩ := h.entry p r l v i hp' hi hX hvalid
    exact ⟨c, hc, (htab ..).mpr hown⟩
  · have hp' := (htab ..).mp hp
    rw [hpte hp'] at hvalid ⊢
    have hleaf := h.leaf p r v i hp' hi hvalid
    exact ⟨hleaf.1, hleaf.2.1, fun hv => (huser ..).mpr (hleaf.2.2 hv)⟩
  · obtain ⟨hv, q, hq, hvalid, hpa⟩ := h.user p r v ((huser ..).mp hp)
    exact ⟨hv, q, (htab ..).mpr hq, by rw [hpte hq]; exact hvalid, by rw [hpte hq]; exact hpa⟩

/-- Writing to a page that is no page table. -/
theorem OwnedX.setPage (h : OwnedX X own s) (page : Nat → UInt8)
    (hp : ∀ r l v, own p ≠ some (.table r l v)) :
    OwnedX X own { s with mem := update s.mem p page } := by
  refine h.relabel (fun _ _ _ _ => Iff.rfl) (fun _ _ _ => Iff.rfl) (fun q r l v hq => ?_) rfl
    (fun _ => id) h.free h.nodup
  have hne : q ≠ p := fun heq => hp r l v (heq ▸ hq)
  exact update_of_ne hne _ _

/-- Another role for a page changes the other roles of no page. -/
theorem own_update_iff {y z : Role} (hp : own p = some y) (hx : z ≠ x) (hy : z ≠ y) :
    update own p (some x) q = some z ↔ own q = some z := by
  by_cases hqp : q = p
  · rw [hqp, update_self, hp, Option.some.injEq, Option.some.injEq]
    exact ⟨fun heq => absurd heq.symm hx, fun heq => absurd heq.symm hy⟩
  · rw [update_of_ne hqp]

/-- A page goes from the free list to its user or back. -/
theorem OwnedX.move (h : OwnedX X own s) {y : Role} {free : List Nat}
    (hp : own p = some y) (hx : x = .free ∨ x = .held) (hy : y = .free ∨ y = .held)
    (page : Nat → UInt8) (denied : List Bool)
    (hfree : ∀ q, update own p (some x) q = some .free ↔ q ∈ free) (hnodup : free.Nodup) :
    OwnedX X (update own p (some x))
      { s with mem := update s.mem p page, freelist := free, denied := denied } := by
  have hother : ∀ {q z}, z ≠ .free → z ≠ .held →
      (update own p (some x) q = some z ↔ own q = some z) := by
    intro q z hz hz'
    refine own_update_iff hp ?_ ?_
    · rcases hx with rfl | rfl <;> assumption
    · rcases hy with rfl | rfl <;> assumption
  refine h.relabel (fun _ _ _ _ => hother nofun nofun) (fun _ _ _ => hother nofun nofun)
    (fun q r l v hq => update_of_ne ?_ _ _) rfl (fun q hq => ?_) hfree hnodup
  · rintro rfl
    rw [hp, Option.some.injEq] at hq
    rcases hy with rfl | rfl <;> cases hq
  · by_cases hqp : q = p
    · rw [hqp, hp]
      exact nofun
    · rwa [update_of_ne hqp] at hq

/-- A free page leaves the head of the free list. -/
theorem OwnedX.take (h : OwnedX X own s) {rest : List Nat} (hlist : s.freelist = p :: rest)
    (page : Nat → UInt8) (denied : List Bool) :
    OwnedX X (update own p (some .held))
      { s with mem := update s.mem p page, freelist := rest, denied := denied } := by
  have hnodup := h.nodup
  rw [hlist, List.nodup_cons] at hnodup
  refine h.move ((h.free p).mpr (by simp [hlist])) (.inr rfl) (.inl rfl) page denied (fun q => ?_)
    hnodup.2
  by_cases hqp : q = p
  · rw [hqp, update_self]
    exact ⟨nofun, fun hmem => absurd hmem hnodup.1⟩
  · rw [update_of_ne hqp, h.free q, hlist, List.mem_cons, or_iff_right hqp]

/-- A held page goes back to the free list. -/
theorem OwnedX.give (h : OwnedX X own s) (hp : own p = some .held) (page : Nat → UInt8) :
    OwnedX X (update own p (some .free))
      { s with mem := update s.mem p page, freelist := p :: s.freelist } := by
  refine h.move hp (.inl rfl) (.inr rfl) page s.denied (fun q => ?_) ?_
  · by_cases hqp : q = p
    · rw [hqp, update_self]
      simp
    · rw [update_of_ne hqp, h.free q, List.mem_cons, or_iff_right hqp]
  · refine List.nodup_cons.mpr ⟨fun hmem => ?_, h.nodup⟩
    rw [(h.free p).mpr hmem] at hp
    cases hp

end Changes

/-! ## The allocator -/

section Allocator

variable {X : Nat → Nat → Prop} {own : Owner} {s s' : Phys} {E : Panic → Prop}

/-- `kalloc` found no page. -/
structure Refused (s s' : Phys) : Prop where
  supply : s.supply = 0
  mem : s'.mem = s.mem
  freelist : s'.freelist = s.freelist
  kend : s'.kend = s.kend
  trampoline : s'.trampoline = s.trampoline

/-- The allocator moved the page `p`; nothing else changed. -/
structure Moved (p : Nat) (s s' : Phys) : Prop where
  mem : ∀ q, q ≠ p → s'.mem q = s.mem q
  kend : s'.kend = s.kend
  trampoline : s'.trampoline = s.trampoline

theorem Refused.owned (h : Refused s s') (hs : OwnedX X own s) : OwnedX X own s' :=
  hs.relabel (fun _ _ _ _ => Iff.rfl) (fun _ _ _ => Iff.rfl) (fun _ _ _ _ _ => by rw [h.mem]) h.kend
    (fun _ => id) (fun p => by rw [h.freelist]; exact hs.free p) (h.freelist ▸ hs.nodup)

theorem Refused.frame (h : Refused s s') (r : Nat) (H : Nat → Prop) (own : Owner) :
    Frame r H own own s s' :=
  ⟨h.kend, h.trampoline, fun _ => Iff.rfl, fun _ _ => by rw [h.mem], fun _ => .inl,
    fun _ _ _ _ _ hp => ⟨hp, by rw [h.mem]⟩, fun _ _ _ _ _ hp => hp,
    fun _ hp _ => ⟨hp, by rw [h.mem]⟩, fun _ _ _ hp _ => ⟨hp, by rw [h.mem]⟩⟩

/-- `kalloc` takes the first free page, or finds none. -/
theorem kalloc_pops (s : Phys) :
    wp kalloc E (fun p s' => p = 0 ∧ Refused s s' ∨ s.supply = s'.supply + 1 ∧
      ∃ rest, s.freelist = p :: rest ∧ s' = { s with
        mem := update s.mem p fun _ => 5, freelist := rest, denied := s.denied.tail }) s := by
  unfold wp kalloc
  rcases hden : s.denied with _ | ⟨b, bs⟩
  · rcases hfl : s.freelist with _ | ⟨r, rs⟩
    · exact .inl ⟨rfl, by simp [Phys.supply, supplyOf, hfl], rfl, by rw [hfl], rfl, rfl⟩
    · exact .inr ⟨by cases rs <;> simp [Phys.supply, supplyOf, hden, hfl], rs, rfl, rfl⟩
  · cases b
    · rcases hfl : s.freelist with _ | ⟨r, rs⟩
      · exact .inl ⟨rfl, by simp [Phys.supply, supplyOf, hfl], rfl, by rw [hfl], rfl, rfl⟩
      · exact .inr ⟨by simp [Phys.supply, supplyOf, hden, hfl], rs, rfl, rfl⟩
    · have hsupply : s.supply = 0 := by
        cases hfl : s.freelist <;> simp [Phys.supply, supplyOf, hden, hfl]
      exact .inl ⟨rfl, hsupply, rfl, rfl, rfl, rfl⟩

theorem kalloc_spec (h : OwnedX X own s) :
    wp kalloc E (fun p s' => p = 0 ∧ Refused s s' ∨
      own p = some .free ∧ OwnedX X (update own p (some .held)) s' ∧ Moved p s s' ∧
        s.supply = s'.supply + 1) s := by
  refine (kalloc_pops s).mono fun p s' hres => hres.imp_right ?_
  rintro ⟨hsupply, rest, hlist, rfl⟩
  exact ⟨(h.free p).mpr (by simp [hlist]), h.take hlist _ _,
    ⟨fun q hq => update_of_ne hq _ _, rfl, rfl⟩, hsupply⟩

theorem kfree_spec (h : OwnedX X own s) (hp : own p = some .held) :
    wp (kfree p) E (fun _ s' => OwnedX X (update own p (some .free)) s' ∧ Moved p s s') s := by
  have hram := h.ram p (by simp [hp])
  have hok : ¬ (p % PGSIZE ≠ 0 ∨ p < s.kend ∨ PHYSTOP ≤ p) := by
    rw [show PGSIZE = 4096 from rfl]
    omega
  simp only [kfree, wp_bind, wp_reads, if_neg hok, memset, Xv6.Vm.setPage, wp_updates]
  exact ⟨h.give hp _, fun q hq => update_of_ne hq _ _, rfl, rfl⟩

end Allocator

end Xv6.Vm
