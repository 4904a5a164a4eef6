import Xv6.Vm.PageTable

/-!
# Page tables as trees

What a walk through three levels of tables finds, when the tables form a tree.
A `Layout` gives every table page its place: its level and its number among the
tables of that level, which is the part of the virtual page number above the
indices of that level.  In a `Tree` the entries of the tables agree with the
places, so that no table can be reached along two ways.

* `nextTable`, `locate`, `pteOf`: the steps of a walk and the entry it finds.
* `Tree`; `Tree.pteOf_eq`, `Tree.pteOf_eq_zero`: the entry of a page is in the
  table whose place covers it, and is 0 if there is no such table.
* `Tree.congr`, `Tree.store`, `Tree.link`: memory that is no table, the entries of
  the tables of level 0, and new tables.  `Tree.pteOf_congr`, `Tree.pteOf_store`
  and `Tree.pteOf_link` say which entries of pages change.
-/

namespace Xv6.Vm

open Xv6.Lib.Bytes
open Function (update update_of_ne update_self)

variable {pt q v : Nat}

/-! ## What a walk finds -/

/-- The table that entry `i` of the table `pt` points to. -/
def nextTable (mem : Nat → Nat → UInt8) (pt i : Nat) : Option Nat :=
  if isValid (getPte mem pt i) then some (PTE2PA (getPte mem pt i)) else none

/-- The table of level 0 that serves the page `v`. -/
def locate (mem : Nat → Nat → UInt8) (r v : Nat) : Option Nat :=
  (nextTable mem r (v / 512 / 512 % 512)).bind fun q => nextTable mem q (v / 512 % 512)

/-- The entry of the page `v`, or 0 if there is no table for it. -/
def pteOf (mem : Nat → Nat → UInt8) (r v : Nat) : Nat :=
  match locate mem r v with
  | some q => getPte mem q (v % 512)
  | none => 0

theorem PTE2PA_tablePte {pa : Nat} (h : pa % 4096 = 0 ∧ pa < 2 ^ 64) :
    PTE2PA (tablePte pa) = pa := by
  rw [tablePte_eq]
  exact PTE2PA_mkPte h (by decide)

theorem isValid_tablePte (pa : Nat) : isValid (tablePte pa) = true := by
  rw [tablePte_eq]
  exact isValid_mkPte pa (by decide)

theorem nextTable_of_getPte {mem : Nat → Nat → UInt8} {i c : Nat} (h : getPte mem pt i = tablePte c)
    (hc : c % 4096 = 0 ∧ c < 2 ^ 64) : nextTable mem pt i = some c := by
  rw [nextTable, h, if_pos (isValid_tablePte c), PTE2PA_tablePte hc]

theorem nextTable_congr {mem mem' : Nat → Nat → UInt8} {i : Nat}
    (h : getPte mem' pt i = getPte mem pt i) : nextTable mem' pt i = nextTable mem pt i := by
  rw [nextTable, nextTable, h]

theorem nextTable_of_zero {mem : Nat → Nat → UInt8} {i : Nat} (h : getPte mem pt i = 0) :
    nextTable mem pt i = none := by
  rw [nextTable, h]
  exact if_neg (by simp)

theorem getPte_congr {mem mem' : Nat → Nat → UInt8} (h : mem' pt = mem pt) (i : Nat) :
    getPte mem' pt i = getPte mem pt i := by
  rw [getPte, h, getPte]

/-! ## Trees -/

/-- The level and the number of every table page. -/
abbrev Layout := Nat → Option (Nat × Nat)

/-- The tables below `r` are those of the layout, each at its place. -/
structure Tree (tab : Layout) (mem : Nat → Nat → UInt8) (r : Nat) : Prop where
  root : tab r = some (2, 0)
  unique : ∀ p b, tab p = some (2, b) → p = r
  level : ∀ p l b, tab p = some (l, b) → l ≤ 2
  /-- A table below the root hangs in the table above it. -/
  linked : ∀ p l b, tab p = some (l, b) → l < 2 →
    ∃ q, tab q = some (l + 1, b / 512) ∧ nextTable mem q (b % 512) = some p
  /-- A valid entry above level 0 points to the table that belongs there. -/
  entry : ∀ p l b i c, tab p = some (l + 1, b) → i < 512 → nextTable mem p i = some c →
    tab c = some (l, b * 512 + i)

section Tree

variable {tab : Layout} {mem mem' : Nat → Nat → UInt8} {r : Nat}

/-- No two tables have the same place. -/
theorem Tree.inj (h : Tree tab mem r) {p l b : Nat} (hp : tab p = some (l, b))
    (hq : tab q = some (l, b)) : p = q := by
  -- from the root down
  obtain ⟨k, hk⟩ : ∃ k, l + k = 2 := ⟨2 - l, by have := h.level p l b hp; omega⟩
  induction k generalizing l b p q with
  | zero =>
    obtain rfl : l = 2 := hk
    rw [h.unique p b hp, h.unique q b hq]
  | succ k ih =>
    obtain ⟨p', hp', hpn⟩ := h.linked p l b hp (by omega)
    obtain ⟨q', hq', hqn⟩ := h.linked q l b hq (by omega)
    rw [ih hp' hq' (by omega), hqn] at hpn
    exact (Option.some.inj hpn).symm

/-- The table above a table has the entry that points to it. -/
theorem Tree.nextTable_of_child (h : Tree tab mem r) {p l b : Nat}
    (hp : tab p = some (l + 1, b / 512)) (hq : tab q = some (l, b)) :
    nextTable mem p (b % 512) = some q := by
  have hle := h.level p (l + 1) _ hp
  obtain ⟨p', hp', hnext⟩ := h.linked q l b hq (by omega)
  rw [h.inj hp hp']
  exact hnext

/-- The entry of a page is in the table whose place covers it. -/
theorem Tree.locate_eq (h : Tree tab mem r) (hq : tab q = some (0, v / 512)) :
    locate mem r v = some q := by
  obtain ⟨q₁, hq₁, hnext₁⟩ := h.linked q 0 _ hq (by omega)
  obtain ⟨q₂, hq₂, hnext₂⟩ := h.linked q₁ 1 _ hq₁ (by omega)
  rw [h.unique q₂ _ hq₂] at hnext₂
  rw [locate, hnext₂, Option.bind_some, hnext₁]

theorem Tree.tab_of_locate (h : Tree tab mem r) (hv : v < 2 ^ 27)
    (hq : locate mem r v = some q) : tab q = some (0, v / 512) := by
  rw [locate] at hq
  obtain ⟨q₁, hq₁, hq⟩ := Option.bind_eq_some_iff.mp hq
  have htab₁ := h.entry r 1 0 _ q₁ h.root (Nat.mod_lt _ (by decide)) hq₁
  have htab := h.entry q₁ 0 _ _ q htab₁ (Nat.mod_lt _ (by decide)) hq
  rw [htab]
  congr 2
  omega

theorem Tree.pteOf_eq (h : Tree tab mem r) (hq : tab q = some (0, v / 512)) :
    pteOf mem r v = getPte mem q (v % 512) := by
  rw [pteOf, h.locate_eq hq]

theorem Tree.pteOf_eq_zero (h : Tree tab mem r) (hv : v < 2 ^ 27)
    (hno : ∀ q, tab q ≠ some (0, v / 512)) : pteOf mem r v = 0 := by
  unfold pteOf
  split
  · rename_i q hq
    exact absurd (h.tab_of_locate hv hq) (hno q)
  · rfl

/-! ## Changes of memory -/

/-- Memory other than the tables above level 0 does not matter. -/
theorem Tree.congr (h : Tree tab mem r) (hmem : ∀ p l b, tab p = some (l + 1, b) → mem' p = mem p) :
    Tree tab mem' r := by
  have hnext : ∀ {p l b} i, tab p = some (l + 1, b) → nextTable mem' p i = nextTable mem p i :=
    fun i hp => nextTable_congr (getPte_congr (hmem _ _ _ hp) i)
  refine ⟨h.root, h.unique, h.level, fun p l b hp hl => ?_, fun p l b i c hp hi hc => ?_⟩
  · obtain ⟨q, hq, hqn⟩ := h.linked p l b hp hl
    exact ⟨q, hq, (hnext _ hq).trans hqn⟩
  · rw [hnext i hp] at hc
    exact h.entry p l b i c hp hi hc

/-- The entries of two trees with the same tables of level 0. -/
theorem Tree.pteOf_congr {tab' : Layout} (h : Tree tab mem r) (h' : Tree tab' mem' r)
    (htab : ∀ q, tab' q = some (0, v / 512) ↔ tab q = some (0, v / 512))
    (hmem : ∀ q, tab q = some (0, v / 512) → mem' q = mem q) (hv : v < 2 ^ 27) :
    pteOf mem' r v = pteOf mem r v := by
  by_cases hhas : ∃ q, tab q = some (0, v / 512)
  · obtain ⟨q, hq⟩ := hhas
    rw [h'.pteOf_eq ((htab q).mpr hq), h.pteOf_eq hq, getPte_congr (hmem q hq)]
  · have hno := not_exists.mp hhas
    rw [h.pteOf_eq_zero hv hno, h'.pteOf_eq_zero hv fun q hq => hno q ((htab q).mp hq)]

/-- A store to a table of level 0. -/
theorem Tree.store (h : Tree tab mem r) {b : Nat} (hq : tab q = some (0, b)) (i e : Nat) :
    Tree tab (setPte mem q i e) r := by
  refine h.congr fun p l b' hp => update_of_ne ?_ _ _
  rintro rfl
  rw [hq] at hp
  cases hp

/-- The entries of the pages after a store to a table of level 0. -/
theorem Tree.pteOf_store {tab' : Layout} (h : Tree tab mem r) (h' : Tree tab' mem' r) {b i e : Nat}
    (htab : ∀ p, tab' p = some (0, v / 512) ↔ tab p = some (0, v / 512))
    (hmem : ∀ p, tab p = some (0, v / 512) → mem' p = setPte mem q i e p)
    (hq : tab q = some (0, b)) (hi : i < 512) (he : e < 256 ^ 8) (hv : v < 2 ^ 27) :
    pteOf mem' r v = if v = b * 512 + i then e else pteOf mem r v := by
  by_cases hhas : ∃ p, tab p = some (0, v / 512)
  · obtain ⟨p, hp⟩ := hhas
    rw [h'.pteOf_eq ((htab p).mpr hp), h.pteOf_eq hp, getPte_congr (hmem p hp)]
    by_cases heq : v = b * 512 + i
    · rw [show v / 512 = b by omega] at hp
      rw [if_pos heq, h.inj hp hq, show v % 512 = i by omega, getPte_setPte_self _ _ _ he]
    · rw [if_neg heq, getPte_setPte_of_ne]
      refine not_and_or.mp fun hpi => heq ?_
      rw [hpi.1, hq, Option.some.injEq, Prod.mk.injEq] at hp
      omega
  · have hno := not_exists.mp hhas
    have hne : v ≠ b * 512 + i := by
      rintro rfl
      rw [show (b * 512 + i) / 512 = b by omega] at hno
      exact hno q hq
    rw [if_neg hne, h.pteOf_eq_zero hv hno, h'.pteOf_eq_zero hv fun p hp => hno p ((htab p).mp hp)]

/-! ## New tables -/

section Link

variable {mem₁ : Nat → Nat → UInt8} {p c l b i : Nat}

/-- The tables of `r` keep their places when the page `c` becomes a table. -/
theorem layout_update_keep {x y : Nat × Nat} (hc : tab c = none) (hq : tab q = some x) :
    update tab c (some y) q = some x := by
  rw [update_of_ne ?_, hq]
  rintro rfl
  rw [hq] at hc
  cases hc

/-- Hang the page `c`, which is empty, into entry `i` of the table `p`. -/
theorem Tree.link (h : Tree tab mem r) (hp : tab p = some (l + 1, b)) (hi : i < 512)
    (hnone : nextTable mem p i = none) (hc : tab c = none) (hpage : c % 4096 = 0 ∧ c < 2 ^ 64)
    (hmem : ∀ q, q ≠ c → mem₁ q = mem q)
    (hzero : ∀ j, getPte mem₁ c j = 0) :
    Tree (update tab c (some (l, b * 512 + i))) (setPte mem₁ p i (tablePte c)) r := by
  have hne : ∀ {q x}, tab q = some x → q ≠ c := by
    rintro q x hq rfl
    rw [hq] at hc
    cases hc
  have hnew : nextTable (setPte mem₁ p i (tablePte c)) p i = some c :=
    nextTable_of_getPte (getPte_setPte_self _ _ _ (tablePte_lt hpage.2)) hpage
  have hold : ∀ {q j x}, tab q = some x → q ≠ p ∨ j ≠ i →
      nextTable (setPte mem₁ p i (tablePte c)) q j = nextTable mem q j := by
    intro q j x hq hqj
    apply nextTable_congr
    rw [getPte_setPte_of_ne _ _ hqj, getPte_congr (hmem q (hne hq))]
  have hempty : ∀ j, nextTable (setPte mem₁ p i (tablePte c)) c j = none := by
    intro j
    apply nextTable_of_zero
    rw [getPte_setPte_of_ne _ _ (.inl (hne hp).symm), hzero]
  have hlevel := h.level p (l + 1) b hp
  constructor
  case root => exact layout_update_keep hc h.root
  case unique =>
    intro q b' hq
    by_cases hqc : q = c
    · rw [hqc, update_self, Option.some.injEq, Prod.mk.injEq] at hq
      omega
    · rw [update_of_ne hqc] at hq
      exact h.unique q b' hq
  case level =>
    intro q l' b' hq
    by_cases hqc : q = c
    · rw [hqc, update_self, Option.some.injEq, Prod.mk.injEq] at hq
      omega
    · rw [update_of_ne hqc] at hq
      exact h.level q l' b' hq
  case linked =>
    intro q l' b' hq hl'
    by_cases hqc : q = c
    · subst hqc
      rw [update_self, Option.some.injEq, Prod.mk.injEq] at hq
      obtain ⟨rfl, rfl⟩ := hq
      rw [show (b * 512 + i) / 512 = b by omega, show (b * 512 + i) % 512 = i by omega]
      exact ⟨p, layout_update_keep hc hp, hnew⟩
    · rw [update_of_ne hqc] at hq
      obtain ⟨q', hq', hnext⟩ := h.linked q l' b' hq hl'
      refine ⟨q', layout_update_keep hc hq', (hold hq' ?_).trans hnext⟩
      -- the entry that is used now pointed to no table
      rw [← not_and_or]
      rintro ⟨rfl, heq⟩
      rw [heq, hnone] at hnext
      cases hnext
  case entry =>
    intro q l' b' j d hq hj hd
    by_cases hqc : q = c
    · rw [hqc, hempty j] at hd
      cases hd
    · rw [update_of_ne hqc] at hq
      by_cases hpi : q = p ∧ j = i
      · obtain ⟨rfl, rfl⟩ := hpi
        rw [hp, Option.some.injEq, Prod.mk.injEq] at hq
        rw [hnew] at hd
        obtain ⟨hl, rfl⟩ := hq
        cases hd
        rw [update_self, show l' = l by omega]
      · rw [hold hq (not_and_or.mp hpi)] at hd
        exact layout_update_keep hc (h.entry q l' b' j d hq hj hd)

/-- A new table has no entries, so that no entry of a page changes. -/
theorem Tree.pteOf_link (h : Tree tab mem r)
    (h' : Tree (update tab c (some (l, b * 512 + i))) (setPte mem₁ p i (tablePte c)) r)
    (hp : tab p = some (l + 1, b)) (hc : tab c = none) (hmem : ∀ q, q ≠ c → mem₁ q = mem q)
    (hzero : ∀ j, getPte mem₁ c j = 0) {v : Nat} (hv : v < 2 ^ 27) :
    pteOf (setPte mem₁ p i (tablePte c)) r v = pteOf mem r v := by
  have hpc : p ≠ c := by
    rintro rfl
    rw [hp] at hc
    cases hc
  by_cases hnew : update tab c (some (l, b * 512 + i)) c = some (0, v / 512)
  · -- the page had no table before
    have hno : ∀ q, tab q ≠ some (0, v / 512) := by
      intro q hq
      rw [h'.inj (layout_update_keep hc hq) hnew, hc] at hq
      cases hq
    rw [h'.pteOf_eq hnew, h.pteOf_eq_zero hv hno, getPte_setPte_of_ne _ _ (.inl hpc.symm), hzero]
  · refine h.pteOf_congr h' (fun q => ?_) (fun q hq => ?_) hv
    · by_cases hqc : q = c
      · rw [hqc, hc]
        exact ⟨fun hq => absurd hq hnew, nofun⟩
      · rw [update_of_ne hqc]
    · have hqp : q ≠ p := by
        rintro rfl
        rw [hp] at hq
        cases hq
      have hqc : q ≠ c := by
        rintro rfl
        rw [hc] at hq
        cases hq
      exact (update_of_ne hqp _ _).trans (hmem q hqc)

end Link

end Tree

end Xv6.Vm
