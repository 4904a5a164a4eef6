import Xv6.Vm.Space

/-!
# Page tables refine partial maps

A page table whose tables form a tree is a partial map from virtual pages to
physical pages with their flags, whatever its leaves point to.  `mappages` adds to
this map and `uvmunmap` removes from it; neither the three levels of a walk nor
the tables that a walk adds can be seen in it.

* `Spare`: the free pages are no tables, so that a new table is fresh.
* `Grows`: tables may have been added, but no entry of a page changed;
  `walkFrom_grows` is the induction on the levels of a walk.
* `mapPage_refines`, `mappages_refines`: pages are mapped one after the other, and
  a failure leaves those before it.
* `unmapPage_refines`, `uvmunmap_refines`: pages are unmapped, and freed if they are
  to be.  A page that is freed must not be one of the tables.
* `translate`, `page_table_refines_map`: the map and what the operations do to it.
-/

namespace Xv6.Vm

open Xv6.Lib.Bytes Xv6.Lib.Wp
open Function (update update_of_ne update_self)

variable {E : Panic → Prop} {tab : Layout} {s : Phys} {r : Nat}

/-! ## Growing a tree -/

/-- The free pages are no tables. -/
structure Spare (tab : Layout) (s : Phys) : Prop where
  unused : ∀ p ∈ s.freelist, tab p = none
  nodup : s.freelist.Nodup
  page : ∀ p ∈ s.freelist, p % 4096 = 0 ∧ p ≠ 0 ∧ p < 2 ^ 64

/-- Tables may have been added to the page table `r`, but no entry of a page
changed. -/
structure Grows (tab' : Layout) (r : Nat) (s s' : Phys) : Prop where
  tree : Tree tab' s'.mem r
  spare : Spare tab' s'
  kept : ∀ v, v < 2 ^ 27 → pteOf s'.mem r v = pteOf s.mem r v

/-- The number of the table below a table on the way to `va`. -/
theorem place_below (va l : Nat) :
    va / 2 ^ (12 + 9 * (l + 1 + 1)) * 512 + PX (l + 1) va = va / 2 ^ (12 + 9 * (l + 1)) := by
  have hdiv : va / 2 ^ (12 + 9 * (l + 1 + 1)) = va / 2 ^ (12 + 9 * (l + 1)) / 512 := by
    rw [Nat.div_div_eq_div_mul, show 512 = 2 ^ 9 from rfl, ← Nat.pow_add]
    rfl
  rw [hdiv, PX]
  exact Nat.div_add_mod' _ _

/-- A walk with `alloc` from a table of level `l` on the way to `va`. -/
theorem walkFrom_grows (va l : Nat) : ∀ {tab : Layout} {s : Phys} {p : Nat}, Tree tab s.mem r →
    Spare tab s → tab p = some (l, va / 2 ^ (12 + 9 * (l + 1))) →
    wp (walkFrom va true l p) E (fun res s' => ∃ tab', Grows tab' r s s' ∧ match res with
      | none => s.supply < l
      | some (q, i) => s.supply ≤ s'.supply + l ∧
          tab' q = some (0, va / 4096 / 512) ∧ i = va / 4096 % 512) s := by
  induction l with
  | zero =>
    intro tab s p htree hspare hp
    rw [walkFrom, wp_pure]
    refine ⟨tab, ⟨htree, hspare, fun _ _ => rfl⟩, Nat.le_refl _, ?_, PX_zero va⟩
    rw [Nat.div_div_eq_div_mul]
    exact hp
  | succ l ih =>
    intro tab s p htree hspare hp
    have hi : PX (l + 1) va < 512 := Nat.mod_lt _ (by decide)
    rw [walkFrom, readPte, wp_bind, wp_reads]
    by_cases hvalid : isValid (getPte s.mem p (PX (l + 1) va)) = true
    · have hnext : nextTable s.mem p (PX (l + 1) va) =
          some (PTE2PA (getPte s.mem p (PX (l + 1) va))) := by
        rw [nextTable, if_pos hvalid]
      have hchild := htree.entry p l _ _ _ hp hi hnext
      rw [place_below] at hchild
      rw [if_pos hvalid]
      refine (ih htree hspare hchild).mono fun res s' hres => ?_
      obtain ⟨tab', hgrows, hres⟩ := hres
      refine ⟨tab', hgrows, ?_⟩
      cases res with
      | none => exact Nat.lt_succ_of_lt hres
      | some q => exact ⟨Nat.le_succ_of_le hres.1, hres.2⟩
    · have hnone : nextTable s.mem p (PX (l + 1) va) = none := by
        rw [nextTable, if_neg hvalid]
      rw [if_neg hvalid, if_pos rfl, wp_bind]
      refine (kalloc_pops s).mono fun c s₁ hc => ?_
      rcases hc with ⟨rfl, href⟩ | ⟨hsupply, rest, hlist, hs₁⟩
      · have hfree := href.freelist
        rw [if_pos rfl, wp_pure]
        refine ⟨tab, ⟨href.mem ▸ htree, ?_, fun v _ => by rw [href.mem]⟩, ?_⟩
        · exact ⟨hfree ▸ hspare.unused, hfree ▸ hspare.nodup, hfree ▸ hspare.page⟩
        · rw [href.supply]
          exact Nat.succ_pos l
      · have hmemc : c ∈ s.freelist := hlist ▸ List.mem_cons_self
        have hunused := hspare.unused c hmemc
        have hpage := hspare.page c hmemc
        have hnodup := hspare.nodup
        rw [hlist, List.nodup_cons] at hnodup
        rw [if_neg hpage.2.1, memset, setPage, writePte, wp_bind, wp_updates, wp_bind, wp_updates]
        have hmem₂ : ∀ q, q ≠ c → update s₁.mem c (fun _ => 0) q = s.mem q := by
          intro q hq
          rw [update_of_ne hq, hs₁]
          exact update_of_ne hq _ _
        have hlink := htree.link hp hi hnone hunused ⟨hpage.1, hpage.2.2⟩ hmem₂
          fun j => getPte_update_zero _ _ _
        have hkept := fun v (hv : v < 2 ^ 27) => htree.pteOf_link hlink hp hunused hmem₂
          (fun j => getPte_update_zero _ _ _) hv
        rw [place_below] at hlink
        have hfree : s₁.freelist = rest := by rw [hs₁]
        have hmem' : ∀ q ∈ s₁.freelist, q ∈ s.freelist := by
          intro q hq
          rw [hlist]
          exact List.mem_cons_of_mem c (hfree ▸ hq)
        have hspare' : Spare (update tab c (some (l, va / 2 ^ (12 + 9 * (l + 1)))))
            { s₁ with
              mem := setPte (update s₁.mem c fun _ => 0) p (PX (l + 1) va) (tablePte c) } := by
          refine ⟨fun q hq => ?_, hfree ▸ hnodup.2, fun q hq => hspare.page q (hmem' q hq)⟩
          rw [update_of_ne (ne_of_mem_of_not_mem (hfree ▸ hq) hnodup.1)]
          exact hspare.unused q (hmem' q hq)
        refine (ih hlink hspare' (update_self _ _ _)).mono fun res s₂ hres => ?_
        obtain ⟨tab', hgrows, hres⟩ := hres
        refine ⟨tab', ⟨hgrows.tree, hgrows.spare,
          fun v hv => (hgrows.kept v hv).trans (hkept v hv)⟩, ?_⟩
        cases res with
        | none => exact hsupply ▸ Nat.succ_lt_succ hres
        | some q => exact ⟨hsupply ▸ Nat.succ_le_succ hres.1, hres.2⟩

theorem walk_grows {va : Nat} (h : Tree tab s.mem r) (hspare : Spare tab s) (hva : va < MAXVA) :
    wp (walk r va true) E (fun res s' => ∃ tab', Grows tab' r s s' ∧ match res with
      | none => s.supply < 2
      | some (q, i) => s.supply ≤ s'.supply + 2 ∧
          tab' q = some (0, va / 4096 / 512) ∧ i = va / 4096 % 512) s := by
  have hroot : tab r = some (2, va / 2 ^ (12 + 9 * (2 + 1))) := by
    rw [Nat.div_eq_of_lt (hva.trans (by decide)), h.root]
  rw [walk, if_neg (Nat.not_le.mpr hva)]
  exact walkFrom_grows va 2 h hspare hroot

/-! ## Mapping -/

/-- The pages from `lo` up to `lo + k` are mapped to the pages at `pa`, and no other
entry changed. -/
structure Maps (lo k pa perm r : Nat) (s s' : Phys) : Prop where
  tree : ∃ tab', Tree tab' s'.mem r ∧ Spare tab' s'
  entry : ∀ v, v < 2 ^ 27 → pteOf s'.mem r v =
    if lo ≤ v ∧ v < lo + k then mkPte (pa + (v - lo) * PGSIZE) perm else pteOf s.mem r v

/-- The body of `mappages`; it panics only if the page is mapped already, and fails only
if there is no memory for the two tables on the way to it. -/
theorem mapPage_refines {v pa perm : Nat} (h : Tree tab s.mem r) (hspare : Spare tab s)
    (hv : v < 2 ^ 26) (hpte : mkPte pa perm < 256 ^ 8)
    (hE : lookup s.mem r v ≠ none → E .mappagesRemap) :
    wp (mapPage r (v * PGSIZE) pa perm) E (fun res s' => match res with
      | some rc => rc = -1 ∧ s.supply < 2 ∧ Maps v 0 pa perm r s s'
      | none => s.supply ≤ s'.supply + 2 ∧ Maps v 1 pa perm r s s') s := by
  rw [mapPage, wp_bind]
  refine (walk_grows h hspare (vpn_lt_maxva hv)).mono fun res s₁ hwalk => ?_
  obtain ⟨tab', hgrows, hres⟩ := hwalk
  rcases res with _ | ⟨q, i⟩
  · refine (wp_pure _).mpr ⟨rfl, hres, ⟨tab', hgrows.tree, hgrows.spare⟩, fun w hw => ?_⟩
    rw [if_neg (by omega), hgrows.kept w hw]
  · obtain ⟨hsupply, hq, rfl⟩ := hres
    rw [vpn_div] at hq ⊢
    have hentry : getPte s₁.mem q (v % 512) = pteOf s.mem r v := by
      rw [← hgrows.tree.pteOf_eq hq, hgrows.kept v (by omega)]
    simp only [readPte, wp_bind, wp_reads, hentry]
    by_cases hvalid : isValid (pteOf s.mem r v) = true
    · rw [if_pos hvalid, wp_throw]
      refine hE fun hnone => ?_
      rw [lookup_eq_none.mp hnone] at hvalid
      cases hvalid
    · rw [if_neg hvalid, writePte, wp_bind, wp_updates, wp_pure]
      have hstore := hgrows.tree.store hq (v % 512) (mkPte pa perm)
      refine ⟨hsupply, ⟨tab', hstore, hgrows.spare.unused, hgrows.spare.nodup, hgrows.spare.page⟩,
        fun w hw => ?_⟩
      rw [hgrows.tree.pteOf_store hstore (fun _ => Iff.rfl) (fun _ _ => rfl) hq
        (Nat.mod_lt _ (by decide)) hpte hw, hgrows.kept w hw, Nat.div_add_mod']
      by_cases hwv : w = v
      · rw [if_pos hwv, if_pos (by omega), hwv, Nat.sub_self, Nat.zero_mul, Nat.add_zero]
      · rw [if_neg hwv, if_neg (by omega)]

/-- `mappages` maps every page, or runs out of memory for a table after some.  Each page
needs two tables at most. -/
theorem mappages_refines {lo n pa perm : Nat} (h : Tree tab s.mem r) (hspare : Spare tab s)
    (hpos : 0 < n) (hend : lo + n ≤ 2 ^ 26) (hpa : pa + n * PGSIZE ≤ 2 ^ 64) (hperm : perm < 1024)
    (hE : (∃ v, lo ≤ v ∧ v < lo + n ∧ lookup s.mem r v ≠ none) → E .mappagesRemap) :
    wp (mappages r (lo * PGSIZE) (n * PGSIZE) pa perm) E (fun rc s' =>
      rc = 0 ∧ Maps lo n pa perm r s s' ∨
      rc = -1 ∧ s.supply < 2 * n ∧ ∃ k, k < n ∧ Maps lo k pa perm r s s') s := by
  have hsize : PGSIZE = 4096 := rfl
  rw [mappages, if_neg (not_not.mpr (Nat.mul_mod_left lo PGSIZE)),
    if_neg (not_not.mpr (Nat.mul_mod_left n PGSIZE)), if_neg (by rw [hsize]; omega),
    Nat.mul_div_cancel n (by decide), wp_bind]
  refine (wp_untilSome (I := fun k t => s.supply ≤ t.supply + 2 * k ∧ Maps lo k pa perm r s t)
    (R := fun rc t => rc = -1 ∧ s.supply < 2 * n ∧ ∃ k, k < n ∧ Maps lo k pa perm r s t) ?_
    fun k hk t hinv => ?_).mono fun res t hres => ?_
  · refine ⟨Nat.le_refl _, ⟨tab, h, hspare⟩, fun v _ => ?_⟩
    rw [if_neg (by omega)]
  · obtain ⟨hsupply, hmaps⟩ := hinv
    -- the page is as it was at the start
    obtain ⟨tab', htree, hspare'⟩ := hmaps.tree
    have hold := hmaps.entry (lo + k) (by omega)
    rw [if_neg (by omega)] at hold
    have hpte : mkPte (pa + k * PGSIZE) perm < 256 ^ 8 := by
      refine mkPte_lt (Nat.lt_of_lt_of_le ?_ hpa) hperm
      rw [hsize]
      omega
    rw [← Nat.add_mul]
    refine (mapPage_refines htree hspare' (by omega) hpte fun hsome =>
      hE ⟨lo + k, by omega, by omega, lookup_congr hold ▸ hsome⟩).mono fun res t' hpage => ?_
    rcases res with _ | rc
    · obtain ⟨hused, hpage⟩ := hpage
      refine ⟨by omega, hpage.tree, fun v hv => ?_⟩
      rw [hpage.entry v hv, hmaps.entry v hv]
      by_cases hvk : v = lo + k
      · rw [if_pos (by omega), if_pos (by omega), hvk, Nat.sub_self, Nat.zero_mul, Nat.add_zero,
          Nat.add_sub_cancel_left]
      · rw [if_neg (by omega)]
        exact if_congr (by omega) rfl rfl
    · obtain ⟨rfl, hused, hpage⟩ := hpage
      refine ⟨rfl, by omega, k, hk, hpage.tree, fun v hv => ?_⟩
      rw [hpage.entry v hv, if_neg (by omega), hmaps.entry v hv]
  · rw [wp_pure]
    rcases res with _ | rc
    · exact .inl ⟨rfl, hres.2⟩
    · exact .inr hres

/-! ## Unmapping -/

/-- The pages in `P` are not mapped, and all others are as before. -/
structure Unmaps (P : Nat → Prop) [DecidablePred P] (tab : Layout) (r : Nat)
    (s s' : Phys) : Prop where
  tree : Tree tab s'.mem r
  entry : ∀ v, v < 2 ^ 27 → lookup s'.mem r v = if P v then none else lookup s.mem r v

/-- The body of `uvmunmap`; it panics only if it has to free what is no memory. -/
theorem unmapPage_refines {v : Nat} {doFree : Bool} (h : Tree tab s.mem r) (hv : v < 2 ^ 26)
    (hleaf : doFree = true → ∀ e, lookup s.mem r v = some e → tab (PTE2PA e) = none)
    (hE : doFree = true → E .kfree) :
    wp (unmapPage r (v * PGSIZE) doFree) E (fun _ s' => Unmaps (· = v) tab r s s') s := by
  refine unmapPage_rule hv (fun hnone => ⟨h, fun w _ => ?_⟩) fun q e hloc _ he => ?_
  · by_cases hwv : w = v
    · rw [if_pos hwv, hwv, hnone]
    · rw [if_neg hwv]
  · have hq := h.tab_of_locate (by omega) hloc
    -- clearing the entry, when at most memory that is no table changed before
    have hclear : ∀ t : Phys, (∀ p x, tab p = some x → t.mem p = s.mem p) →
        wp (writePte q (v % 512) 0) E (fun _ s' => Unmaps (· = v) tab r s s') t := by
      intro t ht
      have htree := h.congr fun p l b hp => ht p _ hp
      have hstore := htree.store hq (v % 512) 0
      rw [writePte, wp_updates]
      refine ⟨hstore, fun w hw => ?_⟩
      have hset := htree.pteOf_store hstore (fun _ => Iff.rfl) (fun _ _ => rfl) hq
        (Nat.mod_lt v (by decide : 0 < 512)) (e := 0) (by decide) hw
      rw [Nat.div_add_mod',
        h.pteOf_congr htree (fun _ => Iff.rfl) (fun p hp => ht p _ hp) hw] at hset
      by_cases hwv : w = v
      · rw [if_pos hwv] at hset ⊢
        rw [lookup_eq_none, hset, not_isValid_zero]
      · rw [if_neg hwv] at hset ⊢
        exact lookup_congr hset
    cases doFree with
    | false =>
      rw [if_neg (by decide)]
      exact hclear s fun _ _ _ => rfl
    | true =>
      rw [if_pos rfl, kfree, wp_bind, wp_bind, wp_reads]
      split
      · exact (wp_throw _).mpr (hE rfl)
      · rw [memset, setPage, wp_bind, wp_updates, wp_updates]
        refine hclear _ fun p x hp => update_of_ne ?_ _ _
        rintro rfl
        rw [hleaf rfl e he] at hp
        cases hp

theorem uvmunmap_refines {lo n : Nat} {doFree : Bool} (h : Tree tab s.mem r)
    (hend : lo + n ≤ 2 ^ 26)
    (hleaf : doFree = true → ∀ v e, lo ≤ v → v < lo + n → lookup s.mem r v = some e →
      tab (PTE2PA e) = none)
    (hE : doFree = true → E .kfree) :
    wp (uvmunmap r (lo * PGSIZE) n doFree) E
      (fun _ s' => Unmaps (fun v => lo ≤ v ∧ v < lo + n) tab r s s') s := by
  rw [uvmunmap_eq hend]
  refine wp_forRange (I := fun k t => Unmaps (fun v => lo ≤ v ∧ v < lo + k) tab r s t) ?_
    fun k hk t hinv => ?_
  · refine ⟨h, fun v _ => ?_⟩
    rw [if_neg (by omega)]
  · have hold := hinv.entry (lo + k) (by omega)
    rw [if_neg (by omega)] at hold
    refine (unmapPage_refines hinv.tree (by omega) (fun hfree e he => ?_) hE).mono
      fun _ t' hstep => ?_
    · exact hleaf hfree (lo + k) e (by omega) (by omega) (hold ▸ he)
    · refine ⟨hstep.tree, fun v hv => ?_⟩
      rw [hstep.entry v hv, hinv.entry v hv]
      by_cases hvk : v = lo + k
      · rw [if_pos hvk, if_pos (by omega)]
      · rw [if_neg hvk]
        exact if_congr (by omega) rfl rfl

/-! ## The map -/

/-- The physical address and the flags of the page at `a`. -/
def translate (mem : Nat → Nat → UInt8) (r a : Nat) : Option (Nat × Nat) :=
  (lookup mem r (a / PGSIZE)).map fun e => (PTE2PA e, PTE_FLAGS e)

theorem translate_congr {mem mem' : Nat → Nat → UInt8} {a : Nat}
    (h : pteOf mem' r (a / PGSIZE) = pteOf mem r (a / PGSIZE)) :
    translate mem' r a = translate mem r a := by
  rw [translate, lookup_congr h, translate]

theorem translate_mkPte {mem : Nat → Nat → UInt8} {a pa perm : Nat}
    (h : pteOf mem r (a / PGSIZE) = mkPte pa perm) (hpa : pa % PGSIZE = 0 ∧ pa < 2 ^ 64)
    (hperm : perm < 1024) :
    translate mem r a = some (pa, perm ||| PTE_V) := by
  have hlow := or_valid_lt hperm
  have hlook : lookup mem r (a / PGSIZE) = some (mkPte pa perm) :=
    lookup_eq_some.mpr ⟨h ▸ isValid_mkPte pa hperm, h⟩
  rw [translate, hlook, Option.map_some, PTE2PA_mkPte hpa hperm, PTE_FLAGS, mkPte_eq pa hperm,
    show (pa / 4096 * 1024 + (perm ||| PTE_V)) % 1024 = perm ||| PTE_V by omega]

theorem vpn_lt_end {v lo n : Nat} (h : v < lo + n) : v * PGSIZE < lo * PGSIZE + n * PGSIZE := by
  rw [← Nat.add_mul]
  exact Nat.mul_lt_mul_of_pos_right h (by decide)

/-- A page table whose tables form a tree refines a partial map.  A `mappages` that
succeeds maps the pages of its range to consecutive physical pages and changes nothing
else; one that fails lacks memory for tables, and if it is one of a single page it
changes nothing; `uvmunmap` unmaps the pages of its range and changes nothing else. -/
theorem page_table_refines_map (h : Tree tab s.mem r) (hspare : Spare tab s) :
    (∀ va size pa perm, va % PGSIZE = 0 → size % PGSIZE = 0 → 0 < size → va + size ≤ MAXVA →
      pa % PGSIZE = 0 → pa + size ≤ 2 ^ 64 → perm < 1024 →
      -- it returns unless a page is mapped already
      ((∀ a, va ≤ a → a < va + size → translate s.mem r a = none) →
        ∃ rc s', mappages r va size pa perm s = .ok (rc, s')) ∧
      ∀ rc s', mappages r va size pa perm s = .ok (rc, s') → (rc = 0 ∨ rc = -1) ∧
        (∃ tab', Tree tab' s'.mem r ∧ Spare tab' s') ∧
        (rc = 0 → ∀ a, a % PGSIZE = 0 → a < MAXVA → translate s'.mem r a =
          if va ≤ a ∧ a < va + size then some (pa + (a - va), perm ||| PTE_V)
          else translate s.mem r a) ∧
        (rc = -1 → s.supply < 2 * (size / PGSIZE)) ∧
        (rc = -1 → size = PGSIZE → ∀ a, a < MAXVA → translate s'.mem r a = translate s.mem r a)) ∧
    ∀ va n doFree, va % PGSIZE = 0 → va + n * PGSIZE ≤ MAXVA →
      -- a page to be freed is not one of the tables
      (doFree = true → ∀ a pa flags, va ≤ a → a < va + n * PGSIZE →
        translate s.mem r a = some (pa, flags) → tab pa = none) →
      (doFree = false → ∃ s', uvmunmap r va n doFree s = .ok ((), s')) ∧
      ∀ s', uvmunmap r va n doFree s = .ok ((), s') → Tree tab s'.mem r ∧
        ∀ a, a % PGSIZE = 0 → a < MAXVA → translate s'.mem r a =
          if va ≤ a ∧ a < va + n * PGSIZE then none else translate s.mem r a := by
  have hsize : PGSIZE = 4096 := rfl
  have hmax : MAXVA = 2 ^ 38 := rfl
  have hnone : ∀ {a}, translate s.mem r a = none → lookup s.mem r (a / PGSIZE) = none :=
    fun ha => Option.map_eq_none_iff.mp ha
  constructor
  · intro va size pa perm hva hsz hpos hend hpa hwrap hperm
    obtain ⟨lo, rfl⟩ : ∃ lo, va = lo * PGSIZE := ⟨va / PGSIZE, by rw [hsize] at hva ⊢; omega⟩
    obtain ⟨n, rfl⟩ : ∃ n, size = n * PGSIZE := ⟨size / PGSIZE, by rw [hsize] at hsz ⊢; omega⟩
    rw [hsize] at hpos hend
    have hspec : ∀ E, _ → wp (mappages r (lo * PGSIZE) (n * PGSIZE) pa perm) E _ s := fun E hE =>
      mappages_refines h hspare (by omega) (by omega) hwrap hperm hE
    constructor
    · intro hfree
      have hE : (∃ v, lo ≤ v ∧ v < lo + n ∧ lookup s.mem r v ≠ none) → False := by
        rintro ⟨v, hlo, hhi, hsome⟩
        have hfree' := hnone (hfree (v * PGSIZE) (Nat.mul_le_mul_right _ hlo) (vpn_lt_end hhi))
        rw [Nat.mul_div_cancel v (by decide)] at hfree'
        exact hsome hfree'
      obtain ⟨rc, s', hrun, -⟩ := (hspec (fun _ => False) hE).returns
      exact ⟨rc, s', hrun⟩
    · intro rc s' hrun
      have hpost := (hspec (fun _ => True) fun _ => trivial).of_ok hrun
      refine ⟨hpost.imp And.left And.left, ?_, fun hrc a ha hlt => ?_, fun hrc => ?_,
        fun hrc hone a hlt => ?_⟩
      · rcases hpost with ⟨-, hmaps⟩ | ⟨-, -, k, -, hmaps⟩
        · exact hmaps.tree
        · exact hmaps.tree
      · have hmaps := (hpost.resolve_right fun hfail => by omega).2
        have hentry := hmaps.entry (a / PGSIZE) (by rw [hsize]; omega)
        rw [hsize] at ha ⊢
        by_cases hin : lo * 4096 ≤ a ∧ a < lo * 4096 + n * 4096
        · rw [if_pos (by rw [hsize]; omega)] at hentry
          rw [if_pos hin, translate_mkPte hentry (by rw [hsize] at hpa hwrap ⊢; omega) hperm]
          congr 2
          rw [hsize]
          omega
        · rw [if_neg (by rw [hsize]; omega)] at hentry
          rw [if_neg hin]
          exact translate_congr hentry
      · rw [Nat.mul_div_cancel n (by decide)]
        exact (hpost.resolve_left fun hok => by omega).2.1
      · obtain ⟨-, -, k, hk, hmaps⟩ := hpost.resolve_left fun hok => by omega
        have hk0 : k = 0 := by
          rw [hsize] at hone
          omega
        have hentry := hmaps.entry (a / PGSIZE) (by rw [hsize]; omega)
        rw [if_neg (by omega)] at hentry
        exact translate_congr hentry
  · intro va n doFree hva hend hleaf
    obtain ⟨lo, rfl⟩ : ∃ lo, va = lo * PGSIZE := ⟨va / PGSIZE, by rw [hsize] at hva ⊢; omega⟩
    rw [hsize] at hend
    have htables : doFree = true → ∀ v e, lo ≤ v → v < lo + n → lookup s.mem r v = some e →
        tab (PTE2PA e) = none := by
      intro hfree v e hlo hhi he
      refine hleaf hfree (v * PGSIZE) (PTE2PA e) (PTE_FLAGS e) (Nat.mul_le_mul_right _ hlo)
        (vpn_lt_end hhi) ?_
      rw [translate, Nat.mul_div_cancel v (by decide), he, Option.map_some]
    have hspec := fun E hE => uvmunmap_refines (E := E) h (show lo + n ≤ 2 ^ 26 by omega) htables hE
    constructor
    · intro hkeep
      have hE : ¬ doFree = true := by simp [hkeep]
      obtain ⟨_, s', hrun, -⟩ := (hspec (fun _ => False) hE).returns
      exact ⟨s', hrun⟩
    · intro s' hrun
      have hun := (hspec (fun _ => True) fun _ => trivial).of_ok hrun
      refine ⟨hun.tree, fun a ha hlt => ?_⟩
      have hentry := hun.entry (a / PGSIZE) (by rw [hsize]; omega)
      rw [translate, hentry, translate]
      rw [hsize] at ha ⊢
      by_cases hin : lo * 4096 ≤ a ∧ a < lo * 4096 + n * 4096
      · rw [if_pos (by omega), if_pos hin, Option.map_none]
      · rw [if_neg (by omega), if_neg hin]

/-- The layout of the page table `oldTable` of `emptyTables`: it is its root only. -/
def emptyLayout : Layout := fun p => if p = oldTable then some (2, 0) else none

theorem emptyLayout_eq_some {p : Nat} {x : Nat × Nat} (h : emptyLayout p = some x) :
    p = oldTable ∧ x = (2, 0) := by
  unfold emptyLayout at h
  split at h
  · exact ⟨‹_›, (Option.some.inj h).symm⟩
  · cases h

theorem tree_emptyTables : Tree emptyLayout emptyTables.mem oldTable := by
  constructor
  case root => rfl
  case unique => exact fun p b hp => (emptyLayout_eq_some hp).1
  case level =>
    intro p l b hp
    rw [(Prod.mk.inj (emptyLayout_eq_some hp).2).1]
  case linked =>
    intro p l b hp hl
    have := (Prod.mk.inj (emptyLayout_eq_some hp).2).1
    omega
  case entry =>
    intro p l b i c _ _ hc
    rw [nextTable_emptyTables] at hc
    cases hc

/-- Two pages are mapped in a page table without entries, and one is unmapped. -/
theorem page_table_refines_map_emptyTable :
    ∃ s' s'', mappages oldTable PGSIZE (2 * PGSIZE) KERNBASE PTE_R emptyTables = .ok (0, s') ∧
      (∀ a, a % PGSIZE = 0 → a < MAXVA → translate s'.mem oldTable a =
        if PGSIZE ≤ a ∧ a < PGSIZE + 2 * PGSIZE then some (KERNBASE + (a - PGSIZE), PTE_R ||| PTE_V)
        else none) ∧
      uvmunmap oldTable PGSIZE 1 false s' = .ok ((), s'') ∧
      translate s''.mem oldTable PGSIZE = none ∧
      translate s''.mem oldTable (2 * PGSIZE) = some (KERNBASE + PGSIZE, PTE_R ||| PTE_V) := by
  have hspare : Spare emptyLayout emptyTables := by constructor <;> decide
  have hempty : ∀ a, translate emptyTables.mem oldTable a = none := fun a => by
    rw [translate, lookup_emptyTables, Option.map_none]
  obtain ⟨hreturns, hpost⟩ := (page_table_refines_map tree_emptyTables hspare).1 PGSIZE (2 * PGSIZE)
    KERNBASE PTE_R (by decide) (by decide) (by decide) (by decide) (by decide) (by decide)
      (by decide)
  obtain ⟨rc, s', hrun⟩ := hreturns fun a _ _ => hempty a
  obtain ⟨hrc, ⟨tab', htree, hspare'⟩, hmaps, hfails, -⟩ := hpost rc s' hrun
  obtain rfl : rc = 0 := hrc.resolve_right fun hbad => absurd (hfails hbad) (by decide)
  replace hmaps := hmaps rfl
  simp only [hempty] at hmaps
  obtain ⟨hreturns', hpost'⟩ := (page_table_refines_map htree hspare').2 PGSIZE 1 false (by decide)
    (by decide) (by simp)
  obtain ⟨s'', hrun'⟩ := hreturns' rfl
  have hun := (hpost' s'' hrun').2
  refine ⟨s', s'', hrun, hmaps, hrun', ?_, ?_⟩
  · rw [hun PGSIZE (by decide) (by decide), if_pos (by decide)]
  · rw [hun (2 * PGSIZE) (by decide) (by decide), if_neg (by decide),
      hmaps _ (by decide) (by decide), if_pos (by decide)]
    rfl

end Xv6.Vm
