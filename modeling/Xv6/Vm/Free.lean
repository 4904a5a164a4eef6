import Xv6.Vm.Alloc

/-!
# Freeing a page table

Specifications of `freewalk`, `uvmfree` and of `uvmunmap` on the trampoline and
the trapframe.

* `Pruned`: some tables of a page table were freed, below a given level.
* `freewalk_spec`: `freewalk` on a table without leaves frees it with all tables
  below it, and does not panic.
* `Freed`: a page table and its user pages are gone; `uvmfree_spec`.
-/

namespace Xv6.Vm

open Xv6.Lib.Bytes Xv6.Lib.Wp
open Function (update update_of_ne update_self)

variable {E : Panic → Prop} {X : Nat → Nat → Prop} {own : Owner} {s : Phys} {r : Nat}

/-! ## `freewalk` -/

/-- No table of level 0 of the page table `r` has a valid entry. -/
def NoLeaf (r : Nat) (own : Owner) (s : Phys) : Prop :=
  ∀ q b i, own q = some (.table r 0 b) → i < 512 → isValid (getPte s.mem q i) = false

/-- Tables of `r` were freed and entries cleared, up to level `l`. -/
structure Pruned (r l : Nat) (X : Nat → Nat → Prop) (own own' : Owner) (s s' : Phys) : Prop where
  owned : OwnedX X own' s'
  frame : Frame r NoPage own own' s s'
  above : ∀ q l' v, l < l' → own q = some (.table r l' v) →
    own' q = some (.table r l' v) ∧ s'.mem q = s.mem q
  old : ∀ q l' v, own' q = some (.table r l' v) → own q = some (.table r l' v) ∧
    (l' = 0 → s'.mem q = s.mem q)

section Pruned

variable {l : Nat} {own' own'' : Owner} {s' s'' : Phys}

theorem Pruned.refl (h : OwnedX X own s) (r l : Nat) : Pruned r l X own own s s :=
  ⟨h, Frame.refl _ _ _ _, fun _ _ _ _ hq => ⟨hq, rfl⟩, fun _ _ _ hq => ⟨hq, fun _ => rfl⟩⟩

theorem Pruned.trans {Y : Nat → Nat → Prop} (h : Pruned r l X own own' s s')
    (h' : Pruned r l Y own' own'' s' s'') : Pruned r l Y own own'' s s'' := by
  refine ⟨h'.owned, h.frame.trans h'.frame, fun q l' v hl hq => ?_, fun q l' v hq => ?_⟩
  · have h1 := h.above q l' v hl hq
    have h2 := h'.above q l' v hl h1.1
    exact ⟨h2.1, h2.2.trans h1.2⟩
  · have h2 := h'.old q l' v hq
    have h1 := h.old q l' v h2.1
    exact ⟨h1.1, fun hl => (h2.2 hl).trans (h1.2 hl)⟩

theorem Pruned.noLeaf (h : Pruned r l X own own' s s') (hno : NoLeaf r own s) :
    NoLeaf r own' s' := by
  intro q b i hq hi
  obtain ⟨hq', hmem⟩ := h.old q 0 b hq
  rw [getPte, hmem rfl]
  exact hno q b i hq' hi

theorem Pruned.widen {l' : Nat} (h : Pruned r l X own own' s s') (hl : l ≤ l') :
    Pruned r l' X own own' s s' :=
  ⟨h.owned, h.frame, fun q k v hk => h.above q k v (by omega), h.old⟩

end Pruned

/-- The end of `freewalk`: a table without valid entries is freed. -/
theorem kfree_table {p l b : Nat} (h : OwnedX X own s) (hp : own p = some (.table r l b))
    (hempty : ∀ i, i < 512 → isValid (getPte s.mem p i) = false)
    (hX : ∀ q, own q = some (.table r (l + 1) (b / 512)) → X q (b % 512)) :
    wp (kfree p) E (fun _ s' => ∃ own', Pruned r l X own own' s s' ∧ own' p = some .free) s := by
  have hram := h.ram p (by simp [hp])
  have hok : ¬ (p % PGSIZE ≠ 0 ∨ p < s.kend ∨ PHYSTOP ≤ p) := by
    rw [show PGSIZE = 4096 from rfl]
    omega
  simp only [kfree, wp_bind, wp_reads, if_neg hok, memset, setPage, wp_updates]
  have hkeep : ∀ {q x}, own q = some x → x ≠ .table r l b →
      update own p (some .free) q = some x ∧
        update s.mem p (fun _ => 1) q = s.mem q := by
    intro q x hq hx
    have hne : q ≠ p := ne_of_role hq hp hx
    rw [update_of_ne hne, update_of_ne hne]
    exact ⟨hq, rfl⟩
  refine ⟨_, ⟨h.dropTable hp hempty hX _, ⟨rfl, rfl, own_update_eq_none hp,
    fun q hq => update_of_ne (ne_of_none hq hp) _ _,
    fun q hq => .inl (own_update_ne hq nofun).1, fun q r' l' v hne hq => ?_,
    fun q r' l' v _ hq => (own_update_ne hq nofun).1, fun q hq _ => hkeep hq nofun,
    fun q r' v hq _ => hkeep hq nofun⟩, fun q l' v hl hq => ?_, fun q l' v hq => ?_⟩,
    update_self _ _ _⟩
  · exact hkeep hq fun heq => hne (Role.table.inj heq).1
  · exact hkeep hq fun heq => absurd (Role.table.inj heq).2.1 (by omega)
  · obtain ⟨hq, hqp⟩ := own_update_ne hq nofun
    exact ⟨hq, fun _ => update_of_ne hqp _ _⟩

theorem isLeaf_tablePte (pa : Nat) : isLeaf (tablePte pa) = false := by
  rw [tablePte_eq, isLeaf_mkPte pa (by decide)]
  rfl

/-- `freewalk` on a table of level `l`.  `X` has the entry that points to it,
and other entries of higher levels at most. -/
theorem freewalk_spec (l : Nat) : ∀ {X : Nat → Nat → Prop} {own : Owner} {s : Phys} {p b : Nat},
    OwnedX X own s → NoLeaf r own s → own p = some (.table r l b) →
    (∀ q, own q = some (.table r (l + 1) (b / 512)) → X q (b % 512)) →
    (∀ q i, X q i → ∃ l' v, l < l' ∧ own q = some (.table r l' v)) →
    wp (freewalk (l + 1) p) E
      (fun _ s' => ∃ own', Pruned r l X own own' s s' ∧ own' p = some .free) s := by
  induction l with
  | zero =>
    intro X own s p b h hno hp hX _
    rw [freewalk, wp_bind]
    refine (wp_forRange (n := 512) (I := fun _ t => t = s) rfl fun i hi t ht => ?_).mono
      fun _ t ht => ?_
    · subst ht
      have hinv := hno p b i hp hi
      simp [readPte, hinv]
    · subst ht
      exact kfree_table h hp (fun i hi => hno p b i hp hi) hX
  | succ l ih =>
    intro X own s p b h hno hp hX hlevel
    have hpX : ∀ {own' : Owner}, own' p = some (.table r (l + 1) b) →
        (∀ q i, X q i → ∃ l' v, l + 1 < l' ∧ own' q = some (.table r l' v)) → ∀ i, ¬ X p i := by
      intro own' hp' hlevel' i hXi
      obtain ⟨l', v, hl', hq⟩ := hlevel' p i hXi
      rw [hp'] at hq
      have := (table_role_eq hq).2.1
      omega
    rw [freewalk, wp_bind]
    refine (wp_forRange (n := 512) (I := fun k t => ∃ own₁, Pruned r (l + 1) X own own₁ s t ∧
        own₁ p = some (.table r (l + 1) b) ∧ ∀ i, i < k → isValid (getPte t.mem p i) = false)
      ⟨own, Pruned.refl h r _, hp, fun i hi => absurd hi (Nat.not_lt_zero i)⟩
      fun k hk t hinv => ?_).mono fun _ t hinv => ?_
    · obtain ⟨own₁, hpruned, hp₁, hdone⟩ := hinv
      have hlevel₁ : ∀ q i, X q i → ∃ l' v, l + 1 < l' ∧ own₁ q = some (.table r l' v) := by
        intro q i hXi
        obtain ⟨l', v, hl', hq⟩ := hlevel q i hXi
        exact ⟨l', v, hl', (hpruned.above q l' v hl' hq).1⟩
      rw [readPte, wp_bind, wp_reads]
      cases hvalid : isValid (getPte t.mem p k) with
      | false =>
        simp only [Bool.false_eq_true, false_and, if_false, wp_pure]
        refine ⟨own₁, hpruned, hp₁, fun i hi => ?_⟩
        rcases Nat.lt_succ_iff_lt_or_eq.mp hi with hi | rfl
        · exact hdone i hi
        · exact hvalid
      | true =>
        obtain ⟨c, hc, hown⟩ := hpruned.owned.entry p r l b k hp₁ hk (hpX hp₁ hlevel₁ k) hvalid
        rw [hc, isLeaf_tablePte, if_pos ⟨rfl, rfl⟩, PTE2PA_tablePte (hpruned.owned.pageAddr hown),
          wp_bind]
        -- the entry is exempt while the table below it is gone
        have hexempt : OwnedX (fun q j => X q j ∨ q = p ∧ j = k) own₁ t :=
          hpruned.owned.exempt fun _ _ => .inl
        have hdiv : (b * 512 + k) / 512 = b := by omega
        have hmod : (b * 512 + k) % 512 = k := by omega
        refine (ih hexempt (hpruned.noLeaf hno) hown ?_ ?_).mono fun _ t₂ hfree => ?_
        · rw [hdiv, hmod]
          exact fun q hq => .inr ⟨hpruned.owned.inj hq hp₁, rfl⟩
        · rintro q i (hXi | ⟨rfl, rfl⟩)
          · obtain ⟨l', v, hl', hq⟩ := hlevel₁ q i hXi
            exact ⟨l', v, by omega, hq⟩
          · exact ⟨l + 1, b, by omega, hp₁⟩
        · obtain ⟨own₂, hpruned₂, hgone⟩ := hfree
          obtain ⟨hp₂, hmem₂⟩ := hpruned₂.above p (l + 1) b (by omega) hp₁
          have hnone : ¬ HasTable own₂ r l (b * 512 + k) := by
            rintro ⟨q, hq⟩
            rw [hpruned.owned.inj (hpruned₂.old q l _ hq).1 hown, hgone] at hq
            cases hq
          rw [writePte, wp_updates]
          have hclear := hpruned₂.owned.clearEntry hp₂ hnone
          have hstep : Pruned r (l + 1) X own₂ own₂ t₂
              { t₂ with mem := setPte t₂.mem p k 0 } := by
            have hother : ∀ {q x}, own₂ q = some x → x ≠ .table r (l + 1) b →
                setPte t₂.mem p k 0 q = t₂.mem q :=
              fun hq hx => setPte_of_ne _ _ _ (ne_of_role hq hp₂ hx)
            refine ⟨hclear, ⟨rfl, rfl, fun _ => Iff.rfl,
              fun q hq => setPte_of_ne _ _ _ (ne_of_none hq hp₂), fun _ => .inl,
              fun q r' l' v hne hq => ⟨hq, hother hq ?_⟩, fun _ _ _ _ _ hq => hq,
              fun q hq _ => ⟨hq, hother hq (by simp)⟩,
              fun q r' v hq _ => ⟨hq, hother hq (by simp)⟩⟩, fun q l' v hl hq => ⟨hq, hother hq ?_⟩,
              fun q l' v hq => ⟨hq, fun hl => hother hq ?_⟩⟩
            · exact fun heq => hne (Role.table.inj heq).1
            · exact fun heq => absurd (Role.table.inj heq).2.1 (by omega)
            · exact fun heq => absurd (Role.table.inj heq).2.1 (by omega)
          refine ⟨own₂, (hpruned.trans (hpruned₂.widen (Nat.le_succ l))).trans hstep, hp₂,
            fun i hi => ?_⟩
          rcases Nat.lt_succ_iff_lt_or_eq.mp hi with hi | rfl
          · rw [getPte_setPte_of_ne _ _ (.inr (by omega)), getPte, hmem₂]
            exact hdone i hi
          · rw [getPte_setPte_self _ _ _ (by decide)]
            rfl
    · obtain ⟨own₁, hpruned, hp₁, hdone⟩ := hinv
      refine (kfree_table hpruned.owned hp₁ hdone fun q hq => ?_).mono fun _ t' hfree => ?_
      · exact hX q (hpruned.old q _ _ hq).1
      · obtain ⟨own₂, hpruned₂, hgone⟩ := hfree
        exact ⟨own₂, hpruned.trans hpruned₂, hgone⟩

/-! ## `uvmfree` -/

/-- The numbers of the tables of level 0. -/
theorem Owned.table_lt (h : Owned own s) {q b : Nat} (hq : own q = some (.table r 0 b)) :
    b < 2 ^ 18 := by
  obtain ⟨q₁, hq₁, -⟩ := h.linked q r 0 b hq (by omega)
  obtain ⟨q₂, hq₂, -⟩ := h.linked q₁ r 1 _ hq₁ (by omega)
  have hzero := (h.root q₂ r _ hq₂).2
  omega

theorem Owned.noLeaf (h : Owned own s) (hnone : ∀ v, v < 2 ^ 27 → lookup s.mem r v = none) :
    NoLeaf r own s := by
  intro q b i hq hi
  have hb := h.table_lt hq
  have hdiv : (b * 512 + i) / 512 = b := by omega
  have hmod : (b * 512 + i) % 512 = i := by omega
  have hpte := h.pteOf_eq (v := b * 512 + i) (hdiv.symm ▸ hq)
  rw [hmod] at hpte
  rw [← hpte]
  exact lookup_eq_none.mp (hnone _ (by omega))

/-- The page table `r` is gone, with its user pages. -/
structure Freed (r : Nat) (own own' : Owner) (s s' : Phys) : Prop where
  owned : Owned own' s'
  frame : Frame r (fun p => ∃ v, own p = some (.user r v)) own own' s s'
  gone : own' r = some .free

theorem freewalk_root (h : Owned own s) (hr : Root own r)
    (hnone : ∀ v, v < 2 ^ 27 → lookup s.mem r v = none) :
    wp (freewalk 3 r) E (fun _ s' => ∃ own', Freed r own own' s s') s := by
  refine (freewalk_spec 2 h (h.noLeaf hnone) hr (fun q hq => ?_) (fun _ _ hX => hX.elim)).mono
    fun _ s' hfree => ?_
  · have hle := h.level q r 3 _ hq
    omega
  · obtain ⟨own', hpruned, hgone⟩ := hfree
    exact ⟨own', hpruned.owned, hpruned.frame.widen nofun, hgone⟩

theorem uvmfree_spec {sz : Nat} (h : Owned own s) (hr : Root own r) (hsz : sz ≤ TRAPFRAME)
    (hnone : ∀ v, v < 2 ^ 27 → npages sz ≤ v → lookup s.mem r v = none) :
    wp (uvmfree r sz) E (fun _ s' => ∃ own', Freed r own own' s s') s := by
  have htf : TRAPFRAME + 4095 < 2 ^ 64 := by decide
  have hpages := npages_le_of_le_trapframe hsz
  rw [uvmfree]
  dsimp only
  by_cases hpos : 0 < sz
  · have hcount : PGROUNDUP sz / PGSIZE = npages sz := by
      rw [PGROUNDUP_eq (by omega), Nat.mul_div_cancel _ (by decide)]
    rw [if_pos hpos, wp_bind, hcount]
    have hunmap : wp (uvmunmap r 0 (npages sz) true) E (fun _ s' =>
        ∃ own', Unmapped r (fun v => 0 ≤ v ∧ v < 0 + npages sz) own own' s s') s := by
      have hspec := uvmunmap_spec (E := E) (n := npages sz) h hr ((Nat.zero_add _).trans_le hpages)
      rwa [Nat.zero_mul] at hspec
    refine hunmap.mono fun _ s₁ hun => ?_
    obtain ⟨own₁, hun⟩ := hun
    refine (freewalk_root hun.owned hun.root fun v hv => ?_).mono fun _ s₂ hfree => ?_
    · by_cases hlt : v < npages sz
      · exact hun.gone v hv ⟨by omega, by omega⟩
      · rw [hun.kept v hv (by omega)]
        exact hnone v hv (by omega)
    · obtain ⟨own₂, hfree⟩ := hfree
      refine ⟨own₂, hfree.owned, (hun.frame.widen ?_).trans (hfree.frame.widen ?_), hfree.gone⟩
      · exact fun p ⟨v, _, hp⟩ => ⟨v, hp⟩
      · exact fun p ⟨v, hp⟩ => ⟨v, hun.users p r v hp⟩
  · have hzero : sz = 0 := by omega
    subst hzero
    rw [if_neg hpos]
    exact freewalk_root h hr fun v hv => hnone v hv (Nat.zero_le v)

/-! ## The trampoline and the trapframe -/

/-- `uvmunmap` of one page above user memory. -/
theorem unmapSpecial_spec {v : Nat} (h : Owned own s) (hr : Root own r) (hv : TFVPN ≤ v)
    (hv' : v < 2 ^ 26) :
    wp (uvmunmap r (v * PGSIZE) 1 false) E (fun _ s' => Owned own s' ∧ Frame r NoPage own own s s' ∧
      ∀ w, w < 2 ^ 27 → lookup s'.mem r w = if w = v then none else lookup s.mem r w) s := by
  rw [uvmunmap_eq (by omega), forRange, forRange]
  simp only [wp_bind, wp_pure, Nat.add_zero]
  refine unmapPage_rule hv' (fun hnone => ?_) fun q e hloc _ _ => ?_
  · -- a page without a valid entry is unmapped already
    refine ⟨h, Frame.refl _ _ _ _, fun w _ => ?_⟩
    split
    · next heq => rw [heq, hnone]
    · rfl
  · have hq := h.own_of_locate hr (by omega) hloc
    have hrec : v / 512 * 512 + v % 512 = v := Nat.div_add_mod' v 512
    have hi : v % 512 < 512 := Nat.mod_lt _ (by decide)
    simp only [Bool.false_eq_true, if_false, writePte, wp_updates]
    have howned := h.storeLeaf (e := 0) hq hi (by decide) (hrec.symm ▸ hv') (by decide)
      fun hlow => by omega
    refine ⟨howned, h.frame_store hq _ _, fun w hw => ?_⟩
    have hset := pteOf_setPte h howned (fun _ _ _ => Iff.rfl) (fun _ _ _ _ => rfl) hq hi
      (by decide) hw
    rw [hrec] at hset
    split
    · next heq =>
      rw [lookup_eq_none, hset, if_pos heq]
      rfl
    · next hne => exact lookup_congr (by rw [hset, if_neg hne])

end Xv6.Vm
