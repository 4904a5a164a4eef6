import Xv6.Vm.Own

/-!
# Changes of page tables

The stores to page tables that `vm.c` makes, each with the change of roles that
goes with it, keep the ownership invariant.

* `Owned.link`: hang a new, empty table into a table (`walk`).
* `Owned.newRoot`: an empty page becomes a page table (`uvmcreate`).
* `Owned.setLeaf`: map a held page as user page (`mappages`).
* `Owned.storeLeaf`: change the entry of the trampoline or the trapframe, or the
  flags of a user page (`uvmclear`).
* `Owned.dropLeaf`: clear the entry of a user page, which is then held.
* `OwnedX.dropTable`, `OwnedX.clearEntry`: free an empty table, then clear the
  entry that pointed to it (`freewalk`).
-/

namespace Xv6.Vm

open Xv6.Lib.Bytes Xv6.Lib.Wp
open Function (update update_of_ne update_self)

variable {b c i l p pa q r v : Nat} {x y : Role}

section Stores

variable {X : Nat → Nat → Prop} {own : Owner} {s : Phys}

theorem ne_of_role (hp : own p = some x) (hq : own q = some y)
    (hxy : x ≠ y) : p ≠ q := by
  intro heq
  rw [heq, hq, Option.some.injEq] at hp
  exact hxy hp.symm

theorem table_role_eq {r' l' v' : Nat}
    (h : (some (.table r l v) : Option Role) = some (.table r' l' v')) :
    r = r' ∧ l = l' ∧ v = v' := by
  cases h
  exact ⟨rfl, rfl, rfl⟩

/-- Giving the page `c` another role keeps the roles of other pages. -/
theorem own_update_keep {z : Role} (hc : own c = some z) (hq : own q = some y)
    (hy : y ≠ z) : update own c (some x) q = some y := by
  rw [update_of_ne (ne_of_role hq hc hy), hq]

theorem own_update_old (hqc : q ≠ c)
    (hq : update own c (some x) q = some y) : own q = some y := by
  rwa [update_of_ne hqc] at hq

theorem own_update_eq_none (hc : own c = some y) (q : Nat) :
    update own c (some x) q = none ↔ own q = none := by
  by_cases hqc : q = c
  · rw [hqc, update_self, hc]
    exact ⟨nofun, nofun⟩
  · rw [update_of_ne hqc]

/-- A page with another role than the one that `c` was given is not `c`. -/
theorem own_update_ne (hq : update own c (some x) q = some y) (hxy : x ≠ y) :
    own q = some y ∧ q ≠ c := by
  have hne : q ≠ c := by
    rintro rfl
    rw [update_self] at hq
    exact hxy (Option.some.inj hq)
  exact ⟨own_update_old hne hq, hne⟩

/-- Only the role of the page `c` changes, and it stays allocated. -/
theorem OwnedX.ram_free_update (h : OwnedX X own s) (hc : own c = some y) (hy : y ≠ .free)
    (hx : x ≠ .free) :
    (∀ p, update own c (some x) p ≠ none → p % 4096 = 0 ∧ s.kend ≤ p ∧ p < PHYSTOP) ∧
      ∀ p, update own c (some x) p = some .free ↔ p ∈ s.freelist := by
  refine ⟨fun p hp => ?_, fun p => ?_⟩
  · by_cases hpc : p = c
    · exact hpc ▸ h.ram c (by simp [hc])
    · rw [update_of_ne hpc] at hp
      exact h.ram p hp
  · by_cases hpc : p = c
    · subst hpc
      rw [update_self, ← h.free p, hc, Option.some.injEq, Option.some.injEq]
      exact ⟨fun heq => absurd heq hx, fun heq => absurd heq hy⟩
    · rw [update_of_ne hpc, h.free p]

/-- Hang the empty table `c` into entry `i` of the table `p`. -/
theorem Owned.link (h : Owned own s) (hp : own p = some (.table r (l + 1) v))
    (hi : i < 512) (hinv : isValid (getPte s.mem p i) = false) (hc : own c = some .held)
    (hzero : ∀ j, getPte s.mem c j = 0) :
    Owned (update own c (some (.table r l (v * 512 + i))))
      { s with mem := setPte s.mem p i (tablePte c) } := by
  have hpc : p ≠ c := ne_of_role hp hc nofun
  have hle := h.level p r (l + 1) v hp
  have hself : update own c (some (.table r l (v * 512 + i))) c = _ :=
    update_self _ _ _
  have hother : ∀ {q x}, own q = some x → x ≠ .held →
      update own c (some (.table r l (v * 512 + i))) q = some x :=
    fun hq hx => own_update_keep hc hq hx
  have hpte : getPte (setPte s.mem p i (tablePte c)) p i = tablePte c :=
    getPte_setPte_self _ _ _ (tablePte_lt (h.pageAddr hc).2)
  have hkeep : ∀ {q j}, q ≠ p ∨ j ≠ i →
      getPte (setPte s.mem p i (tablePte c)) q j = getPte s.mem q j :=
    fun hne => getPte_setPte_of_ne _ _ hne
  have hempty : ∀ j, isValid (getPte (setPte s.mem p i (tablePte c)) c j) = false := by
    intro j
    rw [hkeep (.inl hpc.symm), hzero, not_isValid_zero]
  obtain ⟨hram, hfree⟩ := h.ram_free_update (x := .table r l (v * 512 + i)) hc nofun nofun
  refine ⟨h.kend, hram, hfree, h.nodup, fun q r' l' v' hq => ?_, fun q r' v' hq => ?_,
    fun q r' l' v' hq hl' => ?_, fun q r' l' v' j hq hj _ hvalid => ?_,
    fun q r' v' j hq hj hvalid => ?_, fun q r' v' hq => ?_⟩
  all_goals rcases eq_or_ne q c with rfl | hqc
  all_goals first | rw [hself] at hq | replace hq := own_update_old hqc hq
  · obtain ⟨-, rfl, -⟩ := table_role_eq hq
    omega
  · exact h.level q r' l' v' hq
  · obtain ⟨-, hl, -⟩ := table_role_eq hq
    omega
  · exact h.root q r' v' hq
  · obtain ⟨rfl, rfl, rfl⟩ := table_role_eq hq
    refine ⟨p, ?_, ?_⟩
    · rw [show (v * 512 + i) / 512 = v by omega]
      exact hother hp nofun
    · rw [show (v * 512 + i) % 512 = i by omega]
      exact hpte
  · obtain ⟨q', hq', hpe⟩ := h.linked q r' l' v' hq hl'
    refine ⟨q', hother hq' nofun, ?_⟩
    -- the entry that was filled pointed nowhere before
    have hne : q' ≠ p ∨ v' % 512 ≠ i := by
      refine not_and_or.mp fun heq => ?_
      rw [heq.1, heq.2] at hpe
      rw [hpe, isValid_tablePte] at hinv
      cases hinv
    show getPte (setPte s.mem p i (tablePte c)) q' (v' % 512) = _
    rw [hkeep hne, hpe]
  · rw [hempty j] at hvalid
    cases hvalid
  · by_cases hpi : q = p ∧ j = i
    · obtain ⟨rfl, rfl⟩ := hpi
      rw [hp] at hq
      obtain ⟨rfl, hl, rfl⟩ := table_role_eq hq
      cases Nat.succ.inj hl
      exact ⟨c, hpte, hself⟩
    · rw [hkeep (not_and_or.mp hpi)] at hvalid ⊢
      obtain ⟨c', hc', hown⟩ := h.entry q r' l' v' j hq hj not_false hvalid
      exact ⟨c', hc', hother hown nofun⟩
  · rw [hempty j] at hvalid
    cases hvalid
  · rw [hkeep (.inl (ne_of_role hq hp nofun))] at hvalid ⊢
    obtain ⟨hleaf, hv, hown⟩ := h.leaf q r' v' j hq hj hvalid
    exact ⟨hleaf, hv, fun hlt => hother (hown hlt) nofun⟩
  · cases hq
  · obtain ⟨hv, q', hq', hpte'⟩ := h.user q r' v' hq
    refine ⟨hv, q', hother hq' nofun, ?_⟩
    rw [hkeep (.inl (ne_of_role hq' hp nofun))]
    exact hpte'

/-- An empty page becomes the root of a page table. -/
theorem Owned.newRoot (h : Owned own s) (hp : own p = some .held)
    (hzero : ∀ j, getPte s.mem p j = 0) :
    Owned (update own p (some (.table p 2 0))) s := by
  have hself : update own p (some (.table p 2 0)) p = _ := update_self _ _ _
  have hother : ∀ {q x}, own q = some x → x ≠ .held →
      update own p (some (.table p 2 0)) q = some x :=
    fun hq hx => own_update_keep hp hq hx
  have hempty : ∀ j, isValid (getPte s.mem p j) = false := fun j => by rw [hzero, not_isValid_zero]
  obtain ⟨hram, hfree⟩ := h.ram_free_update (x := .table p 2 0) hp nofun nofun
  refine ⟨h.kend, hram, hfree, h.nodup, fun q r l v hq => ?_, fun q r v hq => ?_,
    fun q r l v hq hl => ?_, fun q r l v j hq hj hX hvalid => ?_, fun q r v j hq hj hvalid => ?_,
    fun q r v hq => ?_⟩
  all_goals rcases eq_or_ne q p with rfl | hqp
  all_goals first | rw [hself] at hq | replace hq := own_update_old hqp hq
  · obtain ⟨-, rfl, -⟩ := table_role_eq hq
    exact Nat.le_refl 2
  · exact h.level q r l v hq
  · obtain ⟨rfl, -, rfl⟩ := table_role_eq hq
    exact ⟨rfl, rfl⟩
  · exact h.root q r v hq
  · obtain ⟨-, rfl, -⟩ := table_role_eq hq
    omega
  · obtain ⟨q', hq', hpe⟩ := h.linked q r l v hq hl
    exact ⟨q', hother hq' nofun, hpe⟩
  · rw [hempty j] at hvalid
    cases hvalid
  · obtain ⟨c, hc, hown⟩ := h.entry q r l v j hq hj hX hvalid
    exact ⟨c, hc, hother hown nofun⟩
  · rw [hempty j] at hvalid
    cases hvalid
  · obtain ⟨hleaf, hv, hown⟩ := h.leaf q r v j hq hj hvalid
    exact ⟨hleaf, hv, fun hlt => hother (hown hlt) nofun⟩
  · cases hq
  · obtain ⟨hv, q', hq', hpte⟩ := h.user q r v hq
    exact ⟨hv, q', hother hq' nofun, hpte⟩

/-- What a store to a table of level 0 does not touch. -/
theorem Owned.setPte_tables (h : Owned own s) (hq : own q = some (.table r 0 b))
    (i e : Nat) :
    (∀ p r' l v, own p = some (.table r' l v) → l < 2 →
      ∃ q', own q' = some (.table r' (l + 1) (v / 512)) ∧
      getPte (setPte s.mem q i e) q' (v % 512) = tablePte p) ∧
    (∀ p r' l v j, own p = some (.table r' (l + 1) v) → j < 512 →
      isValid (getPte (setPte s.mem q i e) p j) = true → ∃ c,
        getPte (setPte s.mem q i e) p j = tablePte c ∧
        own c = some (.table r' l (v * 512 + j))) := by
  refine ⟨fun p r' l v hp hl => ?_, fun p r' l v j hp hj hvalid => ?_⟩
  · obtain ⟨q', hq', hpe⟩ := h.linked p r' l v hp hl
    exact ⟨q', hq', by rw [getPte_setPte_of_ne _ _ (.inl (ne_of_role hq' hq nofun)), hpe]⟩
  · have hne : p ≠ q := ne_of_role hp hq nofun
    rw [getPte_setPte_of_ne _ _ (.inl hne)] at hvalid ⊢
    exact h.entry p r' l v j hp hj not_false hvalid

/-- Map the held page `pa` as a user page. -/
theorem Owned.setLeaf (h : Owned own s) {perm : Nat} (hq : own q = some (.table r 0 b))
    (hi : i < 512) (hinv : isValid (getPte s.mem q i) = false) (hpa : own pa = some .held)
    (hv : b * 512 + i < TFVPN) (hperm : perm < 1024) (hleaf : isLeaf perm = true) :
    Owned (update own pa (some (.user r (b * 512 + i))))
      { s with mem := setPte s.mem q i (mkPte pa perm) } := by
  have hself : update own pa (some (.user r (b * 512 + i))) pa = _ :=
    update_self _ _ _
  have hother : ∀ {p x}, own p = some x → x ≠ .held →
      update own pa (some (.user r (b * 512 + i))) p = some x :=
    fun hp hx => own_update_keep hpa hp hx
  have htable : ∀ {p r' l v}, update own pa (some (.user r (b * 512 + i))) p =
      some (.table r' l v) → own p = some (.table r' l v) := fun hp => (own_update_ne hp nofun).1
  have hpte : getPte (setPte s.mem q i (mkPte pa perm)) q i = mkPte pa perm :=
    getPte_setPte_self _ _ _ (mkPte_lt (h.pageAddr hpa).2 hperm)
  have hmk : PTE2PA (mkPte pa perm) = pa := PTE2PA_mkPte (h.pageAddr hpa) hperm
  have hlt26 := tfvpn_lt
  obtain ⟨hram, hfree⟩ := h.ram_free_update (x := .user r (b * 512 + i)) hpa nofun nofun
  obtain ⟨hlinked, hentry⟩ := h.setPte_tables hq i (mkPte pa perm)
  refine ⟨h.kend, hram, hfree, h.nodup, fun p r' l v hp => h.level p r' l v (htable hp),
    fun p r' v hp => h.root p r' v (htable hp), fun p r' l v hp hl => ?_,
    fun p r' l v j hp hj _ hvalid => ?_, fun p r' v j hp hj hvalid => ?_, fun p r' v hp => ?_⟩
  · obtain ⟨q', hq', hpe⟩ := hlinked p r' l v (htable hp) hl
    exact ⟨q', hother hq' nofun, hpe⟩
  · obtain ⟨c, hc, hown⟩ := hentry p r' l v j (htable hp) hj hvalid
    exact ⟨c, hc, hother hown nofun⟩
  · have hp' := htable hp
    by_cases hpj : p = q ∧ j = i
    · obtain ⟨rfl, rfl⟩ := hpj
      rw [hq] at hp'
      obtain ⟨rfl, -, rfl⟩ := table_role_eq hp'
      rw [hpte, isLeaf_mkPte pa hperm, hmk]
      exact ⟨hleaf, by omega, fun _ => hself⟩
    · rw [getPte_setPte_of_ne _ _ (not_and_or.mp hpj)] at hvalid ⊢
      obtain ⟨hl, hlt, hown⟩ := h.leaf p r' v j hp' hj hvalid
      exact ⟨hl, hlt, fun hlt' => hother (hown hlt') nofun⟩
  · by_cases hppa : p = pa
    · subst hppa
      rw [hself] at hp
      cases hp
      rw [show (b * 512 + i) / 512 = b by omega, show (b * 512 + i) % 512 = i by omega]
      exact ⟨hv, q, hother hq nofun, by rw [hpte]; exact isValid_mkPte p hperm, by rw [hpte, hmk]⟩
    · obtain ⟨hv', q', hq', hvalid, hpe⟩ := h.user p r' v (own_update_old hppa hp)
      have hne : q' ≠ q ∨ v % 512 ≠ i := by
        refine not_and_or.mp fun heq => ?_
        rw [heq.1, heq.2, hinv] at hvalid
        cases hvalid
      refine ⟨hv', q', hother hq' nofun, ?_⟩
      rw [getPte_setPte_of_ne _ _ hne]
      exact ⟨hvalid, hpe⟩

/-- A store of `e` to a leaf entry that keeps the user page it maps, if it maps
one: the entry of the trampoline or the trapframe, or new flags. -/
theorem Owned.storeLeaf (h : Owned own s) {e : Nat} (hq : own q = some (.table r 0 b))
    (hi : i < 512) (he : e < 256 ^ 8) (hlt : b * 512 + i < 2 ^ 26)
    (hleaf : isValid e = true → isLeaf e = true)
    (huser : b * 512 + i < TFVPN → isValid e = isValid (getPte s.mem q i) ∧
      PTE2PA e = PTE2PA (getPte s.mem q i)) :
    Owned own { s with mem := setPte s.mem q i e } := by
  have hpte : getPte (setPte s.mem q i e) q i = e := getPte_setPte_self _ _ _ he
  obtain ⟨hlinked, hentry⟩ := h.setPte_tables hq i e
  refine ⟨h.kend, h.ram, h.free, h.nodup, h.level, h.root, hlinked,
    fun p r' l v j hp hj _ => hentry p r' l v j hp hj, fun p r' v j hp hj hvalid => ?_,
    fun p r' v hp => ?_⟩
  · by_cases hpj : p = q ∧ j = i
    · obtain ⟨rfl, rfl⟩ := hpj
      rw [hq] at hp
      obtain ⟨rfl, -, rfl⟩ := table_role_eq hp
      rw [hpte] at hvalid ⊢
      refine ⟨hleaf hvalid, hlt, fun hlt' => ?_⟩
      have hsame := huser hlt'
      rw [hsame.2]
      exact (h.leaf p r b j hq hj (hsame.1 ▸ hvalid)).2.2 hlt'
    · rw [getPte_setPte_of_ne _ _ (not_and_or.mp hpj)] at hvalid ⊢
      exact h.leaf p r' v j hp hj hvalid
  · obtain ⟨hv, q', hq', hvalid, hpe⟩ := h.user p r' v hp
    refine ⟨hv, q', hq', ?_⟩
    by_cases heq : q' = q ∧ v % 512 = i
    · obtain ⟨rfl, rfl⟩ := heq
      rw [hq] at hq'
      obtain ⟨-, -, hb⟩ := table_role_eq hq'
      have hsame := huser (by omega)
      rw [hpte, hsame.1, hsame.2]
      exact ⟨hvalid, hpe⟩
    · rw [getPte_setPte_of_ne _ _ (not_and_or.mp heq)]
      exact ⟨hvalid, hpe⟩

/-- Clear the entry of a user page; the page is then held. -/
theorem Owned.dropLeaf (h : Owned own s) (hq : own q = some (.table r 0 b))
    (hi : i < 512) (hvalid : isValid (getPte s.mem q i) = true) (hv : b * 512 + i < TFVPN)
    (hpa : PTE2PA (getPte s.mem q i) = pa) :
    Owned (update own pa (some .held)) { s with mem := setPte s.mem q i 0 } := by
  have hown : own pa = some (.user r (b * 512 + i)) := hpa ▸ (h.leaf q r b i hq hi hvalid).2.2 hv
  have hother : ∀ {p x}, own p = some x → x ≠ .user r (b * 512 + i) →
      update own pa (some .held) p = some x := fun hp hx => own_update_keep hown hp hx
  obtain ⟨hram, hfree⟩ := h.ram_free_update (x := .held) hown nofun nofun
  have hpte : getPte (setPte s.mem q i 0) q i = 0 := getPte_setPte_self _ _ _ (by decide)
  obtain ⟨hlinked, hentry⟩ := h.setPte_tables hq i 0
  refine ⟨h.kend, hram, hfree, h.nodup,
    fun p r' l v hp => h.level p r' l v (own_update_ne hp nofun).1,
    fun p r' v hp => h.root p r' v (own_update_ne hp nofun).1, fun p r' l v hp hl => ?_,
    fun p r' l v j hp hj _ hvalid' => ?_, fun p r' v j hp hj hvalid' => ?_, fun p r' v hp => ?_⟩
  · obtain ⟨q', hq', hpe⟩ := hlinked p r' l v (own_update_ne hp nofun).1 hl
    exact ⟨q', hother hq' nofun, hpe⟩
  · obtain ⟨c, hc, hcown⟩ := hentry p r' l v j (own_update_ne hp nofun).1 hj hvalid'
    exact ⟨c, hc, hother hcown nofun⟩
  · have hp' := (own_update_ne hp nofun).1
    by_cases hpj : p = q ∧ j = i
    · obtain ⟨rfl, rfl⟩ := hpj
      rw [hpte, not_isValid_zero] at hvalid'
      cases hvalid'
    · rw [getPte_setPte_of_ne _ _ (not_and_or.mp hpj)] at hvalid' ⊢
      obtain ⟨hl, hlt, huser⟩ := h.leaf p r' v j hp' hj hvalid'
      refine ⟨hl, hlt, fun hlt' => hother (huser hlt') fun heq => hpj ?_⟩
      -- another entry for the same user page would be this entry
      obtain ⟨rfl, hvpn⟩ := Role.user.inj heq
      have hb : v = b := by omega
      subst hb
      exact ⟨h.inj hp' hq, by omega⟩
  · obtain ⟨hp', hppa⟩ := own_update_ne hp nofun
    obtain ⟨hv', q', hq', hvalid', hpe⟩ := h.user p r' v hp'
    have hne : q' ≠ q ∨ v % 512 ≠ i := by
      refine not_and_or.mp fun heq => hppa ?_
      rw [heq.1, heq.2] at hpe
      exact hpe.symm.trans hpa
    refine ⟨hv', q', hother hq' nofun, ?_⟩
    rw [getPte_setPte_of_ne _ _ hne]
    exact ⟨hvalid', hpe⟩

/-! ## Freeing tables -/

/-- Free a table whose entries are all invalid and to which only entries in `X`
may point. -/
theorem OwnedX.dropTable (h : OwnedX X own s) (hp : own p = some (.table r l v))
    (hempty : ∀ i, i < 512 → isValid (getPte s.mem p i) = false)
    (hX : ∀ q, own q = some (.table r (l + 1) (v / 512)) → X q (v % 512)) (page : Nat → UInt8) :
    OwnedX X (update own p (some .free))
      { s with mem := update s.mem p page, freelist := p :: s.freelist } := by
  have hself : update own p (some .free) p = some .free := update_self _ _ _
  have hother : ∀ {q x}, own q = some x → x ≠ .table r l v →
      update own p (some .free) q = some x := fun hq hx => own_update_keep hp hq hx
  have hpte : ∀ {q}, q ≠ p → ∀ j, getPte (update s.mem p page) q j = getPte s.mem q j :=
    fun hq j => getPte_update_of_ne _ _ _ hq
  -- nothing hangs in the table that is freed
  have hparent : ∀ {q j}, j < 512 → isValid (getPte s.mem q j) = true → q ≠ p := by
    rintro q j hj hvalid rfl
    rw [hempty j hj] at hvalid
    cases hvalid
  refine ⟨h.kend, fun q hq => ?_, fun q => ?_, ?_,
    fun q r' l' v' hq => h.level q r' l' v' (own_update_ne hq nofun).1,
    fun q r' v' hq => h.root q r' v' (own_update_ne hq nofun).1, fun q r' l' v' hq hl => ?_,
    fun q r' l' v' j hq hj hXq hvalid => ?_, fun q r' v' j hq hj hvalid => ?_, fun q r' v' hq => ?_⟩
  · by_cases hqp : q = p
    · exact hqp ▸ h.ram p (by simp [hp])
    · rw [update_of_ne hqp] at hq
      exact h.ram q hq
  · by_cases hqp : q = p
    · rw [hqp, hself]
      simp
    · rw [update_of_ne hqp, h.free q, List.mem_cons, or_iff_right hqp]
  · refine List.nodup_cons.mpr ⟨fun hmem => ?_, h.nodup⟩
    have hfree := (h.free p).mpr hmem
    rw [hp] at hfree
    cases hfree
  · obtain ⟨q', hq', hpe⟩ := h.linked q r' l' v' (own_update_ne hq nofun).1 hl
    have hne : q' ≠ p := hparent (Nat.mod_lt _ (by omega)) (by rw [hpe]; exact isValid_tablePte q)
    exact ⟨q', by rw [update_of_ne hne, hq'], by rw [hpte hne, hpe]⟩
  · obtain ⟨hq', hqp⟩ := own_update_ne hq nofun
    rw [hpte hqp] at hvalid ⊢
    obtain ⟨c, hc, hown⟩ := h.entry q r' l' v' j hq' hj hXq hvalid
    refine ⟨c, hc, hother hown fun heq => hXq ?_⟩
    obtain ⟨rfl, rfl, rfl⟩ := Role.table.inj heq
    rw [show (v' * 512 + j) / 512 = v' by omega, show (v' * 512 + j) % 512 = j by omega] at hX
    exact hX q hq'
  · obtain ⟨hq', hqp⟩ := own_update_ne hq nofun
    rw [hpte hqp] at hvalid ⊢
    obtain ⟨hleaf, hlt, hown⟩ := h.leaf q r' v' j hq' hj hvalid
    exact ⟨hleaf, hlt, fun hlt' => hother (hown hlt') nofun⟩
  · obtain ⟨hv, q', hq', hvalid, hpa⟩ := h.user q r' v' (own_update_ne hq nofun).1
    have hne : q' ≠ p := hparent (Nat.mod_lt _ (by omega)) hvalid
    refine ⟨hv, q', by rw [update_of_ne hne, hq'], ?_⟩
    rw [hpte hne]
    exact ⟨hvalid, hpa⟩

/-- Clear an entry that no table hangs in any more; it need not be exempt then. -/
theorem OwnedX.clearEntry (h : OwnedX (fun q j => X q j ∨ q = p ∧ j = i) own s)
    (hp : own p = some (.table r (l + 1) v)) (hno : ¬ HasTable own r l (v * 512 + i)) :
    OwnedX X own { s with mem := setPte s.mem p i 0 } := by
  have hpte : getPte (setPte s.mem p i 0) p i = 0 := getPte_setPte_self _ _ _ (by decide)
  refine ⟨h.kend, h.ram, h.free, h.nodup, h.level, h.root, fun q r' l' v' hq hl => ?_,
    fun q r' l' v' j hq hj hX hvalid => ?_, fun q r' v' j hq hj hvalid => ?_, fun q r' v' hq => ?_⟩
  · obtain ⟨q', hq', hpe⟩ := h.linked q r' l' v' hq hl
    have hne : q' ≠ p ∨ v' % 512 ≠ i := by
      refine not_and_or.mp fun heq => hno ⟨q, ?_⟩
      rw [heq.1, hp] at hq'
      obtain ⟨rfl, hl', rfl⟩ := table_role_eq hq'
      cases Nat.succ.inj hl'
      rw [hq, ← heq.2, show v' / 512 * 512 + v' % 512 = v' by omega]
    exact ⟨q', hq', by rw [getPte_setPte_of_ne _ _ hne, hpe]⟩
  · by_cases hpj : q = p ∧ j = i
    · rw [hpj.1, hpj.2, hpte, not_isValid_zero] at hvalid
      cases hvalid
    · rw [getPte_setPte_of_ne _ _ (not_and_or.mp hpj)] at hvalid ⊢
      exact h.entry q r' l' v' j hq hj (not_or.mpr ⟨hX, hpj⟩) hvalid
  · have hne : q ≠ p := ne_of_role hq hp nofun
    rw [getPte_setPte_of_ne _ _ (.inl hne)] at hvalid ⊢
    exact h.leaf q r' v' j hq hj hvalid
  · obtain ⟨hv, q', hq', hpte'⟩ := h.user q r' v' hq
    refine ⟨hv, q', hq', ?_⟩
    rw [getPte_setPte_of_ne _ _ (.inl (ne_of_role hq' hp nofun))]
    exact hpte'

/-- Fewer entries to trust. -/
theorem OwnedX.exempt (h : OwnedX X own s) {Y : Nat → Nat → Prop} (hXY : ∀ p i, X p i → Y p i) :
    OwnedX Y own s :=
  ⟨h.kend, h.ram, h.free, h.nodup, h.level, h.root, h.linked,
    fun p r l v i hp hi hY => h.entry p r l v i hp hi fun hX => hY (hXY p i hX), h.leaf, h.user⟩

end Stores

end Xv6.Vm
