import Xv6.Vm.Tables

/-!
# Walking and growing a page table

Specifications of `walk`, `walkaddr` and of the body of `mappages`.

* `walk_false_spec`: without `alloc`, a walk finds what `locate` says and
  changes nothing.
* `Grow`: the page table `r` got new tables, but no mapping changed.
* `tableCost`, `AddsTables`: how many tables a walk with `alloc` adds, and which.
* `walk_true_spec`: such a walk succeeds if the allocator gives that many pages.
* `mapPage_spec`: one page of `mappages`.
-/

namespace Xv6.Vm

open Xv6.Lib.Bytes Xv6.Lib.Wp
open Function (update update_of_ne update_self)

variable {Q : Option (Nat × Nat) → Phys → Prop} {b l p pa pt q v va : Nat} {own' : Owner}
  {s' : Phys}

variable {E : Panic → Prop} {own : Owner} {s : Phys} {r : Nat}

/-! ## Indices -/

theorem PX_zero (va : Nat) : PX 0 va = va / 4096 % 512 := rfl

theorem PX_one (va : Nat) : PX 1 va = va / 4096 / 512 % 512 := by
  rw [PX, Nat.div_div_eq_div_mul]
  rfl

theorem PX_two (va : Nat) : PX 2 va = va / 4096 / 512 / 512 % 512 := by
  rw [PX, Nat.div_div_eq_div_mul, Nat.div_div_eq_div_mul]
  rfl

/-! ## Walks without `alloc` -/

theorem walkFrom_false_succ (va l pt : Nat) :
    wp (walkFrom va false (l + 1) pt) E Q s ↔
      match nextTable s.mem pt (PX (l + 1) va) with
      | some q => wp (walkFrom va false l q) E Q s
      | none => Q none s := by
  rw [walkFrom, readPte, wp_bind, wp_reads]
  unfold nextTable
  cases isValid (getPte s.mem pt (PX (l + 1) va)) <;> simp

theorem walkFrom_false_spec (va pt : Nat) :
    wp (walkFrom va false 2 pt) E Q s ↔
      Q ((locate s.mem pt (va / 4096)).map fun q => (q, va / 4096 % 512)) s := by
  rw [walkFrom_false_succ, PX_two, locate]
  cases nextTable s.mem pt (va / 4096 / 512 / 512 % 512) with
  | none => exact Iff.rfl
  | some q =>
    simp only [Option.bind_some]
    rw [walkFrom_false_succ, PX_one]
    cases nextTable s.mem q (va / 4096 / 512 % 512) with
    | none => exact Iff.rfl
    | some q' => exact wp_pure _

theorem walk_false_spec (hva : va < MAXVA) :
    wp (walk pt va false) E Q s ↔
      Q ((locate s.mem pt (va / 4096)).map fun q => (q, va / 4096 % 512)) s := by
  rw [walk, if_neg (Nat.not_le.mpr hva)]
  exact walkFrom_false_spec va pt

/-- `walkaddr` returns the page of a valid user entry. -/
theorem walkaddr_spec {Q : Nat → Phys → Prop} (hva : va < MAXVA) :
    wp (walkaddr pt va) E Q s ↔
      Q (if isValid (pteOf s.mem pt (va / 4096)) = true ∧ isUser (pteOf s.mem pt (va / 4096)) = true
        then PTE2PA (pteOf s.mem pt (va / 4096)) else 0) s := by
  rw [walkaddr, if_neg (Nat.not_le.mpr hva), wp_bind, walk_false_spec hva]
  unfold pteOf
  cases locate s.mem pt (va / 4096) with
  | none => simp
  | some q =>
    simp only [Option.map_some, readPte, wp_bind, wp_reads]
    cases isValid (getPte s.mem q (va / 4096 % 512)) <;>
      cases isUser (getPte s.mem q (va / 4096 % 512)) <;> simp

/-! ## Walks with `alloc` -/

/-- The page table `r` may have new tables, but every mapping is as before. -/
structure Grow (r : Nat) (own own' : Owner) (s s' : Phys) : Prop where
  owned : Owned own' s'
  root : Root own' r
  frame : Frame r NoPage own own' s s'
  consumes : Consumes own own'
  pte : ∀ v, v < 2 ^ 27 → pteOf s'.mem r v = pteOf s.mem r v

theorem Grow.refl (h : Owned own s) (hr : Root own r) : Grow r own own s s :=
  ⟨h, hr, Frame.refl _ _ _ _, fun _ => id, fun _ _ => rfl⟩

theorem Grow.trans {own'' : Owner} {s'' : Phys} (h : Grow r own own' s s')
    (h' : Grow r own' own'' s' s'') : Grow r own own'' s s'' :=
  ⟨h'.owned, h'.root, h.frame.trans h'.frame, fun p hp => h.consumes p (h'.consumes p hp),
    fun v hv => (h'.pte v hv).trans (h.pte v hv)⟩

theorem Refused.grow (h : Refused s s') (hs : Owned own s) (hr : Root own r) :
    Grow r own own s s' :=
  ⟨h.owned hs, hr, h.frame _ _ _, fun _ => id, fun v _ => by rw [h.mem]⟩

/-- Hanging a fresh table into the page table `r` grows it. -/
theorem grow_link {own₁ : Owner} {s₁ : Phys} {c i : Nat} (h : Owned own s) (hr : Root own r)
    (hp : own p = some (.table r (l + 1) b)) (hi : i < 512)
    (hinv : isValid (getPte s.mem p i) = false) (hc : own c = some .free)
    (hown₁ : Owned own₁ s₁) (heq : own₁ = update own c (some .held)) (hmoved : Moved c s s₁) :
    let own' := update own c (some (.table r l (b * 512 + i)))
    let s₂ : Phys := { s₁ with mem := update s₁.mem c fun _ => 0 }
    Grow r own own' s { s₂ with mem := setPte s₂.mem p i (tablePte c) } := by
  subst heq
  intro own' s₂
  have hpc : p ≠ c := ne_of_role hp hc (by simp)
  have hc₁ : update own c (some .held) c = some .held := update_self _ _ _
  have hp₁ : update own c (some .held) p = _ := own_update_keep hc hp (by simp)
  have hzero : ∀ j, getPte s₂.mem c j = 0 := fun j => getPte_update_zero _ _ _
  have hmem₂ : ∀ q, q ≠ c → s₂.mem q = s.mem q := fun q hq => by
    rw [← hmoved.mem q hq]
    exact update_of_ne hq _ _
  have hinv₂ : isValid (getPte s₂.mem p i) = false := by
    rw [getPte, hmem₂ p hpc]
    exact hinv
  have howned : Owned own' { s₂ with mem := setPte s₂.mem p i (tablePte c) } := by
    have hset : Owned (update own c (some .held)) s₂ :=
      hown₁.setPage (fun _ => 0) (by simp)
    have hlink := hset.link hp₁ hi hinv₂ hc₁ hzero
    rwa [Function.update_idem] at hlink
  have hself : own' c = some (.table r l (b * 512 + i)) := update_self _ _ _
  have hother : ∀ {q x}, own q = some x → x ≠ .free → own' q = some x :=
    fun hq hx => own_update_keep hc hq hx
  have hmem : ∀ q, q ≠ c → q ≠ p →
      ({ s₂ with mem := setPte s₂.mem p i (tablePte c) } : Phys).mem q = s.mem q := by
    intro q hqc hqp
    rw [← hmem₂ q hqc]
    exact update_of_ne hqp _ _
  have hrole : ∀ {q x}, own q = some x → x ≠ .free → x ≠ .table r (l + 1) b →
      own' q = some x ∧ ({ s₂ with mem := setPte s₂.mem p i (tablePte c) } : Phys).mem q =
        s.mem q :=
    fun hq hfree htab => ⟨hother hq hfree, hmem _ (ne_of_role hq hc hfree) (ne_of_role hq hp htab)⟩
  have hroot' : Root own' r := hother hr (by simp)
  refine ⟨howned, hroot', ⟨hmoved.kend, hmoved.trampoline, own_update_eq_none hc,
    fun q hq => hmem q (ne_of_none hq hc) (ne_of_none hq hp), 
    fun q hq => .inl (own_update_ne hq (by simp)).1, fun q r' l' v' hne hq => ?_,
    fun q r' l' v' hne hq => ?_, fun q hq _ => hrole hq (by simp) (by simp),
    fun q r' v' hq _ => hrole hq (by simp) (by simp)⟩, fun q hq => ?_, fun v hv => ?_⟩
  · exact hrole hq (by simp) fun heq => hne (Role.table.inj heq).1
  · exact (own_update_ne hq fun heq => hne (Role.table.inj heq).1.symm).1
  · exact (own_update_ne hq (by simp)).1
  · have htree := howned.tree hroot'
    rw [layoutOf_update] at htree
    exact (h.tree hr).pteOf_link htree (layoutOf_eq_some.mpr hp)
      (by rw [layoutOf, hc]) hmem₂ hzero hv

/-- One level of a walk with `alloc`: the table below is there, or there is no
page for it, or it is new. -/
theorem walkFrom_true_succ
    (h : Owned own s) (hp : own p = some (.table r (l + 1) b))
    (hthere : ∀ c, own c = some (.table r l (b * 512 + PX (l + 1) va)) →
      wp (walkFrom va true l c) E Q s)
    (hfull : ¬ HasTable own r l (b * 512 + PX (l + 1) va) → ∀ s', Refused s s' → Q none s')
    (hnew : ¬ HasTable own r l (b * 512 + PX (l + 1) va) → ∀ c own' s',
      own' c = some (.table r l (b * 512 + PX (l + 1) va)) → Grow r own own' s s' →
      s.supply = s'.supply + 1 →
      (∀ l' b', HasTable own' r l' b' ↔
        HasTable own r l' b' ∨ l' = l ∧ b' = b * 512 + PX (l + 1) va) →
      wp (walkFrom va true l c) E Q s') :
    wp (walkFrom va true (l + 1) p) E Q s := by
  have hi : PX (l + 1) va < 512 := Nat.mod_lt _ (by decide)
  have hr : Root own r := h.root_of_table hp
  have hle := h.level p r (l + 1) b hp
  rw [walkFrom, readPte, wp_bind, wp_reads]
  by_cases hvalid : isValid (getPte s.mem p (PX (l + 1) va)) = true
  · obtain ⟨c, hc, hown⟩ := h.entry p r l b _ hp hi not_false hvalid
    rw [if_pos hvalid, hc, PTE2PA_tablePte (h.pageAddr hown)]
    exact hthere c hown
  · have hinv := Bool.eq_false_of_not_eq_true hvalid
    have hno : ¬ HasTable own r l (b * 512 + PX (l + 1) va) := by
      rintro ⟨c, hc⟩
      have hp' : own p = some (.table r (l + 1) ((b * 512 + PX (l + 1) va) / 512)) := by
        rw [hp, show (b * 512 + PX (l + 1) va) / 512 = b by omega]
      have hnext :=
        (h.tree hr).nextTable_of_child (layoutOf_eq_some.mpr hp') (layoutOf_eq_some.mpr hc)
      rw [show (b * 512 + PX (l + 1) va) % 512 = PX (l + 1) va by omega, nextTable, hinv] at hnext
      cases hnext
    rw [if_neg hvalid, if_pos rfl, wp_bind]
    refine (kalloc_spec h).mono fun c s₁ hc => ?_
    rcases hc with ⟨rfl, hrefused⟩ | ⟨hfree, hown₁, hmoved, hsupply⟩
    · rw [if_pos rfl, wp_pure]
      exact hfull hno s₁ hrefused
    · rw [if_neg (h.pos hfree), memset, setPage, writePte, wp_bind, wp_updates, wp_bind, wp_updates]
      refine hnew hno c _ _ (update_self _ _ _)
        (grow_link h hr hp hi hinv hfree hown₁ rfl hmoved) hsupply fun l' b' => ?_
      constructor
      · rintro ⟨q, hq⟩
        by_cases hqc : q = c
        · rw [hqc, update_self] at hq
          obtain ⟨-, rfl, rfl⟩ := table_role_eq hq
          exact .inr ⟨rfl, rfl⟩
        · exact .inl ⟨q, own_update_old hqc hq⟩
      · rintro (⟨q, hq⟩ | ⟨rfl, rfl⟩)
        · exact ⟨q, own_update_keep hfree hq (by simp)⟩
        · exact ⟨c, update_self _ _ _⟩

open Classical in
/-- How many tables a walk to the page `v` has to add. -/
noncomputable def tableCost (own : Owner) (r v : Nat) : Nat :=
  if HasTable own r 1 (v / 512 / 512) then if HasTable own r 0 (v / 512) then 0 else 1 else 2

theorem tableCost_le (own : Owner) (r v : Nat) : tableCost own r v ≤ 2 := by
  unfold tableCost
  split_ifs <;> decide

/-- The page table `r` has exactly the tables for the page `v` in addition. -/
def AddsTables (r v : Nat) (own own' : Owner) : Prop :=
  ∀ l b, HasTable own' r l b ↔
    HasTable own r l b ∨ l = 1 ∧ b = v / 512 / 512 ∨ l = 0 ∧ b = v / 512

/-- What a walk with `alloc` to the page `v` has done. -/
def WalkPost (own : Owner) (r v : Nat) (s : Phys) (res : Option (Nat × Nat)) (s' : Phys) : Prop :=
  ∃ own', Grow r own own' s s' ∧
    match res with
    | none => s.supply < tableCost own r v
    | some (q, i) => own' q = some (.table r 0 (v / 512)) ∧ i = v % 512 ∧
        s.supply = s'.supply + tableCost own r v ∧ AddsTables r v own own'

/-- A table of level 0 hangs below a table of level 1. -/
theorem HasTable.above (h : Owned own s) (hb : HasTable own r 0 b) :
    HasTable own r 1 (b / 512) := by
  obtain ⟨q, hq⟩ := hb
  obtain ⟨p, hp, -⟩ := h.linked q r 0 b hq (by omega)
  exact ⟨p, hp⟩

theorem walk_true_spec (h : Owned own s) (hr : Root own r) (hva : va < MAXVA) :
    wp (walk r va true) E (WalkPost own r (va / 4096) s) s := by
  have hmax : MAXVA = 2 ^ 38 := rfl
  have hidx₂ : 0 * 512 + PX (1 + 1) va = va / 4096 / 512 / 512 := by
    rw [PX_two]
    omega
  have hidx₁ : va / 4096 / 512 / 512 * 512 + PX (0 + 1) va = va / 4096 / 512 := by
    rw [PX_one]
    exact Nat.div_add_mod' _ _
  have hwalk : walk r va true = walkFrom va true 2 r := if_neg (Nat.not_le.mpr hva)
  rw [hwalk]
  refine walkFrom_true_succ h hr (fun c hc => ?_) (fun hno s' href => ?_)
    fun hno c own₁ s₁ hc hgrow hsupply htab => ?_
  all_goals rw [hidx₂] at *
  · -- the table of level 1 is there
    have hhas₁ : HasTable own r 1 (va / 4096 / 512 / 512) := ⟨c, hc⟩
    refine walkFrom_true_succ h hc (fun q hq => ?_) (fun hno s' href => ?_)
      fun hno q own₁ s₁ hq hgrow hsupply htab => ?_
    all_goals rw [hidx₁] at *
    · have hhas₀ : HasTable own r 0 (va / 4096 / 512) := ⟨q, hq⟩
      rw [walkFrom, wp_pure]
      refine ⟨own, Grow.refl h hr, hq, PX_zero va, by simp [tableCost, hhas₁, hhas₀], fun l b => ?_⟩
      exact ⟨.inl, fun hor => hor.elim id (by rintro (⟨rfl, rfl⟩ | ⟨rfl, rfl⟩) <;> assumption)⟩
    · exact ⟨own, href.grow h hr, by simp [tableCost, hhas₁, hno, href.supply]⟩
    · rw [walkFrom, wp_pure]
      refine ⟨own₁, hgrow, hq, PX_zero va, by simpa [tableCost, hhas₁, hno] using hsupply,
        fun l b => ?_⟩
      rw [htab]
      exact ⟨fun hor => hor.imp_right .inr,
        fun hor => hor.elim .inl (by rintro (⟨rfl, rfl⟩ | hb); exacts [.inl hhas₁, .inr hb])⟩
  · exact ⟨own, href.grow h hr, by simp [tableCost, hno, href.supply]⟩
  · -- the table of level 1 is new, so there is none of level 0
    have hno₀ : ¬ HasTable own₁ r 0 (va / 4096 / 512) := by
      intro hb
      have hold := (htab 0 _).mp hb
      exact hno ((hold.resolve_right (by omega)).above h)
    refine walkFrom_true_succ hgrow.owned hc (fun q hq => ?_) (fun _ s' href => ?_)
      fun _ q own₂ s₂ hq hgrow₂ hsupply₂ htab₂ => ?_
    all_goals rw [hidx₁] at *
    · exact absurd ⟨q, hq⟩ hno₀
    · refine ⟨own₁, hgrow.trans (href.grow hgrow.owned hgrow.root), ?_⟩
      simp [tableCost, hno, hsupply, href.supply]
    · rw [walkFrom, wp_pure]
      refine ⟨own₂, hgrow.trans hgrow₂, hq, PX_zero va, by simp [tableCost, hno]; omega,
        fun l b => ?_⟩
      rw [htab₂, htab, or_assoc]

/-! ## Stores to leaf entries -/

/-- The mappings after a store of `e` to the entry `i` of the table `q` of level 0. -/
theorem pteOf_setPte {i e : Nat} (h : Owned own s)
    (h' : Owned own' s')
    (htab : ∀ p l w, own' p = some (.table r l w) ↔ own p = some (.table r l w))
    (hmem : ∀ p l w, own p = some (.table r l w) → s'.mem p = setPte s.mem q i e p)
    (hq : own q = some (.table r 0 b)) (hi : i < 512) (he : e < 256 ^ 8) (hv : v < 2 ^ 27) :
    pteOf s'.mem r v = if v = b * 512 + i then e else pteOf s.mem r v := by
  have hr : Root own r := h.root_of_table hq
  refine (h.tree hr).pteOf_store (h'.tree ((htab ..).mpr hr)) (fun p => ?_) (fun p hp => ?_)
    (layoutOf_eq_some.mpr hq) hi he hv
  · rw [layoutOf_eq_some, layoutOf_eq_some]
    exact htab p 0 _
  · exact hmem p 0 _ (layoutOf_eq_some.mp hp)

/-- A store to the table `q` of `r` that changes the role and the contents of
the page `pa` at most. -/
theorem frame_setPte (hq : own q = some (.table r l b))
    (hpa : ∀ r' l' v', own pa ≠ some (.table r' l' v'))
    (hpa' : ∀ r' l' v', own' pa ≠ some (.table r' l' v')) (hown : ∀ p, p ≠ pa → own' p = own p)
    (hdom : own' pa = none ↔ own pa = none) (hheld : own' pa = some .held → own pa = some .held)
    (hmem : ∀ p, p ≠ q → p ≠ pa → s'.mem p = s.mem p) (hout : own pa = none → s'.mem pa = s.mem pa)
    (hkend : s'.kend = s.kend) (htramp : s'.trampoline = s.trampoline) :
    Frame r (· = pa) own own' s s' := by
  refine ⟨hkend, htramp, fun p => ?_, fun p hp => ?_, fun p hp => ?_, fun p r' l' v' hne hp => ?_,
    fun p r' l' v' hne hp => ?_, fun p hp hppa => ?_, fun p r' v' hp hppa => ?_⟩
  · by_cases hppa : p = pa
    · rw [hppa]
      exact hdom
    · rw [hown p hppa]
  · by_cases hppa : p = pa
    · rw [hppa] at hp ⊢
      exact hout hp
    · exact hmem p (ne_of_none hp hq) hppa
  · by_cases hppa : p = pa
    · rw [hppa] at hp ⊢
      exact .inl (hheld hp)
    · exact .inl ((hown p hppa).symm.trans hp)
  · have hppa : p ≠ pa := fun heq => hpa r' l' v' (heq ▸ hp)
    have hpq : p ≠ q := ne_of_role hp hq fun heq => hne (Role.table.inj heq).1
    exact ⟨(hown p hppa).trans hp, hmem p hpq hppa⟩
  · have hppa : p ≠ pa := fun heq => hpa' r' l' v' (heq ▸ hp)
    exact (hown p hppa).symm.trans hp
  · exact ⟨(hown p hppa).trans hp, hmem p (ne_of_role hp hq nofun) hppa⟩
  · exact ⟨(hown p hppa).trans hp, hmem p (ne_of_role hp hq nofun) hppa⟩

theorem setPte_of_ne (mem : Nat → Nat → UInt8) (i e : Nat) (h : p ≠ pt) :
    setPte mem pt i e p = mem p :=
  update_of_ne h _ _

/-- A store to the table `q` of `r`. -/
theorem Owned.frame_store (h : Owned own s) (hq : own q = some (.table r l b))
    (i e : Nat) : Frame r NoPage own own s { s with mem := setPte s.mem q i e } := by
  -- no page has the address 0
  have hzero : ∀ x, own 0 ≠ some x := fun x h0 => h.pos h0 rfl
  have hframe : Frame r (· = 0) own own s { s with mem := setPte s.mem q i e } :=
    frame_setPte hq (fun _ _ _ => hzero _) (fun _ _ _ => hzero _) (fun _ _ => rfl) Iff.rfl id
      (fun p hp _ => setPte_of_ne _ _ _ hp)
        (fun h0 => setPte_of_ne _ _ _ (ne_of_none h0 hq)) rfl rfl
  refine hframe.narrow ?_
  rintro p rfl
  exact .inr ⟨hzero _, fun _ _ => hzero _⟩

/-! ## Mapping one page -/

/-- The user page `v` of the page table `r` is now the page `pa`, with the entry
`e`; no other mapping changed. -/
structure Mapped (r v pa e : Nat) (own own' : Owner) (s s' : Phys) : Prop where
  owned : Owned own' s'
  root : Root own' r
  frame : Frame r (· = pa) own own' s s'
  consumes : Consumes own own'
  page : own' pa = some (.user r v)
  mem : s'.mem pa = s.mem pa
  pte : ∀ w, w < 2 ^ 27 → pteOf s'.mem r w = if w = v then e else pteOf s.mem r w

/-- What the body of `mappages` has done for the user page `v`. -/
def MapPost (own : Owner) (r v pa perm : Nat) (s : Phys) (res : Option Int) (s' : Phys) : Prop :=
  match res with
  | some rc => rc = -1 ∧ s.supply < tableCost own r v ∧ ∃ own', Grow r own own' s s'
  | none => s.supply = s'.supply + tableCost own r v ∧
      ∃ own', Mapped r v pa (mkPte pa perm) own own' s s' ∧ AddsTables r v own own'

theorem mapPage_spec {perm : Nat} (h : Owned own s) (hr : Root own r) (hv : v < TFVPN)
    (hinv : isValid (pteOf s.mem r v) = false) (hpa : own pa = some .held) (hperm : perm < 1024)
    (hleaf : isLeaf perm = true) :
    wp (mapPage r (v * PGSIZE) pa perm) E (MapPost own r v pa perm s) s := by
  have htf := tfvpn_lt
  have hva : v * PGSIZE < MAXVA := by
    rw [show MAXVA = 2 ^ 26 * PGSIZE from rfl]
    exact Nat.mul_lt_mul_of_pos_right (by omega) (by decide)
  have hvpn : v * PGSIZE / 4096 = v := Nat.mul_div_cancel v (by decide)
  rw [mapPage, wp_bind]
  refine (walk_true_spec h hr hva).mono fun res s₁ hwalk => ?_
  rw [hvpn] at hwalk
  obtain ⟨own₁, hgrow, hres⟩ := hwalk
  rcases res with _ | ⟨q, i⟩
  · exact (wp_pure _).mpr ⟨rfl, hres, own₁, hgrow⟩
  · obtain ⟨hq, rfl, hsupply, htab⟩ := hres
    have hpa₁ := hgrow.frame.held pa hpa not_false
    have hpte : getPte s₁.mem q (v % 512) = pteOf s.mem r v := by
      rw [← hgrow.owned.pteOf_eq hq, hgrow.pte v (by omega)]
    have hrec : v / 512 * 512 + v % 512 = v := Nat.div_add_mod' v 512
    simp only [readPte, writePte, wp_bind, wp_reads, hpte, hinv, Bool.false_eq_true, if_false,
      wp_updates, wp_pure]
    have howned := hgrow.owned.setLeaf hq (Nat.mod_lt _ (by decide)) (hpte ▸ hinv) hpa₁.1
      (hrec.symm ▸ hv) hperm hleaf
    rw [hrec] at howned
    have htables : ∀ p l w, update own₁ pa (some (.user r v)) p = some (.table r l w) ↔
        own₁ p = some (.table r l w) := fun p l w => own_update_iff hpa₁.1 (by simp) (by simp)
    have hqpa : pa ≠ q := ne_of_role hpa₁.1 hq (by simp)
    have hframe : Frame r (· = pa) own₁ (update own₁ pa (some (.user r v))) s₁
        { s₁ with mem := setPte s₁.mem q (v % 512) (mkPte pa perm) } :=
      frame_setPte hq (by simp [hpa₁.1]) (by simp) (fun p hp => update_of_ne hp _ _)
        (own_update_eq_none hpa₁.1 pa) (fun hp => (own_update_ne hp (by simp)).1)
          (fun p hp _ => setPte_of_ne _ _ _ hp)
        (fun _ => setPte_of_ne _ _ _ hqpa) rfl rfl
    refine ⟨hsupply, _, ⟨howned, (htables ..).mpr hgrow.root,
      (hgrow.frame.widen (by simp)).trans hframe, fun p hp => hgrow.consumes p ?_,
      update_self _ _ _, ?_, fun w hw => ?_⟩, fun l b => ?_⟩
    · exact (own_update_ne hp (by simp)).1
    · rw [← hpa₁.2]
      exact update_of_ne hqpa _ _
    · have hset := pteOf_setPte hgrow.owned howned htables (fun _ _ _ _ => rfl) hq
        (Nat.mod_lt v (by decide : 0 < 512)) (mkPte_lt (hgrow.owned.pageAddr hpa₁.1).2 hperm) hw
      rw [hrec, hgrow.pte w hw] at hset
      exact hset
    · rw [← htab l b]
      exact exists_congr fun p => htables p l b

/-- The body of `mappages` for the trampoline or the trapframe. -/
def SpecialPost (own : Owner) (r v pa perm : Nat) (s : Phys) (res : Option Int)
    (s' : Phys) : Prop :=
  match res with
  | some rc => rc = -1 ∧ s.supply < tableCost own r v ∧ ∃ own', Grow r own own' s s'
  | none => s.supply = s'.supply + tableCost own r v ∧ ∃ own', Owned own' s' ∧ Root own' r ∧
      Frame r NoPage own own' s s' ∧ AddsTables r v own own' ∧
      ∀ w, w < 2 ^ 27 → pteOf s'.mem r w = if w = v then mkPte pa perm else pteOf s.mem r w

theorem mapSpecial_spec {perm : Nat} (h : Owned own s) (hr : Root own r) (hv : TFVPN ≤ v)
    (hv' : v < 2 ^ 26) (hinv : isValid (pteOf s.mem r v) = false) (hpa : pa < 2 ^ 64)
    (hperm : perm < 1024) (hleaf : isLeaf perm = true) :
    wp (mapPage r (v * PGSIZE) pa perm) E (SpecialPost own r v pa perm s) s := by
  have hva : v * PGSIZE < MAXVA := by
    rw [show MAXVA = 2 ^ 26 * PGSIZE from rfl]
    exact Nat.mul_lt_mul_of_pos_right hv' (by decide)
  have hvpn : v * PGSIZE / 4096 = v := Nat.mul_div_cancel v (by decide)
  rw [mapPage, wp_bind]
  refine (walk_true_spec h hr hva).mono fun res s₁ hwalk => ?_
  rw [hvpn] at hwalk
  obtain ⟨own₁, hgrow, hres⟩ := hwalk
  rcases res with _ | ⟨q, i⟩
  · exact (wp_pure _).mpr ⟨rfl, hres, own₁, hgrow⟩
  · obtain ⟨hq, rfl, hsupply, htab⟩ := hres
    have hpte : getPte s₁.mem q (v % 512) = pteOf s.mem r v := by
      rw [← hgrow.owned.pteOf_eq hq, hgrow.pte v (by omega)]
    have hrec : v / 512 * 512 + v % 512 = v := Nat.div_add_mod' v 512
    have hlt := mkPte_lt hpa hperm
    simp only [readPte, writePte, wp_bind, wp_reads, hpte, hinv, Bool.false_eq_true, if_false,
      wp_updates, wp_pure]
    have howned := hgrow.owned.storeLeaf hq (Nat.mod_lt v (by decide : 0 < 512)) hlt
      (hrec.symm ▸ hv') (fun _ => by rw [isLeaf_mkPte pa hperm]; exact hleaf) fun hlow => by omega
    refine ⟨hsupply, own₁, howned, hgrow.root, hgrow.frame.trans (hgrow.owned.frame_store hq _ _),
      htab, fun w hw => ?_⟩
    have hset := pteOf_setPte hgrow.owned howned (fun _ _ _ => Iff.rfl) (fun _ _ _ _ => rfl) hq
      (Nat.mod_lt v (by decide : 0 < 512)) hlt hw
    rw [hrec, hgrow.pte w hw] at hset
    exact hset

/-- `mappages` of a single page. -/
theorem mappages_one {Q : Int → Phys → Prop} (v pa perm : Nat) :
    wp (mappages r (v * PGSIZE) PGSIZE pa perm) E Q s ↔
      wp (mapPage r (v * PGSIZE) pa perm) E (fun res t => Q (res.getD 0) t) s := by
  have hva : ¬ v * PGSIZE % PGSIZE ≠ 0 := not_not.mpr (Nat.mul_mod_left v PGSIZE)
  rw [mappages, if_neg hva, if_neg (by decide), if_neg (by decide), wp_bind,
    show PGSIZE / PGSIZE = 0 + 1 from rfl, untilSome, untilSome, wp_bind, wp_pure]
  simp only [Nat.zero_mul, Nat.add_zero, wp_pure]

end Xv6.Vm
