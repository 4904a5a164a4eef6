import Xv6.Vm.Resize

/-!
# Growing user memory

Specification of `uvmalloc`.

* `Taken`: a page was taken from the allocator.
* `Fresh`: one page was mapped to such a page, at the cost of the page and of the
  tables it needed; `Taken.mappages_spec`.
* `allocPage_spec`: the body of the loop of `uvmalloc` maps such a page, or runs
  out of memory and unmaps what the loop has mapped.
* `Alloced`: a range of pages was mapped to fresh pages of zeros.
* `uvmalloc_rule`: `uvmalloc` with an invariant of its loop; `uvmalloc_spec` is
  the case of an end below `TRAPFRAME`.
-/

namespace Xv6.Vm

open Xv6.Lib.Bytes Xv6.Lib.Wp
open Function (update update_of_ne update_self)

variable {E : Panic → Prop} {own : Owner} {s : Phys} {r : Nat}

theorem userPerm_lt {xperm : Nat} (h : xperm < 1024) : PTE_R ||| PTE_U ||| xperm < 1024 :=
  Nat.or_lt_two_pow (n := 10) (by decide) h

theorem isLeaf_userPerm (xperm : Nat) : isLeaf (PTE_R ||| PTE_U ||| xperm) = true := by
  have hbit : (PTE_R ||| PTE_U).testBit 1 = true := by decide
  rw [isLeaf, Nat.testBit_or, hbit, Bool.true_or, Bool.true_or, Bool.true_or]

/-! ## One page -/

/-- A page that is free before an operation on `r` and is held or free after it. -/
theorem FrameX.give {T T' H : Nat → Prop} {own' : Owner} {s' s'' : Phys} {pa : Nat}
    (h : FrameX T r H own own' s s') (hpa : own pa = some .free) (hmoved : Moved pa s' s'')
    (x : Role) (hx : ∀ r l v, x ≠ .table r l v) (hT : ∀ p, T p → T' p ∨ p = pa)
    (hheld : x = .held → T' pa) :
    FrameX T' r H own (update own' pa (some x)) s s'' := by
  have hkeep : ∀ {p y}, own p = some y → y ≠ .free → own' p = some y ∧ s'.mem p = s.mem p →
      update own' pa (some x) p = some y ∧ s''.mem p = s.mem p := by
    intro p y hp hy hold
    have hne : p ≠ pa := ne_of_role hp hpa hy
    rw [update_of_ne hne, hmoved.mem p hne]
    exact hold
  have hpa' : own' pa ≠ none := fun hnone => by
    rw [(h.dom pa).mp hnone] at hpa
    cases hpa
  obtain ⟨y, hy⟩ := Option.ne_none_iff_exists'.mp hpa'
  refine ⟨hmoved.kend.trans h.kend, hmoved.trampoline.trans h.trampoline,
    fun p => (own_update_eq_none hy p).trans (h.dom p),
    fun p hp => (hmoved.mem p (ne_of_none hp hpa)).trans (h.outside p hp), fun p hp => ?_,
    fun p r' l v hne hp => hkeep hp nofun (h.table p r' l v hne hp), fun p r' l v hne hp => ?_,
    fun p hp hH => hkeep hp nofun (h.held p hp hH),
    fun p r' v hp hH => hkeep hp nofun (h.user p r' v hp hH)⟩
  · by_cases hppa : p = pa
    · rw [hppa, update_self] at hp
      exact .inr (hppa ▸ hheld (Option.some.inj hp))
    · refine (h.newHeld p (own_update_old hppa hp)).imp_right fun hTp => ?_
      exact (hT p hTp).resolve_right hppa
  · exact h.newTable p r' l v hne (own_update_ne hp (hx r' l v)).1

/-- The tables stay what they are when a page that is no table gets a role of no
table. -/
theorem table_update {pa : Nat} {x y : Role} (hpa : own pa = some y)
    (hx : ∀ r l v, x ≠ .table r l v) (hy : ∀ r l v, y ≠ .table r l v) (p r l w : Nat) :
    update own pa (some x) p = some (.table r l w) ↔ own p = some (.table r l w) :=
  own_update_iff hpa (hx r l w).symm (hy r l w).symm

theorem tableCost_congr {own' : Owner} (h : ∀ l b, HasTable own' r l b ↔ HasTable own r l b)
    (v : Nat) :
    tableCost own' r v = tableCost own r v := by
  have heq : HasTable own' r = HasTable own r := funext₂ fun l b => propext (h l b)
  unfold tableCost
  rw [heq]

/-- The page `v` was mapped to the fresh page `pa` with the contents `page`. -/
structure Fresh (r v pa perm : Nat) (page : Nat → UInt8) (own own' : Owner) (s s' : Phys) :
    Prop where
  owned : Owned own' s'
  root : Root own' r
  frame : Frame r NoPage own own' s s'
  consumes : Consumes own own'
  free : own pa = some .free
  user : own' pa = some (.user r v)
  entry : lookup s'.mem r v = some (mkPte pa perm)
  mem : s'.mem pa = page
  kept : ∀ w, w < 2 ^ 27 → w ≠ v → lookup s'.mem r w = lookup s.mem r w
  tables : AddsTables r v own own'
  supply : s.supply = s'.supply + (1 + tableCost own r v)

/-- The page `pa` was taken from the allocator, and may have been written to. -/
structure Taken (pa : Nat) (own own' : Owner) (s s' : Phys) : Prop where
  free : own pa = some .free
  own_eq : own' = update own pa (some .held)
  owned : Owned own' s'
  moved : Moved pa s s'
  supply : s.supply = s'.supply + 1

section Taken

variable {own' : Owner} {s' : Phys} {pa : Nat}

theorem Taken.held (h : Taken pa own own' s s') : own' pa = some .held := by
  rw [h.own_eq, update_self]

theorem Taken.consumes (h : Taken pa own own' s s') : Consumes own own' := by
  intro p hp
  rw [h.own_eq] at hp
  exact (own_update_ne hp nofun).1

theorem Taken.frame (h : Taken pa own own' s s') (r : Nat) :
    FrameX (· = pa) r NoPage own own' s s' := by
  rw [h.own_eq]
  exact (Frame.refl r NoPage own s).give h.free h.moved .held nofun nofun fun _ => rfl

theorem Taken.table_iff (h : Taken pa own own' s s') (p r l w : Nat) :
    own' p = some (.table r l w) ↔ own p = some (.table r l w) := by
  rw [h.own_eq]
  exact table_update (x := .held) h.free nofun nofun p r l w

theorem Taken.root (h : Taken pa own own' s s') (hr : Root own r) : Root own' r :=
  (h.table_iff ..).mpr hr

theorem Taken.pte (h : Taken pa own own' s s') (hs : Owned own s) (hr : Root own r) {v : Nat}
    (hv : v < 2 ^ 27) : pteOf s'.mem r v = pteOf s.mem r v :=
  hs.pteOf_congr h.owned (fun p l w => h.table_iff p r l w)
    (fun p _ _ hp => h.moved.mem p (ne_of_role hp h.free nofun)) hr hv

theorem Taken.cost (h : Taken pa own own' s s') (r v : Nat) :
    tableCost own' r v = tableCost own r v :=
  tableCost_congr (fun l b => exists_congr fun p => h.table_iff p r l b) v

/-- Writing to the page. -/
theorem Taken.setPage (h : Taken pa own own' s s') (page : Nat → UInt8) :
    Taken pa own own' s { s' with mem := update s'.mem pa page } := by
  refine ⟨h.free, h.own_eq, h.owned.setPage page (by simp [h.held]), ⟨fun q hq => ?_,
    h.moved.kend, h.moved.trampoline⟩, h.supply⟩
  exact (update_of_ne hq _ _).trans (h.moved.mem q hq)

/-- The page is given back: nothing has changed. -/
theorem Taken.same {own'' : Owner} {s'' s₃ : Phys} (h : Taken pa own own' s s') (hs : Owned own s)
    (hr : Root own r) (hgrow : Grow r own' own'' s' s'')
    (howned : Owned (update own'' pa (some .free)) s₃) (hmoved : Moved pa s'' s₃) :
    Same r own (update own'' pa (some .free)) s s₃ := by
  have hheld := hgrow.frame.held pa h.held not_false
  have htab := table_update (x := .free) hheld.1 nofun nofun
  refine ⟨howned, (htab ..).mpr hgrow.root,
    ((h.frame r).trans (hgrow.frame.allow _)).give h.free hmoved .free nofun (fun _ => .inr) nofun,
    fun v hv => lookup_congr ?_⟩
  rw [← h.pte hs hr hv, ← hgrow.pte v hv]
  exact hgrow.owned.pteOf_congr howned (fun p l w => htab p r l w)
    (fun p _ _ hp => hmoved.mem p (ne_of_role hp hheld.1 nofun)) hgrow.root hv

end Taken

theorem kalloc_taken (h : Owned own s) :
    wp kalloc E (fun pa s' => pa = 0 ∧ Refused s s' ∨
      pa ≠ 0 ∧ Taken pa own (update own pa (some .held)) s s') s := by
  refine (kalloc_spec h).mono fun pa s' hpa => ?_
  rcases hpa with hpa | ⟨hfree, howned, hmoved, hsupply⟩
  · exact .inl hpa
  · exact .inr ⟨h.pos hfree, hfree, rfl, howned, hmoved, hsupply⟩

/-- Mapping a taken page, or giving it back. -/
theorem Taken.mappages_spec {own' : Owner} {s' : Phys} {pa v perm : Nat}
    (h : Taken pa own own' s s') (hs : Owned own s) (hr : Root own r) (hv : v < TFVPN)
    (hnone : lookup s.mem r v = none) (hperm : perm < 1024) (hleaf : isLeaf perm = true) :
    wp (mappages r (v * PGSIZE) PGSIZE pa perm) E (fun rc s'' =>
      rc = 0 ∧ (∃ own'', Fresh r v pa perm (s'.mem pa) own own'' s s'') ∨
      rc = -1 ∧ s.supply < 1 + tableCost own r v ∧
        wp (kfree pa) E (fun _ s₃ => ∃ own₃, Same r own own₃ s s₃) s'') s' := by
  have htf := tfvpn_lt
  have hinv : isValid (pteOf s'.mem r v) = false := by
    rw [h.pte hs hr (by omega)]
    exact lookup_eq_none.mp hnone
  have hcost := h.cost r v
  have hone := h.supply
  rw [mappages_one]
  refine (mapPage_spec h.owned (h.root hr) hv hinv h.held hperm hleaf).mono fun res s₂ hmap => ?_
  rcases res with _ | rc
  · obtain ⟨hsupply, own₂, hmapped, htab⟩ := hmap
    refine .inl ⟨rfl, own₂, hmapped.owned, hmapped.root, ?_, fun p hp => h.consumes p
      (hmapped.consumes p hp), h.free, hmapped.page, ?_, hmapped.mem,
      fun w hw hwv => lookup_congr ?_, fun l b => ?_, by omega⟩
    · have hframe := ((h.frame r).widen nofun).trans (hmapped.frame.allow _)
      refine (hframe.settle fun p hp hheld => ?_).narrow fun p hp => .inr ?_
      · rw [hp, hmapped.page] at hheld
        cases hheld
      · rw [hp, h.free]
        exact ⟨nofun, nofun⟩
    · have hpte := hmapped.pte v (by omega)
      rw [if_pos rfl] at hpte
      rw [lookup_eq_some, hpte]
      exact ⟨isValid_mkPte pa hperm, rfl⟩
    · rw [hmapped.pte w hw, if_neg hwv, h.pte hs hr hw]
    · rw [htab l b]
      exact or_congr_left (exists_congr fun p => h.table_iff p r l b)
  · obtain ⟨rfl, hsupply, own₂, hgrow⟩ := hmap
    refine .inr ⟨rfl, by omega, ?_⟩
    refine (kfree_spec hgrow.owned (hgrow.frame.held pa h.held not_false).1).mono
      fun _ s₃ hfree => ?_
    exact ⟨_, h.same hs hr hgrow hfree.1 hfree.2⟩

/-- What the body of the loop of `uvmalloc` has done for the page `v`, when the
loop started at `lo`. -/
def AllocPost (own : Owner) (r lo v perm : Nat) (s : Phys) (res : Option Nat) (s' : Phys) : Prop :=
  match res with
  | none => ∃ pa own', Fresh r v pa perm (fun _ => 0) own own' s s'
  | some rc => rc = 0 ∧ s.supply < 1 + tableCost own r v ∧ ∃ own₁ s₁ own',
      Same r own own₁ s s₁ ∧ Unmapped r (fun w => lo ≤ w ∧ w < v) own₁ own' s₁ s'

theorem npages_mul (v : Nat) : npages (v * PGSIZE) = v := by
  rw [npages, show PGSIZE = 4096 from rfl]
  omega

theorem allocPage_spec {lo v xperm : Nat} (h : Owned own s) (hr : Root own r) (hv : v < TFVPN)
    (hnone : lookup s.mem r v = none) (hperm : xperm < 1024) :
    wp (allocPage r (lo * PGSIZE) (v * PGSIZE) xperm) E
      (AllocPost own r lo v (PTE_R ||| PTE_U ||| xperm) s) s := by
  have htf := tfvpn_lt
  have hold : v * PGSIZE ≤ TRAPFRAME := by
    rw [show TRAPFRAME = TFVPN * PGSIZE by decide]
    exact Nat.mul_le_mul_right _ (by omega)
  -- both failures end with `uvmdealloc`
  have hundo : ∀ own₁ s₁, s.supply < 1 + tableCost own r v → Same r own own₁ s s₁ →
      wp (uvmdealloc r (v * PGSIZE) (lo * PGSIZE)) E
        (fun _ t => AllocPost own r lo v (PTE_R ||| PTE_U ||| xperm) s (some 0) t) s₁ := by
    intro own₁ s₁ hsupply hsame
    refine (uvmdealloc_spec hsame.owned hsame.root hold).mono fun _ t hun => ?_
    obtain ⟨-, own', hun⟩ := hun
    rw [npages_mul, npages_mul] at hun
    exact ⟨rfl, hsupply, own₁, s₁, own', hsame, hun⟩
  rw [allocPage, wp_bind]
  refine (kalloc_taken h).mono fun pa s₁ hpa => ?_
  rcases hpa with ⟨rfl, hrefused⟩ | ⟨hne, htaken⟩
  · rw [if_pos rfl, wp_bind]
    refine (hundo own s₁ ?_ (hrefused.grow h hr).same).mono fun _ t ht => (wp_pure _).mpr ht
    rw [hrefused.supply]
    omega
  · have hzero := htaken.setPage fun _ => 0
    rw [if_neg hne, memset, setPage, wp_bind, wp_updates, wp_bind]
    refine (hzero.mappages_spec h hr hv hnone (userPerm_lt hperm) (isLeaf_userPerm _)).mono
      fun rc s₂ hmap => ?_
    rcases hmap with ⟨rfl, own₂, hfresh⟩ | ⟨rfl, hsupply, hfree⟩
    · have hpage : update s₁.mem pa (fun _ => 0) pa = fun _ => 0 := update_self _ _ _
      rw [if_neg (by decide), wp_pure]
      exact ⟨pa, own₂, hpage ▸ hfresh⟩
    · rw [if_pos (by decide), wp_bind]
      refine hfree.mono fun _ s₃ hsame => ?_
      obtain ⟨own₃, hsame⟩ := hsame
      rw [wp_bind]
      exact (hundo own₃ s₃ hsupply hsame).mono fun _ t ht => (wp_pure _).mpr ht

/-! ## A range of pages -/

/-- The pages from `lo` up to `hi` were mapped to fresh pages of zeros. -/
structure Alloced (r lo hi perm : Nat) (own own' : Owner) (s s' : Phys) : Prop where
  owned : Owned own' s'
  root : Root own' r
  frame : Frame r NoPage own own' s s'
  consumes : Consumes own own'
  new : ∀ v, lo ≤ v → v < hi → ∃ pa, own pa = some .free ∧ own' pa = some (.user r v) ∧
    lookup s'.mem r v = some (mkPte pa perm) ∧ s'.mem pa = fun _ => 0
  kept : ∀ v, v < 2 ^ 27 → ¬ (lo ≤ v ∧ v < hi) → lookup s'.mem r v = lookup s.mem r v

theorem Alloced.refl (h : Owned own s) (hr : Root own r) {lo hi : Nat} (hle : hi ≤ lo)
    (perm : Nat) :
    Alloced r lo hi perm own own s s :=
  ⟨h, hr, Frame.refl _ _ _ _, fun _ => id, fun v hlo hhi => by omega, fun _ _ _ => rfl⟩

theorem Alloced.snoc {own' own'' : Owner} {s' s'' : Phys} {lo v pa perm : Nat}
    (h : Alloced r lo v perm own own' s s')
    (h' : Fresh r v pa perm (fun _ => 0) own' own'' s' s'')
    (hlo : lo ≤ v) (hv : v < 2 ^ 27) : Alloced r lo (v + 1) perm own own'' s s'' := by
  refine ⟨h'.owned, h'.root, h.frame.trans h'.frame, fun p hp => h.consumes p (h'.consumes p hp),
    fun w hlow hw => ?_, fun w hw hout => ?_⟩
  · rcases eq_or_ne w v with rfl | hwv
    · exact ⟨pa, h.consumes pa h'.free, h'.user, h'.entry, h'.mem⟩
    · obtain ⟨pa, hfree, hown, hlook, hzero⟩ := h.new w hlow (by omega)
      obtain ⟨hown', hmem⟩ := h'.frame.user pa r w hown not_false
      exact ⟨pa, hfree, hown', (h'.kept w (by omega) hwv).trans hlook, hmem.trans hzero⟩
  · have hwv : w ≠ v := fun heq => hout ⟨heq ▸ hlo, by omega⟩
    rw [h'.kept w hw hwv, h.kept w hw fun hin => hout ⟨hin.1, by omega⟩]

/-- A user page has a valid entry. -/
theorem Owned.lookup_of_user (h : Owned own s) {p v : Nat} (hp : own p = some (.user r v)) :
    lookup s.mem r v ≠ none := by
  obtain ⟨-, q, hq, hvalid, -⟩ := h.user p r v hp
  rw [Ne, lookup_eq_none, h.pteOf_eq hq, hvalid]
  exact nofun

/-- Unmapping the pages that were mapped leads back to the old mappings. -/
theorem Unmapped.undo {P : Nat → Prop} {own₁ own₂ : Owner} {s₁ s₂ : Phys} (hs : Owned own s)
    (h : Unmapped r P own₁ own₂ s₁ s₂) (hframe : Frame r NoPage own own₁ s s₁)
    (hnone : ∀ v, P v → lookup s.mem r v = none)
    (hkept : ∀ v, v < 2 ^ 27 → ¬ P v → lookup s₁.mem r v = lookup s.mem r v) :
    Same r own own₂ s s₂ := by
  refine ⟨h.owned, h.root, ((hframe.widen nofun).trans h.frame).narrow fun p hp => .inr ?_,
    fun v hv => ?_⟩
  · -- the freed pages were free at the start
    obtain ⟨v, hv, hp⟩ := hp
    refine ⟨fun hheld => ?_, fun r' v' huser => ?_⟩
    · rw [(hframe.held p hheld not_false).1] at hp
      cases hp
    · rw [(hframe.user p r' v' huser not_false).1, Option.some.injEq] at hp
      obtain ⟨rfl, rfl⟩ := Role.user.inj hp
      exact hs.lookup_of_user huser (hnone v' hv)
  · by_cases hP : P v
    · rw [h.gone v hv hP, hnone v hP]
    · rw [h.kept v hv hP, hkept v hv hP]

/-- What `uvmalloc` has done, with an invariant `K` of its loop. -/
def UvmallocPost (K : Nat → Owner → Phys → Prop) (own : Owner) (r oldsz newsz perm : Nat) (s : Phys)
    (res : Nat) (s' : Phys) : Prop :=
  (res = newsz ∧ ∃ own', Alloced r (npages oldsz) (npages newsz) perm own own' s s' ∧
    K (npages newsz) own' s') ∨
  (res = 0 ∧ ∃ own', Same r own own' s s' ∧ ∃ v own₁ s₁, npages oldsz ≤ v ∧ v < npages newsz ∧
    K v own₁ s₁ ∧ Alloced r (npages oldsz) v perm own own₁ s s₁ ∧
    s₁.supply < 1 + tableCost own₁ r v)

theorem uvmalloc_rule {oldsz newsz xperm : Nat} (K : Nat → Owner → Phys → Prop) (h : Owned own s)
    (hr : Root own r) (hold : oldsz ≤ TRAPFRAME) (hle : oldsz ≤ newsz) (hperm : xperm < 1024)
    (hnone : ∀ v, npages oldsz ≤ v → v < npages newsz → v < TFVPN → lookup s.mem r v = none)
    (hK : K (npages oldsz) own s)
    (hstep : ∀ v own₁ s₁, npages oldsz ≤ v → v < npages newsz → K v own₁ s₁ → v < TFVPN ∧
      ∀ pa own₂ s₂, Fresh r v pa (PTE_R ||| PTE_U ||| xperm) (fun _ => 0) own₁ own₂ s₁ s₂ →
        K (v + 1) own₂ s₂) :
    wp (uvmalloc r oldsz newsz xperm) E
      (UvmallocPost K own r oldsz newsz (PTE_R ||| PTE_U ||| xperm) s) s := by
  have htf : TRAPFRAME + 4095 < 2 ^ 64 := by decide
  have htv := tfvpn_lt
  have hmono := npages_mono hle
  have hcount : (newsz - npages oldsz * PGSIZE + PGSIZE - 1) / PGSIZE =
      npages newsz - npages oldsz := by
    rw [show PGSIZE = 4096 from rfl, npages, npages]
    omega
  rw [uvmalloc, if_neg (Nat.not_lt.mpr hle)]
  dsimp only
  rw [PGROUNDUP_eq (by omega), hcount, wp_bind]
  refine (wp_untilSome (I := fun k t => ∃ own₁, K (npages oldsz + k) own₁ t ∧
      Alloced r (npages oldsz) (npages oldsz + k) (PTE_R ||| PTE_U ||| xperm) own own₁ s t)
    (R := fun rc t => UvmallocPost K own r oldsz newsz (PTE_R ||| PTE_U ||| xperm) s rc t ∧ rc = 0)
    ⟨own, hK, Alloced.refl h hr (Nat.le_refl _) _⟩ fun k hk t hinv => ?_).mono fun res t hres => ?_
  · obtain ⟨own₁, hK₁, halloc⟩ := hinv
    obtain ⟨hv, hnext⟩ := hstep (npages oldsz + k) own₁ t (by omega) (by omega) hK₁
    rw [← Nat.add_mul]
    refine (allocPage_spec halloc.owned halloc.root hv ?_ hperm).mono
      fun res t' hpage => ?_
    · rw [halloc.kept _ (by omega) (by omega)]
      exact hnone _ (by omega) (by omega) hv
    · rcases res with _ | rc
      · obtain ⟨pa, own₂, hfresh⟩ := hpage
        exact ⟨own₂, hnext pa own₂ t' hfresh, halloc.snoc hfresh (by omega) (by omega)⟩
      · obtain ⟨rfl, hsupply, own₂, s₂, own₃, hsame, hun⟩ := hpage
        have hundo : Same r own own₃ s t' := by
          refine hun.undo h (halloc.frame.trans hsame.frame)
            (fun w hw => hnone w hw.1 (by omega) (by omega)) fun w hw hout => ?_
          rw [hsame.kept w hw, halloc.kept w hw hout]
        exact ⟨.inr ⟨rfl, own₃, hundo, _, own₁, t, by omega, by omega, hK₁, halloc, hsupply⟩, rfl⟩
  · rw [wp_pure]
    rcases res with _ | rc
    · obtain ⟨own₁, hK₁, halloc⟩ := hres
      rw [Nat.add_sub_cancel' hmono] at hK₁ halloc
      exact .inl ⟨rfl, own₁, halloc, hK₁⟩
    · obtain ⟨hpost, rfl⟩ := hres
      exact hpost

/-- `uvmalloc` up to an end that is below `TRAPFRAME`, which takes at most three pages of
memory for each page that it maps. -/
theorem uvmalloc_spec {oldsz newsz xperm : Nat} (h : Owned own s) (hr : Root own r)
    (hle : oldsz ≤ newsz) (hnew : newsz ≤ TRAPFRAME) (hperm : xperm < 1024)
    (hnone : ∀ v, npages oldsz ≤ v → v < npages newsz → lookup s.mem r v = none) :
    wp (uvmalloc r oldsz newsz xperm) E (fun res s' => ∃ own',
      res = newsz ∧
      Alloced r (npages oldsz) (npages newsz) (PTE_R ||| PTE_U ||| xperm) own own' s s' ∨
      res = 0 ∧ Same r own own' s s' ∧ s.supply < 3 * (npages newsz - npages oldsz)) s := by
  have hpages := npages_le_of_le_trapframe hnew
  refine (uvmalloc_rule (fun v _ t => s.supply ≤ t.supply + 3 * (v - npages oldsz)) h hr
    (hle.trans hnew) hle hperm (fun v hlo hhi _ => hnone v hlo hhi) (Nat.le_add_right _ _)
    fun v own₁ t hlo hv hused => ⟨by omega, fun pa own₂ t' hfresh => ?_⟩).mono fun res s' hres => ?_
  · have hsupply := hfresh.supply
    have hcost := tableCost_le own₁ r v
    omega
  · rcases hres with ⟨hres, own', halloc, -⟩ |
      ⟨hres, own', hsame, v, own₁, t, hlo, hhi, hused, -, hshort⟩
    · exact ⟨own', .inl ⟨hres, halloc⟩⟩
    · have hcost := tableCost_le own₁ r v
      exact ⟨own', .inr ⟨hres, hsame, by omega⟩⟩

end Xv6.Vm
