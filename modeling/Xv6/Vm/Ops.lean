import Xv6.Vm.Space

/-!
# Operations on the address space of a process

Specifications of `growproc`, `sys_sbrk` and `vmfault`: none of them panics on the
address space of a process, and each keeps it one.

* `Changed`: the page table of one process and its user pages may have changed,
  everything else is as before.
* `Resized`: such a change that keeps an address space and maps no page other
  than those named.
* `CanFault`, `vmfault_cases`: which faults map a page.
-/

namespace Xv6.Vm

open Xv6.Lib.Bytes Xv6.Lib.Wp

variable {n : BitVec 32} {p : UProc} {va : Nat}

variable {E : Panic → Prop} {own : Owner} {s : Phys} {r : Nat}

/-! ## Changes of one address space -/

/-- Only the page table `r` and its user pages changed. -/
structure Changed (r : Nat) (own own' : Owner) (s s' : Phys) : Prop where
  owned : Owned own' s'
  frame : Frame r (fun p => ∃ v, own p = some (.user r v)) own own' s s'

theorem Changed.refl (h : Owned own s) (r : Nat) : Changed r own own s s :=
  ⟨h, Frame.refl _ _ _ _⟩

theorem Changed.trans {own' own'' : Owner} {s' s'' : Phys} (h : Changed r own own' s s')
    (h' : Changed r own' own'' s' s'') : Changed r own own'' s s'' := by
  refine ⟨h'.owned, ((h.frame.widen fun p => .inl).trans (h'.frame.widen fun p => .inr)).narrow
    (H := fun p => (∃ v, own p = some (.user r v)) ∨ ∃ v, own' p = some (.user r v)) fun p hp => ?_⟩
  by_cases huser : ∃ v, own p = some (.user r v)
  · exact .inl huser
  · obtain ⟨v, hp⟩ := hp.resolve_left huser
    refine .inr ⟨fun hheld => ?_, fun r' v' huser' => ?_⟩
    · rw [(h.frame.held p hheld huser).1] at hp
      cases hp
    · rw [(h.frame.user p r' v' huser' huser).1, Option.some.injEq] at hp
      exact huser ⟨v', (Role.user.inj hp).1 ▸ huser'⟩

theorem Touched.changed {s' : Phys} (h : Touched r own s s') (hs : Owned own s) :
    Changed r own own s s' :=
  ⟨h.owned hs, h.frame⟩

/-- The address space `r` of size `sz` became one of size `sz'`, and only pages
in `P` were mapped. -/
structure Resized (r sz sz' : Nat) (P : Nat → Prop) (own own' : Owner) (s s' : Phys) : Prop where
  changed : Changed r own own' s s'
  space : Space own' s' r sz'
  none : ∀ v, v < TFVPN → ¬ P v → lookup s.mem r v = none → lookup s'.mem r v = none

section Resized

variable {sz sz' : Nat} {P : Nat → Prop} {own' own'' : Owner} {s' s'' : Phys}

theorem Resized.refl (h : Owned own s) (hsp : Space own s r sz) (P : Nat → Prop) :
    Resized r sz sz P own own s s :=
  ⟨Changed.refl h r, hsp, fun _ _ _ => id⟩

theorem Same.resized (h : Same r own own' s s') (hsp : Space own s r sz) (P : Nat → Prop) :
    Resized r sz sz P own own' s s' := by
  have htf := tfvpn_lt
  refine ⟨⟨h.owned, h.frame.widen nofun⟩, hsp.resize h.root hsp.sz_le (fun v hv hsome => ?_)
    (fun v _ hv => h.kept v hv), fun v hv _ hnone => ?_⟩
  · rw [h.kept v (by omega)] at hsome
    exact hsp.below v hv hsome
  · rw [h.kept v (by omega)]
    exact hnone

theorem Touched.resized (h : Touched r own s s') (hs : Owned own s) (hsp : Space own s r sz)
    (P : Nat → Prop) : Resized r sz sz P own own s s' := by
  have htf := tfvpn_lt
  refine ⟨h.changed hs, hsp.resize hsp.root hsp.sz_le (fun v hv hsome => ?_)
    (fun v _ hv => h.lookup_eq hs hsp.root hv), fun v hv _ hnone => ?_⟩
  · rw [h.lookup_eq hs hsp.root (by omega)] at hsome
    exact hsp.below v hv hsome
  · rw [h.lookup_eq hs hsp.root (by omega)]
    exact hnone

theorem Alloced.resized {newsz perm : Nat}
    (h : Alloced r (npages sz) (npages newsz) perm own own' s s') (hsp : Space own s r sz)
    (hle : sz ≤ newsz) (hnew : newsz ≤ TRAPFRAME) :
    Resized r sz newsz (fun v => npages sz ≤ v) own own' s s' := by
  have htf := tfvpn_lt
  have hmono := npages_mono hle
  have hpages := npages_le_of_le_trapframe hnew
  refine ⟨⟨h.owned, h.frame.widen nofun⟩, hsp.resize h.root hnew (fun v hv hsome => ?_)
    (fun v hge hv => h.kept v hv (by omega)), fun v hv hlow hnone => ?_⟩
  · by_contra hout
    rw [h.kept v (by omega) (by omega)] at hsome
    have := hsp.below v hv hsome
    omega
  · rw [h.kept v (by omega) (by omega)]
    exact hnone

theorem Unmapped.resized {newsz : Nat}
    (h : Unmapped r (fun v => npages newsz ≤ v ∧ v < npages sz) own own' s s')
    (hsp : Space own s r sz) (P : Nat → Prop) :
    Resized r sz (if newsz < sz then newsz else sz) P own own' s s' := by
  have htf := tfvpn_lt
  have hpages := npages_le_of_le_trapframe hsp.sz_le
  have hsize := hsp.sz_le
  refine ⟨⟨h.owned, h.frame.widen fun p ⟨v, _, hp⟩ => ⟨v, hp⟩⟩, hsp.resize h.root
    (by split <;> omega) (fun v hv hsome => ?_) (fun v hge hv => h.kept v hv (by omega)),
    fun v hv _ hnone => ?_⟩
  · have hlt : v < npages sz := by
      refine hsp.below v hv fun hnone => hsome ?_
      by_cases hin : npages newsz ≤ v ∧ v < npages sz
      · exact h.gone v (by omega) hin
      · rw [h.kept v (by omega) hin]
        exact hnone
    split
    · by_contra hout
      exact hsome (h.gone v (by omega) ⟨by omega, hlt⟩)
    · exact hlt
  · by_cases hin : npages newsz ≤ v ∧ v < npages sz
    · exact h.gone v (by omega) hin
    · rw [h.kept v (by omega) hin]
      exact hnone

end Resized

/-! ## Growing and shrinking -/

theorem addInt_of_pos {sz : Nat} (hn : 0 < n.toInt) (hsz : sz ≤ TRAPFRAME) :
    sz < addInt sz n := by
  have hlt : n.toInt < 2 ^ 31 := BitVec.toInt_lt
  have htf : TRAPFRAME < 2 ^ 38 := by decide
  rw [addInt]
  omega

/-- What a change of the size has done: it maps pages only if it `grows` the
process at once, and then above the old size. -/
def GrowPost (own : Owner) (p : UProc) (grows : Prop) (s : Phys) (res : Int × UProc) (s' : Phys) :
    Prop :=
  ∃ own', Resized p.pagetable p.sz res.2.sz (fun v => grows ∧ npages p.sz ≤ v) own own' s s' ∧
    res.2.pagetable = p.pagetable ∧ res.2.trapframe = p.trapframe

theorem growproc_spec (h : Owned own s)
    (hsp : Space own s p.pagetable p.sz) :
    wp (growproc p n) E (GrowPost own p (0 < n.toInt) s) s := by
  rw [growproc]
  by_cases hpos : 0 < n.toInt
  · rw [if_pos hpos]
    by_cases hbig : TRAPFRAME < addInt p.sz n
    · rw [if_pos hbig, wp_pure]
      exact ⟨own, Resized.refl h hsp _, rfl, rfl⟩
    · have hlt := addInt_of_pos hpos hsp.sz_le
      rw [if_neg hbig, wp_bind]
      refine (uvmalloc_spec h hsp.root (by omega) (by omega) (by decide)
        (hsp.none_between (by omega))).mono fun sz s' hres => ?_
      obtain ⟨own', ⟨rfl, halloc⟩ | ⟨rfl, hsame, -⟩⟩ := hres
      · rw [if_neg (by omega), wp_pure]
        have hres := halloc.resized hsp (by omega) (by omega)
        exact ⟨own', ⟨hres.changed, hres.space,
          fun v hv hP => hres.none v hv fun hge => hP ⟨hpos, hge⟩⟩, rfl, rfl⟩
      · rw [if_pos rfl, wp_pure]
        exact ⟨own', hsame.resized hsp _, rfl, rfl⟩
  · rw [if_neg hpos]
    by_cases hneg : n.toInt < 0
    · rw [if_pos hneg, wp_bind]
      refine (uvmdealloc_spec h hsp.root hsp.sz_le).mono fun sz s' hres => ?_
      obtain ⟨rfl, own', hun⟩ := hres
      rw [wp_pure]
      exact ⟨own', hun.resized hsp _, rfl, rfl⟩
    · rw [if_neg hneg, wp_pure]
      exact ⟨own, Resized.refl h hsp _, rfl, rfl⟩

/-- A larger size needs no page. -/
theorem Space.grow {sz sz' : Nat} (h : Space own s r sz) (hle : sz ≤ sz') (hsz : sz' ≤ TRAPFRAME) :
    Space own s r sz' := by
  have hmono := npages_mono hle
  refine ⟨h.root, hsz, fun v hv hsome => ?_, h.special⟩
  have := h.below v hv hsome
  omega

theorem GrowPost.weaken {grows grows' : Prop} {res : Int × UProc} {s' : Phys}
    (h : GrowPost own p grows s res s') (himp : grows → grows') :
    GrowPost own p grows' s res s' := by
  obtain ⟨own', hres, htab, htf⟩ := h
  exact ⟨own', ⟨hres.changed, hres.space,
    fun v hv hP => hres.none v hv fun hgrow => hP ⟨himp hgrow.1, hgrow.2⟩⟩, htab, htf⟩

theorem sysSbrk_spec {t : BitVec 32} (h : Owned own s)
    (hsp : Space own s p.pagetable p.sz) :
    wp (sysSbrk p n t) E (GrowPost own p (t = SBRK_EAGER ∧ 0 < n.toInt) s) s := by
  rw [sysSbrk]
  split
  · next ht =>
    rw [wp_bind]
    refine (growproc_spec h hsp).mono fun res s' hres => ?_
    have hres := hres.weaken fun hpos => show t = SBRK_EAGER ∧ 0 < n.toInt from
      ⟨ht.resolve_right (by omega), hpos⟩
    obtain ⟨rc, p'⟩ := res
    dsimp only
    split <;> exact (wp_pure _).mpr hres
  · split
    · exact (wp_pure _).mpr ⟨own, Resized.refl h hsp _, rfl, rfl⟩
    · split
      · exact (wp_pure _).mpr ⟨own, Resized.refl h hsp _, rfl, rfl⟩
      · refine (wp_pure _).mpr ⟨own, ⟨Changed.refl h _, ?_, fun _ _ _ => id⟩, rfl, rfl⟩
        show Space own s p.pagetable (addInt p.sz n)
        exact hsp.grow (by omega) (by omega)

/-! ## Lazily allocated pages -/

theorem ismapped_spec {Q : Bool → Phys → Prop} {pt : Nat} (hva : va < MAXVA) :
    wp (ismapped pt va) E Q s ↔ Q (isValid (pteOf s.mem pt (va / 4096))) s := by
  rw [ismapped, wp_bind, walk_false_spec hva]
  unfold pteOf
  cases locate s.mem pt (va / 4096) with
  | none => simp
  | some q => simp only [Option.map_some, readPte, wp_bind, wp_reads, wp_pure]

theorem Fresh.resized {v pa perm sz : Nat} {page : Nat → UInt8} {own' : Owner} {s' : Phys}
    (h : Fresh r v pa perm page own own' s s') (hsp : Space own s r sz) (hv : v < npages sz)
    {P : Nat → Prop} (hP : P v) : Resized r sz sz P own own' s s' := by
  have htf := tfvpn_lt
  have hpages := npages_le_of_le_trapframe hsp.sz_le
  refine ⟨⟨h.owned, h.frame.widen nofun⟩, hsp.resize h.root hsp.sz_le (fun w hw hsome => ?_)
    (fun w hge hw => h.kept w hw (by omega)), fun w hw hwP hnone => ?_⟩
  · by_cases hwv : w = v
    · exact hwv ▸ hv
    · rw [h.kept w (by omega) hwv] at hsome
      exact hsp.below w hw hsome
  · have hwv : w ≠ v := fun heq => hwP (heq ▸ hP)
    rw [h.kept w (by omega) hwv]
    exact hnone

/-- A fault at `va` passes the tests of `vmfault`: the process has the page, and `pt`
does not map it. -/
def CanFault (p : UProc) (pt : Nat) (s : Phys) (va : Nat) : Prop :=
  PGSIZE ≤ va ∧ va < p.sz ∧ (va < MAXVA → lookup s.mem pt (va / 4096) = none)

/-- A fault maps a fresh page of zeros; it fails only if it must not map one, or if
there is no memory for the page and the tables it needs.  The page is mapped in the
table of the process, whatever `pt` is. -/
theorem vmfault_cases {pt : Nat} (h : Owned own s) (hr : Root own pt)
    (hserve : CanFault p pt s va → pt = p.pagetable ∧ va < TRAPFRAME) :
    wp (vmfault p pt va) E (fun pa s' => ∃ own',
      pa ≠ 0 ∧ CanFault p pt s va ∧
        Fresh pt (va / 4096) pa (PTE_W ||| PTE_U ||| PTE_R) (fun _ => 0) own own' s s' ∨
      pa = 0 ∧ Same pt own own' s s' ∧
        (CanFault p pt s va → s.supply < 1 + tableCost own pt (va / 4096))) s := by
  have hsize : PGSIZE = 4096 := rfl
  have hmaxva : MAXVA = 2 ^ 26 * 4096 := rfl
  have hstay : Same pt own own s s := (Grow.refl h hr).same
  rw [vmfault]
  by_cases hlow : va < PGSIZE
  · rw [if_pos hlow, wp_pure]
    exact ⟨own, .inr ⟨rfl, hstay, fun hcan => absurd hlow (Nat.not_lt.mpr hcan.1)⟩⟩
  by_cases hhigh : p.sz ≤ va
  · rw [if_neg hlow, if_pos hhigh, wp_pure]
    exact ⟨own, .inr ⟨rfl, hstay, fun hcan => absurd hhigh (Nat.not_le.mpr hcan.2.1)⟩⟩
  have htf := trapframe_eq
  have htv := tfvpn_lt
  have hmax : va < MAXVA := by
    by_contra hmax
    have hlt := (hserve ⟨by omega, by omega, fun hlt => absurd hlt hmax⟩).2
    omega
  rw [if_neg hlow, if_neg hhigh]
  dsimp only
  rw [show PGROUNDDOWN va = va / 4096 * PGSIZE from rfl, wp_bind,
    ismapped_spec (vpn_lt_maxva (by omega)), vpn_div]
  by_cases hvalid : isValid (pteOf s.mem pt (va / 4096)) = true
  · rw [if_pos hvalid, wp_pure]
    refine ⟨own, .inr ⟨rfl, hstay, fun hcan => ?_⟩⟩
    rw [lookup_eq_none.mp (hcan.2.2 hmax)] at hvalid
    cases hvalid
  · have hnone : lookup s.mem pt (va / 4096) = none :=
      lookup_eq_none.mpr (Bool.eq_false_of_not_eq_true hvalid)
    have hcan : CanFault p pt s va := ⟨by omega, by omega, fun _ => hnone⟩
    obtain ⟨rfl, hva⟩ := hserve hcan
    have hv : va / 4096 < TFVPN := by omega
    rw [if_neg hvalid, wp_bind]
    refine (kalloc_taken h).mono fun pa s₁ hpa => ?_
    rcases hpa with ⟨rfl, hrefused⟩ | ⟨hne, htaken⟩
    · rw [if_pos rfl, wp_pure]
      refine ⟨own, .inr ⟨rfl, (hrefused.grow h hr).same, fun _ => ?_⟩⟩
      have hsupply := hrefused.supply
      omega
    · rw [if_neg hne, memset, setPage, wp_bind, wp_updates, wp_bind]
      refine ((htaken.setPage fun _ => 0).mappages_spec h hr hv hnone (by decide)
        (by decide)).mono fun rc s₂ hmap => ?_
      rcases hmap with ⟨rfl, own₂, hfresh⟩ | ⟨rfl, hsupply, hfree⟩
      · rw [if_neg (by decide), wp_pure]
        dsimp only at hfresh
        rw [Function.update_self] at hfresh
        exact ⟨own₂, .inl ⟨hne, hcan, hfresh⟩⟩
      · rw [if_pos (by decide), wp_bind]
        refine hfree.mono fun _ s₃ hsame => ?_
        obtain ⟨own₃, hsame⟩ := hsame
        rw [wp_pure]
        exact ⟨own₃, .inr ⟨rfl, hsame, fun _ => hsupply⟩⟩

/-- A fault maps no page but a user page above the first one. -/
theorem vmfault_spec (h : Owned own s)
    (hsp : Space own s p.pagetable p.sz) :
    wp (vmfault p p.pagetable va) E (fun _ s' => ∃ own',
      Resized p.pagetable p.sz p.sz (1 ≤ ·) own own' s s') s := by
  refine (vmfault_cases h hsp.root fun hcan => ⟨rfl, Nat.lt_of_lt_of_le hcan.2.1 hsp.sz_le⟩).mono
    fun pa s' hpost => ?_
  obtain ⟨own', ⟨-, ⟨hlow, hhigh, -⟩, hfresh⟩ | ⟨-, hsame, -⟩⟩ := hpost
  · have hsize : PGSIZE = 4096 := rfl
    have hlt : va / 4096 < npages p.sz := by
      rw [npages]
      omega
    have hone : 1 ≤ va / 4096 := by omega
    exact ⟨own', hfresh.resized hsp hlt hone⟩
  · exact ⟨own', hsame.resized hsp _⟩

end Xv6.Vm
