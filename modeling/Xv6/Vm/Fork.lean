import Xv6.Vm.Ops

/-!
# The memory of a child

Specifications of `uvmcopy`, `allocproc`, `freeproc` and `kfork`.

* `Copied`: a page table got copies of the pages of another one.
* `uvmcopy_spec`: `uvmcopy` copies the pages from the second one up to the size,
  or runs out of memory and undoes its work.
* `NewProc`, `allocproc_spec`; `freeproc_spec`; `kfork_spec`.
-/

namespace Xv6.Vm

open Xv6.Lib.Bytes Xv6.Lib.Wp

variable {new old sz v : Nat} {own' : Owner}

variable {E : Panic → Prop} {own : Owner} {s : Phys} {r : Nat}

/-! ## Copying pages -/

theorem testBit_flags {e i : Nat} (hi : i < 10) : (PTE_FLAGS e).testBit i = e.testBit i := by
  rw [PTE_FLAGS, show 1024 = 2 ^ 10 from rfl, Nat.testBit_mod_two_pow, decide_eq_true hi,
    Bool.true_and]

theorem isLeaf_flags (e : Nat) : isLeaf (PTE_FLAGS e) = isLeaf e := by
  rw [isLeaf, testBit_flags (by decide), testBit_flags (by decide),
    testBit_flags (by decide), isLeaf]

/-- What a walk without `alloc` to an entry below `MAXVA` reads. -/
theorem walk_lookup {Q : Option (Nat × Nat) → Phys → Prop} (hv : v < 2 ^ 26)
    (hnone : lookup s.mem r v = none → ∀ res, (∀ q i, res = some (q, i) →
      isValid (getPte s.mem q i) = false) → Q res s)
    (hsome : ∀ q i, lookup s.mem r v = some (getPte s.mem q i) → Q (some (q, i)) s) :
    wp (walk r (v * PGSIZE) false) E Q s := by
  rw [walk_false_spec (vpn_lt_maxva hv), vpn_div]
  cases hloc : locate s.mem r v with
  | none => exact hnone (lookup_of_locate_none hloc) _ nofun
  | some q =>
    have hpte : pteOf s.mem r v = getPte s.mem q (v % 512) := by rw [pteOf, hloc]
    cases hvalid : isValid (getPte s.mem q (v % 512)) with
    | false =>
      refine hnone (lookup_eq_none.mpr (hpte ▸ hvalid)) _ fun q' i heq => ?_
      cases heq
      exact hvalid
    | true => exact hsome q _ (lookup_eq_some.mpr ⟨hpte ▸ hvalid, hpte⟩)

/-- What the body of the loop of `uvmcopy` has done for the page `v`. -/
def CopyPagePost (own : Owner) (old new v : Nat) (s : Phys) (res : Option Int) (s' : Phys) : Prop :=
  match res with
  | none => lookup s.mem old v = none ∧ s' = s ∨ ∃ e pa own', lookup s.mem old v = some e ∧
      Fresh new v pa (PTE_FLAGS e) (s.mem (PTE2PA e)) own own' s s'
  | some rc => rc = -1 ∧ s.supply < 1 + tableCost own new v ∧ ∃ own₁ s₁ own',
      Same new own own₁ s s₁ ∧ Unmapped new (· < v) own₁ own' s₁ s'

theorem copyUserPage_spec (h : Owned own s) (hold : Root own old)
    (hnew : Root own new) (hv : v < TFVPN) (hnone : lookup s.mem new v = none) :
    wp (copyUserPage old new (v * PGSIZE)) E (CopyPagePost own old new v s) s := by
  have htf := tfvpn_lt
  have hpages : v * PGSIZE / PGSIZE = v := Nat.mul_div_cancel v (by decide)
  -- both failures end with `uvmunmap`
  have hundo : ∀ own₁ s₁, s.supply < 1 + tableCost own new v → Same new own own₁ s s₁ →
      wp (uvmunmap new 0 v true) E
        (fun _ t => CopyPagePost own old new v s (some (-1)) t) s₁ := by
    intro own₁ s₁ hsupply hsame
    have hunmap := uvmunmap_spec (E := E) (n := v) hsame.owned hsame.root
      ((Nat.zero_add v).trans_le (by omega))
    rw [Nat.zero_mul] at hunmap
    refine hunmap.mono fun _ t hun => ?_
    obtain ⟨own', hun⟩ := hun
    exact ⟨rfl, hsupply, own₁, s₁, own', hsame, hun.congr fun w => by omega⟩
  rw [copyUserPage, wp_bind]
  refine walk_lookup (by omega) (fun hlook res hres => ?_) fun q i hlook => ?_
  · rcases res with _ | ⟨q, i⟩
    · exact (wp_pure _).mpr (.inl ⟨hlook, rfl⟩)
    · simp only [readPte, wp_bind, wp_reads, hres q i rfl, if_true, wp_pure]
      exact .inl ⟨hlook, rfl⟩
  · obtain ⟨e, he⟩ : ∃ e, e = getPte s.mem q i := ⟨_, rfl⟩
    rw [← he] at hlook
    have hvalid := (lookup_eq_some.mp hlook).1
    rw [(lookup_eq_some.mp hlook).2] at hvalid
    have huser := h.page_of_lookup hold hv hlook
    have hleaf := (h.leaf_of_lookup hold (by omega) hlook).1
    simp only [readPte, wp_bind, wp_reads, ← he, hvalid, Bool.true_eq_false, if_false]
    refine (kalloc_taken h).mono fun pa s₁ hpa => ?_
    rcases hpa with ⟨rfl, hrefused⟩ | ⟨hne, htaken⟩
    · simp only [if_true, wp_bind, hpages, wp_pure]
      refine (hundo own s₁ ?_ (hrefused.grow h hnew).same).mono fun _ t ht => ht
      rw [hrefused.supply]
      omega
    · have hcopy := htaken.setPage (s₁.mem (PTE2PA e))
      rw [if_neg hne, copyPage, wp_bind, wp_updates, wp_bind]
      refine (hcopy.mappages_spec h hnew hv hnone (Nat.mod_lt _ (by decide))
        ((isLeaf_flags e).trans hleaf)).mono fun rc s₂ hmap => ?_
      rcases hmap with ⟨rfl, own₂, hfresh⟩ | ⟨rfl, hsupply, hfree⟩
      · have hsrc : PTE2PA e ≠ pa := ne_of_role huser htaken.free (by simp)
        have hpage : Function.update s₁.mem pa (s₁.mem (PTE2PA e)) pa = s.mem (PTE2PA e) := by
          rw [Function.update_self, htaken.moved.mem _ hsrc]
        rw [if_neg (by decide), wp_pure]
        exact .inr ⟨e, pa, own₂, hlook, hpage ▸ hfresh⟩
      · rw [if_pos (by decide), wp_bind]
        refine hfree.mono fun _ s₃ hsame => ?_
        obtain ⟨own₃, hsame⟩ := hsame
        rw [wp_bind, hpages]
        exact (hundo own₃ s₃ hsupply hsame).mono fun _ t ht => (wp_pure _).mpr ht

/-- The page `v` of `new` is a copy of the page of `old` with the entry `e`. -/
def PageCopy (old new v : Nat) (own own' : Owner) (s s' : Phys) : Prop :=
  match lookup s.mem old v with
  | none => lookup s'.mem new v = none
  | some e => ∃ pa, own pa = some .free ∧ own' pa = some (.user new v) ∧
      lookup s'.mem new v = some (mkPte pa (PTE_FLAGS e)) ∧ s'.mem pa = s.mem (PTE2PA e)

/-- The pages of `new` from the second one up to `hi` are copies of those of
`old`. -/
structure Copied (old new hi : Nat) (own own' : Owner) (s s' : Phys) : Prop where
  owned : Owned own' s'
  root : Root own' new
  frame : Frame new NoPage own own' s s'
  consumes : Consumes own own'
  copy : ∀ v, 1 ≤ v → v < hi → PageCopy old new v own own' s s'
  kept : ∀ v, v < 2 ^ 27 → ¬ (1 ≤ v ∧ v < hi) → lookup s'.mem new v = lookup s.mem new v

theorem Copied.refl {hi : Nat} (h : Owned own s) (hnew : Root own new) (hhi : hi ≤ 1) :
    Copied old new hi own own s s :=
  ⟨h, hnew, Frame.refl _ _ _ _, fun _ => id, fun v hv hlt => by omega, fun _ _ _ => rfl⟩

theorem Copied.skip {s' : Phys} (h : Copied old new v own own' s s')
    (hlook : lookup s.mem old v = none) (hnew : lookup s'.mem new v = none) :
    Copied old new (v + 1) own own' s s' := by
  refine ⟨h.owned, h.root, h.frame, h.consumes, fun w hw hlt => ?_,
    fun w hw hout => h.kept w hw (by omega)⟩
  rcases Nat.lt_succ_iff_lt_or_eq.mp hlt with hlt | rfl
  · exact h.copy w hw hlt
  · rw [PageCopy, hlook]
    exact hnew

theorem Copied.snoc {pa e : Nat} {own'' : Owner} {s' s'' : Phys}
    (h : Copied old new v own own' s s') (hlook : lookup s.mem old v = some e) (hv : v < 2 ^ 27)
    (hfresh : Fresh new v pa (PTE_FLAGS e) (s.mem (PTE2PA e)) own' own'' s' s'') (hone : 1 ≤ v) :
    Copied old new (v + 1) own own'' s s'' := by
  refine ⟨hfresh.owned, hfresh.root, h.frame.trans hfresh.frame,
    fun p hp => h.consumes p (hfresh.consumes p hp), fun w hw hlt => ?_, fun w hw hout => ?_⟩
  · rcases Nat.lt_succ_iff_lt_or_eq.mp hlt with hlt | rfl
    · have hcopy := h.copy w hw hlt
      rw [PageCopy] at hcopy ⊢
      have hkept := hfresh.kept w (by omega) (by omega)
      cases hl : lookup s.mem old w with
      | none =>
        rw [hl] at hcopy
        exact hkept.trans hcopy
      | some e' =>
        rw [hl] at hcopy
        obtain ⟨pa', hfree, hown, hentry, hmem⟩ := hcopy
        obtain ⟨hown', hmem'⟩ := hfresh.frame.user pa' new w hown not_false
        exact ⟨pa', hfree, hown', hkept.trans hentry, hmem'.trans hmem⟩
    · rw [PageCopy, hlook]
      exact ⟨pa, h.consumes pa hfresh.free, hfresh.user, hfresh.entry, hfresh.mem⟩
  · rw [hfresh.kept w hw (by omega), h.kept w hw (by omega)]

theorem uvmcopy_spec (h : Owned own s) (hold : Root own old) (hnew : Root own new)
    (hne : old ≠ new) (hsz : sz ≤ TRAPFRAME)
    (hnone : ∀ v, v < TFVPN → lookup s.mem new v = none) :
    wp (uvmcopy old new sz) E (fun rc s' => ∃ own',
      rc = 0 ∧ Copied old new (npages sz) own own' s s' ∨
      rc = -1 ∧ Same new own own' s s' ∧ ∃ v own₁ s₁, v < npages sz ∧
        Copied old new v own own₁ s s₁ ∧ s₁.supply < 1 + tableCost own₁ new v) s := by
  have htf := tfvpn_lt
  have hpages := npages_le_of_le_trapframe hsz
  have hcount : (sz - PGSIZE + PGSIZE - 1) / PGSIZE = npages sz - 1 := by
    rw [show PGSIZE = 4096 from rfl, npages]
    omega
  rw [uvmcopy, hcount, wp_bind]
  refine (wp_untilSome (I := fun k t => ∃ own₁, Copied old new (1 + k) own own₁ s t)
    (R := fun rc t => rc = -1 ∧ ∃ own', Same new own own' s t ∧ ∃ v own₁ s₁, v < npages sz ∧
      Copied old new v own own₁ s s₁ ∧ s₁.supply < 1 + tableCost own₁ new v)
    ⟨own, Copied.refl h hnew (by omega)⟩ fun k hk t hinv => ?_).mono fun res t hres => ?_
  · obtain ⟨own₁, hcopied⟩ := hinv
    have hva : PGSIZE + k * PGSIZE = (1 + k) * PGSIZE := by rw [Nat.add_mul, Nat.one_mul]
    have hold₁ : Root own₁ old := hcopied.frame.root hne hold
    have hlook : lookup t.mem old (1 + k) = lookup s.mem old (1 + k) :=
      lookup_congr (hcopied.frame.pteOf_eq h hcopied.owned hne hold (by omega))
    have hempty : lookup t.mem new (1 + k) = none := by
      rw [hcopied.kept _ (by omega) (by omega)]
      exact hnone _ (by omega)
    rw [hva]
    refine (copyUserPage_spec hcopied.owned hold₁ hcopied.root (by omega) hempty).mono
      fun res t' hpage => ?_
    rcases res with _ | rc
    · rcases hpage with ⟨hskip, rfl⟩ | ⟨e, pa, own₂, he, hfresh⟩
      · exact ⟨own₁, hcopied.skip (hlook ▸ hskip) hempty⟩
      · have hl : lookup s.mem old (1 + k) = some e := hlook ▸ he
        -- the page of the parent is as it was at the start
        have huser := h.page_of_lookup hold (by omega) hl
        have hsrc := (hcopied.frame.user _ old _ huser not_false).2
        exact ⟨own₂, hcopied.snoc hl (by omega) (hsrc ▸ hfresh) (by omega)⟩
    · obtain ⟨rfl, hsupply, own₂, s₂, own₃, hsame, hun⟩ := hpage
      refine ⟨rfl, own₃, hun.undo h (hcopied.frame.trans hsame.frame)
        (fun w hw => hnone w (by omega)) fun w hw hout => ?_, 1 + k, own₁, t, by omega, hcopied,
        hsupply⟩
      rw [hsame.kept w hw, hcopied.kept w hw (by omega)]
  · rw [wp_pure]
    rcases res with _ | rc
    · obtain ⟨own₁, hcopied⟩ := hres
      refine ⟨own₁, .inl ⟨rfl, hcopied.owned, hcopied.root, hcopied.frame, hcopied.consumes,
        fun v hv hlt => hcopied.copy v hv (by omega),
        fun v hv hout => hcopied.kept v hv (by omega)⟩⟩
    · obtain ⟨rfl, own₁, hfailed⟩ := hres
      exact ⟨own₁, .inr ⟨rfl, hfailed⟩⟩

/-! ## Processes -/

/-- An address space depends on its tables only. -/
theorem Space.congr {s' : Phys} (h : Space own s r sz) (hs : Owned own s)
    (hs' : Owned own' s')
    (htab : ∀ p l w, own' p = some (.table r l w) ↔ own p = some (.table r l w))
    (hmem : ∀ p l w, own p = some (.table r l w) → s'.mem p = s.mem p) : Space own' s' r sz := by
  have htf := tfvpn_lt
  have hlook : ∀ v, v < 2 ^ 27 → lookup s'.mem r v = lookup s.mem r v :=
    fun v hv => lookup_congr (hs.pteOf_congr hs' htab hmem h.root hv)
  refine h.resize ((htab ..).mpr h.root) h.sz_le (fun v hv hsome => ?_) fun v _ hv => hlook v hv
  rw [hlook v (by omega)] at hsome
  exact h.below v hv hsome

/-- `freeproc` frees the trapframe, then the address space. -/
theorem freeproc_spec {p : UProc} (h : Owned own s) (hsp : Space own s p.pagetable p.sz)
    (htf : own p.trapframe = some .held) :
    wp (freeproc p) E (fun _ s' => ∃ s₁ own', Moved p.trapframe s s₁ ∧
      Owned (Function.update own p.trapframe (some .free)) s₁ ∧
      Freed p.pagetable (Function.update own p.trapframe (some .free)) own' s₁ s') s := by
  rw [freeproc]
  dsimp only
  rw [if_pos (h.pos htf), wp_bind]
  refine (kfree_spec h htf).mono fun _ s₁ hfree => ?_
  have hsp₁ := hsp.congr h hfree.1
    (fun q l w => table_update (x := .free) htf nofun nofun q p.pagetable l w)
    fun q l w hq => hfree.2.mem q (ne_of_role hq htf nofun)
  rw [if_pos (h.pos hsp.root)]
  refine (procFreepagetable_spec hfree.1 hsp₁).mono fun _ s₂ hfreed => ?_
  obtain ⟨own₂, hfreed⟩ := hfreed
  exact ⟨s₁, own₂, hfree.2, hfree.1, hfreed⟩

/-- The process `p` has a new page table and a new trapframe. -/
structure NewProc (p : UProc) (own own' : Owner) (s s' : Phys) : Prop where
  tableFree : own p.pagetable = some .free
  frameFree : own p.trapframe = some .free
  owned : Owned own' s'
  frame : FrameX (· = p.trapframe) p.pagetable NoPage own own' s s'
  trapframe : own' p.trapframe = some .held
  space : Space own' s' p.pagetable p.sz

theorem allocproc_spec (h : Owned own s) (htramp : s.trampoline < PHYSTOP) :
    wp allocproc E (fun res s' => ∃ own', match res with
      | none => Kept own own' s s'
      | some p => NewProc p own own' s s' ∧ p.sz = 0) s := by
  rw [allocproc, wp_bind]
  refine (kalloc_taken h).mono fun tf s₁ hpa => ?_
  rcases hpa with ⟨rfl, hrefused⟩ | ⟨hne, htaken⟩
  · simp only [if_true, freeproc, ne_eq, not_true_eq_false, if_false, wp_bind, wp_pure]
    exact ⟨own, hrefused.kept h⟩
  · rw [if_neg hne, wp_bind]
    refine (procPagetable_spec htaken.owned (htaken.moved.trampoline ▸ htramp) htaken.held).mono
      fun r s₂ hspace => ?_
    obtain ⟨own₂, ⟨rfl, -, hkept⟩ | ⟨hr, hnew⟩⟩ := hspace
    · have hheld := ((hkept.frame 0).held tf htaken.held not_false).1
      simp only [if_true, freeproc, ne_eq, hne, not_false_eq_true, not_true_eq_false, if_false,
        wp_bind, wp_pure]
      refine (kfree_spec hkept.owned hheld).mono fun _ s₃ hfree => ?_
      exact ⟨_, hfree.1,
        fun r => ((htaken.frame r).trans ((hkept.frame r).allow _)).give htaken.free
        hfree.2 .free (by simp) (fun _ => .inr) (by simp)⟩
    · have hrtf : r ≠ tf := ne_of_role hnew.free htaken.held (by simp)
      have hrfree : own r = some .free := own_update_old hrtf hnew.free
      rw [if_neg hr, wp_pure]
      exact ⟨own₂, ⟨hrfree, htaken.free, hnew.owned, (htaken.frame r).trans (hnew.frame.allow _),
        (hnew.frame.held tf htaken.held not_false).1, hnew.space (Nat.zero_le _)⟩, rfl⟩

/-- Only the contents of the page `pa` changed. -/
structure Wrote (pa : Nat) (s s' : Phys) : Prop where
  mem : ∀ q, q ≠ pa → s'.mem q = s.mem q
  freelist : s'.freelist = s.freelist
  kend : s'.kend = s.kend
  trampoline : s'.trampoline = s.trampoline

section Wrote

variable {pa : Nat} {s' s'' : Phys}

theorem wp_setPage {f : (Nat → UInt8) → Nat → UInt8} {Q : Unit → Phys → Prop}
    (h : ∀ s', Wrote pa s s' → Q () s') : wp (setPage pa f) E Q s := by
  rw [setPage, wp_updates]
  exact h _ ⟨fun q hq => Function.update_of_ne hq _ _, rfl, rfl, rfl⟩

theorem Wrote.trans (h : Wrote pa s s') (h' : Wrote pa s' s'') : Wrote pa s s'' :=
  ⟨fun q hq => (h'.mem q hq).trans (h.mem q hq), h'.freelist.trans h.freelist, h'.kend.trans h.kend,
    h'.trampoline.trans h.trampoline⟩

theorem Wrote.table_mem (h : Wrote pa s s') (hpa : own pa = some .held) {q l : Nat}
    (hq : own q = some (.table r l v)) : s'.mem q = s.mem q :=
  h.mem q (ne_of_role hq hpa nofun)

theorem Wrote.owned (h : Wrote pa s s') (hs : Owned own s) (hpa : own pa = some .held) :
    Owned own s' :=
  hs.relabel (fun _ _ _ _ => Iff.rfl) (fun _ _ _ => Iff.rfl) (fun _ _ _ _ => h.table_mem hpa) h.kend
    (fun _ => id) (fun p => by rw [h.freelist]; exact hs.free p) (h.freelist ▸ hs.nodup)

theorem Wrote.frame (h : Wrote pa s s') (hpa : own pa = some .held) (r : Nat) :
    Frame r (· = pa) own own s s' :=
  ⟨h.kend, h.trampoline, fun _ => Iff.rfl, fun q hq => h.mem q (ne_of_none hq hpa), fun _ => .inl,
    fun _ _ _ _ _ hq => ⟨hq, h.table_mem hpa hq⟩, fun _ _ _ _ _ hq => hq,
    fun q hq hne => ⟨hq, h.mem q hne⟩, fun q _ _ hq hne => ⟨hq, h.mem q hne⟩⟩

theorem Wrote.lookup_eq (h : Wrote pa s s') (hs : Owned own s) (hpa : own pa = some .held)
    (hr : Root own r) (hv : v < 2 ^ 27) : lookup s'.mem r v = lookup s.mem r v :=
  lookup_congr (hs.pteOf_congr (h.owned hs hpa) (fun _ _ _ => Iff.rfl)
    (fun _ _ _ => h.table_mem hpa) hr hv)

theorem Wrote.space (h : Wrote pa s s') (hs : Owned own s) (hpa : own pa = some .held)
    (hsp : Space own s r sz) : Space own s' r sz :=
  hsp.congr hs (h.owned hs hpa) (fun _ _ _ => Iff.rfl) fun _ _ _ => h.table_mem hpa

end Wrote

/-- `kfork` makes a process whose first page is not mapped, or changes nothing. -/
theorem kfork_spec {p : UProc} (h : Owned own s) (htramp : s.trampoline < PHYSTOP)
    (hsp : Space own s p.pagetable p.sz) :
    wp (kfork p) E (fun res s' => ∃ own', match res with
      | none => Kept own own' s s'
      | some np => NewProc np own own' s s' ∧ lookup s'.mem np.pagetable 0 = none) s := by
  have htf := tfvpn_lt
  have hzero : npages 0 = 0 := by decide
  rw [kfork, wp_bind]
  refine (allocproc_spec h htramp).mono fun res s₁ hres => ?_
  obtain ⟨own₁, hres⟩ := hres
  rcases res with _ | np
  · exact (wp_pure _).mpr ⟨own₁, hres⟩
  obtain ⟨hnew, hsz⟩ := hres
  have hempty : ∀ v, v < TFVPN → lookup s₁.mem np.pagetable v = none :=
    fun v hv => hnew.space.none (by rw [hsz, hzero]; omega) hv
  have hne : p.pagetable ≠ np.pagetable := ne_of_role hsp.root hnew.tableFree nofun
  have hold₁ := hnew.frame.root hne hsp.root
  rw [wp_bind]
  refine (uvmcopy_spec hnew.owned hold₁ hnew.space.root hne hsp.sz_le hempty).mono
    fun rc s₂ hcopy => ?_
  obtain ⟨own₂, ⟨rfl, hcopied⟩ | ⟨rfl, hsame, -⟩⟩ := hcopy
  · have hheld := (hcopied.frame.held _ hnew.trapframe not_false).1
    have hspace₂ : Space own₂ s₂ np.pagetable p.sz := by
      refine hnew.space.resize hcopied.root hsp.sz_le (fun v hv hsome => ?_)
        fun v hge hv => hcopied.kept v hv ?_
      · by_contra hout
        rw [hcopied.kept v (by omega) (by omega)] at hsome
        exact hsome (hempty v hv)
      · have := npages_le_of_le_trapframe hsp.sz_le
        omega
    rw [if_neg (by decide), wp_bind, wp_reads, wp_bind]
    refine wp_setPage fun s₃ hwrote₃ => ?_
    rw [setTrapframe, wp_bind]
    refine wp_setPage fun s₄ hwrote₄ => ?_
    have hwrote := hwrote₃.trans hwrote₄
    rw [wp_pure]
    refine ⟨own₂, ⟨hnew.tableFree, hnew.frameFree, hwrote.owned hcopied.owned hheld, ?_, hheld,
      hwrote.space hcopied.owned hheld hspace₂⟩, ?_⟩
    · refine (((hnew.frame.trans (hcopied.frame.allow _)).widen nofun).trans
        ((hwrote.frame hheld np.pagetable).allow _)).narrow fun q hq => .inr ?_
      rw [hq, hnew.frameFree]
      exact ⟨nofun, nofun⟩
    · show lookup s₄.mem np.pagetable 0 = none
      rw [hwrote.lookup_eq hcopied.owned hheld hcopied.root (by omega),
        hcopied.kept 0 (by omega) (by omega)]
      exact hempty 0 (by decide)
  · have hheld := (hsame.frame.held _ hnew.trapframe not_false).1
    have hspace₂ : Space own₂ s₂ np.pagetable np.sz :=
      (hsame.resized hnew.space fun _ => False).space
    rw [if_pos (by decide), wp_bind]
    refine (freeproc_spec hsame.owned hspace₂ hheld).mono fun _ s₃ hfree => ?_
    obtain ⟨s₄, own₃, hmoved, howned, hfreed⟩ := hfree
    rw [wp_pure]
    exact ⟨own₃, hfreed.kept h hnew.tableFree
      ((hnew.frame.trans (hsame.frame.allow _)).give hnew.frameFree hmoved .free nofun
        (fun _ => .inr) nofun)⟩

end Xv6.Vm
