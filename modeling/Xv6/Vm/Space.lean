import Xv6.Vm.Free
import Xv6.Vm.Proc

/-!
# Address spaces

Specifications of the functions that make and free the page table of a process.

* `Kept`: everything allocated stays as it is, whichever process it belongs to.
* `Touched`: only the contents of user pages of one page table changed.
* `NewTable`, `uvmcreate_spec`; `NewSpace`, `procPagetable_spec`: a fresh page
  table, at the cost of three pages.
* `Space`: the page table of a process whose user pages are below its size;
  `procFreepagetable_spec` frees such a page table.
-/

namespace Xv6.Vm

open Xv6.Lib.Bytes Xv6.Lib.Wp

variable {own' : Owner} {r' sz v : Nat}

variable {E : Panic → Prop} {own : Owner} {s : Phys} {r : Nat}

/-! ## Whole states -/

/-- No table, held page or user page changed. -/
structure Kept (own own' : Owner) (s s' : Phys) : Prop where
  owned : Owned own' s'
  frame : ∀ r, Frame r NoPage own own' s s'

theorem Refused.kept {s' : Phys} (h : Refused s s') (hs : Owned own s) : Kept own own s s' :=
  ⟨h.owned hs, fun r => h.frame r NoPage own⟩

theorem not_root_of_free (hr : own r = some .free) : ¬ Root own r := by
  intro hroot
  rw [Root, hr] at hroot
  cases hroot

/-- User pages of a page table that was made meanwhile need not be exempt. -/
theorem FrameX.forget {own₁ own₂ : Owner} {s₁ s₂ : Phys} (hs : Owned own s)
    (hr : own r = some .free) (hnew : Frame r NoPage own own₁ s s₁)
    (h : Frame r (fun p => ∃ v, own₁ p = some (.user r v)) own₁ own₂ s₁ s₂) :
    Frame r NoPage own own₂ s s₂ := by
  refine ((hnew.widen nofun).trans h).narrow fun p hp => .inr ?_
  obtain ⟨v, hp⟩ := hp
  refine ⟨fun hheld => ?_, fun r' v' huser => ?_⟩
  · rw [(hnew.held p hheld not_false).1] at hp
    cases hp
  · rw [(hnew.user p r' v' huser not_false).1, Option.some.injEq] at hp
    have hroot := hs.root_of_user huser
    rw [(Role.user.inj hp).1] at hroot
    exact not_root_of_free hr hroot

/-- A page table that was made and is freed again leaves no trace. -/
theorem Freed.kept {own₁ own₂ : Owner} {s₁ s₂ : Phys} (h : Freed r own₁ own₂ s₁ s₂)
    (hs : Owned own s) (hr : own r = some .free) (hnew : Frame r NoPage own own₁ s s₁) :
    Kept own own₂ s s₂ := by
  have hframe := hnew.forget hs hr h.frame
  have hne : ∀ {p r' l v}, own p = some (.table r' l v) → r' ≠ r := by
    rintro p r' l v hp rfl
    exact not_root_of_free hr (hs.root_of_table hp)
  have hne' : ∀ {p r' l v}, own₂ p = some (.table r' l v) → r' ≠ r := by
    rintro p r' l v hp rfl
    exact not_root_of_free h.gone (h.owned.root_of_table hp)
  exact ⟨h.owned,
    fun _ => ⟨hframe.kend, hframe.trampoline, hframe.dom, hframe.outside, hframe.newHeld,
    fun p r' l v _ hp => hframe.table p r' l v (hne hp) hp,
    fun p r' l v _ hp => hframe.newTable p r' l v (hne' hp) hp, hframe.held, hframe.user⟩⟩

theorem Kept.lookup_eq {s' : Phys} (h : Kept own own' s s') (hs : Owned own s)
    (hr : Root own r) (hv : v < 2 ^ 27) : lookup s'.mem r v = lookup s.mem r v :=
  lookup_congr ((h.frame (r + 1)).pteOf_eq hs h.owned (by omega) hr hv)

/-- Only the contents of user pages of `r` changed. -/
structure Touched (r : Nat) (own : Owner) (s s' : Phys) : Prop where
  mem : ∀ p, (∀ v, own p ≠ some (.user r v)) → s'.mem p = s.mem p
  freelist : s'.freelist = s.freelist
  denied : s'.denied = s.denied
  kend : s'.kend = s.kend
  trampoline : s'.trampoline = s.trampoline

section Touched

variable {s' s'' : Phys}

theorem Touched.refl (r : Nat) (own : Owner) (s : Phys) : Touched r own s s :=
  ⟨fun _ _ => rfl, rfl, rfl, rfl, rfl⟩

theorem Touched.trans (h : Touched r own s s') (h' : Touched r own s' s'') : Touched r own s s'' :=
  ⟨fun p hp => (h'.mem p hp).trans (h.mem p hp), h'.freelist.trans h.freelist,
    h'.denied.trans h.denied, h'.kend.trans h.kend, h'.trampoline.trans h.trampoline⟩

theorem touched_setPage {pa : Nat} (hpa : own pa = some (.user r v)) (page : Nat → UInt8) :
    Touched r own s { s with mem := Function.update s.mem pa page } := by
  refine ⟨fun p hp => ?_, rfl, rfl, rfl, rfl⟩
  have hne : p ≠ pa := fun heq => hp v (heq ▸ hpa)
  exact Function.update_of_ne hne _ _

theorem Touched.table_mem (h : Touched r own s s') {p l : Nat}
    (hp : own p = some (.table r' l v)) : s'.mem p = s.mem p :=
  h.mem p fun v hv => by
    rw [hp] at hv
    cases hv

theorem Touched.owned (h : Touched r own s s') (hs : Owned own s) : Owned own s' :=
  hs.relabel (fun _ _ _ _ => Iff.rfl) (fun _ _ _ => Iff.rfl)
    (fun _ _ _ _ hp => h.table_mem hp) h.kend
    (fun _ => id) (fun p => by rw [h.freelist]; exact hs.free p) (h.freelist ▸ hs.nodup)

theorem Touched.lookup_eq (h : Touched r own s s') (hs : Owned own s) (hr : Root own r')
    (hv : v < 2 ^ 27) : lookup s'.mem r' v = lookup s.mem r' v :=
  lookup_congr (hs.pteOf_congr (h.owned hs) (fun _ _ _ => Iff.rfl) (fun _ _ _ hp => h.table_mem hp)
    hr hv)

theorem Touched.supply (h : Touched r own s s') : s'.supply = s.supply := by
  rw [Phys.supply, Phys.supply, h.freelist, h.denied]

theorem Touched.frame (h : Touched r own s s') :
    Frame r (fun p => ∃ v, own p = some (.user r v)) own own s s' := by
  refine ⟨h.kend, h.trampoline, fun _ => Iff.rfl, fun p hp => h.mem p fun v hv => ?_, fun _ => .inl,
    fun p r' l v _ hp => ⟨hp, h.table_mem hp⟩, fun _ _ _ _ _ hp => hp,
    fun p hp _ => ⟨hp, h.mem p fun v hv => ?_⟩, fun p r' v hp hH => ⟨hp, h.mem p fun v' hv => ?_⟩⟩
  · rw [hp] at hv
    cases hv
  · rw [hp] at hv
    cases hv
  · exact hH ⟨v', hv⟩

end Touched

/-! ## New page tables -/

/-- `r` is a new page table without any entry. -/
structure NewTable (r : Nat) (own own' : Owner) (s s' : Phys) : Prop where
  free : own r = some .free
  owned : Owned own' s'
  root : Root own' r
  frame : Frame r NoPage own own' s s'
  empty : ∀ v, v < 2 ^ 27 → pteOf s'.mem r v = 0
  tables : ∀ l b, HasTable own' r l b ↔ l = 2 ∧ b = 0
  supply : s.supply = s'.supply + 1

theorem uvmcreate_spec (h : Owned own s) :
    wp uvmcreate E (fun r s' => r = 0 ∧ Refused s s' ∨
      r ≠ 0 ∧ ∃ own', NewTable r own own' s s') s := by
  rw [uvmcreate, wp_bind]
  refine (kalloc_taken h).mono fun r s₁ hpa => ?_
  rcases hpa with ⟨rfl, hrefused⟩ | ⟨hne, htaken⟩
  · rw [if_pos rfl, wp_pure]
    exact .inl ⟨rfl, hrefused⟩
  · rw [if_neg hne, memset, setPage, wp_bind, wp_updates, wp_pure]
    have hzero := htaken.setPage fun _ => 0
    have hheld := hzero.held
    have howned := hzero.owned.newRoot hheld fun j => getPte_update_zero _ _ _
    rw [Function.update_idem] at howned
    have hroot : Root (Function.update own r (some (.table r 2 0))) r := Function.update_self _ _ _
    have htables : ∀ l b, HasTable (Function.update own r (some (.table r 2 0))) r l b ↔
        l = 2 ∧ b = 0 := by
      intro l b
      constructor
      · rintro ⟨q, hq⟩
        by_cases hqr : q = r
        · rw [hqr, Function.update_self] at hq
          obtain ⟨-, hl, hb⟩ := table_role_eq hq
          exact ⟨hl.symm, hb.symm⟩
        · exact absurd (h.root_of_table (own_update_old hqr hq)) (not_root_of_free htaken.free)
      · rintro ⟨rfl, rfl⟩
        exact ⟨r, hroot⟩
    refine .inr ⟨hne, _, htaken.free, howned, hroot, ?_, fun v hv => ?_, htables, hzero.supply⟩
    · have hkeep : ∀ {p y}, own p = some y → y ≠ .free →
          Function.update own r (some (.table r 2 0)) p = some y ∧
            Function.update s₁.mem r (fun _ => 0) p = s.mem p :=
        fun hp hy => ⟨own_update_keep htaken.free hp hy,
          hzero.moved.mem _ (ne_of_role hp htaken.free hy)⟩
      refine ⟨htaken.moved.kend, htaken.moved.trampoline, own_update_eq_none htaken.free,
        fun p hp => hzero.moved.mem p (ne_of_none hp htaken.free),
        fun p hp => .inl (own_update_ne hp (by simp)).1, fun p r' l v _ hp => hkeep hp (by simp),
        fun p r' l v hne' hp => ?_, fun p hp _ => hkeep hp (by simp),
        fun p r' v hp _ => hkeep hp (by simp)⟩
      exact (own_update_ne hp fun heq => hne' (Role.table.inj heq).1.symm).1
    · refine howned.pteOf_eq_zero hroot hv fun hhas => ?_
      have := (htables 0 _).mp hhas
      omega

/-- `r` is a new page table with the trampoline and the trapframe `tf`. -/
structure NewSpace (r tf : Nat) (own own' : Owner) (s s' : Phys) : Prop where
  free : own r = some .free
  owned : Owned own' s'
  root : Root own' r
  frame : Frame r NoPage own own' s s'
  entry : ∀ v, v < 2 ^ 27 → lookup s'.mem r v =
    if v = TFVPN then some (mkPte tf (PTE_R ||| PTE_W))
    else if v = TFVPN + 1 then some (mkPte s.trampoline (PTE_R ||| PTE_X)) else none
  tables : ∀ l b, HasTable own' r l b ↔
    l = 2 ∧ b = 0 ∨ l = 1 ∧ b = 255 ∨ l = 0 ∧ b = 131071
  supply : s.supply = s'.supply + 3

theorem lookup_of_pteOf {mem : Nat → Nat → UInt8} {pa perm : Nat} (hperm : perm < 1024)
    (h : pteOf mem r v = mkPte pa perm) : lookup mem r v = some (mkPte pa perm) :=
  lookup_eq_some.mpr ⟨h ▸ isValid_mkPte pa hperm, h⟩

theorem procPagetable_spec {p : UProc} (h : Owned own s) (htramp : s.trampoline < PHYSTOP)
    (htf : own p.trapframe = some .held) :
    wp (procPagetable p) E (fun r s' => ∃ own', r = 0 ∧ s.supply < 3 ∧ Kept own own' s s' ∨
      r ≠ 0 ∧ NewSpace r p.trapframe own own' s s') s := by
  have hvpn : TRAMPOLINE = (TFVPN + 1) * PGSIZE := by decide
  have hvpn' : TRAPFRAME = TFVPN * PGSIZE := by decide
  have htop : TFVPN + 1 < 2 ^ 26 := by decide
  rw [procPagetable, wp_bind]
  refine (uvmcreate_spec h).mono fun r s₁ hcreate => ?_
  rcases hcreate with ⟨rfl, hrefused⟩ | ⟨hne, own₁, hnew⟩
  · rw [if_pos rfl, wp_pure]
    exact ⟨own, .inl ⟨rfl, by rw [hrefused.supply]; omega, hrefused.kept h⟩⟩
  · rw [if_neg hne, wp_bind, wp_reads, wp_bind, hvpn, mappages_one]
    have hcost : tableCost own₁ r (TFVPN + 1) = 2 := by
      have hno : ¬ HasTable own₁ r 1 ((TFVPN + 1) / 512 / 512) := fun hhas => by
        have := (hnew.tables _ _).mp hhas
        omega
      rw [tableCost, if_neg hno]
    have hnewSupply := hnew.supply
    refine (mapSpecial_spec hnew.owned hnew.root (by omega) htop
      (by rw [hnew.empty _ (by omega)]; rfl)
        (Nat.lt_trans (hnew.frame.trampoline ▸ htramp) (by decide))
      (by decide) (by decide)).mono fun res s₂ hmap => ?_
    rcases res with _ | rc
    · obtain ⟨hsupply, own₂, hown₂, hroot₂, hframe₂, htab₂, hpte₂⟩ := hmap
      rw [Option.getD_none, if_neg (by decide), wp_bind, hvpn', mappages_one]
      have hidx₁ : (TFVPN + 1) / 512 / 512 = 255 := by decide
      have hidx₀ : (TFVPN + 1) / 512 = 131071 := by decide
      have htables₂ : ∀ l b, HasTable own₂ r l b ↔
          l = 2 ∧ b = 0 ∨ l = 1 ∧ b = 255 ∨ l = 0 ∧ b = 131071 := by
        intro l b
        rw [htab₂ l b, hnew.tables, hidx₁, hidx₀]
      have hcost₂ : tableCost own₂ r TFVPN = 0 := by
        have hhas₁ : HasTable own₂ r 1 (TFVPN / 512 / 512) := (htables₂ _ _).mpr (by decide)
        have hhas₀ : HasTable own₂ r 0 (TFVPN / 512) := (htables₂ _ _).mpr (by decide)
        rw [tableCost, if_pos hhas₁, if_pos hhas₀]
      have hinv₂ : isValid (pteOf s₂.mem r TFVPN) = false := by
        rw [hpte₂ _ (by omega), if_neg (by omega), hnew.empty _ (by omega)]
        rfl
      have htf₂ := ((hnew.frame.trans hframe₂).held _ htf not_false).1
      refine (mapSpecial_spec hown₂ hroot₂ (Nat.le_refl _) (by omega) hinv₂
        (hown₂.pageAddr htf₂).2 (by decide) (by decide)).mono fun res s₃ hmap => ?_
      rcases res with _ | rc
      · obtain ⟨hsupply₃, own₃, hown₃, hroot₃, hframe₃, htab₃, hpte₃⟩ := hmap
        rw [Option.getD_none, if_neg (by decide), wp_pure]
        refine ⟨own₃, .inr ⟨hne, hnew.free, hown₃, hroot₃,
          (hnew.frame.trans hframe₂).trans hframe₃, fun v hv => ?_, fun l b => ?_, by omega⟩⟩
        · have hpte : pteOf s₃.mem r v = if v = TFVPN then mkPte p.trapframe (PTE_R ||| PTE_W)
              else if v = TFVPN + 1 then mkPte s₁.trampoline (PTE_R ||| PTE_X) else 0 := by
            rw [hpte₃ v hv, hpte₂ v hv, hnew.empty v hv]
          rw [← hnew.frame.trampoline]
          split
          · exact lookup_of_pteOf (by decide) (by rw [hpte, if_pos ‹_›])
          · split
            · exact lookup_of_pteOf (by decide) (by rw [hpte, if_neg ‹_›, if_pos ‹_›])
            · rw [lookup_eq_none, hpte, if_neg ‹_›, if_neg ‹_›]
              rfl
        · have htop₁ : TFVPN / 512 / 512 = 255 := by decide
          have htop₀ : TFVPN / 512 = 131071 := by decide
          rw [htab₃ l b, htables₂ l b, htop₁, htop₀]
          omega
      · -- the tables are there already
        obtain ⟨-, hlt, -⟩ := hmap
        omega
    · obtain ⟨rfl, hsupply, own₂, hgrow⟩ := hmap
      rw [Option.getD_some, if_pos (by decide), wp_bind]
      refine (uvmfree_spec hgrow.owned hgrow.root (show 0 ≤ TRAPFRAME from Nat.zero_le _)
        fun v hv _ => ?_).mono fun _ s₃ hfree => ?_
      · rw [lookup_eq_none, hgrow.pte v hv, hnew.empty v hv]
        rfl
      · obtain ⟨own₃, hfree⟩ := hfree
        rw [wp_pure]
        exact ⟨own₃, .inl ⟨rfl, by omega,
          hfree.kept h hnew.free (hnew.frame.trans hgrow.frame)⟩⟩

/-! ## The page table of a process -/

/-- The page table `r` has user pages below `sz` only; the user cannot use the
pages above. -/
structure Space (own : Owner) (s : Phys) (r sz : Nat) : Prop where
  root : Root own r
  sz_le : sz ≤ TRAPFRAME
  below : ∀ v, v < TFVPN → lookup s.mem r v ≠ none → v < npages sz
  special : ∀ v e, TFVPN ≤ v → v < 2 ^ 27 → lookup s.mem r v = some e → isUser e = false

theorem Space.none (h : Space own s r sz) (hv : npages sz ≤ v) (hlt : v < TFVPN) :
    lookup s.mem r v = none := by
  by_contra hsome
  have := h.below v hlt hsome
  omega

/-- No page between the size and a larger size is mapped. -/
theorem Space.none_between {newsz : Nat} (h : Space own s r sz) (hnew : newsz ≤ TRAPFRAME) (v : Nat)
    (hlo : npages sz ≤ v) (hhi : v < npages newsz) : lookup s.mem r v = Option.none :=
  h.none hlo (hhi.trans_le (npages_le_of_le_trapframe hnew))

theorem NewSpace.space {tf : Nat} {s' : Phys} (h : NewSpace r tf own own' s s')
    (hsz : sz ≤ TRAPFRAME) : Space own' s' r sz := by
  have htf := tfvpn_lt
  refine ⟨h.root, hsz, fun v hv hsome => absurd ?_ hsome, fun v e hge hv he => ?_⟩
  · rw [h.entry v (by omega), if_neg (by omega), if_neg (by omega)]
  · rw [h.entry v hv] at he
    split at he
    · rw [← Option.some.inj he, isUser_mkPte _ (by decide)]
      rfl
    · split at he
      · rw [← Option.some.inj he, isUser_mkPte _ (by decide)]
        rfl
      · cases he

/-- What happens to other page tables leaves an address space alone. -/
theorem Space.frame {T H : Nat → Prop} {s' : Phys} (h : Space own s r sz)
    (hf : FrameX T r' H own own' s s') (hs : Owned own s) (hs' : Owned own' s') (hne : r ≠ r') :
    Space own' s' r sz := by
  have htf := tfvpn_lt
  refine ⟨hf.root hne h.root, h.sz_le, fun v hv hsome => h.below v hv ?_,
    fun v e hge hv he => h.special v e hge hv ?_⟩
  · rwa [lookup_congr (hf.pteOf_eq hs hs' hne h.root (by omega))] at hsome
  · rwa [lookup_congr (hf.pteOf_eq hs hs' hne h.root hv)] at he

/-- The pages below `TRAPFRAME` are what matters for a new size. -/
theorem Space.resize {sz' : Nat} {s' : Phys} (h : Space own s r sz)
    (hroot : Root own' r) (hsz : sz' ≤ TRAPFRAME)
    (hbelow : ∀ v, v < TFVPN → lookup s'.mem r v ≠ Option.none → v < npages sz')
    (hkept : ∀ v, TFVPN ≤ v → v < 2 ^ 27 → lookup s'.mem r v = lookup s.mem r v) :
    Space own' s' r sz' :=
  ⟨hroot, hsz, hbelow, fun v e hge hv he => h.special v e hge hv (hkept v hge hv ▸ he)⟩

theorem procFreepagetable_spec (h : Owned own s) (hsp : Space own s r sz) :
    wp (procFreepagetable r sz) E (fun _ s' => ∃ own', Freed r own own' s s') s := by
  have hvpn : TRAMPOLINE = (TFVPN + 1) * PGSIZE := by decide
  have hvpn' : TRAPFRAME = TFVPN * PGSIZE := by decide
  have htop : TFVPN + 2 = 2 ^ 26 := by decide
  rw [procFreepagetable, wp_bind, hvpn]
  refine (unmapSpecial_spec h hsp.root (by omega) (by omega)).mono fun _ s₁ hun => ?_
  obtain ⟨hown₁, hframe₁, hlook₁⟩ := hun
  rw [wp_bind, hvpn']
  refine (unmapSpecial_spec hown₁ hsp.root (by omega) (by omega)).mono fun _ s₂ hun => ?_
  obtain ⟨hown₂, hframe₂, hlook₂⟩ := hun
  refine (uvmfree_spec hown₂ hsp.root hsp.sz_le fun v hv hge => ?_).mono fun _ s₃ hfree => ?_
  · rw [hlook₂ v hv, hlook₁ v hv]
    by_cases htv : v < TFVPN
    · rw [if_neg (by omega), if_neg (by omega)]
      exact hsp.none hge htv
    · by_cases hhigh : v < 2 ^ 26
      · rcases Nat.lt_or_ge v (TFVPN + 1) with hlt | hge'
        · rw [if_pos (by omega)]
        · rw [if_neg (by omega), if_pos (by omega)]
      · rw [if_neg (by omega), if_neg (by omega)]
        cases hsome : lookup s.mem r v with
        | none => rfl
        | some e => exact absurd (h.leaf_of_lookup hsp.root hv hsome).2.1 hhigh
  · obtain ⟨own₃, hfree⟩ := hfree
    exact ⟨own₃, hfree.owned, ((hframe₁.trans hframe₂).widen nofun).trans hfree.frame, hfree.gone⟩

/-! ## After booting -/

/-- Some pages after `kinit`. -/
def bootPhys : Phys :=
  { mem := fun _ _ => 0, freelist := (List.range 20).map fun i => KERNBASE + 4096 * (i + 64) }

theorem owned_bootPhys : Owned (freeOwner bootPhys.freelist) bootPhys :=
  owned_freeOwner (by decide) (by decide) (by decide)

/-- Where the first page tables are after `kinit`. -/
def oldTable : Nat := KERNBASE + 4096 * 64

def newTable : Nat := KERNBASE + 4096 * 65

/-- Two page tables without any entry, `oldTable` and `newTable`. -/
def emptyTables : Phys :=
  { bootPhys with freelist := bootPhys.freelist.drop 2 }

/-- `uvmcreate`, where all of memory is zero. -/
theorem uvmcreate_zero {r : Nat} {rs : List Nat} (hr : r ≠ 0) :
    uvmcreate { bootPhys with freelist := r :: rs } =
      .ok (r, { bootPhys with freelist := rs }) := by
  have hmem : Function.update (Function.update bootPhys.mem r fun _ => 5) r (fun _ => 0) =
      bootPhys.mem := by
    rw [Function.update_idem]
    exact Function.update_eq_self r bootPhys.mem
  have hrun : uvmcreate { bootPhys with freelist := r :: rs } = (if r = 0 then pure 0 else do
      memset r 0
      pure r : Kern Nat) { bootPhys with
        mem := Function.update bootPhys.mem r fun _ => 5, freelist := rs } := rfl
  rw [hrun, if_neg hr]
  exact congrArg (fun mem => Except.ok (r, { bootPhys with mem := mem, freelist := rs })) hmem

theorem empty_tables : ∃ own, Owned own emptyTables ∧ Root own oldTable ∧ Root own newTable ∧
    ∀ q, own q ≠ none → q ∈ bootPhys.freelist := by
  obtain ⟨_, own₁, hold⟩ := ((uvmcreate_spec (E := fun _ => False) owned_bootPhys).of_ok
    (uvmcreate_zero (by decide))).resolve_left fun hbad => absurd hbad.1 (by decide)
  obtain ⟨_, own₂, hnew⟩ := ((uvmcreate_spec (E := fun _ => False) hold.owned).of_ok
    (uvmcreate_zero (by decide))).resolve_left fun hbad => absurd hbad.1 (by decide)
  have hne : oldTable ≠ newTable := by decide
  refine ⟨own₂, hnew.owned, hnew.frame.root hne hold.root, hnew.root, fun q hq => ?_⟩
  by_contra hno
  rw [Ne, hnew.frame.dom, hold.frame.dom, freeOwner, if_neg hno] at hq
  exact hq rfl

theorem nextTable_emptyTables (p i : Nat) : nextTable emptyTables.mem p i = none :=
  nextTable_of_zero (readLE_zero _ _)

theorem lookup_emptyTables (r v : Nat) : lookup emptyTables.mem r v = none := by
  apply lookup_of_locate_none
  rw [locate, nextTable_emptyTables, Option.bind_none]

end Xv6.Vm
