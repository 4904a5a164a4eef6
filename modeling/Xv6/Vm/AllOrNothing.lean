import Xv6.Vm.Copies
import Xv6.Vm.ExecPanic

/-!
# Growing and copying are all or nothing

`uvmalloc` and `uvmcopy` map many pages and may run out of memory at any of
them, at the page itself or at a table on the way to it.

* `Frame.role_of_free`, `Same.given_back`: what became of the pages that were
  free.  After an operation that changed no mapping they are free again, apart
  from those that now are page tables.
* `uvmalloc_all_or_nothing`: growing maps every page of the range to a fresh page
  of zeros, or changes no mapping; shrinking back restores the mappings.
* `ExactCopy`, `uvmcopy_exact`: the child of a fork has the mappings of the parent
  with the same flags and the same bytes in pages of its own, or no mapping.
-/

namespace Xv6.Vm

open Xv6.Lib.Bytes Xv6.Lib.Wp

variable {own own' : Owner} {s s' : Phys} {r : Nat}

/-! ## The pages that were free -/

/-- A page that was free is free, or the page table `r` uses it now. -/
theorem Frame.role_of_free (hf : Frame r NoPage own own' s s') (hs : Owned own s)
    (hs' : Owned own' s') {p : Nat} (hp : own p = some .free) :
    own' p = some .free ∨ (∃ l b, own' p = some (.table r l b)) ∨
      ∃ v, own' p = some (.user r v) := by
  cases hrole : own' p with
  | none =>
    rw [(hf.dom p).mp hrole] at hp
    cases hp
  | some x =>
    cases x with
    | free => exact .inl rfl
    | held =>
      rw [(hf.newHeld p hrole).resolve_right not_false] at hp
      cases hp
    | table r' l b =>
      by_cases hr : r' = r
      · exact .inr (.inl ⟨l, b, hr ▸ rfl⟩)
      · rw [hf.newTable p r' l b hr hrole] at hp
        cases hp
    | user r' v =>
      by_cases hr : r' = r
      · exact .inr (.inr ⟨v, hr ▸ rfl⟩)
      · -- a user page of another page table was one before
        obtain ⟨hv, q, hq, hvalid, hpa⟩ := hs'.user p r' v hrole
        have hold := hf.newTable q r' 0 _ hr hq
        have hmem : getPte s'.mem q (v % 512) = getPte s.mem q (v % 512) := by
          rw [getPte, (hf.table q r' 0 _ hr hold).2, getPte]
        rw [hmem] at hvalid hpa
        have hleaf := (hs.leaf q r' _ _ hold (Nat.mod_lt _ (by decide)) hvalid).2.2
        rw [Nat.div_add_mod', hpa, hp] at hleaf
        cases hleaf hv

/-- When no mapping changed, a page that was free is free again or a new table. -/
theorem Same.given_back (h : Same r own own' s s') (hs : Owned own s) (hr : Root own r) {p : Nat}
    (hp : p ∈ s.freelist) : p ∈ s'.freelist ∨ ∃ l b, own' p = some (.table r l b) := by
  have hfree := (hs.free p).mpr hp
  rcases h.frame.role_of_free hs h.owned hfree with hfree' | htable | ⟨v, huser⟩
  · exact .inl ((h.owned.free p).mp hfree')
  · exact .inr htable
  · have hv := (h.owned.user p r v huser).1
    have htf := tfvpn_lt
    obtain ⟨e, he⟩ := Option.ne_none_iff_exists'.mp (h.owned.lookup_of_user huser)
    have hpage := h.owned.user_inj huser (h.owned.page_of_lookup h.root hv he)
    rw [h.kept v (by omega)] at he
    rw [hpage, hs.page_of_lookup hr hv he] at hfree
    cases hfree

/-! ## Growing -/

/-- `uvmalloc` maps exactly the pages from `PGROUNDUP(oldsz)` up to `PGROUNDUP(newsz)` to
pages that were free, with zeros in them, or runs out of memory at one of them and
returns 0 with every mapping as before and every page it took free again unless it is a
table; and `uvmdealloc` undoes a success. -/
theorem uvmalloc_all_or_nothing {oldsz newsz xperm : Nat} (h : Owned own s) (hr : Root own r)
    (hle : oldsz ≤ newsz) (hnew : newsz ≤ TRAPFRAME) (hperm : xperm < 1024)
    (hnone : ∀ v, PGROUNDUP oldsz ≤ v * PGSIZE → v * PGSIZE < PGROUNDUP newsz →
      lookup s.mem r v = none) :
    ∃ res s' own', uvmalloc r oldsz newsz xperm s = .ok (res, s') ∧
      (res = newsz ∧ Alloced r (PGROUNDUP oldsz / PGSIZE) (PGROUNDUP newsz / PGSIZE)
          (PTE_R ||| PTE_U ||| xperm) own own' s s' ∧
        (∃ s'' own'', uvmdealloc r newsz oldsz s' = .ok (oldsz, s'') ∧ Same r own own'' s s'') ∨
      res = 0 ∧ Same r own own' s s' ∧
        (∀ p ∈ s.freelist, p ∈ s'.freelist ∨ ∃ l b, own' p = some (.table r l b)) ∧
        ∃ v own₁ s₁, PGROUNDUP oldsz / PGSIZE ≤ v ∧ v < PGROUNDUP newsz / PGSIZE ∧
          Alloced r (PGROUNDUP oldsz / PGSIZE) v (PTE_R ||| PTE_U ||| xperm) own own₁ s s₁ ∧
          s₁.supply < 1 + tableCost own₁ r v) := by
  have htf : TRAPFRAME + 4095 < 2 ^ 64 := by decide
  have hpos : 0 < PGSIZE := by decide
  have hup₀ : PGROUNDUP oldsz = npages oldsz * PGSIZE := PGROUNDUP_eq (by omega)
  have hup₁ : PGROUNDUP newsz = npages newsz * PGSIZE := PGROUNDUP_eq (by omega)
  rw [hup₀, hup₁, Nat.mul_div_cancel _ hpos, Nat.mul_div_cancel _ hpos]
  have hrange : ∀ v, npages oldsz ≤ v → v < npages newsz → lookup s.mem r v = none := by
    intro v hlo hhi
    apply hnone
    · rw [hup₀]
      exact Nat.mul_le_mul_right _ hlo
    · rw [hup₁]
      exact Nat.mul_lt_mul_of_pos_right hhi hpos
  have hpages := npages_le_of_le_trapframe hnew
  obtain ⟨res, t, hrun, hres⟩ := (uvmalloc_rule (E := fun _ => False) (fun _ _ _ => True) h hr
    (hle.trans hnew) hle hperm (fun v hlo hhi _ => hrange v hlo hhi) trivial
    fun v _ _ _ hv _ => ⟨by omega, fun _ _ _ _ => trivial⟩).returns
  rcases hres with ⟨hres, own', halloc, -⟩ | ⟨hres, own', hsame, v, own₁, s₁, hlo, hhi, -, hshort⟩
  · refine ⟨res, t, own', hrun, .inl ⟨hres, halloc, ?_⟩⟩
    have hspec : wp (uvmdealloc r newsz oldsz) (fun _ => False) _ t :=
      uvmdealloc_spec halloc.owned halloc.root hnew
    obtain ⟨back, t', hback, hsz, own'', hun⟩ := hspec.returns
    have hsize : back = oldsz := by
      rw [hsz]
      split <;> omega
    exact ⟨t', own'', hsize ▸ hback,
      hun.undo h halloc.frame (fun v hv => hrange v hv.1 hv.2) halloc.kept⟩
  · exact ⟨res, t, own', hrun, .inr ⟨hres, hsame, fun p hp => hsame.given_back h hr hp,
      v, own₁, s₁, hlo, hhi, hshort⟩⟩

set_option maxRecDepth 100000 in
/-- Growth inside the first page and beyond it, by a page and a bit. -/
theorem uvmalloc_all_or_nothing_unaligned : ∃ own s' own', Owned own emptyTables ∧
    uvmalloc oldTable 100 5000 PTE_W emptyTables = .ok (5000, s') ∧
    Alloced oldTable (PGROUNDUP 100 / PGSIZE) (PGROUNDUP 5000 / PGSIZE) (PTE_R ||| PTE_U ||| PTE_W)
      own own' emptyTables s' ∧
    ∃ s'' own'', uvmdealloc oldTable 5000 100 s' = .ok (100, s'') ∧
      Same oldTable own own'' emptyTables s'' := by
  obtain ⟨own, hs, hold, -⟩ := empty_tables
  have hres : (uvmalloc oldTable 100 5000 PTE_W emptyTables).toOption.map Prod.fst = some 5000 := by
    decide +kernel
  obtain ⟨res, s', own', hrun, hpost⟩ := uvmalloc_all_or_nothing hs hold
    (by decide : 100 ≤ 5000) (by decide) (by decide : PTE_W < 1024)
    fun v _ _ => lookup_emptyTables oldTable v
  rw [hrun] at hres
  obtain rfl : res = 5000 := Option.some.inj hres
  rcases hpost with ⟨-, halloc, hundo⟩ | ⟨hbad, -⟩
  · exact ⟨own, s', own', hs, hrun, halloc, hundo⟩
  · cases hbad

/-! ## Copying -/

/-- The page `v` of `new` is mapped exactly if that of `old` was, with the same
flags and the same bytes, in a page that no other entry of a page table maps. -/
def ExactCopy (old new v : Nat) (own' : Owner) (s s' : Phys) : Prop :=
  match lookup s.mem old v with
  | none => lookup s'.mem new v = none
  | some e => ∃ e', lookup s'.mem new v = some e' ∧ PTE_FLAGS e' = PTE_FLAGS e ∧
      s'.mem (PTE2PA e') = s.mem (PTE2PA e) ∧
      ∀ r w f, Root own' r → w < 2 ^ 27 → lookup s'.mem r w = some f → PTE2PA f = PTE2PA e' →
        r = new ∧ w = v

theorem flags_mkPte (pa : Nat) {e : Nat} (hvalid : isValid e = true) :
    PTE_FLAGS (mkPte pa (PTE_FLAGS e)) = PTE_FLAGS e := by
  have hlt : PTE_FLAGS e < 1024 := Nat.mod_lt _ (by decide)
  refine Nat.eq_of_testBit_eq fun i => ?_
  by_cases hi : i < 10
  · rw [testBit_flags hi, testBit_mkPte pa hlt hi]
    by_cases h0 : i = 0
    · have hbit : (PTE_FLAGS e).testBit 0 = true := (testBit_flags (by decide)).trans hvalid
      rw [h0, hbit, Bool.true_or]
    · rw [decide_eq_false h0, Bool.or_false]
  · have hpow : 2 ^ 10 ≤ 2 ^ i := Nat.pow_le_pow_right (by decide) (by omega)
    have hlow : PTE_FLAGS (mkPte pa (PTE_FLAGS e)) < 1024 := Nat.mod_lt _ (by decide)
    rw [Nat.testBit_lt_two_pow (by omega), Nat.testBit_lt_two_pow (by omega)]

/-- The copy of a page is exact when the trampoline and the trapframes are no
free pages. -/
theorem Copied.exact {old new hi v : Nat} (h : Copied old new hi own own' s s')
    (hspecial : ∀ r v e, Root own r → TFVPN ≤ v → v < 2 ^ 27 → lookup s.mem r v = some e →
      own (PTE2PA e) ≠ some .free)
    (hnew : Root own new) (hs : Owned own s) (hhi : hi ≤ TFVPN) (hone : 1 ≤ v) (hv : v < hi) :
    ExactCopy old new v own' s s' := by
  have hcopy := h.copy v hone hv
  rw [PageCopy] at hcopy
  rw [ExactCopy]
  cases hlook : lookup s.mem old v with
  | none =>
    rw [hlook] at hcopy
    exact hcopy
  | some e =>
    rw [hlook] at hcopy
    obtain ⟨pa, hfree, huser, hentry, hmem⟩ := hcopy
    obtain ⟨hvalid, he⟩ := lookup_eq_some.mp hlook
    have hlt : PTE_FLAGS e < 1024 := Nat.mod_lt _ (by decide)
    have hpa : PTE2PA (mkPte pa (PTE_FLAGS e)) = pa := PTE2PA_mkPte (h.owned.pageAddr huser) hlt
    refine ⟨_, hentry, flags_mkPte pa (he ▸ hvalid), by rw [hpa, hmem],
      fun r w f hr hw hf hpf => ?_⟩
    rw [hpa] at hpf
    by_cases hlow : w < TFVPN
    · have hrole := h.owned.page_of_lookup hr hlow hf
      rw [hpf, huser, Option.some.injEq] at hrole
      obtain ⟨rfl, rfl⟩ := Role.user.inj hrole
      exact ⟨rfl, rfl⟩
    · -- the page was free, so that no special entry maps it
      have hold : Root own r ∧ lookup s.mem r w = some f := by
        by_cases hrn : r = new
        · subst hrn
          exact ⟨hnew, (h.kept w hw (by omega)).symm.trans hf⟩
        · have hroot := h.frame.newTable r r 2 0 hrn hr
          refine ⟨hroot, Eq.trans ?_ hf⟩
          exact (lookup_congr (h.frame.pteOf_eq hs h.owned hrn hroot hw)).symm
      exact absurd (hpf ▸ hfree) (hspecial r w f hold.1 (by omega) hw hold.2)

end Xv6.Vm
