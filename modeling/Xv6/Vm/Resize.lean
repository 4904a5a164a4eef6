import Xv6.Vm.Walk

/-!
# Shrinking user memory

Specifications of `uvmunmap` and `uvmdealloc` in terms of the mappings of a page
table.

* `lookup`: the valid entry of a page, if there is one.
* `Same`: no mapping changed, though tables may have been added.
* `Unmapped`: some user pages of a page table were unmapped and freed.
* `npages`: sizes in pages, with `PGROUNDUP_eq` and `intPages_eq`.
-/

namespace Xv6.Vm

open Xv6.Lib.Bytes Xv6.Lib.Wp
open Function (update update_of_ne update_self)

variable {mem : Nat → Nat → UInt8} {e v : Nat} {own' : Owner} {s' : Phys} {P : Nat → Prop}

variable {E : Panic → Prop} {own : Owner} {s : Phys} {r : Nat}

/-- The valid entry of the page `v`. -/
def lookup (mem : Nat → Nat → UInt8) (r v : Nat) : Option Nat :=
  if isValid (pteOf mem r v) then some (pteOf mem r v) else none

theorem lookup_congr {mem' : Nat → Nat → UInt8} {r : Nat} (h : pteOf mem' r v = pteOf mem r v) :
    lookup mem' r v = lookup mem r v := by
  rw [lookup, lookup, h]

theorem lookup_eq_none {r : Nat} :
    lookup mem r v = none ↔ isValid (pteOf mem r v) = false := by
  unfold lookup
  cases isValid (pteOf mem r v) <;> simp

theorem lookup_eq_some {r : Nat} :
    lookup mem r v = some e ↔ isValid (pteOf mem r v) = true ∧ pteOf mem r v = e := by
  unfold lookup
  cases isValid (pteOf mem r v) <;> simp

theorem lookup_of_locate_none (h : locate mem r v = none) :
    lookup mem r v = none := by
  simp [lookup_eq_none, pteOf, h]

/-- Two user pages never have the same role. -/
theorem Owned.user_inj (h : Owned own s) {p q : Nat} (hp : own p = some (.user r v))
    (hq : own q = some (.user r v)) : p = q := by
  obtain ⟨-, p', hp', -, hpa⟩ := h.user p r v hp
  obtain ⟨-, q', hq', -, hqa⟩ := h.user q r v hq
  cases h.inj hp' hq'
  exact hpa.symm.trans hqa

/-- Valid entries are leaves, below `MAXVA`, and those below `TRAPFRAME` map user pages. -/
theorem Owned.leaf_of_lookup (h : Owned own s) (hr : Root own r) (hv : v < 2 ^ 27)
    (he : lookup s.mem r v = some e) :
    isLeaf e = true ∧ v < 2 ^ 26 ∧ (v < TFVPN → own (PTE2PA e) = some (.user r v)) := by
  obtain ⟨hvalid, rfl⟩ := lookup_eq_some.mp he
  by_cases htab : HasTable own r 0 (v / 512)
  · obtain ⟨q, hq⟩ := htab
    have hrec : v / 512 * 512 + v % 512 = v := Nat.div_add_mod' v 512
    rw [h.pteOf_eq hq] at hvalid ⊢
    have hleaf := h.leaf q r _ _ hq (Nat.mod_lt _ (by decide)) hvalid
    rw [hrec] at hleaf
    exact hleaf
  · rw [h.pteOf_eq_zero hr hv htab] at hvalid
    cases hvalid

theorem Owned.page_of_lookup (h : Owned own s) (hr : Root own r) (hv : v < TFVPN)
    (he : lookup s.mem r v = some e) : own (PTE2PA e) = some (.user r v) :=
  (h.leaf_of_lookup hr (by have := tfvpn_lt; omega) he).2.2 hv

/-- No mapping of the page table `r` changed. -/
structure Same (r : Nat) (own own' : Owner) (s s' : Phys) : Prop where
  owned : Owned own' s'
  root : Root own' r
  frame : Frame r NoPage own own' s s'
  kept : ∀ v, v < 2 ^ 27 → lookup s'.mem r v = lookup s.mem r v

theorem Grow.same (h : Grow r own own' s s') : Same r own own' s s' :=
  ⟨h.owned, h.root, h.frame, fun v hv => lookup_congr (h.pte v hv)⟩

/-! ## Unmapping -/

/-- The user pages in `P` were unmapped and freed. -/
structure Unmapped (r : Nat) (P : Nat → Prop) (own own' : Owner) (s s' : Phys) : Prop where
  owned : Owned own' s'
  root : Root own' r
  frame : Frame r (fun p => ∃ v, P v ∧ own p = some (.user r v)) own own' s s'
  users : ∀ p r' v, own' p = some (.user r' v) → own p = some (.user r' v)
  gone : ∀ v, v < 2 ^ 27 → P v → lookup s'.mem r v = none
  kept : ∀ v, v < 2 ^ 27 → ¬ P v → lookup s'.mem r v = lookup s.mem r v
  tables : ∀ l b, HasTable own' r l b ↔ HasTable own r l b

theorem Unmapped.refl (h : Owned own s) (hr : Root own r) (hP : ∀ v, ¬ P v) :
    Unmapped r P own own s s :=
  ⟨h, hr, Frame.refl _ _ _ _, fun _ _ _ => id, fun v _ hv => absurd hv (hP v), fun _ _ _ => rfl,
    fun _ _ => Iff.rfl⟩

theorem Unmapped.trans {P' : Nat → Prop} {own'' : Owner} {s'' : Phys}
    (h : Unmapped r P own own' s s') (h' : Unmapped r P' own' own'' s' s'') :
    Unmapped r (fun v => P v ∨ P' v) own own'' s s'' := by
  refine ⟨h'.owned, h'.root, ?_, fun p r' v hp => h.users p r' v (h'.users p r' v hp),
    fun v hv hP => ?_, fun v hv hP => ?_, fun l b => (h'.tables l b).trans (h.tables l b)⟩
  · refine (h.frame.widen ?_).trans (h'.frame.widen ?_)
    · exact fun p ⟨v, hv, hp⟩ => ⟨v, .inl hv, hp⟩
    · exact fun p ⟨v, hv, hp⟩ => ⟨v, .inr hv, h.users p r v hp⟩
  · by_cases hP' : P' v
    · exact h'.gone v hv hP'
    · rw [h'.kept v hv hP']
      exact h.gone v hv (hP.resolve_right hP')
  · rw [h'.kept v hv fun hp => hP (.inr hp), h.kept v hv fun hp => hP (.inl hp)]

theorem Unmapped.congr {P' : Nat → Prop}
    (h : Unmapped r P own own' s s') (hP : ∀ v, P v ↔ P' v) : Unmapped r P' own own' s s' := by
  have : P = P' := funext fun v => propext (hP v)
  exact this ▸ h

/-- Freeing the user page `v` and clearing its entry. -/
theorem Owned.freeLeaf (h : Owned own s) {q pa : Nat} (hq : own q = some (.table r 0 (v / 512)))
    (hvalid : isValid (getPte s.mem q (v % 512)) = true) (hv : v < TFVPN)
    (hpa : PTE2PA (getPte s.mem q (v % 512)) = pa) (huser : own pa = some (.user r v))
    (page : Nat → UInt8) :
    Unmapped r (· = v) own (update own pa (some .free)) s
      { s with mem := setPte (update s.mem pa page) q (v % 512) 0,
               freelist := pa :: s.freelist } := by
  have hrec : v / 512 * 512 + v % 512 = v := Nat.div_add_mod' v 512
  have hi : v % 512 < 512 := Nat.mod_lt _ (by decide)
  have hqpa : q ≠ pa := ne_of_role hq huser (by simp)
  -- clearing the entry first and freeing the page then gives the same memory
  have hmem : setPte (update s.mem pa page) q (v % 512) 0 =
      update (setPte s.mem q (v % 512) 0) pa page := by
    rw [setPte, setPte, update_of_ne hqpa, Function.update_comm hqpa]
  rw [hmem]
  have howned : Owned (update own pa (some .free))
      { s with mem := update (setPte s.mem q (v % 512) 0) pa page,
               freelist := pa :: s.freelist } := by
    have hgive := (h.dropLeaf hq hi hvalid (hrec.symm ▸ hv) hpa).give (update_self _ _ _) page
    rwa [Function.update_idem] at hgive
  have hown : ∀ p, p ≠ pa → update own pa (some .free) p = own p :=
    fun p hp => update_of_ne hp _ _
  have htables : ∀ p l w, update own pa (some .free) p = some (.table r l w) ↔
      own p = some (.table r l w) := fun p l w => own_update_iff huser (by simp) (by simp)
  have hframe : Frame r (· = pa) own (update own pa (some .free)) s
      { s with mem := update (setPte s.mem q (v % 512) 0) pa page,
               freelist := pa :: s.freelist } :=
    frame_setPte hq (by simp [huser]) (by simp) hown (own_update_eq_none huser pa)
      (fun hp => (own_update_ne hp (by simp)).1)
      (fun p hpq hppa => (update_of_ne hppa _ _).trans (setPte_of_ne _ _ _ hpq))
      (fun hnone => absurd huser (by simp [hnone])) rfl rfl
  have hpte : ∀ w, w < 2 ^ 27 → pteOf (update (setPte s.mem q (v % 512) 0) pa page) r w =
      if w = v then 0 else pteOf s.mem r w := by
    intro w hw
    have hset := pteOf_setPte h howned htables (e := 0)
      (fun p l b hp => update_of_ne (ne_of_role hp huser (by simp)) _ _) hq hi (by decide) hw
    rwa [hrec] at hset
  have htf := tfvpn_lt
  refine ⟨howned, (htables ..).mpr (h.root_of_table hq), hframe.widen ?_, fun p r' w hp => ?_,
    fun w hw hwv => ?_, fun w hw hwv => ?_, fun l b => exists_congr fun p => htables p l b⟩
  · rintro p rfl
    exact ⟨v, rfl, huser⟩
  · exact (own_update_ne hp (by simp)).1
  · rw [lookup_eq_none, hpte w hw, if_pos hwv]
    rfl
  · exact lookup_congr (by rw [hpte w hw, if_neg hwv])

theorem vpn_lt_maxva (hv : v < 2 ^ 26) : v * PGSIZE < MAXVA := by
  rw [show MAXVA = 2 ^ 26 * PGSIZE from rfl]
  exact Nat.mul_lt_mul_of_pos_right hv (by decide)

theorem vpn_div (v : Nat) : v * PGSIZE / 4096 = v :=
  Nat.mul_div_cancel v (by decide)

/-- The body of `uvmunmap` on a page: there is nothing to do, or its entry is cleared. -/
theorem unmapPage_rule {Q : Unit → Phys → Prop} {doFree : Bool} (hv : v < 2 ^ 26)
    (hnone : lookup s.mem r v = none → Q () s)
    (hsome : ∀ q e, locate s.mem r v = some q → getPte s.mem q (v % 512) = e →
      lookup s.mem r v = some e →
      wp (do
        if doFree then kfree (PTE2PA e) else pure ()
        writePte q (v % 512) 0) E Q s) :
    wp (unmapPage r (v * PGSIZE) doFree) E Q s := by
  rw [unmapPage, wp_bind, walk_false_spec (vpn_lt_maxva hv), vpn_div]
  cases hloc : locate s.mem r v with
  | none => exact (wp_pure _).mpr (hnone (lookup_of_locate_none hloc))
  | some q =>
    have hpte : pteOf s.mem r v = getPte s.mem q (v % 512) := by rw [pteOf, hloc]
    rw [Option.map_some]
    simp only [readPte, wp_bind, wp_reads]
    cases hvalid : isValid (getPte s.mem q (v % 512)) with
    | false =>
      rw [if_pos rfl, wp_pure]
      exact hnone (lookup_eq_none.mpr (hpte ▸ hvalid))
    | true =>
      rw [if_neg (by decide)]
      exact hsome q _ hloc rfl (lookup_eq_some.mpr ⟨hpte ▸ hvalid, hpte⟩)

theorem uvmunmap_eq {lo n : Nat} {doFree : Bool} (h : lo + n ≤ 2 ^ 26) :
    uvmunmap r (lo * PGSIZE) n doFree =
      forRange (fun k => unmapPage r ((lo + k) * PGSIZE) doFree) n := by
  have hcount : ((lo * PGSIZE + n * PGSIZE) % 2 ^ 64 - lo * PGSIZE + PGSIZE - 1) / PGSIZE = n := by
    rw [show PGSIZE = 4096 from rfl]
    omega
  rw [uvmunmap, if_neg (not_not.mpr (Nat.mul_mod_left lo PGSIZE))]
  simp only [hcount, Nat.add_mul]

/-- The body of `uvmunmap` on a user page, with `do_free`. -/
theorem unmapPage_spec (h : Owned own s) (hr : Root own r) (hv : v < TFVPN) :
    wp (unmapPage r (v * PGSIZE) true) E
      (fun _ s' => ∃ own', Unmapped r (· = v) own own' s s') s := by
  have htf := tfvpn_lt
  refine unmapPage_rule (by omega) (fun hnone => ?_) fun q e hloc hpte he => ?_
  · -- a page without a valid entry is unmapped already
    exact ⟨own, h, hr, Frame.refl _ _ _ _, fun _ _ _ => id, fun w _ hw => hw ▸ hnone,
      fun _ _ _ => rfl, fun _ _ => Iff.rfl⟩
  · have huser := h.page_of_lookup hr hv he
    have hq := h.own_of_locate hr (by omega) hloc
    have hvalid := (lookup_eq_some.mp he).1
    rw [h.pteOf_eq hq] at hvalid
    have hram := h.ram (PTE2PA e) (by simp [huser])
    have hok : ¬ (PTE2PA e % PGSIZE ≠ 0 ∨ PTE2PA e < s.kend ∨ PHYSTOP ≤ PTE2PA e) := by
      rw [show PGSIZE = 4096 from rfl]
      omega
    simp only [if_true, wp_bind, kfree, wp_reads, if_neg hok, memset, setPage, writePte, wp_updates]
    exact ⟨_, h.freeLeaf hq hvalid hv (congrArg PTE2PA hpte) huser fun _ => 1⟩

theorem uvmunmap_spec {lo n : Nat} (h : Owned own s) (hr : Root own r) (hn : lo + n ≤ TFVPN) :
    wp (uvmunmap r (lo * PGSIZE) n true) E
      (fun _ s' => ∃ own', Unmapped r (fun v => lo ≤ v ∧ v < lo + n) own own' s s') s := by
  have htf := tfvpn_lt
  rw [uvmunmap_eq (by omega)]
  refine wp_forRange
    (I := fun k t => ∃ own', Unmapped r (fun v => lo ≤ v ∧ v < lo + k) own own' s t)
    ⟨own, Unmapped.refl h hr fun v => by omega⟩ fun k hk t hinv => ?_
  obtain ⟨own₁, h₁⟩ := hinv
  refine (unmapPage_spec h₁.owned h₁.root (by omega)).mono fun _ t' hstep => ?_
  obtain ⟨own₂, h₂⟩ := hstep
  exact ⟨own₂, (h₁.trans h₂).congr fun v => by omega⟩

/-! ## Sizes -/

/-- The number of pages of `sz` bytes. -/
def npages (sz : Nat) : Nat := (sz + 4095) / 4096

theorem PGROUNDUP_eq {sz : Nat} (h : sz + 4095 < 2 ^ 64) : PGROUNDUP sz = npages sz * PGSIZE := by
  rw [PGROUNDUP, npages, show PGSIZE = 4096 from rfl, show sz + 4096 - 1 = sz + 4095 from rfl,
    Nat.mod_eq_of_lt h]

theorem npages_mono {a b : Nat} (h : a ≤ b) : npages a ≤ npages b :=
  Nat.div_le_div_right (Nat.add_le_add_right h _)

theorem npages_le_of_le_trapframe {sz : Nat} (h : sz ≤ TRAPFRAME) : npages sz ≤ TFVPN := by
  have htf := trapframe_eq
  rw [npages]
  omega

theorem intPages_eq {n : Nat} (h : n < 2 ^ 31) : intPages n = n := by
  have hnat : (BitVec.ofNat 32 n).toNat = n := by
    rw [BitVec.toNat_ofNat, Nat.mod_eq_of_lt (by omega)]
  have hmsb : (BitVec.ofNat 32 n).msb = false := by
    rw [BitVec.msb_eq_false_iff_two_mul_lt, hnat]
    omega
  rw [intPages, BitVec.signExtend_eq_setWidth_of_msb_false hmsb, BitVec.toNat_setWidth, hnat,
    Nat.mod_eq_of_lt (by omega)]

/-- `uvmdealloc` unmaps the pages that `newsz` does not reach. -/
theorem uvmdealloc_spec {oldsz newsz : Nat} (h : Owned own s) (hr : Root own r)
    (hold : oldsz ≤ TRAPFRAME) :
    wp (uvmdealloc r oldsz newsz) E (fun res s' => res = (if newsz < oldsz then newsz else oldsz) ∧
      ∃ own', Unmapped r (fun v => npages newsz ≤ v ∧ v < npages oldsz) own own' s s') s := by
  have htf := trapframe_eq
  have htv := tfvpn_lt
  have hpages := npages_le_of_le_trapframe hold
  rw [uvmdealloc]
  by_cases hle : oldsz ≤ newsz
  · rw [if_pos hle, wp_pure, if_neg (Nat.not_lt.mpr hle)]
    have hmono := npages_mono hle
    exact ⟨rfl, own, Unmapped.refl h hr fun v => by omega⟩
  · have hlt : newsz < oldsz := Nat.lt_of_not_le hle
    have hmono := npages_mono (Nat.le_of_lt hlt)
    rw [if_neg hle, PGROUNDUP_eq (by omega), PGROUNDUP_eq (by omega), if_pos hlt]
    dsimp only
    by_cases hp : npages newsz * PGSIZE < npages oldsz * PGSIZE
    · have hcount : (npages oldsz * PGSIZE - npages newsz * PGSIZE) / PGSIZE =
          npages oldsz - npages newsz := by
        rw [← Nat.sub_mul, Nat.mul_div_cancel _ (by decide)]
      have hint : intPages (npages oldsz - npages newsz) = npages oldsz - npages newsz :=
        intPages_eq (by omega)
      rw [if_pos hp, hcount, hint, wp_bind]
      refine (uvmunmap_spec h hr (by omega)).mono fun _ s' hun => ?_
      obtain ⟨own', hun⟩ := hun
      rw [wp_pure]
      exact ⟨rfl, own', hun.congr fun v => by omega⟩
    · rw [if_neg hp, wp_pure]
      have hsame : npages oldsz ≤ npages newsz :=
        Nat.le_of_mul_le_mul_right (Nat.le_of_not_lt hp) (by decide)
      exact ⟨rfl, own, Unmapped.refl h hr fun v => by omega⟩

end Xv6.Vm
