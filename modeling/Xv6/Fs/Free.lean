import Xv6.Fs.Write

/-!
# Giving up inodes and their blocks

* `Dinode.cleared`: an inode without content, and `FsOk.detachAll`: all its blocks
  are held by the program that frees them.
* `Freed`: how far `itrunc` has come.  It frees the blocks in the order of the
  positions: direct blocks, slots, and the indirect block at last.
* `itrunc_spec`, `ifree_spec`, `iput_spec`.
-/

namespace Xv6.Fs

open Xv6.Lib.Bytes Xv6.Lib.Wp
open Function (update update_of_ne update_self update_idem)

/-! ## Blocks without a file -/

/-- The inode with no blocks. -/
def Dinode.cleared (d : Dinode) : Dinode := { d with size := 0, addrs := fun _ => 0 }

/-- The inode on the disk after it has been freed. -/
def Dinode.freed (d : Dinode) : Dinode := { d.cleared with type := 0 }

/-- No block belongs to the inode `i` any more. -/
def disownAll (own : Owners) (i : Nat) : Owners :=
  disown own i fun _ => true

/-- The blocks of the inode `i` at the positions from `p` on. -/
def Rest (own : Owners) (i p c : Nat) : Prop := ∃ l, p ≤ l ∧ own c = some (i, l)

section Clearing

variable {ino : Nat → Dinode} {own : Owners} {held X H : Nat → Prop} {s s₁ : Vol}
  {i p : Nat}

theorem repr_cleared (d : Dinode) : d.cleared.Repr :=
  ⟨show 0 < 2 ^ 32 by decide, fun _ => show 0 < 2 ^ 32 by decide, fun _ _ => rfl⟩

theorem repr_freed (d : Dinode) : d.freed.Repr :=
  ⟨show 0 < 2 ^ 32 by decide, fun _ => show 0 < 2 ^ 32 by decide, fun _ _ => rfl⟩

theorem ptr_cleared (d : Dinode) (disk : Disk) (k : Nat) : d.cleared.ptr disk k = 0 :=
  ptr_eq_zero fun _ _ => rfl

theorem FsOk.congr_held {held' : Nat → Prop} (h : FsOk ino own held X s H)
    (hheld : ∀ c, held c ↔ held' c) :
    FsOk ino own held' X s H := by
  have heq : held = held' := funext fun c => propext (hheld c)
  rwa [← heq]

/-- The inode gives up its blocks. -/
theorem FsOk.detachAll (h : FsOk ino own held (· = i) s H) (hi : Allocated s.sb ino i) :
    FsOk (update ino i (ino i).cleared) (disownAll own i) (fun c => held c ∨ Rest own i 0 c)
      (· = i) s H := by
  have hblocks := h.blocks.detach h.sb hi (d := (ino i).cleared) hi.2
    (fun l _ => by rw [if_pos rfl]; exact ptr_cleared _ _ _)
  refine (h.change (d := (ino i).cleared) (rfl : s.sb = s.sb) rfl (repr_cleared _) hblocks
    (fun _ _ _ => rfl) (fun _ _ _ _ => rfl) (fun _ => Nat.zero_le _) ?_).congr_held fun c => ?_
  · intro _ _ k hk
    exact absurd hk (Nat.not_lt_zero _)
  · refine or_congr_right ⟨?_, ?_⟩
    · rintro ⟨l, hl, -⟩
      exact ⟨l, Nat.zero_le l, hl⟩
    · rintro ⟨l, -, hl⟩
      exact ⟨l, hl, rfl⟩

end Clearing

/-! ## The loops -/

/-- The blocks of the inode `i` at the positions below `p` have been freed. -/
structure Freed (ino : Nat → Dinode) (own : Owners) (held H : Nat → Prop) (i p : Nat)
    (s s₁ : Vol) : Prop where
  ok : FsOk (update ino i (ino i).cleared) (disownAll own i) (fun c => held c ∨ Rest own i p c)
    (· = i) s₁ H
  data : ∀ c, s.sb.nmeta ≤ c → s₁.disk c = s.disk c
  within : Within s s₁

section Loops

variable {E : Panic → Prop} {ino : Nat → Dinode} {own : Owners} {held H : Nat → Prop}
  {s s₁ : Vol} {i ip p q : Nat}

/-- The table entry changes. -/
theorem Freed.setDin (h : Freed ino own held H i p s s₁) {d : Dinode} (hentry : Entry ip i d s₁)
    (d' : Dinode) : Freed ino own held H i p s { s₁ with itable := setDinAt s₁.itable ip d' } :=
  ⟨h.ok.setDin hentry d', h.data, ⟨h.within.sb, h.within.outstanding⟩⟩

/-- There are no blocks at some positions. -/
theorem Freed.skip (h : Freed ino own held H i p s s₁) (h₀ : FsOk ino own held (· = i) s H)
    (hpq : p ≤ q) (hnone : ∀ l, p ≤ l → l < q → (ino i).ptr s.disk l = 0) :
    Freed ino own held H i q s s₁ := by
  refine ⟨h.ok.congr_held fun c => or_congr_right ⟨?_, ?_⟩, h.data, h.within⟩
  · rintro ⟨l, hl, hc⟩
    refine ⟨l, ?_, hc⟩
    by_contra hlt
    obtain ⟨hdata, -, -, hptr⟩ := h₀.blocks.owned c i l hc
    refine h₀.sb.ne_zero hdata.1 hdata.2 ?_
    rw [← hptr]
    exact hnone l hl (Nat.lt_of_not_le hlt)
  · rintro ⟨l, hl, hc⟩
    exact ⟨l, Nat.le_trans hpq hl, hc⟩

/-- The next block is freed. -/
theorem Freed.bfree_spec (h : Freed ino own held H i p s s₁) (h₀ : FsOk ino own held (· = i) s H)
    (hi : Allocated s.sb ino i) (hp : p ≤ MAXFILE) (hne : (ino i).ptr s.disk p ≠ 0)
    (hroom : Room E s₁) :
    wp (bfree ((ino i).ptr s.disk p)) E
      (fun _ s₂ => Freed ino own held H i (p + 1) s s₂ ∧ s₂.itable = s₁.itable) s₁ := by
  have hown := h₀.blocks.points i p hi hp hne
  refine (Fs.bfree_spec h.ok hroom (.inr ⟨p, Nat.le_refl p, hown⟩)).mono fun _ s₂ hpost => ?_
  obtain ⟨hw, htable, hdata, hok⟩ := hpost
  refine ⟨⟨hok.congr_held fun c => ⟨?_, ?_⟩, fun c hc => ?_, h.within.trans hw⟩, htable⟩
  · rintro ⟨hc | ⟨l, hl, hc⟩, hnot⟩
    · exact .inl hc
    · refine .inr ⟨l, Nat.lt_of_le_of_ne hl ?_, hc⟩
      rintro rfl
      exact hnot (h₀.blocks.owned c i p hc).2.2.2.symm
  · rintro (hc | ⟨l, hl, hc⟩)
    · refine ⟨.inl hc, ?_⟩
      rintro rfl
      rw [(h₀.blocks.unowned _ hc).1] at hown
      cases hown
    · refine ⟨.inr ⟨l, Nat.le_of_succ_le hl, hc⟩, ?_⟩
      rintro rfl
      rw [hown, Option.some.injEq] at hc
      exact Nat.ne_of_lt hl (Prod.mk.inj hc).2
  · rw [hdata c (h.within.sb ▸ hc)]
    exact h.data c hc

/-- The inode with no direct blocks below `k`. -/
def Dinode.clearedBelow (d : Dinode) (k : Nat) : Dinode :=
  { d with addrs := fun x => if x < k then 0 else d.addrs x }

theorem addrs_clearedBelow (d : Dinode) (k : Nat) : (d.clearedBelow k).addrs k = d.addrs k :=
  if_neg (Nat.lt_irrefl k)

theorem clearedBelow_succ (d : Dinode) (k : Nat) :
    ({ d.clearedBelow k with addrs := update (d.clearedBelow k).addrs k 0 } : Dinode) =
      d.clearedBelow (k + 1) := by
  simp only [Dinode.clearedBelow, Dinode.mk.injEq, true_and]
  funext x
  rcases Nat.lt_trichotomy x k with hlt | rfl | hgt
  · rw [update_of_ne (Nat.ne_of_lt hlt), if_pos hlt, if_pos (Nat.lt_succ_of_lt hlt)]
  · rw [update_self, if_pos (Nat.lt_succ_self x)]
  · rw [update_of_ne (Nat.ne_of_gt hgt), if_neg (Nat.not_lt_of_gt hgt), if_neg (by omega)]

theorem clearedBelow_of_zero {d : Dinode} {k : Nat} (hzero : d.addrs k = 0) :
    d.clearedBelow (k + 1) = d.clearedBelow k := by
  rw [← clearedBelow_succ]
  have hsame : (d.clearedBelow k).addrs k = 0 := (addrs_clearedBelow d k).trans hzero
  have hupdate := Function.update_eq_self k (d.clearedBelow k).addrs
  rw [hsame] at hupdate
  rw [hupdate]

/-- The state after the direct blocks below `k`. -/
def FreedDirect (ino : Nat → Dinode) (own : Owners) (held H : Nat → Prop) (i ip : Nat)
    (s : Vol) (k : Nat) (s₁ : Vol) : Prop :=
  Freed ino own held H i k s s₁ ∧ s₁.itable = setDinAt s.itable ip ((ino i).clearedBelow k)

theorem truncDirect_spec (h₀ : FsOk ino own held (· = i) s H) (hi : Allocated s.sb ino i)
    (hentry : Entry ip i (ino i) s) (hroom : Room E s) (hp : p < NDIRECT)
    (h : FreedDirect ino own held H i ip s p s₁) :
    wp (truncDirect ip p) E (fun _ => FreedDirect ino own held H i ip s (p + 1)) s₁ := by
  obtain ⟨hfreed, htable⟩ := h
  have hentry₁ : Entry ip i ((ino i).clearedBelow p) s₁ := hentry.setDin htable
  have haddr : ((ino i).clearedBelow p).addrs p = (ino i).ptr s.disk p := by
    rw [ptr_direct hp, addrs_clearedBelow]
  have hmax : p ≤ MAXFILE := Nat.le_trans (Nat.le_of_lt hp) (by decide)
  rw [truncDirect, wp_bind, inode, wp_reads, hentry₁.din, haddr]
  split
  · next hzero =>
    rw [wp_pure]
    refine ⟨hfreed.skip h₀ (Nat.le_succ p) fun l hl hlt => ?_, ?_⟩
    · rw [Nat.le_antisymm (Nat.le_of_lt_succ hlt) hl]
      exact hzero
    · rw [ptr_direct hp] at hzero
      rw [htable, clearedBelow_of_zero hzero]
  · next hne =>
    rw [wp_bind]
    refine (hfreed.bfree_spec h₀ hi hmax hne (hroom.after hfreed.within)).mono fun _ s₂ hpost => ?_
    obtain ⟨hfreed₂, htable₂⟩ := hpost
    have hentry₂ : Entry ip i ((ino i).clearedBelow p) s₂ := hentry₁.of_itable htable₂
    rw [wp_setDin, hentry₂.din, clearedBelow_succ]
    refine ⟨hfreed₂.setDin hentry₂ _, ?_⟩
    rw [htable₂, htable, setDinAt_setDinAt]

theorem truncSlot_spec (h₀ : FsOk ino own held (· = i) s H) (hi : Allocated s.sb ino i)
    (hind : (ino i).addrs NDIRECT ≠ 0) (hroom : Room E s) (hp : p < NINDIRECT)
    (h : Freed ino own held H i (NDIRECT + p) s s₁) :
    wp (truncSlot ((ino i).addrs NDIRECT) p) E
      (fun _ s₂ => Freed ino own held H i (NDIRECT + (p + 1)) s s₂ ∧ s₂.itable = s₁.itable) s₁ := by
  have hmax : NDIRECT + p < MAXFILE := by
    simp only [MAXFILE]
    omega
  have hdata : s₁.disk ((ino i).addrs NDIRECT) = s.disk ((ino i).addrs NDIRECT) := by
    have hptr := h₀.blocks.ptr_data hi (Nat.le_refl MAXFILE)
    rw [ptr_indirect] at hptr
    exact h.data _ (hptr hind).1
  have hslot : slot (s₁.disk ((ino i).addrs NDIRECT)) p = (ino i).ptr s.disk (NDIRECT + p) := by
    rw [hdata, ptr_slot (Nat.le_add_right _ _) hmax, if_neg hind, Nat.add_sub_cancel_left]
  rw [truncSlot, wp_bind, bread, wp_reads, hslot]
  split
  · next hzero =>
    rw [wp_pure]
    refine ⟨h.skip h₀ (Nat.le_succ _) fun l hl hlt => ?_, rfl⟩
    rw [Nat.le_antisymm (Nat.le_of_lt_succ hlt) hl]
    exact hzero
  · next hne => exact h.bfree_spec h₀ hi (Nat.le_of_lt hmax) hne (hroom.after h.within)

end Loops

/-! ## The programs -/

section Programs

variable {E : Panic → Prop} {ino : Nat → Dinode} {own : Owners} {held H : Nat → Prop}
  {s s₁ : Vol} {i ip : Nat}

theorem clearedBelow_ndirect {d : Dinode} (hrepr : d.Repr) :
    ({ d.clearedBelow NDIRECT with addrs := update (d.clearedBelow NDIRECT).addrs NDIRECT 0 } :
      Dinode) = { d with addrs := fun _ => 0 } := by
  rw [clearedBelow_succ]
  simp only [Dinode.clearedBelow, Dinode.mk.injEq, true_and]
  funext x
  split
  · rfl
  · exact hrepr.unused x (by omega)

/-- The part of `itrunc` that frees the indirect block. -/
theorem truncIndirect_spec (h₀ : FsOk ino own held (· = i) s H) (hi : Allocated s.sb ino i)
    (hentry : Entry ip i (ino i) s) (hroom : Room E s)
    (h : FreedDirect ino own held H i ip s NDIRECT s₁) :
    wp (if (ino i).addrs NDIRECT = 0 then (pure () : FsM Unit)
      else do
        forRange (truncSlot ((ino i).addrs NDIRECT)) NINDIRECT
        bfree ((ino i).addrs NDIRECT)
        setDin ip fun d => { d with addrs := update d.addrs NDIRECT 0 }) E
      (fun _ s₂ => Freed ino own held H i (MAXFILE + 1) s s₂ ∧
        s₂.itable = setDinAt s.itable ip { ino i with addrs := fun _ => 0 }) s₁ := by
  obtain ⟨hfreed, htable⟩ := h
  have hrepr := h₀.repr i hi.1
  split
  · next hnone =>
    rw [wp_pure]
    refine ⟨hfreed.skip h₀ (by decide) fun l hl hlt => ?_, ?_⟩
    · rcases eq_or_ne l MAXFILE with rfl | hne
      · rw [ptr_indirect]
        exact hnone
      · rw [ptr_slot hl (by omega), if_pos hnone]
    · rw [htable, ← clearedBelow_of_zero hnone, ← clearedBelow_ndirect hrepr, clearedBelow_succ]
  · next hind =>
    rw [wp_bind]
    refine (wp_forRange (I := fun j s₂ => Freed ino own held H i (NDIRECT + j) s s₂ ∧
      s₂.itable = s₁.itable) ⟨hfreed, rfl⟩ fun j hj s₂ hs₂ => ?_).mono fun _ s₂ hs₂ => ?_
    · refine (truncSlot_spec h₀ hi hind hroom hj hs₂.1).mono fun _ s₃ hs₃ => ?_
      exact ⟨hs₃.1, hs₃.2.trans hs₂.2⟩
    · obtain ⟨hfreed₂, htable₂⟩ := hs₂
      change Freed ino own held H i MAXFILE s s₂ at hfreed₂
      have hptr : (ino i).ptr s.disk MAXFILE ≠ 0 := by
        rw [ptr_indirect]
        exact hind
      have hlast := hfreed₂.bfree_spec h₀ hi (Nat.le_refl MAXFILE) hptr (hroom.after hfreed₂.within)
      rw [ptr_indirect] at hlast
      rw [wp_bind]
      refine hlast.mono fun _ s₃ hs₃ => ?_
      obtain ⟨hfreed₃, htable₃⟩ := hs₃
      have hentry₃ : Entry ip i ((ino i).clearedBelow NDIRECT) s₃ :=
        hentry.setDin (htable₃.trans (htable₂.trans htable))
      rw [wp_setDin, hentry₃.din, clearedBelow_ndirect hrepr]
      refine ⟨hfreed₃.setDin hentry₃ _, ?_⟩
      rw [htable₃, htable₂, htable, setDinAt_setDinAt]

/-- After the last block nothing is held that was not held before. -/
theorem Freed.done (h : Freed ino own held H i (MAXFILE + 1) s s₁)
    (h₀ : FsOk ino own held (· = i) s H) :
    FsOk (update ino i (ino i).cleared) (disownAll own i) held (· = i) s₁ H := by
  refine h.ok.congr_held fun c => ⟨?_, .inl⟩
  rintro (hc | ⟨l, hl, hc⟩)
  · exact hc
  · exact absurd (h₀.blocks.owned c i l hc).2.2.1 (Nat.not_le_of_lt hl)

/-- What `itrunc` leaves behind. -/
structure Truncated (ino : Nat → Dinode) (own : Owners) (held H : Nat → Prop) (i ip : Nat)
    (s s' : Vol) : Prop where
  ok : FsOk (update ino i (ino i).cleared) (disownAll own i) held Nothing s' H
  data : ∀ c, s.sb.nmeta ≤ c → s'.disk c = s.disk c
  within : Within s s'
  itable : s'.itable = setDinAt s.itable ip (ino i).cleared

theorem itrunc_spec (h : FsOk ino own held Nothing s H) (hentry : Entry ip i (ino i) s)
    (htype : (ino i).type ≠ 0) (hroom : Room E s) :
    wp (itrunc ip) E (fun _ => Truncated ino own held H i ip s) s := by
  have h₀ : FsOk ino own held (· = i) s H := h.weaken fun _ hno => hno.elim
  have hi : Allocated s.sb ino i := ⟨hentry.inum ▸ h.range ip hentry.ref, htype⟩
  have hself : update ino i (ino i).cleared i = (ino i).cleared := update_self ..
  have hstart : FreedDirect ino own held H i ip s 0 s := by
    refine ⟨⟨h₀.detachAll hi, fun _ _ => rfl, Within.refl s⟩, ?_⟩
    exact (setDinAt_self hentry.din).symm
  rw [itrunc, wp_bind]
  refine (wp_forRange (I := FreedDirect ino own held H i ip s) hstart fun k hk t ht => ?_).mono
    fun _ s₁ hs₁ => ?_
  · exact truncDirect_spec h₀ hi hentry hroom hk ht
  · have hentry₁ : Entry ip i ((ino i).clearedBelow NDIRECT) s₁ := hentry.setDin hs₁.2
    rw [wp_bind, inode, wp_reads, hentry₁.din, addrs_clearedBelow, wp_bind]
    refine (truncIndirect_spec h₀ hi hentry hroom hs₁).mono fun _ s₂ hs₂ => ?_
    obtain ⟨hfreed, htable⟩ := hs₂
    have hentry₂ : Entry ip i { ino i with addrs := fun _ => 0 } s₂ := hentry.setDin htable
    rw [wp_bind, wp_setDin, hentry₂.din]
    have hok₃ := (hfreed.done h₀).setDin hentry₂ (ino i).cleared
    have hentry₃ : Entry ip i (ino i).cleared
        { s₂ with itable := setDinAt s₂.itable ip (ino i).cleared } := hentry₂.setDin rfl
    have hw₃ : Within s { s₂ with itable := setDinAt s₂.itable ip (ino i).cleared } :=
      ⟨hfreed.within.sb, hfreed.within.outstanding⟩
    refine wp.mono (iupdate_spec hok₃ (hroom.after hw₃) hentry₃.ref hentry₃.inum
      (hentry₃.din.trans hself.symm)) fun _ s' hs' => ?_
    obtain ⟨hw, htable', hdata, hok, hdisk⟩ := hs'
    refine ⟨?_, fun c hc => ?_, hw₃.trans hw, ?_⟩
    · refine hok.settle_entry (hself.symm ▸ hentry₃.of_itable htable') (hself.symm ▸ htype) ?_
      rw [hw.sb]
      exact hdisk
    · rw [hdata c (hw₃.sb.symm ▸ hc)]
      exact hfreed.data c hc
    · rw [htable']
      show setDinAt s₂.itable ip (ino i).cleared = setDinAt s.itable ip (ino i).cleared
      rw [htable, setDinAt_setDinAt]

/-- The state with a new table entry. -/
def Vol.setEntry (s : Vol) (ip : Nat) (x : Inode) : Vol :=
  { s with itable := update s.itable ip x }

@[simp] theorem setEntry_self (s : Vol) (ip : Nat) (x : Inode) : (s.setEntry ip x).itable ip = x :=
  update_self ..

@[simp] theorem setEntry_of_ne (s : Vol) {ip e : Nat} (x : Inode) (hne : e ≠ ip) :
    (s.setEntry ip x).itable e = s.itable e := update_of_ne hne _ _

@[simp] theorem setEntry_setEntry (s : Vol) (ip : Nat) (x y : Inode) :
    (s.setEntry ip x).setEntry ip y = s.setEntry ip y := by
  simp only [Vol.setEntry, update_idem]

theorem wp_setInode {Q : Unit → Vol → Prop} {f : Inode → Inode} :
    wp (setInode ip f) E Q s ↔ Q () (s.setEntry ip (f (s.itable ip))) := by
  rw [setInode, wp_updates]
  exact Iff.rfl

/-- The lock of an inode does not matter. -/
theorem FsOk.setLocked {X : Nat → Prop} (h : FsOk ino own held X s H) (ip : Nat) (locked : Bool) :
    FsOk ino own held X (s.setEntry ip { s.itable ip with locked }) H :=
  h.setEntry ip _ (fun href => ⟨href, rfl⟩) fun href hvalid hX => h.valid ip href hvalid hX

/-- The copy of a freed inode becomes invalid. -/
theorem FsOk.invalidate (h : FsOk ino own held (· = i) s H) (href : 0 < (s.itable ip).ref)
    (hinum : (s.itable ip).inum = i) (hdisk : dinodeAt s.sb s.disk i = ino i) :
    FsOk ino own held Nothing (s.setEntry ip { s.itable ip with valid := false }) H := by
  have hok : FsOk ino own held (· = i) (s.setEntry ip { s.itable ip with valid := false }) H :=
    h.setEntry ip _ (fun href => ⟨href, rfl⟩) fun _ hvalid => by cases hvalid
  refine hok.settle hdisk fun e heref hevalid heinum => ?_
  have heq : e = ip := by
    refine hok.unique e ip heref ?_ ?_
    · rw [setEntry_self]
      exact href
    · rw [heinum, setEntry_self]
      exact hinum.symm
  rw [heq, setEntry_self] at hevalid
  cases hevalid

/-- An inode without blocks is freed. -/
theorem FsOk.setFree (h : FsOk (update ino i (ino i).cleared) own held Nothing s H) :
    FsOk (update ino i (ino i).freed) own held (· = i) s H := by
  have hbusy : FsOk (update ino i (ino i).cleared) own held (· = i) s H :=
    h.weaken fun _ hno => hno.elim
  have hblocks := h.blocks.setBare (i := i) (d := (ino i).freed) h.sb
    (fun _ k _ => by rw [update_self]; exact ptr_cleared _ _ _) (fun hne => absurd rfl hne)
  have hok := hbusy.change (d := (ino i).freed) (rfl : s.sb = s.sb) rfl (repr_freed _) hblocks
    (fun _ _ _ => rfl) (fun _ _ _ _ => rfl) (fun hne => absurd rfl hne) fun hne => absurd rfl hne
  rwa [update_idem] at hok

/-- The inode `i` has been freed and its table entry is `x`. -/
structure Released (ino : Nat → Dinode) (own : Owners) (held H : Nat → Prop) (i ip : Nat)
    (x : Inode) (s s' : Vol) : Prop where
  ok : FsOk (update ino i (ino i).freed) (disownAll own i) held Nothing s' H
  data : ∀ c, s.sb.nmeta ≤ c → s'.disk c = s.disk c
  within : Within s s'
  itable : s'.itable = update s.itable ip x

theorem ifree_spec (h : FsOk ino own held Nothing s H) (hentry : Entry ip i (ino i) s)
    (htype : (ino i).type ≠ 0) (hlock : (s.itable ip).locked = true → E .stuck)
    (hroom : Room E s) :
    wp (ifree ip) E (fun _ => Released ino own held H i ip
      { s.itable ip with locked := false, valid := false, din := (ino i).freed } s) s := by
  have hi : i < s.sb.ninodes := hentry.inum ▸ h.range ip hentry.ref
  rw [ifree, wp_bind, acquiresleep, wp_bind, inode, wp_reads]
  split
  · next hlocked =>
    rw [wp_throw]
    exact hlock hlocked
  · rw [wp_setInode, wp_bind]
    generalize hs₁ : s.setEntry ip { s.itable ip with locked := true } = s₁
    have hok₁ : FsOk ino own held Nothing s₁ H := hs₁ ▸ h.setLocked ip true
    have hw₁ : Within s s₁ := hs₁ ▸ ⟨rfl, rfl⟩
    have hentry₁ : Entry ip i (ino i) s₁ := by
      rw [← hs₁]
      refine ⟨?_, ?_, ?_⟩
      · rw [setEntry_self]
        exact hentry.ref
      · rw [setEntry_self]
        exact hentry.inum
      · rw [setEntry_self]
        exact hentry.din
    have hroom₁ := hroom.after hw₁
    refine (itrunc_spec hok₁ hentry₁ htype hroom₁).mono fun _ s₂ h₂ => ?_
    have hentry₂ : Entry ip i (ino i).cleared s₂ := hentry₁.setDin h₂.itable
    rw [wp_bind, wp_setDin, hentry₂.din, wp_bind]
    generalize hs₃ :
      ({ s₂ with itable := setDinAt s₂.itable ip { (ino i).cleared with type := 0 } } :
      Vol) = s₃
    have htable₃ : s₃.itable = setDinAt s₂.itable ip (ino i).freed := by
      rw [← hs₃]
      rfl
    have hok₃ : FsOk (update ino i (ino i).freed) (disownAll own i) held (· = i) s₃ H := by
      rw [← hs₃]
      exact h₂.ok.setFree.setDin hentry₂ _
    have hdata₃ : s₃.disk = s₂.disk := by rw [← hs₃]
    have hw₃ : Within s₁ s₃ := by
      rw [← hs₃]
      exact ⟨h₂.within.sb, h₂.within.outstanding⟩
    have hentry₃ : Entry ip i (ino i).freed s₃ := hentry₂.setDin htable₃
    refine (iupdate_spec hok₃ (hroom₁.after hw₃) hentry₃.ref hentry₃.inum ?_).mono fun _ s₄ h₄ => ?_
    · rw [update_self]
      exact hentry₃.din
    · obtain ⟨hw₄, htable₄, hdata₄, hok₄, hdisk₄⟩ := h₄
      rw [update_self] at hdisk₄
      have hentry₄ : Entry ip i (ino i).freed s₄ := hentry₃.of_itable htable₄
      have hok₅ := hok₄.invalidate hentry₄.ref hentry₄.inum
        (by rw [update_self, hw₄.sb]; exact hdisk₄)
      rw [wp_bind, wp_setInode, wp_setInode]
      refine ⟨hok₅.setLocked ip false, fun c hc => ?_, ?_, ?_⟩
      · have hc₁ : s₁.sb.nmeta ≤ c := hw₁.sb.symm ▸ hc
        have hdisk₁ : s₁.disk = s.disk := by
          rw [← hs₁]
          rfl
        show s₄.disk c = s.disk c
        rw [hdata₄ c (hw₃.sb.symm ▸ hc₁), hdata₃, h₂.data c hc₁, hdisk₁]
      · have hw : Within s s₄ := hw₁.trans (hw₃.trans hw₄)
        exact ⟨hw.sb, hw.outstanding⟩
      · rw [setEntry_setEntry, setEntry_self]
        show update s₄.itable ip _ = _
        rw [htable₄, htable₃, h₂.itable, setDinAt_setDinAt, ← hs₁]
        simp only [setDinAt, update_self, update_idem, Vol.setEntry]

/-- `iput` of the last reference to an inode without links frees it. -/
theorem iput_spec (h : FsOk ino own held Nothing s H) (href : 0 < (s.itable ip).ref)
    (hi : (s.itable ip).inum = i) (hlock : (s.itable ip).locked = true → E .stuck)
    (hroom : Room E s) :
    wp (iput ip) E (fun _ s' =>
      if (s.itable ip).ref = 1 ∧ (s.itable ip).valid = true ∧ (ino i).nlink = 0 then
        Released ino own held H i ip
          { s.itable ip with ref := 0, locked := false, valid := false, din := (ino i).freed } s s'
      else FsOk ino own held Nothing s' H ∧
        s' = s.setEntry ip { s.itable ip with ref := (s.itable ip).ref - 1 }) s := by
  rw [iput, wp_bind, inode, wp_reads, wp_bind]
  by_cases hlast : (s.itable ip).ref = 1 ∧ (s.itable ip).valid = true ∧ (ino i).nlink = 0
  · obtain ⟨hone, hvalid, hnlink⟩ := hlast
    obtain ⟨hdin, htype⟩ := h.valid ip href hvalid not_false
    rw [hi] at hdin htype
    rw [hdin, if_pos ⟨hone, hvalid, hnlink⟩]
    refine (ifree_spec h ⟨href, hi, hdin⟩ htype hlock hroom).mono fun _ s' h' => ?_
    rw [wp_setInode, if_pos ⟨hone, hvalid, hnlink⟩]
    have hself := congrFun h'.itable ip
    rw [update_self] at hself
    refine ⟨?_, h'.data, ⟨h'.within.sb, h'.within.outstanding⟩, ?_⟩
    · refine h'.ok.setEntry ip _ (fun hpos => ?_) fun hpos => ?_
      all_goals
        rw [hself] at hpos
        change 0 < (s.itable ip).ref - 1 at hpos
        omega
    · show update s'.itable ip _ = _
      rw [h'.itable, update_self, update_idem, hone]
      rfl
  · have hskip :
        ¬ ((s.itable ip).ref = 1 ∧ (s.itable ip).valid = true ∧ (s.itable ip).din.nlink = 0) := by
      rintro ⟨hone, hvalid, hnlink⟩
      rw [(h.valid ip href hvalid not_false).1, hi] at hnlink
      exact hlast ⟨hone, hvalid, hnlink⟩
    rw [if_neg hskip, wp_pure, wp_setInode, if_neg hlast]
    refine ⟨h.setEntry ip _ (fun _ => ⟨href, rfl⟩) fun _ hvalid hX => ?_, rfl⟩
    exact h.valid ip href hvalid hX

end Programs

end Xv6.Fs
