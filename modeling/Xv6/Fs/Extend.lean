import Xv6.Fs.Ok

/-!
# Growing a file

`bmap` finds the block of a file and allocates it, and the indirect block, if they
are missing.

* `Extended`: the file has the same blocks as before and maybe more; all other files
  are as before.
* `addrOf_spec`, `slotOf_spec`, `bmap_spec`: what `bmap` does inside of a transaction.
* `bmap_read`: for a block that is there, `bmap` changes nothing.
-/

namespace Xv6.Fs

open Xv6.Lib.Bytes Xv6.Lib.Wp
open Function (update update_of_ne update_self)

/-- The position of the pointer `addrs[x]`. -/
def posOf (x : Nat) : Nat := if x < NDIRECT then x else MAXFILE

section Positions

variable {d : Dinode} {disk : Disk} {x k a : Nat}

theorem posOf_le (x : Nat) : posOf x ≤ MAXFILE := by
  unfold posOf
  split
  · next hx =>
    simp only [MAXFILE]
    omega
  · exact Nat.le_refl _

theorem ptr_posOf (hx : x ≤ NDIRECT) : d.ptr disk (posOf x) = d.addrs x := by
  unfold posOf
  split
  · next hlt => exact ptr_direct hlt
  · next hge =>
    rw [ptr_indirect, Nat.le_antisymm hx (Nat.not_lt.mp hge)]

/-- A zero block is put into an empty address. -/
theorem ptr_setAddr (hx : x ≤ NDIRECT) (hnone : d.addrs x = 0) (hzero : disk a = zeroBlock)
    (hk : k ≤ MAXFILE) :
    ({ d with addrs := update d.addrs x a } : Dinode).ptr disk k =
      if k = posOf x then a else d.ptr disk k := by
  unfold posOf
  split
  · next hlt => exact ptr_setDirect hlt
  · next hge =>
    obtain rfl : x = NDIRECT := Nat.le_antisymm hx (Nat.not_lt.mp hge)
    exact ptr_setIndirect hnone hzero hk

end Positions

/-! ## Extensions -/

section Extensions

variable {ino : Nat → Dinode} {own own₁ own₂ : Owners} {held : Nat → Prop}
  {s s₁ s₂ : Vol} {i : Nat} {d₁ d₂ : Dinode}

/-- From `s` to `s'` the inode `i` becomes `d'` and keeps its blocks, and nothing happens to
the other files. -/
structure Extended (ino : Nat → Dinode) (held : Nat → Prop) (i : Nat) (d' : Dinode)
    (own' : Owners) (s s' : Vol) : Prop where
  ok : FsOk (update ino i d') own' held (· = i) s'
  attrs : d' = { ino i with addrs := d'.addrs }
  ptrs : ∀ k, k ≤ MAXFILE → (ino i).ptr s.disk k ≠ 0 → d'.ptr s'.disk k = (ino i).ptr s.disk k
  data : ∀ k, k < MAXFILE → (ino i).ptr s.disk k ≠ 0 →
    s'.disk ((ino i).ptr s.disk k) = s.disk ((ino i).ptr s.disk k)
  others : ∀ j, Allocated s.sb ino j → j ≠ i → KeptFile s.disk s'.disk (ino j)

theorem Extended.refl (h : FsOk ino own held (· = i) s) : Extended ino held i (ino i) own s s :=
  ⟨by rwa [Function.update_eq_self], rfl, fun _ _ _ => rfl, fun _ _ _ => rfl,
    fun j _ _ => KeptFile.refl s.disk (ino j)⟩

theorem Extended.type_eq (h : Extended ino held i d₁ own₁ s s₁) : d₁.type = (ino i).type := by
  rw [h.attrs]

theorem Extended.trans (h : Extended ino held i d₁ own₁ s s₁) (hsb : s₁.sb = s.sb)
    (h' : Extended (update ino i d₁) held i d₂ own₂ s₁ s₂) :
    Extended ino held i d₂ own₂ s s₂ := by
  have hok := h'.ok
  have hattrs := h'.attrs
  have hptrs := h'.ptrs
  have hdata := h'.data
  rw [Function.update_idem] at hok
  rw [update_self] at hattrs hptrs hdata
  refine ⟨hok, ?_, fun k hk hne => ?_, fun k hk hne => ?_, fun j hj hne => ?_⟩
  · rw [hattrs, h.attrs]
  · rw [hptrs k hk (by rw [h.ptrs k hk hne]; exact hne)]
    exact h.ptrs k hk hne
  · have hptr := h.ptrs k (Nat.le_of_lt hk) hne
    have hsecond := hdata k hk (by rw [hptr]; exact hne)
    rw [hptr] at hsecond
    exact hsecond.trans (h.data k hk hne)
  · have hsecond := h'.others j (by rwa [Allocated, update_of_ne hne, hsb]) hne
    rw [update_of_ne hne] at hsecond
    exact (h.others j hj hne).trans hsecond

/-- Either the disk stays or only the indirect block of the inode changes. -/
def Rewired (d : Dinode) (disk disk' : Disk) : Prop :=
  disk' = disk ∨ ∃ blk, d.addrs NDIRECT ≠ 0 ∧ disk' = update disk (d.addrs NDIRECT) blk

theorem Rewired.eq {disk disk' : Disk} {d : Dinode} (h : Rewired d disk disk') {c : Nat}
    (hc : c = d.addrs NDIRECT → d.addrs NDIRECT = 0) : disk' c = disk c := by
  rcases h with rfl | ⟨blk, hind, rfl⟩
  · rfl
  · exact update_of_ne (fun heq => hind (hc heq)) _ _

/-- A block is allocated and then put at an empty position of the inode `i`. -/
theorem FsOk.attach {b k : Nat} {s' : Vol} (h : FsOk ino own held (· = i) s)
    (hi : Allocated s.sb ino i) (htook : Took ino own held (· = i) s b s₁) (hk : k ≤ MAXFILE)
    (hnone : (ino i).ptr s.disk k = 0) (hattrs : d₁ = { ino i with addrs := d₁.addrs })
    (hrepr : d₁.Repr) (hsb : s'.sb = s₁.sb) (htable : s'.itable = s₁.itable)
    (hptr : ∀ l, l ≤ MAXFILE → d₁.ptr s'.disk l = if l = k then b else (ino i).ptr s₁.disk l)
    (hdisk : Rewired (ino i) s₁.disk s'.disk) :
    Extended ino held i d₁ (update own b (some (i, k))) s s' := by
  obtain ⟨hnew, hown, hheld, hok⟩ := htook
  have hsb₁ : s₁.sb = s.sb := hnew.within.sb
  have hwf := h.sb
  have hblocks := hok.blocks
  rw [hsb₁] at hblocks
  have hind : (ino i).addrs NDIRECT ≠ 0 → own ((ino i).addrs NDIRECT) = some (i, MAXFILE) := by
    have hpoints := h.blocks.points i MAXFILE hi (Nat.le_refl _)
    rwa [ptr_indirect] at hpoints
  -- blocks of files other than the indirect block of this one
  have hkept : ∀ c j l, own c = some (j, l) → (j, l) ≠ (i, MAXFILE) → s'.disk c = s.disk c := by
    intro c j l hc hne
    have hcb : c ≠ b := by
      rintro rfl
      rw [hown] at hc
      cases hc
    rw [hdisk.eq fun heq => ?_, hnew.data c (h.blocks.owned c j l hc).1.1 hcb]
    apply Classical.byContradiction
    intro hzero
    rw [heq, hind hzero, Option.some.injEq] at hc
    exact hne hc.symm
  have hmeta : ∀ c, c < s.sb.nmeta → s'.disk c = s₁.disk c := by
    intro c hc
    refine hdisk.eq fun heq => ?_
    apply Classical.byContradiction
    intro hzero
    have hdata := (h.blocks.owned _ _ _ (hind hzero)).1.1
    omega
  have hbits : ∀ c, c < s.sb.size → bitAt s.sb s'.disk c = bitAt s.sb s₁.disk c := by
    intro c hc
    rw [bitAt, hmeta _ (hwf.bblock_lt hc), bitAt]
  have hdinode : ∀ j, j < s.sb.ninodes → dinodeAt s.sb s'.disk j = dinodeAt s.sb s₁.disk j := by
    intro j hj
    have hle : s.sb.bmapstart ≤ s.sb.nmeta := Nat.le_trans (Nat.le_add_right _ _) hwf.bitmap
    rw [dinodeAt, hmeta _ (Nat.lt_of_lt_of_le (hwf.iblock_lt hj) hle), dinodeAt]
  have hsame : ∀ l, (ino i).ptr s₁.disk l = (ino i).ptr s.disk l := by
    intro l
    refine ptr_congr (fun hne => ?_) l
    have hinddata := (h.blocks.owned _ _ _ (hind hne)).1.1
    refine hnew.data _ hinddata ?_
    intro heq
    rw [heq] at hind
    rw [hind (heq ▸ hne)] at hown
    cases hown
  have hothers : ∀ j, Allocated s.sb ino j → j ≠ i → KeptFile s.disk s'.disk (ino j) := by
    intro j hj hne
    exact h.blocks.keptFile hj fun c l hc => hkept c j l hc fun heq => hne (Prod.mk.inj heq).1
  have hothers₁ : ∀ j l, Allocated s.sb ino j → j ≠ i →
      (ino j).ptr s'.disk l = (ino j).ptr s₁.disk l := by
    intro j l hj hne
    refine ptr_congr (fun hzero => hdisk.eq fun heq => ?_) l
    apply Classical.byContradiction
    intro hizero
    have hpoints := h.blocks.points j MAXFILE hj (Nat.le_refl _)
    rw [ptr_indirect] at hpoints
    have hown' := hpoints hzero
    rw [heq, hind hizero, Option.some.injEq] at hown'
    exact hne (Prod.mk.inj hown').1.symm
  have hnonzero : ∀ l, l ≤ MAXFILE → (ino i).ptr s.disk l ≠ 0 →
      d₁.ptr s'.disk l = (ino i).ptr s.disk l := by
    intro l hl hne
    rw [hptr l hl, if_neg ?_, hsame]
    rintro rfl
    exact hne hnone
  have htype : d₁.type = (ino i).type := by rw [hattrs]
  have hsize : d₁.size = (ino i).size := by rw [hattrs]
  have hheld' : (fun c => (held c ∨ c = b) ∧ c ≠ b) = held := by
    funext c
    refine propext ⟨fun hc => hc.1.resolve_right hc.2, fun hc => ⟨.inl hc, ?_⟩⟩
    rintro rfl
    exact hheld hc
  have hattach := hblocks.attach hwf hi (htype ▸ hi.2) hk (.inr rfl) (by rw [hsame]; exact hnone)
    hothers₁ hptr hbits
  rw [hheld', ← hsb₁] at hattach
  refine ⟨hok.change hsb htable hrepr hattach ?_ ?_ ?_ ?_, hattrs, hnonzero, fun l hl hne => ?_,
    hothers⟩
  · rw [hsb₁]
    exact fun j hj _ => hdinode j hj
  · rw [hsb₁]
    exact fun j hj hne l => hothers₁ j l hj hne
  · intro _
    rw [hsize]
    exact h.sizes i hi
  · intro _ _ l hl
    rw [hsize] at hl
    have hmax := h.sizes i hi
    have hlt : l < MAXFILE := Nat.lt_of_mul_lt_mul_right (Nat.lt_of_lt_of_le hl hmax)
    have hne := h.noHoles i hi not_false l hl
    rw [hnonzero l (Nat.le_of_lt hlt) hne]
    exact hne
  · refine hkept _ i l (h.blocks.points i l hi (Nat.le_of_lt hl) hne) fun heq => ?_
    exact Nat.ne_of_lt hl (Prod.mk.inj heq).2

/-- The block is put into an empty address. -/
theorem FsOk.attachAddr {b x : Nat} (h : FsOk ino own held (· = i) s) (hi : Allocated s.sb ino i)
    (htook : Took ino own held (· = i) s b s₁) (hx : x ≤ NDIRECT) (hnone : (ino i).addrs x = 0) :
    Extended ino held i { ino i with addrs := update (ino i).addrs x b }
      (update own b (some (i, posOf x))) s s₁ := by
  have hnew := htook.1
  have hdata := htook.2.2.2.blocks.unowned b (.inr rfl)
  have hrepr := h.repr i hi.1
  refine h.attach hi htook (posOf_le x) ?_ rfl ⟨hrepr.size, fun l => ?_, fun l hl => ?_⟩ rfl rfl
    (fun l hl => ptr_setAddr hx hnone hnew.zero hl) (.inl rfl)
  · rw [ptr_posOf hx]
    exact hnone
  · show update (ino i).addrs x b l < 2 ^ 32
    rcases eq_or_ne l x with rfl | hne
    · rw [update_self]
      exact Superblock.Wf.block_lt (hnew.within.sb ▸ h.sb) hdata.2.2
    · rw [update_of_ne hne]
      exact hrepr.addrs l
  · show update (ino i).addrs x b l = 0
    rw [update_of_ne (by omega)]
    exact hrepr.unused l hl

/-- The block is put into an empty slot of the indirect block. -/
theorem FsOk.attachSlot {b j : Nat} (h : FsOk ino own held (· = i) s) (hi : Allocated s.sb ino i)
    (htook : Took ino own held (· = i) s b s₁) (hind : (ino i).addrs NDIRECT ≠ 0)
    (hj : j < NINDIRECT) (hnone : slot (s.disk ((ino i).addrs NDIRECT)) j = 0) (hsb : s₂.sb = s₁.sb)
    (htable : s₂.itable = s₁.itable)
    (hdisk : s₂.disk = update s₁.disk ((ino i).addrs NDIRECT)
      (writeLE 4 (s₁.disk ((ino i).addrs NDIRECT)) (4 * j) b)) :
    Extended ino held i (ino i) (update own b (some (i, NDIRECT + j))) s s₂ ∧
      ∀ l, (ino i).ptr s₂.disk l = if l = NDIRECT + j then b else (ino i).ptr s₁.disk l := by
  have hnew := htook.1
  have hdata := htook.2.2.2.blocks.unowned b (.inr rfl)
  have hlt : b < 2 ^ 32 := Superblock.Wf.block_lt (hnew.within.sb ▸ h.sb) hdata.2.2
  have hpos : NDIRECT + j < MAXFILE := Nat.add_lt_add_left hj NDIRECT
  have hset : ∀ l, (ino i).ptr s₂.disk l =
      if l = NDIRECT + j then b else (ino i).ptr s₁.disk l := by
    intro l
    rw [hdisk]
    exact ptr_setSlot hind hlt hj
  refine ⟨h.attach hi htook (Nat.le_of_lt hpos) ?_ rfl (h.repr i hi.1) hsb htable
    (fun l _ => hset l)
    (.inr ⟨_, hind, hdisk⟩), hset⟩
  rw [ptr_slot (Nat.le_add_right _ _) hpos, if_neg hind, Nat.add_sub_cancel_left]
  exact hnone

end Extensions

/-! ## The programs -/

section Programs

variable {E : Panic → Prop} {ino : Nat → Dinode} {own : Owners} {held : Nat → Prop}
  {s : Vol} {i ip : Nat}

/-- The entry `ip` of the table holds the inode `i`, with the content `d`. -/
structure Entry (ip i : Nat) (d : Dinode) (s : Vol) : Prop where
  ref : 0 < (s.itable ip).ref
  inum : (s.itable ip).inum = i
  din : (s.itable ip).din = d

/-- The table with a new copy of the inode in the entry `ip`. -/
def setDinAt (itable : Nat → Inode) (ip : Nat) (d : Dinode) : Nat → Inode :=
  update itable ip { itable ip with din := d }

theorem setDinAt_self {itable : Nat → Inode} {d : Dinode} (h : (itable ip).din = d) :
    setDinAt itable ip d = itable := by
  rw [setDinAt, ← h]
  exact Function.update_eq_self ip itable

theorem setDinAt_setDinAt (itable : Nat → Inode) (ip : Nat) (d d' : Dinode) :
    setDinAt (setDinAt itable ip d) ip d' = setDinAt itable ip d' := by
  simp only [setDinAt, update_self, Function.update_idem]

theorem Entry.setDin {d d' : Dinode} (h : Entry ip i d s) {s' : Vol}
    (htable : s'.itable = setDinAt s.itable ip d') : Entry ip i d' s' := by
  have hself : s'.itable ip = { s.itable ip with din := d' } := by
    rw [htable]
    exact update_self ..
  refine ⟨?_, ?_, ?_⟩
  · rw [hself]
    exact h.ref
  · rw [hself]
    exact h.inum
  · rw [hself]

/-- The copy in the table of an inode that may lag behind changes. -/
theorem FsOk.setDin {d : Dinode} {H : Nat → Prop} (h : FsOk ino own held (· = i) s H)
    (hentry : Entry ip i d s) (d' : Dinode) :
    FsOk ino own held (· = i) { s with itable := setDinAt s.itable ip d' } H :=
  h.setEntry ip _ (fun href => ⟨href, rfl⟩) fun _ _ hne => absurd hentry.inum hne

theorem wp_setDin {Q : Unit → Vol → Prop} {f : Dinode → Dinode} :
    wp (setDin ip f) E Q s ↔
      Q () { s with itable := setDinAt s.itable ip (f (s.itable ip).din) } := by
  rw [setDin, setInode, wp_updates]
  exact Iff.rfl

/-- The copy in the table follows the inode. -/
theorem Extended.setDin {d : Dinode} {own' : Owners} {s₁ : Vol}
    (h : Extended ino held i d own' s s₁) {d₀ : Dinode} (hentry : Entry ip i d₀ s₁) :
    Extended ino held i d own' s { s₁ with itable := setDinAt s₁.itable ip d } :=
  ⟨h.ok.setDin hentry _, h.attrs, h.ptrs, h.data, h.others⟩

theorem Entry.of_itable {d : Dinode} (h : Entry ip i d s) {s' : Vol}
    (htable : s'.itable = s.itable) :
    Entry ip i d s' := by
  refine ⟨?_, ?_, ?_⟩
  · rw [htable]
    exact h.ref
  · rw [htable]
    exact h.inum
  · rw [htable]
    exact h.din

theorem addrOf_spec {x : Nat} (h : FsOk ino own held (· = i) s) (hroom : Room E s)
    (hentry : Entry ip i (ino i) s) (htype : (ino i).type ≠ 0) (hx : x ≤ NDIRECT) :
    wp (addrOf ip x) E (fun a s' => ∃ d' own', Extended ino held i d' own' s s' ∧ Within s s' ∧
      s'.itable = setDinAt s.itable ip d' ∧ (a = 0 → Full s') ∧ (a ≠ 0 → d'.addrs x = a)) s := by
  have hi : Allocated s.sb ino i := ⟨hentry.inum ▸ h.range ip hentry.ref, htype⟩
  have hstay := Extended.refl h
  rw [addrOf, wp_bind, inode, wp_reads, hentry.din]
  split
  · next hnone =>
    rw [wp_bind]
    refine (balloc_spec h hroom).mono fun b s₁ hb => ?_
    rcases hb with ⟨rfl, rfl, hfull⟩ | ⟨hb, htook⟩
    · rw [if_pos rfl, wp_pure]
      exact ⟨ino i, own, hstay, Within.refl _, (setDinAt_self hentry.din).symm,
        fun _ => hfull, fun hne => absurd rfl hne⟩
    · have hnew := htook.1
      have hentry₁ : Entry ip i (ino i) s₁ := hentry.of_itable hnew.itable
      rw [if_neg hb, wp_bind, wp_setDin, hentry₁.din, wp_pure]
      have hattached := h.attachAddr hi htook hx hnone
      refine ⟨_, _, hattached.setDin hentry₁, ⟨hnew.within.sb, hnew.within.outstanding⟩, ?_,
        fun hzero => absurd hzero hb, fun _ => update_self ..⟩
      dsimp only
      rw [hnew.itable]
  · next hsome =>
    rw [wp_pure]
    exact ⟨ino i, own, hstay, Within.refl _, (setDinAt_self hentry.din).symm,
      fun hzero => absurd hzero hsome, fun _ => rfl⟩

theorem slotOf_spec {j : Nat} (h : FsOk ino own held (· = i) s) (hroom : Room E s)
    (hi : Allocated s.sb ino i) (hind : (ino i).addrs NDIRECT ≠ 0) (hj : j < NINDIRECT) :
    wp (slotOf ((ino i).addrs NDIRECT) j) E
      (fun a s' => ∃ own', Extended ino held i (ino i) own' s s' ∧
      Within s s' ∧ s'.itable = s.itable ∧ (a = 0 → Full s') ∧
      (a ≠ 0 → (ino i).ptr s'.disk (NDIRECT + j) = a)) s := by
  have hstay := Extended.refl h
  have hpos : NDIRECT + j < MAXFILE := Nat.add_lt_add_left hj NDIRECT
  have hptr : (ino i).ptr s.disk (NDIRECT + j) = slot (s.disk ((ino i).addrs NDIRECT)) j := by
    rw [ptr_slot (Nat.le_add_right _ _) hpos, if_neg hind, Nat.add_sub_cancel_left]
  rw [slotOf, wp_bind, bread, wp_reads]
  split
  · next hnone =>
    rw [wp_bind]
    refine (balloc_spec h hroom).mono fun b s₁ hb => ?_
    rcases hb with ⟨rfl, rfl, hfull⟩ | ⟨hb, htook⟩
    · rw [if_pos rfl, wp_pure]
      exact ⟨own, hstay, Within.refl _, rfl, fun _ => hfull,
        fun hne => absurd rfl hne⟩
    · have hnew := htook.1
      rw [if_neg hb]
      refine wp_setLog _ _ (hroom.after hnew.within) fun s₂ hw₂ hdisk₂ htable₂ => ?_
      rw [wp_pure]
      obtain ⟨hext, hset⟩ := h.attachSlot hi htook hind hj hnone hw₂.sb htable₂ hdisk₂
      refine ⟨_, hext, hnew.within.trans hw₂, htable₂.trans hnew.itable,
        fun hzero => absurd hzero hb, fun _ => ?_⟩
      rw [hset, if_pos rfl]
  · next hsome =>
    rw [wp_pure]
    exact ⟨own, hstay, Within.refl _, rfl, fun hzero => absurd hzero hsome,
      fun _ => hptr⟩

/-- `bmap` finds the block `bn` of the file or adds it. -/
theorem bmap_spec {bn : Nat} (h : FsOk ino own held (· = i) s) (hroom : Room E s)
    (hentry : Entry ip i (ino i) s) (htype : (ino i).type ≠ 0) (hbn : bn < MAXFILE) :
    wp (bmap ip bn) E (fun a s' => ∃ d' own', Extended ino held i d' own' s s' ∧ Within s s' ∧
      s'.itable = setDinAt s.itable ip d' ∧ (a = 0 → Full s') ∧
      (a ≠ 0 → d'.ptr s'.disk bn = a)) s := by
  rw [bmap]
  split
  · next hdirect =>
    refine (addrOf_spec h hroom hentry htype (Nat.le_of_lt hdirect)).mono fun a s' hpost => ?_
    obtain ⟨d', own', hext, hw, htable, hfull, haddr⟩ := hpost
    refine ⟨d', own', hext, hw, htable, hfull, fun hne => ?_⟩
    rw [ptr_direct hdirect]
    exact haddr hne
  · next hindirect =>
    have hslot : bn - NDIRECT < NINDIRECT := by
      simp only [MAXFILE] at hbn
      omega
    rw [if_pos hslot, wp_bind]
    refine (addrOf_spec h hroom hentry htype (Nat.le_refl NDIRECT)).mono fun ind s₁ hpost => ?_
    obtain ⟨d₁, own₁, hext₁, hw₁, htable₁, hfull₁, haddr₁⟩ := hpost
    split
    · next hzero =>
      rw [wp_pure]
      exact ⟨d₁, own₁, hext₁, hw₁, htable₁, fun _ => hfull₁ hzero,
        fun hne => absurd rfl hne⟩
    · next hne =>
      have hind := haddr₁ hne
      have hself : update ino i d₁ i = d₁ := update_self ..
      have halloc : Allocated s₁.sb (update ino i d₁) i := by
        refine ⟨?_, ?_⟩
        · rw [hw₁.sb]
          exact hentry.inum ▸ h.range ip hentry.ref
        · rw [hself, hext₁.type_eq]
          exact htype
      have hspec := slotOf_spec (E := E) (j := bn - NDIRECT) hext₁.ok (hroom.after hw₁) halloc
        (by rw [hself, hind]; exact hne) hslot
      rw [hself, hind] at hspec
      refine hspec.mono fun a s' hpost => ?_
      obtain ⟨own', hext, hw, htable, hfull, hptr⟩ := hpost
      refine ⟨d₁, own', hext₁.trans hw₁.sb ?_, hw₁.trans hw, htable.trans htable₁, hfull,
        fun ha => ?_⟩
      · exact hext
      · rw [← hptr ha]
        congr 1
        omega

/-- A block that is there is found without any change, also outside of a transaction. -/
theorem bmap_read {bn : Nat} {d : Dinode} (hdin : (s.itable ip).din = d) (hbn : bn < MAXFILE)
    (hne : d.ptr s.disk bn ≠ 0) :
    wp (bmap ip bn) E (fun a s' => a = d.ptr s.disk bn ∧ s' = s) s := by
  have haddr : ∀ x, d.addrs x ≠ 0 → wp (addrOf ip x) E (fun a s' => a = d.addrs x ∧ s' = s) s := by
    intro x hx
    rw [addrOf, wp_bind, inode, wp_reads, hdin, if_neg hx, wp_pure]
    exact ⟨rfl, rfl⟩
  rw [bmap]
  split
  · next hdirect =>
    rw [ptr_direct hdirect] at hne ⊢
    exact haddr bn hne
  · next hindirect =>
    have hslot : bn - NDIRECT < NINDIRECT := by
      simp only [MAXFILE] at hbn
      omega
    rw [ptr_slot (Nat.not_lt.mp hindirect) hbn] at hne ⊢
    have hind : d.addrs NDIRECT ≠ 0 := fun hzero => hne (if_pos hzero)
    rw [if_neg hind] at hne ⊢
    rw [if_pos hslot, wp_bind]
    refine (haddr NDIRECT hind).mono fun a s' hpost => ?_
    obtain ⟨rfl, rfl⟩ := hpost
    rw [if_neg hind, slotOf, wp_bind, bread, wp_reads, if_neg hne, wp_pure]
    exact ⟨rfl, rfl⟩

end Programs

end Xv6.Fs
