import Xv6.Fs.Free

/-!
# The table of inodes

* `Refs`: reference counts are counts, and only the entries below `NINODE` have
  references.
* `Got`: what `iget` does to the table.
* `iget_spec`, `idup_spec`, `ilock_spec`, `iunlock_spec`, `ialloc_spec`, and
  `setAttrs_spec` for a change of link counts and device numbers.
-/

namespace Xv6.Fs

open Xv6.Lib.Bytes Xv6.Lib.Wp
open Function (update update_self)

/-- Reference counts of the table. -/
structure Refs (itable : Nat → Inode) : Prop where
  nonneg : ∀ e, 0 ≤ (itable e).ref
  bound : ∀ e, 0 < (itable e).ref → e < NINODE

/-- `iget` found the inode `inum` in the entry `ip` of the table, or put it there. -/
inductive Got (inum ip : Nat) (itable : Nat → Inode) : (Nat → Inode) → Prop where
  | found (href : 0 < (itable ip).ref) (hinum : (itable ip).inum = inum) :
    Got inum ip itable (update itable ip { itable ip with ref := (itable ip).ref + 1 })
  | added (href : (itable ip).ref = 0) (hnone : ∀ e, 0 < (itable e).ref → (itable e).inum ≠ inum) :
    Got inum ip itable (update itable ip { itable ip with inum, ref := 1, valid := false })

section Table

variable {E : Panic → Prop} {ino : Nat → Dinode} {own : Owners} {held X H : Nat → Prop}
  {s : Vol} {i ip inum : Nat} {itable itable' : Nat → Inode}

theorem Refs.update (h : Refs itable) (hip : ip < NINODE) {x : Inode} (hx : 0 ≤ x.ref) :
    Refs (update itable ip x) := by
  refine ⟨fun e => ?_, fun e href => ?_⟩
  · rcases eq_or_ne e ip with rfl | hne
    · rw [update_self]
      exact hx
    · rw [Function.update_of_ne hne]
      exact h.nonneg e
  · rcases eq_or_ne e ip with rfl | hne
    · exact hip
    · rw [Function.update_of_ne hne] at href
      exact h.bound e href

theorem Got.refs (hgot : Got inum ip itable itable') (h : Refs itable) (hip : ip < NINODE) :
    Refs itable' := by
  cases hgot with
  | found href => exact h.update hip (show 0 ≤ (itable ip).ref + 1 by omega)
  | added => exact h.update hip (show (0 : Int) ≤ 1 by decide)

/-- The entry has the inode afterwards, with one more reference. -/
theorem Got.entry (hgot : Got inum ip itable itable') :
    (itable' ip).inum = inum ∧ (itable' ip).ref = (itable ip).ref + 1 := by
  cases hgot with
  | found href hinum =>
    rw [update_self]
    exact ⟨hinum, rfl⟩
  | added href =>
    rw [update_self, href]
    exact ⟨rfl, rfl⟩

/-- A free entry takes an inode that is not in the table. -/
theorem FsOk.addEntry (h : FsOk ino own held X s H) {x : Inode} (hlt : x.inum < s.sb.ninodes)
    (hnone : ∀ e, 0 < (s.itable e).ref → (s.itable e).inum ≠ x.inum) (hvalid : x.valid = false) :
    FsOk ino own held X (s.setEntry ip x) H := by
  refine ⟨h.sb, h.blocks, h.disk, h.repr, fun e href => ?_, fun e href hv hX => ?_,
    fun e e' href href' heq => ?_, h.sizes, h.noHoles⟩
  · rcases eq_or_ne e ip with rfl | hne
    · rw [setEntry_self]
      exact hlt
    · rw [setEntry_of_ne s x hne] at href ⊢
      exact h.range e href
  · rcases eq_or_ne e ip with rfl | hne
    · rw [setEntry_self, hvalid] at hv
      cases hv
    · rw [setEntry_of_ne s x hne] at href hv hX ⊢
      exact h.valid e href hv hX
  · rcases eq_or_ne e ip with rfl | hne
    · rcases eq_or_ne e' e with rfl | hne'
      · rfl
      · rw [setEntry_self, setEntry_of_ne s x hne'] at heq
        rw [setEntry_of_ne s x hne'] at href'
        exact absurd heq.symm (hnone e' href')
    · rw [setEntry_of_ne s x hne] at href heq
      rcases eq_or_ne e' ip with rfl | hne'
      · rw [setEntry_self] at heq
        exact absurd heq (hnone e href)
      · rw [setEntry_of_ne s x hne'] at href' heq
        exact h.unique e e' href href' heq

/-- What `iget` does, for any inode number. -/
theorem iget_got (hrefs : Refs s.itable)
    (hfull : (∀ e, e < NINODE → (s.itable e).ref ≠ 0) → E .igetNoInodes) :
    wp (iget inum) E (fun ip s' => ip < NINODE ∧
      ∃ itable', Got inum ip s.itable itable' ∧ s' = { s with itable := itable' }) s := by
  rw [iget, wp_bind, wp_reads]
  cases hfind : findInode s.itable inum with
  | some ip =>
    obtain ⟨hfound, hmem⟩ := And.intro (List.find?_some hfind) (List.mem_of_find?_eq_some hfind)
    obtain ⟨href, hinum⟩ := of_decide_eq_true hfound
    dsimp only
    rw [wp_bind, wp_setInode, wp_pure]
    exact ⟨List.mem_range.mp hmem, _, .found href hinum, rfl⟩
  | none =>
    dsimp only
    cases hempty : emptyInode s.itable with
    | none =>
      dsimp only
      rw [wp_throw]
      refine hfull fun e he hzero => ?_
      exact List.find?_eq_none.mp hempty e (List.mem_range.mpr he) (decide_eq_true hzero)
    | some ip =>
      obtain ⟨hfound, hmem⟩ := And.intro (List.find?_some hempty) (List.mem_of_find?_eq_some hempty)
      dsimp only
      rw [wp_bind, wp_setInode, wp_pure]
      refine ⟨List.mem_range.mp hmem, _, .added (of_decide_eq_true hfound) fun e href hinum =>
        ?_, rfl⟩
      have hnot := List.find?_eq_none.mp hfind e (List.mem_range.mpr (hrefs.bound e href))
      exact hnot (decide_eq_true ⟨href, hinum⟩)

/-- The table may hold any inode of the disk. -/
theorem FsOk.got (h : FsOk ino own held X s H) (hlt : inum < s.sb.ninodes)
    (hgot : Got inum ip s.itable itable') : FsOk ino own held X { s with itable := itable' } H := by
  cases hgot with
  | found href =>
    exact h.setEntry ip _ (fun _ => ⟨href, rfl⟩) fun _ hvalid hX => h.valid ip href hvalid hX
  | added href hnone => exact h.addEntry hlt hnone rfl

theorem iget_spec (h : FsOk ino own held X s H) (hrefs : Refs s.itable) (hlt : inum < s.sb.ninodes)
    (hfull : (∀ e, e < NINODE → (s.itable e).ref ≠ 0) → E .igetNoInodes) :
    wp (iget inum) E (fun ip s' => ip < NINODE ∧ FsOk ino own held X s' H ∧
      ∃ itable', Got inum ip s.itable itable' ∧ s' = { s with itable := itable' }) s := by
  refine (iget_got hrefs hfull).mono fun ip s' hs' => ?_
  obtain ⟨hip, itable', hgot, rfl⟩ := hs'
  exact ⟨hip, h.got hlt hgot, itable', hgot, rfl⟩

theorem idup_spec (h : FsOk ino own held X s H) (href : 0 < (s.itable ip).ref) :
    wp (idup ip) E (fun r s' => r = ip ∧ FsOk ino own held X s' H ∧
      s' = s.setEntry ip { s.itable ip with ref := (s.itable ip).ref + 1 }) s := by
  rw [idup, wp_bind, wp_setInode, wp_pure]
  refine ⟨rfl, h.setEntry ip _ (fun _ => ⟨href, rfl⟩) fun _ hvalid hX => ?_, rfl⟩
  exact h.valid ip href hvalid hX

/-- After `ilock` the entry holds the inode. -/
theorem ilock_spec (h : FsOk ino own held Nothing s H) (href : 0 < (s.itable ip).ref)
    (hi : (s.itable ip).inum = i) (hlock : (s.itable ip).locked = true → E .stuck)
    (hfree : (ino i).type = 0 → E .ilockNoType) :
    wp (ilock ip) E (fun _ s' => (ino i).type ≠ 0 ∧ FsOk ino own held Nothing s' H ∧
      s' = s.setEntry ip { s.itable ip with locked := true, valid := true, din := ino i }) s := by
  rw [ilock, wp_bind, inode, wp_reads, if_neg (by omega), wp_bind, acquiresleep, wp_bind, inode,
    wp_reads]
  split
  · next hlocked =>
    rw [wp_throw]
    exact hlock hlocked
  · rw [wp_setInode]
    have hok := h.setLocked ip true
    split
    · next hvalid =>
      obtain ⟨hdin, htype⟩ := h.valid ip href hvalid not_false
      rw [hi] at hdin htype
      rw [wp_pure]
      refine ⟨htype, hok, ?_⟩
      simp only [hvalid, hdin]
    · rw [wp_bind, wp_reads, wp_bind, bread, wp_reads, wp_bind, wp_setInode, setEntry_setEntry,
        setEntry_self]
      have hdin : readDinode (s.disk (s.sb.IBLOCK (s.itable ip).inum))
          ((s.itable ip).inum % IPB * dinodeSize) = ino i := by
        rw [hi]
        exact h.disk i (hi ▸ h.range ip href) not_false
      show wp (if (readDinode (s.disk (s.sb.IBLOCK (s.itable ip).inum))
          ((s.itable ip).inum % IPB * dinodeSize)).type = 0 then
            (throw Panic.ilockNoType : FsM Unit)
        else pure ()) E _ (s.setEntry ip { s.itable ip with
          locked := true, valid := true, din := readDinode (s.disk (s.sb.IBLOCK (s.itable ip).inum))
            ((s.itable ip).inum % IPB * dinodeSize) })
      rw [hdin]
      split
      · next hzero =>
        rw [wp_throw]
        exact hfree hzero
      · next htype =>
        rw [wp_pure]
        refine ⟨htype, h.setEntry ip _ (fun _ => ⟨href, rfl⟩) fun _ _ _ => ?_, rfl⟩
        rw [hi]
        exact ⟨rfl, htype⟩

theorem iunlock_spec (h : FsOk ino own held X s H) (href : 0 < (s.itable ip).ref)
    (hlock : (s.itable ip).locked = false → E .iunlock) :
    wp (iunlock ip) E (fun _ s' => FsOk ino own held X s' H ∧
      s' = s.setEntry ip { s.itable ip with locked := false }) s := by
  rw [iunlock, wp_bind, inode, wp_reads]
  split
  · next hbad =>
    rw [wp_throw]
    exact hlock (hbad.resolve_right (by omega))
  · rw [wp_setInode]
    exact ⟨h.setLocked ip false, rfl⟩

theorem repr_freshDinode (type : BitVec 16) : (freshDinode type).Repr :=
  ⟨show 0 < 2 ^ 32 by decide, fun _ => show 0 < 2 ^ 32 by decide, fun _ _ => rfl⟩

theorem ptr_freshDinode (type : BitVec 16) (disk : Disk) (k : Nat) :
    (freshDinode type).ptr disk k = 0 :=
  ptr_eq_zero fun _ _ => rfl

/-- A free inode is taken. -/
theorem FsOk.takeInode (h : FsOk ino own held Nothing s H) (hi : i < s.sb.ninodes)
    (hfree : (ino i).type = 0) {type : BitVec 16} {s' : Vol} (hsb : s'.sb = s.sb)
    (htable : s'.itable = s.itable) (hdisk : s'.disk = update s.disk (s.sb.IBLOCK i)
      (writeDinode (freshDinode type) (s.disk (s.sb.IBLOCK i)) (i % IPB * dinodeSize))) :
    FsOk (update ino i (freshDinode type)) own held Nothing s' H ∧
      ∀ c, s.sb.nmeta ≤ c → s'.disk c = s.disk c := by
  have hself : update ino i (freshDinode type) i = freshDinode type := update_self ..
  have hbusy : FsOk ino own held (· = i) s H := h.weaken fun _ hno => hno.elim
  have hblocks := h.blocks.setBare (i := i) (d := freshDinode type) h.sb
    (fun hi' => absurd hfree hi'.2) (fun _ k _ => ptr_freshDinode type s.disk k)
  have hok := hbusy.change (d := freshDinode type) (rfl : s.sb = s.sb) rfl
    (repr_freshDinode type) hblocks
    (fun _ _ _ => rfl) (fun _ _ _ _ => rfl) (fun _ => Nat.zero_le _)
    fun _ _ k hk => absurd hk (Nat.not_lt_zero _)
  obtain ⟨hok', hdinode, hdata⟩ := hok.store hi hsb htable (hself.symm ▸ hdisk)
  refine ⟨hok'.settle (hsb.symm ▸ hdinode) fun e href hvalid hinum => ?_, hdata⟩
  rw [htable] at href hvalid hinum
  exact absurd (hinum ▸ hfree) (h.valid e href hvalid nofun).2

/-- What `ialloc` achieves when it finds the free inode `i`. -/
structure Ialloced (ino : Nat → Dinode) (own : Owners) (held : Nat → Prop)
    (type : BitVec 16) (i ip : Nat) (s s' : Vol) : Prop where
  pos : 0 < i
  lt : i < s.sb.ninodes
  free : (ino i).type = 0
  bound : ip < NINODE
  ok : FsOk (update ino i (freshDinode type)) own held Nothing s'
  data : ∀ c, s.sb.nmeta ≤ c → s'.disk c = s.disk c
  within : Within s s'
  got : Got i ip s.itable s'.itable

theorem ialloc_spec (h : FsOk ino own held Nothing s) (hrefs : Refs s.itable) (hroom : Room E s)
    (hfull : (∀ e, e < NINODE → (s.itable e).ref ≠ 0) → E .igetNoInodes) (type : BitVec 16) :
    wp (ialloc type) E (fun r s' => match r with
      | none => s' = s ∧ ∀ i, 0 < i → i < s.sb.ninodes → (ino i).type ≠ 0
      | some ip => ∃ i, Ialloced ino own held type i ip s s') s := by
  rw [ialloc, wp_bind, wp_reads]
  -- all inodes before `j + 1` are in use
  refine (wp_untilSome (I := fun j t => t = s ∧ ∀ i, 0 < i → i < j + 1 → (ino i).type ≠ 0)
    (R := fun ip t => ∃ i, Ialloced ino own held type i ip s t) ?_ ?_).mono fun r t ht => ?_
  · exact ⟨rfl, fun i hpos hlt => by omega⟩
  · rintro j hj t ⟨rfl, hused⟩
    have hlt : j + 1 < t.sb.ninodes := by omega
    have hdin : readDinode (t.disk (t.sb.IBLOCK (j + 1))) ((j + 1) % IPB * dinodeSize) =
        ino (j + 1) :=
      h.disk (j + 1) hlt nofun
    dsimp only
    rw [wp_bind, bread, wp_reads, hdin]
    split
    · next hfree =>
      refine wp_setLog _ _ hroom fun s₁ hw hdisk htable => ?_
      obtain ⟨hok, hdata⟩ := h.takeInode hlt hfree hw.sb htable hdisk
      rw [wp_bind]
      refine (iget_spec hok (htable ▸ hrefs) (hw.sb.symm ▸ hlt) (htable ▸ hfull)).mono
        fun ip s' hs' => ?_
      obtain ⟨hip, hok', itable', hgot, rfl⟩ := hs'
      rw [wp_pure]
      exact ⟨j + 1, Nat.succ_pos j, hlt, hfree, hip, hok', hdata,
        ⟨hw.sb, hw.outstanding⟩, htable ▸ hgot⟩
    · next htype =>
      rw [wp_pure]
      refine ⟨rfl, fun i hpos hle => ?_⟩
      rcases eq_or_ne i (j + 1) with rfl | hne
      · exact htype
      · exact hused i hpos (by omega)
  · cases r with
    | none => exact ⟨ht.1, fun i hpos hlt => ht.2 i hpos (by omega)⟩
    | some ip => exact ht

/-- The inodes have the same content. -/
structure Dinode.SameFile (d d' : Dinode) : Prop where
  type : d.type = d'.type
  size : d.size = d'.size
  addrs : d.addrs = d'.addrs

/-- Attributes of an inode change. -/
theorem FsOk.setAttrs (h : FsOk ino own held (· = i) s H) (hi : Allocated s.sb ino i) {d : Dinode}
    (hsame : d.SameFile (ino i)) : FsOk (update ino i d) own held (· = i) s H := by
  have hrepr := h.repr i hi.1
  have htype : d.type ≠ 0 := hsame.type ▸ hi.2
  refine h.change (d := d) (rfl : s.sb = s.sb) rfl ⟨?_, ?_, ?_⟩
    (h.blocks.retag h.sb hi htype hsame.addrs)
    (fun _ _ _ => rfl) (fun _ _ _ _ => rfl) (fun _ => ?_) fun _ hH k hk => ?_
  · exact hsame.size ▸ hrepr.size
  · exact hsame.addrs ▸ hrepr.addrs
  · exact hsame.addrs ▸ hrepr.unused
  · exact hsame.size ▸ h.sizes i hi
  · have hptr : d.ptr s.disk k = (ino i).ptr s.disk k := by simp only [Dinode.ptr, hsame.addrs]
    rw [hptr]
    exact h.noHoles i hi hH k (hsame.size ▸ hk)

/-- Attributes of a locked inode change, on the disk also. -/
theorem setAttrs_spec (h : FsOk ino own held Nothing s H) (hentry : Entry ip i (ino i) s)
    (htype : (ino i).type ≠ 0) (hroom : Room E s) {f : Dinode → Dinode}
    (hsame : (f (ino i)).SameFile (ino i)) :
    wp (setDin ip f >>= fun _ => iupdate ip) E
      (fun _ s' => FsOk (update ino i (f (ino i))) own held Nothing s' H ∧
        (∀ c, s.sb.nmeta ≤ c → s'.disk c = s.disk c) ∧ Within s s' ∧
        s'.itable = setDinAt s.itable ip (f (ino i))) s := by
  have hself : update ino i (f (ino i)) i = f (ino i) := update_self ..
  have hi : Allocated s.sb ino i := ⟨hentry.inum ▸ h.range ip hentry.ref, htype⟩
  have hbusy : FsOk ino own held (· = i) s H := h.weaken fun _ hno => hno.elim
  rw [wp_bind, wp_setDin, hentry.din]
  have hok₁ := (hbusy.setAttrs hi hsame).setDin hentry (f (ino i))
  have hentry₁ : Entry ip i (f (ino i)) { s with itable := setDinAt s.itable ip (f (ino i)) } :=
    hentry.setDin rfl
  refine wp.mono
    (iupdate_spec hok₁ ⟨hroom.1, hroom.2⟩ hentry₁.ref hentry₁.inum (hentry₁.din.trans hself.symm))
    fun _ s' hs' => ?_
  obtain ⟨hw, htable, hdata, hok, hdisk⟩ := hs'
  refine ⟨?_, hdata, ⟨hw.sb, hw.outstanding⟩, htable⟩
  refine hok.settle_entry (hself.symm ▸ hentry₁.of_itable htable) ?_ (hw.sb.symm ▸ hdisk)
  rw [hself, hsame.type]
  exact htype

end Table

end Xv6.Fs
