import Xv6.Fs.Names
import Xv6.Fs.Table

/-!
# Directories as tables of entries

* `Dinode.dirent`: the entry `k` of a directory, and `IsDir d m`: a directory with `m`
  entries.
* `readDirentAt_spec`, `dirlookup_spec`, `emptySlot_spec`, `isdirempty_spec`: the loops
  over the entries.
* `writeDirent_spec`: one entry is written, as a whole or not at all.
* `dirlink_spec`.
-/

namespace Xv6.Fs

open Xv6.Lib.Bytes Xv6.Lib.Wp

/-! ## Entries -/

/-- The entry `k` of a directory. -/
def Dinode.dirent (d : Dinode) (disk : Disk) (k : Nat) : Dirent :=
  readDirent (copyBytes (fun _ => 0) 0 (fun o => d.byte disk (k * direntSize + o)) 0 direntSize)

/-- A directory with `m` entries. -/
structure IsDir (d : Dinode) (m : Nat) : Prop where
  type : d.type = T_DIR
  size : d.size = m * direntSize

section Entries

variable {d d' : Dinode} {disk disk' : Disk} {k m : Nat}

/-- An entry depends on its bytes only. -/
theorem dirent_congr
    (h : ∀ o, o < direntSize →
      d'.byte disk' (k * direntSize + o) = d.byte disk (k * direntSize + o)) :
    d'.dirent disk' k = d.dirent disk k := by
  have hbuf : copyBytes (fun _ => 0) 0 (fun o => d'.byte disk' (k * direntSize + o)) 0 direntSize =
      copyBytes (fun _ => 0) 0 (fun o => d.byte disk (k * direntSize + o)) 0 direntSize := by
    funext a
    simp only [copyBytes]
    split
    · next ha => exact h _ (by omega)
    · rfl
  rw [Dinode.dirent, hbuf, Dinode.dirent]

theorem dirent_of_bytes {de : Dirent} (hde : de.Stored)
    (h : ∀ o, o < direntSize → d.byte disk (k * direntSize + o) = direntBytes de o) :
    d.dirent disk k = de := by
  have hbuf : copyBytes (fun _ => 0) 0 (fun o => d.byte disk (k * direntSize + o)) 0 direntSize =
      direntBytes de := by
    funext a
    simp only [copyBytes]
    split
    · next ha =>
      rw [Nat.zero_add, Nat.sub_zero]
      exact h a (by omega)
    · next ha =>
      simp only [direntSize] at ha
      rw [direntBytes, if_neg (by omega), hde.2 _ (by simp only [DIRSIZ]; omega)]
  rw [Dinode.dirent, hbuf]
  exact readDirent_direntBytes hde

theorem IsDir.rounds_eq (h : IsDir d m) : rounds d.size = m := by
  simp only [rounds, h.size, direntSize]
  omega

/-- The entry that `dirlink` writes. -/
def newDirent (name : Nat → UInt8) (inum : Nat) : Dirent :=
  ⟨inum % 2 ^ 16, strncpy (fun _ => 0) name DIRSIZ 0⟩

theorem newDirent_stored (name : Nat → UInt8) (inum : Nat) : (newDirent name inum).Stored :=
  ⟨Nat.mod_lt _ (by decide), fun a ha => strncpy_of_ge (by omega)⟩

theorem keyOf_newDirent (name : Nat → UInt8) (inum : Nat) :
    keyOf (newDirent name inum).name = keyOf name := key_strncpy

end Entries

/-! ## Reading -/

section Reading

variable {E : Panic → Prop} {ino : Nat → Dinode} {own : Owners} {held X : Nat → Prop}
  {s : Vol} {i ip k m : Nat}

theorem readDirentAt_spec (h : FsOk ino own held X s) (hdin : (s.itable ip).din = ino i)
    (hi : Allocated s.sb ino i) (hk : (k + 1) * direntSize ≤ (ino i).size) (e : Panic) :
    wp (readDirentAt ip (k * direntSize) e) E
      (fun de s' => s' = s ∧ de = (ino i).dirent s.disk k) s := by
  have hsize := (h.repr i hi.1).size
  have hlen : readLen (ino i).size (k * direntSize) direntSize = direntSize := by
    simp only [readLen, direntSize] at *
    omega
  rw [readDirentAt, wp_bind]
  refine (readi_spec h hdin hi (by decide)).mono fun r s' hs' => ?_
  obtain ⟨r, de⟩ := r
  obtain ⟨rfl, hr, hde⟩ := hs'
  change r = _ at hr
  change de = _ at hde
  rw [hlen] at hr hde
  rw [Mem.reach] at hr hde
  dsimp only at hr hde ⊢
  rw [if_pos rfl] at hr
  rw [if_neg (not_not_intro hr), wp_pure, hde]
  exact ⟨rfl, rfl⟩

/-- The entry `k` has the name that is looked for. -/
def Dirent.Matches (de : Dirent) (name : Nat → UInt8) : Prop :=
  de.inum ≠ 0 ∧ keyOf de.name = keyOf name

/-- `dirlookup` returned `r` for the entry `k` of the directory `d`. -/
structure Found (d : Dinode) (m k : Nat) (name : Nat → UInt8) (r : Nat × Nat)
    (s s' : Vol) : Prop where
  lt : k < m
  off : r.2 = k * direntSize
  named : (d.dirent s.disk k).Matches name
  bound : r.1 < NINODE
  table : ∃ itable', Got (d.dirent s.disk k).inum r.1 s.itable itable' ∧
    s' = { s with itable := itable' }

theorem dirlookup_spec (h : FsOk ino own held X s) (hdin : (s.itable ip).din = ino i)
    (hi : i < s.sb.ninodes) (hdir : IsDir (ino i) m) (hrefs : Refs s.itable)
    (hfull : (∀ e, e < NINODE → (s.itable e).ref ≠ 0) → E .igetNoInodes) (name : Nat → UInt8) :
    wp (dirlookup ip name) E (fun r s' => match r with
      | none => s' = s ∧ ∀ k, k < m → ¬ ((ino i).dirent s.disk k).Matches name
      | some p => ∃ k, Found (ino i) m k name p s s') s := by
  have halloc : Allocated s.sb ino i := ⟨hi, by rw [hdir.type]; decide⟩
  rw [dirlookup, wp_bind, inode, wp_reads, hdin, if_neg (not_not_intro hdir.type), hdir.rounds_eq]
  -- no entry before the entry `k` matches
  refine (wp_untilSome
    (I := fun k t => t = s ∧ ∀ l, l < k → ¬ ((ino i).dirent s.disk l).Matches name)
    (R := fun p t => ∃ k, Found (ino i) m k name p s t)
    ⟨rfl, fun l hl => absurd hl (Nat.not_lt_zero l)⟩ ?_).mono fun r t ht => by cases r <;> exact ht
  rintro k hk t ⟨rfl, hbefore⟩
  have hnext : ¬ ((ino i).dirent t.disk k).Matches name →
      ∀ l, l < k + 1 → ¬ ((ino i).dirent t.disk l).Matches name := by
    intro hnot l hl
    rcases Nat.lt_succ_iff_lt_or_eq.mp hl with hlt | rfl
    · exact hbefore l hlt
    · exact hnot
  rw [wp_bind]
  refine (readDirentAt_spec h hdin halloc ?_ _).mono fun de s' hs' => ?_
  · rw [hdir.size]
    exact Nat.mul_le_mul_right _ hk
  · obtain ⟨rfl, rfl⟩ := hs'
    split
    · next hzero =>
      rw [wp_pure]
      exact ⟨rfl, hnext fun hmatch => hmatch.1 hzero⟩
    · next hlive =>
      split
      · next hcmp =>
        rw [wp_bind]
        refine (iget_got hrefs hfull).mono fun ip' s'' hs'' => ?_
        obtain ⟨hip', itable', hgot, rfl⟩ := hs''
        rw [wp_pure]
        exact ⟨k, hk, rfl, ⟨hlive, (namecmp_eq_zero.mp hcmp).symm⟩, hip', itable', hgot, rfl⟩
      · next hcmp =>
        rw [wp_pure]
        exact ⟨rfl, hnext fun hmatch => hcmp (namecmp_eq_zero.mpr hmatch.2.symm)⟩

/-- `emptySlot` returns the first entry that is not in use, or the end of the directory. -/
theorem emptySlot_spec (h : FsOk ino own held X s) (hdin : (s.itable ip).din = ino i)
    (hi : i < s.sb.ninodes) (hdir : IsDir (ino i) m) :
    wp (emptySlot ip) E (fun off s' => s' = s ∧ ∃ k, k ≤ m ∧ off = k * direntSize ∧
      (k < m → ((ino i).dirent s.disk k).inum = 0)) s := by
  have halloc : Allocated s.sb ino i := ⟨hi, by rw [hdir.type]; decide⟩
  rw [emptySlot, wp_bind, inode, wp_reads, hdin, hdir.rounds_eq, wp_bind]
  refine (wp_untilSome (I := fun _ t => t = s) (R := fun off t => t = s ∧ ∃ k, k < m ∧
    off = k * direntSize ∧ ((ino i).dirent s.disk k).inum = 0) rfl ?_).mono fun r t ht => ?_
  · rintro k hk t rfl
    rw [wp_bind]
    refine (readDirentAt_spec h hdin halloc ?_ _).mono fun de s' hs' => ?_
    · rw [hdir.size]
      exact Nat.mul_le_mul_right _ hk
    · obtain ⟨rfl, rfl⟩ := hs'
      rw [wp_pure]
      split
      · next hnone =>
        split at hnone
        · cases hnone
        · rfl
      · next off hsome =>
        split at hsome
        · next hzero =>
          cases hsome
          exact ⟨rfl, k, hk, rfl, hzero⟩
        · cases hsome
  · rw [wp_pure]
    cases r with
    | none => exact ⟨ht, m, Nat.le_refl m, rfl, fun hlt => absurd hlt (Nat.lt_irrefl m)⟩
    | some off =>
      obtain ⟨rfl, k, hk, hoff, hzero⟩ := ht
      exact ⟨rfl, k, Nat.le_of_lt hk, hoff, fun _ => hzero⟩

theorem isdirempty_spec (h : FsOk ino own held X s) (hdin : (s.itable ip).din = ino i)
    (hi : i < s.sb.ninodes) (hdir : IsDir (ino i) m) :
    wp (isdirempty ip) E (fun r s' => s' = s ∧
      (r = true ↔ ∀ k, 2 ≤ k → k < m → ((ino i).dirent s.disk k).inum = 0)) s := by
  have halloc : Allocated s.sb ino i := ⟨hi, by rw [hdir.type]; decide⟩
  rw [isdirempty, wp_bind, inode, wp_reads, hdin, hdir.rounds_eq, wp_bind]
  refine (wp_untilSome (I := fun j t => t = s ∧ ∀ k, 2 ≤ k → k < j + 2 →
    ((ino i).dirent s.disk k).inum = 0) (R := fun _ t => t = s ∧ ∃ k, 2 ≤ k ∧ k < m ∧
    ((ino i).dirent s.disk k).inum ≠ 0) ⟨rfl, fun k hlow hhigh => by omega⟩ ?_).mono
      fun r t ht => ?_
  · rintro j hj t ⟨rfl, hempty⟩
    rw [wp_bind]
    refine (readDirentAt_spec h hdin halloc ?_ _).mono fun de s' hs' => ?_
    · rw [hdir.size]
      exact Nat.mul_le_mul_right _ (by omega)
    · obtain ⟨rfl, rfl⟩ := hs'
      rw [wp_pure]
      split
      · next hnone =>
        split at hnone
        · cases hnone
        · next hzero =>
          refine ⟨rfl, fun k hlow hhigh => ?_⟩
          rcases eq_or_ne k (j + 2) with rfl | hne
          · exact not_not.mp hzero
          · exact hempty k hlow (by omega)
      · next hsome =>
        split at hsome
        · next hlive => exact ⟨rfl, j + 2, by omega, by omega, hlive⟩
        · cases hsome
  · rw [wp_pure]
    cases r with
    | none => exact ⟨ht.1, iff_of_true rfl fun k hlow hhigh => ht.2 k hlow (by omega)⟩
    | some _ =>
      obtain ⟨rfl, k, hlow, hhigh, hlive⟩ := ht
      exact ⟨rfl, iff_of_false Bool.false_ne_true fun hempty => hlive (hempty k hlow hhigh)⟩

end Reading

/-! ## Writing -/

/-- The entry `k` of the directory `i` has been written, if `done` says so, and nothing else
has changed. -/
structure EntrySet (ino : Nat → Dinode) (held : Nat → Prop) (i k : Nat) (de : Dirent) (done : Bool)
    (d' : Dinode) (own' : Owners) (s s' : Vol) : Prop where
  ok : FsOk (Function.update ino i d') own' held Nothing s'
  attrs : d' = { ino i with size := d'.size, addrs := d'.addrs }
  size : d'.size = if done then max (ino i).size ((k + 1) * direntSize) else (ino i).size
  others : ∀ j, Allocated s.sb ino j → j ≠ i → KeptFile s.disk s'.disk (ino j)
  entries : ∀ l, (l + 1) * direntSize ≤ d'.size →
    d'.dirent s'.disk l = if done = true ∧ l = k then de else (ino i).dirent s.disk l

/-- Both tables have the same references. -/
structure SameUse (itable itable' : Nat → Inode) : Prop where
  ref : ∀ e, (itable' e).ref = (itable e).ref
  used : ∀ e, 0 < (itable e).ref → itable' e = itable e

theorem SameUse.refl (itable : Nat → Inode) : SameUse itable itable :=
  ⟨fun _ => rfl, fun _ _ => rfl⟩

theorem SameUse.update {itable : Nat → Inode} {e : Nat} {x : Inode} (hunused : (itable e).ref = 0)
    (hx : x.ref = 0) : SameUse itable (Function.update itable e x) := by
  refine ⟨fun e' => ?_, fun e' href => ?_⟩
  · rcases eq_or_ne e' e with rfl | hne
    · rw [Function.update_self, hx, hunused]
    · rw [Function.update_of_ne hne]
  · refine Function.update_of_ne ?_ _ _
    rintro rfl
    omega

theorem SameUse.refs {itable itable' : Nat → Inode} (h : SameUse itable itable')
    (hrefs : Refs itable) :
    Refs itable' :=
  ⟨fun e => (h.ref e).symm ▸ hrefs.nonneg e, fun e href => hrefs.bound e (h.ref e ▸ href)⟩

section Writing

variable {E : Panic → Prop} {ino : Nat → Dinode} {own : Owners} {held : Nat → Prop}
  {s : Vol} {i ip k m : Nat}

/-- An entry lies in one block, so it is written as a whole or not at all. -/
theorem writeDirent_spec (h : FsOk ino own held Nothing s) (hentry : Entry ip i (ino i) s)
    (hdir : IsDir (ino i) m) (hk : k ≤ m) (hroom : Room E s) {de : Dirent} (hde : de.Stored) :
    wp (writei ip ⟨direntBytes de, none⟩ (k * direntSize) direntSize) E (fun r s' => ∃ d' own',
      EntrySet ino held i k de (r = direntSize) d' own' s s' ∧ Within s s' ∧
      s'.itable = setDinAt s.itable ip d') s := by
  have hi : Allocated s.sb ino i := ⟨hentry.inum ▸ h.range ip hentry.ref, by rw [hdir.type]; decide⟩
  have hmax := h.sizes i hi
  have hoff : k * direntSize ≤ (ino i).size := by
    rw [hdir.size]
    exact Nat.mul_le_mul_right _ hk
  rcases Nat.lt_or_ge (MAXFILE * BSIZE) (k * direntSize + direntSize) with hbig | hfits
  · have hsum : (k * direntSize + direntSize) % 2 ^ 32 = k * direntSize + direntSize := by
      refine Nat.mod_eq_of_lt
        (Nat.lt_of_le_of_lt (Nat.add_le_add_right (Nat.le_trans hoff hmax) _) ?_)
      decide
    rw [writei, wp_bind, inode, wp_reads, hentry.din, hsum, if_neg (by omega), if_pos hbig, wp_pure]
    refine ⟨ino i, own, ⟨?_, rfl, ?_, fun j _ _ => KeptFile.refl _ _, fun l _ => ?_⟩,
      Within.refl s, (setDinAt_self hentry.din).symm⟩
    · rwa [Function.update_eq_self]
    · rfl
    · rfl
  · refine (writei_spec h hentry hi.2 hroom hoff hfits).mono fun r s' hs' => ?_
    obtain ⟨tot, d', own', rfl, htot, hstops, hwrote, hw, htable⟩ := hs'
    have hsize : d'.size = max (ino i).size (k * direntSize + tot) := by rw [hwrote.attrs]
    have hattrs : d' = { ino i with size := d'.size, addrs := d'.addrs } := by
      rw [hsize]
      exact hwrote.attrs
    have hcases : tot = 0 ∨ tot = direntSize := by
      rcases Nat.lt_or_ge tot direntSize with hlt | hge
      · refine .inl ((hstops hlt).2.elim id fun hend => ?_)
        simp only [direntSize, BSIZE] at *
        omega
      · exact .inr (Nat.le_antisymm htot hge)
    -- the bytes of the other entries are kept
    have hkept : ∀ l, (l + 1) * direntSize ≤ (ino i).size → l ≠ k ∨ tot = 0 →
        d'.dirent s'.disk l = (ino i).dirent s.disk l := by
      intro l hl hother
      refine dirent_congr fun o ho => hwrote.kept _ ?_ ?_
      · rw [Nat.succ_mul] at hl
        omega
      · rcases Nat.lt_or_ge (l * direntSize + o) (k * direntSize) with hbefore | hafter
        · exact .inl hbefore
        · refine .inr (.inr ⟨Mem.not_short rfl _, ?_⟩)
          simp only [direntSize] at *
          omega
    refine ⟨d', own', ⟨hwrote.ok, hattrs, ?_, hwrote.others, fun l hl => ?_⟩, hw, htable⟩
    · rcases hcases with rfl | rfl
      · rw [hsize, if_neg (by decide)]
        omega
      · rw [hsize, if_pos (by decide), Nat.succ_mul]
    · rcases hcases with rfl | rfl
      · rw [if_neg fun hdone => absurd hdone.1 (by decide)]
        refine hkept l ?_ (.inr rfl)
        omega
      · rcases eq_or_ne l k with rfl | hne
        · rw [if_pos ⟨by decide, rfl⟩]
          refine dirent_of_bytes hde fun o ho => ?_
          rw [hwrote.filled _ (Nat.le_add_right _ _) (by omega), Nat.add_sub_cancel_left]
        · rw [if_neg fun hdone => hne hdone.2]
          refine hkept l ?_ (.inl hne)
          have hm := hdir.size
          simp only [direntSize] at *
          omega

/-- `iput` of an inode that is still in use. -/
theorem iput_keep {Q : Unit → Vol → Prop}
    (hkeep : ¬ ((s.itable ip).ref = 1 ∧ (s.itable ip).valid = true)) :
    wp (iput ip) E Q s ↔
      Q () (s.setEntry ip { s.itable ip with ref := (s.itable ip).ref - 1 }) := by
  rw [iput, wp_bind, inode, wp_reads, if_neg fun hlast => hkeep ⟨hlast.1, hlast.2.1⟩, wp_bind,
    wp_pure, wp_setInode]

/-- `iput` of an inode that `dirlookup` has returned takes the reference back. -/
theorem iput_got {X : Nat → Prop} {inum ip' : Nat} {itable' : Nat → Inode}
    (h : FsOk ino own held X s) (hgot : Got inum ip' s.itable itable') :
    wp (iput ip') E (fun _ s' => FsOk ino own held X s' ∧ SameUse s.itable s'.itable ∧
      s' = { s with itable := s'.itable }) { s with itable := itable' } := by
  cases hgot with
  | found href hinum =>
    change wp _ _ _ (s.setEntry ip' { s.itable ip' with ref := (s.itable ip').ref + 1 })
    have hsame : ∀ t, t = s → FsOk ino own held X t ∧ SameUse s.itable t.itable ∧
        t = { s with itable := t.itable } := by
      rintro t rfl
      exact ⟨h, SameUse.refl _, rfl⟩
    rw [iput_keep, setEntry_self, setEntry_setEntry]
    · refine hsame (s.setEntry ip' { s.itable ip' with ref := (s.itable ip').ref + 1 - 1 }) ?_
      rw [Int.add_sub_cancel]
      show ({ s with itable := Function.update s.itable ip' (s.itable ip') } : Vol) = s
      rw [Function.update_eq_self]
    · rw [setEntry_self]
      show ¬ ((s.itable ip').ref + 1 = 1 ∧ _)
      omega
  | added href hnone =>
    change wp _ _ _ (s.setEntry ip' { s.itable ip' with inum, ref := 1, valid := false })
    rw [iput_keep, setEntry_self, setEntry_setEntry]
    · refine ⟨h.setEntry ip' _ ?_ ?_, SameUse.update href rfl, rfl⟩
      · exact fun hpos => absurd hpos (show ¬ (0 : Int) < 1 - 1 by decide)
      · exact fun hpos => absurd hpos (show ¬ (0 : Int) < 1 - 1 by decide)
    · rw [setEntry_self]
      exact fun hlast => Bool.false_ne_true hlast.2

/-- What `dirlink` did to the directory `i` with `m` entries: `r` is its result, and `k` the
entry that it chose. -/
structure Linked (ino : Nat → Dinode) (held : Nat → Prop) (i ip m k : Nat) (name : Nat → UInt8)
    (inum : Nat) (r : Int) (d' : Dinode) (own' : Owners) (s s' : Vol) : Prop where
  result : r = 0 ∨ r = -1
  le : k ≤ m
  empty : k < m → ((ino i).dirent s.disk k).inum = 0
  fresh : r = 0 → ∀ l, l < m → ¬ ((ino i).dirent s.disk l).Matches name
  entry : EntrySet ino held i k (newDirent name inum) (r = 0) d' own' s s'
  within : Within s s'
  itable : SameUse (setDinAt s.itable ip d') s'.itable

theorem dirlink_spec (h : FsOk ino own held Nothing s) (hentry : Entry ip i (ino i) s)
    (hdir : IsDir (ino i) m) (hrefs : Refs s.itable) (hroom : Room E s)
    (hfull : (∀ e, e < NINODE → (s.itable e).ref ≠ 0) → E .igetNoInodes) (name : Nat → UInt8)
    (inum : Nat) :
    wp (dirlink ip name inum) E
      (fun r s' => ∃ k d' own', Linked ino held i ip m k name inum r d' own' s s') s := by
  have hi : i < s.sb.ninodes := hentry.inum ▸ h.range ip hentry.ref
  rw [dirlink, wp_bind]
  refine (dirlookup_spec h hentry.din hi hdir hrefs hfull name).mono fun r s₁ h₁ => ?_
  cases r with
  | some p =>
    obtain ⟨ip', off⟩ := p
    obtain ⟨k, hfound⟩ := h₁
    obtain ⟨itable', hgot, rfl⟩ := hfound.table
    dsimp only
    rw [wp_bind]
    refine (iput_got h hgot).mono fun _ s' hs' => ?_
    obtain ⟨hok, huse, hsame⟩ := hs'
    rw [wp_pure]
    have hdisk : s'.disk = s.disk := by rw [hsame]
    refine ⟨m, ino i, own, .inr rfl, Nat.le_refl m, fun hlt => absurd hlt (Nat.lt_irrefl m),
      fun hzero => absurd hzero (by decide), ⟨?_, rfl, rfl, fun j _ _ => ?_, fun l _ => ?_⟩, ?_, ?_⟩
    · rwa [Function.update_eq_self]
    · rw [hdisk]
      exact KeptFile.refl _ _
    · rw [hdisk]
      rfl
    · rw [hsame]
      exact ⟨rfl, rfl⟩
    · rwa [setDinAt_self hentry.din]
  | none =>
    obtain ⟨rfl, hnone⟩ := h₁
    dsimp only
    rw [wp_bind]
    refine (emptySlot_spec h hentry.din hi hdir).mono fun off s₂ h₂ => ?_
    obtain ⟨rfl, k, hk, rfl, hempty⟩ := h₂
    rw [wp_bind]
    refine (writeDirent_spec h hentry hdir hk hroom (newDirent_stored name inum)).mono
      fun r s' hs' => ?_
    obtain ⟨d', own', hset, hw, htable⟩ := hs'
    rw [wp_pure]
    have hdone : decide ((if r ≠ direntSize then (-1 : Int) else 0) = 0) =
        decide (r = direntSize) := by
      split
      · next hne => rw [decide_eq_false hne]; rfl
      · next heq => rw [decide_eq_true (not_not.mp heq)]; rfl
    refine ⟨k, d', own', ?_, hk, hempty, fun _ => hnone, ?_, hw, htable ▸ SameUse.refl _⟩
    · split
      · exact .inr rfl
      · exact .inl rfl
    · rw [hdone]
      exact hset

end Writing

end Xv6.Fs
