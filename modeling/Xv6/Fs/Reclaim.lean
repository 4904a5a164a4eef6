import Mathlib.Data.Finset.Card
import Mathlib.Order.Interval.Finset.Nat
import Xv6.Fs.Arrays
import Xv6.Fs.Table

/-!
# Orphans

`ireclaim` of `fs.c`: when the kernel starts, every inode that is allocated but has no links is
freed, each in a transaction of its own.

* `ireclaimOne`, `ireclaim`.
* `LogIn`: which blocks the log holds.  `itrunc` hands map blocks to the log over and over, but
  it fills the log up only if there are too many different ones of them.
* `Freeing`, `iput_log`: `iput` of an inode with few map blocks stays inside of its transaction.
* `Idle`, `Swept`: the state between two inodes, and how far the scan has come.
* `ireclaim_correct`, `ireclaim_too_big`.
-/

namespace Xv6.Fs

open Xv6.Lib.Bytes Xv6.Lib.Wp
open Function (update update_of_ne update_self)

/-- The body of the loop of `ireclaim`. -/
def ireclaimOne (inum : Nat) : FsM Unit := do
  let sb ← reads Vol.sb
  let blk ← bread (sb.IBLOCK inum)
  let dip := readDinode blk (inum % IPB * dinodeSize)
  if dip.type ≠ 0 ∧ dip.nlink = 0 then
    let ip ← iget inum
    beginOp
    ilock ip
    iunlock ip
    iput ip
    endOp
  else pure ()

/-- Free the inodes that a crash has left without links. -/
def ireclaim : FsM Unit := do
  let sb ← reads Vol.sb
  forRange (fun j => ireclaimOne (j + 1)) (sb.ninodes - 1)

/-! ## The log of a transaction that frees an inode -/

/-- The map blocks of the blocks of the inode `i`. -/
def Vol.mapBlocks (s : Vol) (i : Nat) : Finset Nat :=
  ((Finset.range (MAXFILE + 1)).filter fun k => (s.dinode i).ptr s.disk k ≠ 0).image
    fun k => s.sb.BBLOCK ((s.dinode i).ptr s.disk k)

/-- The log holds blocks of `L` only, each of them once. -/
structure LogIn (L : Finset Nat) (s : Vol) : Prop where
  nodup : s.lh.Nodup
  mem : ∀ b ∈ s.lh, b ∈ L

section Log

variable {L : Finset Nat} {s t : Vol} {i ip b k : Nat}

theorem bblock_mem_mapBlocks (hk : k ≤ MAXFILE) (hne : (s.dinode i).ptr s.disk k ≠ 0) :
    s.sb.BBLOCK ((s.dinode i).ptr s.disk k) ∈ s.mapBlocks i := by
  refine Finset.mem_image_of_mem _ (Finset.mem_filter.mpr ⟨?_, hne⟩)
  exact Finset.mem_range_succ_iff.mpr hk

/-- A disk has as many map blocks as it needs for all of its blocks. -/
theorem card_mapBlocks_le (h : ∀ k, k ≤ MAXFILE → (s.dinode i).ptr s.disk k ≠ 0 →
    (s.dinode i).ptr s.disk k < s.sb.size) :
    (s.mapBlocks i).card ≤ (s.sb.size + BPB - 1) / BPB := by
  have hsub : s.mapBlocks i ⊆
      Finset.Ico s.sb.bmapstart (s.sb.bmapstart + (s.sb.size + BPB - 1) / BPB) := by
    intro b hb
    obtain ⟨k, hk, rfl⟩ := Finset.mem_image.mp hb
    obtain ⟨hle, hne⟩ := Finset.mem_filter.mp hk
    have hlt := h k (Finset.mem_range_succ_iff.mp hle) hne
    rw [Finset.mem_Ico]
    simp only [Superblock.BBLOCK, BPB]
    omega
  have hcard := Finset.card_le_card hsub
  rwa [Nat.card_Ico, Nat.add_sub_cancel_left] at hcard

/-- A log that holds few different blocks takes another one of them. -/
theorem logWrite_logIn (hL : L.card < LOGBLOCKS) (h : LogIn L s) (hb : b ∈ L) :
    wp (logWrite b) (· ≠ .logTooBig) (fun _ t => LogIn L t ∧ ∃ lh, t = { s with lh }) s := by
  have hlen : s.lh.length ≤ L.card := by
    rw [← List.toFinset_card_of_nodup h.nodup]
    exact Finset.card_le_card fun c hc => h.mem c (List.mem_toFinset.mp hc)
  rw [logWrite, wp_bind, wp_reads, wp_bind, wp_reads, if_neg (by omega)]
  split
  · rw [wp_throw]
    simp
  · rw [wp_updates]
    refine ⟨?_, _, rfl⟩
    by_cases hmem : b ∈ s.lh
    · rw [if_pos hmem]
      exact h
    · rw [if_neg hmem]
      refine ⟨List.nodup_append.mpr ⟨h.nodup, List.nodup_singleton b, ?_⟩, fun c hc => ?_⟩
      · intro c hc d hd
        rw [List.mem_singleton.mp hd]
        exact ne_of_mem_of_not_mem hc hmem
      · rcases List.mem_append.mp hc with hc | hc
        · exact h.mem c hc
        · rwa [List.mem_singleton.mp hc]

/-! ## Freeing an inode -/

/-- While the inode in the entry `ip` is freed: its addresses are what they were or have been
cleared, and no data block has changed. -/
structure Freeing (L : Finset Nat) (ip : Nat) (s t : Vol) : Prop where
  log : LogIn L t
  sb : t.sb = s.sb
  inum : (t.itable ip).inum = (s.itable ip).inum
  addrs : ∀ k, (t.itable ip).din.addrs k = 0 ∨ (t.itable ip).din.addrs k = (s.itable ip).din.addrs k
  data : ∀ c, s.sb.nmeta ≤ c → t.disk c = s.disk c

/-- The data block `b`, whose map block is one of `L`. -/
structure Freeable (s : Vol) (L : Finset Nat) (b : Nat) : Prop where
  data : s.sb.nmeta ≤ b
  lt : b < s.sb.size
  bblock : s.sb.BBLOCK b ∈ L

/-- The inode in the entry `ip` can be freed: its pointers are data blocks, and the log has room
for the blocks `L`, among them all that freeing it changes. -/
structure CanFree (L : Finset Nat) (ip : Nat) (s : Vol) : Prop where
  card : L.card < LOGBLOCKS
  sb : s.sb.Wf
  inum : (s.itable ip).inum < s.sb.ninodes
  iblock : s.sb.IBLOCK (s.itable ip).inum ∈ L
  ptr : ∀ k, k ≤ MAXFILE → (s.itable ip).din.ptr s.disk k ≠ 0 →
    Freeable s L ((s.itable ip).din.ptr s.disk k)

/-- The entry changes, but no address gets another value. -/
theorem Freeing.setInode (h : Freeing L ip s t) {f : Inode → Inode}
    (hinum : (f (t.itable ip)).inum = (t.itable ip).inum)
    (haddrs : ∀ k, (f (t.itable ip)).din.addrs k = 0 ∨
      (f (t.itable ip)).din.addrs k = (t.itable ip).din.addrs k) :
    wp (setInode ip f) (· ≠ .logTooBig) (fun _ u => Freeing L ip s u) t := by
  rw [wp_setInode]
  refine ⟨⟨h.log.nodup, h.log.mem⟩, h.sb, ?_, fun k => ?_, h.data⟩
  · rw [setEntry_self, hinum]
    exact h.inum
  · rw [setEntry_self]
    rcases haddrs k with hzero | heq
    · exact .inl hzero
    · rw [heq]
      exact h.addrs k

/-- A block of the metadata is changed and handed to the log. -/
theorem Freeing.setLog (hcan : CanFree L ip s) (h : Freeing L ip s t) (hb : b ∈ L)
    (hmeta : b < s.sb.nmeta) (f : Block → Block) :
    wp (setBlock b f >>= fun _ => logWrite b) (· ≠ .logTooBig)
      (fun _ u => Freeing L ip s u ∧ u.itable = t.itable) t := by
  rw [wp_bind, setBlock, wp_updates]
  have hlog : LogIn L { t with disk := update t.disk b (f (t.disk b)) } := ⟨h.log.nodup, h.log.mem⟩
  refine (logWrite_logIn hcan.card hlog hb).mono fun _ u hu => ?_
  obtain ⟨hlog', lh, rfl⟩ := hu
  refine ⟨⟨hlog', h.sb, h.inum, h.addrs, fun c hc => ?_⟩, rfl⟩
  have hne : c ≠ b := by omega
  exact (update_of_ne hne ..).trans (h.data c hc)

theorem Freeing.bfree (hcan : CanFree L ip s) (h : Freeing L ip s t) (hb : Freeable s L b) :
    wp (bfree b) (· ≠ .logTooBig) (fun _ u => Freeing L ip s u ∧ u.itable = t.itable) t := by
  rw [Fs.bfree, wp_bind, wp_reads, wp_bind, bread, wp_reads]
  split
  · rw [wp_throw]
    simp
  · rw [h.sb]
    exact h.setLog hcan hb.bblock (hcan.sb.bblock_lt hb.lt) _

theorem Freeing.iupdate (hcan : CanFree L ip s) (h : Freeing L ip s t) :
    wp (iupdate ip) (· ≠ .logTooBig) (fun _ u => Freeing L ip s u) t := by
  have hmeta : s.sb.bmapstart ≤ s.sb.nmeta := Nat.le_trans (Nat.le_add_right _ _) hcan.sb.bitmap
  rw [Fs.iupdate, wp_bind, inode, wp_reads, wp_bind, wp_reads, h.sb, h.inum]
  refine (h.setLog hcan hcan.iblock ?_ _).mono fun _ u hu => hu.1
  exact Nat.lt_of_lt_of_le (hcan.sb.iblock_lt hcan.inum) hmeta

/-- An address that is not zero is a pointer of the inode. -/
theorem Freeing.freeable (hcan : CanFree L ip s) (h : Freeing L ip s t) (hk : k ≤ NDIRECT)
    (hne : (t.itable ip).din.addrs k ≠ 0) :
    (t.itable ip).din.addrs k = (s.itable ip).din.addrs k ∧
      Freeable s L ((t.itable ip).din.addrs k) := by
  have heq := (h.addrs k).resolve_left hne
  rw [heq] at hne ⊢
  refine ⟨rfl, ?_⟩
  rcases Nat.lt_or_eq_of_le hk with hlt | rfl
  · have hptr := hcan.ptr k (Nat.le_trans hk (by decide))
    rw [ptr_direct hlt] at hptr
    exact hptr hne
  · have hptr := hcan.ptr MAXFILE (Nat.le_refl _)
    rw [ptr_indirect] at hptr
    exact hptr hne

/-- An address is cleared. -/
theorem Freeing.clear (h : Freeing L ip s t) (k : Nat) :
    wp (setDin ip fun d => { d with addrs := update d.addrs k 0 }) (· ≠ .logTooBig)
      (fun _ u => Freeing L ip s u) t := by
  refine h.setInode rfl fun l => ?_
  rcases eq_or_ne l k with rfl | hne
  · exact .inl (update_self ..)
  · exact .inr (update_of_ne hne ..)

theorem Freeing.truncDirect (hcan : CanFree L ip s) (h : Freeing L ip s t) (hk : k < NDIRECT) :
    wp (truncDirect ip k) (· ≠ .logTooBig) (fun _ u => Freeing L ip s u) t := by
  rw [Fs.truncDirect, wp_bind, inode, wp_reads]
  split
  · rw [wp_pure]
    exact h
  · next hne =>
    rw [wp_bind]
    exact (h.bfree hcan (h.freeable hcan (Nat.le_of_lt hk) hne).2).mono fun _ u hu => hu.1.clear k

theorem Freeing.truncSlot (hcan : CanFree L ip s) (h : Freeing L ip s t) (hk : k < NINDIRECT)
    (hind : (s.itable ip).din.addrs NDIRECT ≠ 0)
    (hmeta : s.sb.nmeta ≤ (s.itable ip).din.addrs NDIRECT) :
    wp (truncSlot ((s.itable ip).din.addrs NDIRECT) k) (· ≠ .logTooBig)
      (fun _ u => Freeing L ip s u ∧ u.itable = t.itable) t := by
  have hmax : NDIRECT + k < MAXFILE := Nat.add_lt_add_left hk _
  have hptr := hcan.ptr (NDIRECT + k) (Nat.le_of_lt hmax)
  rw [ptr_slot (Nat.le_add_right _ _) hmax, if_neg hind, Nat.add_sub_cancel_left] at hptr
  rw [Fs.truncSlot, wp_bind, bread, wp_reads, h.data _ hmeta]
  split
  · rw [wp_pure]
    exact ⟨h, rfl⟩
  · next hne => exact h.bfree hcan (hptr hne)

theorem Freeing.itrunc (hcan : CanFree L ip s) (h : Freeing L ip s t) :
    wp (itrunc ip) (· ≠ .logTooBig) (fun _ u => Freeing L ip s u) t := by
  rw [Fs.itrunc, wp_bind]
  refine (wp_forRange (I := fun _ => Freeing L ip s) h fun k hk u hu => hu.truncDirect hcan hk).mono
    fun _ u hu => ?_
  rw [wp_bind, inode, wp_reads, wp_bind]
  have hend : ∀ v, Freeing L ip s v →
      wp (setDin ip (fun d => { d with size := 0 }) >>= fun _ => Fs.iupdate ip)
      (· ≠ .logTooBig) (fun _ w => Freeing L ip s w) v := by
    intro v hv
    rw [wp_bind, setDin]
    exact (hv.setInode rfl fun _ => .inr rfl).mono fun _ w hw => hw.iupdate hcan
  split
  · rw [wp_pure]
    exact hend u hu
  · next hind =>
    obtain ⟨heq, hfree⟩ := hu.freeable hcan (Nat.le_refl _) hind
    rw [heq] at hind hfree ⊢
    rw [wp_bind]
    refine (wp_forRange (I := fun _ => Freeing L ip s) hu fun k hk v hv =>
      (hv.truncSlot hcan hk hind hfree.data).mono fun _ w hw => hw.1).mono fun _ v hv => ?_
    rw [wp_bind]
    refine (hv.bfree hcan hfree).mono fun _ w hw => ?_
    exact (hw.1.clear NDIRECT).mono fun _ x hx => hend x hx

/-- `iput` does not fill the log up. -/
theorem iput_log (hcan : CanFree L ip s) (h : LogIn L s) :
    wp (iput ip) (· ≠ .logTooBig) (fun _ _ => True) s := by
  have hstart : Freeing L ip s s := ⟨h, rfl, rfl, fun _ => .inr rfl, fun _ _ => rfl⟩
  rw [iput, wp_bind, inode, wp_reads, wp_bind]
  split
  · rw [ifree, wp_bind, acquiresleep, wp_bind, inode, wp_reads]
    split
    · rw [wp_throw]
      simp
    · refine (hstart.setInode rfl fun _ => .inr rfl).mono fun _ t ht => ?_
      rw [wp_bind]
      refine (ht.itrunc hcan).mono fun _ u hu => ?_
      rw [wp_bind, setDin]
      refine (hu.setInode rfl fun _ => .inr rfl).mono fun _ v hv => ?_
      rw [wp_bind]
      refine (hv.iupdate hcan).mono fun _ w _ => ?_
      rw [wp_bind, wp_setInode, wp_setInode, wp_setInode]
      trivial
  · rw [wp_pure, wp_setInode]
    trivial

end Log

/-! ## The scan -/

/-- An allocated inode without links. -/
def Dinode.Orphan (d : Dinode) : Prop := d.type ≠ 0 ∧ d.nlink = 0

instance (d : Dinode) : Decidable d.Orphan := inferInstanceAs (Decidable (_ ∧ _))

/-- Nobody uses an inode, and there is no transaction. -/
structure Idle (s : Vol) : Prop where
  ref : ∀ e, (s.itable e).ref = 0
  locked : ∀ e, (s.itable e).locked = false
  outstanding : s.outstanding = 0
  lh : s.lh = []

section Scan

variable {ino : Nat → Dinode} {own : Owners} {H : Nat → Prop} {s t : Vol} {i n : Nat}

theorem Idle.refs (h : Idle s) : Refs s.itable where
  nonneg e := (h.ref e).ge
  bound e href := absurd (h.ref e) href.ne'

theorem FsOk.dinode_read (h : FsOk ino own Nothing Nothing s H) (hi : i < s.sb.ninodes) :
    readDinode (s.disk (s.sb.IBLOCK i)) (i % IPB * dinodeSize) = ino i := h.disk i hi nofun

/-- The entry `ip` has the orphan `i`, which nobody else uses, in a transaction that has
logged nothing yet. -/
structure Opened (ino : Nat → Dinode) (own : Owners) (H : Nat → Prop) (s : Vol) (i ip : Nat)
    (t : Vol) : Prop where
  ok : FsOk ino own Nothing Nothing t H
  entry : t.itable ip = ⟨i, 1, false, true, ino i⟩
  others : ∀ e, e ≠ ip → t.itable e = s.itable e
  sb : t.sb = s.sb
  disk : t.disk = s.disk
  lh : t.lh = []
  outstanding : t.outstanding = 1

/-- `ireclaim` opens an orphan before it frees it. -/
theorem wp_open {rest : Nat → FsM Unit} {Q : Unit → Vol → Prop}
    (h : FsOk ino own Nothing Nothing s H) (hidle : Idle s) (hi : i < s.sb.ninodes)
    (horphan : (ino i).Orphan)
    (hrest : ∀ ip t, Opened ino own H s i ip t → wp (rest ip) (fun _ => False) Q t) :
    wp (do let ip ← iget i; beginOp; ilock ip; iunlock ip; rest ip) (fun _ => False) Q s := by
  rw [wp_bind]
  refine (iget_spec h hidle.refs hi fun hfull => hfull 0 (by decide) (hidle.ref 0)).mono
    fun ip s₁ hs₁ => ?_
  obtain ⟨-, hok₁, itable', hgot, rfl⟩ := hs₁
  cases hgot with
  | found href => exact absurd (hidle.ref ip) href.ne'
  | added href hnone =>
    rw [wp_bind, beginOp, wp_updates]
    generalize hs₂ : ({ s with
      itable := update s.itable ip { s.itable ip with inum := i, ref := 1, valid := false }
      outstanding := s.outstanding + 1 } : Vol) = s₂
    have hok₂ : FsOk ino own Nothing Nothing s₂ H := hs₂ ▸ hok₁.setLog rfl rfl rfl
    have hentry₂ : s₂.itable ip = { s.itable ip with inum := i, ref := 1, valid := false } := by
      rw [← hs₂]
      exact update_self ..
    rw [wp_bind]
    refine (ilock_spec hok₂ (i := i) ?_ ?_ ?_ fun hfree => horphan.1 hfree).mono fun _ s₃ hs₃ => ?_
    · rw [hentry₂]
      exact Int.one_pos
    · rw [hentry₂]
    · rw [hentry₂]
      exact fun hlocked => Bool.false_ne_true ((hidle.locked ip).symm.trans hlocked)
    obtain ⟨-, hok₃, rfl⟩ := hs₃
    rw [wp_bind]
    refine (iunlock_spec hok₃ ?_ ?_).mono fun _ s₄ hs₄ => ?_
    · rw [setEntry_self, hentry₂]
      exact Int.one_pos
    · rw [setEntry_self]
      simp
    obtain ⟨hok₄, rfl⟩ := hs₄
    rw [setEntry_setEntry, setEntry_self, hentry₂] at hok₄ ⊢
    subst hs₂
    refine hrest ip _ ⟨hok₄, setEntry_self .., fun e hne => ?_, rfl, rfl, hidle.lh,
      congrArg (· + 1) hidle.outstanding⟩
    rw [setEntry_of_ne _ _ hne]
    exact update_of_ne hne ..

theorem Opened.canFree {ip : Nat} (ht : Opened ino own H s i ip t)
    (h : FsOk ino own Nothing Nothing s H) (hmap : (s.mapBlocks i).card + 1 < LOGBLOCKS)
    (hi : i < s.sb.ninodes) (horphan : (ino i).Orphan) :
    CanFree (insert (s.sb.IBLOCK i) (s.mapBlocks i)) ip t := by
  refine ⟨Nat.lt_of_le_of_lt (Finset.card_insert_le ..) hmap, ht.ok.sb, ?_, ?_, fun k hk hne => ?_⟩
  · rw [ht.entry, ht.sb]
    exact hi
  · rw [ht.entry, ht.sb]
    exact Finset.mem_insert_self ..
  · rw [ht.entry] at hne ⊢
    obtain ⟨hmeta, hlt⟩ := ht.ok.blocks.ptr_data ⟨ht.sb.symm ▸ hi, horphan.1⟩ hk hne
    refine ⟨hmeta, hlt, Finset.mem_insert_of_mem ?_⟩
    dsimp only at hne ⊢
    rw [ht.disk, ← h.dinode_eq hi] at hne ⊢
    rw [ht.sb]
    exact bblock_mem_mapBlocks hk hne

/-- An orphan is freed. -/
theorem ireclaimOne_orphan (h : FsOk ino own Nothing Nothing s H) (hidle : Idle s)
    (hmap : (s.mapBlocks i).card + 1 < LOGBLOCKS) (hi : i < s.sb.ninodes)
    (horphan : (ino i).Orphan) :
    wp (ireclaimOne i) (fun _ => False) (fun _ t => Idle t ∧ t.sb = s.sb ∧
      (∀ c, s.sb.nmeta ≤ c → t.disk c = s.disk c) ∧
      FsOk (update ino i (ino i).freed) (disownAll own i) Nothing Nothing t H) s := by
  rw [ireclaimOne, wp_bind, wp_reads, wp_bind, bread, wp_reads]
  dsimp only
  rw [h.dinode_read hi, if_pos (show _ ∧ _ from horphan)]
  refine wp_open h hidle hi horphan fun ip t ht => ?_
  have href : 0 < (t.itable ip).ref := by
    rw [ht.entry]
    exact Int.one_pos
  have hput :=
    iput_spec (E := (· = .logTooBig)) (i := i) ht.ok href (by rw [ht.entry])
      (by rw [ht.entry]; simp) ⟨by rw [ht.outstanding]; exact Nat.one_pos, rfl⟩
  have hlog := iput_log (ht.canFree h hmap hi horphan)
    ⟨by rw [ht.lh]; exact List.nodup_nil, by rw [ht.lh]; simp⟩
  rw [wp_bind]
  refine ((hput.and hlog).mono_fail fun e he => he.2 he.1).mono fun _ u hu => ?_
  rw [ht.entry, if_pos ⟨rfl, rfl, horphan.2⟩] at hu
  obtain ⟨⟨hok, hdata, hw, htable⟩, -⟩ := hu
  have hzero : u.outstanding - 1 = 0 := by rw [hw.outstanding, ht.outstanding]
  have hslot : ∀ e, (u.itable e).ref = 0 ∧ (u.itable e).locked = false := by
    rw [htable]
    refine (Function.forall_update_iff t.itable fun _ x => x.ref = 0 ∧ x.locked = false).mpr
      ⟨⟨rfl, rfl⟩, fun e hne => ?_⟩
    rw [ht.others e hne]
    exact ⟨hidle.ref e, hidle.locked e⟩
  rw [endOp, wp_updates]
  refine ⟨⟨fun e => (hslot e).1, fun e => (hslot e).2, hzero, if_pos hzero⟩, hw.sb.trans ht.sb,
    fun c hc => ?_, hok.setLog rfl rfl rfl⟩
  rw [← ht.disk]
  exact hdata c (ht.sb.symm ▸ hc)

/-- The inodes up to `n` have been looked at. -/
structure Swept (ino : Nat → Dinode) (own : Owners) (H : Nat → Prop) (s : Vol) (n : Nat)
    (t : Vol) : Prop where
  idle : Idle t
  sb : t.sb = s.sb
  data : ∀ c, s.sb.nmeta ≤ c → t.disk c = s.disk c
  ok : ∃ ino' own', FsOk ino' own' Nothing Nothing t H ∧
    (∀ i, ino' i = if (ino i).Orphan ∧ 0 < i ∧ i ≤ n then (ino i).freed else ino i) ∧
    ∀ c i k, own' c = some (i, k) ↔ own c = some (i, k) ∧ ¬ ((ino i).Orphan ∧ 0 < i ∧ i ≤ n)

/-- The blocks of an inode are still the same. -/
theorem Swept.ptr_eq (h : Swept ino own H s n t) (h₀ : FsOk ino own Nothing Nothing s H)
    (hi : Allocated s.sb ino i) (k : Nat) : (ino i).ptr t.disk k = (ino i).ptr s.disk k := by
  refine ptr_congr (fun hne => h.data _ ?_) k
  have hptr := h₀.blocks.ptr_data hi (Nat.le_refl MAXFILE)
  rw [ptr_indirect] at hptr
  exact (hptr hne).1

/-- The orphans that freeing does not take too many blocks of the log for. -/
def FewMaps (s : Vol) : Prop :=
  ∀ i, 0 < i → i < s.sb.ninodes → (s.dinode i).Orphan → (s.mapBlocks i).card + 1 < LOGBLOCKS

theorem Swept.next (h : Swept ino own H s n t) (h₀ : FsOk ino own Nothing Nothing s H)
    (hmap : FewMaps s) (hn : n + 1 < s.sb.ninodes) :
    wp (ireclaimOne (n + 1)) (fun _ => False) (fun _ => Swept ino own H s (n + 1)) t := by
  have hptr := fun hi => h.ptr_eq h₀ (i := n + 1) hi
  obtain ⟨hidle, hsb, hdata, ino', own', hok, hino, hown⟩ := h
  have hself : ino' (n + 1) = ino (n + 1) := by rw [hino, if_neg (by omega)]
  by_cases horphan : (ino (n + 1)).Orphan
  · have hfew : (t.mapBlocks (n + 1)).card + 1 < LOGBLOCKS := by
      have hold := hmap (n + 1) (Nat.succ_pos n) hn (by rwa [h₀.dinode_eq hn])
      rw [Vol.mapBlocks, h₀.dinode_eq hn] at hold
      simp only [Vol.mapBlocks, hok.dinode_eq (hsb.symm ▸ hn), hself, hsb,
        hptr ⟨hn, horphan.1⟩]
      exact hold
    rw [← hsb] at hn
    refine (ireclaimOne_orphan hok hidle hfew hn (hself.symm ▸ horphan)).mono fun _ u hu => ?_
    obtain ⟨hidle', hsb', hdata', hok'⟩ := hu
    refine ⟨hidle', hsb'.trans hsb, fun c hc => (hdata' c (hsb.symm ▸ hc)).trans (hdata c hc), _,
      _, hok', fun i => ?_, fun c i k => ?_⟩
    · rcases eq_or_ne i (n + 1) with rfl | hne
      · rw [update_self, hself, if_pos ⟨horphan, Nat.succ_pos n, Nat.le_refl _⟩]
      · have hle : i ≤ n + 1 ↔ i ≤ n := by omega
        rw [update_of_ne hne, hino]
        simp only [hle]
    · rw [disownAll, disown_eq_some, hown, and_assoc]
      refine and_congr_right fun _ => ?_
      rcases eq_or_ne i (n + 1) with rfl | hne
      · simp [horphan]
      · have hle : i ≤ n + 1 ↔ i ≤ n := by omega
        simp [hne, hle]
  · have hsame : ∀ i, (ino i).Orphan ∧ 0 < i ∧ i ≤ n + 1 ↔ (ino i).Orphan ∧ 0 < i ∧ i ≤ n := by
      intro i
      refine and_congr_right fun hi => and_congr_right fun _ => ⟨fun hle => ?_, Nat.le_succ_of_le⟩
      have hne : i ≠ n + 1 := fun heq => horphan (heq ▸ hi)
      omega
    rw [ireclaimOne, wp_bind, wp_reads, wp_bind, bread, wp_reads]
    dsimp only
    rw [hok.dinode_read (hsb.symm ▸ hn), hself, if_neg (show ¬ (_ ∧ _) from horphan), wp_pure]
    simp only [← hsame] at hino hown
    exact ⟨hidle, hsb, hdata, ino', own', hok, hino, hown⟩

/-- The whole scan. -/
theorem ireclaim_spec (h : FsOk ino own Nothing Nothing s H) (hidle : Idle s)
    (hmap : FewMaps s) :
    wp ireclaim (fun _ => False) (fun _ => Swept ino own H s (s.sb.ninodes - 1)) s := by
  rw [ireclaim, wp_bind, wp_reads]
  refine wp_forRange (I := Swept ino own H s) ?_ fun n hn t ht => ht.next h hmap (by omega)
  refine ⟨hidle, rfl, fun _ _ => rfl, ino, own, h, fun i => ?_, fun c i k => ?_⟩
  · rw [if_neg (by omega)]
  · rw [and_iff_left (by omega)]

/-- No pointer refers to a block of an inode that was freed. -/
theorem Swept.free (h : Swept ino own H s n t) (h₀ : FsOk ino own Nothing Nothing s H)
    (horphan : (ino i).Orphan) (hpos : 0 < i) (hle : i ≤ n) (hi : i < s.sb.ninodes) {k : Nat}
    (hk : k ≤ MAXFILE) (hne : (ino i).ptr s.disk k ≠ 0) :
    bitAt t.sb t.disk ((ino i).ptr s.disk k) = false := by
  obtain ⟨ino', own', hok, -, hown⟩ := h.ok
  have hmine := h₀.blocks.points i k ⟨hi, horphan.1⟩ hk hne
  obtain ⟨hmeta, hlt⟩ := h₀.blocks.ptr_data ⟨hi, horphan.1⟩ hk hne
  rw [← h.sb] at hmeta hlt
  have hnone : own' ((ino i).ptr s.disk k) = none := by
    rw [Option.eq_none_iff_forall_ne_some]
    intro p hp
    obtain ⟨hold, hnot⟩ := (hown _ p.1 p.2).mp hp
    rw [hmine] at hold
    cases hold
    exact hnot ⟨horphan, hpos, hle⟩
  rw [← Bool.not_eq_true, hok.blocks.bits _ hlt, hnone]
  rintro (hbad | hbad | hbad)
  · omega
  · exact hbad rfl
  · exact hbad

/-- An inode that is no orphan is as it was. -/
theorem Swept.kept (h : Swept ino own H s n t) (h₀ : FsOk ino own Nothing Nothing s H)
    (hi : i < s.sb.ninodes) (horphan : ¬ (s.dinode i).Orphan) :
    t.dinode i = s.dinode i ∧ ((s.dinode i).type ≠ 0 → KeptFile s.disk t.disk (s.dinode i) ∧
      (¬ H i → t.contentOf i = s.contentOf i)) := by
  obtain ⟨ino', own', hok, hino, -⟩ := h.ok
  rw [h₀.dinode_eq hi] at horphan
  have hdinode : t.dinode i = ino i := by
    rw [hok.dinode_eq (h.sb.symm ▸ hi), hino, if_neg fun hbad => horphan hbad.1]
  rw [Vol.contentOf, Vol.contentOf, hdinode, h₀.dinode_eq hi]
  refine ⟨rfl, fun htype => ?_⟩
  have hkept := h₀.keptFile_of_data ⟨hi, htype⟩ h.data
  exact ⟨hkept, fun hH => KeptFile.content_eq h₀ ⟨hi, htype⟩ hH hkept⟩

end Scan

/-- From every file system that nobody uses and whose map and block references agree, holes
allowed, `ireclaim` returns if the log has room for the map blocks of each orphan; afterwards
map and references agree and nobody uses the file system, there are no orphans, their blocks
are free, and all other inodes are as they were, with their blocks. -/
theorem ireclaim_correct (s : Vol) (H : Nat → Prop) (h : WellFormed s H) (hidle : Idle s)
    (hmap : FewMaps s) :
    ∃ t, ireclaim s = .ok ((), t) ∧ WellFormed t H ∧ Idle t ∧ t.sb = s.sb ∧
      ∀ i, 0 < i → i < s.sb.ninodes → ¬ (t.dinode i).Orphan ∧
        ((s.dinode i).Orphan → (t.dinode i).type = 0 ∧
          ∀ k, k ≤ MAXFILE → (s.dinode i).ptr s.disk k ≠ 0 →
            bitAt t.sb t.disk ((s.dinode i).ptr s.disk k) = false) ∧
        (¬ (s.dinode i).Orphan → t.dinode i = s.dinode i ∧
          ((s.dinode i).type ≠ 0 → KeptFile s.disk t.disk (s.dinode i) ∧
            (¬ H i → t.contentOf i = s.contentOf i))) := by
  obtain ⟨ino, own, hok⟩ := h
  obtain ⟨_, t, hrun, hswept⟩ := (ireclaim_spec hok hidle hmap).returns
  refine ⟨t, hrun, ?_, hswept.idle, hswept.sb, fun i hpos hi => ?_⟩
  · obtain ⟨ino', own', hok', -⟩ := hswept.ok
    exact ⟨ino', own', hok'⟩
  have hle : i ≤ s.sb.ninodes - 1 := by omega
  have hfreed : (s.dinode i).Orphan → (t.dinode i).type = 0 := by
    intro horphan
    obtain ⟨ino', own', hok', hino, -⟩ := hswept.ok
    rw [hok.dinode_eq hi] at horphan
    rw [hok'.dinode_eq (hswept.sb.symm ▸ hi), hino, if_pos ⟨horphan, hpos, hle⟩]
    rfl
  refine ⟨fun hbad => ?_, fun horphan => ⟨hfreed horphan, fun k hk hne => ?_⟩,
    hswept.kept hok hi⟩
  · by_cases horphan : (s.dinode i).Orphan
    · exact hbad.1 (hfreed horphan)
    · rw [(hswept.kept hok hi horphan).1] at hbad
      exact horphan hbad
  · rw [hok.dinode_eq hi] at horphan hne ⊢
    exact hswept.free hok horphan hpos hle hi hk hne

/-! ## An orphan with blocks all over the disk -/

/-- A disk with `n` map blocks, for up to 30. -/
def wideSb (n : Nat) : Superblock where
  size := n * BPB
  nblocks := n * BPB - 32
  ninodes := 16
  inodestart := 1
  bmapstart := 2

/-- Block `k` of the orphan is the block 40 of the map block `k`, and its indirect block is 41. -/
def wideDinode (n : Nat) : Dinode where
  type := T_FILE
  major := 0
  minor := 0
  nlink := 0
  size := n * BSIZE
  addrs k := if k = NDIRECT then 41 else if k < NDIRECT ∧ k < n then k * BPB + 40 else 0

def wideDisk (n : Nat) : Disk := fun b =>
  if b = 1 then writeDinode (wideDinode n) zeroBlock dinodeSize
  else if b = 41 then writeWords 4 (n - NDIRECT) (fun j => (NDIRECT + j) * BPB + 40) zeroBlock 0
  else if b < 32 then fun a =>
    if a = 5 then if b = 2 then 3 else 1 else if b = 2 ∧ a < 4 then 255 else 0
  else zeroBlock

def wide (n : Nat) : Vol where
  sb := wideSb n
  disk := wideDisk n
  itable _ := { inum := 0, ref := 0, locked := false, valid := false, din := freshDinode 0 }

def wideOwn (n b : Nat) : Option (Nat × Nat) :=
  if b = 41 then some (1, MAXFILE) else if b % BPB = 40 ∧ b < n * BPB then some
    (1, b / BPB) else none

theorem idle_wide (n : Nat) : Idle (wide n) := ⟨fun _ => rfl, fun _ => rfl, rfl, rfl⟩

theorem bitAt_wide {n b : Nat} (hb : b < n * BPB) (hn : n ≤ 30) :
    bitAt (wideSb n) (wideDisk n) b = true ↔ b < 32 ∨ wideOwn n b ≠ none := by
  have hblock : (wideSb n).BBLOCK b ≠ 1 ∧ (wideSb n).BBLOCK b < 32 := by
    simp only [Superblock.BBLOCK, wideSb, BPB] at hb ⊢
    omega
  have hfirst : (wideSb n).BBLOCK b = 2 ↔ b < BPB := by
    simp only [Superblock.BBLOCK, wideSb, BPB]
    omega
  have hown : wideOwn n b ≠ none ↔ b = 41 ∨ b % BPB = 40 := by
    unfold wideOwn
    split
    · simp [*]
    · simp [*]
  have hbyte : ∀ j, j < 8 → (255).testBit j = true ∧ ((3).testBit j = true ↔ j < 2) ∧
      ((1).testBit j = true ↔ j = 0) ∧ (0).testBit j = false := by decide
  obtain ⟨hall, hthree, hone, hzero⟩ := hbyte (b % 8) (Nat.mod_lt _ (by decide))
  rw [bitAt, wideDisk, if_neg hblock.1, if_neg (by omega), if_pos hblock.2, hown]
  simp only [hfirst]
  by_cases hfive : b % BPB / 8 = 5
  · by_cases hlow : b < BPB
    · rw [if_pos hfive, if_pos hlow]
      refine hthree.trans ?_
      simp only [BPB] at hfive hlow ⊢
      omega
    · rw [if_pos hfive, if_neg hlow]
      refine hone.trans ?_
      simp only [BPB] at hfive hlow ⊢
      omega
  · by_cases hlow : b < BPB ∧ b % BPB / 8 < 4
    · rw [if_neg hfive, if_pos hlow]
      refine iff_of_true hall ?_
      simp only [BPB] at hlow
      omega
    · rw [if_neg hfive, if_neg hlow]
      refine iff_of_false (ne_true_of_eq_false hzero) ?_
      simp only [BPB] at hfive hlow ⊢
      omega

theorem wideOwn_block {n k : Nat} (hk : k < n) : wideOwn n (k * BPB + 40) = some (1, k) := by
  have hdiv : (k * BPB + 40) / BPB = k ∧ (k * BPB + 40) % BPB = 40 ∧ k * BPB + 40 < n * BPB ∧
      k * BPB + 40 ≠ 41 := by
    simp only [BPB]
    omega
  rw [wideOwn, if_neg hdiv.2.2.2, if_pos ⟨hdiv.2.1, hdiv.2.2.1⟩, hdiv.1]

theorem wideOwn_cases {n b i k : Nat} (h : wideOwn n b = some (i, k)) :
    i = 1 ∧ (k = MAXFILE ∧ b = 41 ∨ k < n ∧ b = k * BPB + 40) := by
  unfold wideOwn at h
  split at h
  · next heq =>
    cases h
    exact ⟨rfl, .inl ⟨rfl, heq⟩⟩
  · split at h
    · next hmod =>
      cases h
      refine ⟨rfl, .inr ?_⟩
      simp only [BPB] at hmod ⊢
      omega
    · cases h

theorem wide_ok {n : Nat} (hpos : 0 < n) (hn : n ≤ 30)
    (htype : ∀ i, i < 16 → i ≠ 1 → ((wide n).dinode i).type = 0)
    (hptr : ∀ k, k ≤ MAXFILE → ((wide n).dinode 1).ptr (wide n).disk k =
      if k = MAXFILE then 41 else if k < n then k * BPB + 40 else 0) :
    FsOk (wide n).dinode (wideOwn n) Nothing Nothing (wide n) := by
  have hone : ∀ i, Allocated (wideSb n) (wide n).dinode i → i = 1 := by
    intro i hi
    by_contra hne
    exact hi.2 (htype i hi.1 hne)
  have hdinode : (wide n).dinode 1 = wideDinode n := by
    refine readDinode_writeDinode ⟨?_, fun k => ?_, fun k hk => ?_⟩
    · simp only [wideDinode, BSIZE]
      omega
    · simp only [wideDinode, BPB]
      split
      · decide
      · split <;> omega
    · simp only [wideDinode]
      rw [if_neg (by omega), if_neg (by omega)]
  have hfile : Allocated (wide n).sb (wide n).dinode 1 :=
    ⟨show 1 < 16 by decide, by rw [hdinode]; exact (by decide : T_FILE ≠ 0)⟩
  refine ⟨⟨?_, ?_, ?_, ?_⟩,
    ⟨fun i k hi hk hne => ?_, fun b i k hown => ?_, fun _ hnot => hnot.elim, fun b hb => ?_⟩,
    fun _ _ _ => rfl, fun i _ => repr_readDinode _ _,
    fun e href => absurd href (by decide : ¬ (0 : Int) < 0),
    fun e href => absurd href (by decide : ¬ (0 : Int) < 0),
    fun e _ href => absurd href (by decide : ¬ (0 : Int) < 0), fun i hi => ?_,
    fun i hi _ k hk => ?_⟩
  · simp only [wide, wideSb, BPB]
    omega
  · simp only [wide, wideSb, IPB]
    omega
  · simp only [wide, wideSb, Superblock.nmeta, BPB]
    omega
  · simp only [wide, wideSb]
    omega
  · cases hone i hi
    rw [hptr k hk] at hne ⊢
    split
    · next hmax => rw [hmax, wideOwn, if_pos rfl]
    · next hmax =>
      rw [if_neg hmax] at hne
      split at hne
      · next hlt => rw [if_pos hlt, wideOwn_block hlt]
      · exact absurd rfl hne
  · have hdata : 32 ≤ b ∧ b < n * BPB → (wide n).sb.nmeta ≤ b ∧ b < (wide n).sb.size := by
      simp only [wide, wideSb, Superblock.nmeta, BPB]
      omega
    obtain ⟨rfl, ⟨rfl, rfl⟩ | ⟨hlt, rfl⟩⟩ := wideOwn_cases hown
    · refine ⟨hdata ?_, hfile, Nat.le_refl _, (hptr _ (Nat.le_refl _)).trans (if_pos rfl)⟩
      simp only [BPB]
      omega
    · have hmax : k < MAXFILE := Nat.lt_of_lt_of_le hlt (Nat.le_trans hn (by decide))
      refine ⟨hdata ?_, hfile, Nat.le_of_lt hmax, ?_⟩
      · simp only [BPB]
        omega
      · rw [hptr k (Nat.le_of_lt hmax), if_neg (Nat.ne_of_lt hmax), if_pos hlt]
  · have hnmeta : (wide n).sb.nmeta = 32 := by
      simp only [wide, wideSb, Superblock.nmeta, BPB]
      omega
    rw [hnmeta]
    refine (bitAt_wide hb hn).trans (or_congr_right ⟨.inl, fun hor => hor.resolve_right id⟩)
  · cases hone i hi
    rw [hdinode]
    simp only [wideDinode, BSIZE, MAXFILE, NDIRECT, NINDIRECT]
    omega
  · cases hone i hi
    rw [hdinode] at hk
    have hlt : k < n := Nat.lt_of_mul_lt_mul_right hk
    rw [hptr k (by simp only [MAXFILE, NDIRECT, NINDIRECT]; omega), if_neg, if_pos hlt]
    · exact Nat.succ_ne_zero _
    · simp only [MAXFILE, NDIRECT, NINDIRECT]
      omega

/-- With two map blocks the orphan is freed. -/
theorem ireclaim_correct_wide : ∃ t, ireclaim (wide 2) = .ok ((), t) ∧ WellFormed t ∧
    ((wide 2).dinode 1).Orphan ∧ (t.dinode 1).type = 0 ∧
    bitAt t.sb t.disk (BPB + 40) = false := by
  have hok := wide_ok (n := 2) (by decide) (by decide) (by decide +kernel) (by decide +kernel)
  have horphan : ((wide 2).dinode 1).Orphan := by decide +kernel
  have hptr : ((wide 2).dinode 1).ptr (wide 2).disk 1 = BPB + 40 := by decide +kernel
  have hfew : FewMaps (wide 2) := by
    intro i _ hi horphan
    refine Nat.lt_of_le_of_lt (Nat.succ_le_succ (card_mapBlocks_le fun k hk hne => ?_))
      (by decide : 2 + 1 < LOGBLOCKS)
    exact (hok.blocks.ptr_data ⟨hi, horphan.1⟩ hk hne).2
  obtain ⟨t, hrun, hwf, -, -, hall⟩ :=
    ireclaim_correct (wide 2) Nothing ⟨_, _, hok⟩ (idle_wide 2) hfew
  obtain ⟨htype, hfree⟩ := (hall 1 (by decide) (by decide)).2.1 horphan
  have hbit := hfree 1 (by decide)
  rw [hptr] at hbit
  exact ⟨t, hrun, hwf, horphan, htype, hbit (by decide)⟩

/-- The blocks of the orphan have 29 map blocks, which fill the log with the block of the inode,
so that `iput` cannot store the inode a second time. -/
theorem ireclaim_too_big : WellFormed (wide 29) ∧ Idle (wide 29) ∧
    ireclaim (wide 29) = .error .logTooBig := by
  have hok := wide_ok (n := 29) (by decide) (by decide) (by decide +kernel) (by decide +kernel)
  have hrun : (match ireclaim (wide 29) with
    | .error e => decide (e = .logTooBig)
    | .ok _ => false) = true := by decide +kernel
  refine ⟨⟨_, _, hok⟩, idle_wide 29, ?_⟩
  cases hresult : ireclaim (wide 29) with
  | error e =>
    rw [hresult] at hrun
    rw [of_decide_eq_true hrun]
  | ok r =>
    rw [hresult] at hrun
    cases hrun

end Xv6.Fs
