import Xv6.Fs.Arrays
import Xv6.Fs.File
import Xv6.Fs.Image
import Xv6.Fs.Table

/-!
# What `fileread` and `filewrite` report

The number that a system call returns, against what happened to the file, to its offset
and to the user memory.

* `OpenInode`: the inode of an open file, which nobody has locked.
* `fileread_spec`: the whole effect of `fileread`.
* `FilereadExact`: what the caller of `read` relies on, and `filereadExact_iff`: a negative
  length is taken for a large one unless it makes the end of the read wrap around.
* `Stored`, `wp_chunk`, `filewriteLoop_spec`: what the transactions of `filewrite` have stored
  so far.
* `filewrite_reports`: a whole write is reported by its length, and a failed one by -1, with
  some first part of it stored.
-/

namespace Xv6.Fs

open Xv6.Lib.Bytes Xv6.Lib.Wp

/-- The inode of an open file, which nobody has locked. -/
structure OpenInode (s : Vol) (ip : Nat) : Prop where
  wf : WellFormed s
  ref : 0 < (s.itable ip).ref
  unlocked : (s.itable ip).locked = false
  used : (s.dinode (s.itable ip).inum).type ≠ 0

/-! ## Reading -/

section Reading

variable {E : Panic → Prop} {ino : Nat → Dinode} {own : Owners} {s : Vol} {f : IFile}

/-- The result of a copy of `len` bytes. -/
def Mem.copyResult (dst : Mem) (len : Nat) : Int := if dst.reach 0 len = len then len else -1

/-- What `fileread` returns, stores and leaves as the offset, if it has to copy `len` bytes. -/
def filereadResult (d : Dinode) (disk : Disk) (f : IFile) (dst : Mem) (len : Nat) :
    Int × Mem × IFile :=
  (dst.copyResult len, dst.fill (fun o => d.byte disk (f.off + o)) (dst.reach 0 len),
    f.advance (dst.copyResult len))

theorem fileread_spec (h : FsOk ino own Nothing Nothing s) (href : 0 < (s.itable f.ip).ref)
    (hread : f.readable = true) (hlock : (s.itable f.ip).locked = true → E .stuck)
    (hfree : (ino (s.itable f.ip).inum).type = 0 → E .ilockNoType) (dst : Mem) (n : BitVec 32) :
    wp (fileread f dst n) E (fun r s' =>
      r = filereadResult (ino (s.itable f.ip).inum) s.disk f dst
        (readLen (ino (s.itable f.ip).inum).size f.off n.toNat) ∧
      s' = s.setEntry f.ip { s.itable f.ip with
        locked := false, valid := true, din := ino (s.itable f.ip).inum }) s := by
  rw [fileread, if_neg (by rw [hread]; nofun), wp_bind]
  refine (ilock_spec h href rfl hlock hfree).mono fun _ s₁ h₁ => ?_
  obtain ⟨htype, hok₁, rfl⟩ := h₁
  rw [wp_bind]
  refine wp.mono (readi_spec hok₁ (i := (s.itable f.ip).inum) (by rw [setEntry_self])
    ⟨h.range f.ip href, htype⟩ n.isLt) fun r s₂ h₂ => ?_
  obtain ⟨rfl, hr, hdst⟩ := h₂
  rw [wp_bind]
  refine wp.mono (iunlock_spec hok₁ (by rw [setEntry_self]; exact href) fun hbad => ?_)
    fun _ s₃ h₃ => ?_
  · rw [setEntry_self] at hbad
    cases hbad
  · obtain ⟨-, rfl⟩ := h₃
    rw [wp_pure]
    refine ⟨?_, ?_⟩
    · rw [hr, hdst]
      rfl
    · rw [setEntry_setEntry, setEntry_self]

end Reading

/-! ### The length of a read -/

section Lengths

variable {size : Nat} {n : BitVec 32}

theorem readLen_of_nonneg (off : Nat) (hsize : size ≤ MAXFILE * BSIZE) (hn : 0 ≤ n.toInt) :
    readLen size off n.toNat = min n.toInt.toNat (size - off) := by
  have hmax : MAXFILE * BSIZE = 274432 := rfl
  have hlt := n.isLt
  simp only [BitVec.toInt] at hn ⊢
  unfold readLen
  split at hn <;> omega

/-- A negative length is one of at least `2^31`. -/
theorem readLen_of_neg (off : Nat) (hsize : size ≤ MAXFILE * BSIZE) (hn : n.toInt < 0) :
    readLen size off n.toNat = if (off : Int) < -n.toInt then size - off else 0 := by
  have hmax : MAXFILE * BSIZE = 274432 := rfl
  have hlt := n.isLt
  have heq : 2 ^ 31 ≤ n.toNat ∧ n.toInt = n.toNat - 2 ^ 32 := by
    simp only [BitVec.toInt] at hn ⊢
    split at hn <;> omega
  unfold readLen
  by_cases hoff : (off : Int) < -n.toInt
  · rw [if_pos hoff]
    omega
  · rw [if_neg hoff]
    omega

end Lengths

/-! ### What the caller relies on -/

/-- A read of `n` bytes, whatever the user memory holds, stores at most `n` bytes; it returns
-1, or the number of bytes stored, which is `n` or what the file still has, and the offset
moves on by that number.  A negative `n` counts as 0. -/
def FilereadExact (s : Vol) (f : IFile) (limit : Option Nat) (n : BitVec 32) : Prop :=
  ∀ byte : Nat → UInt8, ∃ (r : Int) (dst : Mem) (f' : IFile) (s' : Vol) (k : Nat),
    fileread f ⟨byte, limit⟩ n s = .ok ((r, dst, f'), s') ∧
    k ≤ n.toInt.toNat ∧
    dst = Mem.fill ⟨byte, limit⟩
      (fun o => (s.dinode (s.itable f.ip).inum).byte s.disk (f.off + o)) k ∧
    (r = -1 ∨ (r = k ∧ k = min n.toInt.toNat ((s.dinode (s.itable f.ip).inum).size - f.off))) ∧
    f' = { f with off := f.off + r.toNat }

/-- The reads for which a negative length does no harm. -/
def LengthHarmless (size off : Nat) (readable : Bool) (limit : Option Nat) (n : BitVec 32) : Prop :=
  readable = false ∨ 0 ≤ n.toInt ∨ size ≤ off ∨ -n.toInt ≤ off ∨ limit = some 0

section Exact

variable {s : Vol} {f : IFile} {limit : Option Nat} {n : BitVec 32}

/-- The result of `fileread`, for the inode on the disk. -/
theorem OpenInode.fileread_eq (h : OpenInode s f.ip) (hread : f.readable = true) (n : BitVec 32)
    (dst : Mem) :
    (s.dinode (s.itable f.ip).inum).size ≤ MAXFILE * BSIZE ∧
    ∃ s', fileread f dst n s = .ok (filereadResult (s.dinode (s.itable f.ip).inum) s.disk f dst
      (readLen (s.dinode (s.itable f.ip).inum).size f.off n.toNat), s') := by
  obtain ⟨ino, own, hok⟩ := h.wf
  have hlt := hok.range f.ip h.ref
  have hused := h.used
  rw [hok.dinode_eq hlt] at hused ⊢
  refine ⟨hok.sizes _ ⟨hlt, hused⟩, ?_⟩
  have hrun : wp (fileread f dst n) (fun _ => False) _ s :=
    fileread_spec hok h.ref hread (fun hlock => absurd hlock (by rw [h.unlocked]; nofun))
      (fun hfree => absurd hfree hused) dst n
  obtain ⟨r, s', hok', rfl, -⟩ := hrun.returns
  exact ⟨s', hok'⟩

/-- A copy of what is left of a file does not make the offset wrap around. -/
theorem advance_copyResult {size len : Nat} (hsize : size ≤ MAXFILE * BSIZE)
    (hlen : len ≤ size - f.off) (dst : Mem) :
    f.advance (dst.copyResult len) = { f with off := f.off + (dst.copyResult len).toNat } := by
  have hmax : MAXFILE * BSIZE = 274432 := rfl
  have hr : dst.copyResult len ≤ len := by
    unfold Mem.copyResult
    split <;> omega
  unfold IFile.advance
  split
  · rw [Nat.mod_eq_of_lt (by omega)]
  · rw [Int.toNat_of_nonpos (by omega), Nat.add_zero]

/-- A read of the right length. -/
theorem filereadExact_of_len (h : OpenInode s f.ip) (hread : f.readable = true)
    (hlen : readLen (s.dinode (s.itable f.ip).inum).size f.off n.toNat =
      min n.toInt.toNat ((s.dinode (s.itable f.ip).inum).size - f.off)) :
      FilereadExact s f limit n := by
  intro byte
  obtain ⟨hsize, s', hrun⟩ := h.fileread_eq hread n ⟨byte, limit⟩
  refine ⟨_, _, _, s', _, hrun, ?_, rfl, ?_, advance_copyResult hsize ?_ _⟩
  · rw [hlen]
    exact (reach_le _ _ _).trans (min_le_left ..)
  · rw [hlen]
    unfold Mem.copyResult
    split
    · next hall => exact .inr ⟨by rw [hall], hall⟩
    · exact .inl rfl
  · rw [hlen]
    exact min_le_right ..

/-- A read into memory that cannot be accessed at all fails and stores nothing. -/
theorem filereadExact_of_inaccessible (h : OpenInode s f.ip) (hread : f.readable = true)
    (hlen : readLen (s.dinode (s.itable f.ip).inum).size f.off n.toNat ≠ 0) :
    FilereadExact s f (some 0) n := by
  intro byte
  obtain ⟨-, s', hrun⟩ := h.fileread_eq hread n ⟨byte, some 0⟩
  generalize readLen (s.dinode (s.itable f.ip).inum).size f.off n.toNat = len at hlen hrun
  have hreach : (Mem.mk byte (some 0)).reach 0 len = 0 := Nat.min_zero len
  rw [filereadResult, Mem.copyResult, hreach, if_neg hlen.symm] at hrun
  exact ⟨_, _, _, s', 0, hrun, Nat.zero_le _, rfl, .inl rfl, rfl⟩

theorem filereadExact_of_harmless (h : OpenInode s f.ip)
    (hn : LengthHarmless (s.dinode (s.itable f.ip).inum).size f.off f.readable limit n) :
    FilereadExact s f limit n := by
  cases hread : f.readable with
  | false =>
    intro byte
    refine ⟨-1, ⟨byte, limit⟩, f, s, 0, ?_, Nat.zero_le _, rfl, .inl rfl, rfl⟩
    rw [fileread, if_pos hread]
    rfl
  | true =>
    obtain ⟨hsize, -⟩ := h.fileread_eq hread n ⟨fun _ => 0, limit⟩
    by_cases hneg : 0 ≤ n.toInt
    · exact filereadExact_of_len h hread (readLen_of_nonneg f.off hsize hneg)
    have hlen := readLen_of_neg f.off hsize (not_le.mp hneg)
    by_cases hzero : readLen (s.dinode (s.itable f.ip).inum).size f.off n.toNat = 0
    · apply filereadExact_of_len h hread
      rw [hzero, Int.toNat_of_nonpos (by omega), Nat.zero_min]
    · -- what is left of the file would be read
      have hlimit : limit = some 0 := by
        rcases hn with hn | hn | hn | hn | hn
        · rw [hread] at hn
          cases hn
        · exact absurd hn hneg
        · split at hlen <;> omega
        · split at hlen <;> omega
        · exact hn
      rw [hlimit]
      exact filereadExact_of_inaccessible h hread hzero

/-- A negative length stores the rest of the file. -/
theorem not_filereadExact (h : OpenInode s f.ip)
    (hn : ¬ LengthHarmless (s.dinode (s.itable f.ip).inum).size f.off f.readable limit n) :
    ¬ FilereadExact s f limit n := by
  intro hexact
  simp only [LengthHarmless, not_or, Bool.not_eq_false, not_le] at hn
  obtain ⟨hread, hneg, hoff, hwrap, hlimit⟩ := hn
  -- memory that the first byte of the file changes
  generalize hd : s.dinode (s.itable f.ip).inum = d at *
  obtain ⟨r, dst, f', s', k, hrun, hk, hdst, -⟩ := hexact fun _ => d.byte s.disk f.off + 1
  obtain ⟨hsize, s'', hrun'⟩ := h.fileread_eq hread n ⟨fun _ => d.byte s.disk f.off + 1, limit⟩
  rw [hd] at hsize hrun' hdst
  rw [readLen_of_neg f.off hsize hneg, if_pos (by omega)] at hrun'
  have hreach : 0 < (Mem.mk (fun _ => d.byte s.disk f.off + 1) limit).reach 0 (d.size - f.off) := by
    cases limit with
    | none => exact Nat.sub_pos_of_lt hoff
    | some l =>
      apply lt_min (Nat.sub_pos_of_lt hoff)
      exact Nat.pos_of_ne_zero fun hl => hlimit (congrArg some hl)
  obtain rfl : k = 0 := by omega
  have hsame : dst = _ :=
    congrArg (fun r => r.2.1) (Prod.mk.inj (Except.ok.inj (hrun.symm.trans hrun'))).1
  have hbyte := congrArg (fun m => m.byte 0) (hdst.symm.trans hsame)
  simp [filereadResult, Mem.fill, copyBytes, hreach] at hbyte

/-- For every open file, user memory and length, exactly
if the length is not negative, or nothing of the file is left, or the end of the read wraps
around, or the memory cannot be accessed at all, or the file is not open for reading. -/
theorem filereadExact_iff (h : OpenInode s f.ip) :
    FilereadExact s f limit n ↔
      LengthHarmless (s.dinode (s.itable f.ip).inum).size f.off f.readable limit n :=
  ⟨fun hexact => by_contra fun hn => not_filereadExact h hn hexact, filereadExact_of_harmless h⟩

/-- The small image, with its root directory open. -/
def imageVol : Vol where
  sb := smallSb
  disk := imageDisk
  itable e :=
    if e = 0 then
      { inum := ROOTINO, ref := 1, locked := false, valid := true, din := imageIno ROOTINO }
    else { inum := 0, ref := 0, locked := false, valid := false, din := freshDinode 0 }

theorem openInode_imageVol : OpenInode imageVol 0 where
  wf := by
    refine ⟨imageIno, imageOwn, image_ok rfl rfl (fun e href => ?_) (fun _ => rfl) fun _ => rfl⟩
    by_contra hne
    simp only [imageVol, if_neg hne] at href
    exact absurd href (by decide)
  ref := by decide
  unlocked := rfl
  used := (imageIno_type ROOTINO (by decide)).mpr rfl

/-- A read of -1 bytes stores the whole directory. -/
theorem not_filereadExact_negative : OpenInode imageVol 0 ∧
    (∃ s', fileread ⟨true, false, 0, 0⟩ ⟨fun _ => 0, none⟩ (-1) imageVol =
      .ok ((32, Mem.fill ⟨fun _ => 0, none⟩ ((imageVol.dinode 1).byte imageDisk) 32,
        ⟨true, false, 0, 32⟩), s')) ∧
    ¬ FilereadExact imageVol ⟨true, false, 0, 0⟩ none (-1) := by
  have hsize : (imageVol.dinode (imageVol.itable 0).inum).size = 32 :=
    imageIno_size ROOTINO (by decide)
  refine ⟨openInode_imageVol, ?_, not_filereadExact openInode_imageVol ?_⟩
  · obtain ⟨-, s', hrun⟩ :=
      openInode_imageVol.fileread_eq (f := ⟨true, false, 0, 0⟩) rfl (-1) ⟨fun _ => 0, none⟩
    rw [hsize] at hrun
    refine ⟨s', hrun.trans ?_⟩
    simp only [filereadResult, Nat.zero_add]
    rfl
  · rw [hsize]
    simp only [LengthHarmless]
    decide

theorem filereadExact_short : FilereadExact imageVol ⟨true, false, 0, 4⟩ (some 20) 40 :=
  (filereadExact_iff openInode_imageVol).mpr (.inr (.inl (by decide)))

end Exact

/-! ## Writing -/

/-- The table holds the same inode, unlocked, in the entry `ip`. -/
structure SameOpen (ip : Nat) (s s' : Vol) : Prop where
  sb : s'.sb = s.sb
  inum : (s'.itable ip).inum = (s.itable ip).inum
  opened : OpenInode s' ip

/-- From `s` to `s'` the first `k` of `n` bytes have been stored at `off` of the inode `i`.  A
copy that failed may have changed some of the bytes behind them. -/
structure Stored (i : Nat) (src : Mem) (off n k : Nat) (s s' : Vol) : Prop where
  size : (s'.dinode i).size = if k = 0 then (s.dinode i).size else max (s.dinode i).size (off + k)
  filled : ∀ o, off ≤ o → o < off + k → (s'.dinode i).byte s'.disk o = src.byte (o - off)
  kept : ∀ o, o < (s.dinode i).size → o < off ∨ off + n ≤ o ∨ (¬ src.Short n ∧ off + k ≤ o) →
    (s'.dinode i).byte s'.disk o = (s.dinode i).byte s.disk o
  others : ∀ j, j < s.sb.ninodes → j ≠ i → s'.dinode j = s.dinode j ∧
    ((s.dinode j).type ≠ 0 → s'.contentOf j = s.contentOf j)

/-- Why a write stops early. -/
def WriteFails (size : Nat) (src : Mem) (off n : Nat) (s' : Vol) : Prop :=
  size < off ∨ MAXFILE * BSIZE < off + n ∨ Full s' ∨ src.Short n

section Writing

variable {i ip off n k : Nat} {src : Mem} {s s' s'' : Vol}

theorem Stored.refl (i : Nat) (src : Mem) (off n : Nat) (s : Vol) : Stored i src off n 0 s s where
  size := (if_pos rfl).symm
  filled o hge hlt := by omega
  kept _ _ _ := rfl
  others _ _ _ := ⟨rfl, fun _ => rfl⟩

theorem Stored.size_le (h : Stored i src off n k s s') :
    (s.dinode i).size ≤ (s'.dinode i).size := by
  rw [h.size]
  split
  · exact Nat.le_refl _
  · exact Nat.le_max_left ..

/-- A part of the memory cannot be accessed. -/
theorem Mem.Short.of_drop {m n₁ : Nat} (h : (src.drop m).Short n₁) (hn : m + n₁ ≤ n) :
    src.Short n := by
  obtain ⟨l, hl, hlt⟩ := h
  rw [Mem.drop, Option.map_eq_some_iff] at hl
  obtain ⟨l', hl', rfl⟩ := hl
  exact ⟨l', hl', by omega⟩

/-- The next part of a write. -/
theorem Stored.next {n₁ k₁ : Nat} (h : Stored i src off n k s s') (hsb : s'.sb = s.sb)
    (hnext : Stored i (src.drop k) (off + k) n₁ k₁ s' s'') (hn : k + n₁ ≤ n) :
    Stored i src off n (k + k₁) s s'' where
  size := by
    have h₁ := h.size
    have h₂ := hnext.size
    split at h₁ <;> split at h₂ <;> split <;> omega
  filled o hge hlt := by
    by_cases ho : o < off + k
    · have hsize : o < (s'.dinode i).size := by
        have h₁ := h.size
        split at h₁ <;> omega
      rw [hnext.kept o hsize (.inl ho), h.filled o hge ho]
    · rw [hnext.filled o (by omega) (by omega)]
      show src.byte (k + (o - (off + k))) = _
      congr 1
      omega
  kept o ho hout := by
    have hsize : o < (s'.dinode i).size := Nat.lt_of_lt_of_le ho h.size_le
    rcases hout with hlow | hhigh | ⟨hall, hge⟩
    · rw [hnext.kept o hsize (.inl (by omega)), h.kept o ho (.inl hlow)]
    · rw [hnext.kept o hsize (.inr (.inl (by omega))), h.kept o ho (.inr (.inl hhigh))]
    · have hdrop : ¬ (src.drop k).Short n₁ := fun hshort => hall (hshort.of_drop hn)
      rw [hnext.kept o hsize (.inr (.inr ⟨hdrop, by omega⟩)),
        h.kept o ho (.inr (.inr ⟨hall, by omega⟩))]
  others j hj hne := by
    obtain ⟨hdin, hcontent⟩ := h.others j hj hne
    obtain ⟨hdin', hcontent'⟩ := hnext.others j (hsb ▸ hj) hne
    refine ⟨hdin'.trans hdin, fun htype => ?_⟩
    rw [hcontent' (hdin ▸ htype), hcontent htype]

/-- What was stored is a matter of the disk. -/
theorem Stored.of_disk (h : Stored i src off n k s s') (hsb : s''.sb = s'.sb)
    (hdisk : s''.disk = s'.disk) :
    Stored i src off n k s s'' := by
  have hdin : ∀ j, s''.dinode j = s'.dinode j := fun j => by rw [Vol.dinode, Vol.dinode, hsb, hdisk]
  have hcontent : ∀ j, s''.contentOf j = s'.contentOf j := fun j => by
    rw [Vol.contentOf, Vol.contentOf, hdin, hdisk]
  refine ⟨?_, fun o hge hlt => ?_, fun o ho hout => ?_, fun j hj hne => ?_⟩
  · rw [hdin, h.size]
  · rw [hdin, hdisk, h.filled o hge hlt]
  · rw [hdin, hdisk, h.kept o ho hout]
  · rw [hdin, hcontent]
    exact h.others j hj hne

end Writing

/-! ### One chunk -/

section Chunk

variable {β : Type} {E : Panic → Prop} {Q : β → Vol → Prop} {ino : Nat → Dinode}
  {own own' : Owners} {i ip off n k : Nat} {src : Mem} {s s' : Vol} {d d' : Dinode}

/-- `writei` refuses a write behind the end of the file or beyond the largest file. -/
theorem writei_refused (hdin : (s.itable ip).din = d) (hsize : d.size ≤ MAXFILE * BSIZE)
    (hn : n < 2 ^ 32) (hnot : ¬ (off ≤ d.size ∧ off + n ≤ MAXFILE * BSIZE)) :
    wp (writei ip src off n) E (fun r s' => r = -1 ∧ s' = s) s := by
  have hmax : MAXFILE * BSIZE = 274432 := rfl
  rw [writei, wp_bind, inode, wp_reads, hdin]
  by_cases hbad : off > d.size ∨ (off + n) % 2 ^ 32 < off
  · rw [if_pos hbad, wp_pure]
    exact ⟨rfl, rfl⟩
  · rw [if_neg hbad, if_pos (by omega), wp_pure]
    exact ⟨rfl, rfl⟩

/-- What `writei` stores. -/
theorem Wrote.stored (h : FsOk ino own Nothing Nothing s) (hi : i < s.sb.ninodes)
    (hoff : off ≤ (ino i).size) (hsb : s'.sb = s.sb)
    (hwrote : Wrote ino Nothing i src off n k d' own' s s') : Stored i src off n k s s' := by
  have hdin : s.dinode i = ino i := h.dinode_eq hi
  have hdin' : ∀ j, j < s.sb.ninodes → s'.dinode j = Function.update ino i d' j := fun j hj =>
    hwrote.ok.dinode_eq (hsb.symm ▸ hj)
  have hself : s'.dinode i = d' := (hdin' i hi).trans (Function.update_self ..)
  refine ⟨?_, fun o hge hlt => ?_, fun o ho hout => ?_, fun j hj hne => ?_⟩
  · rw [hself, hdin, hwrote.attrs]
    split
    · next hzero =>
      rw [hzero]
      exact max_eq_left hoff
    · rfl
  · rw [hself, hwrote.filled o hge hlt]
  · rw [hdin] at ho
    rw [hself, hdin, hwrote.kept o ho hout]
  · have hsame : s'.dinode j = s.dinode j := by
      rw [hdin' j hj, Function.update_of_ne hne, h.dinode_eq hj]
    refine ⟨hsame, fun htype => ?_⟩
    rw [h.dinode_eq hj] at htype
    rw [Vol.contentOf, Vol.contentOf, hsame, h.dinode_eq hj]
    exact KeptFile.content_eq h ⟨hj, htype⟩ not_false (hwrote.others j ⟨hj, htype⟩ hne)

/-- No transaction is open, or running out of room in the log is an allowed failure. -/
def LogFree (E : Panic → Prop) (s : Vol) : Prop := E .logTooBig ∨ (s.outstanding = 0 ∧ s.lh = [])

/-- A transaction has begun, and the inode in the entry `ip` is locked. -/
structure Begun (ip : Nat) (ino : Nat → Dinode) (own : Owners) (s s' : Vol) : Prop where
  ok : FsOk ino own Nothing Nothing s'
  used : (ino (s.itable ip).inum).type ≠ 0
  ref : 0 < (s.itable ip).ref
  entry : s'.itable ip =
    { s.itable ip with locked := true, valid := true, din := ino (s.itable ip).inum }
  sb : s'.sb = s.sb
  disk : s'.disk = s.disk
  lh : s'.lh = s.lh
  outstanding : s'.outstanding = s.outstanding + 1

/-- The beginning of a chunk. -/
theorem wp_beginLock {rest : FsM β} (h : OpenInode s ip)
    (hrest : ∀ ino own s', Begun ip ino own s s' → wp rest E Q s') :
    wp (beginOp >>= fun _ => ilock ip >>= fun _ => rest) E Q s := by
  obtain ⟨ino, own, hok⟩ := h.wf
  have hused := h.used
  rw [hok.dinode_eq (hok.range ip h.ref)] at hused
  rw [wp_bind, beginOp, wp_updates, wp_bind]
  have hok₁ : FsOk ino own Nothing Nothing { s with outstanding := s.outstanding + 1 } :=
    hok.setLog rfl rfl rfl
  refine wp.mono (ilock_spec hok₁ h.ref rfl (fun hlocked => ?_) fun hfree => absurd hfree hused)
    fun _ s₂ h₂ => ?_
  · have hunlocked : (s.itable ip).locked = true := hlocked
    rw [h.unlocked] at hunlocked
    cases hunlocked
  obtain ⟨-, hok₂, rfl⟩ := h₂
  exact hrest ino own _ ⟨hok₂, hused, h.ref, setEntry_self .., rfl, rfl, rfl, rfl⟩

theorem Begun.toEntry (h : Begun ip ino own s s') :
    Entry ip (s.itable ip).inum (ino (s.itable ip).inum) s' := by
  refine ⟨?_, ?_, ?_⟩ <;> rw [h.entry]
  exact h.ref

theorem Begun.dinode_eq (h : Begun ip ino own s s') (i : Nat) : s'.dinode i = s.dinode i := by
  rw [Vol.dinode, Vol.dinode, h.sb, h.disk]

/-- What was stored since the transaction began. -/
theorem Stored.of_begin {s'' : Vol} (h : Stored i src off n k s' s'')
    (hbegun : Begun ip ino own s s') :
    Stored i src off n k s s'' := by
  have hcontent : ∀ j, s'.contentOf j = s.contentOf j := fun j => by
    rw [Vol.contentOf, Vol.contentOf, hbegun.dinode_eq, hbegun.disk]
  refine ⟨?_, h.filled, fun o ho hout => ?_, fun j hj hne => ?_⟩
  · rw [h.size, hbegun.dinode_eq]
  · rw [h.kept o (by rwa [hbegun.dinode_eq]) hout, hbegun.dinode_eq, hbegun.disk]
  · have hother := h.others j (by rwa [hbegun.sb]) hne
    rwa [hbegun.dinode_eq, hcontent] at hother

/-- The end of a chunk. -/
theorem wp_unlockEnd {rest : FsM β} {x : Inode} (h : FsOk ino own Nothing Nothing s)
    (hx : s.itable ip = { x with locked := true, valid := true, din := d }) (href : 0 < x.ref)
    (hlog : E .logTooBig ∨ s.outstanding = 1)
    (hrest : ∀ s', s'.sb = s.sb → s'.disk = s.disk → (s'.itable ip).inum = x.inum →
      OpenInode s' ip →
      LogFree E s' → wp rest E Q s') :
    wp (iunlock ip >>= fun _ => endOp >>= fun _ => rest) E Q s := by
  have href' : 0 < (s.itable ip).ref := by rw [hx]; exact href
  rw [wp_bind]
  refine wp.mono (iunlock_spec h href' fun hbad => ?_) fun _ s₁ h₁ => ?_
  · rw [hx] at hbad
    cases hbad
  obtain ⟨hok, rfl⟩ := h₁
  rw [wp_bind, endOp, wp_updates]
  have hused : (s.dinode x.inum).type ≠ 0 := by
    have hvalid := (h.valid ip href' (by rw [hx]) nofun).2
    rw [hx] at hvalid
    rwa [h.dinode_eq (by have := h.range ip href'; rwa [hx] at this)]
  have hentry : (s.setEntry ip { s.itable ip with locked := false }).itable ip =
      { x with locked := false, valid := true, din := d } := by rw [setEntry_self, hx]
  refine hrest _ rfl rfl (by rw [hentry]) ⟨⟨_, _, hok.setLog rfl rfl rfl⟩, ?_, ?_, ?_⟩ ?_
  · rw [hentry]
    exact href
  · rw [hentry]
  · rw [hentry]
    exact hused
  · refine hlog.imp_right fun hone => ?_
    have hzero : s.outstanding - 1 = 0 := by omega
    exact ⟨hzero, if_pos hzero⟩

theorem blocksOf_le (hn : n ≤ maxChunk) (off : Nat) : blocksOf off n ≤ 4 := by
  have hn : n ≤ 3072 := hn
  simp only [blocksOf, BSIZE]
  split <;> omega

/-- `writei` with any arguments. -/
theorem writei_stored (h : FsOk ino own Nothing Nothing s) (hentry : Entry ip i (ino i) s)
    (htype : (ino i).type ≠ 0) (hn : n < 2 ^ 32) (hroom : Room E s) :
    wp (writei ip src off n) E (fun r s' => ∃ (k : Nat) (ino' : Nat → Dinode) (own' : Owners)
      (d' : Dinode), k ≤ n ∧ (r = k ∨ (r = -1 ∧ k = 0)) ∧
      (k < n → WriteFails (s.dinode i).size src off n s') ∧ (0 < k → off + k ≤ MAXFILE * BSIZE) ∧
      Stored i src off n k s s' ∧ FsOk ino' own' Nothing Nothing s' ∧ s'.sb = s.sb ∧
      s'.outstanding = s.outstanding ∧ s'.itable = setDinAt s.itable ip d') s := by
  have hlt : i < s.sb.ninodes := hentry.inum ▸ h.range ip hentry.ref
  rw [h.dinode_eq hlt]
  by_cases hfits : off ≤ (ino i).size ∧ off + n ≤ MAXFILE * BSIZE
  · refine (writei_spec h hentry htype hroom hfits.1 hfits.2).mono fun r s' hpost => ?_
    obtain ⟨k, d', own', hr, hk, hfull, hwrote, hw, htable⟩ := hpost
    exact ⟨k, _, own', d', hk, .inl hr, fun hlt => .inr (.inr (hfull hlt).1), fun _ => by omega,
      hwrote.stored h hlt hfits.1 hw.sb, hwrote.ok, hw.sb, hw.outstanding, htable⟩
  · have hsize := h.sizes i ⟨hlt, htype⟩
    refine (writei_refused hentry.din hsize hn hfits).mono fun r s' hpost => ?_
    obtain ⟨hr, rfl⟩ := hpost
    refine ⟨0, ino, own, ino i, Nat.zero_le _, .inr ⟨hr, rfl⟩, fun _ => ?_, nofun, Stored.refl ..,
      h, rfl, rfl, (setDinAt_self hentry.din).symm⟩
    unfold WriteFails
    omega

/-- What one transaction of `filewrite` achieves. -/
structure ChunkDone (E : Panic → Prop) (ip : Nat) (src : Mem) (off n k : Nat) (r : Int)
    (s s' : Vol) :
    Prop where
  le : k ≤ n
  result : r = k ∨ (r = -1 ∧ k = 0)
  stops : k < n → WriteFails (s.dinode (s.itable ip).inum).size src off n s'
  fits : 0 < k → off + k ≤ MAXFILE * BSIZE
  stored : Stored (s.itable ip).inum src off n k s s'
  same : SameOpen ip s s'
  log : LogFree E s'

theorem wp_chunk {rest : Int → FsM β} (h : OpenInode s ip) (hn : n ≤ maxChunk) (hlog : LogFree E s)
    (hrest : ∀ r s' k, ChunkDone E ip src off n k r s s' → wp (rest r) E Q s') :
    wp (beginOp >>= fun _ => ilock ip >>= fun _ => writei ip src off n >>= fun r =>
      iunlock ip >>= fun _ => endOp >>= fun _ => rest r) E Q s := by
  refine wp_beginLock h fun ino own s₂ h₂ => ?_
  have hroom : Room (· = .logTooBig) s₂ := ⟨by rw [h₂.outstanding]; exact Nat.succ_pos _, rfl⟩
  rw [wp_bind]
  have hwrite : wp (writei ip src off n) _ _ s₂ :=
    (writei_stored h₂.ok h₂.toEntry h₂.used (Nat.lt_of_le_of_lt hn (by decide)) hroom).and
      (writei_logs (writeiLoop_logs n))
  refine (hwrite.mono_fail ?_).mono fun r s₃ hpost => ?_
  · rintro e ⟨rfl, hover⟩
    refine hlog.resolve_right fun hfree => ?_
    -- an empty log takes the four blocks of a chunk and what comes with them
    have hfull := hover.length_le
    have hblocks := blocksOf_le hn off
    rw [h₂.lh, hfree.2, List.length_nil, LOGBLOCKS, Nat.sub_zero] at hfull
    omega
  obtain ⟨k, ino', own', d', hk, hr, hstops, hfits, hstored, hok₃, hsb₃, hout₃, htable₃⟩ := hpost.1
  have hentry₃ : s₃.itable ip = { s.itable ip with locked := true, valid := true, din := d' } := by
    rw [htable₃, setDinAt, Function.update_self, h₂.entry]
  have hout : E .logTooBig ∨ s₃.outstanding = 1 := by
    refine hlog.imp_right fun hfree => ?_
    rw [hout₃, h₂.outstanding, hfree.1]
  refine wp_unlockEnd hok₃ hentry₃ h.ref hout fun s' hsb hdisk hinum hopen hlog' => hrest r s' k ?_
  refine ⟨hk, hr, fun hlt => ?_, hfits, ?_, ⟨(hsb.trans hsb₃).trans h₂.sb, hinum, hopen⟩, hlog'⟩
  · rw [h₂.dinode_eq] at hstops
    refine (hstops hlt).imp_right (Or.imp_right (Or.imp_left fun hfull b hb => ?_))
    rw [hsb, hdisk]
    exact hfull b (hsb ▸ hb)
  · exact (hstored.of_disk hsb hdisk).of_begin h₂

/-- The offset after a chunk. -/
theorem ChunkDone.advance {r : Int} {f : IFile} (h : ChunkDone E ip src off n k r s s')
    (hoff : f.off = off) :
    f.advance r = { f with off := off + k } := by
  have hmax : MAXFILE * BSIZE = 274432 := rfl
  have hfits := h.fits
  have hr := h.result
  unfold IFile.advance
  split
  · rw [Nat.mod_eq_of_lt (by omega), hoff, show r.toNat = k by omega]
  · rw [show k = 0 by omega, Nat.add_zero, ← hoff]

/-- A chunk fails for the same reasons as the whole write. -/
theorem WriteFails.of_chunk {size size' m n₁ : Nat} {t : Vol}
    (h : WriteFails size' (src.drop m) (off + m) n₁ t)
    (hsize : size' = if m = 0 then size else max size (off + m)) (hn : m + n₁ ≤ n) :
    WriteFails size src off n t := by
  rcases h with h | h | h | h
  · left
    split at hsize <;> omega
  · right
    left
    omega
  · exact .inr (.inr (.inl h))
  · exact .inr (.inr (.inr (h.of_drop hn)))

end Chunk

/-! ### The whole write -/

section Whole

variable {E : Panic → Prop} {ip off n : Nat} {src : Mem} {s : Vol}

/-- Where the loop of `filewrite` ends: `k` bytes have been stored, all of them or not. -/
structure LoopEnd (ip : Nat) (src : Mem) (off n : Nat) (f : IFile) (s : Vol) (r : Nat × IFile)
    (s' : Vol) (k : Nat) : Prop where
  stored : Stored (s.itable ip).inum src off n k s s'
  same : SameOpen ip s s'
  file : r.2 = { f with off := off + k }
  count : (r.1 = n ∧ k = n) ∨
    (r.1 < n ∧ k < n ∧ WriteFails (s.dinode (s.itable ip).inum).size src off n s')

theorem filewriteLoop_spec (fuel : Nat) :
    ∀ {i : Nat} {f : IFile} {t : Vol}, f.ip = ip → f.off = off + i →
    i ≤ n → n - i ≤ fuel → Stored (s.itable ip).inum src off n i s t → SameOpen ip s t →
      LogFree E t →
    wp (filewriteLoop src n fuel i f) E (fun r s' => ∃ k, LoopEnd ip src off n f s r s' k) t := by
  induction fuel with
  | zero =>
    intro i f t hip hoff hi hfuel hstored hsame hlog
    obtain rfl : i = n := by omega
    rw [filewriteLoop, wp_pure]
    refine ⟨i, hstored, hsame, ?_, .inl ⟨rfl, rfl⟩⟩
    rw [← hoff]
  | succ fuel ih =>
    intro i f t hip hoff hi hfuel hstored hsame hlog
    rw [filewriteLoop]
    by_cases hlt : i < n
    swap
    · obtain rfl : i = n := by omega
      rw [if_neg hlt, wp_pure]
      refine ⟨i, hstored, hsame, ?_, .inl ⟨rfl, rfl⟩⟩
      rw [← hoff]
    rw [if_pos hlt, hip]
    have hpos : 0 < maxChunk := by decide
    refine wp_chunk hsame.opened (min_le_right ..) hlog fun r s' k hdone => ?_
    have hadvance := hdone.advance rfl
    have hdone' := hdone.stored
    rw [hsame.inum, hoff] at hdone'
    have hnext := hstored.next hsame.sb hdone' (by omega)
    have hsame' : SameOpen ip s s' :=
      ⟨hdone.same.sb.trans hsame.sb, hdone.same.inum.trans hsame.inum, hdone.same.opened⟩
    have hk := hdone.le
    have hr := hdone.result
    by_cases hall : r = ((min (n - i) maxChunk : Nat) : Int)
    · -- the chunk is complete
      obtain rfl : k = min (n - i) maxChunk := by omega
      rw [if_neg (not_not.mpr hall), hadvance]
      have hloop := ih (f := { f with off := f.off + min (n - i) maxChunk }) hip (by
        show f.off + min (n - i) maxChunk = off + (i + min (n - i) maxChunk)
        omega) (by omega) (by omega) hnext hsame' hdone.log
      refine hloop.mono fun r' s'' hend => ?_
      obtain ⟨k, hend⟩ := hend
      exact ⟨k, hend.stored, hend.same, hend.file, hend.count⟩
    · rw [if_pos hall, wp_pure]
      refine ⟨i + k, hnext, hsame', ?_, .inr ⟨hlt, by omega, ?_⟩⟩
      · rw [hadvance, hoff, Nat.add_assoc]
      · have hfails := hdone.stops (by omega)
        rw [hsame.inum, hoff] at hfails
        exact hfails.of_chunk hstored.size (by omega)

/-- The result of a write is its length, and then all of it is
stored and the offset behind it; or it is -1, and then some first part of it is stored, with
the offset behind that part, and all of the rest of the file is as before, up to the bytes
behind that part that a copy from user memory may have changed before it failed, if not all
of the user memory can be accessed. -/
theorem filewrite_reports {f : IFile} (h : OpenInode s f.ip) (n : BitVec 32) (hn : 0 ≤ n.toInt) :
    wp (filewrite f src n) (fun e => e = .logTooBig ∧ ¬ (s.outstanding = 0 ∧ s.lh = []))
      (fun r s' => SameOpen f.ip s s' ∧ ∃ k, k ≤ n.toInt.toNat ∧
        Stored (s.itable f.ip).inum src f.off n.toInt.toNat k s s' ∧
        r.2 = { f with off := f.off + k } ∧
        ((r.1 = n.toInt ∧ k = n.toInt.toNat) ∨
          (r.1 = -1 ∧ f.writable = false ∧ k = 0 ∧ s' = s) ∨
          (r.1 = -1 ∧ k < n.toInt.toNat ∧
            WriteFails (s.dinode (s.itable f.ip).inum).size src f.off n.toInt.toNat s'))) s := by
  have hsame : SameOpen f.ip s s := ⟨rfl, rfl, h⟩
  by_cases hwritable : f.writable = false
  · rw [filewrite, if_pos hwritable, wp_pure]
    exact ⟨hsame, 0, Nat.zero_le _, Stored.refl .., rfl, .inr (.inl ⟨rfl, hwritable, rfl, rfl⟩)⟩
  rw [filewrite, if_neg hwritable, wp_bind]
  have hlog : LogFree (fun e => e = .logTooBig ∧ ¬ (s.outstanding = 0 ∧ s.lh = [])) s := by
    by_cases hquiet : s.outstanding = 0 ∧ s.lh = []
    · exact .inr hquiet
    · exact .inl ⟨rfl, hquiet⟩
  have hloop : wp (filewriteLoop src n.toInt.toNat n.toInt.toNat 0 f) _
      (fun r s' => ∃ k, LoopEnd f.ip src f.off n.toInt.toNat f s r s' k) s :=
    filewriteLoop_spec _ rfl rfl (Nat.zero_le _) (Nat.le_refl _) (Stored.refl ..) hsame hlog
  refine hloop.mono fun r s' hend => ?_
  obtain ⟨k, hend⟩ := hend
  rw [wp_pure]
  rcases hend.count with ⟨hcount, hk⟩ | ⟨hcount, hk, hfails⟩
  · refine ⟨hend.same, k, hk.le, hend.stored, hend.file, .inl ⟨if_pos ?_, hk⟩⟩
    omega
  · refine ⟨hend.same, k, hk.le, hend.stored, hend.file, .inr (.inr ⟨if_neg ?_, hk, hfails⟩)⟩
    omega

/-- The small file system with an open file and no transaction. -/
def blankVol : Vol :=
  { blank.setEntry 0 { blank.itable 0 with locked := false } with outstanding := 0 }

theorem openInode_blankVol : OpenInode blankVol 0 where
  wf := ⟨_, _, (blank_ok.setLocked 0 false).setLog rfl rfl rfl⟩
  ref := by decide
  unlocked := rfl
  used := by decide

/-- A write of 1100 bytes of which 1024 can be accessed fails, and has stored 1024 bytes. -/
theorem filewrite_fails_in_part : OpenInode blankVol 0 ∧
    ((filewrite ⟨true, true, 0, 0⟩ ⟨fun _ => 65, some 1024⟩ 1100 blankVol).map fun p =>
      (p.1.1, p.1.2.off, (blankVol.dinode 1).size, (p.2.dinode 1).size)) =
        .ok (-1, 1024, 0, 1024) :=
  ⟨openInode_blankVol, by decide +kernel⟩

/-- A write of 4000 bytes from memory of which 5000 bytes can be accessed, in two chunks. -/
theorem filewrite_reports_whole : ∃ s' : Vol,
    filewrite ⟨true, true, 0, 0⟩ ⟨fun _ => 65, some 5000⟩ 4000 blankVol =
      .ok ((4000, ⟨true, true, 0, 4000⟩), s') ∧
      SameOpen 0 blankVol s' ∧ Stored 1 ⟨fun _ => 65, some 5000⟩ 0 4000 4000 blankVol s' := by
  have hrun : wp (filewrite ⟨true, true, 0, 0⟩ ⟨fun _ => 65, some 5000⟩ 4000) _ _ blankVol :=
    filewrite_reports openInode_blankVol 4000 (by decide)
  have hcount : (filewrite ⟨true, true, 0, 0⟩ ⟨fun _ => 65, some 5000⟩ 4000 blankVol).map
      (fun p => p.1.1) = .ok 4000 := by decide +kernel
  obtain ⟨⟨r, f'⟩, s', hok, hsame, k, hk, hstored, hfile, hcase⟩ :=
    (hrun.mono_fail fun e he => he.2 ⟨rfl, rfl⟩).returns
  rw [hok] at hcount
  obtain rfl : r = 4000 := Except.ok.inj hcount
  obtain rfl : k = 4000 := by
    rcases hcase with ⟨-, hall⟩ | ⟨hbad, -⟩ | ⟨hbad, -⟩
    · exact hall
    · cases hbad
    · cases hbad
  obtain rfl : f' = ⟨true, true, 0, 4000⟩ := hfile
  exact ⟨s', hok, hsame, hstored⟩

end Whole

end Xv6.Fs
