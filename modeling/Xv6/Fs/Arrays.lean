import Xv6.Fs.Logged

/-!
# Files are byte arrays

What a program sees of a file system: each inode is an array of bytes.

* `splice`: a part of an array is replaced; the array may grow.
* `WellFormed`, `contentOf`: well-formed file systems and the arrays in them.
* `writei_splice`, `readi_slice`: `writei` and `readi` as operations on arrays.
* `blank`: a small file system with one empty file.
* `inode_byte_array`: both together, with the one way in which `writei` can fail.
-/

namespace Xv6.Fs

open Xv6.Lib.Bytes Xv6.Lib.Wp

/-! ## Arrays -/

/-- The array `old` with `new` from position `off` on. -/
def splice (old : List UInt8) (off : Nat) (new : List UInt8) : List UInt8 :=
  old.take off ++ new ++ old.drop (off + new.length)

/-- The first `k` bytes of a memory. -/
def Mem.take (u : Mem) (k : Nat) : List UInt8 := (List.range k).map u.byte

/-- An array that agrees with `new` in the part that was replaced and with `old` elsewhere. -/
theorem map_range_eq_splice {old : List UInt8} {off k : Nat} {f g : Nat → UInt8}
    (hoff : off ≤ old.length) (hnew : ∀ o, off ≤ o → o < off + k → f o = g (o - off))
    (hold : ∀ o (ho : o < old.length), o < off ∨ off + k ≤ o → f o = old.get ⟨o, ho⟩) :
    (List.range (max old.length (off + k))).map f = splice old off ((List.range k).map g) := by
  have htake : (old.take off).length = off := by
    rw [List.length_take]
    omega
  refine List.ext_getElem ?_ fun o ho₁ ho₂ => ?_
  · simp only [splice, List.length_map, List.length_range, List.length_append, htake,
      List.length_drop]
    omega
  · rw [List.getElem_map, List.getElem_range]
    simp only [List.length_map, List.length_range] at ho₁
    simp only [splice]
    rcases Nat.lt_or_ge o (off + k) with hlow | hhigh
    · rw [List.getElem_append_left (by simp [htake]; omega)]
      rcases Nat.lt_or_ge o off with hpre | hmid
      · rw [List.getElem_append_left (by omega), List.getElem_take]
        exact hold o (by omega) (.inl hpre)
      · rw [List.getElem_append_right (by omega), List.getElem_map, List.getElem_range, htake]
        exact hnew o hmid hlow
    · rw [List.getElem_append_right (by simp [htake]; omega), List.getElem_drop]
      rw [hold o (by omega) (.inr hhigh)]
      simp only [List.get_eq_getElem, List.length_append, htake, List.length_map, List.length_range]
      congr 1
      omega

theorem splice_nil (old : List UInt8) (off : Nat) : splice old off [] = old := by
  simp [splice]

/-- Two parts that follow each other. -/
theorem splice_splice {old new : List UInt8} {off : Nat} (more : List UInt8)
    (hoff : off ≤ old.length) :
    splice (splice old off new) (off + new.length) more = splice old off (new ++ more) := by
  have hlen : (old.take off ++ new).length = off + new.length := by
    rw [List.length_append, List.length_take]
    omega
  rw [splice, splice, splice, ← hlen, List.take_left, List.drop_append, hlen]
  simp [List.drop_drop, List.length_append, Nat.add_assoc]
  omega

/-! ## The arrays of a file system -/

/-- The file system is well formed, but for holes in the files in `H`. -/
def WellFormed (s : Vol) (H : Nat → Prop := Nothing) : Prop :=
  ∃ ino own, FsOk ino own Nothing Nothing s H

/-- The inode `i` as it is on the disk. -/
def Vol.dinode (s : Vol) (i : Nat) : Dinode := dinodeAt s.sb s.disk i

def Vol.contentOf (s : Vol) (i : Nat) : List UInt8 := (s.dinode i).content s.disk

/-- `readi` into kernel memory returns parts of the array `content` and changes nothing.
The end of the part is computed in 32 bits. -/
def ReadsAs (ip : Nat) (content : List UInt8) (s : Vol) : Prop :=
  ∀ (dst : Mem) (off n : Nat), dst.limit = none → n < 2 ^ 32 →
    wp (readi ip dst off n) (fun _ => False) (fun r s' => ∃ k : Nat, s' = s ∧ r.1 = k ∧
      k = min ((off + n) % 2 ^ 32) content.length - off ∧
      r.2.take k = (content.drop off).take k ∧ ∀ a, k ≤ a → r.2.byte a = dst.byte a) s

section Arrays

variable {ino : Nat → Dinode} {own : Owners} {H : Nat → Prop} {s s' : Vol}
  {i ip : Nat}

theorem FsOk.dinode_eq (h : FsOk ino own Nothing Nothing s H) (hi : i < s.sb.ninodes) :
    s.dinode i = ino i := h.disk i hi nofun

/-- A file that is kept has the same content. -/
theorem KeptFile.content_eq {held X : Nat → Prop} (h : FsOk ino own held X s H)
    (hi : Allocated s.sb ino i) (hH : ¬ H i) {disk' : Disk}
    (hkept : KeptFile s.disk disk' (ino i)) :
    (ino i).content disk' = (ino i).content s.disk := by
  refine List.map_congr_left fun o ho => ?_
  obtain ⟨hmax, hne⟩ := h.ptr_ne_zero hi hH (List.mem_range.mp ho)
  exact hkept.byte_eq hmax hne

/-- The entry of an inode that has been locked. -/
theorem FsOk.entry {held : Nat → Prop} (h : FsOk ino own held Nothing s)
    (href : 0 < (s.itable ip).ref) (hvalid : (s.itable ip).valid = true) :
    Entry ip (s.itable ip).inum (ino (s.itable ip).inum) s ∧ (ino (s.itable ip).inum).type ≠ 0 :=
  ⟨⟨href, rfl, (h.valid ip href hvalid nofun).1⟩, (h.valid ip href hvalid nofun).2⟩

/-- `writei` replaces a part of the array.  A write from user memory that stops early has
changed bytes that it does not count. -/
theorem writei_splice {E : Panic → Prop} {src : Mem} {off n : Nat}
    (h : FsOk ino own Nothing Nothing s) (href : 0 < (s.itable ip).ref)
    (hvalid : (s.itable ip).valid = true) (hi : (s.itable ip).inum = i)
    (hroom : Room E s) (hoff : off ≤ (s.dinode i).size)
    (hmax : off + n ≤ MAXFILE * BSIZE) :
    wp (writei ip src off n) E (fun r s' => ∃ k : Nat, r = k ∧ k ≤ n ∧
      (k < n → Full s' ∨ src.Short n) ∧ WellFormed s' ∧
      s'.sb = s.sb ∧ s'.outstanding = s.outstanding ∧
      s'.itable = setDinAt s.itable ip (s'.dinode i) ∧
      (s'.dinode i).size = max (s.dinode i).size (off + k) ∧
      (¬ src.Short n ∨ k = n → s'.contentOf i = splice (s.contentOf i) off (src.take k)) ∧
      ∀ j, j < s.sb.ninodes → j ≠ i → s'.dinode j = s.dinode j ∧
        ((s.dinode j).type ≠ 0 → s'.contentOf j = s.contentOf j)) s := by
  subst hi
  obtain ⟨hentry, htype⟩ := h.entry href hvalid
  have hlt := h.range ip href
  have hdin : ∀ j, j < s.sb.ninodes → s.dinode j = ino j := fun j hj => h.dinode_eq hj
  rw [hdin _ hlt] at hoff
  refine (writei_spec h hentry htype hroom hoff hmax).mono fun r s' hpost => ?_
  obtain ⟨k, d', own', hr, hk, hfull, hwrote, hw, htable⟩ := hpost
  have hdin' : ∀ j, j < s.sb.ninodes → s'.dinode j = Function.update ino (s.itable ip).inum d' j :=
    fun j hj => hwrote.ok.dinode_eq (hw.sb.symm ▸ hj)
  have hself := hdin' _ hlt
  rw [Function.update_self] at hself
  have hsize : d'.size = max (ino (s.itable ip).inum).size (off + k) := by rw [hwrote.attrs]
  refine ⟨k, hr, hk, fun hlt => (hfull hlt).1, ⟨_, _, hwrote.ok⟩, hw.sb, hw.outstanding, ?_, ?_, ?_,
    fun j hj hne => ?_⟩
  · rw [hself, htable]
  · rw [hself, hdin _ hlt, hsize]
  · intro hwhole
    rw [Vol.contentOf, Vol.contentOf, hself, hdin _ hlt, Dinode.content, hsize]
    rw [← length_content (ino (s.itable ip).inum) s.disk] at hoff ⊢
    refine map_range_eq_splice hoff hwrote.filled fun o ho hout => ?_
    have hget : ((ino (s.itable ip).inum).content s.disk).get ⟨o, ho⟩ =
        (ino (s.itable ip).inum).byte s.disk o := by
      simp only [Dinode.content, List.get_eq_getElem, List.getElem_map, List.getElem_range]
    rw [hget]
    rw [length_content] at ho
    refine hwrote.kept o ho (hout.imp_right fun hge => ?_)
    rcases hwhole with hsrc | rfl
    · exact .inr ⟨hsrc, hge⟩
    · exact .inl hge
  · have hsame : s'.dinode j = ino j := by rw [hdin' j hj, Function.update_of_ne hne]
    refine ⟨by rw [hsame, hdin j hj], fun htype => ?_⟩
    rw [hdin j hj] at htype
    rw [Vol.contentOf, Vol.contentOf, hsame, hdin j hj]
    exact KeptFile.content_eq h ⟨hj, htype⟩ not_false (hwrote.others j ⟨hj, htype⟩ hne)

/-- What `readi` sees of an inode is the array. -/
theorem readi_slice (h : WellFormed s) (href : 0 < (s.itable ip).ref)
    (hvalid : (s.itable ip).valid = true) (hi : (s.itable ip).inum = i) :
    ReadsAs ip (s.contentOf i) s := by
  intro dst off n hdst hn
  subst hi
  obtain ⟨ino, own, h⟩ := h
  obtain ⟨hentry, htype⟩ := h.entry href hvalid
  have hlt := h.range ip href
  have hreach : ∀ k, dst.reach 0 k = k := by
    intro k
    rw [Mem.reach, hdst]
  refine (readi_spec h hentry.din ⟨hlt, htype⟩ hn).mono fun r s' hpost => ?_
  obtain ⟨rfl, hcount, hmem⟩ := hpost
  rw [hreach, if_pos rfl] at hcount
  rw [hreach] at hmem
  refine ⟨_, rfl, hcount, ?_, ?_, fun a ha => ?_⟩
  · rw [Vol.contentOf, h.dinode_eq hlt, length_content]
    rfl
  · rw [hmem, Vol.contentOf, h.dinode_eq hlt, Mem.take]
    refine List.ext_getElem ?_ fun o ho₁ ho₂ => ?_
    · simp only [List.length_map, List.length_range, List.length_take, List.length_drop,
        length_content, readLen]
      omega
    · simp only [List.length_map, List.length_range] at ho₁
      simp only [List.getElem_map, List.getElem_range, List.getElem_take, List.getElem_drop,
        Dinode.content, Mem.fill]
      rw [copyBytes, if_pos (by omega)]
      congr 1
      omega
  · rw [hmem, Mem.fill]
    exact if_neg (by omega)

end Arrays

/-! ## A small file system -/

/-- The boot block, one block of inodes, one block of the free map, one block of the log. -/
def smallSb : Superblock where
  size := 64
  nblocks := 60
  ninodes := 16
  inodestart := 1
  bmapstart := 2

/-- Inode 1 is an empty file with one link, and all data blocks are free. -/
def blankDisk : Disk := fun b a =>
  if b = 1 then if a = 64 then 2 else if a = 70 then 1 else 0
  else if b = 2 ∧ a = 0 then 15
  else 0

/-- The file is open and locked, and a transaction has begun. -/
def blank : Vol where
  sb := smallSb
  disk := blankDisk
  itable e :=
    if e = 0 then
      { inum := 1, ref := 1, locked := true, valid := true, din := dinodeAt smallSb blankDisk 1 }
    else { inum := 0, ref := 0, locked := false, valid := false, din := freshDinode 0 }
  outstanding := 1

theorem blank_table {e : Nat} (href : 0 < (blank.itable e).ref) : e = 0 := by
  by_contra hne
  rw [blank] at href
  simp [hne] at href

theorem blank_ok : FsOk (dinodeAt smallSb blankDisk) (fun _ => none) Nothing Nothing blank := by
  have haddrs : ∀ i, i < 16 → ∀ k, k ≤ NDIRECT → (dinodeAt smallSb blankDisk i).addrs k = 0 := by
    decide +kernel
  have hsize : ∀ i, i < 16 → (dinodeAt smallSb blankDisk i).size = 0 := by decide +kernel
  have hbits : ∀ b, b < 64 → (bitAt smallSb blankDisk b = true ↔ b < 4) := by decide +kernel
  have hptr : ∀ i, i < 16 → ∀ k, (dinodeAt smallSb blankDisk i).ptr blankDisk k = 0 := fun i hi k =>
    ptr_eq_zero (haddrs i hi)
  refine ⟨⟨by decide, by decide, by decide, by decide⟩,
    ⟨fun i k hi _ hne => absurd (hptr i hi.1 k) hne, nofun, nofun, fun b hb => ?_⟩,
    fun i _ _ => rfl, fun i _ => repr_readDinode _ _, fun e href => ?_, fun e href _ _ => ?_,
    fun e e' href href' _ => ?_, fun i hi => ?_, fun i hi _ k hk => ?_⟩
  · exact (hbits b hb).trans ⟨.inl, fun h => h.elim id fun h => h.elim (absurd rfl) False.elim⟩
  · rw [blank_table href]
    decide
  · rw [blank_table href]
    exact ⟨rfl, by decide +kernel⟩
  · rw [blank_table href, blank_table href']
  · rw [hsize i hi.1]
    exact Nat.zero_le _
  · rw [hsize i hi.1] at hk
    exact absurd hk (Nat.not_lt_zero _)

/-! ## Inodes are byte arrays -/

/-- The log may run full while `writei` works: each block of the range, its map block, the
indirect block and its map block are in the log before the last call of `log_write`. -/
def LogShort (off n : Nat) (s : Vol) (e : Panic) : Prop :=
  e = .logTooBig ∧ LOGBLOCKS ≤ s.lh.length + (2 * blocksOf off n + 2)

/-- A locked inode of a well-formed file system behaves as an array of bytes: inside of a
transaction `writei` from kernel memory replaces a part of it, up to where the disk is
full, and leaves all other inodes alone, unless the log runs full; `readi` returns its
parts. -/
theorem inode_byte_array (s : Vol) (ip : Nat) (h : WellFormed s) (href : 0 < (s.itable ip).ref)
    (hvalid : (s.itable ip).valid = true) :
    (∀ (src : Mem) (off n : Nat), src.limit = none → 0 < s.outstanding →
      off ≤ (s.dinode (s.itable ip).inum).size → off + n ≤ MAXFILE * BSIZE →
      wp (writei ip src off n) (LogShort off n s) (fun r s' => ∃ k : Nat, r = k ∧ k ≤ n ∧
        (k < n → Full s') ∧ WellFormed s' ∧
        (s'.dinode (s.itable ip).inum).size = max (s.dinode (s.itable ip).inum).size (off + k) ∧
        ReadsAs ip (splice (s.contentOf (s.itable ip).inum) off (src.take k)) s' ∧
        ∀ j, j < s.sb.ninodes → j ≠ (s.itable ip).inum → s'.dinode j = s.dinode j ∧
          ((s.dinode j).type ≠ 0 → s'.contentOf j = s.contentOf j)) s) ∧
    ReadsAs ip (s.contentOf (s.itable ip).inum) s := by
  refine ⟨fun src off n hsrc htrans hoff hmax => ?_, readi_slice h href hvalid rfl⟩
  obtain ⟨ino, own, hok⟩ := h
  have hroom : Room (· = .logTooBig) s := ⟨htrans, rfl⟩
  have hboth : wp (writei ip src off n) _ _ s :=
    (writei_splice hok href hvalid rfl hroom hoff hmax).and (writei_logs (writeiLoop_logs n))
  refine (hboth.mono_fail ?_).mono fun r s' hpost => ?_
  · rintro e ⟨rfl, hover⟩
    exact ⟨rfl, hover.length_le⟩
  obtain ⟨k, hr, hk, hfull, hwf, -, -, htable, hsize, hcontent, hothers⟩ := hpost.1
  have hshort := Mem.not_short hsrc n
  refine ⟨k, hr, hk, fun hlt => (hfull hlt).resolve_right hshort, hwf, hsize, ?_, hothers⟩
  have hsame : s'.itable ip = { s.itable ip with din := s'.dinode (s.itable ip).inum } := by
    rw [htable]
    exact Function.update_self ip _ _
  rw [← hcontent (.inl hshort)]
  exact readi_slice hwf (by rw [hsame]; exact href) (by rw [hsame]; exact hvalid) (by rw [hsame])

/-- Three bytes are written to the empty file and read back. -/
theorem inode_byte_array_blank : ∃ s' : Vol,
    writei 0 ⟨fun a => UInt8.ofNat (65 + a), none⟩ 0 3 blank = .ok (3, s') ∧
      (s'.dinode 1).size = 3 ∧ ReadsAs 0 [65, 66, 67] s' := by
  have hempty : blank.contentOf 1 = [] ∧ (blank.dinode 1).size = 0 := by decide +kernel
  have hcount : (writei 0 ⟨fun a => UInt8.ofNat (65 + a), none⟩ 0 3 blank).map Prod.fst =
      .ok 3 := by
    decide +kernel
  have hwrite := (inode_byte_array blank 0 ⟨_, _, blank_ok⟩ (by decide) (by decide)).1
    ⟨fun a => UInt8.ofNat (65 + a), none⟩ 0 3 rfl (by decide) (Nat.zero_le _) (by decide)
  obtain ⟨r, s', hrun, k, hr, -, -, -, hsize, hreads, -⟩ :=
    wp.returns (hwrite.mono_fail fun e hshort => absurd hshort.2 (by decide))
  rw [hrun] at hcount
  obtain rfl : r = 3 := Except.ok.inj hcount
  obtain rfl : k = 3 := by omega
  refine ⟨s', hrun,
    hsize.trans (by rw [show (blank.itable 0).inum = 1 from rfl, hempty.2]; rfl), ?_⟩
  rw [show (blank.itable 0).inum = 1 from rfl, hempty.1] at hreads
  exact hreads

/-- A write that the log cannot hold: `writei` of 32 blocks to the empty file, as the first
write of its transaction, does not return. -/
theorem writei_log_overflow : WellFormed blank ∧ 0 < (blank.itable 0).ref ∧
    (blank.itable 0).valid = true ∧ 0 < blank.outstanding ∧ blank.lh = [] ∧
    32 * BSIZE ≤ MAXFILE * BSIZE ∧
    writei 0 ⟨fun _ => 65, none⟩ 0 (32 * BSIZE) blank = .error .logTooBig := by
  have hrun : (match writei 0 ⟨fun _ => 65, none⟩ 0 (32 * BSIZE) blank with
    | .error e => decide (e = .logTooBig)
    | .ok _ => false) = true := by decide +kernel
  refine ⟨⟨_, _, blank_ok⟩, by decide, by decide, by decide, rfl, by decide, ?_⟩
  split at hrun
  · next e heq => rw [heq, of_decide_eq_true hrun]
  · cases hrun

end Xv6.Fs
