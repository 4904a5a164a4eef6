import Xv6.Fs.Content

/-!
# Writing to a file

`writei` replaces a part of a file and may extend it.

* `FsOk.writeData`, `byte_writeData`: a change of one data block.
* `Written`: how far the loop of `writei` has come, and `Written.extend`,
  `Written.write` for its two steps.
* `writeiLoop_spec`, `writei_spec`.
-/

namespace Xv6.Fs

open Xv6.Lib.Bytes Xv6.Lib.Wp
open Function (update update_of_ne update_self)

/-! ## One data block -/

section OneBlock

variable {ino : Nat → Dinode} {own : Owners} {held X : Nat → Prop} {s : Vol} {i k : Nat}

/-- The content of the block `k` of a file changes. -/
theorem FsOk.writeData (h : FsOk ino own held X s) (hi : Allocated s.sb ino i) (hk : k < MAXFILE)
    (hne : (ino i).ptr s.disk k ≠ 0) (blk : Block) :
    FsOk ino own held X { s with disk := update s.disk ((ino i).ptr s.disk k) blk } := by
  have hown := h.blocks.points i k hi (Nat.le_of_lt hk) hne
  have hmeta := (h.blocks.owned _ _ _ hown).1.1
  refine h.setDisk rfl rfl (h.blocks.write h.sb hmeta (fun j hj => ?_) blk) (fun j hj => ?_)
    fun j hj l => ?_
  · rw [hown, Option.some.injEq] at hj
    exact Nat.ne_of_lt hk (Prod.mk.inj hj).2
  · exact dinodeAt_of_ne _ (h.sb.data_ne_iblock hmeta hj)
  · refine ptr_congr (fun hind => update_of_ne ?_ _ _) l
    intro heq
    have hown' := h.blocks.points j MAXFILE hj (Nat.le_refl _)
    rw [ptr_indirect] at hown'
    have hmax := hown' hind
    rw [heq, hown, Option.some.injEq] at hmax
    exact Nat.ne_of_lt hk (Prod.mk.inj hmax).2

/-- The files after a change of one data block. -/
theorem FsOk.writeData_kept (h : FsOk ino own held X s) (hi : Allocated s.sb ino i)
    (hk : k < MAXFILE) (hne : (ino i).ptr s.disk k ≠ 0) (blk : Block) {j : Nat}
    (hj : Allocated s.sb ino j) (hji : j ≠ i) :
    KeptFile s.disk (update s.disk ((ino i).ptr s.disk k) blk) (ino j) := by
  refine h.blocks.keptFile hj fun c l hc => update_of_ne ?_ _ _
  rintro rfl
  rw [h.blocks.points i k hi (Nat.le_of_lt hk) hne, Option.some.injEq] at hc
  exact hji (Prod.mk.inj hc).1.symm

theorem FsOk.ptr_writeData (h : FsOk ino own held X s) (hi : Allocated s.sb ino i)
    (hk : k < MAXFILE) (hne : (ino i).ptr s.disk k ≠ 0) (blk : Block) (l : Nat) :
    (ino i).ptr (update s.disk ((ino i).ptr s.disk k) blk) l = (ino i).ptr s.disk l := by
  refine ptr_congr (fun hind => update_of_ne ?_ _ _) l
  intro heq
  have hown := h.blocks.points i MAXFILE hi (Nat.le_refl _)
  rw [ptr_indirect] at hown
  have hmax := hown hind
  rw [heq, h.blocks.points i k hi (Nat.le_of_lt hk) hne, Option.some.injEq] at hmax
  exact Nat.ne_of_lt hk (Prod.mk.inj hmax).2

/-- The bytes of the file after a change of its block `k`. -/
theorem FsOk.byte_writeData (h : FsOk ino own held X s) (hi : Allocated s.sb ino i)
    (hk : k < MAXFILE) (hne : (ino i).ptr s.disk k ≠ 0) (blk : Block) {o : Nat}
    (ho : o / BSIZE < MAXFILE) (hptr : (ino i).ptr s.disk (o / BSIZE) ≠ 0) :
    (ino i).byte (update s.disk ((ino i).ptr s.disk k) blk) o =
      if o / BSIZE = k then blk (o % BSIZE) else (ino i).byte s.disk o := by
  rw [Dinode.byte, h.ptr_writeData hi hk hne]
  rcases eq_or_ne (o / BSIZE) k with heq | hother
  · rw [if_pos heq, heq, update_self]
  · rw [if_neg hother, update_of_ne, Dinode.byte]
    intro heq
    exact hother (h.blocks.ptr_inj hi hi (Nat.le_of_lt ho) (Nat.le_of_lt hk) heq hptr).2

end OneBlock

/-! ## The loop -/

section Loop

variable {E : Panic → Prop} {ino : Nat → Dinode} {own : Owners} {held : Nat → Prop}
  {s s₁ s₂ : Vol} {i ip off n tot : Nat} {src : Mem} {d₁ d₂ : Dinode}
  {own₁ own₂ : Owners}

/-- Not all of the first `n` bytes of the memory can be accessed. -/
def Mem.Short (u : Mem) (n : Nat) : Prop := ∃ l, u.limit = some l ∧ l < n

theorem Mem.not_short {u : Mem} (h : u.limit = none) (n : Nat) : ¬ u.Short n := by
  rintro ⟨l, hl, -⟩
  rw [h] at hl
  cases hl

/-- A copy stops early only in memory that is too short. -/
theorem Mem.short_of_reach {u : Mem} {m : Nat} (h : u.reach tot m < m) (hn : tot + m ≤ n) :
    u.Short n := by
  unfold Mem.reach at h
  split at h
  · omega
  · next l hl => exact ⟨l, hl, by omega⟩

/-- From `s` to `s'` the loop has written the first `tot` of `n` bytes at `off`.  A copy that
failed may have changed some of the bytes behind them. -/
structure Written (ino : Nat → Dinode) (held : Nat → Prop) (i : Nat) (src : Mem) (off n tot : Nat)
    (d' : Dinode) (own' : Owners) (s s' : Vol) : Prop where
  ok : FsOk (update ino i d') own' held (· = i) s'
  attrs : d' = { ino i with addrs := d'.addrs }
  ptrs : ∀ k, k ≤ MAXFILE → (ino i).ptr s.disk k ≠ 0 → d'.ptr s'.disk k = (ino i).ptr s.disk k
  others : ∀ j, Allocated s.sb ino j → j ≠ i → KeptFile s.disk s'.disk (ino j)
  filled : ∀ o, off ≤ o → o < off + tot →
    d'.ptr s'.disk (o / BSIZE) ≠ 0 ∧ d'.byte s'.disk o = src.byte (o - off)
  kept : ∀ o, o / BSIZE < MAXFILE → (ino i).ptr s.disk (o / BSIZE) ≠ 0 →
    o < off ∨ off + n ≤ o ∨ (¬ src.Short n ∧ off + tot ≤ o) →
    d'.byte s'.disk o = (ino i).byte s.disk o

theorem Written.refl (h : FsOk ino own held (· = i) s) :
    Written ino held i src off n 0 (ino i) own s s :=
  ⟨by rwa [Function.update_eq_self], rfl, fun _ _ _ => rfl,
    fun j _ _ => KeptFile.refl s.disk (ino j), fun o _ _ => by omega, fun _ _ _ _ => rfl⟩

theorem Written.setLog (h : Written ino held i src off n tot d₁ own₁ s s₁) (hsb : s₂.sb = s₁.sb)
    (hdisk : s₂.disk = s₁.disk) (htable : s₂.itable = s₁.itable) :
    Written ino held i src off n tot d₁ own₁ s s₂ := by
  refine ⟨h.ok.setLog hsb hdisk htable, h.attrs, ?_, ?_, ?_, ?_⟩
  · rw [hdisk]
    exact h.ptrs
  · rw [hdisk]
    exact h.others
  · rw [hdisk]
    exact h.filled
  · rw [hdisk]
    exact h.kept

/-- `bmap` adds a block. -/
theorem Written.extend (h : Written ino held i src off n tot d₁ own₁ s s₁) (hsb : s₁.sb = s.sb)
    (hmax : off + tot ≤ MAXFILE * BSIZE)
    (hext : Extended (update ino i d₁) held i d₂ own₂ s₁ s₂) :
    Written ino held i src off n tot d₂ own₂ s s₂ := by
  have hok := hext.ok
  have hattrs := hext.attrs
  have hptrs := hext.ptrs
  have hdata := hext.data
  rw [Function.update_idem] at hok
  rw [update_self] at hattrs hptrs hdata
  have hbyte : ∀ o, o / BSIZE < MAXFILE → d₁.ptr s₁.disk (o / BSIZE) ≠ 0 →
      d₂.byte s₂.disk o = d₁.byte s₁.disk o := by
    intro o ho hne
    rw [Dinode.byte, hptrs _ (Nat.le_of_lt ho) hne, hdata _ ho hne, Dinode.byte]
  refine ⟨hok, by rw [hattrs, h.attrs], fun k hk hne => ?_, fun j hj hne => ?_,
    fun o hlow hhigh => ?_, fun o ho hne hout => ?_⟩
  · rw [hptrs k hk (by rw [h.ptrs k hk hne]; exact hne)]
    exact h.ptrs k hk hne
  · have hsecond := hext.others j (by rwa [Allocated, update_of_ne hne, hsb]) hne
    rw [update_of_ne hne] at hsecond
    exact (h.others j hj hne).trans hsecond
  · obtain ⟨hne, hfilled⟩ := h.filled o hlow hhigh
    have ho : o / BSIZE < MAXFILE :=
      (Nat.div_lt_iff_lt_mul (by decide)).mpr (Nat.lt_of_lt_of_le hhigh hmax)
    rw [hptrs _ (Nat.le_of_lt ho) hne, hbyte o ho hne]
    exact ⟨hne, hfilled⟩
  · have hptr := h.ptrs _ (Nat.le_of_lt ho) hne
    rw [hbyte o ho (by rw [hptr]; exact hne)]
    exact h.kept o ho hne hout

/-- `k` bytes from position `tot` of `byte` on are copied to the offset `o` of the block `a`. -/
def Vol.copyIn (s : Vol) (a o : Nat) (byte : Nat → UInt8) (tot k : Nat) : Vol :=
  { s with disk := update s.disk a (copyBytes (s.disk a) o byte tot k) }

theorem copyIn_disk (s : Vol) (a o : Nat) (byte : Nat → UInt8) (tot k : Nat) :
    (s.copyIn a o byte tot k).disk = update s.disk a (copyBytes (s.disk a) o byte tot k) :=
  rfl

/-- The bytes of the file after a copy into one of its blocks. -/
theorem FsOk.byte_copy {X : Nat → Prop} (h : FsOk ino own held X s) (hi : Allocated s.sb ino i)
    {p k : Nat} (hp : p / BSIZE < MAXFILE) (hne : (ino i).ptr s.disk (p / BSIZE) ≠ 0)
    (hk : p % BSIZE + k ≤ BSIZE) (byte : Nat → UInt8) (tot o : Nat) (ho : o / BSIZE < MAXFILE)
    (hptr : (ino i).ptr s.disk (o / BSIZE) ≠ 0) :
    (ino i).byte (s.copyIn ((ino i).ptr s.disk (p / BSIZE)) (p % BSIZE) byte tot k).disk o =
      if p ≤ o ∧ o < p + k then byte (tot + (o - p)) else (ino i).byte s.disk o := by
  rw [copyIn_disk, h.byte_writeData hi hp hne _ ho hptr]
  have hsplit : ∀ x, x = BSIZE * (x / BSIZE) + x % BSIZE := fun x => (Nat.div_add_mod x BSIZE).symm
  have hpsplit := hsplit p
  have hosplit := hsplit o
  have homod : o % BSIZE < BSIZE := Nat.mod_lt _ (by decide)
  split
  · next heq =>
    rw [heq] at hosplit
    simp only [copyBytes]
    by_cases hin : p ≤ o ∧ o < p + k
    · rw [if_pos (by omega), if_pos hin]
      congr 1
      omega
    · rw [if_neg (by omega), if_neg hin, Dinode.byte, heq]
  · next hother =>
    rw [if_neg]
    rintro ⟨hlow, hhigh⟩
    apply hother
    -- `o` lies between `p` and the end of the block of `p`
    refine Nat.le_antisymm ?_ (Nat.div_le_div_right hlow)
    refine Nat.le_of_lt_succ ((Nat.div_lt_iff_lt_mul (by decide)).mpr ?_)
    rw [Nat.succ_mul, Nat.mul_comm (p / BSIZE)]
    omega

/-- A copy of `k` bytes into the block; a copy that fails does not count. -/
theorem Written.write (h : Written ino held i src off n tot d₁ own₁ s s₁) (hsb : s₁.sb = s.sb)
    (hi : Allocated s₁.sb (update ino i d₁) i) {k tot' : Nat}
    (hp : (off + tot) / BSIZE < MAXFILE) (hne : d₁.ptr s₁.disk ((off + tot) / BSIZE) ≠ 0)
    (hk : (off + tot) % BSIZE + k ≤ BSIZE) (hn : tot + k ≤ n)
    (hmax : off + n ≤ MAXFILE * BSIZE)
    (htot : tot' = tot + k ∨ (tot' = tot ∧ src.Short n)) :
    Written ino held i src off n tot' d₁ own₁ s
      (s₁.copyIn (d₁.ptr s₁.disk ((off + tot) / BSIZE)) ((off + tot) % BSIZE) src.byte tot k) := by
  have hself : update ino i d₁ i = d₁ := update_self ..
  have hne' : (update ino i d₁ i).ptr s₁.disk ((off + tot) / BSIZE) ≠ 0 := by rwa [hself]
  have hptr := h.ok.ptr_writeData hi hp hne'
  have hbyte := h.ok.byte_copy hi hp hne' hk src.byte tot
  have hok := h.ok.writeData hi hp hne'
  have hothers := h.ok.writeData_kept hi hp hne'
  rw [hself] at hptr hbyte hok hothers
  refine ⟨hok _, h.attrs, fun l hl hl0 => ?_, fun j hj hji => ?_, fun o hlow hhigh => ?_,
    fun o ho hold hout => ?_⟩
  · rw [← h.ptrs l hl hl0]
    exact hptr _ l
  · have halloc : Allocated s₁.sb (update ino i d₁) j := by
      rwa [Allocated, update_of_ne hji, hsb]
    have hsecond := hothers (copyBytes (s₁.disk (d₁.ptr s₁.disk ((off + tot) / BSIZE)))
      ((off + tot) % BSIZE) src.byte tot k) halloc hji
    rw [update_of_ne hji] at hsecond
    exact (h.others j hj hji).trans hsecond
  · have ho : o / BSIZE < MAXFILE := (Nat.div_lt_iff_lt_mul (by decide)).mpr (by omega)
    by_cases hnew : off + tot ≤ o
    · have hsame : o / BSIZE = (off + tot) / BSIZE := by
        simp only [BSIZE] at hk ⊢
        omega
      refine ⟨?_, ?_⟩
      · rw [copyIn_disk, hptr, hsame]
        exact hne
      · rw [hbyte o ho (by rw [hsame]; exact hne), if_pos (by omega)]
        congr 1
        omega
    · obtain ⟨hne', hfilled⟩ := h.filled o hlow (by omega)
      rw [hbyte o ho hne', if_neg (by omega), copyIn_disk, hptr]
      exact ⟨hne', hfilled⟩
  · have hptr' := h.ptrs _ (Nat.le_of_lt ho) hold
    rw [hbyte o ho (by rw [hptr']; exact hold), if_neg ?_]
    · refine h.kept o ho hold (hout.imp_right fun hout => hout.imp_right fun hout => ⟨hout.1, ?_⟩)
      omega
    · rintro ⟨hlow, hhigh⟩
      rcases hout with hout | hout | ⟨hshort, hout⟩
      · omega
      · omega
      · rcases htot with rfl | ⟨-, hbad⟩
        · omega
        · exact hshort hbad

/-- A write stops where a block ends. -/
def Stops (off tot : Nat) : Prop := tot = 0 ∨ (off + tot) % BSIZE = 0

/-- What the loop of `writei` achieves from the state `s₁` on. -/
def LoopDone (ino : Nat → Dinode) (held : Nat → Prop) (i ip : Nat) (src : Mem) (off n : Nat)
    (s : Vol) (r : Nat × Nat) (s' : Vol) : Prop :=
  r.2 = off + r.1 ∧ r.1 ≤ n ∧ (r.1 < n → (Full s' ∨ src.Short n) ∧ Stops off r.1) ∧
    ∃ d' own', Written ino held i src off n r.1 d' own' s s' ∧ Within s s' ∧
      s'.itable = setDinAt s.itable ip d'

theorem writeiLoop_spec (hmax : off + n ≤ MAXFILE * BSIZE) (htype : (ino i).type ≠ 0)
    (hentry : Entry ip i (ino i) s) (fuel : Nat)
    (h : Written ino held i src off n tot d₁ own₁ s s₁) (hw : Within s s₁)
    (htable : s₁.itable = setDinAt s.itable ip d₁) (htot : tot ≤ n) (hfuel : n - tot ≤ fuel)
    (hstops : tot < n → Stops off tot) (hroom : Room E s) :
    wp (writeiLoop ip src n fuel tot (off + tot)) E (LoopDone ino held i ip src off n s) s₁ := by
  have hdone : ∀ {tot' : Nat} {d₁ : Dinode} {own₁ : Owners} {s₁ : Vol},
      Written ino held i src off n tot' d₁ own₁ s s₁ → s₁.itable = setDinAt s.itable ip d₁ →
      Within s s₁ → tot' ≤ n → (tot' < n → (Full s₁ ∨ src.Short n) ∧ Stops off tot') →
      wp (pure (tot', off + tot') : FsM (Nat × Nat)) E (LoopDone ino held i ip src off n s) s₁ := by
    intro tot' d₁ own₁ s₁ hwritten htable hwithin hle hfull
    rw [wp_pure]
    exact ⟨rfl, hle, hfull, d₁, own₁, hwritten, hwithin, htable⟩
  induction fuel generalizing tot d₁ own₁ s₁ with
  | zero =>
    obtain rfl : tot = n := by omega
    exact hdone h htable hw (Nat.le_refl _) fun hlt => by omega
  | succ fuel ih =>
    rw [writeiLoop]
    split
    · next hlt =>
      have hself : update ino i d₁ i = d₁ := update_self ..
      have hentry₁ : Entry ip i (update ino i d₁ i) s₁ := by
        rw [hself]
        exact hentry.setDin htable
      have htype₁ : (update ino i d₁ i).type ≠ 0 := by
        rw [hself, h.attrs]
        exact htype
      have hbn : (off + tot) / BSIZE < MAXFILE := (Nat.div_lt_iff_lt_mul (by decide)).mpr (by omega)
      have hmod : (off + tot) % BSIZE < BSIZE := Nat.mod_lt _ (by decide)
      generalize hm : min (n - tot) (BSIZE - (off + tot) % BSIZE) = m
      have hmle : m ≤ n - tot := hm ▸ Nat.min_le_left _ _
      have hmblock : (off + tot) % BSIZE + m ≤ BSIZE := by omega
      have hmpos : 0 < m := by omega
      rw [wp_bind]
      refine (bmap_spec h.ok (hroom.after hw) hentry₁ htype₁ hbn).mono fun a s₂ hbmap => ?_
      obtain ⟨d₂, own₂, hext, hw₂, htable₂, hfull, hptr⟩ := hbmap
      have hwritten := h.extend hw.sb (by omega) hext
      replace hw₂ : Within s s₂ := hw.trans hw₂
      have htable₂' : s₂.itable = setDinAt s.itable ip d₂ := by
        rw [htable₂, htable, setDinAt_setDinAt]
      split
      · next hzero =>
        exact hdone hwritten htable₂' hw₂ htot fun hlt => ⟨.inl (hfull hzero), hstops hlt⟩
      · next hne =>
        have ha := hptr hne
        have hself₂ : update ino i d₂ i = d₂ := update_self ..
        have halloc : Allocated s₂.sb (update ino i d₂) i := by
          refine ⟨?_, ?_⟩
          · rw [hw₂.sb, ← hw.sb]
            exact hentry₁.inum ▸ h.ok.range ip hentry₁.ref
          · rw [hself₂, hwritten.attrs]
            exact htype
        have hwrite : ∀ {tot'}, tot' = tot + src.reach tot m ∨ (tot' = tot ∧ src.Short n) →
            Written ino held i src off n tot' d₂ own₂ s
              (s₂.copyIn a ((off + tot) % BSIZE) src.byte tot (src.reach tot m)) := by
          intro tot' hcase
          have hreach := reach_le src tot m
          rw [← ha]
          exact hwritten.write hw₂.sb halloc hbn (by rw [ha]; exact hne) (by omega)
            (by omega) hmax hcase
        rw [wp_bind, setBlock, wp_updates]
        split
        · next hstop =>
          have hshort : src.Short n := Mem.short_of_reach hstop (by omega)
          exact hdone (hwrite (.inr ⟨rfl, hshort⟩)) htable₂' ⟨hw₂.sb, hw₂.outstanding⟩ htot
            fun hlt => ⟨.inr hshort, hstops hlt⟩
        · next hfullcopy =>
          have hreach : src.reach tot m = m :=
            Nat.le_antisymm (reach_le src tot m) (Nat.not_lt.mp hfullcopy)
          have hnext := hwrite (.inl rfl)
          rw [hreach] at hnext ⊢
          have hw₂' : Within s (s₂.copyIn a ((off + tot) % BSIZE) src.byte tot m) :=
            ⟨hw₂.sb, hw₂.outstanding⟩
          rw [wp_bind]
          refine wp.mono (logWrite_spec a (hroom.after hw₂')) fun _ s₃ h₃ => ?_
          obtain ⟨hw₃, hdisk₃, htable₃⟩ := h₃
          have hnext₃ : Written ino held i src off n (tot + m) d₂ own₂ s s₃ :=
            hnext.setLog hw₃.sb hdisk₃ htable₃
          rw [Nat.add_assoc]
          have hstops₃ : tot + m < n → Stops off (tot + m) := by
            intro hmore
            refine .inr ?_
            have hm' : m = BSIZE - (off + tot) % BSIZE := by omega
            rw [← Nat.add_assoc, hm']
            simp only [BSIZE]
            omega
          exact ih hnext₃ (hw₂'.trans hw₃) (htable₃.trans htable₂') (by omega) (by omega) hstops₃
    · next hge =>
      obtain rfl : tot = n := by omega
      exact hdone h htable hw (Nat.le_refl _) fun hlt => by omega

end Loop

/-! ## The whole write -/

section Whole

variable {E : Panic → Prop} {ino : Nat → Dinode} {own : Owners} {held : Nat → Prop}
  {s s₁ s₂ : Vol} {i ip off n tot : Nat} {src : Mem} {d₁ d₂ : Dinode}
  {own₁ : Owners}

/-- The inode `i` became `d'`, with the first `tot` bytes of `src` at `off`; a copy that failed
may have changed bytes up to `off + n`. -/
structure Wrote (ino : Nat → Dinode) (held : Nat → Prop) (i : Nat) (src : Mem) (off n tot : Nat)
    (d' : Dinode) (own' : Owners) (s s' : Vol) : Prop where
  ok : FsOk (update ino i d') own' held Nothing s'
  attrs : d' = { ino i with size := max (ino i).size (off + tot), addrs := d'.addrs }
  others : ∀ j, Allocated s.sb ino j → j ≠ i → KeptFile s.disk s'.disk (ino j)
  filled : ∀ o, off ≤ o → o < off + tot → d'.byte s'.disk o = src.byte (o - off)
  kept : ∀ o, o < (ino i).size → o < off ∨ off + n ≤ o ∨ (¬ src.Short n ∧ off + tot ≤ o) →
    d'.byte s'.disk o = (ino i).byte s.disk o

/-- The bytes of a file that is kept. -/
theorem KeptFile.byte_eq {disk disk' : Disk} {d : Dinode} (h : KeptFile disk disk' d) {o : Nat}
    (ho : o / BSIZE < MAXFILE) (hne : d.ptr disk (o / BSIZE) ≠ 0) :
    d.byte disk' o = d.byte disk o := by
  obtain ⟨hptr, hdata⟩ := h _ (Nat.le_of_lt ho)
  rw [Dinode.byte, hptr, hdata hne, Dinode.byte]

/-- Changes of metadata blocks keep all files. -/
theorem FsOk.keptFile_of_data {X H : Nat → Prop} {j : Nat} {disk' : Disk}
    (h : FsOk ino own held X s H) (hj : Allocated s.sb ino j)
    (hdata : ∀ c, s.sb.nmeta ≤ c → disk' c = s.disk c) :
    KeptFile s.disk disk' (ino j) :=
  h.blocks.keptFile hj fun c k hc => hdata c (h.blocks.owned c j k hc).1.1

/-- The size is set after the loop. -/
theorem Written.setSize (h : Written ino held i src off n tot d₁ own₁ s s₁)
    (hi : Allocated s₁.sb (update ino i d₁) i) (hoff : off ≤ (ino i).size) (htot : tot ≤ n)
    (hmax : off + n ≤ MAXFILE * BSIZE) (hd₂ : d₂ = { d₁ with size := max d₁.size (off + tot) }) :
    FsOk (update ino i d₂) own₁ held (· = i) s₁ := by
  have hself : update ino i d₁ i = d₁ := update_self ..
  have hsize : d₁.size = (ino i).size := by rw [h.attrs]
  have htype : d₁.type ≠ 0 := by
    rw [← hself]
    exact hi.2
  have hsizes := h.ok.sizes i hi
  have hrepr := h.ok.repr i hi.1
  have hholes := h.ok.noHoles i hi not_false
  have hptr : ∀ k, d₂.ptr s₁.disk k = d₁.ptr s₁.disk k := fun k => by rw [hd₂]; rfl
  rw [hself] at hsizes hrepr hholes
  have hblocks := h.ok.blocks.retag (d := d₂) h.ok.sb hi (by rw [hd₂]; exact htype)
    (by rw [hself, hd₂])
  have hbig : d₂.size ≤ MAXFILE * BSIZE := by
    rw [hd₂]
    show max d₁.size (off + tot) ≤ MAXFILE * BSIZE
    omega
  have hok := h.ok.change (d := d₂) (rfl : s₁.sb = s₁.sb) rfl ⟨?_, ?_, ?_⟩ hblocks
    (fun _ _ _ => rfl)
    (fun _ _ _ _ => rfl) (fun _ => hbig) fun _ _ k hk => ?_
  · rwa [Function.update_idem] at hok
  · exact Nat.lt_of_le_of_lt hbig (by decide)
  · rw [hd₂]
    exact hrepr.addrs
  · rw [hd₂]
    exact hrepr.unused
  · rw [hptr]
    rcases Nat.lt_or_ge (k * BSIZE) d₁.size with hlow | hhigh
    · exact hholes k hlow
    · -- the block starts behind the old end, so it was written
      have hlt : k * BSIZE < off + tot := by
        rw [hd₂] at hk
        change k * BSIZE < max d₁.size (off + tot) at hk
        omega
      have hfilled := (h.filled (k * BSIZE) (by omega) hlt).1
      rwa [Nat.mul_div_cancel _ (by decide)] at hfilled

/-- The table has one entry for the inode. -/
theorem FsOk.settle_entry {H : Nat → Prop} (h : FsOk ino own held (· = i) s H)
    (hentry : Entry ip i (ino i) s) (htype : (ino i).type ≠ 0)
    (hdisk : dinodeAt s.sb s.disk i = ino i) : FsOk ino own held Nothing s H := by
  refine h.settle hdisk fun e href _ hinum => ?_
  obtain rfl : e = ip := h.unique e ip href hentry.ref (hinum.trans hentry.inum.symm)
  exact ⟨hentry.din, htype⟩

theorem writei_spec (h : FsOk ino own held Nothing s) (hentry : Entry ip i (ino i) s)
    (htype : (ino i).type ≠ 0) (hroom : Room E s)
    (hoff : off ≤ (ino i).size) (hmax : off + n ≤ MAXFILE * BSIZE) :
    wp (writei ip src off n) E (fun r s' => ∃ (tot : Nat) (d' : Dinode) (own' : Owners),
      r = tot ∧ tot ≤ n ∧
      (tot < n → (Full s' ∨ src.Short n) ∧ Stops off tot) ∧
      Wrote ino held i src off n tot d' own' s s' ∧
      Within s s' ∧ s'.itable = setDinAt s.itable ip d') s := by
  have hsum : (off + n) % 2 ^ 32 = off + n := Nat.mod_eq_of_lt (Nat.lt_of_le_of_lt hmax (by decide))
  have hbusy : FsOk ino own held (· = i) s := h.weaken fun _ hno => hno.elim
  rw [writei, wp_bind, inode, wp_reads, hentry.din, hsum, if_neg (by omega), if_neg (by omega),
    wp_bind]
  refine (writeiLoop_spec hmax htype hentry n (Written.refl hbusy) (Within.refl s)
    (setDinAt_self hentry.din).symm (Nat.zero_le n) (Nat.sub_le n 0) (fun _ => .inl rfl)
    hroom).mono fun r s₁ hr => ?_
  obtain ⟨tot, off'⟩ := r
  obtain ⟨hoff', htot, hfull, d₁, own₁, hwritten, hw₁, htable₁⟩ := hr
  change off' = off + tot at hoff'
  change tot ≤ n at htot
  change tot < n → (Full s₁ ∨ src.Short n) ∧ Stops off tot at hfull
  change Written ino held i src off n tot d₁ own₁ s s₁ at hwritten
  have hself : ∀ d, update ino i d i = d := fun d => update_self ..
  have htype₁ : d₁.type ≠ 0 := by
    rw [hwritten.attrs]
    exact htype
  have hsize₁ : d₁.size = (ino i).size := by rw [hwritten.attrs]
  have hentry₁ : Entry ip i d₁ s₁ := hentry.setDin htable₁
  have hi₁ : Allocated s₁.sb (update ino i d₁) i :=
    ⟨hentry₁.inum ▸ hwritten.ok.range ip hentry₁.ref, by rw [hself]; exact htype₁⟩
  have hmaxsize : (if off' > d₁.size then off' else d₁.size) = max d₁.size (off + tot) := by
    rw [hoff']
    split <;> omega
  dsimp only
  rw [wp_bind, wp_setDin, hentry₁.din, hmaxsize, wp_bind]
  generalize hd₂ : ({ d₁ with size := max d₁.size (off + tot) } : Dinode) = d₂
  have hok₂ := (hwritten.setSize hi₁ hoff htot hmax hd₂.symm).setDin hentry₁ d₂
  have hentry₂ : Entry ip i d₂ { s₁ with itable := setDinAt s₁.itable ip d₂ } := hentry₁.setDin rfl
  have hw₂ : Within s { s₁ with itable := setDinAt s₁.itable ip d₂ } :=
    ⟨hw₁.sb, hw₁.outstanding⟩
  refine (iupdate_spec hok₂ (hroom.after hw₂) hentry₂.ref hentry₂.inum
    (by rw [hself]; exact hentry₂.din)).mono fun _ s' hpost => ?_
  obtain ⟨hw, htable, hdata, hok, hdinode⟩ := hpost
  have hentry' : Entry ip i (update ino i d₂ i) s' := by
    rw [hself]
    exact hentry₂.of_itable htable
  have htype₂ : (update ino i d₂ i).type ≠ 0 := by
    rw [hself, ← hd₂]
    exact htype₁
  have hptr₂ : ∀ disk k, d₂.ptr disk k = d₁.ptr disk k := fun disk k => by rw [← hd₂]; rfl
  -- from `s₁` on only metadata changed
  have hkept₁ : KeptFile s₁.disk s'.disk d₁ := by
    have hkept := hwritten.ok.keptFile_of_data hi₁ hdata
    rwa [hself] at hkept
  have hbyte : ∀ o, o / BSIZE < MAXFILE → d₁.ptr s₁.disk (o / BSIZE) ≠ 0 →
      d₂.byte s'.disk o = d₁.byte s₁.disk o := by
    intro o ho hne
    rw [← hkept₁.byte_eq ho hne, Dinode.byte, hptr₂, Dinode.byte]
  rw [wp_pure]
  refine ⟨tot, d₂, own₁, rfl, htot, fun hlt => (hfull hlt).imp_left (Or.imp_left fun hfull₁ => ?_),
    ⟨hok.settle_entry hentry' htype₂ (hw.sb ▸ hdinode), ?_, ?_, ?_, ?_⟩, hw₂.trans hw, ?_⟩
  · intro b hb
    rw [hw.sb] at hb ⊢
    have hbits := hok.blocks.bits b (by rw [hw.sb]; exact hb)
    rw [hw.sb] at hbits
    exact hbits.mpr ((hwritten.ok.blocks.bits b hb).mp (hfull₁ b hb))
  · rw [← hd₂, hsize₁, hwritten.attrs]
  · intro j hj hji
    have hj₁ : Allocated s₁.sb (update ino i d₁) j := by
      rwa [Allocated, update_of_ne hji, hw₁.sb]
    have hsecond := hwritten.ok.keptFile_of_data hj₁ hdata
    rw [update_of_ne hji] at hsecond
    exact (hwritten.others j hj hji).trans hsecond
  · intro o hlow hhigh
    obtain ⟨hne, hfilled⟩ := hwritten.filled o hlow hhigh
    have ho : o / BSIZE < MAXFILE := (Nat.div_lt_iff_lt_mul (by decide)).mpr (by omega)
    rw [hbyte o ho hne]
    exact hfilled
  · intro o ho hout
    obtain ⟨hmax', hne⟩ :=
      h.ptr_ne_zero (i := i) ⟨hentry.inum ▸ h.range ip hentry.ref, htype⟩ not_false ho
    have hptr := hwritten.ptrs _ (Nat.le_of_lt hmax') hne
    rw [hbyte o hmax' (by rw [hptr]; exact hne)]
    exact hwritten.kept o hmax' hne hout
  · rw [htable]
    show setDinAt s₁.itable ip d₂ = setDinAt s.itable ip d₂
    rw [htable₁, setDinAt_setDinAt]

end Whole

end Xv6.Fs
