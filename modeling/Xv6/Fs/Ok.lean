import Xv6.Fs.Blocks

/-!
# Well-formed file systems

* `FsOk`: blocks are owned by one pointer each, the table of inodes agrees with the
  disk, and no file has a hole, but for those in `H`.  `ino` are the inodes; inside of an
  operation on the inode `i` the disk and the table may lag behind for the inodes in `X`.
* `Room`, `Within`: a transaction that is open, and that goes on.
* `logWrite_spec`, `balloc_spec`, `bfree_spec`, `iupdate_spec`: the programs below
  inodes.
-/

namespace Xv6.Fs

open Xv6.Lib.Bytes Xv6.Lib.Wp
open Function (update update_of_ne update_self)

/-! ## The invariant -/

/-- No inode, or no block. -/
def Nothing (_ : Nat) : Prop := False

structure FsOk (ino : Nat → Dinode) (own : Owners) (held X : Nat → Prop) (s : Vol)
    (H : Nat → Prop := Nothing) : Prop where
  sb : s.sb.Wf
  blocks : Blocks s.sb s.disk ino own held
  disk : ∀ i, i < s.sb.ninodes → ¬ X i → dinodeAt s.sb s.disk i = ino i
  repr : ∀ i, i < s.sb.ninodes → (ino i).Repr
  range : ∀ e, 0 < (s.itable e).ref → (s.itable e).inum < s.sb.ninodes
  valid : ∀ e, 0 < (s.itable e).ref → (s.itable e).valid = true → ¬ X (s.itable e).inum →
    (s.itable e).din = ino (s.itable e).inum ∧ (ino (s.itable e).inum).type ≠ 0
  unique : ∀ e e', 0 < (s.itable e).ref → 0 < (s.itable e').ref →
    (s.itable e).inum = (s.itable e').inum → e = e'
  sizes : ∀ i, Allocated s.sb ino i → (ino i).size ≤ MAXFILE * BSIZE
  noHoles : ∀ i, Allocated s.sb ino i → ¬ H i → ∀ k, k * BSIZE < (ino i).size →
    (ino i).ptr s.disk k ≠ 0

/-- No block is left. -/
def Full (s : Vol) : Prop := ∀ b, b < s.sb.size → bitAt s.sb s.disk b = true

/-! ## The log -/

/-- A transaction is open, and running out of room in the log is an allowed failure. -/
structure Room (E : Panic → Prop) (s : Vol) : Prop where
  outstanding : 0 < s.outstanding
  full : E .logTooBig

/-- The transaction goes on. -/
structure Within (s s' : Vol) : Prop where
  sb : s'.sb = s.sb
  outstanding : s'.outstanding = s.outstanding

section Log

variable {E : Panic → Prop} {s s' s'' : Vol}

theorem Within.refl (s : Vol) : Within s s := ⟨rfl, rfl⟩

theorem Within.trans (h : Within s s') (h' : Within s' s'') : Within s s'' :=
  ⟨h'.sb.trans h.sb, h'.outstanding.trans h.outstanding⟩

theorem Room.after (h : Room E s) (hw : Within s s') : Room E s' :=
  ⟨by rw [hw.outstanding]; exact h.outstanding, h.full⟩

theorem logWrite_spec (b : Nat) (h : Room E s) :
    wp (logWrite b) E (fun _ s' => Within s s' ∧ s'.disk = s.disk ∧ s'.itable = s.itable) s := by
  have htrans := h.outstanding
  rw [logWrite, wp_bind, wp_reads, wp_bind, wp_reads]
  split
  · rw [wp_throw]
    exact h.full
  · rw [if_neg (by omega), wp_updates]
    exact ⟨⟨rfl, rfl⟩, rfl, rfl⟩

/-- A buffer is changed and handed to the log. -/
theorem setLog_spec (b : Nat) (f : Block → Block) (h : Room E s) :
    wp (setBlock b f >>= fun _ => logWrite b) E (fun _ s' => Within s s' ∧
      s'.disk = update s.disk b (f (s.disk b)) ∧ s'.itable = s.itable) s := by
  rw [wp_bind, setBlock, wp_updates]
  refine wp.mono (logWrite_spec b ⟨h.outstanding, h.full⟩) fun _ s' h' => ?_
  exact ⟨⟨h'.1.sb, h'.1.outstanding⟩, h'.2.1, h'.2.2⟩

/-- The same with a program behind it. -/
theorem wp_setLog {α : Type} {Q : α → Vol → Prop} {rest : FsM α} (b : Nat) (f : Block → Block)
    (h : Room E s)
    (hrest : ∀ s', Within s s' → s'.disk = update s.disk b (f (s.disk b)) →
      s'.itable = s.itable → wp rest E Q s') :
    wp (setBlock b f >>= fun _ => logWrite b >>= fun _ => rest) E Q s := by
  have hspec := setLog_spec b f h
  rw [wp_bind] at hspec ⊢
  refine hspec.mono fun _ t ht => ?_
  rw [wp_bind]
  exact ht.mono fun _ s' h' => hrest s' h'.1 h'.2.1 h'.2.2

end Log

/-! ## Changes of the invariant -/

section Changes

variable {ino : Nat → Dinode} {own own' : Owners} {held held' X H : Nat → Prop}
  {s s' : Vol} {i b : Nat} {d : Dinode}

/-- Only the disk and the log change, and the inodes on the disk do not. -/
theorem FsOk.setDisk (h : FsOk ino own held X s H) (hsb : s'.sb = s.sb)
    (htable : s'.itable = s.itable) (hblocks : Blocks s.sb s'.disk ino own' held')
    (hdisk : ∀ j, j < s.sb.ninodes → dinodeAt s.sb s'.disk j = dinodeAt s.sb s.disk j)
    (hptr : ∀ j, Allocated s.sb ino j → ∀ k, (ino j).ptr s'.disk k = (ino j).ptr s.disk k) :
    FsOk ino own' held' X s' H := by
  refine ⟨?_, ?_, fun j hj hX => ?_, ?_, ?_, ?_, ?_, ?_, fun j hj hH k hk => ?_⟩
  · rw [hsb]
    exact h.sb
  · rw [hsb]
    exact hblocks
  · rw [hsb] at hj ⊢
    rw [hdisk j hj]
    exact h.disk j hj hX
  · rw [hsb]
    exact h.repr
  · rw [hsb, htable]
    exact h.range
  · rw [htable]
    exact h.valid
  · rw [htable]
    exact h.unique
  · rw [hsb]
    exact h.sizes
  · rw [hsb] at hj
    rw [hptr j hj]
    exact h.noHoles j hj hH k hk

/-- Only the log changes. -/
theorem FsOk.setLog (h : FsOk ino own held X s H) (hsb : s'.sb = s.sb) (hdisk : s'.disk = s.disk)
    (htable : s'.itable = s.itable) : FsOk ino own held X s' H :=
  h.setDisk hsb htable (hdisk ▸ h.blocks) (fun j _ => by rw [hdisk]) fun j _ k => by rw [hdisk]

/-- More inodes may lag behind. -/
theorem FsOk.weaken {X' : Nat → Prop} (h : FsOk ino own held X s H) (hX : ∀ j, X j → X' j) :
    FsOk ino own held X' s H :=
  ⟨h.sb, h.blocks, fun j hj hnot => h.disk j hj fun hin => hnot (hX j hin), h.repr, h.range,
    fun e href hvalid hnot => h.valid e href hvalid fun hin => hnot (hX _ hin), h.unique, h.sizes,
    h.noHoles⟩

/-- The disk and the table have caught up. -/
theorem FsOk.settle (h : FsOk ino own held (· = i) s H) (hdisk : dinodeAt s.sb s.disk i = ino i)
    (hvalid : ∀ e, 0 < (s.itable e).ref → (s.itable e).valid = true → (s.itable e).inum = i →
      (s.itable e).din = ino i ∧ (ino i).type ≠ 0) : FsOk ino own held Nothing s H := by
  refine ⟨h.sb, h.blocks, fun j hj _ => ?_, h.repr, h.range, fun e href hv _ => ?_, h.unique,
    h.sizes, h.noHoles⟩
  · rcases eq_or_ne j i with rfl | hne
    · exact hdisk
    · exact h.disk j hj hne
  · by_cases hi : (s.itable e).inum = i
    · rw [hi]
      exact hvalid e href hv hi
    · exact h.valid e href hv hi

/-- An entry of the table changes and keeps its inode. -/
theorem FsOk.setEntry (h : FsOk ino own held X s H) (ip : Nat) (x : Inode)
    (hkeep : 0 < x.ref → 0 < (s.itable ip).ref ∧ x.inum = (s.itable ip).inum)
    (hvalid : 0 < x.ref → x.valid = true → ¬ X x.inum → x.din = ino x.inum ∧
      (ino x.inum).type ≠ 0) :
    FsOk ino own held X { s with itable := update s.itable ip x } H := by
  have hold : ∀ e, 0 < (update s.itable ip x e).ref → 0 < (s.itable e).ref ∧
      (update s.itable ip x e).inum = (s.itable e).inum := by
    intro e href
    rcases eq_or_ne e ip with rfl | hne
    · rw [update_self] at href ⊢
      exact hkeep href
    · rw [update_of_ne hne] at href ⊢
      exact ⟨href, rfl⟩
  refine ⟨h.sb, h.blocks, h.disk, h.repr, fun e href => ?_, fun e href hv hX => ?_,
    fun e e' href href' heq => ?_, h.sizes, h.noHoles⟩
  · show (update s.itable ip x e).inum < s.sb.ninodes
    rw [(hold e href).2]
    exact h.range e (hold e href).1
  · change 0 < (update s.itable ip x e).ref at href
    change (update s.itable ip x e).valid = true at hv
    change ¬ X (update s.itable ip x e).inum at hX
    show (update s.itable ip x e).din = ino (update s.itable ip x e).inum ∧
      (ino (update s.itable ip x e).inum).type ≠ 0
    rcases eq_or_ne e ip with rfl | hne
    · rw [update_self] at href hv hX ⊢
      exact hvalid href hv hX
    · rw [update_of_ne hne] at href hv hX ⊢
      exact h.valid e href hv hX
  · change (update s.itable ip x e).inum = (update s.itable ip x e').inum at heq
    rw [(hold e href).2, (hold e' href').2] at heq
    exact h.unique e e' (hold e href).1 (hold e' href').1 heq

/-- The inode `i` and blocks that belong to nobody else change. -/
theorem FsOk.change (h : FsOk ino own held (· = i) s H) (hsb : s'.sb = s.sb)
    (htable : s'.itable = s.itable) (hrepr : d.Repr)
    (hblocks : Blocks s.sb s'.disk (update ino i d) own' held')
    (hdisk : ∀ j, j < s.sb.ninodes → j ≠ i → dinodeAt s.sb s'.disk j = dinodeAt s.sb s.disk j)
    (hptr : ∀ j, Allocated s.sb ino j → j ≠ i → ∀ k, (ino j).ptr s'.disk k = (ino j).ptr s.disk k)
    (hsize : d.type ≠ 0 → d.size ≤ MAXFILE * BSIZE)
    (hholes : d.type ≠ 0 → ¬ H i → ∀ k, k * BSIZE < d.size → d.ptr s'.disk k ≠ 0) :
    FsOk (update ino i d) own' held' (· = i) s' H := by
  have hother : ∀ j, j ≠ i → update ino i d j = ino j := fun j hne =>
    update_of_ne hne _ _
  refine ⟨?_, ?_, fun j hj hne => ?_, fun j hj => ?_, ?_, fun e href hv hne => ?_, ?_,
    fun j hj => ?_, fun j hj hH k hk => ?_⟩
  · rw [hsb]
    exact h.sb
  · rw [hsb]
    exact hblocks
  · rw [hsb] at hj ⊢
    rw [hdisk j hj hne, hother j hne]
    exact h.disk j hj hne
  · rcases eq_or_ne j i with rfl | hne
    · rw [update_self]
      exact hrepr
    · rw [hother j hne]
      exact h.repr j (hsb ▸ hj)
  · rw [hsb, htable]
    exact h.range
  · rw [htable] at href hv hne ⊢
    rw [hother _ hne]
    exact h.valid e href hv hne
  · rw [htable]
    exact h.unique
  · rw [hsb] at hj
    rcases eq_or_ne j i with rfl | hne
    · rw [Allocated, update_self] at hj
      rw [update_self]
      exact hsize hj.2
    · rw [Allocated, hother j hne] at hj
      rw [hother j hne]
      exact h.sizes j hj
  · rw [hsb] at hj
    rcases eq_or_ne j i with rfl | hne
    · rw [Allocated, update_self] at hj
      rw [update_self] at hk ⊢
      exact hholes hj.2 hH k hk
    · rw [Allocated, hother j hne] at hj
      rw [hother j hne] at hk ⊢
      rw [hptr j hj hne]
      exact h.noHoles j hj hH k hk

end Changes

/-! ## The free map -/

/-- The block `b` has been marked and cleared. -/
structure NewBlock (b : Nat) (s s' : Vol) : Prop where
  within : Within s s'
  itable : s'.itable = s.itable
  zero : s'.disk b = zeroBlock
  data : ∀ c, s.sb.nmeta ≤ c → c ≠ b → s'.disk c = s.disk c

section FreeMap

variable {E : Panic → Prop} {ino : Nat → Dinode} {own : Owners} {held X H : Nat → Prop}
  {s : Vol} {b : Nat}

/-- What `balloc` achieves when it finds the free block `b`. -/
def Took (ino : Nat → Dinode) (own : Owners) (held X : Nat → Prop) (s : Vol)
    (b : Nat) (s' : Vol) : Prop :=
  NewBlock b s s' ∧ own b = none ∧ ¬ held b ∧ FsOk ino own (fun c => held c ∨ c = b) X s'

/-- `bzero` of a block that has just been marked. -/
theorem FsOk.mark (h : FsOk ino own held X s) (hb : b < s.sb.size)
    (hfree : bitAt s.sb s.disk b = false) {s' : Vol} (hw : Within s s')
    (htable : s'.itable = s.itable)
    (hdisk : s'.disk = update (update s.disk (s.sb.BBLOCK b)
      (markBit (b % BPB) (s.disk (s.sb.BBLOCK b)))) b zeroBlock) : Took ino own held X s b s' := by
  obtain ⟨hown, hheld, hmeta, hblocks⟩ := h.blocks.take h.sb hb hfree
  have hdata : ∀ c, s.sb.nmeta ≤ c → c ≠ b → s'.disk c = s.disk c := by
    intro c hc hne
    rw [hdisk, update_of_ne hne, update_of_ne (h.sb.data_ne_bblock hc hb)]
  refine ⟨⟨hw, htable, ?_, hdata⟩, hown, hheld, h.setDisk hw.sb htable (by rwa [hdisk]) ?_ ?_⟩
  · rw [hdisk, update_self]
  · intro j hj
    rw [hdisk, dinodeAt_of_ne _ (h.sb.data_ne_iblock hmeta hj),
      dinodeAt_of_ne _ (h.sb.iblock_ne_bblock hj).symm]
  · intro j hj k
    refine ptr_congr (fun hne => ?_) k
    have hptr := h.blocks.points j MAXFILE hj (Nat.le_refl _)
    rw [ptr_indirect] at hptr
    refine hdata _ (h.blocks.owned _ _ _ (hptr hne)).1.1 ?_
    intro heq
    rw [heq, hown] at hptr
    cases hptr (heq ▸ hne)

theorem ballocTry_spec (h : FsOk ino own held X s) (hroom : Room E s) (g bi : Nat) (hbi : bi < BPB)
    (hlt : g * BPB + bi < s.sb.size) :
    wp (ballocTry s.sb (g * BPB) bi) E (fun r s' => match r with
      | none => s' = s ∧ bitAt s.sb s.disk (g * BPB + bi) = true
      | some c => c = g * BPB + bi ∧ Took ino own held X s c s') s := by
  have hmod : (g * BPB + bi) % BPB = bi := by
    rw [Nat.add_comm, Nat.add_mul_mod_self_right, Nat.mod_eq_of_lt hbi]
  have hblock : s.sb.BBLOCK (g * BPB) = s.sb.BBLOCK (g * BPB + bi) := by
    have hpos : 0 < BPB := by decide
    rw [Superblock.BBLOCK, Superblock.BBLOCK, Nat.mul_div_cancel _ hpos, Nat.add_comm (g * BPB),
      Nat.add_mul_div_right _ _ hpos, Nat.div_eq_of_lt hbi, Nat.zero_add]
  have hbit : bitAt s.sb s.disk (g * BPB + bi) = testBit (s.disk (s.sb.BBLOCK (g * BPB))) bi := by
    rw [bitAt_eq, hmod, hblock]
  rw [ballocTry, wp_bind, bread, wp_reads]
  split
  · next hfree =>
    refine wp_setLog _ _ hroom fun s₁ hw₁ hdisk₁ htable₁ => ?_
    rw [wp_bind, bzero]
    refine (setLog_spec _ _ (hroom.after hw₁)).mono fun _ s₂ h₂ => ?_
    obtain ⟨hw₂, hdisk₂, htable₂⟩ := h₂
    rw [wp_pure]
    refine ⟨rfl, h.mark hlt ?_ (hw₁.trans hw₂) (htable₂.trans htable₁) ?_⟩
    · rw [hbit]
      exact hfree
    · rw [hdisk₂, hdisk₁, ← hblock, hmod]
  · next hused =>
    rw [wp_pure]
    refine ⟨rfl, ?_⟩
    rw [hbit]
    exact Bool.eq_true_of_not_eq_false hused

/-- `balloc` finds a free block unless there is none. -/
theorem balloc_spec (h : FsOk ino own held X s) (hroom : Room E s) :
    wp balloc E (fun b s' => (b = 0 ∧ s' = s ∧ Full s) ∨
      (b ≠ 0 ∧ Took ino own held X s b s')) s := by
  have hpos : 0 < BPB := by decide
  rw [balloc, wp_bind, wp_reads, wp_bind]
  -- the outer loop: everything before the map block `g` is in use
  refine (wp_untilSome (I := fun g t => t = s ∧ ∀ c, c < g * BPB → c < s.sb.size →
    bitAt s.sb s.disk c = true) (R := fun c t => Took ino own held X s c t) ?_ ?_).mono
      fun r t ht => ?_
  · exact ⟨rfl, fun c hc => by omega⟩
  · rintro g hg t ⟨rfl, hused⟩
    refine (wp_untilSome (I := fun bi u => u = t ∧ ∀ c, c < g * BPB + bi → c < t.sb.size →
      bitAt t.sb t.disk c = true) (R := fun c u => Took ino own held X t c u) ?_ ?_).mono
      fun r u hu => ?_
    · refine ⟨rfl, fun c hc => hused c ?_⟩
      rwa [Nat.add_zero] at hc
    · rintro bi hbi u ⟨rfl, hused'⟩
      obtain ⟨hlow, hhigh⟩ := Nat.lt_min.mp hbi
      refine (ballocTry_spec h hroom g bi hlow (Nat.add_lt_of_lt_sub' hhigh)).mono fun r v hv => ?_
      cases r with
      | none =>
        refine ⟨hv.1, fun c hc hlt => ?_⟩
        rcases eq_or_ne c (g * BPB + bi) with rfl | hne
        · exact hv.2
        · exact hused' c (by omega) hlt
      | some c => exact hv.2
    · cases r with
      | none =>
        refine ⟨hu.1, fun c hc hlt => hu.2 c ?_ hlt⟩
        rw [Nat.succ_mul] at hc
        omega
      | some c => exact hu
  · rw [wp_pure]
    cases r with
    | none =>
      refine .inl ⟨rfl, ht.1, fun c hc => ht.2 c ?_ hc⟩
      have hle : s.sb.size ≤ (s.sb.size + BPB - 1) / BPB * BPB := by
        simp only [BPB]
        omega
      omega
    | some c =>
      refine .inr ⟨?_, ht⟩
      obtain ⟨hown, hheld, hok⟩ := ht.2
      have hdata := hok.blocks.unowned c (.inr rfl)
      exact hok.sb.ne_zero hdata.2.1 hdata.2.2

/-- `bfree` of a held block does not panic. -/
theorem bfree_spec (h : FsOk ino own held X s H) (hroom : Room E s) (hb : held b) :
    wp (bfree b) E (fun _ s' => Within s s' ∧ s'.itable = s.itable ∧
      (∀ c, s.sb.nmeta ≤ c → s'.disk c = s.disk c) ∧
      FsOk ino own (fun c => held c ∧ c ≠ b) X s' H) s := by
  obtain ⟨hown, hmeta, hlt⟩ := h.blocks.unowned b hb
  have hbit : bitAt s.sb s.disk b = true := (h.blocks.bits b hlt).mpr (.inr (.inr hb))
  rw [bitAt_eq] at hbit
  rw [bfree, wp_bind, wp_reads, wp_bind, bread, wp_reads, hbit, if_neg (by decide)]
  refine (setLog_spec _ _ hroom).mono fun _ s' h' => ?_
  obtain ⟨hw, hdisk, htable⟩ := h'
  have hdata : ∀ c, s.sb.nmeta ≤ c → s'.disk c = s.disk c := by
    intro c hc
    rw [hdisk, update_of_ne (h.sb.data_ne_bblock hc hlt)]
  have hblocks := h.blocks.drop h.sb hb
  rw [← hdisk] at hblocks
  refine ⟨hw, htable, hdata, h.setDisk hw.sb htable hblocks (fun j hj => ?_) fun j hj k => ?_⟩
  · rw [hdisk, dinodeAt_of_ne _ (h.sb.iblock_ne_bblock hj).symm]
  · refine ptr_congr (fun hne => hdata _ ?_) k
    have hptr := h.blocks.ptr_data hj (Nat.le_refl MAXFILE)
    rw [ptr_indirect] at hptr
    exact (hptr hne).1

end FreeMap

/-! ## Inodes on the disk -/

section Update

variable {E : Panic → Prop} {ino : Nat → Dinode} {own : Owners} {held X H : Nat → Prop}
  {s : Vol} {i ip : Nat}

/-- An inode is stored on the disk. -/
theorem FsOk.store (h : FsOk ino own held (· = i) s H) (hi : i < s.sb.ninodes) {s' : Vol}
    (hsb : s'.sb = s.sb) (htable : s'.itable = s.itable)
    (hdisk : s'.disk = update s.disk (s.sb.IBLOCK i)
      (writeDinode (ino i) (s.disk (s.sb.IBLOCK i)) (i % IPB * dinodeSize))) :
    FsOk ino own held (· = i) s' H ∧ dinodeAt s.sb s'.disk i = ino i ∧
      ∀ c, s.sb.nmeta ≤ c → s'.disk c = s.disk c := by
  have hstore := dinodeAt_store (h.repr i hi) s.sb s.disk i
  rw [← hdisk] at hstore
  have hdata : ∀ c, s.sb.nmeta ≤ c → s'.disk c = s.disk c := by
    intro c hc
    rw [hdisk, update_of_ne (h.sb.data_ne_iblock hc hi)]
  have hblocks := h.blocks.writeMeta h.sb hi
    (writeDinode (ino i) (s.disk (s.sb.IBLOCK i)) (i % IPB * dinodeSize))
  rw [← hdisk] at hblocks
  have hptr : ∀ j, Allocated s.sb ino j → ∀ k, (ino j).ptr s'.disk k = (ino j).ptr s.disk k := by
    intro j hj k
    refine ptr_congr (fun hne => hdata _ ?_) k
    have hptr := h.blocks.ptr_data hj (Nat.le_refl MAXFILE)
    rw [ptr_indirect] at hptr
    exact (hptr hne).1
  have hok := h.change (d := ino i) hsb htable (h.repr i hi) (by rwa [Function.update_eq_self])
    (fun j _ hne => by rw [hstore, if_neg hne]) (fun j hj _ => hptr j hj)
    (fun htype => h.sizes i ⟨hi, htype⟩)
    (fun htype hH k hk => by rw [hptr i ⟨hi, htype⟩]; exact h.noHoles i ⟨hi, htype⟩ hH k hk)
  rw [Function.update_eq_self] at hok
  exact ⟨hok, by rw [hstore, if_pos rfl], hdata⟩

theorem iupdate_spec (h : FsOk ino own held (· = i) s H) (hroom : Room E s)
    (href : 0 < (s.itable ip).ref) (hinum : (s.itable ip).inum = i)
    (hdin : (s.itable ip).din = ino i) :
    wp (iupdate ip) E (fun _ s' => Within s s' ∧ s'.itable = s.itable ∧
      (∀ c, s.sb.nmeta ≤ c → s'.disk c = s.disk c) ∧ FsOk ino own held (· = i) s' H ∧
      dinodeAt s.sb s'.disk i = ino i) s := by
  have hi : i < s.sb.ninodes := hinum ▸ h.range ip href
  rw [iupdate, wp_bind, inode, wp_reads, wp_bind, wp_reads, hinum, hdin]
  refine (setLog_spec _ _ hroom).mono fun _ s' h' => ?_
  obtain ⟨hw, hdisk, htable⟩ := h'
  obtain ⟨hok, hdinode, hdata⟩ := h.store hi hw.sb htable hdisk
  exact ⟨hw, htable, hdata, hok, hdinode⟩

end Update

end Xv6.Fs
