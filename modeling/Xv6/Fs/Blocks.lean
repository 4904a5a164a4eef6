import Xv6.Fs.Layout

/-!
# Block ownership

Every data block in use belongs to one pointer of one inode.

* `Dinode.ptr`: the pointers of an inode.  Position `k < MAXFILE` is the block `k`
  of the file, position `MAXFILE` the indirect block.
* `Blocks`: the pointers, the map bits and a ghost assignment `own` of blocks to
  pointers agree; `held` are blocks that are marked in the map but that no pointer
  refers to, which happens inside of an operation only.
* `Blocks.take`, `Blocks.drop`: a block becomes held, or free.
* `Blocks.attach`, `Blocks.detach`: a pointer is set, or pointers are cleared.
* `Blocks.write`, `Blocks.writeMeta`: the content of a block changes.
* `Blocks.retag`, `Blocks.setBare`: an inode changes without a change of pointers.
* `KeptFile`: an inode with the same pointers and the same blocks on two disks.
-/

namespace Xv6.Fs

open Xv6.Lib.Bytes
open Function (update update_of_ne update_self)

/-! ## Pointers -/

/-- The pointer at position `k`, or 0. -/
def Dinode.ptr (d : Dinode) (disk : Disk) (k : Nat) : Nat :=
  if k < NDIRECT then d.addrs k
  else if k = MAXFILE then d.addrs NDIRECT
  else if d.addrs NDIRECT = 0 then 0
  else slot (disk (d.addrs NDIRECT)) (k - NDIRECT)

section Pointers

variable {d : Dinode} {disk disk' : Disk} {k bn a : Nat}

theorem ptr_direct (hk : k < NDIRECT) : d.ptr disk k = d.addrs k := if_pos hk

theorem ptr_indirect : d.ptr disk MAXFILE = d.addrs NDIRECT := by
  rw [Dinode.ptr, if_neg (by decide), if_pos rfl]

theorem ptr_slot (hk : NDIRECT ≤ k) (hlt : k < MAXFILE) : d.ptr disk k =
    if d.addrs NDIRECT = 0 then 0 else slot (disk (d.addrs NDIRECT)) (k - NDIRECT) := by
  rw [Dinode.ptr, if_neg (Nat.not_lt.mpr hk), if_neg (Nat.ne_of_lt hlt)]

/-- The pointers depend on the indirect block only. -/
theorem ptr_congr (h : d.addrs NDIRECT ≠ 0 → disk' (d.addrs NDIRECT) = disk (d.addrs NDIRECT))
    (k : Nat) : d.ptr disk' k = d.ptr disk k := by
  unfold Dinode.ptr
  by_cases hzero : d.addrs NDIRECT = 0
  · simp only [hzero, if_true]
  · rw [h hzero]

theorem ptr_setDirect (hbn : bn < NDIRECT) :
    ({ d with addrs := update d.addrs bn a } : Dinode).ptr disk k =
      if k = bn then a else d.ptr disk k := by
  have hind : update d.addrs bn a NDIRECT = d.addrs NDIRECT :=
    update_of_ne (Nat.ne_of_gt hbn) _ _
  rcases eq_or_ne k bn with rfl | hne
  · rw [if_pos rfl, ptr_direct hbn]
    exact update_self k a d.addrs
  · rw [if_neg hne]
    simp only [Dinode.ptr, hind]
    rw [update_of_ne hne]

/-- A new indirect block that is zero has no slots in use. -/
theorem ptr_setIndirect (hnone : d.addrs NDIRECT = 0) (hzero : disk a = zeroBlock)
    (hk : k ≤ MAXFILE) :
    ({ d with addrs := update d.addrs NDIRECT a } : Dinode).ptr disk k =
      if k = MAXFILE then a else d.ptr disk k := by
  rcases eq_or_ne k MAXFILE with rfl | hne
  · rw [if_pos rfl, ptr_indirect]
    exact update_self NDIRECT a d.addrs
  · rw [if_neg hne]
    rcases Nat.lt_or_ge k NDIRECT with hlt | hge
    · rw [ptr_direct hlt, ptr_direct hlt]
      exact update_of_ne (Nat.ne_of_lt hlt) _ _
    · have hmax : k < MAXFILE := Nat.lt_of_le_of_ne hk hne
      rw [ptr_slot hge hmax, ptr_slot hge hmax, if_pos hnone]
      simp only [update_self]
      split
      · rfl
      · rw [hzero]
        exact readLE_zero 4 _

theorem ptr_setSlot {j : Nat} (hind : d.addrs NDIRECT ≠ 0) (ha : a < 2 ^ 32) (hj : j < NINDIRECT) :
    d.ptr (update disk (d.addrs NDIRECT) (writeLE 4 (disk (d.addrs NDIRECT)) (4 * j) a)) k =
      if k = NDIRECT + j then a else d.ptr disk k := by
  rcases Nat.lt_or_ge k NDIRECT with hlt | hge
  · rw [if_neg (by omega), ptr_direct hlt, ptr_direct hlt]
  · rcases eq_or_ne k MAXFILE with rfl | hne
    · have hnot : MAXFILE ≠ NDIRECT + j := by
        simp only [MAXFILE]
        omega
      rw [if_neg hnot, ptr_indirect, ptr_indirect]
    · simp only [Dinode.ptr, if_neg (Nat.not_lt.mpr hge), if_neg hne, if_neg hind, slot,
        update_self]
      rcases eq_or_ne k (NDIRECT + j) with rfl | hother
      · rw [if_pos rfl, Nat.add_sub_cancel_left, readLE_writeLE]
        exact Nat.mod_eq_of_lt ha
      · rw [if_neg hother, readLE_writeLE_of_disjoint]
        omega

/-- An inode without blocks. -/
theorem ptr_eq_zero (h : ∀ k, k ≤ NDIRECT → d.addrs k = 0) : d.ptr disk k = 0 := by
  rcases Nat.lt_or_ge k NDIRECT with hlt | hge
  · rw [ptr_direct hlt]
    exact h k (Nat.le_of_lt hlt)
  · have hnone : d.addrs NDIRECT = 0 := h NDIRECT (Nat.le_refl _)
    simp [Dinode.ptr, Nat.not_lt.mpr hge, hnone]

end Pointers

/-! ## Ownership -/

/-- The inode is in use. -/
def Allocated (sb : Superblock) (ino : Nat → Dinode) (i : Nat) : Prop :=
  i < sb.ninodes ∧ (ino i).type ≠ 0

/-- For each block the pointer, inode and position, that refers to it. -/
abbrev Owners := Nat → Option (Nat × Nat)

/-- `own b` is the pointer that refers to the block `b`. -/
structure Blocks (sb : Superblock) (disk : Disk) (ino : Nat → Dinode)
    (own : Owners) (held : Nat → Prop) : Prop where
  points : ∀ i k, Allocated sb ino i → k ≤ MAXFILE → (ino i).ptr disk k ≠ 0 →
    own ((ino i).ptr disk k) = some (i, k)
  owned : ∀ b i k, own b = some (i, k) →
    (sb.nmeta ≤ b ∧ b < sb.size) ∧ Allocated sb ino i ∧ k ≤ MAXFILE ∧ (ino i).ptr disk k = b
  unowned : ∀ b, held b → own b = none ∧ sb.nmeta ≤ b ∧ b < sb.size
  bits : ∀ b, b < sb.size → (bitAt sb disk b = true ↔ b < sb.nmeta ∨ own b ≠ none ∨ held b)

/-- The inode has the same pointers on both disks, and they refer to the same data. -/
def KeptFile (disk disk' : Disk) (d : Dinode) : Prop :=
  ∀ k, k ≤ MAXFILE → d.ptr disk' k = d.ptr disk k ∧
    (d.ptr disk k ≠ 0 → disk' (d.ptr disk k) = disk (d.ptr disk k))

theorem KeptFile.refl (disk : Disk) (d : Dinode) : KeptFile disk disk d :=
  fun _ _ => ⟨rfl, fun _ => rfl⟩

theorem KeptFile.trans {disk disk' disk'' : Disk} {d : Dinode} (h : KeptFile disk disk' d)
    (h' : KeptFile disk' disk'' d) : KeptFile disk disk'' d := by
  intro k hk
  obtain ⟨hptr, hdata⟩ := h k hk
  obtain ⟨hptr', hdata'⟩ := h' k hk
  rw [hptr] at hptr' hdata'
  exact ⟨hptr', fun hne => (hdata' hne).trans (hdata hne)⟩

/-- A disk that differs only in blocks that the inode does not own. -/
theorem keptFile_of_blocks {disk disk' : Disk} {d : Dinode}
    (h : ∀ k, k ≤ MAXFILE → d.ptr disk k ≠ 0 → disk' (d.ptr disk k) = disk (d.ptr disk k)) :
    KeptFile disk disk' d := by
  intro k hk
  refine ⟨ptr_congr (fun hne => ?_) k, h k hk⟩
  have hind := h MAXFILE (Nat.le_refl _)
  rw [ptr_indirect] at hind
  exact hind hne

section Ownership

variable {sb : Superblock} {disk disk' : Disk} {ino : Nat → Dinode} {own : Owners}
  {held held' : Nat → Prop} {i j k b : Nat} {d : Dinode}

/-- Two pointers to one block are the same pointer. -/
theorem Blocks.ptr_inj (h : Blocks sb disk ino own held) (hi : Allocated sb ino i)
    (hj : Allocated sb ino j) {l : Nat} (hk : k ≤ MAXFILE) (hl : l ≤ MAXFILE)
    (heq : (ino i).ptr disk k = (ino j).ptr disk l) (hne : (ino i).ptr disk k ≠ 0) :
    i = j ∧ k = l := by
  have hown := h.points i k hi hk hne
  rw [heq, h.points j l hj hl (heq ▸ hne), Option.some.injEq, Prod.mk.injEq] at hown
  exact ⟨hown.1.symm, hown.2.symm⟩

theorem Blocks.ptr_data (h : Blocks sb disk ino own held) (hi : Allocated sb ino i)
    (hk : k ≤ MAXFILE) (hne : (ino i).ptr disk k ≠ 0) :
    sb.nmeta ≤ (ino i).ptr disk k ∧ (ino i).ptr disk k < sb.size :=
  (h.owned _ i k (h.points i k hi hk hne)).1

/-- Blocks of the inode `j` are kept when the blocks that change have other owners. -/
theorem Blocks.keptFile (h : Blocks sb disk ino own held) (hj : Allocated sb ino j)
    (hdisk : ∀ c k, own c = some (j, k) → disk' c = disk c) : KeptFile disk disk' (ino j) :=
  keptFile_of_blocks fun k hk hne => hdisk _ k (h.points j k hj hk hne)

/-- The disk changes, but no indirect block does. -/
theorem Blocks.redisk (h : Blocks sb disk ino own held)
    (hind : ∀ c j, own c = some (j, MAXFILE) → disk' c = disk c)
    (hheld : ∀ c, held' c → own c = none ∧ sb.nmeta ≤ c ∧ c < sb.size)
    (hbits : ∀ c, c < sb.size → (bitAt sb disk' c = true ↔ c < sb.nmeta ∨ own c ≠ none ∨ held' c)) :
    Blocks sb disk' ino own held' := by
  have hptr : ∀ j, Allocated sb ino j → ∀ k, (ino j).ptr disk' k = (ino j).ptr disk k := by
    intro j hj k
    refine ptr_congr (fun hne => ?_) k
    have hown := h.points j MAXFILE hj (Nat.le_refl _)
    rw [ptr_indirect] at hown
    exact hind _ j (hown hne)
  refine ⟨fun j k hj hk hne => ?_, fun c j k hown => ?_, hheld, hbits⟩
  · rw [hptr j hj] at hne ⊢
    exact h.points j k hj hk hne
  · obtain ⟨hdata, hj, hk, hc⟩ := h.owned c j k hown
    exact ⟨hdata, hj, hk, by rw [hptr j hj]; exact hc⟩

/-- `balloc` marks a free block and clears it. -/
theorem Blocks.take (hsb : sb.Wf) (h : Blocks sb disk ino own held) (hb : b < sb.size)
    (hfree : bitAt sb disk b = false) :
    own b = none ∧ ¬ held b ∧ sb.nmeta ≤ b ∧
    Blocks sb (update (update disk (sb.BBLOCK b)
      (markBit (b % BPB) (disk (sb.BBLOCK b)))) b zeroBlock) ino own (fun c => held c ∨ c = b) := by
  have hnot : ¬ (b < sb.nmeta ∨ own b ≠ none ∨ held b) := fun hin => by
    rw [(h.bits b hb).mpr hin] at hfree
    cases hfree
  have hmeta : sb.nmeta ≤ b := Nat.le_of_not_lt fun hlt => hnot (.inl hlt)
  have hown : own b = none := Classical.byContradiction fun hne => hnot (.inr (.inl hne))
  refine ⟨hown, fun hh => hnot (.inr (.inr hh)), hmeta, ?_⟩
  refine h.redisk (fun c j hc => ?_) (fun c hc => ?_) fun c hc => ?_
  · have hdata := (h.owned c j _ hc).1
    have hcb : c ≠ b := by
      rintro rfl
      rw [hown] at hc
      cases hc
    rw [update_of_ne hcb, update_of_ne (hsb.data_ne_bblock hdata.1 hb)]
  · rcases hc with hc | rfl
    · exact h.unowned c hc
    · exact ⟨hown, hmeta, hb⟩
  · rw [bitAt_of_ne _ (hsb.data_ne_bblock hmeta hc), bitAt_mark, Bool.or_eq_true, h.bits c hc,
      decide_eq_true_eq]
    simp only [or_assoc]

/-- `bfree` of a block that no pointer refers to. -/
theorem Blocks.drop (hsb : sb.Wf) (h : Blocks sb disk ino own held) (hb : held b) :
    Blocks sb (update disk (sb.BBLOCK b) (clearBit (b % BPB) (disk (sb.BBLOCK b)))) ino own
      (fun c => held c ∧ c ≠ b) := by
  obtain ⟨hown, hmeta, hlt⟩ := h.unowned b hb
  refine h.redisk (fun c j hc => ?_) (fun c hc => h.unowned c hc.1) fun c hc => ?_
  · exact update_of_ne (hsb.data_ne_bblock (h.owned c j _ hc).1.1 hlt) _ _
  · rw [bitAt_clear, Bool.and_eq_true, h.bits c hc, Bool.not_eq_true', decide_eq_false_iff_not]
    constructor
    · rintro ⟨hin, hne⟩
      exact hin.imp_right fun hin => hin.imp_right fun hin => ⟨hin, hne⟩
    · rintro (hlow | hin | hin)
      · exact ⟨.inl hlow, by omega⟩
      · refine ⟨.inr (.inl hin), ?_⟩
        rintro rfl
        exact hin hown
      · exact ⟨.inr (.inr hin.1), hin.2⟩

/-- The content of a block that is not an indirect block changes. -/
theorem Blocks.write (hsb : sb.Wf) (h : Blocks sb disk ino own held) (hmeta : sb.nmeta ≤ b)
    (hind : ∀ j, own b ≠ some (j, MAXFILE)) (blk : Block) :
    Blocks sb (update disk b blk) ino own held := by
  refine h.redisk (fun c j hc => update_of_ne ?_ _ _) h.unowned fun c hc => ?_
  · rintro rfl
    exact hind j hc
  · rw [bitAt_of_ne _ (hsb.data_ne_bblock hmeta hc)]
    exact h.bits c hc

/-- Blocks of the metadata that are not map blocks change. -/
theorem Blocks.writeMeta (hsb : sb.Wf) (h : Blocks sb disk ino own held) (hi : i < sb.ninodes)
    (blk : Block) : Blocks sb (update disk (sb.IBLOCK i) blk) ino own held := by
  refine h.redisk (fun c j hc => update_of_ne ?_ _ _) h.unowned fun c hc => ?_
  · exact hsb.data_ne_iblock (h.owned c j _ hc).1.1 hi
  · rw [bitAt_of_ne _ (hsb.iblock_ne_bblock hi)]
    exact h.bits c hc

/-- The pointers of one inode change: every pointer that is new takes a held block, and
the blocks of the pointers that go become held. -/
theorem Blocks.repoint (h : Blocks sb disk ino own held) {own' : Owners}
    (hi : Allocated sb ino i) (hd : d.type ≠ 0)
    (hothers : ∀ j k, Allocated sb ino j → j ≠ i → (ino j).ptr disk' k = (ino j).ptr disk k)
    (hown : ∀ c j k, j ≠ i → (own' c = some (j, k) ↔ own c = some (j, k)))
    (hmine : ∀ c k, own' c = some (i, k) ↔ k ≤ MAXFILE ∧ d.ptr disk' k = c ∧ c ≠ 0)
    (hdata : ∀ k, k ≤ MAXFILE → d.ptr disk' k ≠ 0 →
      sb.nmeta ≤ d.ptr disk' k ∧ d.ptr disk' k < sb.size)
    (hheld : ∀ c, held' c → own' c = none ∧ sb.nmeta ≤ c ∧ c < sb.size)
    (hbits : ∀ c, c < sb.size →
      (bitAt sb disk' c = true ↔ c < sb.nmeta ∨ own' c ≠ none ∨ held' c)) :
    Blocks sb disk' (update ino i d) own' held' := by
  have halloc : ∀ j, j ≠ i → Allocated sb (update ino i d) j → Allocated sb ino j := by
    intro j hne hj
    rw [Allocated, update_of_ne hne] at hj
    exact hj
  refine ⟨fun j k hj hk hne => ?_, fun c j k hc => ?_, hheld, hbits⟩
  · rcases eq_or_ne j i with rfl | hji
    · rw [update_self] at hne ⊢
      exact (hmine _ k).mpr ⟨hk, rfl, hne⟩
    · rw [update_of_ne hji, hothers j k (halloc j hji hj) hji] at hne ⊢
      exact (hown _ j k hji).mpr (h.points j k (halloc j hji hj) hk hne)
  · rcases eq_or_ne j i with rfl | hji
    · obtain ⟨hk, rfl, hne⟩ := (hmine c k).mp hc
      rw [update_self, Allocated, update_self]
      exact ⟨hdata k hk hne, ⟨hi.1, hd⟩, hk, rfl⟩
    · obtain ⟨hdata, hj, hk, hptr⟩ := h.owned c j k ((hown c j k hji).mp hc)
      rw [Allocated, update_of_ne hji, hothers j k hj hji]
      exact ⟨hdata, hj, hk, hptr⟩

/-- A pointer is set to a held block. -/
theorem Blocks.attach (hsb : sb.Wf) (h : Blocks sb disk ino own held) (hi : Allocated sb ino i)
    (hd : d.type ≠ 0) (hk : k ≤ MAXFILE) (hb : held b) (hnone : (ino i).ptr disk k = 0)
    (hothers : ∀ j k, Allocated sb ino j → j ≠ i → (ino j).ptr disk' k = (ino j).ptr disk k)
    (hptr : ∀ l, l ≤ MAXFILE → d.ptr disk' l = if l = k then b else (ino i).ptr disk l)
    (hbits : ∀ c, c < sb.size → bitAt sb disk' c = bitAt sb disk c) :
    Blocks sb disk' (update ino i d) (update own b (some (i, k)))
      (fun c => held c ∧ c ≠ b) := by
  obtain ⟨hown, hmeta, hlt⟩ := h.unowned b hb
  have hzero : b ≠ 0 := hsb.ne_zero hmeta hlt
  refine h.repoint hi hd hothers (fun c j l hne => ?_) (fun c l => ?_) (fun l hl hne => ?_)
    (fun c hc => ?_) fun c hc => ?_
  · rcases eq_or_ne c b with rfl | hcb
    · rw [update_self, hown]
      simp [hne.symm]
    · rw [update_of_ne hcb]
  · rcases eq_or_ne c b with rfl | hcb
    · rw [update_self, Option.some.injEq, Prod.mk.injEq]
      constructor
      · rintro ⟨-, rfl⟩
        exact ⟨hk, by rw [hptr k hk, if_pos rfl], hzero⟩
      · rintro ⟨hl, hptr', -⟩
        rw [hptr l hl] at hptr'
        split at hptr'
        · next heq => exact ⟨rfl, heq.symm⟩
        · -- the inode had no pointer to a block that is held
          have hpoints := h.points i l hi hl (by rw [hptr']; exact hzero)
          rw [hptr', hown] at hpoints
          cases hpoints
    · rw [update_of_ne hcb]
      constructor
      · intro hc
        obtain ⟨hdata, -, hl, hptr'⟩ := h.owned c i l hc
        have hc0 : c ≠ 0 := hsb.ne_zero hdata.1 hdata.2
        have hlk : l ≠ k := by
          rintro rfl
          exact hc0 (hptr'.symm.trans hnone)
        exact ⟨hl, by rw [hptr l hl, if_neg hlk]; exact hptr', hc0⟩
      · rintro ⟨hl, hptr', hc0⟩
        rw [hptr l hl] at hptr'
        split at hptr'
        · exact absurd hptr'.symm hcb
        · rw [← hptr'] at hc0 ⊢
          exact h.points i l hi hl hc0
  · rw [hptr l hl] at hne ⊢
    split
    · exact ⟨hmeta, hlt⟩
    · next hlk =>
      rw [if_neg hlk] at hne
      exact h.ptr_data hi hl hne
  · rw [update_of_ne hc.2]
    exact h.unowned c hc.1
  · rw [hbits c hc, h.bits c hc]
    rcases eq_or_ne c b with rfl | hcb
    · simp [hb]
    · rw [update_of_ne hcb]
      simp [hcb]

/-- The pointers of the inode `i` at the positions in `gone` are taken out of `own`. -/
def disown (own : Owners) (i : Nat) (gone : Nat → Bool) (c : Nat) :
    Option (Nat × Nat) :=
  (own c).filter fun p => !(decide (p.1 = i) && gone p.2)

theorem disown_eq_some {gone : Nat → Bool} {c : Nat} :
    disown own i gone c = some (j, k) ↔ own c = some (j, k) ∧ ¬ (j = i ∧ gone k = true) := by
  rw [disown, Option.filter_eq_some_iff]
  refine and_congr_right fun _ => ?_
  simp only [Bool.not_eq_true', Bool.and_eq_false_imp, decide_eq_true_eq, not_and, Bool.not_eq_true]

theorem disown_eq_none {gone : Nat → Bool} {c : Nat}
    (h : own c = none ∨ ∃ l, own c = some (i, l) ∧ gone l = true) :
    disown own i gone c = none := by
  rcases h with h | ⟨l, h, hgone⟩
  · simp [disown, h]
  · simp [disown, h, hgone]

/-- Some pointers of an inode are cleared; their blocks are held. -/
theorem Blocks.detach (hsb : sb.Wf) (h : Blocks sb disk ino own held) (hi : Allocated sb ino i)
    (hd : d.type ≠ 0) {gone : Nat → Bool}
    (hptr : ∀ l, l ≤ MAXFILE → d.ptr disk l = if gone l then 0 else (ino i).ptr disk l) :
    Blocks sb disk (update ino i d) (disown own i gone)
      (fun c => held c ∨ ∃ l, own c = some (i, l) ∧ gone l = true) := by
  refine h.repoint hi hd (fun _ _ _ _ => rfl) (fun c j l hne => ?_) (fun c l => ?_)
    (fun l hl hne => ?_) (fun c hc => ?_) fun c hc => ?_
  · rw [disown_eq_some]
    exact ⟨And.left, fun hc => ⟨hc, fun hgone => hne hgone.1⟩⟩
  · rw [disown_eq_some]
    constructor
    · rintro ⟨hc, hstay⟩
      obtain ⟨hdata, -, hl, hptr'⟩ := h.owned c i l hc
      rw [hptr l hl, if_neg fun hgone => hstay ⟨rfl, hgone⟩]
      exact ⟨hl, hptr', hsb.ne_zero hdata.1 hdata.2⟩
    · rintro ⟨hl, hptr', hne⟩
      rw [hptr l hl] at hptr'
      split at hptr'
      · exact absurd hptr'.symm hne
      · next hstay =>
        rw [← hptr'] at hne ⊢
        exact ⟨h.points i l hi hl hne, fun hgone => hstay hgone.2⟩
  · rw [hptr l hl] at hne ⊢
    split
    · next hgone => simp [hgone] at hne
    · next hstay =>
      rw [if_neg hstay] at hne
      exact h.ptr_data hi hl hne
  · rcases hc with hc | ⟨l, hc, hgone⟩
    · exact ⟨disown_eq_none (.inl (h.unowned c hc).1), (h.unowned c hc).2⟩
    · exact ⟨disown_eq_none (.inr ⟨l, hc, hgone⟩), (h.owned c i l hc).1⟩
  · rw [h.bits c hc]
    refine or_congr_right ?_
    cases hown : own c with
    | none => simp [disown_eq_none (.inl hown)]
    | some p =>
      obtain ⟨j, l⟩ := p
      by_cases hgone : j = i ∧ gone l = true
      · obtain ⟨rfl, hgone⟩ := hgone
        simp [hgone]
      · have hstay : disown own i gone c = some (j, l) := disown_eq_some.mpr ⟨hown, hgone⟩
        simp [hstay]

/-- The other fields of an inode change. -/
theorem Blocks.retag (hsb : sb.Wf) (h : Blocks sb disk ino own held) (hi : Allocated sb ino i)
    (hd : d.type ≠ 0) (haddrs : d.addrs = (ino i).addrs) :
    Blocks sb disk (update ino i d) own held := by
  have hptr : ∀ l, d.ptr disk l = (ino i).ptr disk l := fun l => by simp only [Dinode.ptr, haddrs]
  refine h.repoint hi hd (fun _ _ _ _ => rfl) (fun _ _ _ _ => Iff.rfl) (fun c l => ?_)
    (fun l hl hne => ?_) h.unowned h.bits
  · rw [hptr]
    constructor
    · intro hc
      obtain ⟨hdata, -, hl, hptr'⟩ := h.owned c i l hc
      exact ⟨hl, hptr', hsb.ne_zero hdata.1 hdata.2⟩
    · rintro ⟨hl, rfl, hne⟩
      exact h.points i l hi hl hne
  · rw [hptr] at hne ⊢
    exact h.ptr_data hi hl hne

/-- An inode without blocks is allocated or freed. -/
theorem Blocks.setBare (hsb : sb.Wf) (h : Blocks sb disk ino own held)
    (hold : Allocated sb ino i → ∀ k, k ≤ MAXFILE → (ino i).ptr disk k = 0)
    (hnew : d.type ≠ 0 → ∀ k, k ≤ MAXFILE → d.ptr disk k = 0) :
    Blocks sb disk (update ino i d) own held := by
  refine ⟨fun j k hj hk hne => ?_, fun c j k hc => ?_, h.unowned, h.bits⟩
  · rcases eq_or_ne j i with rfl | hji
    · rw [Allocated, update_self] at hj
      rw [update_self, hnew hj.2 k hk] at hne
      exact absurd rfl hne
    · rw [Allocated, update_of_ne hji] at hj
      rw [update_of_ne hji] at hne ⊢
      exact h.points j k hj hk hne
  · obtain ⟨hdata, hj, hk, hptr⟩ := h.owned c j k hc
    have hji : j ≠ i := by
      rintro rfl
      rw [hold hj k hk] at hptr
      exact hsb.ne_zero hdata.1 hdata.2 hptr.symm
    rw [Allocated, update_of_ne hji]
    exact ⟨hdata, hj, hk, hptr⟩

end Ownership

end Xv6.Fs
