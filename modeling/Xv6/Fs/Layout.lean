import Xv6.Fs.Inode

/-!
# The disk layout

Inodes and map bits are parts of disk blocks.

* `Superblock.Wf`: the inode blocks lie before the map blocks and these before the
  data blocks.
* `testBit_markBit`, `testBit_clearBit`: a bit of a map block after a change.
* `readDinode_writeDinode`, `readDinode_writeDinode_of_disjoint`: an inode of a
  block after a change.
* `bitAt_*`, `dinodeAt_*`: the same for the whole disk, and what a change of a
  data block leaves alone.
-/

namespace Xv6.Fs

open Xv6.Lib.Bytes
open Function (update update_of_ne update_self)

/-! ## Regions -/

/-- The number of blocks before the data blocks. -/
def Superblock.nmeta (sb : Superblock) : Nat := sb.size - sb.nblocks

/-- The regions of the disk do not overlap.  `balloc` counts the blocks in an `int`. -/
structure Superblock.Wf (sb : Superblock) : Prop where
  size_lt : sb.size < 2 ^ 31
  inodes : sb.inodestart + (sb.ninodes + IPB - 1) / IPB ≤ sb.bmapstart
  bitmap : sb.bmapstart + (sb.size + BPB - 1) / BPB ≤ sb.nmeta
  nblocks : sb.nblocks ≤ sb.size

section Regions

variable {sb : Superblock} {i j b c : Nat}

theorem Superblock.Wf.block_lt (h : sb.Wf) (hb : b < sb.size) : b < 2 ^ 32 :=
  hb.trans (h.size_lt.trans (by decide))

theorem Superblock.Wf.iblock_lt (h : sb.Wf) (hi : i < sb.ninodes) : sb.IBLOCK i < sb.bmapstart := by
  have hinodes := h.inodes
  simp only [IPB] at hinodes
  simp only [IBLOCK, IPB]
  omega

theorem Superblock.Wf.bblock_lt (h : sb.Wf) (hb : b < sb.size) : sb.BBLOCK b < sb.nmeta := by
  have hbitmap := h.bitmap
  simp only [BPB] at hbitmap
  simp only [BBLOCK, BPB]
  omega

theorem Superblock.le_bblock (sb : Superblock) (b : Nat) : sb.bmapstart ≤ sb.BBLOCK b :=
  Nat.le_add_left _ _

theorem Superblock.Wf.iblock_ne_bblock (h : sb.Wf) (hi : i < sb.ninodes) :
    sb.IBLOCK i ≠ sb.BBLOCK b := by
  have hlt := h.iblock_lt hi
  have hle := sb.le_bblock b
  omega

/-- A data block is not block 0, the sign for no block. -/
theorem Superblock.Wf.ne_zero (h : sb.Wf) (hb : sb.nmeta ≤ b) (hlt : b < sb.size) : b ≠ 0 := by
  have hbblock := h.bblock_lt hlt
  omega

theorem Superblock.Wf.data_ne_bblock (h : sb.Wf) (hb : sb.nmeta ≤ b) (hc : c < sb.size) :
    b ≠ sb.BBLOCK c := by
  have hbblock := h.bblock_lt hc
  omega

theorem Superblock.Wf.data_ne_iblock (h : sb.Wf) (hb : sb.nmeta ≤ b) (hi : i < sb.ninodes) :
    b ≠ sb.IBLOCK i := by
  have hlt := h.iblock_lt hi
  have hle : sb.bmapstart ≤ sb.nmeta := Nat.le_trans (Nat.le_add_right _ _) h.bitmap
  omega

end Regions

/-! ## Bits -/

section Bits

variable {blk : Block} {bi bj : Nat}

theorem toNat_or_two_pow (x : UInt8) {k : Nat} (hk : k < 8) :
    (UInt8.ofNat (x.toNat ||| 2 ^ k)).toNat = x.toNat ||| 2 ^ k := by
  have hx : x.toNat < 2 ^ 8 := x.toNat_lt
  rw [UInt8.toNat_ofNat']
  exact Nat.mod_eq_of_lt (Nat.or_lt_two_pow hx (Nat.pow_lt_pow_right (by decide) hk))

theorem toNat_and (x : UInt8) (k : Nat) :
    (UInt8.ofNat (x.toNat &&& k)).toNat = x.toNat &&& k := by
  rw [UInt8.toNat_ofNat']
  exact Nat.mod_eq_of_lt (Nat.lt_of_le_of_lt Nat.and_le_left x.toNat_lt)

theorem testBit_markBit : testBit (markBit bi blk) bj = (testBit blk bj || decide (bi = bj)) := by
  simp only [testBit, markBit]
  rcases eq_or_ne (bj / 8) (bi / 8) with heq | hne
  · rw [heq, update_self, toNat_or_two_pow _ (Nat.mod_lt _ (by decide)), Nat.testBit_or,
      Nat.testBit_two_pow]
    congr 1
    rw [decide_eq_decide]
    omega
  · rw [update_of_ne hne]
    have hbi : bi ≠ bj := fun h => hne (by rw [h])
    simp [hbi]

theorem testBit_clearBit :
    testBit (clearBit bi blk) bj = (testBit blk bj && !decide (bi = bj)) := by
  simp only [testBit, clearBit]
  rcases eq_or_ne (bj / 8) (bi / 8) with heq | hne
  · rw [heq, update_self, toNat_and, Nat.testBit_and, Nat.testBit_xor, Nat.testBit_two_pow,
      show (255 : Nat) = 2 ^ 8 - 1 by rfl, Nat.testBit_two_pow_sub_one]
    congr 1
    have hlt : bj % 8 < 8 := Nat.mod_lt _ (by decide)
    have hiff : (bi % 8 = bj % 8) ↔ bi = bj := by omega
    simp [hlt, hiff]
  · rw [update_of_ne hne]
    have hbi : bi ≠ bj := fun h => hne (by rw [h])
    simp [hbi]

end Bits

/-! ## Inodes -/

/-- The numbers fit into the inode on disk. -/
structure Dinode.Repr (d : Dinode) : Prop where
  size : d.size < 2 ^ 32
  addrs : ∀ k, d.addrs k < 2 ^ 32
  unused : ∀ k, NDIRECT < k → d.addrs k = 0

section Dinodes

variable {d : Dinode} {blk blk' : Block} {off off' : Nat}

theorem repr_readDinode (blk : Block) (off : Nat) : (readDinode blk off).Repr := by
  refine ⟨readLE_lt 4 blk _, fun k => ?_, fun k hk => if_neg (Nat.not_le.mpr hk)⟩
  show (if k ≤ NDIRECT then readLE 4 blk (off + 12 + 4 * k) else 0) < 2 ^ 32
  split
  · exact readLE_lt 4 blk _
  · decide

theorem readDinode_congr (h : ∀ a, off ≤ a → a < off + dinodeSize → blk a = blk' a) :
    readDinode blk off = readDinode blk' off := by
  have hread : ∀ n o, off ≤ o → o + n ≤ off + dinodeSize → readLE n blk o = readLE n blk' o := by
    intro n o hle hend
    exact readLE_congr fun a h₁ h₂ => h a (by omega) (by omega)
  have haddrs : (readDinode blk off).addrs = (readDinode blk' off).addrs := by
    funext k
    simp only [readDinode]
    split
    · next hk => exact hread 4 _ (by omega) (by simp only [NDIRECT, dinodeSize] at *; omega)
    · rfl
  simp only [readDinode] at haddrs ⊢
  rw [hread 2 off (by omega) (by simp [dinodeSize]),
    hread 2 (off + 2) (by omega) (by simp [dinodeSize]),
    hread 2 (off + 4) (by omega) (by simp [dinodeSize]),
    hread 2 (off + 6) (by omega) (by simp [dinodeSize]),
    hread 4 (off + 8) (by omega) (by simp [dinodeSize]), haddrs]

theorem writeDinode_of_not_mem {a : Nat} (h : a < off ∨ off + dinodeSize ≤ a) :
    writeDinode d blk off a = blk a := by
  simp only [dinodeSize] at h
  simp only [writeDinode]
  rw [writeWords_of_not_mem _ _ (by simp only [NDIRECT]; omega),
    writeLE_of_not_mem _ _ (by omega), writeLE_of_not_mem _ _ (by omega),
    writeLE_of_not_mem _ _ (by omega), writeLE_of_not_mem _ _ (by omega),
    writeLE_of_not_mem _ _ (by omega)]

theorem readDinode_writeDinode_of_disjoint
    (h : off' + dinodeSize ≤ off ∨ off + dinodeSize ≤ off') :
    readDinode (writeDinode d blk off) off' = readDinode blk off' :=
  readDinode_congr fun a h₁ h₂ => writeDinode_of_not_mem (by omega)

theorem readDinode_writeDinode (h : d.Repr) : readDinode (writeDinode d blk off) off = d := by
  have hshort : ∀ x : BitVec 16, BitVec.ofNat 16 (x.toNat % 256 ^ 2) = x := by
    intro x
    rw [show x.toNat % 256 ^ 2 = x.toNat from Nat.mod_eq_of_lt x.isLt, BitVec.ofNat_toNat,
      BitVec.setWidth_eq]
  have haddrs : (readDinode (writeDinode d blk off) off).addrs = d.addrs := by
    funext k
    simp only [readDinode]
    split
    · next hk =>
      rw [writeDinode, readLE_writeWords _ _ (Nat.lt_succ_of_le hk)]
      exact Nat.mod_eq_of_lt (h.addrs k)
    · next hk => exact (h.unused k (Nat.not_le.mp hk)).symm
  cases d with
  | mk type major minor nlink size addrs =>
    simp only [readDinode] at haddrs ⊢
    simp (disch := omega) only [writeDinode, readLE_writeWords_of_disjoint,
      readLE_writeLE_of_disjoint, readLE_writeLE] at haddrs ⊢
    rw [haddrs, hshort, hshort, hshort, hshort,
      show size % 256 ^ 4 = size from Nat.mod_eq_of_lt h.size]

end Dinodes

/-! ## The whole disk -/

section Disks

variable {sb : Superblock} {disk : Disk} {i j b c : Nat}

theorem bitAt_eq (sb : Superblock) (disk : Disk) (b : Nat) :
    bitAt sb disk b = testBit (disk (sb.BBLOCK b)) (b % BPB) := by
  have hmod : b % BPB % 8 = b % 8 := Nat.mod_mod_of_dvd b (by decide)
  rw [bitAt, testBit, hmod]

theorem bitAt_of_ne (f : Block) (h : c ≠ sb.BBLOCK b) :
    bitAt sb (update disk c f) b = bitAt sb disk b := by
  rw [bitAt, update_of_ne h.symm, bitAt]

theorem dinodeAt_of_ne (f : Block) (h : c ≠ sb.IBLOCK i) :
    dinodeAt sb (update disk c f) i = dinodeAt sb disk i := by
  rw [dinodeAt, update_of_ne h.symm, dinodeAt]

/-- Two blocks with the same map bit are the same. -/
theorem eq_of_bblock_eq (hblock : sb.BBLOCK b = sb.BBLOCK c) (hmod : b % BPB = c % BPB) :
    b = c := by
  have hdiv : b / BPB = c / BPB := Nat.add_right_cancel hblock
  rw [← Nat.div_add_mod b BPB, ← Nat.div_add_mod c BPB, hdiv, hmod]

/-- Changing the map block of `b` at its bit. -/
theorem bitAt_put {f : Block} (op : Bool → Bool → Bool) (hop : ∀ x, op x false = x)
    (hf : ∀ i, testBit f i = op (testBit (disk (sb.BBLOCK b)) i) (decide (b % BPB = i))) (c : Nat) :
    bitAt sb (update disk (sb.BBLOCK b) f) c = op (bitAt sb disk c) (decide (c = b)) := by
  rcases eq_or_ne (sb.BBLOCK b) (sb.BBLOCK c) with heq | hne
  · rw [bitAt_eq, ← heq, update_self, hf, bitAt_eq, ← heq]
    congr 1
    rw [decide_eq_decide]
    exact ⟨fun hmod => (eq_of_bblock_eq heq hmod).symm, fun hcb => by rw [hcb]⟩
  · have hcb : c ≠ b := fun h => hne (by rw [h])
    rw [bitAt_of_ne _ hne, decide_eq_false hcb, hop]

theorem bitAt_mark (sb : Superblock) (disk : Disk) (b c : Nat) :
    bitAt sb (update disk (sb.BBLOCK b) (markBit (b % BPB) (disk (sb.BBLOCK b)))) c =
      (bitAt sb disk c || decide (c = b)) :=
  bitAt_put (· || ·) Bool.or_false (fun _ => testBit_markBit) c

theorem bitAt_clear (sb : Superblock) (disk : Disk) (b c : Nat) :
    bitAt sb (update disk (sb.BBLOCK b) (clearBit (b % BPB) (disk (sb.BBLOCK b)))) c =
      (bitAt sb disk c && !decide (c = b)) :=
  bitAt_put (fun x y => x && !y) Bool.and_true (fun _ => testBit_clearBit) c

/-- The inodes of a disk after one of them has been stored. -/
theorem dinodeAt_store {d : Dinode} (hd : d.Repr) (sb : Superblock) (disk : Disk) (i j : Nat) :
    dinodeAt sb (update disk (sb.IBLOCK i)
      (writeDinode d (disk (sb.IBLOCK i)) (i % IPB * dinodeSize))) j =
      if j = i then d else dinodeAt sb disk j := by
  rcases eq_or_ne j i with rfl | hne
  · rw [if_pos rfl, dinodeAt, update_self, readDinode_writeDinode hd]
  · rw [if_neg hne]
    rcases eq_or_ne (sb.IBLOCK i) (sb.IBLOCK j) with heq | hblock
    · have hdiv : i / IPB = j / IPB := Nat.add_right_cancel heq
      have hmod : i % IPB ≠ j % IPB := by
        intro hmod
        apply hne
        rw [← Nat.div_add_mod i IPB, ← Nat.div_add_mod j IPB, hdiv, hmod]
      rw [dinodeAt, ← heq, update_self, readDinode_writeDinode_of_disjoint, dinodeAt, heq]
      simp only [dinodeSize]
      omega
    · exact dinodeAt_of_ne _ hblock

end Disks

end Xv6.Fs
