import Xv6.Fs.Arrays
import Xv6.Fs.Table

/-!
# A small image

A file system with a root directory and nothing else, as `mkfs` makes it, on 64 blocks.

* `imageDisk`: the disk; inode 1 is the root directory and block 4 its data.
* `image_ok`: it is well formed, whatever references to the root directory the table
  holds.
-/

namespace Xv6.Fs

open Xv6.Lib.Bytes Xv6.Lib.Wp

def imageDisk : Disk := fun b a =>
  if b = 1 then
    -- type `T_DIR`, one link, 32 bytes, first block 4
    if a = 64 then 1 else if a = 70 then 1 else if a = 72 then 32 else if a = 76 then 4 else 0
  else if b = 2 ∧ a = 0 then 31
  else if b = 4 then
    -- the entries `.` and `..`, both for inode 1
    if a = 0 ∨ a = 16 then 1 else if a = 2 ∨ a = 18 ∨ a = 19 then 46 else 0
  else 0

def imageIno : Nat → Dinode := dinodeAt smallSb imageDisk

def imageOwn (b : Nat) : Option (Nat × Nat) := if b = 4 then some (ROOTINO, 0) else none

/-- The inodes and the bitmap of the image, evaluated. -/
theorem image_eval :
    (∀ i, i < 16 →
      (∀ k, k ≤ NDIRECT → (imageIno i).addrs k = if i = ROOTINO ∧ k = 0 then 4 else 0) ∧
      (imageIno i).size = (if i = ROOTINO then 32 else 0) ∧ ((imageIno i).type ≠ 0 ↔ i = ROOTINO)) ∧
    ∀ b, b < 64 → (bitAt smallSb imageDisk b = true ↔ b < 5) := by
  decide +kernel

theorem imageIno_addrs (i : Nat) (hi : i < 16) (k : Nat) (hk : k ≤ NDIRECT) :
    (imageIno i).addrs k = if i = ROOTINO ∧ k = 0 then 4 else 0 :=
  (image_eval.1 i hi).1 k hk

theorem imageIno_size (i : Nat) (hi : i < 16) : (imageIno i).size = if i = ROOTINO then 32 else 0 :=
  (image_eval.1 i hi).2.1

theorem imageIno_type (i : Nat) (hi : i < 16) : (imageIno i).type ≠ 0 ↔ i = ROOTINO :=
  (image_eval.1 i hi).2.2

theorem image_bits (b : Nat) (hb : b < 64) : bitAt smallSb imageDisk b = true ↔ b < 5 :=
  image_eval.2 b hb

/-- The only block of the root directory. -/
theorem imageIno_ptr {i k : Nat} (hi : i < 16) :
    (imageIno i).ptr imageDisk k = if i = ROOTINO ∧ k = 0 then 4 else 0 := by
  rcases Nat.lt_or_ge k NDIRECT with hlt | hge
  · rw [ptr_direct hlt, imageIno_addrs i hi k (Nat.le_of_lt hlt)]
  · have hnone : (imageIno i).addrs NDIRECT = 0 := by
      rw [imageIno_addrs i hi NDIRECT (Nat.le_refl _), if_neg fun h => absurd h.2 (by decide)]
    have hk : k ≠ 0 := Nat.ne_of_gt (Nat.lt_of_lt_of_le (by decide) hge)
    rw [if_neg fun h => hk h.2]
    simp [Dinode.ptr, Nat.not_lt.mpr hge, hnone]

theorem image_blocks : Blocks smallSb imageDisk imageIno imageOwn Nothing := by
  refine ⟨fun i k hi _ hne => ?_, fun b i k hb => ?_, nofun, fun b hb => ?_⟩
  · rw [imageIno_ptr hi.1] at hne ⊢
    split at hne
    · next h =>
      rw [if_pos h, h.1, h.2]
      rfl
    · exact absurd rfl hne
  · rw [imageOwn] at hb
    split at hb
    · next hfour =>
      cases hb
      refine ⟨by rw [hfour]; decide, ⟨by decide, by decide +kernel⟩, Nat.zero_le _, ?_⟩
      rw [imageIno_ptr (by decide), if_pos ⟨rfl, rfl⟩, hfour]
    · cases hb
  · rw [image_bits b hb]
    show b < 5 ↔ b < 4 ∨ imageOwn b ≠ none ∨ False
    rw [imageOwn]
    split
    · next hfour => exact iff_of_true (by omega) (.inr (.inl nofun))
    · next hfour => exact ⟨fun h => .inl (by omega), fun h => by
        rcases h with h | h | h
        · omega
        · exact absurd rfl h
        · exact h.elim⟩

/-- The image with a table that refers to the root directory at most once. -/
theorem image_ok {s : Vol} (hsb : s.sb = smallSb) (hdisk : s.disk = imageDisk)
    (hroot : ∀ e, 0 < (s.itable e).ref → e = 0)
    (hinum : 0 < (s.itable 0).ref → (s.itable 0).inum = ROOTINO)
    (hdin : (s.itable 0).valid = true → (s.itable 0).din = imageIno ROOTINO) :
    FsOk imageIno imageOwn Nothing Nothing s := by
  have hsize : ∀ i, Allocated smallSb imageIno i → (imageIno i).size = 32 ∧ i = ROOTINO := by
    intro i hi
    have hi' := (imageIno_type i hi.1).mp hi.2
    rw [imageIno_size i hi.1, if_pos hi']
    exact ⟨rfl, hi'⟩
  refine ⟨hsb ▸ ⟨by decide, by decide, by decide, by decide⟩, hsb ▸ hdisk ▸ image_blocks,
    fun i _ _ => ?_, fun i _ => repr_readDinode _ _, fun e href => ?_, fun e href hvalid _ => ?_,
    fun e e' href href' _ => ?_, fun i hi => ?_, fun i hi _ k hk => ?_⟩
  · rw [hsb, hdisk]
    rfl
  · obtain rfl := hroot e href
    rw [hinum href, hsb]
    decide
  · obtain rfl := hroot e href
    rw [hinum href, hdin hvalid]
    exact ⟨rfl, by decide +kernel⟩
  · rw [hroot e href, hroot e' href']
  · rw [hsb] at hi
    rw [(hsize i hi).1]
    decide
  · rw [hsb] at hi
    obtain ⟨hthirty, hi'⟩ := hsize i hi
    rw [hthirty] at hk
    have hk' : k = 0 := by
      simp only [BSIZE] at hk
      omega
    rw [hdisk, imageIno_ptr hi.1, if_pos ⟨hi', hk'⟩]
    decide

end Xv6.Fs
