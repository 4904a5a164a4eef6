import Xv6.Fs.Extend

/-!
# The content of a file

A file is an array of bytes, and `readi` copies a part of it.

* `Dinode.byte`, `Dinode.content`: the bytes of a file.
* `Mem.fill`: memory after a copy.
* `readiLoop_spec`, `readi_spec`: `readi` of a file without holes.
-/

namespace Xv6.Fs

open Xv6.Lib.Bytes Xv6.Lib.Wp

/-- The byte at offset `o` of a file. -/
def Dinode.byte (d : Dinode) (disk : Disk) (o : Nat) : UInt8 :=
  disk (d.ptr disk (o / BSIZE)) (o % BSIZE)

def Dinode.content (d : Dinode) (disk : Disk) : List UInt8 :=
  (List.range d.size).map (d.byte disk)

theorem length_content (d : Dinode) (disk : Disk) : (d.content disk).length = d.size := by
  rw [Dinode.content, List.length_map, List.length_range]

/-- Bytes of one block. -/
theorem byte_add {d : Dinode} {disk : Disk} {o a : Nat} (h : o % BSIZE + a < BSIZE) :
    d.byte disk (o + a) = disk (d.ptr disk (o / BSIZE)) (o % BSIZE + a) := by
  have hdiv : (o + a) / BSIZE = o / BSIZE := by
    simp only [BSIZE] at h ⊢
    omega
  have hmod : (o + a) % BSIZE = o % BSIZE + a := by
    simp only [BSIZE] at h ⊢
    omega
  rw [Dinode.byte, hdiv, hmod]

/-! ## Reading -/

/-- A copy as far as the memory can be accessed. -/
def Mem.fill (u : Mem) (f : Nat → UInt8) (n : Nat) : Mem :=
  { u with byte := copyBytes u.byte 0 f 0 n }

section Reading

variable {E : Panic → Prop} {ino : Nat → Dinode} {own : Owners} {held X : Nat → Prop}
  {s : Vol} {i ip : Nat}

/-- The number of bytes that `readi` has to copy: the sum is one of 32-bit numbers. -/
def readLen (size off n : Nat) : Nat := min ((off + n) % 2 ^ 32) size - off

theorem reach_le (u : Mem) (tot m : Nat) : u.reach tot m ≤ m := by
  unfold Mem.reach
  split
  · exact Nat.le_refl m
  · exact Nat.min_le_left m _

/-- A block that lies below the size is there. -/
theorem FsOk.ptr_ne_zero {H : Nat → Prop} (h : FsOk ino own held X s H)
    (hi : Allocated s.sb ino i) (hH : ¬ H i) {o : Nat} (ho : o < (ino i).size) :
    o / BSIZE < MAXFILE ∧ (ino i).ptr s.disk (o / BSIZE) ≠ 0 := by
  have hpos : 0 < BSIZE := by decide
  have hle : o / BSIZE * BSIZE ≤ o := Nat.div_mul_le_self o BSIZE
  refine ⟨(Nat.div_lt_iff_lt_mul hpos).mpr (Nat.lt_of_lt_of_le ho (h.sizes i hi)), ?_⟩
  exact h.noHoles i hi hH _ (Nat.lt_of_le_of_lt hle ho)

/-- The memory that `n` bytes can be copied to. -/
theorem reach_zero_add {u : Mem} {tot m : Nat} (htot : u.reach 0 tot = tot)
    (hm : u.reach tot m = m) :
    u.reach 0 (tot + m) = tot + m := by
  unfold Mem.reach at htot hm ⊢
  split
  · rfl
  · next l hl =>
    simp only [hl] at htot hm
    omega

/-- A copy that stops early has reached the end of the memory. -/
theorem reach_zero_of_lt {u : Mem} {tot m n : Nat} (htot : u.reach 0 tot = tot)
    (hm : u.reach tot m < m) (hn : tot + m ≤ n) :
    u.reach 0 n = tot + u.reach tot m ∧ u.reach 0 n ≠ n := by
  unfold Mem.reach at htot hm ⊢
  split
  · next hl =>
    simp only [hl] at hm
    omega
  · next l hl =>
    simp only [hl] at htot hm
    omega

/-- The loop copies until everything is copied or the memory ends. -/
theorem readiLoop_spec {dst : Mem} {off n : Nat} (h : FsOk ino own held X s)
    (hdin : (s.itable ip).din = ino i) (hi : Allocated s.sb ino i) (hend : off + n ≤ (ino i).size)
    (fuel : Nat) {tot : Nat} (htot : tot ≤ n) (hfuel : n - tot ≤ fuel)
    (hreach : dst.reach 0 tot = tot) :
    wp (readiLoop ip n fuel tot (off + tot)
      (dst.fill (fun o => (ino i).byte s.disk (off + o)) tot)) E
        (fun r s' => s' = s ∧ r.1 = (if dst.reach 0 n = n then (n : Int) else -1) ∧
        r.2 = dst.fill (fun o => (ino i).byte s.disk (off + o)) (dst.reach 0 n)) s := by
  have hdone : dst.reach 0 n = n → wp (pure ((n : Int), dst.fill
      (fun o => (ino i).byte s.disk (off + o)) n) : FsM (Int × Mem)) E
      (fun r s' => s' = s ∧ r.1 = (if dst.reach 0 n = n then (n : Int) else -1) ∧
        r.2 = dst.fill (fun o => (ino i).byte s.disk (off + o)) (dst.reach 0 n)) s := by
    intro heq
    rw [wp_pure, if_pos heq, heq]
    exact ⟨rfl, rfl, rfl⟩
  induction fuel generalizing tot with
  | zero =>
    obtain rfl : tot = n := by omega
    exact hdone hreach
  | succ fuel ih =>
    rw [readiLoop]
    split
    · next hlt =>
      have hpos : (off + tot) % BSIZE < BSIZE := Nat.mod_lt _ (by decide)
      obtain ⟨hmax, hne⟩ := h.ptr_ne_zero hi not_false (show off + tot < (ino i).size by omega)
      rw [wp_bind]
      refine (bmap_read hdin hmax hne).mono fun a s' ha => ?_
      obtain ⟨rfl, rfl⟩ := ha
      rw [if_neg hne, wp_bind, bread, wp_reads]
      -- the next `m` bytes lie in one block
      generalize hm : min (n - tot) (BSIZE - (off + tot) % BSIZE) = m
      have hmle : m ≤ n - tot := hm ▸ Nat.min_le_left _ _
      have hmblock : (off + tot) % BSIZE + m ≤ BSIZE := by omega
      have hmpos : 0 < m := by omega
      have hcopy : ∀ k, k ≤ m →
          copyBytes (dst.fill (fun o => (ino i).byte s'.disk (off + o)) tot).byte
          tot (s'.disk ((ino i).ptr s'.disk ((off + tot) / BSIZE))) ((off + tot) % BSIZE) k =
          (dst.fill (fun o => (ino i).byte s'.disk (off + o)) (tot + k)).byte := by
        intro k hk
        show copyBytes (copyBytes dst.byte 0 (fun o => (ino i).byte s'.disk (off + o)) 0 tot)
          tot _ _ k =
          copyBytes dst.byte 0 (fun o => (ino i).byte s'.disk (off + o)) 0 (tot + k)
        have happend : ∀ a, a < k → s'.disk ((ino i).ptr s'.disk ((off + tot) / BSIZE))
            ((off + tot) % BSIZE + a) = (ino i).byte s'.disk (off + (tot + a)) := by
          intro a ha
          rw [← Nat.add_assoc, byte_add (by omega)]
        have hcopies : copyBytes
            (copyBytes dst.byte 0 (fun o => (ino i).byte s'.disk (off + o)) 0 tot)
            (0 + tot) _ _ k = _ := copyBytes_append happend
        rwa [Nat.zero_add] at hcopies
      have hsame : (dst.fill (fun o => (ino i).byte s'.disk (off + o)) tot).reach tot m =
          dst.reach tot m := rfl
      dsimp only
      rw [hsame, hcopy _ (reach_le dst tot m)]
      split
      · next hshort =>
        obtain ⟨hend', hnot⟩ := reach_zero_of_lt hreach hshort (show tot + m ≤ n by omega)
        rw [wp_pure, if_neg hnot, hend']
        exact ⟨rfl, rfl, rfl⟩
      · next hfull =>
        have heq : dst.reach tot m = m := Nat.le_antisymm (reach_le dst tot m) (Nat.not_lt.mp hfull)
        rw [heq, Nat.add_assoc]
        exact ih (by omega) (by omega) (reach_zero_add hreach heq)
    · next hge =>
      obtain rfl : tot = n := by omega
      exact hdone hreach

/-- `readi` copies the bytes from `off` on and changes nothing. -/
theorem readi_spec {dst : Mem} {off n : Nat} (h : FsOk ino own held X s)
    (hdin : (s.itable ip).din = ino i) (hi : Allocated s.sb ino i) (hn : n < 2 ^ 32) :
    wp (readi ip dst off n) E (fun r s' => s' = s ∧
      r.1 = (if dst.reach 0 (readLen (ino i).size off n) = readLen (ino i).size off n then
        (readLen (ino i).size off n : Int) else -1) ∧
      r.2 = dst.fill (fun o => (ino i).byte s.disk (off + o))
        (dst.reach 0 (readLen (ino i).size off n))) s := by
  have hzero : dst.reach 0 0 = 0 := Nat.le_zero.mp (reach_le dst 0 0)
  have hfill : ∀ f, dst.fill f 0 = dst := by
    intro f
    have hbyte : copyBytes dst.byte 0 f 0 0 = dst.byte := by
      funext a
      exact if_neg (by omega)
    rw [Mem.fill, hbyte]
  rw [readi, wp_bind, inode, wp_reads, hdin]
  split
  · next hout =>
    have hlen : readLen (ino i).size off n = 0 := by
      unfold readLen
      omega
    rw [wp_pure, hlen, hzero, if_pos rfl, hfill]
    exact ⟨rfl, rfl, rfl⟩
  · next hin =>
    have hlen : (if (off + n) % 2 ^ 32 > (ino i).size then (ino i).size - off else n) =
        readLen (ino i).size off n := by
      unfold readLen
      split <;> omega
    have hend : off + readLen (ino i).size off n ≤ (ino i).size := by
      unfold readLen
      omega
    dsimp only
    rw [hlen]
    have hloop := readiLoop_spec (E := E) h hdin hi hend (readLen (ino i).size off n)
      (Nat.zero_le _) (Nat.sub_le _ _) hzero
    rwa [hfill, Nat.add_zero] at hloop

end Reading

end Xv6.Fs
