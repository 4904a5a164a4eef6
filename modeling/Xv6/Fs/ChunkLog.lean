import Xv6.Fs.FileSpec

/-!
# A chunk fits a transaction

A chunk of `filewrite` that is not aligned touches up to four data blocks, but the first of
them is there already, so at most three of them and the indirect block are allocated, each
with a map block of its own.

* `loop_chunk_logs`, `chunk_logs`: the blocks of a chunk.
* `chunk_fits_transaction`.
-/

namespace Xv6.Fs

open Xv6.Lib.Wp

/-! ## A chunk -/

section Chunk

variable {ino : Nat → Dinode} {own : Owners} {i ip off n : Nat} {src : Mem} {s : Vol}

/-- The blocks of a chunk and the map blocks of those that are new. -/
theorem loop_chunk_logs (h : FsOk ino own Nothing Nothing s) (hentry : Entry ip i (ino i) s)
    (htype : (ino i).type ≠ 0) (hoff : off ≤ (ino i).size) (hn : n ≤ maxChunk) :
    wp (writeiLoop ip src n n 0 off) (Overflows ip 7 s) (fun _ t => Logged ip 7 s t) s := by
  have hmax : n ≤ 3072 := hn
  by_cases haligned : off % BSIZE = 0 ∨ n = 0
  · -- three blocks at most
    have hblocks : 2 * blocksOf off (n - 0) ≤ 7 := by
      simp only [blocksOf, BSIZE] at haligned ⊢
      split <;> omega
    exact ((writeiLoop_logs n).mono fun _ t ht => ht.mono hblocks).mono_fail fun e he =>
      he.mono hblocks
  · have hblocks := blocksOf_le hn off
    -- the byte before `off` is in the same block and in the file
    have hpos : 0 < off :=
      Nat.pos_of_ne_zero fun hzero => haligned (.inl (by rw [hzero, Nat.zero_mod]))
    have hprev : (off - 1) / BSIZE = off / BSIZE := by
      simp only [BSIZE] at haligned ⊢
      omega
    have hlt : i < s.sb.ninodes := hentry.inum ▸ h.range ip hentry.ref
    obtain ⟨hbn, hne⟩ := h.ptr_ne_zero (o := off - 1) ⟨hlt, htype⟩ not_false (by omega)
    rw [hprev] at hbn hne
    obtain ⟨m, rfl⟩ : ∃ m, n = m + 1 := ⟨n - 1, by omega⟩
    have hloop : wp (writeiLoop ip src (m + 1) (m + 1) 0 off) _ _ s :=
      writeiLoop_logs_there hentry.din hbn hne (by omega)
    exact (hloop.mono fun _ t ht => ht.mono (by omega)).mono_fail fun e he => he.mono (by omega)

/-- Whatever the free map looks like and wherever `writei`
stops, a transaction of `filewrite` adds at most `MAXOPBLOCKS` different blocks to the log, and
the log does not run full if it had room for them. -/
theorem chunk_fits_transaction (h : OpenInode s ip)
    (hoff : off ≤ (s.dinode (s.itable ip).inum).size) (hn : n ≤ maxChunk) :
    wp (beginOp >>= fun _ => ilock ip >>= fun _ => writei ip src off n >>= fun _ => iunlock ip)
      (fun e => e = .logTooBig ∧ LOGBLOCKS < s.lh.length + MAXOPBLOCKS)
      (fun _ t => (t.lh.toFinset \ s.lh.toFinset).card ≤ MAXOPBLOCKS) s := by
  refine wp_beginLock h fun ino own s₂ h₂ => ?_
  rw [wp_bind]
  have hroom : Room (· = .logTooBig) s₂ := ⟨by rw [h₂.outstanding]; exact Nat.succ_pos _, rfl⟩
  have hsize : off ≤ (ino (s.itable ip).inum).size := by
    have hlt := h₂.ok.range ip h₂.toEntry.ref
    rw [h₂.entry] at hlt
    rwa [← h₂.ok.dinode_eq hlt, h₂.dinode_eq]
  have hstored : wp (writei ip src off n) _ _ s₂ :=
    writei_stored h₂.ok h₂.toEntry h₂.used (Nat.lt_of_le_of_lt hn (by decide)) hroom
  have hboth := hstored.and (writei_logs (loop_chunk_logs h₂.ok h₂.toEntry h₂.used hsize hn))
  refine (hboth.mono_fail ?_).mono fun r s₃ hpost => ?_
  · rintro e ⟨rfl, hover⟩
    have hfull := hover.length_le
    rw [h₂.lh] at hfull
    exact ⟨rfl, Nat.lt_of_le_of_lt hfull (Nat.lt_succ_self _)⟩
  obtain ⟨⟨k, ino', own', d', -, -, -, -, -, hok₃, -, -, htable₃⟩, hlogs⟩ := hpost
  have hentry₃ : s₃.itable ip = { s.itable ip with locked := true, valid := true, din := d' } := by
    rw [htable₃, setDinAt, Function.update_self, h₂.entry]
  refine wp.mono (iunlock_spec hok₃ (by rw [hentry₃]; exact h.ref) fun hbad => ?_) fun _ t ht => ?_
  · rw [hentry₃] at hbad
    cases hbad
  rw [ht.2]
  have hcard := hlogs.card_le
  rw [h₂.lh] at hcard
  exact hcard

theorem chunk_fits_transaction_blank : ∃ t,
    (beginOp >>= fun _ => ilock 0 >>= fun _ => writei 0 ⟨fun _ => 65, none⟩ 0 3072 >>= fun _ =>
      iunlock 0)
      blankVol = .ok ((), t) ∧ (t.lh.toFinset \ blankVol.lh.toFinset).card ≤ MAXOPBLOCKS := by
  have hrun : wp (beginOp >>= fun _ => ilock 0 >>= fun _ => writei 0 ⟨fun _ => 65, none⟩ 0 3072 >>=
      fun _ => iunlock 0) _ _ blankVol :=
    chunk_fits_transaction openInode_blankVol (Nat.zero_le _) (by decide)
  obtain ⟨_, t, hok, hcard⟩ := (hrun.mono_fail fun e he => absurd he.2 (by decide)).returns
  exact ⟨t, hok, hcard⟩

end Chunk

end Xv6.Fs
