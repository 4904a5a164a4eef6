import Mathlib.Data.Finset.Card
import Mathlib.Data.Finset.Dedup
import Xv6.Log.GroupCommit
import Xv6.Log.Reservation

/-!
# Buffers for `commit`

The blocks of the log stay pinned in the cache until they are installed, and the
cache has as many buffers as the log has blocks.

* `HasRoom`: when `commit` takes a buffer for a block of the log area, the blocks
  of the transaction and the buffers that processes use besides them are fewer
  than `NBUF`.
* `commit_finds_buffers`: then `bget` finds a buffer.
* `not_commit_finds_buffers_full`: three sections of ten blocks each fill the
  cache, and the first `bget` of `write_log` panics.
-/

namespace Xv6.Log

open Xv6.Bio Xv6.Lib.Run

/-- The number of buffers in use that are not pinned. -/
def Sys.unpinnedBufs (s : Sys) : Nat :=
  ((s.cache.uses.filter fun u => s.cache.pins u.buf = 0).map Use.buf).dedup.length

/-- No process uses more than one buffer that is not pinned. -/
def OneUnpinned (s : Sys) : Prop :=
  ∀ u ∈ s.cache.uses, ∀ v ∈ s.cache.uses, u.tid = v.tid → s.cache.pins u.buf = 0 →
    s.cache.pins v.buf = 0 → u.buf = v.buf

instance : DecidablePred OneUnpinned := fun _ =>
  inferInstanceAs (Decidable (∀ u ∈ _, ∀ v ∈ _, _))

/-- The next instruction takes a buffer for a slot or for the header. -/
def TakesLogBlock (s : Sys) (t : Nat) : Prop :=
  ∃ c ref rest, s.pcs t = .commit c ∧ c.code = .bget .a ref :: rest

/-- There is a buffer besides those of the transaction and those in use. -/
def HasRoom (s : Sys) (t : Nat) : Prop :=
  TakesLogBlock s t → s.lh.length + s.unpinnedBufs < NBUF

variable {start : Nat} {s : Sys} {g : Group} {t : Nat} {c : Committer}

/-! ## Counting buffers -/

/-- The pinned buffers hold different blocks of the transaction. -/
theorem AtCommit.card_pinned {g : Contents} (h : AtCommit start s g t c) :
    ((Finset.range NBUF).filter fun b => s.cache.pins b ≠ 0).card ≤ s.lh.length := by
  have hmem : ∀ b ∈ (Finset.range NBUF).filter (fun b => s.cache.pins b ≠ 0),
      b < NBUF ∧ (s.cache.bc.bufs b).dev = ROOTDEV ∧
        (s.cache.bc.bufs b).blockno ∈ pinnedAt s.lh c.phase c.code := by
    intro b hb
    obtain ⟨hlt, hpins⟩ := Finset.mem_filter.mp hb
    have hlt := Finset.mem_range.mp hlt
    rw [h.coherent.pins b hlt] at hpins
    by_cases hc : (s.cache.bc.bufs b).dev = ROOTDEV ∧
        (s.cache.bc.bufs b).blockno ∈ pinnedAt s.lh c.phase c.code
    · exact ⟨hlt, hc⟩
    · exact absurd (if_neg hc) hpins
  calc ((Finset.range NBUF).filter fun b => s.cache.pins b ≠ 0).card
      ≤ s.lh.toFinset.card := by
        refine Finset.card_le_card_of_injOn (fun b => (s.cache.bc.bufs b).blockno) ?_ ?_
        · intro b hb
          exact List.mem_toFinset.mpr (pinnedAt_subset _ (hmem b hb).2.2)
        · intro b hb b' hb' heq
          obtain ⟨hlt, hdev, -⟩ := hmem b hb
          obtain ⟨hlt', hdev', -⟩ := hmem b' hb'
          exact h.coherent.unique ⟨hlt, hdev, heq⟩ ⟨hlt', hdev', rfl⟩
    _ ≤ s.lh.length := List.toFinset_card_le _

/-- If every buffer has a reference, the others are in use. -/
theorem AtCommit.card_used {g : Contents} (h : AtCommit start s g t c)
    (hall : ∀ b, b < NBUF → (s.cache.bc.bufs b).refcnt ≠ 0) :
    ((Finset.range NBUF).filter fun b => ¬ s.cache.pins b ≠ 0).card ≤ s.unpinnedBufs := by
  rw [Sys.unpinnedBufs, ← List.card_toFinset]
  refine Finset.card_le_card fun b hb => ?_
  obtain ⟨hlt, hpins⟩ := Finset.mem_filter.mp hb
  have hlt := Finset.mem_range.mp hlt
  have hzero : s.cache.pins b = 0 := not_not.mp hpins
  have hcount := h.coherent.inv.refcnt b hlt
  have hne := hall b hlt
  have hpos : 0 < users s.cache.uses b := by omega
  obtain ⟨u, hu, hbuf⟩ := List.countP_pos_iff.mp hpos
  have hbuf : u.buf = b := of_decide_eq_true hbuf
  refine List.mem_toFinset.mpr (List.mem_map.mpr ⟨u, List.mem_filter.mpr ⟨hu, ?_⟩, hbuf⟩)
  rw [hbuf]
  exact decide_eq_true hzero

/-- Without a free buffer the transaction and the users have taken all of them. -/
theorem AtCommit.full {g : Contents} (h : AtCommit start s g t c)
    (hall : ∀ b, b < NBUF → (s.cache.bc.bufs b).refcnt ≠ 0) :
    NBUF ≤ s.lh.length + s.unpinnedBufs := by
  have hsplit := Finset.card_filter_add_card_filter_not (s := Finset.range NBUF)
    (fun b => s.cache.pins b ≠ 0)
  rw [Finset.card_range] at hsplit
  have hpinned := h.card_pinned
  have hused := h.card_used hall
  omega

/-! ## Panics of `commit` -/

theorem bget_noBuffers {blockno : Nat} (h : s.bget t blockno = .error (.panic .noBuffers)) :
    s.cache.bc.bget ROOTDEV blockno = .error .noBuffers := by
  unfold Sys.bget at h
  split at h
  · rcases bind_eq_error h with herr | ⟨s', -, herr⟩
    · cases onCache_error herr
    · cases herr
  · next hget => exact hget
  · cases h

theorem acquire_error {buf : Nat} {e : Stop} (h : s.acquire t buf = .error e) : e = .disabled := by
  rcases bind_eq_error h with herr | ⟨s', -, herr⟩
  · exact onCache_error herr
  · exact onCache_error herr

theorem bwrite_error {buf : Nat} {data : Block} {e : Stop} (h : s.bwrite t buf data = .error e) :
    e = .disabled := by
  rcases bind_eq_error h with herr | ⟨s', -, herr⟩
  · exact onCache_error herr
  · cases herr

/-- Of the instructions of `commit` only `bget` panics. -/
theorem runInstr_panic {i : Instr} (h : runInstr start s t c i = .error (.panic .noBuffers)) :
    ∃ r ref, i = .bget r ref ∧
    s.cache.bc.bget ROOTDEV (s.blockno start ref) = .error .noBuffers := by
  cases i with
  | bget r ref =>
    rcases bind_eq_error h with herr | ⟨⟨b, s'⟩, -, herr⟩
    · exact ⟨r, ref, rfl, bget_noBuffers herr⟩
    · cases herr
  | acquire r =>
    rcases bind_eq_error h with herr | ⟨s', -, herr⟩
    · cases acquire_error herr
    · cases herr
  | writeLog | writeHead | install =>
    rcases bind_eq_error h with herr | ⟨s', -, herr⟩
    · cases bwrite_error herr
    · cases herr
  | bunpin r | unlock r | brelse r =>
    rcases bind_eq_error h with herr | ⟨s', -, herr⟩
    · cases onCache_error herr
    · cases herr

theorem commitTick_panic (h : commitTick start s t = .error (.panic .noBuffers)) :
    ∃ c r ref rest, s.pcs t = .commit c ∧ c.code = .bget r ref :: rest ∧
      s.cache.bc.bget ROOTDEV (s.blockno start ref) = .error .noBuffers := by
  unfold commitTick at h
  split at h
  · next c hpc =>
    split at h
    · cases h
    · next i rest hcode =>
      rcases bind_eq_error h with herr | ⟨⟨s', c'⟩, -, herr⟩
      · obtain ⟨r, ref, rfl, hget⟩ := runInstr_panic herr
        exact ⟨c, r, ref, rest, hpc, hcode, hget⟩
      · cases herr
  · cases h

/-- The home block of a step of `write_log` or `install_trans` is still pinned. -/
theorem AtCommit.home_cached {g : Contents} {ref : BlockRef} {rest : List Instr}
    (h : AtCommit start s g t c) (hcode : c.code = .bget .b ref :: rest) :
    ∃ b, Holds s.cache b ROOTDEV (s.blockno start ref) := by
  have hfits := h.fits
  rw [hcode] at hfits
  obtain ⟨⟨rfl, hstage, hpin⟩, -, hfits⟩ := hfits
  obtain ⟨tail, htail⟩ := hfits.tail (by rw [hstage]; exact Option.some_ne_none _)
  obtain ⟨hlt, heq⟩ := h.home _ htail
  have hmem : s.lh[tail] ∈ pinnedAt s.lh c.phase c.code := by
    cases hp : c.phase with
    | writeLog k => exact List.getElem_mem hlt
    | install k =>
      rw [hp] at htail
      cases htail
      have hunpin : Instr.bunpin .b ∈ c.code := by
        rw [hcode]
        refine List.mem_cons_of_mem _ ?_
        rcases hpin rfl with ⟨k, hk⟩ | hmem
        · rw [hp] at hk
          cases hk
        · exact hmem
      simp only [pinnedAt, if_pos hunpin]
      rw [List.drop_eq_getElem_cons hlt]
      exact List.mem_cons_self
    | start | writeHead | clear | clearHead | finish =>
      rw [hp] at htail
      cases htail
  obtain ⟨b, hb, -⟩ := h.coherent.pinned _ hmem
  rw [heq]
  exact ⟨b, hb⟩

theorem LogInv.finds_buffer (h : LogInv start s g) (hroom : HasRoom s t) :
    commitTick start s t ≠ .error (.panic .noBuffers) := by
  intro hpanic
  obtain ⟨c, r, ref, rest, hpc, hcode, hget⟩ := commitTick_panic hpanic
  obtain ⟨-, hat⟩ := h.committing hpc
  obtain ⟨hnone, hall⟩ := hat.coherent.inv.bget_error hget
  cases r with
  | a =>
    have hlt := hroom ⟨c, ref, rest, hpc, hcode⟩
    have hfull := hat.full hall
    omega
  | b =>
    obtain ⟨b, hb⟩ := hat.home_cached hcode
    exact hnone b hb

/-- In every run `commit` finds a buffer for a block of the log area if the
blocks of the transaction leave one that is not in use. -/
theorem commit_finds_buffers {start : Nat} {disk : Disk} {acts : List Act} {s : Sys}
    (hlog : LogEmpty start disk) (hrun : exec (step start) (Sys.init disk) acts = some s) (t : Nat)
    (hroom : HasRoom s t) : stepE start s (.commit t) ≠ .error (.panic .noBuffers) := by
  obtain ⟨g, -, hinv⟩ := simulation (R := LogInv start)
    (fun _ _ _ _ h hstep => logInv_step h (stepE_of_step hstep)) (logInv_init hlog) hrun
  exact hinv.finds_buffer hroom

/-- The first `bget` of a commit of one block. -/
theorem commit_finds_buffers_oneSection :
    ∃ s, exec (step 2) (Sys.init fun _ => zeroBlock) (oneSection.take 8) = some s ∧ HasRoom s 0 ∧
      TakesLogBlock s 0 ∧ stepE 2 s (.commit 0) ≠ .error (.panic .noBuffers) := by
  have hcheck : runCheck (step 2) (fun _ _ => true)
      (fun s => s.lh.length + s.unpinnedBufs < NBUF ∧ s.pcs 0 = .commit (Phase.writeLog 0).enter)
      (Sys.init fun _ => zeroBlock) (oneSection.take 8) = true := by
    decide +kernel
  obtain ⟨-, s, hrun, hend⟩ := of_runCheck hcheck
  obtain ⟨hlt, hpc⟩ := of_decide_eq_true hend
  have hroom : HasRoom s 0 := fun _ => hlt
  exact ⟨s, hrun, hroom, ⟨_, _, _, hpc, rfl⟩, commit_finds_buffers (by decide) hrun 0 hroom⟩

/-- Three sections log ten blocks each and end, and the last one starts to commit. -/
def fullRun : List Act :=
  fillLog ++ [.endOp 0, .endOp 1, .endOp 2, .commit 2]

set_option maxRecDepth 100000 in
/-- Every buffer is pinned, and `write_log` asks for the first slot. -/
theorem not_commit_finds_buffers_full :
    StepsMeet (step 2) (fun s a => WithinOp s a ∧ OneUnpinned s)
    (Sys.init fun _ => zeroBlock) fullRun ∧
      ∃ s, exec (step 2) (Sys.init fun _ => zeroBlock) fullRun = some s ∧ OneUnpinned s ∧
        stepE 2 s (.commit 2) = .error (.panic .noBuffers) := by
  have hcheck : runCheck (step 2) (fun s a => decide (WithinOp s a ∧ OneUnpinned s))
      (fun s => OneUnpinned s ∧ panicOf (stepE 2 s (.commit 2)) = some .noBuffers)
      (Sys.init fun _ => zeroBlock) fullRun = true := by
    decide +kernel
  obtain ⟨hsteps, s, hrun, hend⟩ := of_runCheck hcheck
  obtain ⟨hone, hpanic⟩ := of_decide_eq_true hend
  exact ⟨hsteps.mono fun _ _ => of_decide_eq_true, s, hrun, hone, eq_of_panicOf hpanic⟩

end Xv6.Log
