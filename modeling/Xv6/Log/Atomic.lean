import Xv6.Log.Basic

/-!
# Crash atomicity of the redo log

`commit` is run on a disk whose log is empty and may crash after any of its
block writes; so may any number of recoveries after it.  Once one recovery has
run to its end, the blocks outside the log area are all as before the
transaction or all as after it.

* `Txn`: the home blocks of a transaction.  The invariants that `log_write`
  keeps are fields.
* `Empty` and `Committed`: the two kinds of disk that a crash can leave.  In a
  `Committed` disk the header names the transaction and every log slot holds
  its block, so it does not matter which home blocks were already written.
* `installTrans_spec`, `writeLog_spec`: the loops of `install_trans` and
  `write_log`.
* `commit_crash`: the header write is the commit point.
* `recovery_of_empty`, `recovery_of_committed`: what one recovery, crashed or
  not, does to each kind of disk.
-/

namespace Xv6.Log

open Xv6.Lib.Bytes Xv6.Lib.Loop Xv6.Lib.Crash
open Function (update update_of_ne update_self)

variable {i m : Nat} {d h : Disk} {P : Nat → Disk → Prop} {s : LogSys}

/-- Block `b` is the log header or one of the log slots. -/
def InLog (start b : Nat) : Prop :=
  start ≤ b ∧ b ≤ start + LOGBLOCKS

instance (start b : Nat) : Decidable (InLog start b) :=
  inferInstanceAs (Decidable (_ ∧ _))

/-- The on-disk log holds no transaction. -/
def LogEmpty (start : Nat) (d : Disk) : Prop :=
  hdrN (d start) = 0

instance (start : Nat) (d : Disk) : Decidable (LogEmpty start d) :=
  inferInstanceAs (Decidable (_ = _))

/-- Two disks agree outside the log area. -/
def HomeEq (start : Nat) (d d' : Disk) : Prop :=
  ∀ b, ¬ InLog start b → d b = d' b

/-- The home blocks of a transaction.  They need not be distinct. -/
structure Txn (start : Nat) where
  blocks : List Nat
  length_le : blocks.length ≤ LOGBLOCKS
  outside : ∀ b ∈ blocks, ¬ InLog start b
  uint : ∀ b ∈ blocks, b < 2 ^ 32

variable {start : Nat} (t : Txn start) (new : Nat → Block) (d₀ : Disk)

/-- The state at the call of `commit`: the buffers of the transaction hold
`new`, nothing of it is on the disk `d₀`. -/
def Txn.pending : LogSys where
  dev := { init := d₀ }
  cached := fun b => if b ∈ t.blocks then some (new b) else none
  lh := t.blocks

/-- The disk with all writes of the transaction done. -/
def Txn.after : Disk := fun b =>
  if b ∈ t.blocks then new b else d₀ b

/-- The log is empty and the home blocks are those of `h`. -/
structure Empty (start : Nat) (h d : Disk) : Prop where
  log : LogEmpty start d
  home : HomeEq start d h

/-- The log holds the transaction, and its first `m` blocks are installed. -/
structure Committed (m : Nat) (d : Disk) : Prop where
  head : hdrBlocks (d start) = t.blocks
  slots : ∀ i (h : i < t.blocks.length), d (start + i + 1) = new t.blocks[i]
  home : ∀ b, ¬ InLog start b → d b = d₀ b ∨ d b = t.after new d₀ b
  installed : ∀ i (h : i < t.blocks.length), i < m → d t.blocks[i] = new t.blocks[i]

variable {t new d₀}

theorem slot_inLog (h : i < t.blocks.length) : InLog start (start + i + 1) := by
  have := t.length_le
  exact ⟨by omega, by omega⟩

theorem start_inLog : InLog start start :=
  ⟨le_refl _, Nat.le_add_right _ _⟩

theorem ne_of_not_inLog {b c : Nat} (hb : ¬ InLog start b) (hc : InLog start c) : b ≠ c :=
  fun heq => hb (heq ▸ hc)

theorem Txn.ne_of_inLog {b : Nat} (h : i < t.blocks.length) (hb : InLog start b) :
    b ≠ t.blocks[i] :=
  (ne_of_not_inLog (t.outside _ (List.getElem_mem h)) hb).symm

/-! ## Installing a committed transaction -/

/-- Writing a block of the transaction home, for the first time or again. -/
theorem Committed.put (h : Committed t new d₀ m d) (hi : i < t.blocks.length) :
    Committed t new d₀ m (update d t.blocks[i] (new t.blocks[i])) := by
  have hmem : t.blocks[i] ∈ t.blocks := List.getElem_mem hi
  refine ⟨?_, fun j hj => ?_, fun b hb => ?_, fun j hj hlt => ?_⟩
  · rw [update_of_ne (Txn.ne_of_inLog hi start_inLog), h.head]
  · rw [update_of_ne (Txn.ne_of_inLog hi (slot_inLog hj)), h.slots j hj]
  · by_cases hbi : b = t.blocks[i]
    · right
      rw [hbi, update_self, Txn.after, if_pos hmem]
    · rw [update_of_ne hbi]
      exact h.home b hb
  · by_cases hji : t.blocks[j] = t.blocks[i]
    · rw [hji, update_self]
    · rw [update_of_ne hji]
      exact h.installed j hj hlt

/-- Writing one more block of the transaction home. -/
theorem Committed.install (h : Committed t new d₀ m d)
    (hm : m < t.blocks.length) :
    Committed t new d₀ (m + 1) (update d t.blocks[m] (new t.blocks[m])) := by
  have hput := h.put hm
  refine ⟨hput.head, hput.slots, hput.home, fun i hi hlt => ?_⟩
  rcases Nat.lt_succ_iff_lt_or_eq.mp hlt with hlt | rfl
  · exact hput.installed i hi hlt
  · rw [update_self]

theorem Committed.weaken (h : Committed t new d₀ m d) :
    Committed t new d₀ 0 d :=
  ⟨h.head, h.slots, h.home, fun _ _ hi => absurd hi (Nat.not_lt_zero _)⟩

/-- With every block installed the home area is that of the transaction. -/
theorem Committed.homeEq (h : Committed t new d₀ t.blocks.length d) :
    HomeEq start d (t.after new d₀) := by
  intro b hb
  by_cases hmem : b ∈ t.blocks
  · obtain ⟨i, hi, rfl⟩ := List.getElem_of_mem hmem
    rw [h.installed i hi hi, Txn.after, if_pos hmem]
  · have hsame : t.after new d₀ b = d₀ b := if_neg hmem
    rcases h.home b hb with hd | hd <;> rw [hd]
    exact hsame.symm

/-- The state of the loop of `install_trans` at `tail = m`, at least `lo`
writes after the start. -/
structure InstallInv (P : Nat → Disk → Prop) (t : Txn start) (new : Nat → Block) (d₀ : Disk)
    (lo m : Nat) (s : LogSys) : Prop where
  safe : Safe P s.dev
  count : lo ≤ s.dev.issued.length
  lh : s.lh = t.blocks
  clean : ∀ b, InLog start b → s.cached b = none
  disk : Committed t new d₀ m s.dev.now

theorem InstallInv.step {lo : Nat}
    (hP : ∀ k d, lo ≤ k → Committed t new d₀ 0 d → P k d) (hm : m < t.blocks.length)
    (h : InstallInv P t new d₀ lo m s) :
    InstallInv P t new d₀ lo (m + 1)
      (s.bwrite (s.lh.getD m 0) (s.bread (start + m + 1))) := by
  have hb : s.lh.getD m 0 = t.blocks[m] := by simp [h.lh, hm]
  have hdata : s.bread (start + m + 1) = new t.blocks[m] := by
    rw [LogSys.bread, h.clean _ (slot_inLog hm), Option.getD_none, h.disk.slots m hm]
  have hnext := h.disk.install hm
  rw [hb, hdata]
  refine ⟨h.safe.write (hP _ _ (by have := h.count; omega) hnext.weaken), ?_, h.lh,
    fun b hlog => ?_, ?_⟩
  · simpa [LogSys.bwrite] using Nat.le_succ_of_le h.count
  · simp only [LogSys.bwrite]
    rw [update_of_ne (Txn.ne_of_inLog hm hlog), h.clean b hlog]
  · simpa [LogSys.bwrite] using hnext

/-- `install_trans` keeps the log and writes every block home. -/
theorem installTrans_spec {lo : Nat}
    (hP : ∀ k d, lo ≤ k → Committed t new d₀ 0 d → P k d) (h : InstallInv P t new d₀ lo 0 s) :
    InstallInv P t new d₀ lo t.blocks.length (installTrans start s) := by
  unfold installTrans
  rw [h.lh]
  exact forUpTo_inv h fun i hi _ hinv => hinv.step hP hi

/-! ## Erasing the log -/

/-- Erasing the header leaves the home blocks alone. -/
theorem Empty.clear (b : Block) (hhome : HomeEq start d h) :
    Empty start h (update d start (putHead b [])) := by
  refine ⟨?_, fun b hb => ?_⟩
  · rw [LogEmpty, update_self]
    exact hdrN_putHead b (Nat.zero_le _)
  · rw [update_of_ne (ne_of_not_inLog hb start_inLog)]
    exact hhome b hb

theorem clearHead_spec (hsafe : Safe P s.dev)
    (hhome : HomeEq start s.dev.now h) (hP : ∀ d, Empty start h d → P (s.dev.issued.length + 1) d) :
    Safe P (clearHead start s).dev ∧ Empty start h (clearHead start s).dev.now ∧
      (clearHead start s).dev.issued.length = s.dev.issued.length + 1 := by
  have hempty := Empty.clear (({ s with lh := [] } : LogSys).bread start) hhome
  refine ⟨hsafe.write (hP _ hempty), ?_, ?_⟩
  · simpa [clearHead, writeHead, LogSys.bwrite] using hempty
  · simp [clearHead, writeHead, LogSys.bwrite]

/-! ## Recovery -/

/-- A recovery that finds an empty log changes no home block, crashed or not. -/
theorem recovery_of_empty (hd : Empty start h d) :
    (∀ k, Empty start h (crashedRecovery start d k)) ∧ Empty start h (recovered start d) := by
  have hread : readHead start (boot d) = boot d := by
    have hn : hdrN (d start) = 0 := hd.log
    simp [readHead, boot, LogSys.bread, hdrBlocks, hn]
  have hinstall : installTrans start (readHead start (boot d)) = boot d := by
    rw [hread]
    rfl
  have hspec := clearHead_spec (P := fun _ => Empty start h) (s := boot d) (Safe.start hd) hd.home
    fun _ hnext => hnext
  unfold crashedRecovery recovered recoverFromLog
  rw [hinstall]
  exact ⟨hspec.1.crash, hspec.2.1⟩

/-- A recovery that finds the transaction finishes it, or crashes with the
transaction still in the log, or crashes with the transaction done. -/
theorem recovery_of_committed (hd : Committed t new d₀ 0 d) :
    (∀ k, Committed t new d₀ 0 (crashedRecovery start d k) ∨
      Empty start (t.after new d₀) (crashedRecovery start d k)) ∧
    Empty start (t.after new d₀) (recovered start d) := by
  let P : Nat → Disk → Prop := fun _ d =>
    Committed t new d₀ 0 d ∨ Empty start (t.after new d₀) d
  have hinv : InstallInv P t new d₀ 0 0 (readHead start (boot d)) :=
    ⟨Safe.start (.inl hd), Nat.zero_le _, hd.head, fun _ _ => rfl, hd⟩
  have hdone := installTrans_spec (fun _ _ _ h => .inl h) hinv
  have hspec := clearHead_spec hdone.safe hdone.disk.homeEq fun _ h => .inr h
  exact ⟨hspec.1.crash, hspec.2.1⟩

/-- The disk after recoveries from `d`, crashed after `ks` writes each. -/
def crashedRecoveries (start : Nat) (d : Disk) (ks : List Nat) : Disk :=
  ks.foldl (crashedRecovery start) d

theorem recoveries_of_empty (hd : Empty start h d) (ks : List Nat) :
    Empty start h (recovered start (crashedRecoveries start d ks)) := by
  induction ks generalizing d with
  | nil => exact (recovery_of_empty hd).2
  | cons k ks ih => exact ih ((recovery_of_empty hd).1 k)

theorem recoveries_of_committed (hd : Committed t new d₀ 0 d) (ks : List Nat) :
    Empty start (t.after new d₀) (recovered start (crashedRecoveries start d ks)) := by
  induction ks generalizing d with
  | nil => exact (recovery_of_committed hd).2
  | cons k ks ih =>
    rcases (recovery_of_committed hd).1 k with hnext | hnext
    · exact ih hnext
    · exact recoveries_of_empty hnext ks

/-! ## Commit -/

/-- What a crash of `commit` after `k` writes leaves: up to the header write
nothing outside the log has changed. -/
def CommitCrash (t : Txn start) (new : Nat → Block) (d₀ : Disk) (k : Nat) (d : Disk) : Prop :=
  if k ≤ t.blocks.length then Empty start d₀ d
  else Committed t new d₀ 0 d ∨ Empty start (t.after new d₀) d

/-- The state of the loop of `write_log` at `tail = m`. -/
structure WriteLogInv (t : Txn start) (new : Nat → Block) (d₀ : Disk) (m : Nat) (s : LogSys) :
    Prop where
  safe : Safe (CommitCrash t new d₀) s.dev
  count : s.dev.issued.length = m
  lh : s.lh = t.blocks
  dirty : ∀ b ∈ t.blocks, s.cached b = some (new b)
  clean : ∀ b, InLog start b → s.cached b = none
  head : s.dev.now start = d₀ start
  home : HomeEq start s.dev.now d₀
  slots : ∀ i (h : i < t.blocks.length), i < m → s.dev.now (start + i + 1) = new t.blocks[i]

theorem WriteLogInv.init (hlog : LogEmpty start d₀) :
    WriteLogInv t new d₀ 0 (t.pending new d₀) where
  safe := Safe.start (by simpa [CommitCrash] using ⟨hlog, fun _ _ => rfl⟩)
  count := rfl
  lh := rfl
  dirty := fun _ hb => if_pos hb
  clean := fun b hb => if_neg fun hmem => t.outside b hmem hb
  head := rfl
  home := fun _ _ => rfl
  slots := fun _ _ hi => absurd hi (Nat.not_lt_zero _)

theorem WriteLogInv.step (hlog : LogEmpty start d₀)
    (hm : m < t.blocks.length) (h : WriteLogInv t new d₀ m s) :
    WriteLogInv t new d₀ (m + 1) (s.bwrite (start + m + 1) (s.bread (s.lh.getD m 0))) := by
  have hb : s.lh.getD m 0 = t.blocks[m] := by simp [h.lh, hm]
  have hdata : s.bread t.blocks[m] = new t.blocks[m] := by
    rw [LogSys.bread, h.dirty _ (List.getElem_mem hm), Option.getD_some]
  have hhead : update s.dev.now (start + m + 1) (new t.blocks[m]) start = d₀ start := by
    rw [update_of_ne (by omega), h.head]
  have hhome : HomeEq start (update s.dev.now (start + m + 1) (new t.blocks[m])) d₀ := by
    intro b hout
    rw [update_of_ne (ne_of_not_inLog hout (slot_inLog hm)), h.home b hout]
  rw [hb, hdata]
  refine ⟨h.safe.write ?_, ?_, h.lh, fun b hmem => ?_, fun b hin => ?_, ?_, ?_, fun i hi hlt => ?_⟩
  · have hle : s.dev.issued.length + 1 ≤ t.blocks.length := by
      rw [h.count]
      exact hm
    rw [CommitCrash, if_pos hle]
    exact ⟨by rw [LogEmpty, hhead]; exact hlog, hhome⟩
  · simp [LogSys.bwrite, h.count]
  · have hne : b ≠ start + m + 1 := ne_of_not_inLog (t.outside b hmem) (slot_inLog hm)
    simpa [LogSys.bwrite, hne] using h.dirty b hmem
  · by_cases hne : b = start + m + 1
    · simp [LogSys.bwrite, hne]
    · simpa [LogSys.bwrite, hne] using h.clean b hin
  · simpa [LogSys.bwrite] using hhead
  · simpa [LogSys.bwrite] using hhome
  · simp only [LogSys.bwrite, Device.now_write]
    rcases Nat.lt_succ_iff_lt_or_eq.mp hlt with hlt | rfl
    · rw [update_of_ne (by omega), h.slots i hi hlt]
    · rw [update_self]

/-- `write_log` fills the log slots and changes nothing else on disk. -/
theorem writeLog_spec (t : Txn start) (new : Nat → Block) (hlog : LogEmpty start d₀) :
    WriteLogInv t new d₀ t.blocks.length (writeLog start (t.pending new d₀)) :=
  forUpTo_inv (WriteLogInv.init hlog) fun _ hi _ hinv => hinv.step hlog hi

/-- The header write commits the transaction. -/
theorem writeHead_spec (h : WriteLogInv t new d₀ t.blocks.length s) :
    InstallInv (CommitCrash t new d₀) t new d₀ (t.blocks.length + 1) 0 (writeHead start s) := by
  have hcommitted : Committed t new d₀ 0
      (update s.dev.now start (putHead (s.bread start) s.lh)) := by
    refine ⟨?_, fun i hi => ?_, fun b hb => .inl ?_, fun _ _ hi => absurd hi (Nat.not_lt_zero _)⟩
    · rw [update_self, h.lh, hdrBlocks_putHead _ t.length_le t.uint]
    · rw [update_of_ne (by omega), h.slots i hi hi]
    · rw [update_of_ne (ne_of_not_inLog hb start_inLog), h.home b hb]
  refine ⟨h.safe.write ?_, ?_, h.lh, fun b hb => ?_, ?_⟩
  · rw [CommitCrash, if_neg (by rw [h.count]; omega)]
    exact .inl hcommitted
  · simp [writeHead, LogSys.bwrite, h.count]
  · by_cases hne : b = start
    · simp [writeHead, LogSys.bwrite, hne]
    · simpa [writeHead, LogSys.bwrite, hne] using h.clean b hb
  · simpa [writeHead, LogSys.bwrite] using hcommitted

/-- The header write is the commit point: a crash of `commit` leaves the disk as
it was before the write of the header and a committed or finished transaction
from then on. -/
theorem commit_crash (t : Txn start) (new : Nat → Block) (hlog : LogEmpty start d₀) (k : Nat) :
    CommitCrash t new d₀ k ((commit start (t.pending new d₀)).dev.crash k) := by
  by_cases hn : 0 < t.blocks.length
  · have hP : ∀ k d, t.blocks.length + 1 ≤ k →
        (Committed t new d₀ 0 d ∨ Empty start (t.after new d₀) d) → CommitCrash t new d₀ k d := by
      intro k d hk h
      rw [CommitCrash, if_neg (by omega)]
      exact h
    have hdone := installTrans_spec (fun k d hk h => hP k d hk (.inl h))
      (writeHead_spec (writeLog_spec t new hlog))
    have hcount := hdone.count
    have hspec := clearHead_spec hdone.safe hdone.disk.homeEq
      fun d h => hP _ d (by omega) (.inr h)
    have hcommit : commit start (t.pending new d₀) = clearHead start (installTrans start
        (writeHead start (writeLog start (t.pending new d₀)))) := if_pos hn
    rw [hcommit]
    have hcrash := hspec.1.crash k
    -- a crash index past the last write stands for the last write, which is past the header
    rcases Nat.le_total k t.blocks.length with hk | hk
    · rwa [Nat.min_eq_left (by omega)] at hcrash
    · by_cases hlast : k ≤ (clearHead start (installTrans start
          (writeHead start (writeLog start (t.pending new d₀))))).dev.issued.length
      · rwa [Nat.min_eq_left hlast] at hcrash
      · rw [Nat.min_eq_right (by omega), CommitCrash, if_neg (by omega)] at hcrash
        exact hP k _ (by omega) hcrash
  · have hnil : t.blocks = [] := List.length_eq_zero_iff.mp (by omega)
    have hsame : t.after new d₀ = d₀ := by
      funext b
      simp [Txn.after, hnil]
    have hcommit : commit start (t.pending new d₀) = t.pending new d₀ := if_neg hn
    have hempty : Empty start d₀ d₀ := ⟨hlog, fun _ _ => rfl⟩
    have hdisk : (t.pending new d₀).dev.crash k = d₀ := by simp [Txn.pending, Device.crash]
    rw [hcommit, hdisk, CommitCrash, hsame]
    split
    · exact hempty
    · exact .inr hempty

/-- Crash atomicity: whatever the crash point of `commit` and of the recoveries after it, a
completed recovery leaves the log empty and all home blocks as before the transaction, if the
crash came before the header write, and all as after it otherwise. -/
theorem commit_atomic (start : Nat) (t : Txn start) (new : Nat → Block) (d₀ : Disk)
    (hlog : LogEmpty start d₀) (k : Nat) (ks : List Nat) :
    let d := recovered start (crashedRecoveries start
      ((commit start (t.pending new d₀)).dev.crash k) ks)
    HomeEq start d (if k ≤ t.blocks.length then d₀ else t.after new d₀) ∧ LogEmpty start d := by
  have hcrash := commit_crash t new hlog k
  unfold CommitCrash at hcrash
  split at hcrash
  · rw [if_pos ‹_›]
    have hempty := recoveries_of_empty hcrash ks
    exact ⟨hempty.home, hempty.log⟩
  · rw [if_neg ‹_›]
    have hempty : Empty start (t.after new d₀) _ :=
      hcrash.elim (fun h => recoveries_of_committed h ks) fun h => recoveries_of_empty h ks
    exact ⟨hempty.home, hempty.log⟩

/-- A transaction on two blocks behind a log at block 2, crashed between the two
installs, with one crashed recovery. -/
theorem commit_atomic_twoBlocks :
    let t : Txn 2 := ⟨[45, 33], by decide, by decide, by decide⟩
    LogEmpty 2 (fun _ => zeroBlock) ∧
      let d := recovered 2 (crashedRecoveries 2
        ((commit 2 (t.pending (fun b _ => UInt8.ofNat b) fun _ => zeroBlock)).dev.crash 4) [1])
      HomeEq 2 d (t.after (fun b _ => UInt8.ofNat b) fun _ => zeroBlock) ∧ LogEmpty 2 d :=
  ⟨by decide, commit_atomic 2 ⟨[45, 33], by decide, by decide, by decide⟩ _ _ (by decide) 4 [1]⟩

end Xv6.Log
