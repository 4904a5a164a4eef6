import Xv6.Fs.FileSpec
import Xv6.Lib.Run

/-!
# Runs of inode operations

The operations on inodes in any order, as their callers may use them.

* `Op`, `Op.allowed`, `Op.run`: an operation, when a caller may use it, and its code.
* `Sound`: a well-formed file system with a table of inodes.
* `Benign`: the ways in which an operation may fail to return.
* `Op.run_spec`: one operation; `sound_of_run`: runs.
* `no_holes_below_size`: reading a file allocates no blocks.
* `Vol.Points`, `block_ownership`: the pointers to blocks and the bitmap agree.
-/

namespace Xv6.Fs

open Xv6.Lib.Run Xv6.Lib.Wp

/-! ## Operations -/

inductive Op where
  | beginOp
  | endOp
  | iget (inum : Nat)
  | idup (ip : Nat)
  | ilock (ip : Nat)
  | iunlock (ip : Nat)
  | iput (ip : Nat)
  | ialloc (type : BitVec 16)
  /-- `ip->nlink = nlink; iupdate(ip);` -/
  | setLinks (ip : Nat) (nlink : BitVec 16)
  | writei (ip : Nat) (src : Mem) (off n : Nat)
  | itrunc (ip : Nat)

/-- The caller has a reference to the inode. -/
def Vol.holds (s : Vol) (ip : Nat) : Bool := decide (ip < NINODE ∧ 0 < (s.itable ip).ref)

/-- The caller has locked the inode. -/
def Vol.locks (s : Vol) (ip : Nat) : Bool :=
  s.holds ip && (s.itable ip).locked && (s.itable ip).valid

def Vol.inTransaction (s : Vol) : Bool := decide (0 < s.outstanding)

/-- What the comments in `fs.c` ask of the callers.  Inode numbers come from directory
entries and are in range. -/
def Op.allowed (s : Vol) : Op → Bool
  | .beginOp => true
  | .endOp => s.inTransaction
  | .iget inum => decide (inum < s.sb.ninodes)
  | .idup ip => s.holds ip
  | .ilock ip => s.holds ip
  | .iunlock ip => s.holds ip
  | .iput ip => s.holds ip && s.inTransaction
  | .ialloc _ => s.inTransaction
  | .setLinks ip _ => s.locks ip && s.inTransaction
  | .writei ip _ off n => s.locks ip && s.inTransaction && decide (off < 2 ^ 32 ∧ n < 2 ^ 32)
  | .itrunc ip => s.locks ip && s.inTransaction

def Op.run : Op → FsM Unit
  | .beginOp => Fs.beginOp
  | .endOp => Fs.endOp
  | .iget inum => do
    let _ ← Fs.iget inum
  | .idup ip => do
    let _ ← Fs.idup ip
  | .ilock ip => Fs.ilock ip
  | .iunlock ip => Fs.iunlock ip
  | .iput ip => Fs.iput ip
  | .ialloc type => do
    let _ ← Fs.ialloc type
  | .setLinks ip nlink => do
    setDin ip fun d => { d with nlink }
    iupdate ip
  | .writei ip src off n => do
    let _ ← Fs.writei ip src off n
  | .itrunc ip => Fs.itrunc ip

/-- One operation; a panic ends the run. -/
def step (s : Vol) (op : Op) : Option Vol :=
  if op.allowed s then
    match op.run s with
    | .ok (_, s') => some s'
    | .error _ => none
  else none

/-! ## One operation -/

/-- A well-formed file system with a table of inodes. -/
def Sound (s : Vol) : Prop := WellFormed s ∧ Refs s.itable

/-- The panics of an operation: it ran out of room in the log or in the table, or an inode
was not in the state that its caller expected. -/
def Benign (e : Panic) : Prop :=
  e = .logTooBig ∨ e = .igetNoInodes ∨ e = .ilockNoType ∨ e = .iunlock ∨ e = .stuck

section Operations

variable {s : Vol} {ip : Nat}

theorem room_benign (htrans : s.inTransaction = true) : Room Benign s :=
  ⟨of_decide_eq_true htrans, .inl rfl⟩

theorem holds_iff : s.holds ip = true ↔ ip < NINODE ∧ 0 < (s.itable ip).ref := decide_eq_true_iff

theorem locks_iff :
    s.locks ip = true ↔ (ip < NINODE ∧ 0 < (s.itable ip).ref) ∧ (s.itable ip).locked = true ∧
    (s.itable ip).valid = true := by
  rw [Vol.locks, Bool.and_eq_true, Bool.and_eq_true, and_assoc, holds_iff]

theorem Sound.setEntry (h : Sound s) (hip : ip < NINODE) {x : Inode} (hx : 0 ≤ x.ref)
    (hwf : WellFormed (s.setEntry ip x)) : Sound (s.setEntry ip x) := ⟨hwf, h.2.update hip hx⟩

theorem Sound.setDinAt (h : Sound s) (hip : ip < NINODE) {d : Dinode} {s' : Vol}
    (hwf : WellFormed s') (htable : s'.itable = setDinAt s.itable ip d) : Sound s' :=
  ⟨hwf, htable ▸ h.2.update hip (h.2.nonneg ip)⟩

theorem writei_ok {src : Mem} {off n : Nat} (h : Sound s) (hlocks : s.locks ip = true)
    (htrans : s.inTransaction = true) (hn : n < 2 ^ 32) :
    wp (writei ip src off n) Benign (fun _ => Sound) s := by
  obtain ⟨⟨hip, href⟩, -, hvalid⟩ := locks_iff.mp hlocks
  obtain ⟨ino, own, hok⟩ := h.1
  obtain ⟨hentry, htype⟩ := hok.entry href hvalid
  by_cases hfits : off ≤ (ino (s.itable ip).inum).size ∧ off + n ≤ MAXFILE * BSIZE
  · refine (writei_spec hok hentry htype (room_benign htrans) hfits.1 hfits.2).mono
      fun r s' hpost => ?_
    obtain ⟨k, d', own', -, -, -, hwrote, -, htable⟩ := hpost
    exact h.setDinAt hip ⟨_, _, hwrote.ok⟩ htable
  · have hsizes := hok.sizes _ ⟨hok.range ip href, htype⟩
    refine (writei_refused hentry.din hsizes hn hfits).mono fun r s' hpost => ?_
    rw [hpost.2]
    exact h

theorem iput_ok (h : Sound s) (hholds : s.holds ip = true) (htrans : s.inTransaction = true) :
    wp (iput ip) Benign (fun _ => Sound) s := by
  obtain ⟨hip, href⟩ := holds_iff.mp hholds
  obtain ⟨ino, own, hok⟩ := h.1
  refine (iput_spec hok href rfl (fun _ => .inr (.inr (.inr (.inr rfl)))) (room_benign htrans)).mono
    fun _ s' hpost => ?_
  split at hpost
  · refine ⟨⟨_, _, hpost.ok⟩, ?_⟩
    rw [hpost.itable]
    exact h.2.update hip (show (0 : Int) ≤ 0 from Int.le_refl 0)
  · obtain ⟨hok', rfl⟩ := hpost
    exact h.setEntry hip (show (0 : Int) ≤ (s.itable ip).ref - 1 by omega) ⟨_, _, hok'⟩

theorem Op.run_spec (op : Op) (h : Sound s) (hallowed : op.allowed s = true) :
    wp op.run Benign (fun _ => Sound) s := by
  obtain ⟨⟨ino, own, hok⟩, hrefs⟩ := id h
  cases op with
  | beginOp =>
    rw [run, Fs.beginOp, wp_updates]
    exact ⟨⟨_, _, hok.setLog rfl rfl rfl⟩, hrefs⟩
  | endOp =>
    rw [run, Fs.endOp, wp_updates]
    exact ⟨⟨_, _, hok.setLog rfl rfl rfl⟩, hrefs⟩
  | iget inum =>
    rw [run, wp_bind]
    refine (iget_spec hok hrefs (of_decide_eq_true hallowed) fun _ => .inr (.inl rfl)).mono
      fun ip s' hs' => ?_
    obtain ⟨hip, hok', itable', hgot, rfl⟩ := hs'
    rw [wp_pure]
    exact ⟨⟨_, _, hok'⟩, hgot.refs hrefs hip⟩
  | idup ip =>
    obtain ⟨hip, href⟩ := holds_iff.mp hallowed
    rw [run, wp_bind]
    refine (idup_spec hok href).mono fun r s' hs' => ?_
    obtain ⟨-, hok', rfl⟩ := hs'
    rw [wp_pure]
    exact h.setEntry hip (show 0 ≤ (s.itable ip).ref + 1 by omega) ⟨_, _, hok'⟩
  | ilock ip =>
    obtain ⟨hip, href⟩ := holds_iff.mp hallowed
    refine (ilock_spec hok href rfl (fun _ => .inr (.inr (.inr (.inr rfl))))
      fun _ => .inr (.inr (.inl rfl))).mono fun _ s' hs' => ?_
    obtain ⟨-, hok', rfl⟩ := hs'
    exact h.setEntry hip (hrefs.nonneg ip) ⟨_, _, hok'⟩
  | iunlock ip =>
    obtain ⟨hip, href⟩ := holds_iff.mp hallowed
    refine (iunlock_spec hok href fun _ => .inr (.inr (.inr (.inl rfl)))).mono fun _ s' hs' => ?_
    obtain ⟨hok', rfl⟩ := hs'
    exact h.setEntry hip (hrefs.nonneg ip) ⟨_, _, hok'⟩
  | iput ip =>
    obtain ⟨hholds, htrans⟩ := Bool.and_eq_true_iff.mp hallowed
    exact iput_ok h hholds htrans
  | ialloc type =>
    rw [run, wp_bind]
    refine (ialloc_spec hok hrefs (room_benign hallowed) (fun _ => .inr (.inl rfl)) type).mono
      fun r s' hs' => ?_
    rw [wp_pure]
    cases r with
    | none => exact hs'.1 ▸ h
    | some ip =>
      obtain ⟨i, halloc⟩ := hs'
      exact ⟨⟨_, _, halloc.ok⟩, halloc.got.refs hrefs halloc.bound⟩
  | setLinks ip nlink =>
    obtain ⟨hlocks, htrans⟩ := Bool.and_eq_true_iff.mp hallowed
    obtain ⟨⟨hip, href⟩, -, hvalid⟩ := locks_iff.mp hlocks
    obtain ⟨hentry, htype⟩ := hok.entry href hvalid
    refine (setAttrs_spec hok hentry htype (room_benign htrans) ⟨rfl, rfl, rfl⟩).mono
      fun _ s' hs' => ?_
    exact h.setDinAt hip ⟨_, _, hs'.1⟩ hs'.2.2.2
  | writei ip src off n =>
    obtain ⟨hboth, hrange⟩ := Bool.and_eq_true_iff.mp hallowed
    obtain ⟨hlocks, htrans⟩ := Bool.and_eq_true_iff.mp hboth
    obtain ⟨-, hn⟩ := of_decide_eq_true hrange
    rw [run, wp_bind]
    refine (writei_ok h hlocks htrans hn).mono fun r s' hs' => ?_
    rw [wp_pure]
    exact hs'
  | itrunc ip =>
    obtain ⟨hlocks, htrans⟩ := Bool.and_eq_true_iff.mp hallowed
    obtain ⟨⟨hip, href⟩, -, hvalid⟩ := locks_iff.mp hlocks
    obtain ⟨hentry, htype⟩ := hok.entry href hvalid
    refine (itrunc_spec hok hentry htype (room_benign htrans)).mono fun _ s' hs' => ?_
    exact h.setDinAt hip ⟨_, _, hs'.ok⟩ hs'.itable

end Operations

/-! ## Runs -/

section Runs

variable {s s₀ : Vol} {ops : List Op}

theorem sound_step {s' : Vol} {op : Op} (h : Sound s) (hstep : step s op = some s') : Sound s' := by
  rw [step] at hstep
  split at hstep
  · next hallowed =>
    cases hrun : op.run s with
    | error e =>
      rw [hrun] at hstep
      cases hstep
    | ok r =>
      rw [hrun] at hstep
      cases hstep
      exact (Op.run_spec _ h hallowed).of_ok hrun
  · cases hstep

theorem sound_of_run (h : Sound s₀) (hrun : exec step s₀ ops = some s) : Sound s :=
  inv_of_run (fun _ _ _ => sound_step) h hrun

/-- `fileread` changes nothing on the disk and in the log. -/
theorem fileread_quiet (h : WellFormed s) {f : IFile} (href : 0 < (s.itable f.ip).ref) (dst : Mem)
    (n : BitVec 32) :
    wp (fileread f dst n) (fun e => e = .ilockNoType ∨ e = .stuck)
      (fun _ s' => s'.disk = s.disk ∧ s'.lh = s.lh ∧ s'.outstanding = s.outstanding) s := by
  obtain ⟨ino, own, hok⟩ := h
  cases hread : f.readable with
  | false =>
    rw [fileread, if_pos hread, wp_pure]
    exact ⟨rfl, rfl, rfl⟩
  | true =>
    refine (fileread_spec hok href hread (fun _ => .inr rfl) (fun _ => .inl rfl) dst n).mono
      fun _ s' h' => ?_
    obtain ⟨-, rfl⟩ := h'
    exact ⟨rfl, rfl, rfl⟩

/-- In every state that operations reach, each block below the size of an inode in use has
an address, and `fileread` neither allocates a block nor writes to the log, whether or not
a transaction is open. -/
theorem no_holes_below_size (h : Sound s₀) (hrun : exec step s₀ ops = some s) :
    (∀ i, i < s.sb.ninodes → (s.dinode i).type ≠ 0 →
      ∀ k, k < ((s.dinode i).size + BSIZE - 1) / BSIZE → (s.dinode i).ptr s.disk k ≠ 0) ∧
    ∀ (f : IFile) (dst : Mem) (n : BitVec 32), 0 < (s.itable f.ip).ref →
      wp (fileread f dst n) (fun e => e = .ilockNoType ∨ e = .stuck)
        (fun _ s' => s'.disk = s.disk ∧ s'.lh = s.lh ∧ s'.outstanding = s.outstanding) s := by
  have hsound := sound_of_run h hrun
  obtain ⟨ino, own, hok⟩ := hsound.1
  refine ⟨fun i hi htype k hk => ?_, fun f dst n href => fileread_quiet hsound.1 href dst n⟩
  rw [hok.dinode_eq hi] at htype hk ⊢
  refine hok.noHoles i ⟨hi, htype⟩ not_false k ?_
  simp only [BSIZE] at hk ⊢
  omega

theorem sound_blank : Sound blank := by
  refine ⟨⟨_, _, blank_ok⟩, fun e => ?_, fun e href => ?_⟩
  · rw [blank]
    dsimp only
    split <;> decide
  · rw [blank_table href]
    decide

/-- A file is written, another inode is allocated and given up, and the transaction ends. -/
def shortRun : List Op :=
  [.writei 0 ⟨fun a => UInt8.ofNat a, none⟩ 0 1500, .ialloc T_FILE, .iput 1, .iunlock 0, .endOp]

theorem no_holes_below_size_shortRun :
    ∃ s, exec step blank shortRun = some s ∧ s.outstanding = 0 ∧ (s.dinode 1).size = 1500 ∧
      (s.dinode 1).ptr s.disk 1 ≠ 0 := by
  have hcheck : runCheck step (fun _ _ => true) (fun s => decide (s.outstanding = 0 ∧
    1 < s.sb.ninodes ∧ (s.dinode 1).type ≠ 0 ∧
    (s.dinode 1).size = 1500)) blank shortRun = true := by
    decide +kernel
  obtain ⟨-, s, hrun, hs⟩ := of_runCheck hcheck
  obtain ⟨hout, hlt, htype, hsize⟩ := of_decide_eq_true hs
  refine ⟨s, hrun, hout, hsize, (no_holes_below_size sound_blank hrun).1 1 hlt htype 1 ?_⟩
  rw [hsize]
  decide

/-- The pointer `k` of the inode `i`, which is in use, refers to the block `b`. -/
def Vol.Points (s : Vol) (b i k : Nat) : Prop :=
  i < s.sb.ninodes ∧ (s.dinode i).type ≠ 0 ∧ k ≤ MAXFILE ∧ (s.dinode i).ptr s.disk k = b

theorem FsOk.own_of_points {ino : Nat → Dinode} {own : Owners} {b i k : Nat}
    (h : FsOk ino own Nothing Nothing s) (hb : b ≠ 0) (hpoints : s.Points b i k) :
    own b = some (i, k) := by
  obtain ⟨hi, htype, hk, rfl⟩ := hpoints
  rw [h.dinode_eq hi] at htype hb ⊢
  exact h.blocks.points i k ⟨hi, htype⟩ hk hb

/-- Blocks have one owner: in every state that operations reach, a data block is marked
in the bitmap exactly if a pointer of an inode in use refers to it, only one does, all
pointers are to data blocks, an inode has one entry in the table, and no operation frees a
free block. -/
theorem block_ownership (h : Sound s₀) (hrun : exec step s₀ ops = some s) :
    (∀ b i k, b ≠ 0 → s.Points b i k → (s.sb.nmeta ≤ b ∧ b < s.sb.size) ∧
      bitAt s.sb s.disk b = true ∧
      ∀ i' k', s.Points b i' k' → i' = i ∧ k' = k) ∧
    (∀ b, s.sb.nmeta ≤ b → b < s.sb.size → bitAt s.sb s.disk b = true → ∃ i k, s.Points b i k) ∧
    (∀ e e', 0 < (s.itable e).ref → 0 < (s.itable e').ref → (s.itable e).inum = (s.itable e').inum →
      e = e') ∧
    ∀ op : Op, op.allowed s = true → op.run s ≠ .error .freeingFreeBlock := by
  have hsound := sound_of_run h hrun
  obtain ⟨ino, own, hok⟩ := hsound.1
  refine ⟨fun b i k hb hpoints => ?_, fun b hlow hhigh hbit => ?_, hok.unique,
    fun op hallowed herr => ?_⟩
  · have hown := hok.own_of_points hb hpoints
    obtain ⟨hdata, -⟩ := hok.blocks.owned b i k hown
    refine ⟨hdata, (hok.blocks.bits b hdata.2).mpr (.inr (.inl (by simp [hown]))),
      fun i' k' hpoints' => ?_⟩
    have hsame := (hok.own_of_points hb hpoints').symm.trans hown
    simpa using hsame
  · rcases (hok.blocks.bits b hhigh).mp hbit with hmeta | hown | hheld
    · omega
    · obtain ⟨⟨i, k⟩, hown⟩ := Option.ne_none_iff_exists'.mp hown
      obtain ⟨-, ⟨hi, htype⟩, hk, hptr⟩ := hok.blocks.owned b i k hown
      refine ⟨i, k, hi, ?_⟩
      rw [hok.dinode_eq hi]
      exact ⟨htype, hk, hptr⟩
    · exact hheld.elim
  · have hbenign : Benign .freeingFreeBlock := (Op.run_spec op hsound hallowed).of_error herr
    simp [Benign] at hbenign

theorem block_ownership_shortRun : ∃ s b, exec step blank shortRun = some s ∧ s.Points b 1 1 ∧
    bitAt s.sb s.disk b = true := by
  have hcheck : runCheck step (fun _ _ => true)
      (fun s => decide (1 < s.sb.ninodes ∧ (s.dinode 1).type ≠ 0 ∧
    (s.dinode 1).ptr s.disk 1 ≠ 0)) blank shortRun = true := by
    decide +kernel
  obtain ⟨-, s, hrun, hs⟩ := of_runCheck hcheck
  obtain ⟨hlt, htype, hptr⟩ := of_decide_eq_true hs
  have hpoints : s.Points _ 1 1 := ⟨hlt, htype, by decide, rfl⟩
  exact ⟨s, _, hrun, hpoints, ((block_ownership sound_blank hrun).1 _ 1 1 hptr hpoints).2.1⟩

end Runs

end Xv6.Fs
