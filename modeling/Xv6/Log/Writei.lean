import Mathlib.Data.List.Nodup
import Xv6.Fs.Basic
import Xv6.Log.GroupCommit

/-!
# `writei` and the coherence of the cache

The log layer with calls of `writei`.  A call goes through the file block by block:
it copies a chunk from the user into the buffer and calls `log_write`.  If the
copy fails, the call gives the buffer back without `log_write`; `copyin` may have
stored a part of the chunk by then.

* `Sys.content`: what a reader finds in a block.
* `Writei`, `FileSys`: the calls in progress.  The caller of `writei` holds the lock
  of the inode, so no two calls share a block, and nobody else writes the blocks
  that the file has.
* `FileAct`, `fileStep`: steps of the log layer and steps of the calls.
* `CacheCoherent`, `KeepsContents`, `KeepsTail`: valid buffers agree with the disk,
  only `log_write` changes what a block contains, and a call leaves the file
  behind its last chunk alone.
* `writei_coherent`: all of them hold in every run in which a copy that fails has
  stored nothing; `not_writei_coherent_partial` is the other case.
-/

namespace Xv6.Log

open Xv6.Bio Xv6.Lib.Run

/-- What a reader finds in block `n`. -/
def Sys.content (s : Sys) (n : Nat) : Block :=
  match (List.range NBUF).find? fun b => (s.cache.bc.bufs b).dev = ROOTDEV ∧
      (s.cache.bc.bufs b).blockno = n ∧ (s.cache.bc.bufs b).valid = true with
  | some b => (s.cache.bc.bufs b).data
  | none => s.disk n

/-- Is the thread inside a section? -/
def Sys.inside (s : Sys) (t : Nat) : Bool :=
  match s.pcs t with
  | .inside _ => true
  | _ => false

/-- Byte `i` of the file whose blocks are `addrs`. -/
def fileByte (content : Nat → Block) (addrs : List Nat) (i : Nat) : UInt8 :=
  content (addrs.getD (i / BSIZE) 0) (i % BSIZE)

/-- The block with `bytes` stored at `off`. -/
def patch (data : Block) (off : Nat) (bytes : List UInt8) : Block := fun i =>
  if off ≤ i then (bytes[i - off]?).getD (data i) else data i

/-- A call of `writei`. -/
structure Writei where
  /-- What `bmap` gives for the file, with the blocks that it allocates during the
  call. -/
  addrs : List Nat
  /-- `ip->size` at the call. -/
  size : Nat
  off : Nat
  n : Nat
  tot : Nat := 0
  /-- The loop has been left. -/
  done : Bool := false
  /-- The file at the call. -/
  before : Nat → UInt8

namespace Writei

/-- The blocks that the file has at the call. -/
def kept (w : Writei) : List Nat :=
  w.addrs.take ((w.size + BSIZE - 1) / BSIZE)

/-- Where the next chunk goes: `off`, as the loop advances it. -/
def pos (w : Writei) : Nat :=
  w.off + w.tot

/-- The length of the next chunk. -/
def m (w : Writei) : Nat :=
  min (w.n - w.tot) (BSIZE - w.pos % BSIZE)

end Writei

structure FileSys where
  log : Sys
  /-- The calls in progress, by thread. -/
  calls : List (Nat × Writei) := []

inductive FileAct where
  | log (a : Act)
  | writei (t : Nat) (addrs : List Nat) (size off n : Nat)
  /-- `either_copyin` stores the chunk, and `log_write`. -/
  | chunk (t buf : Nat) (bytes : List UInt8)
  /-- `either_copyin` fails and has stored `bytes` by then. -/
  | fault (t buf : Nat) (bytes : List UInt8)
  /-- The call returns. -/
  | finish (t : Nat)

/-- The lock of the inode protects the blocks of its file, and a section does not
end inside `writei`. -/
def FileSys.Allows (s : FileSys) : Act → Prop
  | .logWrite _ buf _ => ∀ p ∈ s.calls, (s.log.cache.bc.bufs buf).blockno ∉ p.2.kept
  | .endOp t => s.calls.lookup t = none
  | _ => True

instance (s : FileSys) : (a : Act) → Decidable (s.Allows a)
  | .logWrite .. => inferInstanceAs (Decidable (∀ p ∈ _, _))
  | .endOp t =>
    match h : s.calls.lookup t with
    | none => .isTrue h
    | some _ => .isFalse fun hc => nomatch h.symm.trans hc
  | .beginOp _ | .bget .. | .acquire .. | .unlock .. | .brelse .. | .commit _ => .isTrue trivial

/-- The buffer of the next chunk. -/
def FileSys.Chunk (s : FileSys) (w : Writei) (buf : Nat) : Prop :=
  w.done = false ∧ w.tot < w.n ∧ w.addrs[w.pos / BSIZE]? = some (s.log.cache.bc.bufs buf).blockno

instance (s : FileSys) (w : Writei) (buf : Nat) : Decidable (s.Chunk w buf) :=
  inferInstanceAs (Decidable (_ ∧ _ ∧ _))

def FileSys.setCall (s : FileSys) (t : Nat) (w : Writei) : List (Nat × Writei) :=
  (t, w) :: s.calls.filter fun p => p.1 ≠ t

section Code

variable (start : Nat)

/-- Can thread `t` call `writei` on a file with these blocks? -/
def FileSys.CanCall (s : FileSys) (t : Nat) (addrs : List Nat) (size : Nat) : Prop :=
  s.log.inside t = true ∧ addrs.Nodup ∧ (∀ b ∈ addrs, ¬ InLog start b) ∧
    size ≤ addrs.length * BSIZE ∧ ∀ p ∈ s.calls, p.1 ≠ t ∧ ∀ b ∈ addrs, b ∉ p.2.addrs

instance (s : FileSys) (t : Nat) (addrs : List Nat) (size : Nat) :
    Decidable (s.CanCall start t addrs size) :=
  inferInstanceAs (Decidable (_ ∧ _ ∧ _ ∧ _ ∧ _))

/-- One step. -/
def fileStep (s : FileSys) : FileAct → Option FileSys
  | .log a =>
    if s.Allows a then (step start s.log a).map fun log => { s with log := log } else none
  | .writei t addrs size off n =>
    if s.CanCall start t addrs size ∧ off ≤ size ∧ off + n ≤ Fs.MAXFILE * BSIZE then
      some { s with
        calls := (t, ⟨addrs, size, off, n, 0, false, fileByte s.log.content addrs⟩) :: s.calls }
    else none
  | .chunk t buf bytes =>
    match s.calls.lookup t with
    | some w =>
      if s.Chunk w buf ∧ bytes.length = w.m then
        (step start s.log (.logWrite t buf
          (patch (s.log.cache.bc.bufs buf).data (w.pos % BSIZE) bytes))).map fun log =>
            ⟨log, s.setCall t { w with tot := w.tot + w.m }⟩
      else none
    | none => none
  | .fault t buf bytes =>
    match s.calls.lookup t with
    | some w =>
      if s.Chunk w buf ∧ bytes.length < w.m then
        match s.log.onCache (.store t buf
            (patch (s.log.cache.bc.bufs buf).data (w.pos % BSIZE) bytes)) with
        | .ok log => some ⟨log, s.setCall t { w with done := true }⟩
        | .error _ => none
      else none
    | none => none
  | .finish t => some { s with calls := s.calls.filter fun p => p.1 ≠ t }

def FileSys.init (disk : Disk) : FileSys where
  log := Sys.init disk

end Code

/-! ## The properties -/

/-- A valid buffer that nobody holds agrees with the disk, unless its block is in
the log header. -/
def CacheCoherent (s : Sys) : Prop :=
  ∀ b, b < NBUF → (s.cache.bc.bufs b).valid = true → (s.cache.bc.bufs b).lock = none →
    (s.cache.bc.bufs b).blockno ∉ s.lh →
    (s.cache.bc.bufs b).data = s.disk (s.cache.bc.bufs b).blockno

/-- Only `log_write` changes what a reader finds in a file; eviction and reading a
block again do not. -/
def KeepsContents (start : Nat) (s : Sys) : Prop :=
  ∀ a s', step start s a = some s' → (∀ t buf data, a ≠ .logWrite t buf data) →
    ∀ n, ¬ InLog start n → s'.content n = s.content n

/-- The file is as it was at the call, behind what the call has written. -/
def KeepsTail (s : FileSys) : Prop :=
  ∀ p ∈ s.calls, ∀ i, p.2.off + p.2.tot ≤ i → i < p.2.size →
    fileByte s.log.content p.2.addrs i = p.2.before i

/-- A copy that fails has stored nothing. -/
def WholeChunks (_ : FileSys) : FileAct → Prop
  | .fault _ _ bytes => bytes = []
  | _ => True

instance (s : FileSys) : (a : FileAct) → Decidable (WholeChunks s a)
  | .fault _ _ bytes => inferInstanceAs (Decidable (bytes = []))
  | .log _ | .writei .. | .chunk .. | .finish _ => .isTrue trivial

/-! ## Contents of blocks -/

section Contents

variable {start : Nat} {s s' : Sys} {g g' : Group} {t t' buf n : Nat} {c : Committer} {data : Block}
  {a : Act}

/-- A reader finds the view of the invariant. -/
theorem AtCommit.content_eq {g : Contents} (h : AtCommit start s g t c) (n : Nat) :
    s.content n = view start s.disk g.current n := by
  unfold Sys.content
  split
  · next b hfind =>
    have hb : b < NBUF := List.mem_range.mp (List.mem_of_find?_eq_some hfind)
    have hb' := List.find?_some hfind
    obtain ⟨hdev, rfl, hvalid⟩ := of_decide_eq_true hb'
    exact (h.coherent.fresh b hb).data hvalid
  · next hnone =>
    by_cases hlog : InLog start n
    · rw [view_inLog hlog]
    · rw [view_home hlog]
      refine h.coherent.clean n hlog fun hmem => ?_
      obtain ⟨b, ⟨hb, hdev, hno⟩, hvalid⟩ := h.coherent.pinned n hmem
      exact List.find?_eq_none.mp hnone b (List.mem_range.mpr hb)
        (decide_eq_true ⟨hdev, hno, hvalid⟩)

theorem LogInv.content (h : LogInv start s g) (hn : ¬ InLog start n) :
    s.content n = g.current n := by
  obtain ⟨t, c, -, hat⟩ := h.commit
  rw [hat.content_eq, view_home hn]

/-- Of the steps of a group only a write changes the current contents. -/
theorem Group.step_current {e : Event} (h : Group.step g e = some g')
    (he : ∀ t n data, e ≠ .logWrite t n data) : g'.current = g.current := by
  cases e with
  | logWrite t n data => exact absurd rfl (he t n data)
  | beginOp t | endOp t | commit t | finish t =>
    obtain ⟨-, rfl⟩ := of_guard h
    rfl

theorem Group.exec_current {es : List Event} (h : exec Group.step g es = some g')
    (he : ∀ e ∈ es, ∀ t n data, e ≠ .logWrite t n data) : g'.current = g.current := by
  induction es generalizing g with
  | nil =>
    cases h
    rfl
  | cons e es ih =>
    obtain ⟨u, hu, hrest⟩ := exec_cons_eq_some h
    rw [ih hrest fun e he' => he e (List.mem_cons_of_mem _ he')]
    exact Group.step_current hu (he e List.mem_cons_self)

theorem event_not_logWrite (ha : ∀ t buf data, a ≠ .logWrite t buf data) :
    ∀ e ∈ event s a, ∀ t n data, e ≠ .logWrite t n data := by
  intro e he t n data heq
  subst heq
  cases a with
  | logWrite t buf data => exact absurd rfl (ha t buf data)
  | beginOp t | endOp t =>
    cases List.mem_singleton.mp he
  | bget t n | acquire t b | unlock t b | brelse t b => cases he
  | commit t =>
    unfold event at he
    dsimp only at he
    split at he
    · split at he
      · cases List.mem_singleton.mp he
      · split at he
        · cases List.mem_singleton.mp he
        · cases he
    · cases he

theorem LogInv.keeps (h : LogInv start s g) (hstep : step start s a = some s')
    (ha : ∀ t buf data, a ≠ .logWrite t buf data) :
    ∃ g', g'.current = g.current ∧ LogInv start s' g' := by
  obtain ⟨g', hevent, hinv⟩ := logInv_step h (stepE_of_step hstep)
  exact ⟨g', Group.exec_current hevent (event_not_logWrite ha), hinv⟩

/-- `log_write` changes its block. -/
theorem LogInv.writes (h : LogInv start s g)
    (hstep : step start s (.logWrite t buf data) = some s') :
    ∃ g', g'.current = Function.update g.current (s.cache.bc.bufs buf).blockno data ∧
      LogInv start s' g' := by
  obtain ⟨g', hevent, hinv⟩ := h.logWrite (stepE_of_step hstep)
  obtain ⟨-, rfl⟩ := of_guard hevent
  exact ⟨_, Contents.current_write _ _ _, hinv⟩

theorem LogInv.cacheCoherent (h : LogInv start s g) : CacheCoherent s := by
  intro b hb hvalid _ hlh
  obtain ⟨t, c, -, hat⟩ := h.commit
  rw [(hat.coherent.fresh b hb).data hvalid]
  by_cases hlog : InLog start (s.cache.bc.bufs b).blockno
  · rw [view_inLog hlog]
  · rw [view_home hlog]
    exact (hat.coherent.clean _ hlog fun hmem => hlh (pinnedAt_subset _ hmem)).symm

theorem LogInv.keepsContents (h : LogInv start s g) : KeepsContents start s := by
  intro a s' hstep ha n hn
  obtain ⟨g', hcurrent, hinv⟩ := h.keeps hstep ha
  rw [hinv.content hn, h.content hn, hcurrent]

/-- The data of a buffer that a section holds. -/
theorem LogInv.data_of_store (h : LogInv start s g) {cache : Cache}
    (hstep : Bio.step s.cache (.store t buf data) = some cache)
    (hn : ¬ InLog start (s.cache.bc.bufs buf).blockno) :
    (s.cache.bc.bufs buf).data = g.current (s.cache.bc.bufs buf).blockno := by
  obtain ⟨t', c, -, hat⟩ := h.commit
  rw [hat.coherent.data_of_holding (step_store hstep).mem, view_home hn]

end Contents

/-! ## Calls -/

structure FileInv (start : Nat) (s : FileSys) (g : Group) : Prop where
  log : LogInv start s.log g
  nodup : ∀ p ∈ s.calls, p.2.addrs.Nodup
  home : ∀ p ∈ s.calls, ∀ b ∈ p.2.addrs, ¬ InLog start b
  size : ∀ p ∈ s.calls, p.2.size ≤ p.2.addrs.length * BSIZE
  disjoint : ∀ p ∈ s.calls, ∀ q ∈ s.calls, p.1 ≠ q.1 → ∀ b ∈ p.2.addrs, b ∉ q.2.addrs
  tail : ∀ p ∈ s.calls, ∀ i, p.2.off + p.2.tot ≤ i → i < p.2.size →
    fileByte g.current p.2.addrs i = p.2.before i

section Steps

variable {start : Nat} {s s' : FileSys} {g : Group}

/-- The block of a byte below `size`. -/
theorem addr_mem {addrs : List Nat} {size i : Nat} (hsize : size ≤ addrs.length * BSIZE)
    (hi : i < size) :
    ∃ h : i / BSIZE < addrs.length, addrs.getD (i / BSIZE) 0 = addrs[i / BSIZE] := by
  have hlt : i / BSIZE < addrs.length := Nat.div_lt_of_lt_mul (by rw [Nat.mul_comm]; omega)
  exact ⟨hlt, by simp [hlt]⟩

theorem kept_mem {w : Writei} {i : Nat} (hsize : w.size ≤ w.addrs.length * BSIZE)
    (hi : i < w.size) :
    w.addrs.getD (i / BSIZE) 0 ∈ w.kept := by
  obtain ⟨hlt, heq⟩ := addr_mem hsize hi
  have hblocks : i / BSIZE < (w.size + BSIZE - 1) / BSIZE := by
    unfold BSIZE
    omega
  rw [heq, Writei.kept, List.mem_take_iff_getElem]
  exact ⟨i / BSIZE, by omega, rfl⟩

/-- A write outside the file. -/
theorem fileByte_update {cur : Nat → Block} {addrs : List Nat} {n i : Nat} {data : Block}
    (hne : addrs.getD (i / BSIZE) 0 ≠ n) :
    fileByte (Function.update cur n data) addrs i = fileByte cur addrs i := by
  unfold fileByte
  rw [Function.update_of_ne hne]

/-- The calls do not change, and the contents of their files neither. -/
theorem FileInv.same (h : FileInv start s g) {log : Sys} {g' : Group} (hlog : LogInv start log g')
    (hbytes : ∀ p ∈ s.calls, ∀ i, i < p.2.size →
      fileByte g'.current p.2.addrs i = fileByte g.current p.2.addrs i) :
    FileInv start { s with log := log } g' := by
  refine ⟨hlog, h.nodup, h.home, h.size, h.disjoint, fun p hp i hlo hi => ?_⟩
  rw [hbytes p hp i hi]
  exact h.tail p hp i hlo hi

/-- A call is replaced by its next state. -/
theorem FileInv.setCall (h : FileInv start s g) {t : Nat} {w w' : Writei} {log : Sys} {g' : Group}
    (hw : (t, w) ∈ s.calls) (hlog : LogInv start log g') (haddrs : w'.addrs = w.addrs)
    (hsize : w'.size = w.size)
    (htail : ∀ i, w'.off + w'.tot ≤ i → i < w'.size → fileByte g'.current w'.addrs i = w'.before i)
    (hother : ∀ p ∈ s.calls, p.1 ≠ t → ∀ i, i < p.2.size →
      fileByte g'.current p.2.addrs i = fileByte g.current p.2.addrs i) :
    FileInv start ⟨log, s.setCall t w'⟩ g' := by
  have hmem : ∀ p ∈ s.setCall t w', p = (t, w') ∨ p ∈ s.calls ∧ p.1 ≠ t := by
    intro p hp
    rcases List.mem_cons.mp hp with heq | hp
    · exact .inl heq
    · obtain ⟨hp, hne⟩ := List.mem_filter.mp hp
      exact .inr ⟨hp, of_decide_eq_true hne⟩
  refine ⟨hlog, fun p hp => ?_, fun p hp => ?_, fun p hp => ?_, fun p hp q hq hne => ?_,
    fun p hp i hlo hi => ?_⟩
  · rcases hmem p hp with rfl | ⟨hp, -⟩
    · rw [haddrs]
      exact h.nodup _ hw
    · exact h.nodup p hp
  · rcases hmem p hp with rfl | ⟨hp, -⟩
    · rw [haddrs]
      exact h.home _ hw
    · exact h.home p hp
  · rcases hmem p hp with rfl | ⟨hp, -⟩
    · rw [haddrs, hsize]
      exact h.size _ hw
    · exact h.size p hp
  · rcases hmem p hp with rfl | ⟨hp, hpt⟩
    · rcases hmem q hq with rfl | ⟨hq, -⟩
      · exact absurd rfl hne
      · rw [haddrs]
        exact h.disjoint _ hw q hq hne
    · rcases hmem q hq with rfl | ⟨hq, -⟩
      · rw [haddrs]
        exact h.disjoint p hp _ hw hne
      · exact h.disjoint p hp q hq hne
  · rcases hmem p hp with rfl | ⟨hp, hpt⟩
    · exact htail i hlo hi
    · rw [hother p hp hpt i hi]
      exact h.tail p hp i hlo hi

theorem mem_of_lookup {calls : List (Nat × Writei)} {t : Nat} {w : Writei}
    (h : calls.lookup t = some w) : (t, w) ∈ calls := by
  obtain ⟨l₁, l₂, rfl, -⟩ := List.lookup_eq_some_iff.mp h
  exact List.mem_append_right _ List.mem_cons_self

/-- Behind a chunk the block is as before. -/
theorem patch_of_le {data : Block} {off i : Nat} {bytes : List UInt8} (h : off + bytes.length ≤ i) :
    patch data off bytes i = data i := by
  have hnone : bytes[i - off]? = none := List.getElem?_eq_none (by omega)
  rw [patch, if_pos (by omega), hnone, Option.getD_none]

theorem patch_nil (data : Block) (off : Nat) : patch data off [] = data := by
  funext i
  simp [patch]

theorem FileInv.chunk (h : FileInv start s g) {t buf : Nat} {bytes : List UInt8}
    (hstep : fileStep start s (.chunk t buf bytes) = some s') : ∃ g', FileInv start s' g' := by
  unfold fileStep at hstep
  dsimp only at hstep
  split at hstep
  · next w hw =>
    split at hstep
    · next hguard =>
      obtain ⟨⟨-, -, haddr⟩, hlen⟩ := hguard
      obtain ⟨log, hlog, rfl⟩ := Option.map_eq_some_iff.mp hstep
      have hw := mem_of_lookup hw
      obtain ⟨hk, hblock⟩ := List.getElem?_eq_some_iff.mp haddr
      have hn : (s.log.cache.bc.bufs buf).blockno ∈ w.addrs := hblock ▸ List.getElem_mem hk
      obtain ⟨g', hcurrent, hinv⟩ := h.log.writes hlog
      obtain ⟨-, cache, -, hstore, -⟩ := logWrite_ok (stepE_of_step hlog)
      have hdata := h.log.data_of_store hstore (h.home _ hw _ hn)
      refine ⟨g', h.setCall hw hinv rfl rfl (fun i hlo hi => ?_) fun p hp hne i hi => ?_⟩
      · have hlo : w.off + (w.tot + w.m) ≤ i := hlo
        have hi : i < w.size := hi
        obtain ⟨hlt, heq⟩ := addr_mem (h.size _ hw) hi
        show fileByte g'.current w.addrs i = w.before i
        rw [← h.tail _ hw i (by show w.off + w.tot ≤ i; omega) hi, hcurrent]
        by_cases hsame : i / BSIZE = w.pos / BSIZE
        · -- in the same block, behind the chunk
          have hpos : w.pos % BSIZE + bytes.length ≤ i % BSIZE := by
            have hi' := Nat.div_add_mod i BSIZE
            have hp' := Nat.div_add_mod w.pos BSIZE
            have hposi : w.pos + w.m ≤ i := by
              unfold Writei.pos
              omega
            rw [hsame] at hi'
            omega
          have hno : w.addrs.getD (i / BSIZE) 0 = (s.log.cache.bc.bufs buf).blockno := by
            rw [hsame]
            simp [hk, hblock]
          unfold fileByte
          rw [hno, Function.update_self, patch_of_le hpos, hdata]
        · refine fileByte_update ?_
          rw [heq, ← hblock]
          intro hc
          exact hsame ((List.Nodup.getElem_inj_iff (h.nodup _ hw)).mp hc)
      · rw [hcurrent]
        refine fileByte_update ?_
        obtain ⟨hlt, heq⟩ := addr_mem (h.size p hp) hi
        rw [heq]
        intro hc
        exact h.disjoint _ hw p hp hne.symm _ hn (hc ▸ List.getElem_mem hlt)
    · cases hstep
  · cases hstep

/-- Storing what is there changes nothing. -/
theorem onCache_store_self {s s' : Sys} {t buf : Nat}
    (h : s.onCache (.store t buf (s.cache.bc.bufs buf).data) = .ok s') : s' = s := by
  obtain ⟨cache, hstep, rfl⟩ := onCache_ok h
  obtain ⟨-, rfl⟩ := of_guard hstep
  have hset : (s.cache.bc.set buf fun x => { x with data := (s.cache.bc.bufs buf).data }) =
      s.cache.bc := by
    unfold Bcache.set
    rw [Function.update_eq_self]
  rw [hset]

theorem FileInv.fault (h : FileInv start s g) {t buf : Nat}
    (hstep : fileStep start s (.fault t buf []) = some s') : FileInv start s' g := by
  unfold fileStep at hstep
  dsimp only at hstep
  split at hstep
  · next w hw =>
    split at hstep
    · rw [patch_nil] at hstep
      split at hstep
      · next log hlog =>
        cases hstep
        cases onCache_store_self hlog
        have hw := mem_of_lookup hw
        exact h.setCall hw h.log rfl rfl (h.tail _ hw) fun p _ _ i _ => rfl
      · cases hstep
    · cases hstep
  · cases hstep

theorem FileInv.call (h : FileInv start s g) {t size off n : Nat} {addrs : List Nat}
    (hstep : fileStep start s (.writei t addrs size off n) = some s') : FileInv start s' g := by
  obtain ⟨⟨⟨-, hnodup, hhome, hsize, hcalls⟩, -, -⟩, rfl⟩ := of_guard hstep
  refine ⟨h.log, fun p hp => ?_, fun p hp => ?_, fun p hp => ?_, fun p hp q hq hne => ?_,
    fun p hp i hlo hi => ?_⟩
  · rcases List.mem_cons.mp hp with rfl | hp
    · exact hnodup
    · exact h.nodup p hp
  · rcases List.mem_cons.mp hp with rfl | hp
    · exact hhome
    · exact h.home p hp
  · rcases List.mem_cons.mp hp with rfl | hp
    · exact hsize
    · exact h.size p hp
  · rcases List.mem_cons.mp hp with rfl | hp
    · rcases List.mem_cons.mp hq with rfl | hq
      · exact absurd rfl hne
      · exact (hcalls q hq).2
    · rcases List.mem_cons.mp hq with rfl | hq
      · exact fun b hb hb' => (hcalls p hp).2 b hb' hb
      · exact h.disjoint p hp q hq hne
  · rcases List.mem_cons.mp hp with rfl | hp
    · obtain ⟨hlt, heq⟩ := addr_mem hsize hi
      show g.current (addrs.getD (i / BSIZE) 0) _ = s.log.content (addrs.getD (i / BSIZE) 0) _
      rw [heq, h.log.content (hhome _ (List.getElem_mem hlt))]
    · exact h.tail p hp i hlo hi

theorem FileInv.logStep (h : FileInv start s g) {a : Act}
    (hstep : fileStep start s (.log a) = some s') : ∃ g', FileInv start s' g' := by
  unfold fileStep at hstep
  dsimp only at hstep
  split at hstep
  · next hallows =>
    obtain ⟨log, hlog, rfl⟩ := Option.map_eq_some_iff.mp hstep
    by_cases ha : ∀ t buf data, a ≠ .logWrite t buf data
    · obtain ⟨g', hcurrent, hinv⟩ := h.log.keeps hlog ha
      exact ⟨g', h.same hinv fun p _ i _ => by rw [hcurrent]⟩
    · simp only [not_forall, not_not] at ha
      obtain ⟨t, buf, data, rfl⟩ := ha
      obtain ⟨g', hcurrent, hinv⟩ := h.log.writes hlog
      refine ⟨g', h.same hinv fun p hp i hi => ?_⟩
      rw [hcurrent]
      refine fileByte_update ?_
      intro hc
      exact hallows p hp (hc ▸ kept_mem (h.size p hp) hi)
  · cases hstep

theorem FileInv.finish (h : FileInv start s g) (t : Nat) :
    FileInv start { s with calls := s.calls.filter fun p => p.1 ≠ t } g := by
  have hmem : ∀ p ∈ s.calls.filter (fun p => p.1 ≠ t), p ∈ s.calls := fun p hp =>
    (List.mem_filter.mp hp).1
  exact ⟨h.log, fun p hp => h.nodup p (hmem p hp), fun p hp => h.home p (hmem p hp),
    fun p hp => h.size p (hmem p hp), fun p hp q hq => h.disjoint p (hmem p hp) q (hmem q hq),
    fun p hp => h.tail p (hmem p hp)⟩

theorem fileInv_step {a : FileAct} (h : ∃ g, FileInv start s g) (hwhole : WholeChunks s a)
    (hstep : fileStep start s a = some s') : ∃ g, FileInv start s' g := by
  obtain ⟨g, h⟩ := h
  cases a with
  | log a => exact h.logStep hstep
  | writei t addrs size off n => exact ⟨g, h.call hstep⟩
  | chunk t buf bytes => exact h.chunk hstep
  | fault t buf bytes =>
    have hnil : bytes = [] := hwhole
    subst hnil
    exact ⟨g, h.fault hstep⟩
  | finish t =>
    cases hstep
    exact ⟨g, h.finish t⟩

theorem FileInv.keepsTail (h : FileInv start s g) : KeepsTail s := by
  intro p hp i hlo hi
  obtain ⟨hlt, heq⟩ := addr_mem (h.size p hp) hi
  rw [← h.tail p hp i hlo hi]
  show s.log.content (p.2.addrs.getD (i / BSIZE) 0) _ = g.current (p.2.addrs.getD (i / BSIZE) 0) _
  rw [heq, h.log.content (h.home p hp _ (List.getElem_mem hlt))]

end Steps

/-! ## Runs -/

/-- If a copy that fails has stored nothing, the cache is coherent in every state,
only `log_write` changes what files contain, and a call of `writei` leaves
everything behind its last chunk as it was. -/
theorem writei_coherent {start : Nat} {disk : Disk} {acts : List FileAct} {s : FileSys}
    (hlog : LogEmpty start disk)
    (hwhole : StepsMeet (fileStep start) WholeChunks (FileSys.init disk) acts)
    (hrun : exec (fileStep start) (FileSys.init disk) acts = some s) :
    CacheCoherent s.log ∧ KeepsContents start s.log ∧ KeepsTail s := by
  have hinit : ∃ g, FileInv start (FileSys.init disk) g := by
    refine ⟨_, logInv_init hlog, ?_, ?_, ?_, ?_, ?_⟩ <;>
      exact fun p hp => absurd hp List.not_mem_nil
  obtain ⟨g, h⟩ : ∃ g, FileInv start s g :=
    inv_of_exec (fun _ _ _ h hP hstep => fileInv_step h hP hstep) hinit hwhole hrun
  exact ⟨h.log.cacheCoherent, h.log.keepsContents, h.keepsTail⟩

/-- One byte is written to a file of one block. -/
def writeRun (act : FileAct) : List FileAct :=
  [.log (.beginOp 0), .writei 0 [45] 4 0 2, .log (.bget 0 45), .log (.acquire 0 0), act,
    .log (.unlock 0 0)]

theorem writei_coherent_fault :
    ∃ s, exec (fileStep 2) (FileSys.init fun _ => zeroBlock) (writeRun (.fault 0 0 [])) = some s ∧
      CacheCoherent s.log ∧ KeepsContents 2 s.log ∧ KeepsTail s := by
  have hcheck : runCheck (fileStep 2) (fun s a => decide (WholeChunks s a)) (fun _ => true)
      (FileSys.init fun _ => zeroBlock) (writeRun (.fault 0 0 [])) = true := by
    decide +kernel
  obtain ⟨hsteps, s, hrun, -⟩ := of_runCheck hcheck
  exact ⟨s, hrun, writei_coherent (by decide) (hsteps.mono fun _ _ => of_decide_eq_true) hrun⟩

/-- The user has one byte of two: it stays in the buffer, not on the disk, and the
call that returns 0 has changed the file. -/
theorem not_writei_coherent_partial :
    ∃ s, exec (fileStep 2) (FileSys.init fun _ => zeroBlock) (writeRun (.fault 0 0 [1])) = some s ∧
      ¬ CacheCoherent s.log ∧ ¬ KeepsTail s := by
  have hcheck : runCheck (fileStep 2) (fun _ _ => true)
      (fun s => ((s.log.cache.bc.bufs 0).valid = true ∧ (s.log.cache.bc.bufs 0).lock = none ∧
          s.log.lh = [] ∧
          (s.log.cache.bc.bufs 0).data 0 ≠ s.log.disk (s.log.cache.bc.bufs 0).blockno 0) ∧
        ∃ p ∈ s.calls, p.2.off + p.2.tot = 0 ∧ 0 < p.2.size ∧
          fileByte s.log.content p.2.addrs 0 ≠ p.2.before 0)
      (FileSys.init fun _ => zeroBlock) (writeRun (.fault 0 0 [1])) = true := by
    decide +kernel
  obtain ⟨-, s, hrun, hend⟩ := of_runCheck hcheck
  obtain ⟨⟨hvalid, hlock, hlh, hdata⟩, p, hp, hzero, hsize, hbyte⟩ := of_decide_eq_true hend
  refine ⟨s, hrun, fun hcoherent => ?_, fun htail => ?_⟩
  · refine hdata (congrFun (hcoherent 0 (by decide) hvalid hlock ?_) 0)
    rw [hlh]
    exact List.not_mem_nil
  · exact hbyte (htail p hp 0 (by omega) hsize)

end Xv6.Log
