import Xv6.Log.Coherence
import Xv6.Log.Group

/-!
# Inside `commit`

The invariant of a thread in `commit`, instruction by instruction.

* `stageOf`: the next instruction on a register says how far the thread is with
  its buffer.  `Fits` collects what the code of every phase has in common.
* `Before`, `After`: the two kinds of disk, up to the header write and from then
  on until the header is cleared.
* `DiskAt`, `pinnedAt`: the disk and the pinned blocks at each point of `commit`.
* `AtCommit`: the invariant.  With the empty code of `Phase.start` it also holds
  while no thread commits.
* `AtCommit.bget`, `AtCommit.acquire`, `AtCommit.unlock`, `AtCommit.brelse`: the
  instructions that move a register to its next stage.
-/

namespace Xv6.Log

open Xv6.Bio Xv6.Lib.Run

variable {lh : List Nat} {p : Phase} {code : List Instr} {disk : Disk} {dev : Nat} {c' : Committer}

/-! ## Registers -/

/-- How far the thread is with the buffer of a register: the next instruction on
it tells. -/
def stageOf (r : Reg) : List Instr → Option Stage
  | [] => none
  | .bget r' _ :: rest => if r' = r then none else stageOf r rest
  | .acquire r' :: rest => if r' = r then some .waiting else stageOf r rest
  | .unlock r' :: rest => if r' = r then some .holding else stageOf r rest
  | .brelse r' :: rest => if r' = r then some .leaving else stageOf r rest
  | .writeLog :: rest | .writeHead :: rest | .install :: rest | .bunpin _ :: rest => stageOf r rest

/-- The index of the block that a phase works on. -/
def Phase.tail? : Phase → Option Nat
  | .writeLog tail | .install tail => some tail
  | .start | .writeHead | .clear | .clearHead | .finish => none

/-- The block of a register. -/
def Phase.ref (p : Phase) : Reg → BlockRef
  | .a => match p.tail? with
    | some tail => .slot tail
    | none => .header
  | .b => .home (p.tail?.getD 0)

/-- An instruction follows the one before it on the same register. -/
def Instr.Fits (p : Phase) (rest : List Instr) : Instr → Prop
  | .bget r ref => ref = p.ref r ∧ stageOf r rest = some .waiting ∧
      (r = .b → (∃ tail, p = .writeLog tail) ∨ .bunpin .b ∈ rest)
  | .acquire r => stageOf r rest = some .holding
  | .unlock r => stageOf r rest = some .leaving
  | .brelse r => stageOf r rest = none
  | .writeLog => (∃ tail, p = .writeLog tail) ∧ stageOf .a rest = some .holding ∧
      stageOf .b rest = some .holding ∧ .writeLog ∉ rest
  | .writeHead => (p = .writeHead ∨ p = .clearHead) ∧ stageOf .a rest = some .holding ∧
      .writeHead ∉ rest
  | .install => (∃ tail, p = .install tail) ∧ stageOf .a rest = some .holding ∧
      stageOf .b rest = some .holding ∧ .bunpin .b ∈ rest ∧ .install ∉ rest
  | .bunpin r => (∃ tail, p = .install tail) ∧ r = .b ∧ stageOf .b rest = some .holding ∧
      .install ∉ rest ∧ .bunpin .b ∉ rest

def Fits (p : Phase) : List Instr → Prop
  | [] => True
  | i :: rest => i.Fits p rest ∧ (p.tail? = none → stageOf .b (i :: rest) = none) ∧ Fits p rest

theorem fits_code (p : Phase) : Fits p p.code := by
  cases p <;> simp [Phase.code, headCode, Fits, Instr.Fits, stageOf, Phase.ref, Phase.tail?]

theorem stageOf_code (p : Phase) (r : Reg) : stageOf r p.code = none := by
  cases p <;> cases r <;> simp [Phase.code, headCode, stageOf]

/-! ## The disk and the pinned blocks -/

/-- `log.lh`: distinct home blocks. -/
structure Header (start : Nat) (lh : List Nat) : Prop where
  nodup : lh.Nodup
  length_le : lh.length ≤ LOGBLOCKS
  outside : ∀ b ∈ lh, ¬ InLog start b
  uint : ∀ b ∈ lh, b < 2 ^ 32

def Header.txn {start : Nat} {lh : List Nat} (h : Header start lh) : Txn start :=
  ⟨lh, h.length_le, h.outside, h.uint⟩

/-- The log on the disk is empty, and the header names the blocks that were
written since the last commit. -/
structure Before (start : Nat) (disk : Disk) (lh : List Nat) (g : Contents) : Prop where
  empty : Empty start g.durable disk
  keys : ∀ b, b ∈ lh ↔ b ∈ g.writes.map Prod.fst

/-- The first `k` slots of the log hold their blocks. -/
def Slots (start : Nat) (disk : Disk) (lh : List Nat) (g : Contents) (k : Nat) : Prop :=
  ∀ i (h : i < lh.length), i < k → disk (start + i + 1) = g.current lh[i]

/-- The transaction with the blocks `blocks` is in the log on the disk. -/
structure After (start : Nat) (disk : Disk) (blocks : List Nat) (g : Contents) : Prop where
  writes : g.writes = []
  txn : ∃ (t : Txn start) (d₀ : Disk), t.blocks = blocks ∧ Committed t g.current d₀ 0 disk ∧
    HomeEq start (t.after g.current d₀) g.durable

/-- The disk in front of the code of a phase. -/
def DiskAt (start : Nat) (disk : Disk) (lh : List Nat) (g : Contents) : Phase → List Instr → Prop
  | .start, _ => Before start disk lh g
  | .writeLog tail, code => tail < lh.length ∧ Before start disk lh g ∧
      Slots start disk lh g (if .writeLog ∈ code then tail else tail + 1)
  | .writeHead, code =>
      if .writeHead ∈ code then Before start disk lh g ∧ Slots start disk lh g lh.length
      else After start disk lh g
  | .install tail, code => tail < lh.length ∧ After start disk lh g ∧
      (.install ∉ code → disk (lh.getD tail 0) = g.current (lh.getD tail 0))
  | .clear, _ => After start disk lh g
  | .clearHead, code => lh = [] ∧
      if .writeHead ∈ code then ∃ blocks, After start disk blocks g else Before start disk lh g
  | .finish, _ => lh = [] ∧ Before start disk lh g

/-- The blocks that are pinned in front of the code of a phase. -/
def pinnedAt (lh : List Nat) : Phase → List Instr → List Nat
  | .install tail, code => lh.drop (if .bunpin .b ∈ code then tail else tail + 1)
  | .clear, _ | .clearHead, _ => []
  | .start, _ | .writeLog _, _ | .writeHead, _ | .finish, _ => lh

theorem pinnedAt_subset :
    ∀ n ∈ pinnedAt lh p code, n ∈ lh := by
  intro n hn
  cases p with
  | install tail => exact List.mem_of_mem_drop hn
  | clear | clearHead => cases hn
  | start | writeLog tail | writeHead | finish => exact hn

/-! ## The invariant -/

structure AtCommit (start : Nat) (s : Sys) (g : Contents) (t : Nat) (c : Committer) : Prop where
  fits : Fits c.phase c.code
  header : Header start s.lh
  coherent : Coherent start s.cache s.disk g.current (pinnedAt s.lh c.phase c.code)
  disk : DiskAt start s.disk s.lh g c.phase c.code
  regs : ∀ r st, stageOf r c.code = some st → ⟨t, c.reg r, st⟩ ∈ s.cache.uses ∧
    (s.cache.bc.bufs (c.reg r)).blockno = s.blockno start (c.phase.ref r)
  /-- Only the committing thread uses blocks of the log area. -/
  logUsers : ∀ b, b < NBUF → InLog start (s.cache.bc.bufs b).blockno →
    users s.cache.uses b = if stageOf .a c.code ≠ none ∧ c.bufA = b then 1 else 0

section Inv

variable {start : Nat} {s s' : Sys} {g : Contents} {t t' b n : Nat} {c : Committer} {i : Instr}
  {rest : List Instr} {data : Block} {r : Reg}

/-- The invariant is about the cache, the disk and the header. -/
theorem AtCommit.congr (h : AtCommit start s g t c) (hcache : s'.cache = s.cache)
    (hdisk : s'.disk = s.disk) (hlh : s'.lh = s.lh) : AtCommit start s' g t c := by
  obtain ⟨cache, disk, outstanding, committing, lh, pcs⟩ := s'
  subst hcache hdisk hlh
  exact ⟨h.fits, h.header, h.coherent, h.disk, h.regs, h.logUsers⟩

theorem DiskAt.tail_lt {tail : Nat}
    (h : DiskAt start disk lh g p code) (htail : p.tail? = some tail) : tail < lh.length := by
  cases p with
  | writeLog k | install k =>
    cases htail
    exact h.1
  | start | writeHead | clear | clearHead | finish => cases htail

/-- Instructions that write nothing. -/
theorem DiskAt.skip
    (h : DiskAt start disk lh g p (i :: rest)) (hlog : i ≠ .writeLog) (hhead : i ≠ .writeHead)
    (hinstall : i ≠ .install) : DiskAt start disk lh g p rest := by
  have hlog' : (Instr.writeLog ∈ i :: rest) = (Instr.writeLog ∈ rest) := by
    simp [hlog.symm]
  have hhead' : (Instr.writeHead ∈ i :: rest) = (Instr.writeHead ∈ rest) := by
    simp [hhead.symm]
  have hinstall' : (Instr.install ∈ i :: rest) = (Instr.install ∈ rest) := by
    simp [hinstall.symm]
  cases p with
  | start | clear | finish => exact h
  | writeLog tail | writeHead | install tail | clearHead =>
    simp only [DiskAt, hlog', hhead', hinstall'] at h ⊢
    exact h

theorem pinnedAt_skip (hi : i ≠ .bunpin .b) :
    pinnedAt lh p (i :: rest) = pinnedAt lh p rest := by
  have hi' : (Instr.bunpin .b ∈ i :: rest) = (Instr.bunpin .b ∈ rest) := by
    simp [hi.symm]
  cases p with
  | install tail => simp only [pinnedAt, hi']
  | start | writeLog tail | writeHead | clear | clearHead | finish => rfl

/-- The register of the slot or the header is for a block of the log area. -/
theorem AtCommit.inLog (h : AtCommit start s g t c) :
    InLog start (s.blockno start (c.phase.ref .a)) := by
  unfold Phase.ref
  dsimp only
  split
  · next tail htail =>
    have hlt := h.disk.tail_lt htail
    have hle := h.header.length_le
    exact ⟨by unfold Sys.blockno; dsimp only; omega, by unfold Sys.blockno; dsimp only; omega⟩
  · exact start_inLog

theorem Fits.tail (h : Fits p code) (hb : stageOf .b code ≠ none) :
    ∃ tail, p.tail? = some tail := by
  cases code with
  | nil => exact absurd rfl hb
  | cons i rest =>
    cases htail : p.tail? with
    | none => exact absurd (h.2.1 htail) hb
    | some tail => exact ⟨tail, rfl⟩

/-- The block of the other register is in the header of the log. -/
theorem AtCommit.home (h : AtCommit start s g t c) (tail : Nat)
    (htail : c.phase.tail? = some tail) :
    ∃ hlt : tail < s.lh.length, s.blockno start (c.phase.ref .b) = s.lh[tail] := by
  have hlt := h.disk.tail_lt htail
  refine ⟨hlt, ?_⟩
  simp [Phase.ref, htail, Sys.blockno, hlt]

theorem AtCommit.not_inLog (h : AtCommit start s g t c) {tail : Nat}
    (htail : c.phase.tail? = some tail) : ¬ InLog start (s.blockno start (c.phase.ref .b)) := by
  obtain ⟨hlt, heq⟩ := h.home _ htail
  rw [heq]
  exact h.header.outside _ (List.getElem_mem hlt)

/-- The two registers are different buffers. -/
theorem AtCommit.reg_ne (h : AtCommit start s g t c) {st st' : Stage}
    (ha : stageOf .a c.code = some st) (hb : stageOf .b c.code = some st') : c.bufA ≠ c.bufB := by
  intro heq
  obtain ⟨tail, htail⟩ := h.fits.tail (by rw [hb]; exact Option.some_ne_none _)
  have hlog := h.inLog
  have hhome := h.not_inLog htail
  rw [← (h.regs .a st ha).2] at hlog
  rw [← (h.regs .b st' hb).2] at hhome
  exact hhome (show InLog start (s.cache.bc.bufs c.bufB).blockno from heq ▸ hlog)

theorem AtCommit.reg_ne' (h : AtCommit start s g t c) {r' : Reg} {st st' : Stage} (hne : r' ≠ r)
    (hst : stageOf r c.code = some st) (hst' : stageOf r' c.code = some st') :
    c.reg r' ≠ c.reg r := by
  cases r with
  | a =>
    cases r' with
    | a => exact absurd rfl hne
    | b => exact (h.reg_ne hst hst').symm
  | b =>
    cases r' with
    | a => exact h.reg_ne hst' hst
    | b => exact absurd rfl hne

/-! ## Instructions -/

/-- The stages of the registers that an instruction is not on. -/
theorem stageOf_cons_of_ne {r' : Reg} (hne : r' ≠ r) :
    (∀ ref, stageOf r' (.bget r ref :: rest) = stageOf r' rest) ∧
    stageOf r' (.acquire r :: rest) = stageOf r' rest ∧
    stageOf r' (.unlock r :: rest) = stageOf r' rest ∧
    stageOf r' (.brelse r :: rest) = stageOf r' rest := by
  have hne' : r ≠ r' := hne.symm
  simp [stageOf, hne']

/-- A buffer that is in use keeps its block when somebody calls `bget`. -/
theorem Coherent.blockno_got {c c' : Cache} {cur : Disk} {P : List Nat}
    (h : Coherent start c disk cur P) (hgot : Got c c' t b dev n) {u : Use} (hu : u ∈ c.uses) :
    (c'.bc.bufs u.buf).blockno = (c.bc.bufs u.buf).blockno := by
  by_cases hub : u.buf = b
  · rcases hgot.found with hsame | ⟨-, hzero⟩
    · rw [hub]
      exact hsame.blockno
    · exact absurd hub ((h.unused hgot.holds.1 hzero).1 u hu)
  · exact (hgot.others _ hub).blockno

theorem users_got {c c' : Cache} (hgot : Got c c' t b dev n) (x : Nat) :
    users c'.uses x = users c.uses x + if b = x then 1 else 0 := by
  rw [hgot.uses]
  simp [users, List.countP_cons]

theorem users_brelse {uses : List Use} (hmem : ⟨t, b, .leaving⟩ ∈ uses) (x : Nat) :
    users (uses.erase ⟨t, b, .leaving⟩) x + (if b = x then 1 else 0) = users uses x := by
  simpa [users] using countP_erase_add (fun u => u.buf = x) hmem

/-- A buffer that `bget` returns for a block of the log area had no user, if the
area had none. -/
theorem Coherent.users_zero {c c' : Cache} {cur : Disk} {P : List Nat}
    (h : Coherent start c disk cur P) (hgot : Got c c' t b dev n)
    (hnone : ∀ x, x < NBUF → InLog start (c.bc.bufs x).blockno → users c.uses x = 0)
    (hlog : InLog start n) : users c.uses b = 0 := by
  rcases hgot.found with hsame | ⟨-, hzero⟩
  · refine hnone b hgot.holds.1 ?_
    rw [← hsame.blockno, hgot.holds.2.2]
    exact hlog
  · have := h.inv.refcnt b hgot.holds.1
    omega

/-- What an instruction that writes nothing leaves as it was. -/
theorem AtCommit.skip (h : AtCommit start s g t c) (hcode : c.code = i :: rest)
    (hi : i ∉ [.writeLog, .writeHead, .install, .bunpin .b]) :
    i.Fits c.phase rest ∧ Fits c.phase rest ∧
      Coherent start s.cache s.disk g.current (pinnedAt s.lh c.phase rest) ∧
      DiskAt start s.disk s.lh g c.phase rest := by
  obtain ⟨hfits, -, hcoh, hdisk, -, -⟩ := h
  simp only [List.mem_cons, List.not_mem_nil, or_false, not_or] at hi
  rw [hcode] at hfits hcoh hdisk
  rw [pinnedAt_skip hi.2.2.2] at hcoh
  exact ⟨hfits.1, hfits.2.2, hcoh, hdisk.skip hi.1 hi.2.1 hi.2.2.1⟩

theorem AtCommit.bget {ref : BlockRef} (h : AtCommit start s g t c)
    (hcode : c.code = .bget r ref :: rest)
    (hrun : runInstr start s t { c with code := rest } (.bget r ref) = .ok (s', c')) :
    AtCommit start s' g t c' := by
  obtain ⟨⟨buf, s₁⟩, hget, hret⟩ := bind_eq_ok hrun
  obtain ⟨bc, cache, hbc, hstep, rfl⟩ := bget_ok hget
  cases hret
  obtain ⟨⟨rfl, hstage, -⟩, hfits, hpin, hdisk⟩ := h.skip hcode (by simp)
  obtain ⟨b, bc', hbc', hgot⟩ := step_bget h.coherent.inv hstep
  rw [hbc] at hbc'
  cases hbc'
  have hinv := cacheInv_step h.coherent.inv hstep
  have hnum : ¬ InLog start (s.blockno start (c.phase.ref r)) →
      s.blockno start (c.phase.ref r) < 2 ^ 32 := by
    intro hout
    cases r with
    | a => exact absurd h.inLog hout
    | b =>
      obtain ⟨tail, htail⟩ := hfits.tail (by rw [hstage]; exact Option.some_ne_none _)
      obtain ⟨hlt, heq⟩ := h.home _ htail
      rw [heq]
      exact h.header.uint _ (List.getElem_mem hlt)
  have hcoh := hpin.got hinv hgot hnum
  -- the other register keeps its buffer
  have hother : ∀ r' st, r' ≠ r → stageOf r' rest = some st →
      ⟨t, c.reg r', st⟩ ∈ cache.uses ∧
        (cache.bc.bufs (c.reg r')).blockno = s.blockno start (c.phase.ref r') := by
    intro r' st hne hst
    have hst' : stageOf r' c.code = some st := by
      rw [hcode, (stageOf_cons_of_ne hne).1]
      exact hst
    obtain ⟨hmem, hblock⟩ := h.regs r' st hst'
    refine ⟨?_, ?_⟩
    · rw [hgot.uses]
      exact List.mem_cons_of_mem _ hmem
    · rw [h.coherent.blockno_got hgot hmem]
      exact hblock
  have hself : ⟨t, buf, .waiting⟩ ∈ cache.uses := by
    rw [hgot.uses]
    exact List.mem_cons_self
  cases r with
  | a =>
    have hnone : ∀ x, x < NBUF → InLog start (s.cache.bc.bufs x).blockno →
        users s.cache.uses x = 0 := by
      intro x hx hlog
      have := h.logUsers x hx hlog
      rw [this, if_neg]
      rw [hcode]
      simp [stageOf]
    refine ⟨hfits, h.header, hcoh, hdisk, ?_,
      fun x hx hlog => ?_⟩
    · intro r' st hst
      cases r' with
      | a =>
        rw [show stageOf .a rest = some st from hst] at hstage
        cases hstage
        exact ⟨hself, hgot.holds.2.2⟩
      | b => exact hother .b st (by decide) hst
    · show users cache.uses x = if stageOf .a rest ≠ none ∧ buf = x then 1 else 0
      rw [users_got hgot, hstage]
      by_cases hxb : buf = x
      · subst hxb
        rw [hpin.users_zero hgot hnone h.inLog, if_pos rfl, if_pos ⟨Option.some_ne_none _, rfl⟩]
      · rw [if_neg hxb, if_neg fun hc => hxb hc.2]
        have hlog : InLog start (cache.bc.bufs x).blockno := hlog
        rw [(hgot.others x fun heq => hxb heq.symm).blockno] at hlog
        exact hnone x hx hlog
  | b =>
    obtain ⟨tail, htail⟩ := hfits.tail (by rw [hstage]; exact Option.some_ne_none _)
    refine ⟨hfits, h.header, hcoh, hdisk, ?_,
      fun x hx hlog => ?_⟩
    · intro r' st hst
      cases r' with
      | a => exact hother .a st (by decide) hst
      | b =>
        rw [show stageOf .b rest = some st from hst] at hstage
        cases hstage
        exact ⟨hself, hgot.holds.2.2⟩
    · show users cache.uses x = if stageOf .a rest ≠ none ∧ c.bufA = x then 1 else 0
      have hlog : InLog start (cache.bc.bufs x).blockno := hlog
      have hxb : x ≠ buf := by
        rintro rfl
        rw [hgot.holds.2.2] at hlog
        exact h.not_inLog htail hlog
      rw [(hgot.others x hxb).blockno] at hlog
      rw [users_got hgot, if_neg hxb.symm, h.logUsers x hx hlog, hcode,
        (stageOf_cons_of_ne (by decide)).1, Nat.add_zero]

/-- The committing thread goes on to the next stage of a register. -/
theorem AtCommit.regs_advance (h : AtCommit start s g t c) {old new : Stage} {cache : Cache}
    (hold : stageOf r c.code = some old) (hnew : stageOf r rest = some new)
    (hsame : ∀ r', r' ≠ r → stageOf r' c.code = stageOf r' rest)
    (huses : cache.uses = s.cache.advance t (c.reg r) old new)
    (hblock : ∀ x, (cache.bc.bufs x).blockno = (s.cache.bc.bufs x).blockno) :
    (∀ r' st, stageOf r' rest = some st → ⟨t, c.reg r', st⟩ ∈ cache.uses ∧
      (cache.bc.bufs (c.reg r')).blockno = s.blockno start (c.phase.ref r')) ∧
    ∀ x, x < NBUF → InLog start (cache.bc.bufs x).blockno →
      users cache.uses x = if stageOf .a rest ≠ none ∧ c.bufA = x then 1 else 0 := by
  refine ⟨fun r' st hst => ?_, fun x hx hlog => ?_⟩
  · rw [hblock]
    by_cases hr : r' = r
    · subst hr
      rw [hst] at hnew
      cases hnew
      refine ⟨?_, (h.regs r' old hold).2⟩
      rw [huses]
      exact List.mem_cons_self
    · have hst' : stageOf r' c.code = some st := by
        rw [hsame r' hr]
        exact hst
      obtain ⟨hmem, hno⟩ := h.regs r' st hst'
      refine ⟨?_, hno⟩
      rw [huses]
      refine List.mem_cons_of_mem _ ((List.mem_erase_of_ne ?_).mpr hmem)
      intro heq
      exact h.reg_ne' hr hold hst' (congrArg Use.buf heq)
  · rw [hblock] at hlog
    have hstage : (stageOf .a rest ≠ none) ↔ stageOf .a c.code ≠ none := by
      by_cases hr : Reg.a = r
      · rw [← hr] at hold hnew
        rw [hold, hnew]
        exact ⟨fun _ => Option.some_ne_none _, fun _ => Option.some_ne_none _⟩
      · rw [hsame .a hr]
    rw [huses, users_advance (h.regs r old hold).1, h.logUsers x hx hlog]
    simp only [hstage]

theorem AtCommit.acquire (h : AtCommit start s g t c) (hcode : c.code = .acquire r :: rest)
    (hrun : runInstr start s t { c with code := rest } (.acquire r) = .ok (s', c')) :
    AtCommit start s' g t c' := by
  obtain ⟨s₁, hread, hret⟩ := bind_eq_ok hrun
  obtain ⟨cache, hacq, hinv, rfl⟩ := acquire_ok hread
  cases hret
  obtain ⟨hstage, hfits, hpin, hdisk⟩ := h.skip hcode (by simp)
  have hold : stageOf r c.code = some .waiting := by
    rw [hcode]
    simp [stageOf]
  have hblock : ∀ x, (cache.bc.bufs x).blockno = (s.cache.bc.bufs x).blockno := by
    intro x
    by_cases hx : x = c.reg r
    · rw [hx]
      exact hacq.blockno
    · exact (hacq.others x hx).blockno
  have hregs := h.regs_advance hold hstage
    (fun r' hr => by rw [hcode, (stageOf_cons_of_ne hr).2.1]) hacq.uses hblock
  exact ⟨hfits, h.header, hpin.acquired (hinv h.coherent.inv) hacq,
    hdisk, hregs.1, hregs.2⟩

theorem AtCommit.unlock (h : AtCommit start s g t c) (hcode : c.code = .unlock r :: rest)
    (hrun : runInstr start s t { c with code := rest } (.unlock r) = .ok (s', c')) :
    AtCommit start s' g t c' := by
  obtain ⟨s₁, hunlock, hret⟩ := bind_eq_ok hrun
  obtain ⟨cache, hstep, rfl⟩ := onCache_ok hunlock
  cases hret
  obtain ⟨hstage, hfits, hpin, hdisk⟩ := h.skip hcode (by simp)
  have hold : stageOf r c.code = some .holding := by
    rw [hcode]
    simp [stageOf]
  obtain ⟨-, huses, -, hkept⟩ := step_unlock hstep
  have hregs := h.regs_advance hold hstage
    (fun r' hr => by rw [hcode, (stageOf_cons_of_ne hr).2.2.1]) huses fun x => (hkept x).blockno
  exact ⟨hfits, h.header, hpin.unlock hstep, hdisk, hregs.1,
    hregs.2⟩

theorem AtCommit.brelse (h : AtCommit start s g t c) (hcode : c.code = .brelse r :: rest)
    (hrun : runInstr start s t { c with code := rest } (.brelse r) = .ok (s', c')) :
    AtCommit start s' g t c' := by
  obtain ⟨s₁, hbrelse, hret⟩ := bind_eq_ok hrun
  obtain ⟨cache, hstep, rfl⟩ := onCache_ok hbrelse
  cases hret
  obtain ⟨hstage, hfits, hpin, hdisk⟩ := h.skip hcode (by simp)
  have hstage : stageOf r rest = none := hstage
  have hold : stageOf r c.code = some .leaving := by
    rw [hcode]
    simp [stageOf]
  obtain ⟨hmem, huses, -, hkept⟩ := step_brelse hstep
  have hsame : ∀ r', r' ≠ r → stageOf r' c.code = stageOf r' rest := by
    intro r' hr
    rw [hcode, (stageOf_cons_of_ne hr).2.2.2]
  refine ⟨hfits, h.header, hpin.brelse hstep, hdisk,
    fun r' st hst => ?_, fun x hx hlog => ?_⟩
  · have hst : stageOf r' rest = some st := hst
    have hr : r' ≠ r := by
      rintro rfl
      rw [hstage] at hst
      cases hst
    have hst' : stageOf r' c.code = some st := by
      rw [hsame r' hr]
      exact hst
    obtain ⟨hin, hno⟩ := h.regs r' st hst'
    refine ⟨?_, (hkept _).blockno.trans hno⟩
    show _ ∈ cache.uses
    rw [huses]
    refine (List.mem_erase_of_ne ?_).mpr hin
    intro heq
    exact h.reg_ne' hr hold hst' (congrArg Use.buf heq)
  · show users cache.uses x = if stageOf .a rest ≠ none ∧ c.bufA = x then 1 else 0
    have hlog : InLog start (cache.bc.bufs x).blockno := hlog
    rw [(hkept x).blockno] at hlog
    have hcount := users_brelse hmem x
    rw [← huses, h.logUsers x hx hlog] at hcount
    cases r with
    | a =>
      have hcount : users cache.uses x + (if c.bufA = x then 1 else 0) =
          if stageOf .a c.code ≠ none ∧ c.bufA = x then 1 else 0 := hcount
      rw [hold] at hcount
      rw [hstage, if_neg fun hc => hc.1 rfl]
      by_cases hxa : c.bufA = x
      · rw [if_pos hxa, if_pos ⟨Option.some_ne_none _, hxa⟩] at hcount
        omega
      · rw [if_neg hxa, if_neg fun hc => hxa hc.2] at hcount
        omega
    | b =>
      have hxb : c.reg .b ≠ x := by
        rintro rfl
        obtain ⟨tail, htail⟩ := h.fits.tail (by rw [hold]; exact Option.some_ne_none _)
        rw [(h.regs .b _ hold).2] at hlog
        exact h.not_inLog htail hlog
      have hcount : users cache.uses x + (if c.reg .b = x then 1 else 0) =
          if stageOf .a c.code ≠ none ∧ c.bufA = x then 1 else 0 := hcount
      rw [if_neg hxb, hsame .a (by decide)] at hcount
      exact hcount

end Inv

end Xv6.Log
