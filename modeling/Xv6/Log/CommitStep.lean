import Xv6.Log.Commit

/-!
# The steps of `commit` and of the other threads

* `AtCommit.writeLog`, `AtCommit.writeHead`, `AtCommit.install`,
  `AtCommit.bunpin`, `AtCommit.clearHead`: the writes of `commit`.  The header
  write of `AtCommit.writeHead` is the commit point of the group.
* `AtCommit.instr`: every instruction.
* `AtCommit.endStart`, ..., `AtCommit.finish`: from one phase to the next.
* `AtCommit.other`, `AtCommit.logWrite`: the steps of the other threads.
-/

namespace Xv6.Log

open Xv6.Bio Xv6.Lib.Run
open Function (update update_of_ne update_self)

variable {cache : Cache} {disk : Disk} {lh : List Nat} {a tail : Nat} {c' : Committer}

section Inv

variable {start : Nat} {s s' : Sys} {g : Contents} {t t' b : Nat} {c : Committer} {i : Instr}
  {rest : List Instr} {data : Block} {r : Reg}

/-! ## Writes -/

/-- A step that leaves the users and the block numbers alone. -/
theorem AtCommit.regs_same (h : AtCommit start s g t c) (rest : List Instr)
    (hstage : ∀ r, stageOf r rest = stageOf r c.code) (huses : cache.uses = s.cache.uses)
    (hblock : ∀ x, (cache.bc.bufs x).blockno = (s.cache.bc.bufs x).blockno) :
    (∀ r st, stageOf r rest = some st → ⟨t, c.reg r, st⟩ ∈ cache.uses ∧
      (cache.bc.bufs (c.reg r)).blockno = s.blockno start (c.phase.ref r)) ∧
    ∀ x, x < NBUF → InLog start (cache.bc.bufs x).blockno →
      users cache.uses x = if stageOf .a rest ≠ none ∧ c.bufA = x then 1 else 0 := by
  refine ⟨fun r st hst => ?_, fun x hx hlog => ?_⟩
  · rw [huses, hblock]
    exact h.regs r st (hstage r ▸ hst)
  · rw [hblock] at hlog
    rw [huses, hstage]
    exact h.logUsers x hx hlog

/-- The buffer of a register that the thread holds. -/
theorem AtCommit.holding (h : AtCommit start s g t c) (hst : stageOf r c.code = some .holding) :
    ⟨t, c.reg r, .holding⟩ ∈ s.cache.uses ∧
      (s.cache.bc.bufs (c.reg r)).blockno = s.blockno start (c.phase.ref r) ∧
      (s.cache.bc.bufs (c.reg r)).data =
        view start s.disk g.current (s.blockno start (c.phase.ref r)) := by
  obtain ⟨hmem, hno⟩ := h.regs r _ hst
  refine ⟨hmem, hno, ?_⟩
  rw [h.coherent.data_of_holding hmem, hno]

/-- Writing inside the log area, behind the header, does not touch an empty log. -/
theorem Before.slot (h : Before start disk lh g)
    (hlog : InLog start (start + tail + 1)) :
    Before start (update disk (start + tail + 1) data) lh g := by
  refine ⟨⟨?_, fun x hx => ?_⟩, h.keys⟩
  · rw [LogEmpty, update_of_ne (by omega)]
    exact h.empty.log
  · rw [update_of_ne (ne_of_not_inLog hx hlog)]
    exact h.empty.home x hx

theorem AtCommit.writeLog {b : Nat}
    (h : AtCommit start s g t ⟨.writeLog tail, .writeLog :: rest, a, b⟩)
    (hrun : runInstr start s t ⟨.writeLog tail, rest, a, b⟩ .writeLog = .ok (s', c')) :
    AtCommit start s' g t c' := by
  obtain ⟨s₁, hwrite, hret⟩ := bind_eq_ok hrun
  obtain ⟨cache, hstep, rfl⟩ := bwrite_ok hwrite
  cases hret
  obtain ⟨⟨-, ha, hb, hnot⟩, -, hfits⟩ := h.fits
  obtain ⟨hlt, hbefore, hslots⟩ := h.disk
  have hst := step_store hstep
  have hA := h.holding (r := .a) ha
  have hB := h.holding (r := .b) hb
  have hlog : InLog start (start + tail + 1) := h.inLog
  have hnoA : (s.cache.bc.bufs a).blockno = start + tail + 1 := hA.2.1
  have hhome := h.home tail rfl
  have hdata : (s.cache.bc.bufs b).data = g.current s.lh[tail] := by
    have hdata := hB.2.2
    rw [hhome.2, view_home (h.header.outside _ (List.getElem_mem hlt))] at hdata
    exact hdata
  have hregs := h.regs_same rest (fun r => rfl) hst.uses hst.blockno_eq
  have hcoh := h.coherent.bwriteLog (cacheInv_step h.coherent.inv hstep) hst (hnoA ▸ hlog)
  refine ⟨hfits, h.header, hcoh, ⟨hlt, ?_, ?_⟩, hregs.1, hregs.2⟩
  · show Before start (update s.disk (s.cache.bc.bufs a).blockno _) s.lh g
    rw [hnoA]
    exact hbefore.slot hlog
  · show Slots start (update s.disk (s.cache.bc.bufs a).blockno _) s.lh g _
    rw [hnoA, if_neg hnot, hdata]
    rw [if_pos List.mem_cons_self] at hslots
    intro i hi hik
    rcases Nat.lt_succ_iff_lt_or_eq.mp hik with hik | rfl
    · rw [update_of_ne (by omega)]
      exact hslots i hi hik
    · rw [update_self]

/-- The header write makes the writes of the group durable. -/
theorem Before.commit (hheader : Header start lh)
    (h : Before start disk lh g) (hslots : Slots start disk lh g lh.length) :
    After start (update disk start (putHead data lh)) lh
      { g with durable := g.current, writes := [] } := by
  refine ⟨rfl, hheader.txn, g.durable, rfl, ⟨?_, fun i hi => ?_, fun x hx => .inl ?_,
    fun _ _ hi => absurd hi (Nat.not_lt_zero _)⟩, fun x hx => ?_⟩
  · rw [update_self]
    exact hdrBlocks_putHead _ hheader.length_le hheader.uint
  · rw [update_of_ne (by omega)]
    exact hslots i hi hi
  · rw [update_of_ne (ne_of_not_inLog hx start_inLog)]
    exact h.empty.home x hx
  · show (if x ∈ lh then g.current x else g.durable x) = g.current x
    split
    · rfl
    · next hmem => rw [Contents.current_of_not_mem fun hc => hmem ((h.keys x).mpr hc)]

/-- Storing the header in a phase that does so. -/
theorem AtCommit.putHead {b : Nat} {p : Phase} {g' : Contents}
    (h : AtCommit start s g t ⟨p, .writeHead :: rest, a, b⟩)
    (hrun : runInstr start s t ⟨p, rest, a, b⟩ .writeHead = .ok (s', c'))
    (href : s.blockno start (p.ref .a) = start) (hcurrent : g'.current = g.current)
    (hpinned : pinnedAt s.lh p rest = pinnedAt s.lh p (.writeHead :: rest))
    (hdisk : .writeHead ∉ rest → ∀ data,
      DiskAt start (update s.disk start (Log.putHead data s.lh)) s.lh g' p rest) :
    AtCommit start s' g' t c' := by
  obtain ⟨s₁, hwrite, hret⟩ := bind_eq_ok hrun
  obtain ⟨cache, hstep, rfl⟩ := bwrite_ok hwrite
  cases hret
  obtain ⟨⟨-, ha, hnot⟩, -, hfits⟩ := h.fits
  have hst := step_store hstep
  have hnoA : (s.cache.bc.bufs a).blockno = start := (h.holding (r := .a) ha).2.1.trans href
  have hregs := h.regs_same rest (fun r => rfl) hst.uses hst.blockno_eq
  have hcoh := h.coherent.bwriteLog (cacheInv_step h.coherent.inv hstep) hst (hnoA ▸ start_inLog)
  rw [← hcurrent, ← hpinned] at hcoh
  rw [hnoA] at hcoh ⊢
  exact ⟨hfits, h.header, hcoh, hdisk hnot _, hregs.1, hregs.2⟩

theorem AtCommit.writeHead {b : Nat}
    (h : AtCommit start s g t ⟨.writeHead, .writeHead :: rest, a, b⟩)
    (hrun : runInstr start s t ⟨.writeHead, rest, a, b⟩ .writeHead = .ok (s', c')) :
    AtCommit start s' { g with durable := g.current, writes := [] } t c' := by
  have hdisk := h.disk
  simp only [DiskAt, if_pos List.mem_cons_self] at hdisk
  refine h.putHead hrun rfl rfl rfl fun hnot data => ?_
  simp only [DiskAt, if_neg hnot]
  exact hdisk.1.commit h.header hdisk.2

theorem AtCommit.clearHead {b : Nat}
    (h : AtCommit start s g t ⟨.clearHead, .writeHead :: rest, a, b⟩)
    (hrun : runInstr start s t ⟨.clearHead, rest, a, b⟩ .writeHead = .ok (s', c')) :
    AtCommit start s' g t c' := by
  have hdisk := h.disk
  simp only [DiskAt, if_pos List.mem_cons_self] at hdisk
  obtain ⟨hnil, blocks, hafter⟩ := hdisk
  have hcurrent : g.current = g.durable := by
    funext x
    refine Contents.current_of_not_mem ?_
    rw [hafter.writes]
    exact List.not_mem_nil
  have hhome : HomeEq start s.disk g.durable := by
    intro x hx
    rw [h.coherent.clean x hx List.not_mem_nil, hcurrent]
  refine h.putHead hrun rfl rfl rfl fun hnot data => ?_
  simp only [DiskAt, if_neg hnot]
  rw [hnil]
  refine ⟨rfl, Empty.clear _ hhome, fun x => ?_⟩
  rw [hafter.writes]
  rfl

/-- Installing a block of a committed transaction. -/
theorem After.install (h : After start disk lh g)
    (hlt : tail < lh.length) :
    disk (start + tail + 1) = g.current lh[tail] ∧
      After start (update disk lh[tail] (g.current lh[tail])) lh g := by
  obtain ⟨hwrites, T, d₀, rfl, hcommitted, hdurable⟩ := h
  exact ⟨hcommitted.slots tail hlt, hwrites, T, d₀, rfl, hcommitted.put hlt, hdurable⟩

theorem AtCommit.install {b : Nat}
    (h : AtCommit start s g t ⟨.install tail, .install :: rest, a, b⟩)
    (hrun : runInstr start s t ⟨.install tail, rest, a, b⟩ .install = .ok (s', c')) :
    AtCommit start s' g t c' := by
  obtain ⟨s₁, hwrite, hret⟩ := bind_eq_ok hrun
  obtain ⟨cache, hstep, rfl⟩ := bwrite_ok hwrite
  cases hret
  obtain ⟨⟨-, ha, hb, -, hnot⟩, -, hfits⟩ := h.fits
  obtain ⟨hlt, hafter, -⟩ := h.disk
  have hst := step_store hstep
  have hA := h.holding (r := .a) ha
  have hB := h.holding (r := .b) hb
  have hnoB : (s.cache.bc.bufs b).blockno = s.lh[tail] := hB.2.1.trans (h.home tail rfl).2
  have hinstall := hafter.install hlt
  have hdata : (s.cache.bc.bufs a).data = g.current s.lh[tail] := by
    have hdata := hA.2.2
    rw [view_inLog h.inLog] at hdata
    exact hdata.trans hinstall.1
  have hout : ¬ InLog start (s.cache.bc.bufs b).blockno := by
    rw [hnoB]
    exact h.header.outside _ (List.getElem_mem hlt)
  have hregs := h.regs_same rest (fun r => rfl) hst.uses hst.blockno_eq
  have hpin := h.coherent
  rw [pinnedAt_skip (by simp)] at hpin
  have hcoh := hpin.bwriteHome (cacheInv_step hpin.inv hstep) hst hout (by rw [hnoB]; exact hdata)
  refine ⟨hfits, h.header, hcoh, ⟨hlt, ?_, fun _ => ?_⟩, hregs.1, hregs.2⟩
  · show After start (update s.disk (s.cache.bc.bufs b).blockno _) s.lh g
    rw [hnoB, hdata]
    exact hinstall.2
  · show update s.disk (s.cache.bc.bufs b).blockno _ (s.lh.getD tail 0) = _
    have hget : s.lh.getD tail 0 = s.lh[tail] := by simp [hlt]
    rw [hnoB, hget, update_self, hdata]

theorem AtCommit.bunpin {b : Nat}
    (h : AtCommit start s g t ⟨.install tail, .bunpin .b :: rest, a, b⟩)
    (hrun : runInstr start s t ⟨.install tail, rest, a, b⟩ (.bunpin .b) = .ok (s', c')) :
    AtCommit start s' g t c' := by
  obtain ⟨s₁, hunpin, hret⟩ := bind_eq_ok hrun
  obtain ⟨cache, hstep, rfl⟩ := onCache_ok hunpin
  cases hret
  obtain ⟨⟨-, -, hb, hnotInstall, hnot⟩, -, hfits⟩ := h.fits
  obtain ⟨hlt, hafter, hinstalled⟩ := h.disk
  obtain ⟨huses, -, hkept⟩ := step_bunpin hstep
  have hB := h.holding (r := .b) hb
  have hnoB : (s.cache.bc.bufs b).blockno = s.lh[tail] := hB.2.1.trans (h.home tail rfl).2
  have hholds : Holds s.cache b ROOTDEV s.lh[tail] := hnoB ▸ h.coherent.holds_of_use hB.1
  have hget : s.lh.getD tail 0 = s.lh[tail] := by simp [hlt]
  have hdisk : s.disk s.lh[tail] = g.current s.lh[tail] := by
    rw [← hget]
    refine hinstalled ?_
    rw [List.mem_cons]
    rintro (hc | hc)
    · cases hc
    · exact hnotInstall hc
  have hdrop : pinnedAt s.lh (.install tail) (.bunpin .b :: rest) =
      s.lh[tail] :: pinnedAt s.lh (.install tail) rest := by
    simp only [pinnedAt, if_pos List.mem_cons_self, if_neg hnot]
    exact List.drop_eq_getElem_cons hlt
  have hnodup : (pinnedAt s.lh (.install tail) (.bunpin .b :: rest)).Nodup := by
    simp only [pinnedAt]
    exact h.header.nodup.sublist (List.drop_sublist _ _)
  have hregs := h.regs_same rest (fun r => rfl) huses fun x => (hkept x).blockno
  have hcoh := h.coherent.unpin hstep hdrop hnodup hholds fun _ => hdisk
  exact ⟨hfits, h.header, hcoh, ⟨hlt, hafter, fun _ => hget ▸ hdisk⟩, hregs.1, hregs.2⟩

/-! ## Steps of the committing thread -/

/-- The next step is the header write that commits the group. -/
def Committer.AtPoint (c : Committer) : Prop :=
  c.phase = .writeHead ∧ c.code.head? = some .writeHead

instance (c : Committer) : Decidable c.AtPoint :=
  inferInstanceAs (Decidable (_ ∧ _))

/-- The contents after an instruction. -/
def Contents.afterInstr (g : Contents) (c : Committer) : Contents :=
  if c.AtPoint then { durable := g.current } else g

theorem AtCommit.instr (h : AtCommit start s g t c) (hcode : c.code = i :: rest)
    (hrun : runInstr start s t { c with code := rest } i = .ok (s', c')) :
    AtCommit start s' (g.afterInstr c) t c' := by
  obtain ⟨p, code, a, b⟩ := c
  subst hcode
  have hfits := h.fits.1
  have hsame : i ≠ .writeHead ∨ p ≠ .writeHead → g.afterInstr ⟨p, i :: rest, a, b⟩ = g := by
    intro hne
    refine if_neg ?_
    rintro ⟨hp, hi⟩
    exact hne.elim (fun hc => hc (Option.some.inj hi)) fun hc => hc hp
  cases i with
  | bget r ref =>
    rw [hsame (.inl (by simp))]
    exact h.bget rfl hrun
  | acquire r =>
    rw [hsame (.inl (by simp))]
    exact h.acquire rfl hrun
  | unlock r =>
    rw [hsame (.inl (by simp))]
    exact h.unlock rfl hrun
  | brelse r =>
    rw [hsame (.inl (by simp))]
    exact h.brelse rfl hrun
  | writeLog =>
    rw [hsame (.inl (by simp))]
    obtain ⟨⟨tail, rfl⟩, -⟩ := hfits
    exact h.writeLog hrun
  | writeHead =>
    rcases hfits.1 with rfl | rfl
    · exact h.writeHead hrun
    · rw [hsame (.inr (by simp))]
      exact h.clearHead hrun
  | install =>
    rw [hsame (.inl (by simp))]
    obtain ⟨⟨tail, rfl⟩, -⟩ := hfits
    exact h.install hrun
  | bunpin r =>
    rw [hsame (.inl (by simp))]
    obtain ⟨⟨tail, rfl⟩, rfl, -⟩ := hfits
    exact h.bunpin hrun

/-- A phase begins where the one before it ended. -/
theorem AtCommit.enter {b : Nat} {p q : Phase} (h : AtCommit start s g t ⟨p, [], a, b⟩)
    (hpinned : pinnedAt s.lh q q.code = pinnedAt s.lh p [])
    (hdisk : DiskAt start s.disk s.lh g q q.code) : AtCommit start s g t q.enter := by
  refine ⟨fits_code q, h.header, ?_, hdisk, fun r st hst => ?_, fun x hx hlog => ?_⟩
  · show Coherent start s.cache s.disk g.current (pinnedAt s.lh q q.code)
    rw [hpinned]
    exact h.coherent
  · rw [show stageOf r q.enter.code = none from stageOf_code q r] at hst
    cases hst
  · have hzero := h.logUsers x hx hlog
    rw [show stageOf .a q.enter.code = none from stageOf_code q .a, if_neg fun hc => hc.1 rfl]
    rw [hzero, if_neg fun hc => hc.1 rfl]

theorem AtCommit.endStart {b : Nat} (h : AtCommit start s g t ⟨.start, [], a, b⟩) :
    AtCommit start s g t
      (if 0 < s.lh.length then (Phase.writeLog 0).enter else Phase.finish.enter) := by
  split
  · next hpos =>
    refine h.enter rfl ⟨hpos, h.disk, ?_⟩
    intro i _ hi
    simp [Phase.code] at hi
  · next hzero =>
    have hnil : s.lh = [] := List.length_eq_zero_iff.mp (by omega)
    exact h.enter rfl ⟨hnil, h.disk⟩

theorem AtCommit.endWriteLog {b : Nat} (h : AtCommit start s g t ⟨.writeLog tail, [], a, b⟩) :
    AtCommit start s g t
      (if tail + 1 < s.lh.length then
        (Phase.writeLog (tail + 1)).enter else Phase.writeHead.enter) := by
  obtain ⟨hlt, hbefore, hslots⟩ := h.disk
  rw [if_neg List.not_mem_nil] at hslots
  split
  · next hmore =>
    refine h.enter rfl ⟨hmore, hbefore, ?_⟩
    rw [if_pos (by simp [Phase.code])]
    exact hslots
  · next hlast =>
    refine h.enter rfl ?_
    simp only [DiskAt]
    rw [if_pos (by simp [Phase.code, headCode])]
    exact ⟨hbefore, fun i hi _ => hslots i hi (by omega)⟩

theorem AtCommit.endWriteHead {b : Nat} (h : AtCommit start s g t ⟨.writeHead, [], a, b⟩) :
    AtCommit start s g t
      (if 0 < s.lh.length then (Phase.install 0).enter else Phase.clear.enter) := by
  have hafter : After start s.disk s.lh g := by
    have hdisk := h.disk
    simp only [DiskAt, if_neg List.not_mem_nil] at hdisk
    exact hdisk
  split
  · next hpos =>
    refine h.enter ?_ ⟨hpos, hafter, fun hnot => ?_⟩
    · simp [pinnedAt, Phase.code]
    · exact absurd (by simp [Phase.code]) hnot
  · next hzero =>
    have hnil : s.lh = [] := List.length_eq_zero_iff.mp (by omega)
    refine h.enter ?_ hafter
    simp [pinnedAt, hnil]

theorem AtCommit.endInstall {b : Nat} (h : AtCommit start s g t ⟨.install tail, [], a, b⟩) :
    AtCommit start s g t
      (if tail + 1 < s.lh.length then (Phase.install (tail + 1)).enter else Phase.clear.enter) := by
  obtain ⟨hlt, hafter, -⟩ := h.disk
  split
  · next hmore =>
    refine h.enter ?_ ⟨hmore, hafter, fun hnot => ?_⟩
    · simp [pinnedAt, Phase.code]
    · exact absurd (by simp [Phase.code]) hnot
  · next hlast =>
    refine h.enter ?_ hafter
    simp only [pinnedAt, if_neg List.not_mem_nil]
    rw [List.drop_eq_nil_of_le (by omega)]

theorem AtCommit.endClear {b : Nat} (h : AtCommit start s g t ⟨.clear, [], a, b⟩) :
    AtCommit start { s with lh := [] } g t Phase.clearHead.enter := by
  have hafter : After start s.disk s.lh g := h.disk
  have hcode : ∀ r, stageOf r Phase.clearHead.enter.code = none := stageOf_code .clearHead
  refine ⟨fits_code .clearHead,
    ⟨List.nodup_nil, Nat.zero_le _, fun x hx => absurd hx List.not_mem_nil,
    fun x hx => absurd hx List.not_mem_nil⟩, h.coherent, ?_, fun r st hst => ?_,
    fun x hx hlog => ?_⟩
  · refine ⟨rfl, ?_⟩
    rw [if_pos (by simp [Phase.enter, Phase.code, headCode])]
    exact ⟨s.lh, hafter⟩
  · rw [hcode r] at hst
    cases hst
  · have hzero := h.logUsers x hx hlog
    rw [if_neg fun hc => hc.1 rfl] at hzero
    rw [hcode, if_neg fun hc => hc.1 rfl]
    exact hzero

theorem AtCommit.endClearHead {b : Nat} (h : AtCommit start s g t ⟨.clearHead, [], a, b⟩) :
    AtCommit start s g t Phase.finish.enter := by
  have hdisk := h.disk
  simp only [DiskAt, if_neg List.not_mem_nil] at hdisk
  refine h.enter ?_ hdisk
  simp [pinnedAt, hdisk.1]

/-- At the end the group is empty, and the next one begins. -/
theorem AtCommit.finish {b : Nat} (h : AtCommit start s g t ⟨.finish, [], a, b⟩) (t' : Nat) :
    g.writes = [] ∧ AtCommit start s g t' Phase.start.enter := by
  obtain ⟨hnil, hbefore⟩ := h.disk
  have hwrites : g.writes = [] := by
    cases hw : g.writes with
    | nil => rfl
    | cons w ws =>
      have := (hbefore.keys w.1).mpr (by rw [hw]; exact List.mem_cons_self)
      rw [hnil] at this
      cases this
  have hstart : AtCommit start s g t Phase.start.enter := h.enter rfl hbefore
  exact ⟨hwrites, hstart.fits, hstart.header, hstart.coherent, hstart.disk,
    fun _ _ hst => (nomatch hst), hstart.logUsers⟩

/-! ## Steps of other threads -/

/-- What a step of another thread has to leave alone. -/
theorem AtCommit.frame (h : AtCommit start s g t c)
    (hcoh : Coherent start cache s.disk g.current (pinnedAt s.lh c.phase c.code))
    (hregs : ∀ r st, stageOf r c.code = some st → ⟨t, c.reg r, st⟩ ∈ s.cache.uses →
      ⟨t, c.reg r, st⟩ ∈ cache.uses ∧
        (cache.bc.bufs (c.reg r)).blockno = (s.cache.bc.bufs (c.reg r)).blockno)
    (husers : ∀ x, x < NBUF → InLog start (cache.bc.bufs x).blockno →
      InLog start (s.cache.bc.bufs x).blockno ∧ users cache.uses x = users s.cache.uses x) :
    AtCommit start { s with cache := cache } g t c := by
  refine ⟨h.fits, h.header, hcoh, h.disk, fun r st hst => ?_, fun x hx hlog => ?_⟩
  · obtain ⟨hmem, hno⟩ := h.regs r st hst
    obtain ⟨hmem', hno'⟩ := hregs r st hst hmem
    exact ⟨hmem', hno'.trans hno⟩
  · obtain ⟨hlog', heq⟩ := husers x hx hlog
    exact heq.trans (h.logUsers x hx hlog')

/-- A use of a buffer of the log area is that of the committing thread. -/
theorem AtCommit.tid_of_inLog (h : AtCommit start s g t c) {u : Use} (hu : u ∈ s.cache.uses)
    (hlog : InLog start (s.cache.bc.bufs u.buf).blockno) :
    u.tid = t ∧ ∃ st, stageOf .a c.code = some st := by
  have hcount := h.logUsers u.buf (h.coherent.inv.range u hu) hlog
  have hpos := users_pos hu
  split at hcount
  · next hcond =>
    obtain ⟨st, hst⟩ := Option.ne_none_iff_exists'.mp hcond.1
    obtain ⟨hmem, -⟩ := h.regs .a st hst
    refine ⟨?_, st, hst⟩
    -- two different uses would count twice
    by_contra hne
    have hin : ⟨t, c.bufA, st⟩ ∈ s.cache.uses.erase u := by
      refine (List.mem_erase_of_ne ?_).mpr hmem
      intro heq
      exact hne (congrArg Use.tid heq).symm
    have hadd := countP_erase_add (fun v => v.buf = u.buf) hu
    have hpos' : 0 < (s.cache.uses.erase u).countP fun v => v.buf = u.buf :=
      List.countP_pos_iff.mpr ⟨_, hin, decide_eq_true hcond.2⟩
    have husers : users s.cache.uses u.buf = s.cache.uses.countP fun v => v.buf = u.buf := rfl
    simp only [decide_true, if_true] at hadd
    omega
  · omega

theorem AtCommit.other {a : Act} (h : AtCommit start s g t c)
    (hstep : CacheStep start s cache a) (hne : ∀ r st, stageOf r c.code = some st → t ≠ a.tid) :
    AtCommit start { s with cache := cache } g t c := by
  have hne' : ∀ r st (v : Use), stageOf r c.code = some st → v.tid = a.tid →
      (⟨t, c.reg r, st⟩ : Use) ≠ v := by
    intro r st v hst hv heq
    exact hne r st hst ((congrArg Use.tid heq).trans hv)
  cases hstep with
  | @bget t' n hout huint hstep =>
    obtain ⟨b, bc, -, hgot⟩ := step_bget h.coherent.inv hstep
    refine h.frame (h.coherent.got (cacheInv_step h.coherent.inv hstep) hgot fun _ => huint)
      (fun r st hst hmem => ⟨?_, h.coherent.blockno_got hgot hmem⟩) fun x hx hlog => ?_
    · rw [hgot.uses]
      exact List.mem_cons_of_mem _ hmem
    · have hxb : x ≠ b := by
        rintro rfl
        rw [hgot.holds.2.2] at hlog
        exact hout hlog
      rw [(hgot.others x hxb).blockno] at hlog
      refine ⟨hlog, ?_⟩
      rw [users_got hgot, if_neg hxb.symm, Nat.add_zero]
  | @acquire t' b hacq hinv =>
    have hblock : ∀ x, (cache.bc.bufs x).blockno = (s.cache.bc.bufs x).blockno := by
      intro x
      by_cases hx : x = b
      · rw [hx]
        exact hacq.blockno
      · exact (hacq.others x hx).blockno
    refine h.frame (h.coherent.acquired (hinv h.coherent.inv) hacq)
      (fun r st hst hmem => ⟨?_, hblock _⟩) fun x hx hlog => ⟨hblock x ▸ hlog, ?_⟩
    · rw [hacq.uses]
      exact List.mem_cons_of_mem _ ((List.mem_erase_of_ne (hne' r st _ hst rfl)).mpr hmem)
    · rw [hacq.uses]
      exact users_advance hacq.mem x
  | @unlock t' b hstep =>
    obtain ⟨hmem, huses, -, hkept⟩ := step_unlock hstep
    refine h.frame (h.coherent.unlock hstep) (fun r st hst hin => ⟨?_, (hkept _).blockno⟩)
      fun x hx hlog => ⟨(hkept x).blockno ▸ hlog, ?_⟩
    · rw [huses]
      exact List.mem_cons_of_mem _ ((List.mem_erase_of_ne (hne' r st _ hst rfl)).mpr hin)
    · rw [huses]
      exact users_advance hmem x
  | @brelse t' b hstep =>
    obtain ⟨hmem, huses, -, hkept⟩ := step_brelse hstep
    refine h.frame (h.coherent.brelse hstep) (fun r st hst hin => ⟨?_, (hkept _).blockno⟩)
      fun x hx hlog => ⟨(hkept x).blockno ▸ hlog, ?_⟩
    · rw [huses]
      exact (List.mem_erase_of_ne (hne' r st _ hst rfl)).mpr hin
    · rw [(hkept x).blockno] at hlog
      have hcount := users_brelse hmem x
      rw [huses]
      by_cases hbx : b = x
      · subst hbx
        obtain ⟨htid, st, hst⟩ := h.tid_of_inLog hmem hlog
        exact absurd htid.symm (hne .a st hst)
      · rw [if_neg hbx] at hcount
        exact hcount

/-- `log_write` while no thread commits. -/
theorem AtCommit.logWrite (h : AtCommit start s g t Phase.start.enter)
    (hwrite : logWrite s t' b data = .ok s') :
    AtCommit start s'
      { g with writes := ((s.cache.bc.bufs b).blockno, data) :: g.writes } t Phase.start.enter := by
  obtain ⟨logged, cache, hpc, hstep, hroom, hcases⟩ := logWrite_ok hwrite
  have hst := step_store hstep
  have hbefore : Before start s.disk s.lh g := h.disk
  have hcoh : Coherent start s.cache s.disk g.current s.lh := h.coherent
  have hb : b < NBUF := hcoh.inv.range _ hst.mem
  have hout : ¬ InLog start (s.cache.bc.bufs b).blockno := by
    intro hlog
    obtain ⟨-, st, hst⟩ := h.tid_of_inLog hst.mem hlog
    cases hst
  have hcurrent := g.current_write (s.cache.bc.bufs b).blockno data
  have husers : ∀ x, x < NBUF → InLog start (s.cache.bc.bufs x).blockno →
      users s.cache.uses x = 0 := by
    intro x hx hlog
    rw [h.logUsers x hx hlog, if_neg fun hc => hc.1 rfl]
  rcases hcases with ⟨hmem, rfl⟩ | ⟨hnew, pinned, hpin, rfl⟩
  · refine ⟨trivial, h.header, ?_, ⟨hbefore.empty, fun x => ?_⟩, fun _ _ hst => (nomatch hst),
      fun x hx hlog => ?_⟩
    · show Coherent start cache s.disk (Contents.current _) s.lh
      rw [hcurrent]
      exact hcoh.absorbed (cacheInv_step hcoh.inv hstep) hst hout hmem
    · show x ∈ s.lh ↔ x ∈ (s.cache.bc.bufs b).blockno :: g.writes.map Prod.fst
      rw [List.mem_cons, ← hbefore.keys]
      exact ⟨.inr, fun hc => hc.elim (fun heq => heq ▸ hmem) id⟩
    · have hlog : InLog start (cache.bc.bufs x).blockno := hlog
      rw [hst.blockno_eq] at hlog
      rw [if_neg fun hc => hc.1 rfl]
      show users cache.uses x = 0
      rw [hst.uses]
      exact husers x hx hlog
  · obtain ⟨huses, -, hkept⟩ := step_bpin hpin
    have hheader : Header start (s.lh ++ [(s.cache.bc.bufs b).blockno]) := by
      refine ⟨?_, ?_, fun x hx => ?_, fun x hx => ?_⟩
      · exact List.nodup_append.mpr ⟨h.header.nodup, by simp, fun x hx y hy heq => by
          rw [List.mem_singleton] at hy
          exact hnew (hy ▸ heq ▸ hx)⟩
      · rw [List.length_append, List.length_singleton]
        exact hroom
      · rcases List.mem_append.mp hx with hx | hx
        · exact h.header.outside x hx
        · rw [List.mem_singleton.mp hx]
          exact hout
      · rcases List.mem_append.mp hx with hx | hx
        · exact h.header.uint x hx
        · rw [List.mem_singleton.mp hx]
          exact hcoh.uint b hb hout
    refine ⟨trivial, hheader, ?_, ⟨hbefore.empty, fun x => ?_⟩, fun _ _ hst => (nomatch hst),
      fun x hx hlog => ?_⟩
    · show Coherent start pinned s.disk (Contents.current _) (s.lh ++ [(s.cache.bc.bufs b).blockno])
      rw [hcurrent]
      exact hcoh.logged hstep hpin hout hnew
    · show x ∈ s.lh ++ [(s.cache.bc.bufs b).blockno] ↔
        x ∈ (s.cache.bc.bufs b).blockno :: g.writes.map Prod.fst
      rw [List.mem_cons, ← hbefore.keys, List.mem_append, List.mem_singleton]
      exact or_comm
    · have hlog : InLog start (pinned.bc.bufs x).blockno := hlog
      rw [(hkept x).blockno, hst.blockno_eq] at hlog
      rw [if_neg fun hc => hc.1 rfl]
      show users pinned.uses x = 0
      rw [huses, hst.uses]
      exact husers x hx hlog

end Inv

end Xv6.Log
