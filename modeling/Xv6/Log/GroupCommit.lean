import Xv6.Log.CommitStep

/-!
# The log commits groups of whole operations

The log over the buffer cache refines `Group`.

* `event`: the abstract actions of a step.  The commit point is the header write.
* `LogInv`: a state of the log with the group it stands for.
* `logInv_step`: each step of the log is one of the group, or none.
* `group_commit`: the refinement, for every run; in every state a crash and
  recovery gives the durable contents of the group.
-/

namespace Xv6.Log

open Xv6.Bio Xv6.Lib.Run

/-- What a step does to the group. -/
def event (s : Sys) : Act → List Event
  | .beginOp t => [.beginOp t]
  | .logWrite t buf data => [.logWrite t (s.cache.bc.bufs buf).blockno data]
  | .endOp t => [.endOp t]
  | .commit t =>
    match s.pcs t with
    | .commit c =>
      if c.AtPoint then [.commit t]
      else if c.phase = .finish ∧ c.code = [] then [.finish t]
      else []
    | _ => []
  | .bget .. | .acquire .. | .unlock .. | .brelse .. => []

/-- Where the committing thread stands; without one, where the next one starts. -/
def Position (s : Sys) (g : Group) (t : Nat) (c : Committer) : Prop :=
  g.committing = none ∧ c = Phase.start.enter ∨ g.committing = some t ∧ s.pcs t = .commit c

structure LogInv (start : Nat) (s : Sys) (g : Group) : Prop where
  control : Control s g.running g.committing
  commit : ∃ t c, Position s g t c ∧ AtCommit start s g.toContents t c

variable {start : Nat} {s s' : Sys} {g : Group} {t buf : Nat} {data : Block} {a : Act}

theorem LogInv.quiet (h : LogInv start s g) (hnone : g.committing = none) :
    ∃ t, AtCommit start s g.toContents t Phase.start.enter := by
  obtain ⟨t, c, ⟨-, rfl⟩ | ⟨hsome, -⟩, hat⟩ := h.commit
  · exact ⟨t, hat⟩
  · rw [hnone] at hsome
    cases hsome

theorem LogInv.committing (h : LogInv start s g) {c : Committer} (hpc : s.pcs t = .commit c) :
    g.committing = some t ∧ AtCommit start s g.toContents t c := by
  have hwho := h.control.who_of_commit hpc
  refine ⟨hwho, ?_⟩
  obtain ⟨t', c', ⟨hnone, -⟩ | ⟨hsome, hpc'⟩, hat⟩ := h.commit
  · rw [hnone] at hwho
    cases hwho
  · rw [hwho] at hsome
    cases hsome
    rw [hpc] at hpc'
    cases hpc'
    exact hat

/-! ## Steps -/

theorem LogInv.beginOp (h : LogInv start s g) (hstep : beginOp s t = .ok s') :
    ∃ g', Group.step g (.beginOp t) = some g' ∧ LogInv start s' g' := by
  obtain ⟨hnone, hnot, hcontrol⟩ := h.control.beginOp hstep
  obtain ⟨-, -, -, rfl⟩ := beginOp_ok hstep
  obtain ⟨t₀, hat⟩ := h.quiet hnone
  refine ⟨_, if_pos ⟨hnot, hnone⟩, ?_, t₀, _, .inl ⟨hnone, rfl⟩, hat.congr rfl rfl rfl⟩
  show Control _ (t :: g.running) g.committing
  rw [hnone]
  exact hcontrol

theorem LogInv.logWrite (h : LogInv start s g) (hstep : logWrite s t buf data = .ok s') :
    ∃ g', Group.step g (.logWrite t (s.cache.bc.bufs buf).blockno data) = some g' ∧
      LogInv start s' g' := by
  obtain ⟨hnone, hmem, hcontrol⟩ := h.control.logWrite hstep
  obtain ⟨t₀, hat⟩ := h.quiet hnone
  refine ⟨_, if_pos ⟨hmem, hnone⟩, ?_, t₀, _, .inl ⟨hnone, rfl⟩, hat.logWrite hstep⟩
  show Control _ g.running g.committing
  rw [hnone]
  exact hcontrol

theorem LogInv.endOp (h : LogInv start s g) (hstep : endOp s t = .ok s') :
    ∃ g', Group.step g (.endOp t) = some g' ∧ LogInv start s' g' := by
  obtain ⟨hnone, hmem, hcontrol⟩ := h.control.endOp hstep
  obtain ⟨t₀, hat⟩ := h.quiet hnone
  refine ⟨_, if_pos ⟨hmem, hnone⟩, hcontrol, t, Phase.start.enter, ?_, ?_⟩
  · by_cases hnil : g.running.erase t = []
    · right
      refine ⟨if_pos hnil, ?_⟩
      have hpc := (hcontrol.committer t).mp (if_pos hnil)
      obtain ⟨logged, -, -, rfl⟩ := endOp_ok hstep
      split
      · exact setPc_self
      · next hmore =>
        rw [if_neg hmore, setPc_self] at hpc
        obtain ⟨c, hc⟩ := hpc
        cases hc
    · exact .inl ⟨if_neg hnil, rfl⟩
  · have hat' : AtCommit start s' g.toContents t₀ Phase.start.enter := by
      obtain ⟨logged, -, -, rfl⟩ := endOp_ok hstep
      split
      · exact hat.congr rfl rfl rfl
      · exact hat.congr rfl rfl rfl
    exact ⟨hat'.fits, hat'.header, hat'.coherent, hat'.disk, fun _ _ hst => (nomatch hst),
      hat'.logUsers⟩

/-- The next phase, or the end of `commit`. -/
theorem LogInv.nextPhase (h : LogInv start s g) {c : Committer} (hpc : s.pcs t = .commit c)
    (hcode : c.code = []) :
    ∃ g', exec Group.step g (event s (.commit t)) = some g' ∧
      LogInv start (nextPhase s t c.phase) g' := by
  obtain ⟨hwho, hat⟩ := h.committing hpc
  have hcontrol : Control s g.running (some t) := hwho ▸ h.control
  obtain ⟨p, code, a, b⟩ := c
  subst hcode
  -- in all phases but the last one the thread stays in `commit`
  have hstay : ∀ (u : Sys) (c' : Committer), u.pcs = s.pcs → u.outstanding = s.outstanding →
      u.committing = s.committing → AtCommit start u g.toContents t c' →
      LogInv start (u.setPc t (.commit c')) g := by
    intro u c' hpcs hout hflag hat'
    exact ⟨hwho ▸ hcontrol.stay hpcs hout hflag, t, c', .inr ⟨hwho, setPc_self⟩,
      hat'.congr rfl rfl rfl⟩
  cases p with
  | start => exact ⟨g, by simp [event, hpc, Committer.AtPoint, exec],
    hstay s _ rfl rfl rfl hat.endStart⟩
  | writeLog tail =>
    exact ⟨g, by simp [event, hpc, Committer.AtPoint, exec], hstay s _ rfl rfl rfl hat.endWriteLog⟩
  | writeHead =>
    exact ⟨g, by simp [event, hpc, Committer.AtPoint, exec], hstay s _ rfl rfl rfl hat.endWriteHead⟩
  | install tail =>
    exact ⟨g, by simp [event, hpc, Committer.AtPoint, exec], hstay s _ rfl rfl rfl hat.endInstall⟩
  | clear =>
    exact ⟨g, by simp [event, hpc, Committer.AtPoint, exec],
      hstay { s with lh := [] } _ rfl rfl rfl hat.endClear⟩
  | clearHead =>
    exact ⟨g, by simp [event, hpc, Committer.AtPoint, exec], hstay s _ rfl rfl rfl hat.endClearHead⟩
  | finish =>
    obtain ⟨hwrites, hstart⟩ := hat.finish t
    refine ⟨{ g with committing := none }, ?_, hcontrol.finish, t, _, .inl ⟨rfl, rfl⟩,
      hstart.congr rfl rfl rfl⟩
    simp [event, hpc, Committer.AtPoint, exec, Group.step, hwrites, hwho]

theorem LogInv.instr (h : LogInv start s g) {c c' : Committer} {i : Instr} {rest : List Instr}
    (hpc : s.pcs t = .commit c) (hcode : c.code = i :: rest)
    (hrun : runInstr start s t { c with code := rest } i = .ok (s', c')) :
    ∃ g', exec Group.step g (event s (.commit t)) = some g' ∧
      LogInv start (s'.setPc t (.commit c')) g' := by
  obtain ⟨hwho, hat⟩ := h.committing hpc
  have hcontrol : Control s g.running (some t) := hwho ▸ h.control
  have hat' := hat.instr hcode hrun
  obtain ⟨cache, disk, rfl⟩ := runInstr_ok hrun
  have hunfinished : ¬ (c.phase = .finish ∧ c.code = []) := by
    rw [hcode]
    exact fun hc => (nomatch hc.2)
  by_cases hpoint : c.AtPoint
  · rw [Contents.afterInstr, if_pos hpoint] at hat'
    refine ⟨{ g with durable := g.current, writes := [] }, ?_,
      hwho ▸ hcontrol.stay rfl rfl rfl, t, c', .inr ⟨hwho, setPc_self⟩, hat'.congr rfl rfl rfl⟩
    simp [event, hpc, hpoint, exec, Group.step, hwho, hcontrol.alone t rfl]
  · rw [Contents.afterInstr, if_neg hpoint] at hat'
    refine ⟨g, ?_, hwho ▸ hcontrol.stay rfl rfl rfl, t, c', .inr ⟨hwho, setPc_self⟩,
      hat'.congr rfl rfl rfl⟩
    simp only [event, hpc, if_neg hpoint, if_neg hunfinished]
    rfl

theorem logInv_step (h : LogInv start s g) (hstep : stepE start s a = .ok s') :
    ∃ g', exec Group.step g (event s a) = some g' ∧ LogInv start s' g' := by
  have hone : ∀ {e : Event} {g' : Group}, Group.step g e = some g' →
      exec Group.step g [e] = some g' := by
    intro e g' he
    simp [exec, he]
  rcases stepE_cases hstep with ⟨t, rfl, hstep⟩ | ⟨t, buf, data, rfl, hstep⟩ | ⟨t, rfl, hstep⟩ |
    ⟨t, rfl, hstep⟩ | ⟨hfree, cache, hcache, rfl⟩
  · obtain ⟨g', he, hinv⟩ := h.beginOp hstep
    exact ⟨g', hone he, hinv⟩
  · obtain ⟨g', he, hinv⟩ := h.logWrite hstep
    exact ⟨g', hone he, hinv⟩
  · obtain ⟨g', he, hinv⟩ := h.endOp hstep
    exact ⟨g', hone he, hinv⟩
  · obtain ⟨c, hpc, ⟨hcode, rfl⟩ | ⟨i, rest, s₁, c₁, hcode, hrun, rfl⟩⟩ := commitTick_ok hstep
    · exact h.nextPhase hpc hcode
    · exact h.instr hpc hcode hrun
  · obtain ⟨t, c, hposition, hat⟩ := h.commit
    have hevent : event s a = [] := by
      cases hcache <;> rfl
    refine ⟨g, by rw [hevent]; rfl, h.control.same rfl rfl rfl, t, c, hposition, ?_⟩
    refine hat.other hcache fun r st hst => ?_
    rcases hposition with ⟨-, rfl⟩ | ⟨-, hpc⟩
    · cases hst
    · rintro rfl
      exact hfree c hpc

/-! ## Runs -/

theorem coherent_init {disk : Disk} : Coherent start Cache.init disk disk [] where
  inv := cacheInv_init
  used := fun _ hu => absurd hu List.not_mem_nil
  held := fun _ _ hu => absurd hu List.not_mem_nil
  fresh := fun _ _ => ⟨fun hvalid => (nomatch hvalid), fun hvalid => (nomatch hvalid)⟩
  pinned := fun _ hn => absurd hn List.not_mem_nil
  pins := fun _ _ => (if_neg fun hc => List.not_mem_nil hc.2).symm
  clean := fun _ _ _ => rfl
  uint := fun _ _ _ => Nat.two_pow_pos 32

theorem logInv_init {disk : Disk} (hlog : LogEmpty start disk) :
    LogInv start (Sys.init disk) { durable := disk } where
  control := Control.init disk
  commit := by
    refine ⟨0, Phase.start.enter, .inl ⟨rfl, rfl⟩, trivial, ⟨List.nodup_nil, Nat.zero_le _, ?_, ?_⟩,
      coherent_init, ⟨⟨hlog, fun _ _ => rfl⟩, fun _ => Iff.rfl⟩, fun _ _ hst => (nomatch hst),
      fun _ _ _ => rfl⟩
    · exact fun b hb => absurd hb List.not_mem_nil
    · exact fun b hb => absurd hb List.not_mem_nil

/-- A crash at any time leaves the durable contents to recovery. -/
theorem LogInv.recovered (h : LogInv start s g) (ks : List Nat) :
    HomeEq start (recovered start (crashedRecoveries start s.disk ks)) g.durable := by
  obtain ⟨t, c, -, hat⟩ := h.commit
  have hbefore : ∀ {lh}, Before start s.disk lh g.toContents →
      HomeEq start (Log.recovered start (crashedRecoveries start s.disk ks)) g.durable :=
    fun hb => (recoveries_of_empty hb.empty ks).home
  have hafter : ∀ {blocks}, After start s.disk blocks g.toContents →
      HomeEq start (Log.recovered start (crashedRecoveries start s.disk ks)) g.durable := by
    rintro blocks ⟨-, T, d₀, -, hcommitted, hdurable⟩ b hb
    rw [(recoveries_of_committed hcommitted ks).home b hb]
    exact hdurable b hb
  have hdisk := hat.disk
  cases hp : c.phase with
  | start =>
    rw [hp] at hdisk
    exact hbefore hdisk
  | writeLog tail =>
    rw [hp] at hdisk
    exact hbefore hdisk.2.1
  | writeHead =>
    rw [hp] at hdisk
    simp only [DiskAt] at hdisk
    split at hdisk
    · exact hbefore hdisk.1
    · exact hafter hdisk
  | install tail =>
    rw [hp] at hdisk
    exact hafter hdisk.2.1
  | clear =>
    rw [hp] at hdisk
    exact hafter hdisk
  | clearHead =>
    rw [hp] at hdisk
    obtain ⟨-, hdisk⟩ := hdisk
    split at hdisk
    · obtain ⟨blocks, hdisk⟩ := hdisk
      exact hafter hdisk
    · exact hbefore hdisk
  | finish =>
    rw [hp] at hdisk
    exact hbefore hdisk.2

/-- What a state of the log and its group have to do with each other. -/
structure Refines (start : Nat) (s : Sys) (g : Group) : Prop where
  running : ∀ t, t ∈ g.running ↔ ∃ logged, s.pcs t = .inside logged
  committing : ∀ t, g.committing = some t ↔ ∃ c, s.pcs t = .commit c
  /-- `commit` runs when no section is open. -/
  alone : ∀ t c, s.pcs t = .commit c → ∀ t' logged, s.pcs t' ≠ .inside logged
  /-- No section opens and no `log_write` happens while `log.committing` is set. -/
  closed : s.committing = true → ∀ t buf data,
    step start s (.beginOp t) = none ∧ step start s (.logWrite t buf data) = none
  /-- A crash at this time, with any number of crashed recoveries, and a recovery. -/
  durable : ∀ ks, HomeEq start (recovered start (crashedRecoveries start s.disk ks)) g.durable

theorem LogInv.refines (h : LogInv start s g) : Refines start s g where
  running := h.control.inside
  committing := h.control.committer
  alone := by
    intro t c hpc t' logged hinside
    have hmem := (h.control.inside t').mpr ⟨logged, hinside⟩
    rw [h.control.alone t (h.control.who_of_commit hpc)] at hmem
    cases hmem
  closed := by
    intro hflag t buf data
    have hsome : g.committing ≠ none := by
      intro hnone
      have := h.control.committing
      rw [hflag, hnone] at this
      cases this
    refine ⟨Option.eq_none_iff_forall_ne_some.mpr fun s' hstep => hsome ?_,
      Option.eq_none_iff_forall_ne_some.mpr fun s' hstep => hsome ?_⟩
    · exact (h.control.beginOp (stepE_of_step hstep)).1
    · exact (h.control.logWrite (stepE_of_step hstep)).1
  durable := h.recovered

/-- Group commit: every run of the log is one of `Group`, whose commits take the
writes of whole sections. -/
theorem group_commit {start : Nat} {disk : Disk} {acts : List Act} {s : Sys}
    (hlog : LogEmpty start disk) (hrun : exec (step start) (Sys.init disk) acts = some s) :
    ∃ g, exec Group.step { durable := disk } (trace (step start) event (Sys.init disk) acts) =
      some g ∧
      Refines start s g := by
  obtain ⟨g, htrace, hinv⟩ := simulation (R := LogInv start)
    (fun _ _ _ _ h hstep => logInv_step h (stepE_of_step hstep)) (logInv_init hlog) hrun
  exact ⟨g, htrace, hinv.refines⟩

/-- A section that writes one block, up to the end of the commit. -/
def oneSection : List Act :=
  [.beginOp 0, .bget 0 45, .acquire 0 0, .logWrite 0 0 zeroBlock, .unlock 0 0, .brelse 0 0,
    .endOp 0] ++
    List.replicate 36 (.commit 0)

theorem group_commit_oneSection :
    LogEmpty 2 (fun _ => zeroBlock) ∧
      ∃ s g, exec (step 2) (Sys.init fun _ => zeroBlock) oneSection = some s ∧
        exec Group.step { durable := fun _ => zeroBlock }
          (trace (step 2) event (Sys.init fun _ => zeroBlock) oneSection) = some g ∧
        Refines 2 s g := by
  have hlog : LogEmpty 2 (fun _ => zeroBlock) := by decide
  have hrun : (exec (step 2) (Sys.init fun _ => zeroBlock) oneSection).isSome = true := by
    decide +kernel
  obtain ⟨s, hrun⟩ := Option.isSome_iff_exists.mp hrun
  obtain ⟨g, hgroup⟩ := group_commit hlog hrun
  exact ⟨hlog, s, g, hrun, hgroup⟩

end Xv6.Log
