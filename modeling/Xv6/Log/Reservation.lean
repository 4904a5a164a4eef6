import Mathlib.Algebra.Module.NatInt
import Mathlib.Algebra.Order.BigOperators.Group.List
import Xv6.Log.Sections

/-!
# Log space

`begin_op` reserves `MAXOPBLOCKS` blocks of the log for each section.

* `Reserved`: the blocks in the log and what the running sections may still add
  fit into the log.
* `log_space_suffices`: this holds in every run in which a section that has logged
  `MAXOPBLOCKS` distinct blocks logs no others, and none while the log is full.
* `not_log_space_suffices_relog`: `log_write` tests the space before it looks for
  the block in the log, so with a full log it panics also on a block that is
  already there.
-/

namespace Xv6.Log

open Xv6.Bio Xv6.Lib.Run

/-- The distinct blocks that the section of a thread has logged so far. -/
def Sys.opBlocks (s : Sys) (t : Nat) : List Nat :=
  match s.pcs t with
  | .inside logged => logged
  | _ => []

/-- Each section logs at most `MAXOPBLOCKS` distinct blocks. -/
def WithinOp (s : Sys) : Act → Prop
  | .logWrite t buf _ =>
    ((s.opBlocks t).insert (s.cache.bc.bufs buf).blockno).length ≤ MAXOPBLOCKS
  | _ => True

/-- A section that has logged `MAXOPBLOCKS` distinct blocks logs only these again, and not
when the log is full. -/
def BeforeLimit (s : Sys) : Act → Prop
  | .logWrite t buf _ => (s.opBlocks t).length < MAXOPBLOCKS ∨
      (s.cache.bc.bufs buf).blockno ∈ s.opBlocks t ∧ s.lh.length < LOGBLOCKS
  | _ => True

instance (s : Sys) : (a : Act) → Decidable (WithinOp s a)
  | .logWrite .. => inferInstanceAs (Decidable (_ ≤ _))
  | .beginOp _ | .bget .. | .acquire .. | .unlock .. | .brelse .. | .endOp _ | .commit _ =>
    .isTrue trivial

instance (s : Sys) : (a : Act) → Decidable (BeforeLimit s a)
  | .logWrite .. => inferInstanceAs (Decidable (_ ∨ _))
  | .beginOp _ | .bget .. | .acquire .. | .unlock .. | .brelse .. | .endOp _ | .commit _ =>
    .isTrue trivial

/-- What the running sections may still add to the log. -/
def Sys.reserved (s : Sys) (running : List Nat) : Nat :=
  (running.map fun t => MAXOPBLOCKS - (s.opBlocks t).length).sum

structure Reserved (s : Sys) (running : List Nat) (who : Option Nat) : Prop where
  control : Control s running who
  logged : ∀ t, ∀ b ∈ s.opBlocks t, b ∈ s.lh
  space : s.lh.length + s.reserved running ≤ LOGBLOCKS

variable {start : Nat} {s s' u : Sys} {t buf : Nat} {data : Block} {running : List Nat}
  {who : Option Nat}

/-! ## Blocks of a section -/

theorem opBlocks_inside {logged : List Nat} (h : s.pcs t = .inside logged) :
    s.opBlocks t = logged := by
  rw [Sys.opBlocks, h]

theorem opBlocks_setPc_self {logged : List Nat} :
    (u.setPc t (.inside logged)).opBlocks t = logged :=
  opBlocks_inside setPc_self

theorem opBlocks_setPc_of_ne {pc : Pc} {x : Nat} (hx : x ≠ t) :
    (u.setPc t pc).opBlocks x = u.opBlocks x := by
  rw [Sys.opBlocks, setPc_of_ne hx, Sys.opBlocks]

/-- A thread that is not inside a section has no blocks. -/
theorem opBlocks_outside (h : ∀ logged, s.pcs t ≠ .inside logged) : s.opBlocks t = [] := by
  unfold Sys.opBlocks
  split
  · next logged hpc => exact absurd hpc (h logged)
  · rfl

theorem reserved_congr (h : ∀ x ∈ running, u.opBlocks x = s.opBlocks x) :
    u.reserved running = s.reserved running := by
  unfold Sys.reserved
  congr 1
  refine List.map_congr_left fun x hx => ?_
  rw [h x hx]

theorem reserved_setPc {pc : Pc} (ht : t ∉ running) :
    (u.setPc t pc).reserved running = u.reserved running := by
  refine reserved_congr fun x hx => opBlocks_setPc_of_ne ?_
  rintro rfl
  exact ht hx

theorem reserved_le (s : Sys) (running : List Nat) :
    s.reserved running ≤ running.length * MAXOPBLOCKS := by
  have hle := List.sum_le_card_nsmul (running.map fun t => MAXOPBLOCKS - (s.opBlocks t).length)
    MAXOPBLOCKS fun n hn => by
      obtain ⟨x, -, rfl⟩ := List.mem_map.mp hn
      exact Nat.sub_le _ _
  rw [List.length_map, smul_eq_mul] at hle
  exact hle

/-- The share of one section. -/
theorem reserved_erase (ht : t ∈ running) :
    s.reserved running = (MAXOPBLOCKS - (s.opBlocks t).length) + s.reserved (running.erase t) :=
  (List.sum_map_erase _ ht).symm

/-! ## Steps -/

theorem Reserved.init (disk : Disk) : Reserved (Sys.init disk) [] none where
  control := Control.init disk
  logged := fun _ _ hb => absurd hb List.not_mem_nil
  space := Nat.zero_le _

/-- Steps of the cache. -/
theorem Reserved.same (h : Reserved s running who) (hpcs : s'.pcs = s.pcs) (hlh : s'.lh = s.lh)
    (houtstanding : s'.outstanding = s.outstanding) (hcommitting : s'.committing = s.committing) :
    Reserved s' running who := by
  have hop : ∀ x, s'.opBlocks x = s.opBlocks x := by
    intro x
    rw [Sys.opBlocks, hpcs, Sys.opBlocks]
  refine ⟨h.control.same hpcs houtstanding hcommitting, fun x b hb => ?_, ?_⟩
  · rw [hop] at hb
    rw [hlh]
    exact h.logged x b hb
  · rw [hlh, reserved_congr fun x _ => hop x]
    exact h.space

theorem Reserved.beginOp (h : Reserved s running who) (hbegin : beginOp s t = .ok s') :
    Reserved s' (t :: running) none := by
  obtain ⟨-, hnot, hcontrol⟩ := h.control.beginOp hbegin
  obtain ⟨-, -, hroom, rfl⟩ := beginOp_ok hbegin
  refine ⟨hcontrol, fun x b hb => ?_, ?_⟩
  · by_cases hx : x = t
    · rw [hx, opBlocks_setPc_self] at hb
      cases hb
    · rw [opBlocks_setPc_of_ne hx] at hb
      exact h.logged x b hb
  · have hle := reserved_le ({ s with outstanding := s.outstanding + 1 }.setPc t (.inside []))
      (t :: running)
    rw [List.length_cons, ← h.control.outstanding] at hle
    show s.lh.length + _ ≤ LOGBLOCKS
    omega

theorem Reserved.logWrite (h : Reserved s running who)
    (hbefore : BeforeLimit s (.logWrite t buf data)) (hwrite : logWrite s t buf data = .ok s') :
    Reserved s' running none := by
  obtain ⟨-, ht, hcontrol⟩ := h.control.logWrite hwrite
  obtain ⟨logged, cache, hpc, -, -, hcases⟩ := logWrite_ok hwrite
  have hsub : ∀ b ∈ logged, b ∈ s.lh := by
    intro b hb
    refine h.logged t b ?_
    rw [opBlocks_inside hpc]
    exact hb
  have hspace := h.space
  rw [reserved_erase ht, opBlocks_inside hpc] at hspace
  have hrest : t ∉ running.erase t := h.control.nodup.not_mem_erase
  rcases hcases with ⟨hmem, rfl⟩ | ⟨hmem, pinned, -, rfl⟩
  · refine ⟨hcontrol, fun x b hb => ?_, ?_⟩
    · by_cases hx : x = t
      · rw [hx, opBlocks_setPc_self] at hb
        rcases List.mem_insert_iff.mp hb with rfl | hb
        · exact hmem
        · exact hsub b hb
      · rw [opBlocks_setPc_of_ne hx] at hb
        exact h.logged x b hb
    · have hmono := List.length_le_length_insert (l := logged) (a := (s.cache.bc.bufs buf).blockno)
      rw [reserved_erase ht, opBlocks_setPc_self, reserved_setPc hrest]
      show s.lh.length + (_ + s.reserved (running.erase t)) ≤ LOGBLOCKS
      omega
  · -- a block that is new in the log is new in the section
    have hnew : (s.cache.bc.bufs buf).blockno ∉ logged := fun hin => hmem (hsub _ hin)
    rw [BeforeLimit, opBlocks_inside hpc] at hbefore
    have hlen := hbefore.resolve_right fun hin => hnew hin.1
    refine ⟨hcontrol, fun x b hb => ?_, ?_⟩
    · show b ∈ s.lh ++ [(s.cache.bc.bufs buf).blockno]
      by_cases hx : x = t
      · rw [hx, opBlocks_setPc_self] at hb
        rcases List.mem_insert_iff.mp hb with rfl | hb
        · exact List.mem_append_right _ List.mem_cons_self
        · exact List.mem_append_left _ (hsub b hb)
      · rw [opBlocks_setPc_of_ne hx] at hb
        exact List.mem_append_left _ (h.logged x b hb)
    · rw [reserved_erase ht, opBlocks_setPc_self, reserved_setPc hrest,
        List.length_insert_of_not_mem hnew]
      show (s.lh ++ [_]).length + (_ + s.reserved (running.erase t)) ≤ LOGBLOCKS
      rw [List.length_append, List.length_singleton]
      omega

theorem Reserved.endOp (h : Reserved s running who) (hend : endOp s t = .ok s') :
    ∃ who', Reserved s' (running.erase t) who' := by
  obtain ⟨-, ht, hcontrol⟩ := h.control.endOp hend
  obtain ⟨logged, -, -, hs'⟩ := endOp_ok hend
  have hspace := h.space
  rw [reserved_erase ht] at hspace
  have hnot : t ∉ running.erase t := h.control.nodup.not_mem_erase
  have hlh : s'.lh = s.lh := by
    rw [hs']
    split <;> rfl
  refine ⟨_, hcontrol, fun x b hb => ?_, ?_⟩
  · rw [hlh]
    by_cases hx : x = t
    · subst hx
      have hnil : s'.opBlocks x = [] := by
        refine opBlocks_outside fun logged' hc => ?_
        exact hnot ((hcontrol.inside x).mpr ⟨logged', hc⟩)
      rw [hnil] at hb
      cases hb
    · have hsame : s'.opBlocks x = s.opBlocks x := by
        rw [hs']
        split
        · exact opBlocks_setPc_of_ne hx
        · exact opBlocks_setPc_of_ne hx
      rw [hsame] at hb
      exact h.logged x b hb
  · have hsame : s'.reserved (running.erase t) = s.reserved (running.erase t) := by
      rw [hs']
      split
      · exact reserved_setPc hnot
      · exact reserved_setPc hnot
    rw [hsame, hlh]
    omega

/-- While a thread commits no section is open, and the log only shrinks. -/
theorem Reserved.commit (h : Reserved s running who) (hwho : who = some t)
    (hcontrol : ∃ who', Control s' running who') (hlen : s'.lh.length ≤ s.lh.length) :
    ∃ who', Reserved s' running who' := by
  obtain ⟨who', hcontrol⟩ := hcontrol
  have hnil : running = [] := h.control.alone t hwho
  subst hnil
  refine ⟨who', hcontrol, fun x b hb => ?_, Nat.le_trans (Nat.add_le_add_right hlen _) h.space⟩
  have hout : s'.opBlocks x = [] := by
    refine opBlocks_outside fun logged hc => ?_
    cases (hcontrol.inside x).mpr ⟨logged, hc⟩
  rw [hout] at hb
  cases hb

theorem Control.nextPhase (h : Control s running (some t)) (p : Phase) :
    ∃ who', Control (nextPhase s t p) running who' := by
  cases p with
  | finish => exact ⟨none, h.finish⟩
  | _ => exact ⟨some t, h.stay rfl rfl rfl⟩

theorem reserved_step {a : Act} (h : ∃ running who, Reserved s running who)
    (hbefore : BeforeLimit s a) (hstep : stepE start s a = .ok s') :
    ∃ running who, Reserved s' running who := by
  obtain ⟨running, who, h⟩ := h
  rcases stepE_cases hstep with ⟨t, rfl, hstep⟩ | ⟨t, buf, data, rfl, hstep⟩ | ⟨t, rfl, hstep⟩ |
    ⟨t, rfl, hstep⟩ | ⟨-, cache, -, rfl⟩
  · exact ⟨_, _, h.beginOp hstep⟩
  · exact ⟨_, _, h.logWrite hbefore hstep⟩
  · exact ⟨_, h.endOp hstep⟩
  · obtain ⟨c, hpc, hcases⟩ := commitTick_ok hstep
    have hwho := h.control.who_of_commit hpc
    have hcontrol : Control s running (some t) := hwho ▸ h.control
    refine ⟨running, h.commit hwho ?_ ?_⟩
    · rcases hcases with ⟨-, rfl⟩ | ⟨i, rest, s₁, c₁, -, hrun, rfl⟩
      · exact hcontrol.nextPhase c.phase
      · obtain ⟨cache, disk, rfl⟩ := runInstr_ok hrun
        exact ⟨_, hcontrol.stay rfl rfl rfl⟩
    · rcases hcases with ⟨-, rfl⟩ | ⟨i, rest, s₁, c₁, -, hrun, rfl⟩
      · cases c.phase with
        | clear => exact Nat.zero_le _
        | _ => exact Nat.le_refl _
      · obtain ⟨cache, disk, rfl⟩ := runInstr_ok hrun
        exact Nat.le_refl _
  · exact ⟨running, who, h.same rfl rfl rfl rfl⟩

/-! ## Runs -/

theorem logWrite_tooBig (h : logWrite s t buf data = .error (.panic .tooBig)) :
    (∃ logged, s.pcs t = .inside logged) ∧ LOGBLOCKS ≤ s.lh.length := by
  unfold logWrite at h
  split at h
  · next logged hpc =>
    refine ⟨⟨logged, hpc⟩, ?_⟩
    rcases bind_eq_error h with hstore | ⟨s₁, hstore, h⟩
    · cases onCache_error hstore
    · obtain ⟨cache, -, rfl⟩ := onCache_ok hstore
      dsimp only at h
      split at h
      · next hfull => exact hfull
      · split at h
        · cases h
        · split at h
          · cases h
          · rcases bind_eq_error h with hpin | ⟨s₂, -, h⟩
            · cases onCache_error hpin
            · cases h
  · cases h

/-- With room for what it may still log, a section does not overflow the log. -/
theorem not_tooBig_of_reserved (h : Reserved s running who)
    (hbefore : BeforeLimit s (.logWrite t buf data)) :
    logWrite s t buf data ≠ .error (.panic .tooBig) := by
  intro hpanic
  obtain ⟨⟨logged, hpc⟩, hfull⟩ := logWrite_tooBig hpanic
  have hspace := h.space
  rw [reserved_erase ((h.control.inside t).mpr ⟨logged, hpc⟩)] at hspace
  have hlen := hbefore.resolve_right fun hroom => Nat.not_le_of_lt hroom.2 hfull
  omega

/-- If the sections that have logged `MAXOPBLOCKS` distinct blocks log no others, and none
at all while the log is full, the log never overflows. -/
theorem log_space_suffices {start : Nat} {disk : Disk} {acts : List Act} {s : Sys}
    (hbefore : StepsMeet (step start) BeforeLimit (Sys.init disk) acts)
    (hrun : exec (step start) (Sys.init disk) acts = some s) :
    s.lh.length ≤ LOGBLOCKS ∧ ∀ t buf data, BeforeLimit s (.logWrite t buf data) →
      stepE start s (.logWrite t buf data) ≠ .error (.panic .tooBig) := by
  have hinv : ∃ running who, Reserved s running who := by
    have hinit : ∃ running who, Reserved (Sys.init disk) running who := ⟨_, _, Reserved.init disk⟩
    exact inv_of_exec (fun s a s' h hP hstep => reserved_step h hP (stepE_of_step hstep)) hinit
      hbefore hrun
  obtain ⟨running, who, h⟩ := hinv
  refine ⟨Nat.le_trans (Nat.le_add_right _ _) h.space, fun t buf data hnext => ?_⟩
  exact not_tooBig_of_reserved h hnext

/-- Three sections log ten blocks each. -/
def fillLog : List Act :=
  [.beginOp 0, .beginOp 1, .beginOp 2] ++
    (List.range LOGBLOCKS).flatMap fun k =>
      [.bget (k / MAXOPBLOCKS) (100 + k), .acquire (k / MAXOPBLOCKS) k,
        .logWrite (k / MAXOPBLOCKS) k zeroBlock, .unlock (k / MAXOPBLOCKS) k,
        .brelse (k / MAXOPBLOCKS) k]

/-- The first section takes its first block again. -/
def relogRun : List Act :=
  fillLog ++ [.bget 0 100, .acquire 0 0]

set_option maxRecDepth 100000 in
/-- No section logs more than ten blocks, and the last `log_write` panics. -/
theorem not_log_space_suffices_relog :
    StepsMeet (step 2) WithinOp (Sys.init fun _ => zeroBlock) relogRun ∧
      ∃ s, exec (step 2) (Sys.init fun _ => zeroBlock) relogRun = some s ∧
        WithinOp s (.logWrite 0 0 zeroBlock) ∧
        stepE 2 s (.logWrite 0 0 zeroBlock) = .error (.panic .tooBig) := by
  have hcheck : runCheck (step 2) (fun s a => decide (WithinOp s a))
      (fun s => WithinOp s (.logWrite 0 0 zeroBlock) ∧
        panicOf (stepE 2 s (.logWrite 0 0 zeroBlock)) = some .tooBig)
      (Sys.init fun _ => zeroBlock) relogRun = true := by
    decide +kernel
  obtain ⟨hsteps, s, hrun, hend⟩ := of_runCheck hcheck
  obtain ⟨hlast, hpanic⟩ := of_decide_eq_true hend
  exact ⟨hsteps.mono fun _ _ => of_decide_eq_true, s, hrun, hlast, eq_of_panicOf hpanic⟩

/-- A section that logs two blocks. -/
theorem log_space_suffices_twoBlocks :
    ∃ s, exec (step 2) (Sys.init fun _ => zeroBlock) (fillLog.take 13) = some s ∧
      s.lh.length ≤ LOGBLOCKS ∧ ∀ t buf data, BeforeLimit s (.logWrite t buf data) →
        stepE 2 s (.logWrite t buf data) ≠ .error (.panic .tooBig) := by
  have hcheck : runCheck (step 2) (fun s a => decide (BeforeLimit s a)) (fun _ => true)
      (Sys.init fun _ => zeroBlock) (fillLog.take 13) = true := by
    decide +kernel
  obtain ⟨hsteps, s, hrun, -⟩ := of_runCheck hcheck
  exact ⟨s, hrun, log_space_suffices (hsteps.mono fun _ _ => of_decide_eq_true) hrun⟩

end Xv6.Log
