import Xv6.Bio.Effect
import Xv6.Log.System

/-!
# Sections of the log

* `onCache_ok`, `bget_ok`, `acquire_ok`, `bwrite_ok`, `beginOp_ok`, `logWrite_ok`,
  `endOp_ok`, `commitTick_ok`: what each function did when it returned.
* `CacheStep`, `stepE_cases`: the kinds of steps.
* `Control`: which threads are inside a section, and which one commits.
* `Control.beginOp`, `Control.logWrite`, `Control.endOp`, `Control.commit`: how the
  steps change it.
-/

namespace Xv6.Log

open Xv6.Bio Xv6.Lib.Run

variable {start : Nat} {s s' : Sys} {t buf : Nat} {data : Block}

/-! ## What the functions do -/

theorem onCache_ok {a : Bio.Act} (h : s.onCache a = .ok s') :
    ∃ cache, Bio.step s.cache a = some cache ∧ s' = { s with cache := cache } := by
  unfold Sys.onCache at h
  split at h
  · next cache hstep =>
    cases h
    exact ⟨cache, hstep, rfl⟩
  · cases h

theorem onCache_error {a : Bio.Act} {e : Stop} (h : s.onCache a = .error e) : e = .disabled := by
  unfold Sys.onCache at h
  split at h
  · cases h
  · cases h
    rfl

theorem bget_ok {blockno : Nat} (h : s.bget t blockno = .ok (buf, s')) :
    ∃ bc cache, s.cache.bc.bget ROOTDEV blockno = .ok (buf, bc) ∧
      Bio.step s.cache (.bget t ROOTDEV blockno) = some cache ∧ s' = { s with cache := cache } := by
  unfold Sys.bget at h
  split at h
  · next b bc hget =>
    obtain ⟨s₁, hcache, hret⟩ := bind_eq_ok h
    obtain ⟨cache, hstep, rfl⟩ := onCache_ok hcache
    cases hret
    exact ⟨bc, cache, hget, hstep, rfl⟩
  · cases h
  · cases h

theorem acquire_ok (h : s.acquire t buf = .ok s') :
    ∃ cache, Acquired s.cache cache t buf (s.disk (s.cache.bc.bufs buf).blockno) ∧
      (CacheInv s.cache → CacheInv cache) ∧ s' = { s with cache := cache } := by
  obtain ⟨s₁, hacq, hfill⟩ := bind_eq_ok h
  obtain ⟨c₁, hstep₁, rfl⟩ := onCache_ok hacq
  obtain ⟨c₂, hstep₂, rfl⟩ := onCache_ok hfill
  have hblockno : (c₁.bc.bufs buf).blockno = (s.cache.bc.bufs buf).blockno := by
    obtain ⟨-, rfl⟩ := of_guard hstep₁
    dsimp only
    rw [Bcache.set_self]
  rw [← hblockno]
  exact ⟨c₂, step_acquire_fill hstep₁ hstep₂,
    fun hinv => cacheInv_step (cacheInv_step hinv hstep₁) hstep₂, rfl⟩

theorem bwrite_ok (h : s.bwrite t buf data = .ok s') :
    ∃ cache, Bio.step s.cache (.store t buf data) = some cache ∧ s' = { s with
      cache := cache
      disk := Function.update s.disk (s.cache.bc.bufs buf).blockno data } := by
  obtain ⟨s₁, hstore, hret⟩ := bind_eq_ok h
  obtain ⟨cache, hstep, rfl⟩ := onCache_ok hstore
  cases hret
  refine ⟨cache, hstep, ?_⟩
  rw [(step_store hstep).blockno]

theorem beginOp_ok (h : beginOp s t = .ok s') :
    s.pcs t = .outside ∧ s.committing = false ∧
      s.lh.length + (s.outstanding + 1) * MAXOPBLOCKS ≤ LOGBLOCKS ∧
      s' = { s with outstanding := s.outstanding + 1 }.setPc t (.inside []) := by
  unfold beginOp at h
  split at h
  · cases h
  · next hpc =>
    split at h
    · cases h
    · next hcommitting =>
      split at h
      · cases h
      · next hroom =>
        cases h
        exact ⟨not_not.mp hpc, Bool.eq_false_iff.mpr hcommitting, Nat.le_of_not_lt hroom, rfl⟩

/-- `log_write` absorbs the write, or adds the block and pins its buffer. -/
theorem logWrite_ok (h : logWrite s t buf data = .ok s') :
    ∃ logged cache, s.pcs t = .inside logged ∧
      Bio.step s.cache (.store t buf data) = some cache ∧ s.lh.length < LOGBLOCKS ∧
      let blockno := (s.cache.bc.bufs buf).blockno
      (blockno ∈ s.lh ∧
        s' = { s with cache := cache }.setPc t (.inside (logged.insert blockno))) ∨
      (blockno ∉ s.lh ∧ ∃ pinned, Bio.step cache (.bpin buf) = some pinned ∧
        s' = { s with cache := pinned, lh := s.lh ++ [blockno] }.setPc t
          (.inside (logged.insert blockno))) := by
  unfold logWrite at h
  split at h
  · next logged hpc =>
    obtain ⟨s₁, hstore, h⟩ := bind_eq_ok h
    obtain ⟨cache, hstep, rfl⟩ := onCache_ok hstore
    refine ⟨logged, cache, hpc, hstep, ?_⟩
    dsimp only at h
    rw [(step_store hstep).blockno] at h
    split at h
    · cases h
    · next hroom =>
      refine ⟨Nat.lt_of_not_le hroom, ?_⟩
      split at h
      · cases h
      · split at h
        · next hmem =>
          cases h
          exact .inl ⟨hmem, rfl⟩
        · next hmem =>
          obtain ⟨s₂, hpin, h⟩ := bind_eq_ok h
          obtain ⟨pinned, hstep', rfl⟩ := onCache_ok hpin
          cases h
          exact .inr ⟨hmem, pinned, hstep', rfl⟩
  · cases h

theorem endOp_ok (h : endOp s t = .ok s') :
    ∃ logged, s.pcs t = .inside logged ∧ s.committing = false ∧
      s' = if s.outstanding - 1 = 0 then
          { s with outstanding := s.outstanding - 1, committing := true }.setPc t
            (.commit Phase.start.enter)
        else { s with outstanding := s.outstanding - 1 }.setPc t .outside := by
  unfold endOp at h
  split at h
  · next logged hpc =>
    dsimp only at h
    split at h
    · cases h
    · next hcommitting =>
      refine ⟨logged, hpc, Bool.eq_false_iff.mpr hcommitting, ?_⟩
      split at h
      · next hlast =>
        cases h
        rw [if_pos hlast]
      · next hlast =>
        cases h
        rw [if_neg hlast]
  · cases h

/-- A step inside `commit` ends a phase or runs the next instruction. -/
theorem commitTick_ok (h : commitTick start s t = .ok s') :
    ∃ c, s.pcs t = .commit c ∧
      (c.code = [] ∧ s' = nextPhase s t c.phase ∨
        ∃ i rest s₁ c₁, c.code = i :: rest ∧
          runInstr start s t { c with code := rest } i = .ok (s₁, c₁) ∧
          s' = s₁.setPc t (.commit c₁)) := by
  unfold commitTick at h
  split at h
  · next c hpc =>
    refine ⟨c, hpc, ?_⟩
    split at h
    · next hcode =>
      cases h
      exact .inl ⟨hcode, rfl⟩
    · next i rest hcode =>
      obtain ⟨⟨s₁, c₁⟩, hrun, h⟩ := bind_eq_ok h
      cases h
      exact .inr ⟨i, rest, s₁, c₁, hcode, hrun, rfl⟩
  · cases h

/-- An instruction changes the cache, the disk and the registers. -/
theorem runInstr_ok {c c' : Committer} {i : Instr} (h : runInstr start s t c i = .ok (s', c')) :
    ∃ cache disk, s' = { s with cache := cache, disk := disk } := by
  cases i with
  | bget r ref =>
    obtain ⟨⟨b, s₁⟩, hget, h⟩ := bind_eq_ok h
    obtain ⟨-, cache, -, -, rfl⟩ := bget_ok hget
    cases h
    exact ⟨cache, s.disk, rfl⟩
  | acquire r =>
    obtain ⟨s₁, hacq, h⟩ := bind_eq_ok h
    obtain ⟨cache, -, -, rfl⟩ := acquire_ok hacq
    cases h
    exact ⟨cache, s.disk, rfl⟩
  | writeLog | writeHead | install =>
    obtain ⟨s₁, hwrite, h⟩ := bind_eq_ok h
    obtain ⟨cache, -, rfl⟩ := bwrite_ok hwrite
    cases h
    exact ⟨cache, _, rfl⟩
  | bunpin r | unlock r | brelse r =>
    obtain ⟨s₁, hcache, h⟩ := bind_eq_ok h
    obtain ⟨cache, -, rfl⟩ := onCache_ok hcache
    cases h
    exact ⟨cache, s.disk, rfl⟩

theorem stepE_of_step {a : Act} (h : step start s a = some s') : stepE start s a = .ok s' := by
  unfold step at h
  cases hstep : stepE start s a with
  | error e =>
    rw [hstep] at h
    cases h
  | ok u =>
    rw [hstep] at h
    exact congrArg Except.ok (Option.some.inj h)

/-- The panic that stops a step. -/
def panicOf : Except Stop Sys → Option Panic
  | .error (.panic p) => some p
  | _ => none

theorem eq_of_panicOf {x : Except Stop Sys} {p : Panic} (h : panicOf x = some p) :
    x = .error (.panic p) := by
  unfold panicOf at h
  split at h
  · cases h
    rfl
  · cases h

/-- A step outside `commit` that changes the cache only. -/
inductive CacheStep (start : Nat) (s : Sys) (cache : Cache) : Act → Prop
  | bget {t blockno : Nat} (hout : ¬ InLog start blockno) (huint : blockno < 2 ^ 32)
      (hstep : Bio.step s.cache (.bget t ROOTDEV blockno) = some cache) :
      CacheStep start s cache (.bget t blockno)
  | acquire {t buf : Nat}
      (hacq : Acquired s.cache cache t buf (s.disk (s.cache.bc.bufs buf).blockno))
      (hinv : CacheInv s.cache → CacheInv cache) : CacheStep start s cache (.acquire t buf)
  | unlock {t buf : Nat} (hstep : Bio.step s.cache (.unlock t buf) = some cache) :
      CacheStep start s cache (.unlock t buf)
  | brelse {t buf : Nat} (hstep : Bio.step s.cache (.brelse t buf) = some cache) :
      CacheStep start s cache (.brelse t buf)

/-- The thread of an action. -/
def Act.tid : Act → Nat
  | .beginOp t | .bget t _ | .acquire t _ | .logWrite t _ _ | .unlock t _ | .brelse t _ | .endOp t
  | .commit t => t

/-- Each step is one of the functions of the log or a step of the cache. -/
theorem stepE_cases {a : Act} (h : stepE start s a = .ok s') :
    (∃ t, a = .beginOp t ∧ beginOp s t = .ok s') ∨
    (∃ t buf data, a = .logWrite t buf data ∧ logWrite s t buf data = .ok s') ∨
    (∃ t, a = .endOp t ∧ endOp s t = .ok s') ∨
    (∃ t, a = .commit t ∧ commitTick start s t = .ok s') ∨
    s.Free a.tid ∧ ∃ cache, CacheStep start s cache a ∧ s' = { s with cache := cache } := by
  cases a with
  | beginOp t => exact .inl ⟨t, rfl, h⟩
  | logWrite t buf data => exact .inr (.inl ⟨t, buf, data, rfl, h⟩)
  | endOp t => exact .inr (.inr (.inl ⟨t, rfl, h⟩))
  | commit t => exact .inr (.inr (.inr (.inl ⟨t, rfl, h⟩)))
  | bget t blockno =>
    unfold stepE at h
    dsimp only at h
    split at h
    · next hguard =>
      obtain ⟨⟨b, s₁⟩, hget, hret⟩ := bind_eq_ok h
      obtain ⟨-, cache, -, hstep, rfl⟩ := bget_ok hget
      cases hret
      exact .inr (.inr (.inr (.inr ⟨hguard.1, cache, .bget hguard.2.1 hguard.2.2 hstep, rfl⟩)))
    · cases h
  | acquire t buf =>
    unfold stepE at h
    dsimp only at h
    split at h
    · next hfree =>
      obtain ⟨cache, hacq, hinv, rfl⟩ := acquire_ok h
      exact .inr (.inr (.inr (.inr ⟨hfree, cache, .acquire hacq hinv, rfl⟩)))
    · cases h
  | unlock t buf =>
    unfold stepE at h
    dsimp only at h
    split at h
    · next hfree =>
      obtain ⟨cache, hstep, rfl⟩ := onCache_ok h
      exact .inr (.inr (.inr (.inr ⟨hfree, cache, .unlock hstep, rfl⟩)))
    · cases h
  | brelse t buf =>
    unfold stepE at h
    dsimp only at h
    split at h
    · next hfree =>
      obtain ⟨cache, hstep, rfl⟩ := onCache_ok h
      exact .inr (.inr (.inr (.inr ⟨hfree, cache, .brelse hstep, rfl⟩)))
    · cases h

/-! ## Who is where -/

/-- The threads of `running` are inside a section, and `who` commits. -/
structure Control (s : Sys) (running : List Nat) (who : Option Nat) : Prop where
  nodup : running.Nodup
  inside : ∀ t, t ∈ running ↔ ∃ logged, s.pcs t = .inside logged
  outstanding : s.outstanding = running.length
  committer : ∀ t, who = some t ↔ ∃ c, s.pcs t = .commit c
  committing : s.committing = who.isSome
  alone : ∀ t, who = some t → running = []

variable {running : List Nat} {who : Option Nat}

theorem Control.init (disk : Disk) : Control (Sys.init disk) [] none where
  nodup := List.nodup_nil
  inside := fun _ => ⟨fun h => absurd h List.not_mem_nil, fun ⟨_, h⟩ => nomatch h⟩
  outstanding := rfl
  committer := fun _ => ⟨fun h => (nomatch h), fun ⟨_, h⟩ => (nomatch h)⟩
  committing := rfl
  alone := fun _ h => nomatch h

theorem Control.who_eq_none (h : Control s running who) (hflag : s.committing = false) :
    who = none := by
  cases who with
  | none => rfl
  | some t =>
    have := h.committing
    rw [hflag] at this
    cases this

/-- Steps that keep the flags and the kind of place where each thread is. -/
theorem Control.congr (h : Control s running who) (hpcs : ∀ t,
      ((∃ logged, s'.pcs t = .inside logged) ↔ ∃ logged, s.pcs t = .inside logged) ∧
      ((∃ c, s'.pcs t = .commit c) ↔ ∃ c, s.pcs t = .commit c))
    (houtstanding : s'.outstanding = s.outstanding) (hcommitting : s'.committing = s.committing) :
    Control s' running who where
  nodup := h.nodup
  inside := fun t => (h.inside t).trans (hpcs t).1.symm
  outstanding := houtstanding.trans h.outstanding
  committer := fun t => (h.committer t).trans (hpcs t).2.symm
  committing := hcommitting.trans h.committing
  alone := h.alone

theorem Control.same (h : Control s running who) (hpcs : s'.pcs = s.pcs)
    (houtstanding : s'.outstanding = s.outstanding) (hcommitting : s'.committing = s.committing) :
    Control s' running who := by
  refine h.congr (fun t => ?_) houtstanding hcommitting
  rw [hpcs]
  exact ⟨Iff.rfl, Iff.rfl⟩

theorem setPc_self {pc : Pc} : (s.setPc t pc).pcs t = pc :=
  Function.update_self ..

theorem setPc_of_ne {pc : Pc} {t' : Nat} (hne : t' ≠ t) : (s.setPc t pc).pcs t' = s.pcs t' :=
  Function.update_of_ne hne ..

/-- Nobody commits while `t` is elsewhere. -/
theorem Control.committer_setPc (h : Control s running none) {pc : Pc} (hpc : ∀ c, pc ≠ .commit c)
    (x : Nat) : none = some x ↔ ∃ c, (s.setPc t pc).pcs x = .commit c := by
  by_cases hx : x = t
  · subst hx
    rw [setPc_self]
    exact ⟨fun hc => (nomatch hc), fun ⟨c, hc⟩ => absurd hc (hpc c)⟩
  · rw [setPc_of_ne hx]
    exact h.committer x

theorem Control.beginOp (h : Control s running who) (hbegin : beginOp s t = .ok s') :
    who = none ∧ t ∉ running ∧ Control s' (t :: running) none := by
  obtain ⟨hpc, hflag, -, rfl⟩ := beginOp_ok hbegin
  have hwho := h.who_eq_none hflag
  subst hwho
  have hnot : t ∉ running := by
    rw [h.inside, hpc]
    rintro ⟨_, hc⟩
    cases hc
  refine ⟨rfl, hnot, List.nodup_cons.mpr ⟨hnot, h.nodup⟩, fun x => ?_, ?_, fun x => ?_,
    h.committing, fun x hx => ?_⟩
  · by_cases hx : x = t
    · subst hx
      rw [setPc_self]
      exact ⟨fun _ => ⟨_, rfl⟩, fun _ => List.mem_cons_self⟩
    · rw [setPc_of_ne hx, List.mem_cons, h.inside]
      exact or_iff_right hx
  · show s.outstanding + 1 = _
    rw [h.outstanding, List.length_cons]
  · exact h.committer_setPc (fun _ hc => by cases hc) x
  · cases hx

theorem Control.logWrite (h : Control s running who) (hwrite : logWrite s t buf data = .ok s') :
    who = none ∧ t ∈ running ∧ Control s' running none := by
  obtain ⟨logged, cache, hpc, -, -, hcases⟩ := logWrite_ok hwrite
  have hmem : t ∈ running := (h.inside t).mpr ⟨logged, hpc⟩
  have hwho : who = none := by
    cases who with
    | none => rfl
    | some t' =>
      rw [h.alone t' rfl] at hmem
      cases hmem
  subst hwho
  refine ⟨rfl, hmem, ?_⟩
  have hinside : ∀ (u : Sys) (logged' : List Nat), u.pcs = s.pcs → ∀ x,
      ((∃ l, (u.setPc t (.inside logged')).pcs x = .inside l) ↔ ∃ l, s.pcs x = .inside l) ∧
      ((∃ c, (u.setPc t (.inside logged')).pcs x = .commit c) ↔ ∃ c, s.pcs x = .commit c) := by
    intro u logged' hu x
    by_cases hx : x = t
    · subst hx
      rw [setPc_self, hpc]
      exact ⟨⟨fun _ => ⟨_, rfl⟩, fun _ => ⟨_, rfl⟩⟩, fun ⟨_, hc⟩ => (nomatch hc),
        fun ⟨_, hc⟩ => (nomatch hc)⟩
    · rw [setPc_of_ne hx, hu]
      exact ⟨Iff.rfl, Iff.rfl⟩
  rcases hcases with ⟨-, rfl⟩ | ⟨-, pinned, -, rfl⟩
  · exact h.congr (hinside { s with cache := cache } _ rfl) rfl rfl
  · exact h.congr (hinside { s with cache := pinned, lh := _ } _ rfl) rfl rfl

theorem Control.endOp (h : Control s running who) (hend : endOp s t = .ok s') :
    who = none ∧ t ∈ running ∧
      Control s' (running.erase t) (if running.erase t = [] then some t else none) := by
  obtain ⟨logged, hpc, hflag, hs'⟩ := endOp_ok hend
  have hwho := h.who_eq_none hflag
  subst hwho
  have hmem : t ∈ running := (h.inside t).mpr ⟨logged, hpc⟩
  have hlen : s.outstanding - 1 = (running.erase t).length := by
    rw [h.outstanding, List.length_erase_of_mem hmem]
  have hlast : s.outstanding - 1 = 0 ↔ running.erase t = [] := by
    rw [hlen]
    exact List.length_eq_zero_iff
  have hinside : ∀ x, x ≠ t → (x ∈ running.erase t ↔ ∃ logged, s.pcs x = .inside logged) := by
    intro x hx
    rw [List.mem_erase_of_ne hx]
    exact h.inside x
  have hnot : t ∉ running.erase t := h.nodup.not_mem_erase
  refine ⟨rfl, hmem, ?_⟩
  by_cases hnil : running.erase t = []
  · rw [if_pos hnil]
    rw [if_pos (hlast.mpr hnil)] at hs'
    subst hs'
    refine ⟨h.nodup.erase t, fun x => ?_, hlen, fun x => ?_, rfl, fun _ _ => hnil⟩
    · by_cases hx : x = t
      · subst hx
        rw [setPc_self]
        exact ⟨fun hc => absurd hc hnot, fun ⟨_, hc⟩ => (nomatch hc)⟩
      · rw [setPc_of_ne hx]
        exact hinside x hx
    · by_cases hx : x = t
      · subst hx
        rw [setPc_self]
        exact ⟨fun _ => ⟨_, rfl⟩, fun _ => rfl⟩
      · rw [setPc_of_ne hx, Option.some.injEq]
        exact ⟨fun hc => absurd hc.symm hx, fun hc => (nomatch (h.committer x).mpr hc)⟩
  · rw [if_neg hnil]
    rw [if_neg fun hc => hnil (hlast.mp hc)] at hs'
    subst hs'
    refine ⟨h.nodup.erase t, fun x => ?_, hlen, fun x => ?_, h.committing, fun x hx => ?_⟩
    · by_cases hx : x = t
      · subst hx
        rw [setPc_self]
        exact ⟨fun hc => absurd hc hnot, fun ⟨_, hc⟩ => (nomatch hc)⟩
      · rw [setPc_of_ne hx]
        exact hinside x hx
    · exact h.committer_setPc (fun _ hc => by cases hc) x
    · cases hx

/-- Inside `commit` a thread stays there. -/
theorem Control.stay (h : Control s running (some t)) {u : Sys} {c : Committer}
    (hpcs : u.pcs = s.pcs) (houtstanding : u.outstanding = s.outstanding)
    (hcommitting : u.committing = s.committing) :
    Control (u.setPc t (.commit c)) running (some t) := by
  obtain ⟨c₀, hpc⟩ := (h.committer t).mp rfl
  refine h.congr (fun x => ?_) houtstanding hcommitting
  by_cases hx : x = t
  · subst hx
    rw [setPc_self, hpc]
    exact ⟨⟨fun ⟨_, hc⟩ => (nomatch hc), fun ⟨_, hc⟩ => (nomatch hc)⟩, fun _ => ⟨_, rfl⟩,
      fun _ => ⟨_, rfl⟩⟩
  · rw [setPc_of_ne hx, hpcs]
    exact ⟨Iff.rfl, Iff.rfl⟩

theorem Control.finish (h : Control s running (some t)) :
    Control ({ s with committing := false }.setPc t .outside) running none := by
  obtain ⟨c₀, hpc⟩ := (h.committer t).mp rfl
  refine ⟨h.nodup, fun x => ?_, h.outstanding, fun x => ?_, rfl, fun x hx => (nomatch hx)⟩
  · by_cases hx : x = t
    · subst hx
      rw [setPc_self, h.inside, hpc]
      exact ⟨fun ⟨_, hc⟩ => (nomatch hc), fun ⟨_, hc⟩ => (nomatch hc)⟩
    · rw [setPc_of_ne hx]
      exact h.inside x
  · by_cases hx : x = t
    · subst hx
      rw [setPc_self]
      exact ⟨fun hc => (nomatch hc), fun ⟨_, hc⟩ => (nomatch hc)⟩
    · rw [setPc_of_ne hx]
      refine ⟨fun hc => (nomatch hc), fun hc => ?_⟩
      have := (h.committer x).mpr hc
      exact absurd (Option.some.inj this).symm hx

theorem Control.who_of_commit (h : Control s running who) {c : Committer}
    (hpc : s.pcs t = .commit c) : who = some t :=
  (h.committer t).mpr ⟨c, hpc⟩

end Xv6.Log
