import Xv6.Sched.Switch

/-!
# A process runs on one CPU

Whoever changes the state of a process holds its lock until its context is
saved, so nobody sees the process in between.

* `Pc.slot`, `Pc.proc`, `Pc.holds`: the slot a CPU works for, what `c->proc` is
  there, and the lock the CPU holds.
* `At`, `Resting`: a slot while a CPU works for it and while none does.
* `Core`, `Children`, `Inv`: the invariant.  `Core.move` is for the steps of a CPU
  with its own slot, `Core.idle` for the scans of `scheduler` and `Core.setSlot`
  for the sections that change somebody else's slot.
* `inv_step` and `one_cpu_per_process`.
-/

namespace Xv6.Switch

open Xv6.Lib.Run
open Xv6.ProcTable (Oracle forkSection_cases)
open Function (update update_of_ne update_self update_eq_self)

variable {pc : Pc} {s : Slot} {p : Proc} {k : Cpu} {child : Nat → Option Nat} {r : Resume}

/-! ## What a CPU works for -/

namespace Pc

/-- The slot the CPU works for. -/
def slot : Pc → Option Nat
  | .dispatched i | .thread i _ | .back i | .cleared i | .stopped i => some i
  | .roundStart | .firstPass _ _ | .secondPass _ _ _ | .wfi => none

/-- What `c->proc` is. -/
def proc : Pc → Option Nat
  | .cleared _ => none
  | pc => pc.slot

/-- The slot whose lock the CPU holds. -/
def holds : Pc → Option Nat
  | .thread _ .running | .stopped _ => none
  | pc => pc.slot

theorem slot_of_proc {i : Nat} (h : pc.proc = some i) : pc.slot = some i := by
  cases pc <;> first | exact h | cases h

theorem slot_of_holds {i : Nat} (h : pc.holds = some i) : pc.slot = some i := by
  cases pc with
  | thread j t => cases t <;> first | exact h | cases h
  | _ => first | exact h | cases h

end Pc

/-- The state in which a thread enters `sched`. -/
def Resume.state : Resume → ProcState
  | .yield | .forkret => .RUNNABLE
  | .sleep => .SLEEPING
  | .exit => .ZOMBIE

/-- The process does not execute, and its context is complete if there is a
process. -/
structure Resting (s : Slot) : Prop where
  state : s.proc.state ≠ .RUNNING
  saved : s.proc.state ≠ .UNUSED → ∃ r, s.context = some r ∧ (r = .exit → s.proc.state = .ZOMBIE)

/-- The process executes. -/
structure Executing (s : Slot) : Prop where
  state : s.proc.state = .RUNNING
  context : s.context = none

/-- The slot that a CPU works for. -/
def At (s : Slot) : Pc → Prop
  | .dispatched _ => s.proc.state = .RUNNING ∧ ∃ r, s.context = some r ∧ r ≠ .exit
  | .thread _ (.resumed r) => Executing s ∧ r ≠ .exit
  | .thread _ (.leaving r) => s.context = none ∧ s.proc.state = r.state
  | .thread _ .running | .stopped _ => Executing s
  | .back _ | .cleared _ => Resting s ∧ s.proc.state ≠ .UNUSED ∧ s.proc.state ≠ .USED
  | .roundStart | .firstPass _ _ | .secondPass _ _ _ | .wfi => True

theorem Resting.congr {t : Slot} (h : Resting s) (hstate : t.proc.state = s.proc.state)
    (hcontext : t.context = s.context) : Resting t := by
  constructor
  · rw [hstate]
    exact h.state
  · rw [hstate, hcontext]
    exact h.saved

theorem At.congr {t : Slot} (h : At s pc) (hstate : t.proc.state = s.proc.state)
    (hcontext : t.context = s.context) : At t pc := by
  have hexec : Executing s → Executing t := fun h =>
    ⟨hstate.trans h.state, hcontext.trans h.context⟩
  cases pc with
  | thread i u =>
    cases u with
    | resumed r => exact ⟨hexec h.1, h.2⟩
    | running => exact hexec h
    | leaving r => exact ⟨hcontext.trans h.1, hstate.trans h.2⟩
  | dispatched i =>
    unfold At at h ⊢
    rwa [hstate, hcontext]
  | back i | cleared i =>
    refine ⟨h.1.congr hstate hcontext, ?_⟩
    rw [hstate]
    exact h.2
  | stopped i => exact hexec h
  | _ => trivial

/-- A CPU that works for a slot without its lock executes the process. -/
theorem At.executing {i : Nat} (h : At s pc) (hslot : pc.slot = some i)
    (hholds : pc.holds ≠ some i) : Executing s := by
  cases pc with
  | thread j t =>
    cases t with
    | running => exact h
    | _ => exact absurd hslot hholds
  | stopped j => exact h
  | dispatched j | back j | cleared j => exact absurd hslot hholds
  | _ => cases hslot

/-! ## The invariant -/

/-- What holds of the slots, the locks and the CPUs. -/
structure Core (slots : Nat → Slot) (cpus : Nat → Cpu) : Prop where
  proc : ∀ c, (cpus c).proc = (cpus c).pc.proc
  lock : ∀ c i, (slots i).lock = some c ↔ (cpus c).pc.holds = some i
  stage : ∀ c i, (cpus c).pc.slot = some i → At (slots i) (cpus c).pc
  unique : ∀ c c' i, (cpus c).pc.slot = some i → (cpus c').pc.slot = some i → c = c'
  resting : ∀ i, (∀ c, (cpus c).pc.slot ≠ some i) → Resting (slots i)

/-- The unfinished children are `USED` and have one parent each. -/
structure Children (slots : Nat → Slot) (child : Nat → Option Nat) : Prop where
  used : ∀ i j, child i = some j → (slots j).proc.state = .USED
  unique : ∀ i i' j, child i = some j → child i' = some j → i = i'

structure Inv (m : Machine) : Prop where
  core : Core m.slots m.cpus
  children : Children m.slots m.child

section Core

variable {slots : Nat → Slot} {cpus : Nat → Cpu} (h : Core slots cpus)

include h

theorem Core.executing {c i : Nat} (hslot : (cpus c).pc.slot = some i)
    (hlock : (slots i).lock ≠ some c) : Executing (slots i) := by
  apply (h.stage c i hslot).executing hslot
  intro hholds
  exact hlock ((h.lock c i).mpr hholds)

/-- No CPU works for a process whose lock is free and that is not `RUNNING`. -/
theorem Core.off {i : Nat} (hlock : (slots i).lock = none)
    (hstate : (slots i).proc.state ≠ .RUNNING) (c : Nat) : (cpus c).pc.slot ≠ some i := by
  intro hslot
  apply hstate
  have hexec : Executing (slots i) := h.executing hslot (by simp [hlock])
  exact hexec.state

/-- A slot changes and keeps its lock. -/
theorem Core.setSlot {j : Nat} (hlock : s.lock = (slots j).lock)
    (hstage : ∀ c, (cpus c).pc.slot = some j → At s (cpus c).pc)
    (hresting : (∀ c, (cpus c).pc.slot ≠ some j) → Resting s) :
    Core (update slots j s) cpus := by
  refine ⟨h.proc, fun c i => ?_, fun c i hslot => ?_, h.unique, fun i hoff => ?_⟩
  all_goals
    rcases eq_or_ne i j with rfl | hne
    · rw [update_self]
      first
        | exact hlock ▸ h.lock c i
        | exact hstage c hslot
        | exact hresting hoff
    · rw [update_of_ne hne]
      first
        | exact h.lock c i
        | exact h.stage c i hslot
        | exact h.resting i hoff

/-- A slot changes in fields that do not matter here. -/
theorem Core.touch {j : Nat} (hstate : p.state = (slots j).proc.state) :
    Core (update slots j { slots j with proc := p }) cpus := by
  apply h.setSlot (s := { slots j with proc := p }) rfl
  · intro c hslot
    exact (h.stage c j hslot).congr hstate rfl
  · intro hoff
    exact (h.resting j hoff).congr hstate rfl

/-- A free slot changes that no CPU works for. -/
theorem Core.setOff {j : Nat} (hfree : (slots j).lock = none)
    (hstate : (slots j).proc.state ≠ .RUNNING) (hlock : s.lock = none) (hresting : Resting s) :
    Core (update slots j s) cpus := by
  apply h.setSlot (hlock.trans hfree.symm)
  · intro c hslot
    exact absurd hslot (h.off hfree hstate c)
  · intro _
    exact hresting

/-- A CPU goes on without working for a slot. -/
theorem Core.idle {c : Nat} (hold : (cpus c).pc.slot = none) (hnew : k.pc.slot = none)
    (hproc : k.proc = none) : Core slots (update cpus c k) := by
  have hkproc : k.pc.proc = none := by
    cases hk : k.pc.proc with
    | none => rfl
    | some i => rw [Pc.slot_of_proc hk] at hnew; cases hnew
  have hslot : ∀ c' i, (update cpus c k c').pc.slot = some i →
      c' ≠ c ∧ (cpus c').pc.slot = some i := by
    intro c' i hslot
    rcases eq_or_ne c' c with rfl | hne
    · rw [update_self, hnew] at hslot
      cases hslot
    · rw [update_of_ne hne] at hslot
      exact ⟨hne, hslot⟩
  refine ⟨fun c' => ?_, fun c' i => ?_, fun c' i hc' => ?_, fun c₁ c₂ i h₁ h₂ => ?_,
    fun i hoff => ?_⟩
  · rcases eq_or_ne c' c with rfl | hne
    · rw [update_self, hproc, hkproc]
    · rw [update_of_ne hne, h.proc]
  · rw [h.lock]
    rcases eq_or_ne c' c with rfl | hne
    · rw [update_self]
      constructor
      · intro hholds
        rw [Pc.slot_of_holds hholds] at hold
        cases hold
      · intro hholds
        rw [Pc.slot_of_holds hholds] at hnew
        cases hnew
    · rw [update_of_ne hne]
  · obtain ⟨hne, hc⟩ := hslot c' i hc'
    rw [update_of_ne hne]
    exact h.stage c' i hc
  · exact h.unique c₁ c₂ i (hslot c₁ i h₁).2 (hslot c₂ i h₂).2
  · apply h.resting
    intro c' hc'
    rcases eq_or_ne c' c with rfl | hne
    · rw [hold] at hc'
      cases hc'
    · apply hoff c'
      rw [update_of_ne hne]
      exact hc'

/-- A CPU goes on together with the slot it works for, or with a slot that no CPU
works for.  It holds the lock of the slot exactly when its new place says so. -/
theorem Core.move {c i : Nat}
    (hold : (cpus c).pc.slot = some i ∨
      (cpus c).pc.slot = none ∧ ∀ c', (cpus c').pc.slot ≠ some i)
    (hnew : k.pc.slot = some i ∨ k.pc.slot = none) (hproc : k.proc = k.pc.proc)
    (hlock : s.lock = k.pc.holds.map fun _ => c)
    (hstage : At s k.pc) (hresting : k.pc.slot = none → Resting s) :
    Core (update slots i s) (update cpus c k) := by
  have holdNe : ∀ j, (cpus c).pc.slot = some j → j = i := by
    intro j hj
    rcases hold with hold | ⟨hold, -⟩ <;> rw [hold] at hj <;> cases hj
    rfl
  have hnewNe : ∀ j, k.pc.slot = some j → j = i := by
    intro j hj
    rcases hnew with hnew | hnew <;> rw [hnew] at hj <;> cases hj
    rfl
  have hother : ∀ c', c' ≠ c → (cpus c').pc.slot ≠ some i := by
    intro c' hne hc'
    rcases hold with hold | ⟨-, hoff⟩
    · exact hne (h.unique c' c i hc' hold)
    · exact hoff c' hc'
  -- the other CPUs and the other slots do not see the step
  refine ⟨fun c' => ?_, fun c' j => ?_, fun c' j hc' => ?_, fun c₁ c₂ j h₁ h₂ => ?_,
    fun j hoff => ?_⟩
  · rcases eq_or_ne c' c with rfl | hne
    · rw [update_self, hproc]
    · rw [update_of_ne hne, h.proc]
  · rcases eq_or_ne j i with rfl | hj
    · have hheld : s.lock = some c' ↔ k.pc.holds = some j ∧ c = c' := by
        rw [hlock, Option.map_eq_some_iff]
        constructor
        · rintro ⟨l, hl, hc⟩
          exact ⟨hnewNe l (Pc.slot_of_holds hl) ▸ hl, hc⟩
        · rintro ⟨hl, hc⟩
          exact ⟨j, hl, hc⟩
      rw [update_self, hheld]
      rcases eq_or_ne c' c with rfl | hne
      · rw [update_self]
        exact and_iff_left rfl
      · rw [update_of_ne hne]
        constructor
        · intro hsome
          exact absurd hsome.2.symm hne
        · intro hholds
          exact absurd (Pc.slot_of_holds hholds) (hother c' hne)
    · rw [update_of_ne hj, h.lock]
      rcases eq_or_ne c' c with rfl | hne
      · rw [update_self]
        constructor
        · intro hholds
          exact absurd (holdNe j (Pc.slot_of_holds hholds)) hj
        · intro hholds
          exact absurd (hnewNe j (Pc.slot_of_holds hholds)) hj
      · rw [update_of_ne hne]
  · rcases eq_or_ne c' c with rfl | hne
    · rw [update_self] at hc' ⊢
      rw [hnewNe j hc', update_self]
      exact hstage
    · rw [update_of_ne hne] at hc' ⊢
      have hj : j ≠ i := fun hj => hother c' hne (hj ▸ hc')
      rw [update_of_ne hj]
      exact h.stage c' j hc'
  · have hc : ∀ c', c' ≠ c → (update cpus c k c').pc.slot = some j →
        (cpus c').pc.slot = some j ∧ j ≠ i := by
      intro c' hne hc'
      rw [update_of_ne hne] at hc'
      exact ⟨hc', fun hj => hother c' hne (hj ▸ hc')⟩
    have hself : (update cpus c k c).pc.slot = some j → j = i := by
      rw [update_self]
      exact hnewNe j
    rcases eq_or_ne c c₁ with rfl | hne₁ <;> rcases eq_or_ne c c₂ with rfl | hne₂
    · rfl
    · exact absurd (hself h₁) (hc c₂ hne₂.symm h₂).2
    · exact absurd (hself h₂) (hc c₁ hne₁.symm h₁).2
    · exact h.unique c₁ c₂ j (hc c₁ hne₁.symm h₁).1 (hc c₂ hne₂.symm h₂).1
  · rcases eq_or_ne j i with rfl | hj
    · rw [update_self]
      apply hresting
      have hc := hoff c
      rw [update_self] at hc
      exact hnew.resolve_left hc
    · rw [update_of_ne hj]
      apply h.resting
      intro c' hc'
      rcases eq_or_ne c' c with rfl | hne
      · exact hj (holdNe j hc')
      · apply hoff c'
        rw [update_of_ne hne]
        exact hc'

end Core

/-- A slot changes and stays `USED` if it was. -/
theorem Children.setSlot {slots : Nat → Slot} (h : Children slots child)
    {j : Nat} (hused : (slots j).proc.state = .USED → s.proc.state = .USED) :
    Children (update slots j s) child := by
  refine ⟨fun i k hk => ?_, h.unique⟩
  have hstate := h.used i k hk
  rcases eq_or_ne k j with rfl | hne
  · rw [update_self]
    exact hused hstate
  · rwa [update_of_ne hne]

/-- A new child, which no other `kfork` has. -/
theorem Children.add {slots : Nat → Slot} (h : Children slots child)
    {i j : Nat} (hused : (slots j).proc.state = .USED) (hnew : ∀ k, child k ≠ some j) :
    Children slots (update child i (some j)) := by
  refine ⟨fun k l hk => ?_, fun k k' l hk hk' => ?_⟩
  · rcases eq_or_ne k i with rfl | hne
    · rw [update_self] at hk
      cases hk
      exact hused
    · rw [update_of_ne hne] at hk
      exact h.used k l hk
  · rcases eq_or_ne i k with rfl | hne <;> rcases eq_or_ne i k' with rfl | hne'
    · rfl
    · rw [update_self] at hk
      rw [update_of_ne hne'.symm] at hk'
      exact absurd (hk'.trans hk.symm) (hnew k')
    · rw [update_self] at hk'
      rw [update_of_ne hne.symm] at hk
      exact absurd (hk.trans hk'.symm) (hnew k)
    · rw [update_of_ne hne.symm] at hk
      rw [update_of_ne hne'.symm] at hk'
      exact h.unique k k' l hk hk'

/-- A child is finished, and its slot changes. -/
theorem Children.finish {slots : Nat → Slot} (h : Children slots child)
    {i j : Nat} (hij : child i = some j) (s : Slot) :
    Children (update slots j s) (update child i none) := by
  have hother : ∀ k l, update child i none k = some l → child k = some l ∧ l ≠ j := by
    intro k l hk
    rcases eq_or_ne k i with rfl | hne
    · rw [update_self] at hk
      cases hk
    · rw [update_of_ne hne] at hk
      exact ⟨hk, fun hl => hne (h.unique k i j (hl ▸ hk) hij)⟩
  refine ⟨fun k l hk => ?_, fun k k' l hk hk' => ?_⟩
  · obtain ⟨hk, hne⟩ := hother k l hk
    rw [update_of_ne hne]
    exact h.used k l hk
  · exact h.unique k k' l (hother k l hk).1 (hother k' l hk').1

/-! ## The steps of a CPU -/

section Steps

variable {m : Machine} (h : Inv m) {c i : Nat}

include h

theorem Inv.proc_eq_none (hpc : (m.cpus c).pc.slot = none) : (m.cpus c).proc = none := by
  rw [h.core.proc c]
  cases hproc : (m.cpus c).pc.proc with
  | none => rfl
  | some i =>
    rw [Pc.slot_of_proc hproc] at hpc
    cases hpc

theorem Inv.idle (hold : (m.cpus c).pc.slot = none) (hnew : pc.slot = none) :
    Inv (m.setPc c pc) :=
  ⟨h.core.idle hold hnew (h.proc_eq_none hold), h.children⟩

theorem Inv.dispatch (hold : (m.cpus c).pc.slot = none) (hlock : (m.slots i).lock = none)
    (hstate : (m.slots i).proc.state = .RUNNABLE) :
    Inv ((m.setSlot i { m.slots i with
      proc :=
  Xv6.dispatch (m.slots i).proc, lock := some c }).setCpu c ⟨some i, .dispatched i⟩) := by
  have hoff := h.core.off hlock (by simp [hstate])
  obtain ⟨r, hr, hexit⟩ := (h.core.resting i hoff).saved (by simp [hstate])
  have hne : r ≠ .exit := by
    intro heq
    have hzombie := hexit heq
    rw [hstate] at hzombie
    cases hzombie
  refine ⟨h.core.move (.inr ⟨hold, hoff⟩) (.inl rfl) rfl rfl ⟨rfl, r, hr, hne⟩
    (by simp [Pc.slot]), ?_⟩
  apply h.children.setSlot
  simp [hstate]

/-- The slot that CPU `c` works for. -/
theorem Inv.own (hpc : (m.cpus c).pc = pc) (hslot : pc.slot = some i) :
    At (m.slots i) pc ∧ (m.cpus c).proc = pc.proc := by
  subst hpc
  exact ⟨h.core.stage c i hslot, h.core.proc c⟩

theorem Inv.held (hpc : (m.cpus c).pc = pc) (hholds : pc.holds = some i) :
    (m.slots i).lock = some c := by
  subst hpc
  exact (h.core.lock c i).mpr hholds

/-- CPU `c` goes on with the slot it works for. -/
theorem Inv.move (hpc : (m.cpus c).pc = pc) (hslot : pc.slot = some i)
    (hnew : k.pc.slot = some i ∨ k.pc.slot = none) (hproc : k.proc = k.pc.proc)
    (hlock : s.lock = k.pc.holds.map fun _ => c) (hstage : At s k.pc)
    (hresting : k.pc.slot = none → Resting s)
    (hused : (m.slots i).proc.state = .USED → s.proc.state = .USED) :
    Inv ((m.setSlot i s).setCpu c k) := by
  subst hpc
  exact ⟨h.core.move (.inl hslot) hnew hproc hlock hstage hresting, h.children.setSlot hused⟩

theorem Inv.swtchTo (hpc : (m.cpus c).pc = .dispatched i) : Inv (m.swtchTo c i) := by
  obtain ⟨⟨hstate, r, hr, hexit⟩, hproc⟩ := h.own hpc rfl
  unfold Machine.swtchTo
  rw [hr]
  exact h.move hpc rfl (.inl rfl) hproc (h.held hpc rfl) ⟨⟨hstate, rfl⟩, hexit⟩ nofun id

theorem Inv.resume (hpc : (m.cpus c).pc = .thread i (.resumed r)) :
    Inv (m.resume c i r) := by
  obtain ⟨⟨hexec, hexit⟩, hproc⟩ := h.own hpc rfl
  cases r with
  | exit => exact absurd rfl hexit
  | yield | forkret =>
    exact h.move hpc rfl (.inl rfl) hproc rfl ⟨hexec.state, hexec.context⟩ nofun id
  | sleep => exact h.move hpc rfl (.inl rfl) hproc rfl ⟨hexec.state, hexec.context⟩ nofun id

/-- None of the checks of `sched` fails, and the context is saved. -/
theorem Inv.sched (hpc : (m.cpus c).pc = .thread i (.leaving r)) :
    Inv (m.sched c i r) := by
  obtain ⟨⟨-, hstate⟩, hproc⟩ := h.own hpc rfl
  have hlock := h.held hpc rfl
  have hleft : r.state ≠ .RUNNING ∧ r.state ≠ .UNUSED ∧ r.state ≠ .USED := by
    cases r <;> decide
  have hresting : Resting { m.slots i with context := some r } := by
    refine ⟨hstate ▸ hleft.1, fun _ => ⟨r, rfl, ?_⟩⟩
    rintro rfl
    exact hstate
  have hcheck : ¬((m.slots i).lock ≠ some c ∨ (m.slots i).proc.state = .RUNNING) := by
    rintro (hne | hrunning)
    · exact hne hlock
    · exact hleft.1 (hstate ▸ hrunning)
  have hproc' : (m.cpus c).proc = some i := hproc
  unfold Machine.sched
  rw [hproc']
  dsimp only
  rw [if_neg hcheck]
  exact h.move hpc rfl (.inl rfl) hproc hlock ⟨hresting, hstate ▸ hleft.2⟩ nofun id

theorem Inv.clear (hpc : (m.cpus c).pc = .back i) : Inv (m.setCpu c ⟨none, .cleared i⟩) := by
  obtain ⟨hstage, -⟩ := h.own hpc rfl
  have hmove :=
    h.move (k := ⟨none, .cleared i⟩) hpc rfl (.inl rfl) rfl (h.held hpc rfl) hstage nofun id
  rwa [Machine.setSlot, update_eq_self] at hmove

theorem Inv.release (hpc : (m.cpus c).pc = .cleared i) :
    Inv ((m.setSlot i { m.slots i with lock := none }).setPc c .roundStart) := by
  obtain ⟨⟨hresting, -⟩, hproc⟩ := h.own hpc rfl
  exact h.move hpc rfl (.inr rfl) hproc rfl trivial (fun _ => ⟨hresting.state, hresting.saved⟩) id

end Steps

theorem inv_tick {m m' : Machine} (h : Inv m) {c : Nat} {r : BitVec 32}
    (ht : tick m c r = some m') :
    Inv m' := by
  unfold tick at ht
  split at ht
  case h_1 hpc =>
    cases ht
    exact h.idle (by rw [hpc, Pc.slot]) rfl
  case h_2 i total hpc =>
    have hidle : (m.cpus c).pc.slot = none := by rw [hpc, Pc.slot]
    split at ht
    · obtain ⟨-, rfl⟩ := of_guard ht
      exact h.idle hidle rfl
    · split at ht <;> cases ht <;> exact h.idle hidle rfl
  case h_3 i counter winner hpc =>
    have hidle : (m.cpus c).pc.slot = none := by rw [hpc, Pc.slot]
    split at ht
    · obtain ⟨hlock, rfl⟩ := of_guard ht
      split
      · next hstate =>
        split
        · exact h.dispatch hidle hlock hstate
        · exact h.idle hidle rfl
      · exact h.idle hidle rfl
    · cases ht
      exact h.idle hidle rfl
  case h_4 hpc =>
    cases ht
    exact h.idle (by rw [hpc, Pc.slot]) rfl
  case h_5 i hpc =>
    cases ht
    exact h.swtchTo hpc
  case h_6 i r hpc =>
    cases ht
    exact h.resume hpc
  case h_7 i r hpc =>
    cases ht
    exact h.sched hpc
  case h_8 i hpc =>
    cases ht
    exact h.clear hpc
  case h_9 i hpc =>
    cases ht
    exact h.release hpc
  case h_10 => cases ht
  case h_11 => cases ht

/-! ## The sections of a process -/

theorem ksettickets_state {q : Proc} {number : BitVec 32}
    (h : Sched.ksettickets p number = some q) : q.state = p.state := by
  unfold Sched.ksettickets at h
  split at h <;> cases h
  rfl

section Calls

variable {m : Machine} (h : Inv m) {c i j : Nat}

include h

/-- The running process changes its state and enters `sched`. -/
theorem Inv.leave (hpc : (m.cpus c).pc = .thread i .running)
    (hp : p.state = r.state) : Inv (m.leave c i p r) := by
  obtain ⟨hexec, hproc⟩ := h.own hpc rfl
  refine h.move hpc rfl (.inl rfl) hproc rfl ⟨hexec.context, hp⟩ nofun ?_
  intro hused
  rw [hexec.state] at hused
  cases hused

/-- The running process panics. -/
theorem Inv.stop (hpc : (m.cpus c).pc = .thread i .running) : Inv (m.setPc c (.stopped i)) := by
  obtain ⟨hexec, hproc⟩ := h.own hpc rfl
  have hfree : (m.slots i).lock = none := by
    cases hlock : (m.slots i).lock with
    | none => rfl
    | some c' =>
      -- whoever held the lock would work for the slot
      have hholds := (h.core.lock c' i).mp hlock
      have hc := h.core.unique c' c i (Pc.slot_of_holds hholds) (by rw [hpc, Pc.slot])
      rw [hc, hpc] at hholds
      cases hholds
  have hmove :=
    h.move (k := { m.cpus c with pc := .stopped i }) hpc rfl (.inl rfl) hproc hfree hexec
    nofun id
  rwa [Machine.setSlot, update_eq_self] at hmove

/-- A section changes no state. -/
theorem Inv.touch (hstate : p.state = (m.slots j).proc.state) : Inv (m.setProc j p) := by
  refine ⟨h.core.touch hstate, h.children.setSlot ?_⟩
  intro hused
  exact hstate.trans hused

/-- A section changes the state of a process that does not run. -/
theorem Inv.setOff (hfree : (m.slots j).lock = none)
    (hold : (m.slots j).proc.state = .SLEEPING ∨ (m.slots j).proc.state = .ZOMBIE)
    (hnew : p.state = .RUNNABLE ∧ (m.slots j).proc.state = .SLEEPING ∨ p.state = .UNUSED) :
    Inv (m.setProc j p) := by
  have hstate : (m.slots j).proc.state ≠ .RUNNING := by
    intro hrunning
    simp [hrunning] at hold
  have hresting := h.core.resting j (h.core.off hfree hstate)
  refine ⟨h.core.setOff hfree hstate hfree ⟨?_, ?_⟩, h.children.setSlot ?_⟩
  · intro (hrunning : p.state = .RUNNING)
    simp [hrunning] at hnew
  · intro hunused
    obtain ⟨hp, hsleep⟩ := hnew.resolve_right hunused
    obtain ⟨r, hr, hexit⟩ := hresting.saved (by simp [hsleep])
    refine ⟨r, hr, fun heq => ?_⟩
    have hzombie := hexit heq
    rw [hsleep] at hzombie
    cases hzombie
  · intro hused
    simp [hused] at hold

theorem Inv.wakeupSlot (chan : Option Nat) (hfree : (m.slots j).lock = none) :
    Inv (m.setProc j (wakeupSlot chan (m.slots j).proc)) := by
  rcases ProcTable.wakeupSlot_eq chan (m.slots j).proc with heq | ⟨hsleep, heq⟩ <;> rw [heq]
  · exact h.touch rfl
  · exact h.setOff hfree (.inl hsleep) (.inl ⟨rfl, hsleep⟩)

theorem Inv.killSlot (hfree : (m.slots j).lock = none) :
    Inv (m.setProc j (killSlot (m.slots j).proc)) := by
  by_cases hsleep : (m.slots j).proc.state = .SLEEPING
  · exact h.setOff hfree (.inl hsleep) (.inl ⟨if_pos hsleep, hsleep⟩)
  · exact h.touch (if_neg hsleep)

/-- The new slot of `kfork` has the context that starts it at `forkret`. -/
theorem Inv.fork (o : Oracle) (hfree : (m.slots j).lock = none)
    (hunused : (m.slots j).proc.state = .UNUSED) (hchild : m.child i = none) :
    Inv (fork m o i j) := by
  have hstate : (m.slots j).proc.state ≠ .RUNNING := by simp [hunused]
  have hnochild : ∀ k, m.child k ≠ some j := by
    intro k hk
    have hused := h.children.used k j hk
    rw [hunused] at hused
    cases hused
  have hslot : ∀ s : Slot, Children (update m.slots j s) m.child := fun s =>
    h.children.setSlot (by simp [hunused])
  unfold Switch.fork
  rcases forkSection_cases o m.nextpid (m.slots i).proc (m.slots j).proc with
    ⟨q, hq, -⟩ | ⟨q, hq, hready, hused, -⟩ <;> rw [hq]
  · refine ⟨h.core.setOff hfree hstate hfree ⟨by simp [freeproc], by simp [freeproc]⟩, ?_⟩
    have hself : update m.child i none = m.child := by
      rw [← hchild, update_eq_self]
    show Children _ (update m.child i none)
    rw [hself]
    exact hslot _
  · refine ⟨h.core.setOff hfree hstate hfree ⟨by simp [hused], fun _ => ⟨.forkret, ?_, nofun⟩⟩, ?_⟩
    · simp [hready]
    · apply (hslot _).add _ hnochild
      rw [update_self]
      exact hused

theorem Inv.forkRunnable (hfree : (m.slots j).lock = none) (hchild : m.child i = some j) :
    Inv ((m.setProc j { (m.slots j).proc with state := .RUNNABLE }).setChild i none) := by
  have hused := h.children.used i j hchild
  have hstate : (m.slots j).proc.state ≠ .RUNNING := by simp [hused]
  have hresting := h.core.resting j (h.core.off hfree hstate)
  obtain ⟨r, hr, hexit⟩ := hresting.saved (by simp [hused])
  refine ⟨h.core.setOff hfree hstate hfree ⟨nofun, fun _ => ⟨r, hr, fun heq => ?_⟩⟩,
    h.children.finish hchild _⟩
  have hzombie := hexit heq
  rw [hused] at hzombie
  cases hzombie

end Calls

theorem inv_call {m m' : Machine} (h : Inv m) {c i : Nat} {call : Call}
    (hpc : (m.cpus c).pc = .thread i .running) (hs : callStep m c i call = some m') : Inv m' := by
  obtain ⟨hexec, hproc⟩ := h.own hpc rfl
  unfold callStep at hs
  dsimp only at hs
  split at hs
  case h_1 =>
    obtain ⟨-, rfl⟩ := of_guard hs
    exact h.leave hpc rfl
  case h_2 =>
    obtain ⟨-, rfl⟩ := of_guard hs
    exact h.leave hpc rfl
  case h_3 =>
    split at hs
    · -- panic("init exiting"): the process stops where it is
      cases hs
      exact h.stop hpc
    · obtain ⟨-, rfl⟩ := of_guard hs
      exact h.leave hpc rfl
  case h_4 number hchild =>
    split at hs
    · next p hp =>
      obtain ⟨-, rfl⟩ := of_guard hs
      exact h.touch (ksettickets_state hp)
    · cases hs
      exact h
  case h_5 pid j hchild =>
    obtain ⟨hfree, rfl⟩ := of_guard hs
    split
    · exact h.killSlot hfree
    · exact h
  case h_6 j hchild =>
    obtain ⟨hfree, rfl⟩ := of_guard hs
    split
    · next hzombie => exact h.setOff hfree (.inr hzombie) (.inr rfl)
    · exact h
  case h_7 o j hchild =>
    obtain ⟨hfree, rfl⟩ := of_guard hs
    split
    · next hunused => exact h.fork o hfree hunused hchild
    · exact h
  case h_8 j hchild =>
    obtain ⟨hfree, rfl⟩ := of_guard hs
    exact h.forkRunnable hfree hchild
  case h_9 => cases hs

theorem inv_step (m : Machine) (a : Act) (m' : Machine) (h : Inv m) (hs : step m a = some m') :
    Inv m' := by
  cases a with
  | tick c r => exact inv_tick h hs
  | call c call =>
    simp only [step] at hs
    split at hs
    · next k i hpc hproc =>
      have hk : some k = some i := by
        rw [← hproc, h.core.proc, hpc]
        rfl
      cases hk
      exact inv_call h hpc hs
    · cases hs
  | wakeup c chan j =>
    simp only [step] at hs
    split at hs
    · obtain ⟨hfree, rfl⟩ := of_guard hs
      exact h.wakeupSlot (some chan) hfree
    · cases hs

theorem inv_init (trapframe pagetable root : Nat) : Inv (.init trapframe pagetable root) := by
  refine ⟨⟨fun _ => rfl, fun c i => ?_, nofun, nofun, fun i _ => ?_⟩, nofun, nofun⟩
  all_goals
    unfold Machine.init
    rcases eq_or_ne i 0 with rfl | hne
  · simp [Pc.holds, Pc.slot]
  · simp [hne, Pc.holds, Pc.slot]
  · exact ⟨nofun, fun _ => ⟨.forkret, rfl, nofun⟩⟩
  · dsimp only
    rw [update_of_ne hne]
    exact ⟨nofun, fun hunused => absurd rfl hunused⟩

/-- In every state that the CPUs reach, a process is `c->proc` of one CPU at most.
While its lock is free, a process that is `RUNNABLE`, `SLEEPING` or `ZOMBIE` is
`c->proc` of no CPU and its context is complete, and a `RUNNING` one is
`c->proc` of exactly one. -/
theorem one_cpu_per_process {trapframe pagetable root : Nat} {as : List Act} {m : Machine}
    (hrun : exec step (.init trapframe pagetable root) as = some m) (i : Nat) :
    (∀ c c', (m.cpus c).proc = some i → (m.cpus c').proc = some i → c = c') ∧
      ((m.slots i).lock = none →
        ((m.slots i).proc.state ∈ [ProcState.RUNNABLE, .SLEEPING, .ZOMBIE] →
          (∀ c, (m.cpus c).proc ≠ some i) ∧ (m.slots i).context ≠ none) ∧
        ((m.slots i).proc.state = .RUNNING → ∃! c, (m.cpus c).proc = some i)) := by
  have h := inv_of_run inv_step (inv_init trapframe pagetable root) hrun
  have hslot : ∀ c, (m.cpus c).proc = some i → (m.cpus c).pc.slot = some i := by
    intro c hc
    rw [h.core.proc] at hc
    exact Pc.slot_of_proc hc
  have hunique : ∀ c c', (m.cpus c).proc = some i → (m.cpus c').proc = some i → c = c' :=
    fun c c' hc hc' => h.core.unique c c' i (hslot c hc) (hslot c' hc')
  refine ⟨hunique, fun hfree => ⟨fun hstate => ?_, fun hrunning => ?_⟩⟩
  · have hne : (m.slots i).proc.state ≠ .RUNNING ∧ (m.slots i).proc.state ≠ .UNUSED := by
      constructor <;> intro heq <;> simp [heq] at hstate
    have hoff := h.core.off hfree hne.1
    obtain ⟨r, hr, -⟩ := (h.core.resting i hoff).saved hne.2
    refine ⟨fun c hc => hoff c (hslot c hc), ?_⟩
    rw [hr]
    exact Option.some_ne_none r
  · -- a slot that no CPU works for is not `RUNNING`
    have hon : ∃ c, (m.cpus c).pc.slot = some i := by
      by_contra hoff
      exact (h.core.resting i (not_exists.mp hoff)).state hrunning
    obtain ⟨c, hc⟩ := hon
    have hproc : (m.cpus c).proc = some i := by
      rw [h.core.proc]
      have hstage := h.core.stage c i hc
      cases hpc : (m.cpus c).pc with
      | cleared j =>
        rw [hpc] at hstage
        exact absurd hrunning hstage.1.state
      | _ => rw [hpc] at hc; exact hc
    exact ⟨c, hproc, fun c' hc' => hunique c' c hc' hproc⟩

/-- CPU 1 dispatches `initproc`, which forks and sleeps; then it is woken up on
CPU 0. -/
def sleepAndWake : List Act :=
  let round := List.replicate 66 (Act.tick 1 0)
  let switch := List.replicate 3 (Act.tick 1 0)
  round ++ switch ++
    [.call 1 (.fork { trapframe := some 2, pagetable := some 3 } 1), .call 1 .forkRunnable,
      .call 1 (.sleep 7)] ++
    switch ++ [.wakeup 0 7 0]

theorem one_cpu_per_process_sleep :
    ∃ m, exec step (.init 0 1 1) sleepAndWake = some m ∧
      ((m.slots 0).lock = none ∧ (m.slots 0).proc.state = .RUNNABLE) ∧
      (∀ c, (m.cpus c).proc ≠ some 0) ∧ (m.slots 0).context ≠ none := by
  have hcheck : runCheck step (fun _ _ => true)
      (fun m => decide ((m.slots 0).lock = none ∧ (m.slots 0).proc.state = .RUNNABLE))
      (.init 0 1 1) sleepAndWake = true := by decide +kernel
  obtain ⟨-, m, hrun, hm⟩ := of_runCheck hcheck
  have hm := of_decide_eq_true hm
  exact ⟨m, hrun, hm, ((one_cpu_per_process hrun 0).2 hm.1).1 (by simp [hm.2])⟩

end Xv6.Switch
