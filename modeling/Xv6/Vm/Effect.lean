import Xv6.Vm.Copies
import Xv6.Vm.ExecSpec
import Xv6.Vm.Sys

/-!
# What an operation does to the memory of the system

Every operation works for one slot of the process table.  `Effect` says once what
it can do there and what it leaves alone; the invariants over whole runs follow
from it.

* `Mem`, `SysMem`: the memory of one process and of all processes.
* `Effect x y`: the slot went from `x` to `y`.
* `Kept.effect`, `Resized.effect`, `NewProc.effect`, `ExecPost.effect`,
  `freeproc_effect`: the kinds of operations.
* `SysMem.effect`: an effect keeps the memory of all processes in order.
* `stepOp_effect`: every operation of the system has an effect on one slot.
-/

namespace Xv6.Vm

open Xv6.Lib.Wp Xv6.Lib.Run
open Function (update update_of_ne update_self update_eq_self_iff)

variable {j r : Nat} {q : UProc}

/-! ## The memory of processes -/

/-- The memory of a process. -/
structure Mem (own : Owner) (s : Phys) (p : UProc) : Prop where
  space : Space own s p.pagetable p.sz
  trapframe : own p.trapframe = some .held

/-- The memory of all processes, with the roles `own` of the pages. -/
structure SysMem (own : Owner) (s : Phys) (procs : Nat → Option UProc) : Prop where
  owned : Owned own s
  trampoline : s.trampoline < PHYSTOP
  mem : ∀ i p, procs i = some p → Mem own s p
  tables : ∀ i j p q, procs i = some p → procs j = some q → p.pagetable = q.pagetable → i = j
  frames : ∀ i j p q, procs i = some p → procs j = some q → p.trapframe = q.trapframe → i = j

/-- The page table of the process in the slot `x` is not `r`. -/
def OtherTable (x : Option UProc) (r : Nat) : Prop :=
  ∀ p, x = some p → p.pagetable ≠ r

/-- The trapframe of the process in the slot `x` is not `q`. -/
def OtherFrame (x : Option UProc) (q : Nat) : Prop :=
  ∀ p, x = some p → p.trapframe ≠ q

/-- A slot of the process table went from `x` to `y`.  The page tables of other
processes and the pages held for other purposes are as before, and no page is
lost.  Unless `G`, a first page that is not mapped stays so. -/
structure Effect (G : Prop) (x y : Option UProc) (own own' : Owner) (s s' : Phys) : Prop where
  owned : Owned own' s'
  kend : s'.kend = s.kend
  trampoline : s'.trampoline = s.trampoline
  dom : ∀ q, own' q = none ↔ own q = none
  table : ∀ q r l v, OtherTable x r → own q = some (.table r l v) →
    own' q = some (.table r l v) ∧ s'.mem q = s.mem q
  newTable : ∀ q r l v, own' q = some (.table r l v) →
    own q = some (.table r l v) ∧ OtherTable x r ∨ ∃ p, y = some p ∧ p.pagetable = r
  held : ∀ q, OtherFrame x q → own q = some .held → own' q = some .held ∧ s'.mem q = s.mem q
  newHeld : ∀ q, own' q = some .held →
    own q = some .held ∧ OtherFrame x q ∨ ∃ p, y = some p ∧ p.trapframe = q
  mem : ∀ p, y = some p → Mem own' s' p
  pagetable : ∀ p, y = some p → ¬ OtherTable x p.pagetable ∨ own p.pagetable = some .free
  trapframe : ∀ p, y = some p → ¬ OtherFrame x p.trapframe ∨ own p.trapframe = some .free
  null : ¬ G → (∀ p, x = some p → lookup s.mem p.pagetable 0 = none) →
    ∀ p, y = some p → lookup s'.mem p.pagetable 0 = none

section Kinds

variable {own own' : Owner} {s s' : Phys} {p : UProc} {G : Prop} {E : Panic → Prop}

theorem otherTable_some (h : p.pagetable ≠ r) : OtherTable (some p) r := by
  rintro q ⟨⟩
  exact h

theorem otherFrame_some {q : Nat} (h : p.trapframe ≠ q) : OtherFrame (some p) q := by
  rintro p' ⟨⟩
  exact h

theorem not_otherTable (p : UProc) : ¬ OtherTable (some p) p.pagetable :=
  fun h => h p rfl rfl

theorem not_otherFrame (p : UProc) : ¬ OtherFrame (some p) p.trapframe :=
  fun h => h p rfl rfl

/-- A held page is no user page. -/
theorem not_user_of_held {q : Nat} (h : own q = some .held) : ¬ ∃ v, own q = some (.user r v) := by
  rintro ⟨v, hv⟩
  rw [h] at hv
  cases hv

/-- What happens to other page tables leaves the memory of a process alone. -/
theorem Mem.frame {T H : Nat → Prop} (h : Mem own s p) (hf : FrameX T r H own own' s s')
    (hs : Owned own s) (hs' : Owned own' s') (hne : p.pagetable ≠ r) (hH : ¬ H p.trapframe) :
    Mem own' s' p :=
  ⟨h.space.frame hf hs hs' hne, (hf.held _ h.trapframe hH).1⟩

/-- The memory of a process depends on its tables and on the role of its trapframe. -/
theorem Mem.congr (h : Mem own s p) (hs : Owned own s) (hs' : Owned own' s')
    (htab : ∀ q l w, own' q = some (.table p.pagetable l w) ↔ own q = some (.table p.pagetable l w))
    (hmem : ∀ q l w, own q = some (.table p.pagetable l w) → s'.mem q = s.mem q)
    (htf : own' p.trapframe = some .held) : Mem own' s' p :=
  ⟨h.space.congr hs hs' htab hmem, htf⟩

/-! ## The kinds of operations -/

/-- Nothing happened. -/
theorem Kept.effect (h : Kept own own' s s') (hs : Owned own s) {x : Option UProc}
    (hx : ∀ p, x = some p → Mem own s p) : Effect G x x own own' s s' := by
  refine ⟨h.owned, (h.frame 0).kend, (h.frame 0).trampoline, (h.frame 0).dom,
    fun q r l v _ hq => (h.frame (r + 1)).table q r l v (by omega) hq, fun q r l v hq => ?_,
    fun q _ hq => (h.frame 0).held q hq not_false, fun q hq => ?_, fun p hp => ?_,
    fun p hp => .inl ?_, fun p hp => .inl ?_, fun _ hnull p hp => ?_⟩
  · have hold := (h.frame (r + 1)).newTable q r l v (by omega) hq
    by_cases hr : OtherTable x r
    · exact .inl ⟨hold, hr⟩
    · simp only [OtherTable, not_forall, not_not] at hr
      obtain ⟨p, hp, hpr⟩ := hr
      exact .inr ⟨p, hp, hpr⟩
  · have hold := ((h.frame 0).newHeld q hq).resolve_right not_false
    by_cases hr : OtherFrame x q
    · exact .inl ⟨hold, hr⟩
    · simp only [OtherFrame, not_forall, not_not] at hr
      obtain ⟨p, hp, hpr⟩ := hr
      exact .inr ⟨p, hp, hpr⟩
  · exact (hx p hp).frame (h.frame (p.pagetable + 1)) hs h.owned (by omega) not_false
  · rw [hp]
    exact not_otherTable p
  · rw [hp]
    exact not_otherFrame p
  · rw [h.lookup_eq hs (hx p hp).space.root (by decide)]
    exact hnull p hp

/-- The address space changed, and possibly its size. -/
theorem Resized.effect {P : Nat → Prop} {p' : UProc} (hmem : Mem own s p)
    (h : Resized p.pagetable p.sz p'.sz P own own' s s') (htab : p'.pagetable = p.pagetable)
    (htf : p'.trapframe = p.trapframe) : Effect (P 0) (some p) (some p') own own' s s' := by
  have hframe := h.changed.frame
  have hheld : ∀ q, own q = some .held → own' q = some .held ∧ s'.mem q = s.mem q :=
    fun q hq => hframe.held q hq (not_user_of_held hq)
  refine ⟨h.changed.owned, hframe.kend, hframe.trampoline, hframe.dom,
    fun q r l v hr hq => hframe.table q r l v (hr p rfl).symm hq, fun q r l v hq => ?_,
    fun q _ hq => hheld q hq, fun q hq => ?_, ?_, ?_, ?_, ?_⟩
  · by_cases hr : p.pagetable = r
    · exact .inr ⟨p', rfl, htab.trans hr⟩
    · exact .inl ⟨hframe.newTable q r l v (Ne.symm hr) hq, otherTable_some hr⟩
  · by_cases hq' : p.trapframe = q
    · exact .inr ⟨p', rfl, htf.trans hq'⟩
    · exact .inl ⟨(hframe.newHeld q hq).resolve_right not_false, otherFrame_some hq'⟩
  · rintro _ ⟨⟩
    refine ⟨?_, ?_⟩
    · rw [htab]
      exact h.space
    · rw [htf]
      exact (hheld _ hmem.trapframe).1
  · rintro _ ⟨⟩
    rw [htab]
    exact .inl (not_otherTable p)
  · rintro _ ⟨⟩
    rw [htf]
    exact .inl (not_otherFrame p)
  · rintro hP hnull _ ⟨⟩
    rw [htab]
    exact h.none 0 (by decide) hP (hnull p rfl)

/-- An unused slot got a process. -/
theorem NewProc.effect (h : NewProc p own own' s s') (hs : Owned own s)
    (hnull : lookup s'.mem p.pagetable 0 = none) : Effect G none (some p) own own' s s' := by
  have hframe := h.frame
  refine ⟨h.owned, hframe.kend, hframe.trampoline, hframe.dom, fun q r l v _ hq => ?_,
    fun q r l v hq => ?_, fun q _ hq => hframe.held q hq not_false, fun q hq => ?_, ?_, ?_, ?_, ?_⟩
  · exact hframe.table q r l v (ne_of_role (hs.root_of_table hq) h.tableFree nofun) hq
  · by_cases hr : r = p.pagetable
    · exact .inr ⟨p, rfl, hr.symm⟩
    · exact .inl ⟨hframe.newTable q r l v hr hq, nofun⟩
  · rcases hframe.newHeld q hq with hq | hq
    · exact .inl ⟨hq, nofun⟩
    · exact .inr ⟨p, rfl, hq.symm⟩
  · rintro _ ⟨⟩
    exact ⟨h.space, h.trapframe⟩
  · rintro _ ⟨⟩
    exact .inr h.tableFree
  · rintro _ ⟨⟩
    exact .inr h.frameFree
  · rintro - - _ ⟨⟩
    exact hnull

/-- `kexec` replaces the page table and frees the old one, or changes nothing. -/
theorem ExecPost.effect {argc : Nat} {res : Int × UProc} (h : ExecPost own p argc s res s')
    (hs : Owned own s) (hmem : Mem own s p) :
    ∃ own', Effect G (some p) (some res.2) own own' s s' := by
  rcases h with ⟨rfl, own', hkept⟩ |
    ⟨-, htf, hfree, own₁, s₁, s₂, own₂, ho₁, hf₁, hsp, hnull, hwrote, hfreed⟩
  · refine ⟨own', hkept.effect hs ?_⟩
    rintro _ ⟨⟩
    exact hmem
  · have hf₂ := hfreed.frame
    have hheld : own₁ p.trapframe = some .held := (hf₁.held _ hmem.trapframe not_false).1
    have ho₂ : Owned own₁ s₂ := hwrote.owned ho₁ hheld
    have hne : res.2.pagetable ≠ p.pagetable := (ne_of_role hmem.space.root hfree nofun).symm
    have hsp₂ : Space own₁ s₂ res.2.pagetable res.2.sz := hwrote.space ho₁ hheld hsp
    refine ⟨own₂, hfreed.owned, hf₂.kend.trans (hwrote.kend.trans hf₁.kend),
      hf₂.trampoline.trans (hwrote.trampoline.trans hf₁.trampoline),
      fun q => (hf₂.dom q).trans (hf₁.dom q), fun q r l v hr hq => ?_, fun q r l v hq => ?_,
      fun q hq' hq => ?_, fun q hq => ?_, ?_, ?_, ?_, ?_⟩
    · have h₁ := hf₁.table q r l v (ne_of_role (hs.root_of_table hq) hfree nofun) hq
      have h₂ := hf₂.table q r l v (hr p rfl).symm h₁.1
      refine ⟨h₂.1, h₂.2.trans ((hwrote.mem q ?_).trans h₁.2)⟩
      exact ne_of_role h₁.1 hheld nofun
    · have hr : r ≠ p.pagetable :=
        fun heq => not_root_of_free (heq ▸ hfreed.gone) (hfreed.owned.root_of_table hq)
      have h₁ := hf₂.newTable q r l v hr hq
      by_cases hr₁ : r = res.2.pagetable
      · exact .inr ⟨res.2, rfl, hr₁.symm⟩
      · exact .inl ⟨hf₁.newTable q r l v hr₁ h₁, otherTable_some hr.symm⟩
    · have h₁ := hf₁.held q hq not_false
      have h₂ := hf₂.held q h₁.1 (not_user_of_held h₁.1)
      exact ⟨h₂.1, h₂.2.trans ((hwrote.mem q (hq' p rfl).symm).trans h₁.2)⟩
    · have h₁ := (hf₂.newHeld q hq).resolve_right not_false
      by_cases hq' : p.trapframe = q
      · exact .inr ⟨res.2, rfl, htf.trans hq'⟩
      · exact .inl ⟨(hf₁.newHeld q h₁).resolve_right not_false, otherFrame_some hq'⟩
    · rintro _ ⟨⟩
      refine ⟨hsp₂.frame hf₂ ho₂ hfreed.owned hne, ?_⟩
      rw [htf]
      exact (hf₂.held _ hheld (not_user_of_held hheld)).1
    · rintro _ ⟨⟩
      exact .inr hfree
    · rintro _ ⟨⟩
      rw [htf]
      exact .inl (not_otherFrame p)
    · rintro - - _ ⟨⟩
      rw [lookup_congr (hf₂.pteOf_eq ho₂ hfreed.owned hne hsp₂.root (by decide)),
        hwrote.lookup_eq ho₁ hheld hsp.root (by decide)]
      exact hnull

/-- `freeproc` gives the memory of a process back. -/
theorem freeproc_effect (hs : Owned own s) (hmem : Mem own s p) :
    wp (freeproc p) E (fun _ s' => ∃ own', Effect G (some p) none own own' s s') s := by
  refine (freeproc_spec hs hmem.space hmem.trapframe).mono fun _ s' hpost => ?_
  obtain ⟨s₁, own', hmoved, ho₁, hfreed⟩ := hpost
  have hf := hfreed.frame
  have htab := table_update (x := .free) hmem.trapframe nofun nofun
  refine ⟨own', hfreed.owned, hf.kend.trans hmoved.kend, hf.trampoline.trans hmoved.trampoline,
    fun q => (hf.dom q).trans (own_update_eq_none hmem.trapframe q), fun q r l v hr hq => ?_,
    fun q r l v hq => .inl ⟨?_, otherTable_some ?_⟩, fun q hq' hq => ?_,
    fun q hq => ?_, nofun, nofun, nofun, nofun⟩
  · have h₁ := hf.table q r l v (hr p rfl).symm ((htab ..).mpr hq)
    exact ⟨h₁.1, h₁.2.trans (hmoved.mem q (ne_of_role hq hmem.trapframe nofun))⟩
  · refine (htab ..).mp (hf.newTable q r l v ?_ hq)
    exact fun heq => not_root_of_free (heq ▸ hfreed.gone) (hfreed.owned.root_of_table hq)
  · exact fun heq => not_root_of_free (heq ▸ hfreed.gone) (hfreed.owned.root_of_table hq)
  · have hne : q ≠ p.trapframe := (hq' p rfl).symm
    have hq₁ : update own p.trapframe (some .free) q = some .held :=
      (update_of_ne hne _ _).trans hq
    have h₁ := hf.held q hq₁ (not_user_of_held hq₁)
    exact ⟨h₁.1, h₁.2.trans (hmoved.mem q hne)⟩
  · obtain ⟨hq₁, hne⟩ := own_update_ne ((hf.newHeld q hq).resolve_right not_false) nofun
    exact .inl ⟨hq₁, otherFrame_some hne.symm⟩

/-! ## The functions of the kernel -/

theorem allocproc_effect (hs : Owned own s) (htramp : s.trampoline < PHYSTOP) :
    wp allocproc E (fun res s' => ∃ own', Effect G none res own own' s s') s := by
  refine (allocproc_spec hs htramp).mono fun res s' hres => ?_
  obtain ⟨own', hres⟩ := hres
  refine ⟨own', ?_⟩
  cases res with
  | none => exact hres.effect hs nofun
  | some p => exact hres.1.effect hs (hres.1.space.none (by rw [hres.2]; decide) (by decide))

theorem kfork_effect (hs : Owned own s) (htramp : s.trampoline < PHYSTOP) (hmem : Mem own s p) :
    wp (kfork p) E (fun res s' => ∃ own', Effect G none res own own' s s') s := by
  refine (kfork_spec hs htramp hmem.space).mono fun res s' hres => ?_
  obtain ⟨own', hres⟩ := hres
  refine ⟨own', ?_⟩
  cases res with
  | none => exact hres.effect hs nofun
  | some np => exact hres.1.effect hs hres.2

theorem kexec_effect {path : List UInt8} {file : Option (List UInt8)} {argv : List (List UInt8)}
    (hs : Owned own s) (htramp : s.trampoline < PHYSTOP) (hmem : Mem own s p)
    (hargs : ExecArgs argv) (hlen : ∀ f, file = some f → f.length < 2 ^ 32) (hE : E .loadseg) :
    wp (kexec p path file argv) E
      (fun res s' => ∃ own', Effect G (some p) (some res.2) own own' s s') s := by
  refine (kexec_spec ⟨hs, htramp, hmem.space, hmem.trapframe⟩ hargs hlen fun _ _ _ => hE).mono
    fun res s' hres => ?_
  exact hres.1.effect hs hmem

/-- Growing at once from size 0 is the one operation that maps the first page. -/
theorem sysSbrk_effect {n t : BitVec 32} (hs : Owned own s) (hmem : Mem own s p) :
    wp (sysSbrk p n t) E (fun res s' => ∃ own',
      Effect ((t = SBRK_EAGER ∧ 0 < n.toInt) ∧ npages p.sz ≤ 0) (some p) (some res.2) own own' s s')
      s := by
  refine (sysSbrk_spec hs hmem.space).mono fun res s' hres => ?_
  obtain ⟨own', hres, htab, htf⟩ := hres
  exact ⟨own', hres.effect hmem htab htf⟩

/-- Faults and copies change the address space without its size. -/
theorem Effect.of_resized (hmem : Mem own s p)
    (h : Resized p.pagetable p.sz p.sz (1 ≤ ·) own own' s s') :
    Effect G (some p) (some p) own own' s s' := by
  have heff := h.effect hmem rfl rfl
  exact { heff with null := fun _ hnull => heff.null (by decide) hnull }

theorem vmfault_effect {va : Nat} (hs : Owned own s) (hmem : Mem own s p) :
    wp (vmfault p p.pagetable va) E
      (fun _ s' => ∃ own', Effect G (some p) (some p) own own' s s') s := by
  refine (vmfault_spec hs hmem.space).mono fun _ s' hres => ?_
  obtain ⟨own', hres⟩ := hres
  exact ⟨own', Effect.of_resized hmem hres⟩

theorem copyout_effect {dstva : Nat} {src : List UInt8} (hs : Owned own s) (hmem : Mem own s p) :
    wp (copyout p p.pagetable dstva src) E
      (fun _ s' => ∃ own', Effect G (some p) (some p) own own' s s') s := by
  refine (copyout_spec hs hmem.space).mono fun _ s' hres => ?_
  obtain ⟨own', hres⟩ := hres
  exact ⟨own', Effect.of_resized hmem hres⟩

theorem copyin_effect {srcva len : Nat} (hs : Owned own s) (hmem : Mem own s p) :
    wp (copyin p p.pagetable srcva len) E
      (fun _ s' => ∃ own', Effect G (some p) (some p) own own' s s') s := by
  refine (copyin_spec hs hmem.space).mono fun _ s' hres => ?_
  obtain ⟨own', hres⟩ := hres
  exact ⟨own', Effect.of_resized hmem hres⟩

end Kinds

/-! ## The memory of all processes -/

section Table

variable {own own' : Owner} {s s' : Phys} {procs : Nat → Option UProc} {i : Nat} {y : Option UProc}
  {G : Prop}

/-- The slots of a table after slot `i` was written. -/
theorem slot_cases (hq : update procs i y j = some q) :
    j = i ∧ y = some q ∨ j ≠ i ∧ procs j = some q := by
  by_cases hji : j = i
  · rw [hji, update_self] at hq
    exact .inl ⟨hji, hq⟩
  · rw [update_of_ne hji] at hq
    exact .inr ⟨hji, hq⟩

/-- Writing slot `i` keeps a key of the table unique if no other slot has the new key. -/
theorem unique_update (key : UProc → Nat)
    (h : ∀ j k q q', procs j = some q → procs k = some q' → key q = key q' → j = k)
    (hnew : ∀ j q p, j ≠ i → procs j = some q → y = some p → key q ≠ key p) :
    ∀ j k q q', update procs i y j = some q →
      update procs i y k = some q' → key q = key q' → j = k := by
  intro j k q q' hq hq' heq
  rcases slot_cases hq with ⟨hj, hqy⟩ | ⟨hj, hqj⟩
  · rcases slot_cases hq' with ⟨hk, -⟩ | ⟨hk, hqk⟩
    · rw [hj, hk]
    · exact absurd heq.symm (hnew k q' q hk hqk hqy)
  · rcases slot_cases hq' with ⟨-, hqy⟩ | ⟨-, hqk⟩
    · exact absurd heq (hnew j q q' hj hqj hqy)
    · exact h j k q q' hqj hqk heq

theorem SysMem.otherTable (h : SysMem own s procs) (hj : j ≠ i)
    (hq : procs j = some q) : OtherTable (procs i) q.pagetable :=
  fun p hp heq => hj (h.tables j i q p hq hp heq.symm)

theorem SysMem.otherFrame (h : SysMem own s procs) (hj : j ≠ i)
    (hq : procs j = some q) : OtherFrame (procs i) q.trapframe :=
  fun p hp heq => hj (h.frames j i q p hq hp heq.symm)

/-- The tables of other processes are the same before and after. -/
theorem SysMem.table_iff (h : SysMem own s procs) (he : Effect G (procs i) y own own' s s')
    (hj : j ≠ i) (hq : procs j = some q) (b l w : Nat) :
    own' b = some (.table q.pagetable l w) ↔ own b = some (.table q.pagetable l w) := by
  have hother := h.otherTable hj hq
  refine ⟨fun hb => ?_, fun hb => (he.table b _ l w hother hb).1⟩
  rcases he.newTable b _ l w hb with hold | ⟨p, hp, hpq⟩
  · exact hold.1
  · rcases he.pagetable p hp with hsame | hfree
    · exact absurd (hpq ▸ hother) hsame
    · exact absurd (h.mem j q hq).space.root (not_root_of_free (hpq ▸ hfree))

theorem SysMem.mem_other (h : SysMem own s procs) (he : Effect G (procs i) y own own' s s')
    (hj : j ≠ i) (hq : procs j = some q) : Mem own' s' q := by
  have hmem := h.mem j q hq
  refine hmem.congr h.owned he.owned (h.table_iff he hj hq)
    (fun b l w hb => (he.table b _ l w (h.otherTable hj hq) hb).2) ?_
  exact (he.held _ (h.otherFrame hj hq) hmem.trapframe).1

theorem SysMem.lookup_other (h : SysMem own s procs) (he : Effect G (procs i) y own own' s s')
      (hj : j ≠ i) (hq : procs j = some q) {v : Nat} (hv : v < 2 ^ 27) :
    lookup s'.mem q.pagetable v = lookup s.mem q.pagetable v :=
  lookup_congr (h.owned.pteOf_congr he.owned (h.table_iff he hj hq)
    (fun b l w hb => (he.table b _ l w (h.otherTable hj hq) hb).2) (h.mem j q hq).space.root hv)

/-- An effect on one slot keeps the memory of all processes in order. -/
theorem SysMem.effect (h : SysMem own s procs) (he : Effect G (procs i) y own own' s s') :
    SysMem own' s' (update procs i y) := by
  refine ⟨he.owned, he.trampoline ▸ h.trampoline, fun j q hq => ?_,
    unique_update UProc.pagetable h.tables fun j q p hj hq hp heq => ?_,
    unique_update UProc.trapframe h.frames fun j q p hj hq hp heq => ?_⟩
  · rcases slot_cases hq with ⟨-, hy⟩ | ⟨hj, hq⟩
    · exact he.mem q hy
    · exact h.mem_other he hj hq
  · rcases he.pagetable p hp with hsame | hfree
    · exact hsame (heq ▸ h.otherTable hj hq)
    · exact not_root_of_free (heq ▸ hfree) (h.mem j q hq).space.root
  · rcases he.trapframe p hp with hsame | hfree
    · exact hsame (heq ▸ h.otherFrame hj hq)
    · rw [← heq, (h.mem j q hq).trapframe] at hfree
      cases hfree

/-- Which calls of `kalloc` will fail says nothing about memory. -/
theorem SysMem.deny (h : SysMem own s procs) (denied : List Bool) :
    SysMem own { s with denied := denied } procs := by
  have hs := h.owned
  refine ⟨⟨hs.kend, hs.ram, hs.free, hs.nodup, hs.level, hs.root, hs.linked, hs.entry, hs.leaf,
    hs.user⟩, h.trampoline, fun i p hp => ?_, h.tables, h.frames⟩
  have hmem := h.mem i p hp
  exact ⟨⟨hmem.space.root, hmem.space.sz_le, hmem.space.below, hmem.space.special⟩, hmem.trapframe⟩

end Table

/-! ## Operations of the system -/

/-- The operation grows a process of size 0 at once. -/
def OpGrowsFromZero (sys : Sys) : Op → Prop
  | .sbrk i n t => t = SBRK_EAGER ∧ 0 < n.toInt ∧ (sys.procs i).any (fun p => p.sz == 0) = true
  | _ => False

/-- One slot of the table changed, and the memory with it. -/
def SlotEffect (G : Prop) (own : Owner) (sys sys' : Sys) : Prop :=
  ∃ i y own', Effect G (sys.procs i) y own own' sys.phys sys'.phys ∧
    sys'.procs = update sys.procs i y

theorem execOk_iff {file : Option (List UInt8)} {argv : List (List UInt8)}
    (h : execOk file argv = true) :
    ExecArgs argv ∧ ∀ f, file = some f → f.length < 2 ^ 32 := by
  simp only [execOk, Bool.and_eq_true, decide_eq_true_eq, List.all_eq_true] at h
  refine ⟨⟨h.1.1, h.1.2⟩, ?_⟩
  rintro f rfl
  exact of_decide_eq_true h.2

theorem freeSlot_none {procs : Nat → Option UProc} (h : freeSlot procs = some j) :
    procs j = none := by
  have hnone := List.find?_some h
  exact Option.isNone_iff_eq_none.mp hnone

section Steps

variable {sys sys' : Sys} {own : Owner} {G : Prop}

/-- An operation of one process has the effect of its function. -/
theorem onProc_effect {i : Nat} {f : UProc → Kern UProc} (h : onProc sys i f = some sys')
    (hf : ∀ p, sys.procs i = some p → wp (f p) (fun _ => True)
      (fun p' s' => ∃ own', Effect G (some p) (some p') own own' sys.phys s') sys.phys) :
    SlotEffect G own sys sys' := by
  unfold onProc at h
  cases hp : sys.procs i with
  | none =>
    rw [hp] at h
    cases h
  | some p =>
    rw [hp] at h
    dsimp only at h
    split at h
    · next p' s' hrun =>
      cases h
      obtain ⟨own', heff⟩ := (hf p hp).of_ok hrun
      exact ⟨i, some p', own', hp ▸ heff, rfl⟩
    · cases h

/-- An operation that makes a process has the effect of its function. -/
theorem addProc_effect {x : Kern (Option UProc)} (h : addProc sys x = some sys')
    (hx : wp x (fun _ => True)
      (fun res s' => ∃ own', Effect G none res own own' sys.phys s') sys.phys) :
    SlotEffect G own sys sys' := by
  unfold addProc at h
  split at h
  · next j p s' hslot hrun =>
    cases h
    obtain ⟨own', heff⟩ := hx.of_ok hrun
    exact ⟨j, some p, own', freeSlot_none hslot ▸ heff, rfl⟩
  · next j s' hslot hrun =>
    cases h
    obtain ⟨own', heff⟩ := hx.of_ok hrun
    have hnone := freeSlot_none hslot
    exact ⟨j, none, own', hnone ▸ heff, (update_eq_self_iff.mpr hnone.symm).symm⟩
  · cases h

/-- Every operation has an effect on one slot. -/
theorem stepOp_effect {op : Op} (hmem : SysMem own sys.phys sys.procs)
    (h : stepOp sys op = some sys') : SlotEffect (OpGrowsFromZero sys op) own sys sys' := by
  have hs := hmem.owned
  cases op with
  | userinit => exact addProc_effect h (allocproc_effect hs hmem.trampoline)
  | exec i path file argv =>
    rw [stepOp] at h
    split at h
    · next hargs =>
      obtain ⟨hargs, hlen⟩ := execOk_iff hargs
      refine onProc_effect h fun p hp => ?_
      rw [wp_bind]
      exact (kexec_effect hs hmem.trampoline (hmem.mem i p hp) hargs hlen trivial).mono
        fun _ s' heff => (wp_pure _).mpr heff
    · cases h
  | fork i =>
    rw [stepOp] at h
    split at h
    · cases h
    · next p hp => exact addProc_effect h (kfork_effect hs hmem.trampoline (hmem.mem i p hp))
  | sbrk i n t =>
    refine onProc_effect h fun p hp => ?_
    rw [wp_bind]
    refine (sysSbrk_effect hs (hmem.mem i p hp)).mono fun res s' heff => (wp_pure _).mpr ?_
    obtain ⟨own', heff⟩ := heff
    refine ⟨own', { heff with null := fun hG => heff.null ?_ }⟩
    rintro ⟨⟨ht, hn⟩, hpages⟩
    refine hG ⟨ht, hn, ?_⟩
    unfold npages at hpages
    rw [hp, Option.any_some, beq_iff_eq]
    omega
  | fault i va =>
    refine onProc_effect h fun p hp => ?_
    rw [wp_bind]
    exact (vmfault_effect hs (hmem.mem i p hp)).mono fun _ s' heff => (wp_pure _).mpr heff
  | copyout i dstva src =>
    refine onProc_effect h fun p hp => ?_
    rw [wp_bind]
    exact (copyout_effect hs (hmem.mem i p hp)).mono fun _ s' heff => (wp_pure _).mpr heff
  | copyin i srcva len =>
    refine onProc_effect h fun p hp => ?_
    rw [wp_bind]
    exact (copyin_effect hs (hmem.mem i p hp)).mono fun _ s' heff => (wp_pure _).mpr heff
  | freeproc i =>
    rw [stepOp] at h
    split at h
    · cases h
    · next p hp =>
      split at h
      · next u s' hrun =>
        cases h
        obtain ⟨own', heff⟩ :=
          (freeproc_effect (E := fun _ => True) hs (hmem.mem i p hp)).of_ok hrun
        exact ⟨i, none, own', hp ▸ heff, rfl⟩
      · cases h

theorem sysMem_of_booted (h : Booted sys) :
    SysMem (freeOwner sys.phys.freelist) sys.phys sys.procs := by
  have hnone : ∀ {i p}, sys.procs i ≠ some p := by
    intro i p hp
    rw [h.procs i] at hp
    cases hp
  exact ⟨owned_freeOwner h.kend h.nodup h.ram, h.trampoline, fun _ _ hp => absurd hp hnone,
    fun _ _ _ _ hp => absurd hp hnone, fun _ _ _ _ hp => absurd hp hnone⟩

/-- The memory of all processes stays in order in every step. -/
theorem sysMem_step {a : Act} (hmem : ∃ own, SysMem own sys.phys sys.procs)
    (h : step sys a = some sys') : ∃ own', SysMem own' sys'.phys sys'.procs := by
  obtain ⟨own, hmem⟩ := hmem
  obtain ⟨i, y, own', heff, hprocs⟩ := stepOp_effect (hmem.deny a.denied) h
  exact ⟨own', hprocs ▸ (hmem.deny a.denied).effect heff⟩

end Steps

/-- A machine with twenty free pages. -/
def bootSys : Sys :=
  { phys := bootPhys, procs := fun _ => none }

theorem booted_bootSys : Booted bootSys :=
  ⟨fun _ => rfl, by decide, by decide, by decide, by decide⟩

end Xv6.Vm
