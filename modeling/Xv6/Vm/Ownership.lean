import Xv6.Vm.Effect

/-!
# Every page has one owner

* `Ledger`: every page that the machine started with has one role, and the pages in use
  belong to processes.  `Ledger.step` keeps it.
* `Role.Of`, `Ledger.owner`: a page in use belongs to one process.
* `page_ownership`: so it is in every run, and no page is lost.
-/

namespace Xv6.Vm

open Xv6.Lib.Wp Xv6.Lib.Run

/-- The pages `pages` have the roles `own`, and those in use belong to processes. -/
structure Ledger (pages : List Nat) (own : Owner) (sys : Sys) : Prop where
  mem : SysMem own sys.phys sys.procs
  dom : ∀ q, own q = none ↔ q ∉ pages
  table : ∀ q r l v, own q = some (.table r l v) → ∃ i p, sys.procs i = some p ∧ p.pagetable = r
  held : ∀ q, own q = some .held → ∃ i p, sys.procs i = some p ∧ p.trapframe = q

section Ownership

variable {pages : List Nat} {own : Owner} {sys sys' : Sys} {acts : List Act}

/-- A process in another slot than `i` is still there after slot `i` was written. -/
theorem exists_slot {procs : Nat → Option UProc} {i : Nat} {y : Option UProc} {P : UProc → Prop}
    (h : ∃ j p, procs j = some p ∧ P p) (hother : ∀ p, procs i = some p → ¬ P p) :
    ∃ j p, Function.update procs i y j = some p ∧ P p := by
  obtain ⟨j, p, hp, hP⟩ := h
  have hji : j ≠ i := by
    rintro rfl
    exact hother p hp hP
  exact ⟨j, p, (Function.update_of_ne hji ..).trans hp, hP⟩

theorem Ledger.step {a : Act} (h : Ledger pages own sys) (hstep : step sys a = some sys') :
    ∃ own', Ledger pages own' sys' := by
  have hmem := h.mem.deny a.denied
  obtain ⟨i, y, own', heff, hprocs⟩ := stepOp_effect hmem hstep
  refine ⟨own', hprocs ▸ hmem.effect heff, fun q => (heff.dom q).trans (h.dom q),
    fun q r l v hq => ?_, fun q hq => ?_⟩
  · rw [hprocs]
    rcases heff.newTable q r l v hq with ⟨hold, hother⟩ | ⟨p, hp, hpr⟩
    · exact exists_slot (h.table q r l v hold) hother
    · exact ⟨i, p, (Function.update_self ..).trans hp, hpr⟩
  · rw [hprocs]
    rcases heff.newHeld q hq with ⟨hold, hother⟩ | ⟨p, hp, hpq⟩
    · exact exists_slot (h.held q hold) hother
    · exact ⟨i, p, (Function.update_self ..).trans hp, hpq⟩

theorem ledger_run (hboot : Booted sys) (hrun : exec step sys acts = some sys') :
    ∃ own, Ledger sys.phys.freelist own sys' := by
  refine inv_of_run (I := fun t => ∃ own, Ledger sys.phys.freelist own t)
    (fun t a t' h hstep => ?_) ⟨freeOwner sys.phys.freelist, sysMem_of_booted hboot, fun q => ?_,
      fun q r l v hq => ?_, fun q hq => ?_⟩ hrun
  · obtain ⟨own, hledger⟩ := h
    exact hledger.step hstep
  all_goals unfold freeOwner at *
  · split <;> simp [*]
  · split at hq <;> cases hq
  · split at hq <;> cases hq

/-- A user page is one that a page table of a process maps. -/
theorem Ledger.user_iff (h : Ledger pages own sys) (q r v : Nat) :
    own q = some (.user r v) ↔ v < TFVPN ∧ ∃ i p e, sys.procs i = some p ∧ p.pagetable = r ∧
      lookup sys.phys.mem r v = some e ∧ PTE2PA e = q := by
  have hs := h.mem.owned
  constructor
  · intro hq
    obtain ⟨hv, t, ht, hvalid, hpa⟩ := hs.user q r v hq
    obtain ⟨i, p, hp, hpr⟩ := h.table t r 0 (v / 512) ht
    refine ⟨hv, i, p, _, hp, hpr, lookup_eq_some.mpr ⟨?_, hs.pteOf_eq ht⟩, hpa⟩
    rw [hs.pteOf_eq ht]
    exact hvalid
  · rintro ⟨hv, i, p, e, hp, rfl, he, rfl⟩
    exact hs.page_of_lookup (h.mem.mem i p hp).space.root hv he

/-- The process `p` has the page `q` in this role. -/
def Role.Of (p : UProc) (q : Nat) : Role → Prop
  | .free => False
  | .held => p.trapframe = q
  | .table r _ _ => p.pagetable = r
  | .user r _ => p.pagetable = r

/-- A page in use belongs to one process. -/
theorem Ledger.owner (h : Ledger pages own sys) {q : Nat} {x : Role} (hq : own q = some x)
    (hx : x ≠ .free) : ∃! i, ∃ p, sys.procs i = some p ∧ x.Of p q := by
  obtain ⟨i, p, hp, hof⟩ : ∃ i p, sys.procs i = some p ∧ x.Of p q := by
    cases x with
    | free => exact absurd rfl hx
    | held => exact h.held q hq
    | table r l v => exact h.table q r l v hq
    | user r v =>
      obtain ⟨-, t, ht, -⟩ := h.mem.owned.user q r v hq
      exact h.table t r 0 (v / 512) ht
  refine ⟨i, ⟨p, hp, hof⟩, ?_⟩
  rintro j ⟨p', hp', hof'⟩
  cases x with
  | free => exact hof.elim
  | held => exact h.mem.frames j i p' p hp' hp (Eq.trans hof' (Eq.symm hof))
  | table | user => exact h.mem.tables j i p' p hp' hp (Eq.trans hof' (Eq.symm hof))

/-- Without processes every page is free. -/
theorem Ledger.free_of_no_procs (h : Ledger pages own sys) (hnone : ∀ i, sys.procs i = none)
    {q : Nat} (hq : q ∈ pages) : own q = some .free := by
  obtain ⟨x, hx⟩ := Option.ne_none_iff_exists'.mp fun hno => (h.dom q).mp hno hq
  by_contra hused
  obtain ⟨i, ⟨p, hp, -⟩, -⟩ := h.owner hx fun hfree => hused (hfree ▸ hx)
  rw [hnone i] at hp
  cases hp

/-- In every run from boot, each page that the allocator started with is free once, or a page
of the page table of one process, or mapped at one address of one process, or the trapframe
of one process; no two processes share a page table or a trapframe; and when all processes
are gone, all pages are free again. -/
theorem page_ownership (hboot : Booted sys) (hrun : exec step sys acts = some sys') :
    (∃ own, Owned own sys'.phys ∧ (∀ q, own q ≠ none ↔ q ∈ sys.phys.freelist) ∧
      (∀ q x, own q = some x → x ≠ .free → ∃! i, ∃ p, sys'.procs i = some p ∧ x.Of p q) ∧
      (∀ q, own q = some .held ↔ ∃ i p, sys'.procs i = some p ∧ p.trapframe = q) ∧
      (∀ i p, sys'.procs i = some p → Root own p.pagetable) ∧
      (∀ q r v, own q = some (.user r v) ↔ v < TFVPN ∧ ∃ i p e, sys'.procs i = some p ∧
        p.pagetable = r ∧ lookup sys'.phys.mem r v = some e ∧ PTE2PA e = q) ∧
      ∀ i j p q, sys'.procs i = some p → sys'.procs j = some q →
        p.pagetable = q.pagetable ∨ p.trapframe = q.trapframe → i = j) ∧
    ((∀ i, sys'.procs i = none) → sys'.phys.freelist.Perm sys.phys.freelist) := by
  obtain ⟨own, h⟩ := ledger_run hboot hrun
  have hs := h.mem.owned
  have hdom : ∀ q, own q ≠ none ↔ q ∈ sys.phys.freelist := fun q => by rw [Ne, h.dom, not_not]
  refine ⟨⟨own, hs, hdom, fun q x => h.owner, fun q => ⟨h.held q, ?_⟩,
    fun i p hp => (h.mem.mem i p hp).space.root, h.user_iff, fun i j p q hp hq => ?_⟩,
    fun hnone => ?_⟩
  · rintro ⟨i, p, hp, rfl⟩
    exact (h.mem.mem i p hp).trapframe
  · exact Or.rec (h.mem.tables i j p q hp hq) (h.mem.frames i j p q hp hq)
  · refine (List.perm_ext_iff_of_nodup hs.nodup hboot.nodup).mpr fun q => ?_
    rw [← hs.free]
    refine ⟨fun hq => (hdom q).mp ?_, h.free_of_no_procs hnone⟩
    rw [hq]
    exact Option.some_ne_none _

end Ownership

/-- Two processes; the second grows and touches its page 1. -/
def forkRun : List Act :=
  [⟨.userinit, []⟩, ⟨.fork 0, []⟩, ⟨.sbrk 1 0x2000 2, []⟩, ⟨.fault 1 0x1000, []⟩]

theorem page_ownership_forkRun : ∃ sys own p q, exec step bootSys forkRun = some sys ∧
    Owned own sys.phys ∧ (∀ q, own q ≠ none ↔ q ∈ bootSys.phys.freelist) ∧
    sys.procs 1 = some p ∧ own q = some (.user p.pagetable 1) ∧
    ∃! i, ∃ p', sys.procs i = some p' ∧ p'.pagetable = p.pagetable := by
  have hcheck : runCheck step (fun _ _ => true)
      (fun sys => (sys.procs 1).any fun p => (lookup sys.phys.mem p.pagetable 1).isSome)
      bootSys forkRun = true := by
    decide +kernel
  obtain ⟨-, sys, hrun, hend⟩ := of_runCheck hcheck
  obtain ⟨p, hp, hmapped⟩ := (Option.any_eq_true _ _).mp hend
  obtain ⟨e, he⟩ := Option.isSome_iff_exists.mp hmapped
  obtain ⟨⟨own, hs, hdom, howner, -, -, huser, -⟩, -⟩ := page_ownership booted_bootSys hrun
  have hq := (huser (PTE2PA e) p.pagetable 1).mpr ⟨by decide, 1, p, e, hp, rfl, he, rfl⟩
  exact ⟨sys, own, p, PTE2PA e, hrun, hs, hdom, hp, hq, howner _ _ hq (by simp)⟩

end Xv6.Vm
