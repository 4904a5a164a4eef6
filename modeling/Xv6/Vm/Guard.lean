import Xv6.Vm.Effect

/-!
# The first page stays unmapped

No operation of the kernel maps a user page in `[0, PGSIZE)`, except growing a
process of size 0 eagerly: `growproc` then maps the pages from 0 up.

* `SysInv`: the memory of all processes is in order, and they do not map their first
  page; every step that is no eager growth from size 0 keeps it so.
* `null_guard`: the first page stays unmapped in every run of such steps.
-/

namespace Xv6.Vm

open Xv6.Lib.Wp Xv6.Lib.Run

/-- The memory of all processes is in order, and none of them maps its first page. -/
def SysInv (sys : Sys) : Prop :=
  (∃ own, SysMem own sys.phys sys.procs) ∧
    ∀ i p, sys.procs i = some p → lookup sys.phys.mem p.pagetable 0 = none

/-- The step grows a process of size 0 at once. -/
def GrowsFromZero (sys : Sys) (a : Act) : Prop := OpGrowsFromZero sys a.op

instance (sys : Sys) (a : Act) : Decidable (GrowsFromZero sys a) := by
  unfold GrowsFromZero OpGrowsFromZero
  split <;> infer_instance

/-- No user page table maps an address of the first page. -/
def NullGuard (sys : Sys) : Prop :=
  ∀ i p va, sys.procs i = some p → va < PGSIZE →
    lookup sys.phys.mem p.pagetable (va / PGSIZE) = none

theorem SysInv.nullGuard {sys : Sys} (h : SysInv sys) : NullGuard sys := by
  intro i p va hp hva
  rw [Nat.div_eq_of_lt hva]
  exact h.2 i p hp

theorem sysInv_of_booted {sys : Sys} (h : Booted sys) : SysInv sys := by
  refine ⟨⟨_, sysMem_of_booted h⟩, fun i p hp => ?_⟩
  rw [h.procs i] at hp
  cases hp

/-- One step that does not grow a process of size 0 at once. -/
theorem sysInv_step {sys sys' : Sys} {a : Act} (hinv : SysInv sys) (hok : ¬ GrowsFromZero sys a)
    (h : step sys a = some sys') : SysInv sys' := by
  obtain ⟨⟨own, hmem⟩, hnull⟩ := hinv
  replace hmem := hmem.deny a.denied
  obtain ⟨i, y, own', heff, hprocs⟩ := stepOp_effect hmem h
  refine ⟨⟨own', hprocs ▸ hmem.effect heff⟩, fun j q hq => ?_⟩
  rw [hprocs] at hq
  rcases slot_cases hq with ⟨-, hy⟩ | ⟨hj, hq⟩
  · exact heff.null hok (hnull i) q hy
  · rw [hmem.lookup_other heff hj hq (by decide)]
    exact hnull j q hq

/-- In a run from boot whose steps never grow a process of size 0 at once, no
page table maps an address of the first page. -/
theorem null_guard {sys sys' : Sys} {acts : List Act} (hboot : Booted sys)
    (hok : StepsMeet step (fun sys a => ¬ GrowsFromZero sys a) sys acts)
    (hrun : exec step sys acts = some sys') : NullGuard sys' := by
  have hstep : ∀ sys a sys', SysInv sys → ¬ GrowsFromZero sys a → step sys a = some sys' →
      SysInv sys' := fun _ _ _ hinv hok h => sysInv_step hinv hok h
  exact (inv_of_exec hstep (sysInv_of_booted hboot) hok hrun).nullGuard

/-- Lazy growth, and faults in the second and in the first page. -/
def lazyRun : List Act :=
  [⟨.userinit, []⟩, ⟨.sbrk 0 0x2000 2, []⟩, ⟨.fault 0 0x1000, []⟩, ⟨.fault 0 0, []⟩]

theorem null_guard_lazyRun : ∃ sys, exec step bootSys lazyRun = some sys ∧ NullGuard sys := by
  have hrun : (exec step bootSys lazyRun).isSome = true := by decide +kernel
  obtain ⟨sys, hrun⟩ := Option.isSome_iff_exists.mp hrun
  exact ⟨sys, hrun, null_guard booted_bootSys (by decide +kernel) hrun⟩

/-- An executable without segments. -/
def emptyElf : List UInt8 :=
  [0x7f, 0x45, 0x4c, 0x46] ++ List.replicate 60 0

/-- The first process runs `emptyElf`, gives all its memory back and asks for one byte. -/
def shrinkRun : List Act :=
  [⟨.userinit, []⟩, ⟨.exec 0 [] (some emptyElf) [], []⟩, ⟨.sbrk 0 (-0x3000) SBRK_EAGER, []⟩,
    ⟨.sbrk 0 1 SBRK_EAGER, []⟩]

-- `freewalk` of the old page table is a loop of 512 steps at each of its three levels.
set_option maxRecDepth 100000 in
/-- The byte is at address 0. -/
theorem not_null_guard_shrinkRun :
    Booted bootSys ∧ ∃ sys, exec step bootSys shrinkRun = some sys ∧ ¬ NullGuard sys := by
  refine ⟨booted_bootSys, ?_⟩
  have heval : ((exec step bootSys shrinkRun).bind fun sys =>
      (sys.procs 0).bind fun p => lookup sys.phys.mem p.pagetable 0).isSome = true := by
    decide +kernel
  obtain ⟨e, heval⟩ := Option.isSome_iff_exists.mp heval
  obtain ⟨sys, hrun, hsys⟩ := Option.bind_eq_some_iff.mp heval
  obtain ⟨p, hp, he⟩ := Option.bind_eq_some_iff.mp hsys
  refine ⟨sys, hrun, fun hguard => ?_⟩
  have hnone : lookup sys.phys.mem p.pagetable 0 = none := hguard 0 p 0 hp (by decide)
  rw [hnone] at he
  cases he

end Xv6.Vm
