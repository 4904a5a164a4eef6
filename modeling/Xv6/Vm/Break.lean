import Xv6.Vm.Effect

/-!
# User mappings stay below the break

In every run, the page table of a process has no leaf entries but those of the
trampoline, of the trapframe and of pages below the break, so that growing and
faulting never map a page twice and freeing never finds a page left over.

* `panicOf`, `opPanic`, `Act.panic`: the panic an operation ends in, which has no
  step.
* `LeafAt`: the leaf entries of a page table, of any level.
* `opPanic_eq_loadseg`: the only panic is that of `kexec` in `loadseg`.
* `mappings_below_break`.
-/

namespace Xv6.Vm

open Xv6.Lib.Wp Xv6.Lib.Run

/-! ## Panics -/

/-- The panic in which `x` ends, if it does. -/
def panicOf {α : Type} (x : Kern α) (s : Phys) : Option Panic :=
  match x s with
  | .ok _ => none
  | .error e => some e

/-- The panic of an operation. -/
def opPanic (sys : Sys) : Op → Option Panic
  | .userinit => panicOf allocproc sys.phys
  | .exec i path file argv =>
    if execOk file argv then (sys.procs i).bind fun p => panicOf (kexec p path file argv) sys.phys
    else none
  | .fork i => (sys.procs i).bind fun p => panicOf (kfork p) sys.phys
  | .sbrk i n t => (sys.procs i).bind fun p => panicOf (sysSbrk p n t) sys.phys
  | .fault i va => (sys.procs i).bind fun p => panicOf (vmfault p p.pagetable va) sys.phys
  | .copyout i dstva src =>
    (sys.procs i).bind fun p => panicOf (copyout p p.pagetable dstva src) sys.phys
  | .copyin i srcva len => (sys.procs i).bind fun p =>
    panicOf (copyin p p.pagetable srcva len) sys.phys
  | .freeproc i => (sys.procs i).bind fun p => panicOf (freeproc p) sys.phys

/-- The panic of an operation in which the calls of `kalloc` fail as `a` says. -/
def Act.panic (a : Act) (sys : Sys) : Option Panic :=
  opPanic { sys with phys := { sys.phys with denied := a.denied } } a.op

theorem panicOf_of_wp {α : Type} {x : Kern α} {s : Phys} {E : Panic → Prop} {Q : α → Phys → Prop}
    {e : Panic} (h : wp x E Q s) (he : panicOf x s = some e) : E e := by
  unfold panicOf at he
  split at he
  · cases he
  · next e' hx =>
    cases he
    exact h.of_error hx

/-- No operation panics, except `kexec` in `loadseg`. -/
theorem opPanic_eq_loadseg {own : Owner} {sys : Sys} {op : Op} {e : Panic}
    (hmem : SysMem own sys.phys sys.procs) (h : opPanic sys op = some e) : e = .loadseg := by
  have hs := hmem.owned
  -- an operation of the process in slot `i`
  have hproc : ∀ {α : Type} {i : Nat} {f : UProc → Kern α} {Q : UProc → α → Phys → Prop},
      ((sys.procs i).bind fun p => panicOf (f p) sys.phys) = some e →
      (∀ p, Mem own sys.phys p → wp (f p) (· = .loadseg) (Q p) sys.phys) → e = .loadseg := by
    intro α i f Q hbind hf
    obtain ⟨p, hp, he⟩ := Option.bind_eq_some_iff.mp hbind
    exact panicOf_of_wp (E := fun e => e = .loadseg) (hf p (hmem.mem i p hp)) he
  cases op with
  | userinit =>
    exact panicOf_of_wp (E := fun e => e = .loadseg)
      (allocproc_effect (G := False) hs hmem.trampoline) h
  | exec i path file argv =>
    rw [opPanic] at h
    split at h
    · next hargs =>
      obtain ⟨hargs, hlen⟩ := execOk_iff hargs
      exact hproc h fun p hp => kexec_effect (G := False) hs hmem.trampoline hp hargs hlen rfl
    · cases h
  | fork i => exact hproc h fun p hp => kfork_effect (G := False) hs hmem.trampoline hp
  | sbrk i n t => exact hproc h fun p hp => sysSbrk_effect hs hp
  | fault i va => exact hproc h fun p hp => vmfault_effect (G := False) hs hp
  | copyout i dstva src => exact hproc h fun p hp => copyout_effect (G := False) hs hp
  | copyin i srcva len => exact hproc h fun p hp => copyin_effect (G := False) hs hp
  | freeproc i => exact hproc h fun p hp => freeproc_effect (G := False) hs hp

/-! ## Leaf entries -/

/-- The table `pt` of a level, which serves the addresses from `base` on, has a
valid leaf entry for `va`, itself or in a table below it. -/
def LeafBelow (mem : Nat → Nat → UInt8) : Nat → Nat → Nat → Nat → Prop
  | 0, pt, base, va => ∃ i, i < 512 ∧ isValid (getPte mem pt i) = true ∧
      isLeaf (getPte mem pt i) = true ∧ va = base + i * 2 ^ 12
  | l + 1, pt, base, va => ∃ i, i < 512 ∧ isValid (getPte mem pt i) = true ∧
      (isLeaf (getPte mem pt i) = true ∧ va = base + i * 2 ^ (12 + 9 * (l + 1)) ∨
        isLeaf (getPte mem pt i) = false ∧
          LeafBelow mem l (PTE2PA (getPte mem pt i)) (base + i * 2 ^ (12 + 9 * (l + 1))) va)

/-- The page table `pagetable` has a valid leaf entry for `va`. -/
def LeafAt (mem : Nat → Nat → UInt8) (pagetable va : Nat) : Prop :=
  LeafBelow mem 2 pagetable 0 va

/-- The leaf entries below a table are those of pages. -/
theorem lookup_of_leafBelow {own : Owner} {s : Phys} (h : Owned own s) {r va : Nat} (l : Nat) :
    ∀ {pt b : Nat}, own pt = some (.table r l b) →
      LeafBelow s.mem l pt (b * 2 ^ (12 + 9 * (l + 1))) va →
      ∃ v, va = v * PGSIZE ∧ v < 2 ^ 27 ∧ lookup s.mem r v ≠ none := by
  have hsize : PGSIZE = 4096 := rfl
  induction l with
  | zero =>
    rintro pt b hpt ⟨i, hi, hvalid, -, rfl⟩
    have hb := h.table_lt hpt
    have hdiv : (b * 512 + i) / 512 = b := by omega
    have hmod : (b * 512 + i) % 512 = i := by omega
    refine ⟨b * 512 + i, by rw [hsize]; omega, by omega, fun hnone => ?_⟩
    rw [lookup_eq_none, h.pteOf_eq (hdiv.symm ▸ hpt), hmod, hvalid] at hnone
    cases hnone
  | succ l ih =>
    rintro pt b hpt ⟨i, hi, hvalid, hcase⟩
    -- an entry above level 0 points to a table
    obtain ⟨c, hc, hown⟩ := h.entry pt r l b i hpt hi not_false hvalid
    rw [hc, isLeaf_tablePte, PTE2PA_tablePte (h.pageAddr hown)] at hcase
    rcases hcase with ⟨hleaf, -⟩ | ⟨-, hbelow⟩
    · cases hleaf
    · refine ih hown ?_
      have hbase : b * 2 ^ (12 + 9 * (l + 1 + 1)) + i * 2 ^ (12 + 9 * (l + 1)) =
          (b * 512 + i) * 2 ^ (12 + 9 * (l + 1)) := by
        rw [show 12 + 9 * (l + 1 + 1) = 9 + (12 + 9 * (l + 1)) by omega, Nat.pow_add, Nat.add_mul,
          Nat.mul_assoc]
      rwa [hbase] at hbelow

/-- The leaf entries of a process. -/
theorem Mem.leaf_lt {own : Owner} {s : Phys} {p : UProc} {va : Nat} (h : Mem own s p)
    (hs : Owned own s) (hleaf : LeafAt s.mem p.pagetable va) (htramp : va ≠ TRAMPOLINE)
    (htf : va ≠ TRAPFRAME) : va < PGROUNDUP p.sz := by
  have hsize : PGSIZE = 4096 := rfl
  have htop : TFVPN + 2 = 2 ^ 26 := by decide
  have hframe := trapframe_eq
  have htrampoline : TRAMPOLINE = (TFVPN + 1) * 4096 := by decide
  have hle := h.space.sz_le
  have hroot : own p.pagetable = some (.table p.pagetable 2 0) := h.space.root
  obtain ⟨v, rfl, hv, hlook⟩ := lookup_of_leafBelow hs 2 hroot (by rwa [Nat.zero_mul])
  obtain ⟨e, he⟩ := Option.ne_none_iff_exists'.mp hlook
  have hmax := (hs.leaf_of_lookup hroot hv he).2.1
  rw [hsize] at htramp htf ⊢
  have hbelow := h.space.below v (by omega) hlook
  rw [PGROUNDUP_eq (by omega), hsize]
  omega

/-! ## Runs -/

/-- User mappings stay below the break, in every run from boot, and no
operation maps a page twice or frees a page table with a page left in it. -/
theorem mappings_below_break {sys sys' : Sys} {acts : List Act} (hboot : Booted sys)
    (hrun : exec step sys acts = some sys') :
    (∀ i p, sys'.procs i = some p → p.sz ≤ TRAPFRAME ∧
      ∀ va, LeafAt sys'.phys.mem p.pagetable va → va ≠ TRAMPOLINE → va ≠ TRAPFRAME →
        va < PGROUNDUP p.sz) ∧
    ∀ a : Act, a.panic sys' ≠ some .mappagesRemap ∧ a.panic sys' ≠ some .freewalkLeaf := by
  have hstep : ∀ (t : Sys) (a : Act) (t' : Sys), (∃ own, SysMem own t.phys t.procs) →
      step t a = some t' → ∃ own, SysMem own t'.phys t'.procs := fun _ _ _ => sysMem_step
  obtain ⟨own, hmem⟩ := inv_of_run hstep ⟨_, sysMem_of_booted hboot⟩ hrun
  refine ⟨fun i p hp => ?_, fun a => ⟨fun h => ?_, fun h => ?_⟩⟩
  · have hproc := hmem.mem i p hp
    exact ⟨hproc.space.sz_le, fun va => hproc.leaf_lt hmem.owned⟩
  · cases opPanic_eq_loadseg (hmem.deny a.denied) h
  · cases opPanic_eq_loadseg (hmem.deny a.denied) h

/-- Growth by half a page and by a page and a half, a fault, and a shrink in the
middle of a page. -/
def breakRun : List Act :=
  [⟨.userinit, []⟩, ⟨.sbrk 0 0x1800 2, []⟩, ⟨.fault 0 0x1400, []⟩, ⟨.sbrk 0 0x1800 SBRK_EAGER, []⟩,
    ⟨.sbrk 0 (-0x1400) 2, []⟩]

theorem mappings_below_break_breakRun : ∃ sys, exec step bootSys breakRun = some sys ∧
    (∀ i p, sys.procs i = some p → p.sz ≤ TRAPFRAME ∧
      ∀ va, LeafAt sys.phys.mem p.pagetable va → va ≠ TRAMPOLINE → va ≠ TRAPFRAME →
        va < PGROUNDUP p.sz) ∧
    ∀ a : Act, a.panic sys ≠ some .mappagesRemap ∧ a.panic sys ≠ some .freewalkLeaf := by
  have hcheck : runCheck step (fun _ _ => true) (fun _ => true) bootSys breakRun = true := by
    decide +kernel
  obtain ⟨-, sys, hrun, -⟩ := of_runCheck hcheck
  exact ⟨sys, hrun, mappings_below_break booted_bootSys hrun⟩

end Xv6.Vm
