import Xv6.Umalloc.Runs
import Xv6.Vm.Effect
import Mathlib.Data.Finset.Card
import Mathlib.Order.Interval.Finset.Nat

/-!
# The allocator over the kernel

`malloc` over the `sbrk` of `ulib.c`, which narrows the number of bytes to an
`int` and makes the system call `sys_sbrk`.

* `Kernel`: a process and the memory of the machine.
* `sysSbrk_grow`: a positive request fails, or adds memory at the end.
* `Kernel.Ok`: the process has all the memory that was added mapped to pages of
  its own; `Kernel.Ok.total_lt`: so that there is not enough of it to overflow a
  `uint` of units.
* `malloc_blocks`: in a run without requests of more than 2^31 - 32 bytes, live
  blocks lie in the memory added and are disjoint.  A larger request becomes an
  `int` that is not positive, and `malloc` returns a block of memory that the
  process does not have (`malloc_beyond_break`).
-/

namespace Xv6.Umalloc

open Xv6.Lib.Wp Xv6.Lib.Run Xv6.Vm

/-! ## The system call -/

/-- A process that uses the allocator, and the machine. -/
structure Kernel where
  /-- The size of the process before its first call. -/
  start : Nat
  proc : UProc
  phys : Phys

/-- `sbrk(n)`: the argument is converted to an `int`. -/
def Kernel.sbrk : Sbrk Kernel := fun e n =>
  match sysSbrk e.proc (BitVec.ofNat 32 n) SBRK_EAGER e.phys with
  | .ok ((addr, proc), phys) =>
    (if addr = -1 then none else some addr.toNat, { e with proc := proc, phys := phys })
  | .error _ => (none, e)

/-- The memory added to the process. -/
def Kernel.memory (e : Kernel) : Memory where
  top := e.proc.sz
  total := (e.proc.sz - e.start) / headerSize
  owned x := e.start ≤ x ∧ x < e.proc.sz

/-- A positive request fails for want of memory, or maps fresh pages at the end. -/
theorem sysSbrk_grow {own : Owner} {s : Phys} {p : UProc} {n : BitVec 32} {E : Panic → Prop}
    (h : Owned own s) (hsp : Space own s p.pagetable p.sz) (hn : 0 < n.toInt) :
    wp (sysSbrk p n SBRK_EAGER) E (fun res s' => ∃ own',
      res = (-1, p) ∧ Same p.pagetable own own' s s' ∧ (addInt p.sz n ≤ TRAPFRAME →
        s.supply < 3 * (npages (addInt p.sz n) - npages p.sz)) ∨
      res = ((p.sz : Int), { p with sz := addInt p.sz n }) ∧ addInt p.sz n ≤ TRAPFRAME ∧
        Alloced p.pagetable (npages p.sz) (npages (addInt p.sz n)) (PTE_R ||| PTE_U ||| PTE_W)
          own own' s s') s := by
  have hlt := addInt_of_pos hn hsp.sz_le
  rw [sysSbrk, if_pos (Or.inl rfl), wp_bind, growproc, if_pos hn]
  by_cases hbig : TRAPFRAME < addInt p.sz n
  · rw [if_pos hbig, wp_pure]
    refine (wp_pure _).mpr ⟨own, Or.inl ⟨rfl, ?_, fun hle => absurd hbig (Nat.not_lt.mpr hle)⟩⟩
    exact ⟨h, hsp.root, Frame.refl _ _ _ _, fun _ _ => rfl⟩
  · rw [if_neg hbig, wp_bind]
    refine (uvmalloc_spec h hsp.root (by omega) (by omega) (by decide)
      (hsp.none_between (by omega))).mono fun sz s' hres => ?_
    obtain ⟨own', ⟨rfl, halloc⟩ | ⟨rfl, hsame, hshort⟩⟩ := hres
    · rw [if_neg (by omega), wp_pure]
      exact (wp_pure _).mpr ⟨own', Or.inr ⟨rfl, by omega, halloc⟩⟩
    · rw [if_pos rfl, wp_pure]
      exact (wp_pure _).mpr ⟨own', Or.inl ⟨rfl, hsame, fun _ => hshort⟩⟩

/-- The process has grown by a number of units, and every page that was added
belongs to it. -/
structure Kernel.Ok (base start : Nat) (e : Kernel) : Prop where
  first : e.start = start
  above : base < e.start
  grown : ∃ nu, e.proc.sz = e.start + headerSize * nu
  mapped : ∃ own, Owned own e.phys ∧ Space own e.phys e.proc.pagetable e.proc.sz ∧
    ∀ v, npages e.start ≤ v → v < npages e.proc.sz → ∃ pa, own pa = some (.user e.proc.pagetable v)

/-- The pages that were added are different pages of memory. -/
theorem Kernel.Ok.pages_le {base start : Nat} {e : Kernel} (h : e.Ok base start) :
    npages e.proc.sz - npages e.start ≤ PHYSTOP / 4096 := by
  obtain ⟨own, howned, hspace, hmapped⟩ := h.mapped
  choose! page hpage using hmapped
  have hcard : (Finset.Ico (npages e.start) (npages e.proc.sz)).card
      ≤ (Finset.range (PHYSTOP / 4096)).card := by
    have hin : ∀ v ∈ Finset.Ico (npages e.start) (npages e.proc.sz),
        own (page v) = some (.user e.proc.pagetable v) ∧ page v % 4096 = 0 ∧ page v < PHYSTOP := by
      intro v hv
      obtain ⟨hlo, hhi⟩ := Finset.mem_Ico.mp hv
      have hown := hpage v hlo hhi
      obtain ⟨hmod, -, hlt⟩ := howned.ram (page v) (by rw [hown]; exact Option.some_ne_none _)
      exact ⟨hown, hmod, hlt⟩
    have htop : PHYSTOP = 0x88000000 := rfl
    refine Finset.card_le_card_of_injOn (fun v => page v / 4096) (fun v hv => ?_) ?_
    · obtain ⟨-, hmod, hlt⟩ := hin v hv
      exact Finset.mem_coe.mpr (Finset.mem_range.mpr (by dsimp only; omega))
    · intro v hv w hw heq
      obtain ⟨hv, hvmod, -⟩ := hin v hv
      obtain ⟨hw, hwmod, -⟩ := hin w hw
      have hsame : page v = page w := by dsimp only at heq; omega
      rw [hsame, hw] at hv
      cases hv
      rfl
  rwa [Nat.card_Ico, Finset.card_range] at hcard

theorem Kernel.Ok.total_lt {base start : Nat} {e : Kernel} (h : e.Ok base start) :
    e.memory.total < 2 ^ 32 := by
  have hpages := h.pages_le
  obtain ⟨nu, hgrown⟩ := h.grown
  have htop : PHYSTOP / 4096 = 557056 := rfl
  simp only [Kernel.memory, headerSize, npages] at hpages hgrown ⊢
  omega

/-- A request that fits in an `int` fails for want of memory, or adds the memory asked for. -/
theorem Kernel.sbrk_spec {base start nu : Nat} {e : Kernel} (hok : e.Ok base start) (hpos : 0 < nu)
    (hlt : nu * headerSize < 2 ^ 31) : ∃ phys,
    Kernel.sbrk e (nu * headerSize) = (none, { e with phys := phys }) ∧
      Kernel.Ok base start { e with phys := phys } ∧ (e.proc.sz + headerSize * nu ≤ TRAPFRAME →
        e.phys.supply < 3 * (npages (e.proc.sz + headerSize * nu) - npages e.proc.sz)) ∨
    Kernel.sbrk e (nu * headerSize) = (some e.proc.sz,
        { e with proc := { e.proc with sz := e.proc.sz + headerSize * nu }, phys := phys }) ∧
      Kernel.Ok base start
        { e with proc := { e.proc with sz := e.proc.sz + headerSize * nu }, phys := phys } := by
  obtain ⟨own, howned, hspace, hmapped⟩ := hok.mapped
  have hint := toInt_request hlt
  have hadd : addInt e.proc.sz (BitVec.ofNat 32 (nu * headerSize)) =
      e.proc.sz + headerSize * nu := by
    have htf : TRAPFRAME < 2 ^ 38 := by decide
    have hsz := hspace.sz_le
    rw [addInt, hint]
    simp only [headerSize] at hlt ⊢
    omega
  obtain ⟨res, phys, hcall, own', hres⟩ := (sysSbrk_grow (E := fun _ => False) howned hspace
    (n := BitVec.ofNat 32 (nu * headerSize)) (by rw [hint]; simp only [headerSize]; omega)).returns
  rw [hadd] at hres
  refine ⟨phys, ?_⟩
  rcases hres with ⟨rfl, hsame, hshort⟩ | ⟨rfl, htf, halloc⟩
  · refine Or.inl ⟨?_,
      ⟨hok.first, hok.above, hok.grown, own', hsame.owned, ?_, fun v hlo hhi => ?_⟩, hshort⟩
    · rw [Kernel.sbrk, hcall]
      rfl
    · exact (hsame.resized hspace fun _ => True).space
    · obtain ⟨pa, hpa⟩ := hmapped v hlo hhi
      exact ⟨pa, (hsame.frame.user pa _ v hpa not_false).1⟩
  · obtain ⟨nu₀, hgrown⟩ := hok.grown
    refine Or.inr
      ⟨?_, hok.first, hok.above, ⟨nu₀ + nu, by simp only [hgrown, Nat.mul_add]; omega⟩, own',
      halloc.owned, ?_, fun v hlo hhi => ?_⟩
    · rw [Kernel.sbrk, hcall]
      have hne : (e.proc.sz : Int) ≠ -1 := by omega
      simp only [if_neg hne, Int.toNat_natCast]
    · exact (halloc.resized hspace (Nat.le_add_right _ _) htf).space
    · rcases Nat.lt_or_ge v (npages e.proc.sz) with hold | hnew
      · obtain ⟨pa, hpa⟩ := hmapped v hlo hold
        exact ⟨pa, (halloc.frame.user pa _ v hpa not_false).1⟩
      · obtain ⟨pa, -, hpa, -⟩ := halloc.new v hnew hhi
        exact ⟨pa, hpa⟩

theorem Kernel.honest (base start : Nat) :
    Honest base Kernel.sbrk Kernel.memory (Kernel.Ok base start)
      (fun nu => 0 < nu ∧ nu * headerSize < 2 ^ 31) where
  above {e} hok := by
    obtain ⟨nu, hgrown⟩ := hok.grown
    have := hok.above
    simp only [Kernel.memory]
    omega
  fail {e e' nu} hok hreq h := by
    obtain ⟨phys, ⟨heq, hok', -⟩ | ⟨heq, -⟩⟩ := Kernel.sbrk_spec hok hreq.1 hreq.2
    · rw [heq] at h
      cases h
      exact ⟨hok', rfl⟩
    · rw [heq] at h
      cases h
  grant {e e' nu r} hok hreq h := by
    obtain ⟨nu₀, hgrown⟩ := hok.grown
    obtain ⟨phys, ⟨heq, -⟩ | ⟨heq, hok'⟩⟩ := Kernel.sbrk_spec hok hreq.1 hreq.2
    · rw [heq] at h
      cases h
    · rw [heq] at h
      cases h
      refine ⟨hok', le_rfl, le_rfl, ?_, fun x hx => ?_, fun x hx hlt => ?_⟩
      · simp only [Kernel.memory, headerSize] at hgrown ⊢
        omega
      · simp only [Kernel.memory] at hx ⊢
        omega
      · simp only [Kernel.memory] at hx hlt ⊢
        omega

/-! ## What malloc returns -/

/-- Two ranges of bytes have none in common. -/
def Clear (x y : Nat × Nat) : Prop :=
  x.1 + x.2 ≤ y.1 ∨ y.1 + y.2 ≤ x.1

theorem Apart.clear {x y : Nat × Nat} {b c : Block} (h : Apart b c) (hx : Holds x b)
    (hy : Holds y c) : Clear x y := by
  simp only [Apart, Clear, Holds, Block.stop, headerSize] at *
  omega

theorem clear_of_forall₂ {live : List (Nat × Nat)} {used : List Block}
    (h : List.Forall₂ Holds live used) (hapart : used.Pairwise Apart) : live.Pairwise Clear := by
  induction h with
  | nil => exact List.Pairwise.nil
  | cons hxb hrest ih =>
    obtain ⟨hb, hapart⟩ := List.pairwise_cons.mp hapart
    refine List.pairwise_cons.mpr ⟨fun y hy => ?_, ih hapart⟩
    obtain ⟨c, used', hperm, hyc, -⟩ := forall₂_erase hrest hy
    exact (hb c (hperm.mem_iff.mpr List.mem_cons_self)).clear hxb hyc

/-- The process before its first call. -/
def Kernel.init (p : UProc) (phys : Phys) : Kernel where
  start := p.sz
  proc := p
  phys := phys

theorem Kernel.ok_init {sys₀ sys : Vm.Sys} {acts : List Vm.Act} {i base : Nat} {p : UProc}
    (hboot : Booted sys₀) (hrun : exec Vm.step sys₀ acts = some sys) (hp : sys.procs i = some p)
    (hdata : base + headerSize ≤ p.sz) (denied : List Bool) :
    Kernel.Ok base p.sz (Kernel.init p { sys.phys with denied := denied }) := by
  obtain ⟨own, hmem⟩ := inv_of_run (I := fun sys => ∃ own, SysMem own sys.phys sys.procs)
    (fun _ _ _ => sysMem_step) ⟨_, sysMem_of_booted hboot⟩ hrun
  have hmem := hmem.deny denied
  exact ⟨rfl, (Nat.lt_add_of_pos_right (by decide)).trans_le hdata, ⟨0, rfl⟩, own, hmem.owned,
    (hmem.mem i p hp).space, fun v hlo hhi => absurd hhi (Nat.not_lt.mpr hlo)⟩

/-- In every run of a process without a request of more than 2^31 - 32 bytes, the
live blocks lie in the memory that `sbrk` added to the process, and are disjoint. -/
theorem malloc_blocks {sys₀ sys : Vm.Sys} {acts : List Vm.Act} {i base : Nat} {p : UProc}
    {denied : List Bool} {as : List Act} {s : Sys Kernel} (hboot : Booted sys₀)
    (hrun : exec Vm.step sys₀ acts = some sys) (hp : sys.procs i = some p) (hbase : 0 < base)
    (hdata : base + headerSize ≤ p.sz)
    (hfits : StepsMeet (step base Kernel.sbrk) (fun _ a => a.Fits)
      (init (Kernel.init p { sys.phys with denied := denied })) as)
    (hexec : exec (step base Kernel.sbrk)
      (init (Kernel.init p { sys.phys with denied := denied })) as
      = some s) :
    s.stuck = false ∧ (∀ x ∈ s.live, p.sz ≤ x.1 ∧ x.1 + x.2 ≤ s.heap.env.proc.sz) ∧
      s.live.Pairwise Clear := by
  have hok := Kernel.ok_init hboot hrun hp hdata denied
  obtain ⟨hok', hgood⟩ := good_run (Kernel.honest base p.sz) hbase hok
    (by simp [Kernel.memory, Kernel.init]) (hfits.mono fun _ _ h => h.asks) hexec
  obtain ⟨hrunning, fr, used, hheap, -, hlive⟩ := hgood hok'.total_lt
  rcases hheap with ⟨-, -, -, rfl⟩ | hinv
  · rw [List.forall₂_nil_right_iff.mp hlive]
    exact ⟨hrunning, by simp, List.Pairwise.nil⟩
  · refine ⟨hrunning, fun x hx => ?_,
      clear_of_forall₂ hlive (List.pairwise_append.mp hinv.tiling.apart).2.1⟩
    obtain ⟨b, used', hperm, hxb, -⟩ := forall₂_erase hlive hx
    have hb := hinv.tiling.within b
      (List.mem_append_right fr (hperm.mem_iff.mpr List.mem_cons_self))
    have hpos := hb.pos
    have hbelow := hb.below
    have hfirst := (hb.owned b.addr le_rfl (by simp only [Block.stop, headerSize]; omega)).1
    rw [hok'.first] at hfirst
    simp only [Holds, Block.stop, headerSize, Kernel.memory] at hxb hbelow
    omega

/-- A machine with 64 free pages. -/
def heapSys : Vm.Sys :=
  { phys :=
      { mem := fun _ _ => 0, freelist := (List.range 64).map fun i => KERNBASE + 4096 * (i + 64) }
    procs := fun _ => none }

theorem booted_heapSys : Booted heapSys :=
  ⟨fun _ => rfl, by decide, by decide, by decide, by decide⟩

/-- The first process grows to 16 bytes beyond its fourth page. -/
def heapRun : List Vm.Act :=
  [⟨.userinit, []⟩, ⟨.sbrk 0 16400 SBRK_EAGER, []⟩]

/-- A test of the first process after `heapRun`. -/
theorem of_heapRun {P : Vm.Sys → UProc → Bool}
    (h : ((exec Vm.step heapSys heapRun).bind fun sys => (sys.procs 0).map (P sys)) = some true) :
    ∃ sys p, exec Vm.step heapSys heapRun = some sys ∧ sys.procs 0 = some p ∧ P sys p = true := by
  obtain ⟨sys, hrun, hsys⟩ := Option.bind_eq_some_iff.mp h
  obtain ⟨p, hp, hP⟩ := Option.map_eq_some_iff.mp hsys
  exact ⟨sys, p, hrun, hp, hP⟩

/-- The free list is `base`, at 4096, and a block of `n` units at 16400. -/
structure OneFree {E : Type} (n : Nat) (live : List (Nat × Nat)) (s : Sys E) : Prop where
  running : s.stuck = false
  freep : s.heap.freep = 4096
  base : s.heap.ptr 4096 = 16400
  block : s.heap.ptr 16400 = 4096
  size : s.heap.size 16400 = n
  live_eq : s.live = live

section

variable {E : Type} {sbrk : Sbrk E} {e e' : E} {s : Sys E} {live : List (Nat × Nat)}

theorem oneFree_first (h : sbrk e 65536 = (some 16400, e')) : ∃ s,
    step 4096 sbrk (init e) (.malloc 100) = some s ∧ OneFree 4088 [(81824, 100)] s := by
  refine ⟨_, by simp [step, Sys.fuel, init, malloc, prepare, mallocLoop, nunits, morecore,
    headerSize, h, Heap.setPtr, Heap.setSize, free, findPlace, linkNext, linkPrev, Heap.after,
    carve, Function.update_apply]; rfl, ?_⟩
  constructor <;> rfl

theorem OneFree.malloc (sbrk : Sbrk E) (nbytes : BitVec 32) (k : Nat)
    (h : OneFree (nunits nbytes.toNat + k) live s) (hpos : 0 < k) (hk : k < 4096) : ∃ s',
    step 4096 sbrk s (.malloc nbytes) = some s' ∧
      OneFree k ((16416 + 16 * k, nbytes.toNat) :: live) s' := by
  obtain ⟨⟨ptr, size, freep, env⟩, live, calls, stuck⟩ := s
  obtain ⟨rfl, rfl, hbase, hblock, hsize, rfl⟩ := h
  dsimp only at hbase hblock hsize
  refine ⟨_, by simp [step, Sys.fuel, Umalloc.malloc, prepare, mallocLoop, hbase, hsize, carve,
    hpos.ne', Heap.after, Heap.setSize, headerSize]; rfl, rfl, rfl, hbase, hblock, ?_, ?_⟩
  · simp only [Function.update_apply]
    split_ifs <;> omega
  · simp
    omega

theorem OneFree.free (sbrk : Sbrk E) {n : Nat} (h : OneFree n live s)
    (hlive : live.find? (·.1 == 81600) = some (81600, 200)) : ∃ s',
    step 4096 sbrk s (.free 81600) = some s' ∧ s'.live = live.erase (81600, 200) := by
  obtain ⟨⟨ptr, size, freep, env⟩, live, calls, stuck⟩ := s
  obtain ⟨rfl, rfl, hbase, hblock, -, rfl⟩ := h
  dsimp only at hbase hblock hlive
  simp [step, hlive, Umalloc.free, findPlace, hbase, hblock, headerSize, Sys.fuel]

end

/-- Three blocks, of which the second is freed. -/
def fourCalls : List Act :=
  [.malloc 100, .malloc 200, .malloc 300, .free 81600]

theorem exec_fourCalls {E : Type} {sbrk : Sbrk E} {e e' : E}
    (h : sbrk e 65536 = (some 16400, e')) : ∃ s,
    exec (step 4096 sbrk) (init e) fourCalls = some s ∧ s.live = [(81280, 300), (81824, 100)] := by
  obtain ⟨s₁, h₁, hfree⟩ := oneFree_first h
  obtain ⟨s₂, h₂, hfree⟩ := hfree.malloc sbrk 200 4074 (by decide) (by decide)
  obtain ⟨s₃, h₃, hfree⟩ := hfree.malloc sbrk 300 4054 (by decide) (by decide)
  obtain ⟨s₄, h₄, hlive⟩ := hfree.free sbrk rfl
  exact ⟨s₄, by simp only [fourCalls, exec, h₁, h₂, h₃, h₄, Option.bind_some], hlive⟩

theorem malloc_blocks_heapRun :
    ∃ sys p s, exec Vm.step heapSys heapRun = some sys ∧ sys.procs 0 = some p ∧
      exec (step 4096 Kernel.sbrk) (init (Kernel.init p { sys.phys with denied := [] }))
        fourCalls = some s ∧ s.live = [(81280, 300), (81824, 100)] ∧
      (s.stuck = false ∧ (∀ x ∈ s.live, p.sz ≤ x.1 ∧ x.1 + x.2 ≤ s.heap.env.proc.sz) ∧
        s.live.Pairwise Clear) := by
  obtain ⟨sys, p, hrun, hp, htest⟩ := of_heapRun (P := fun sys p => p.sz == 16400 &&
    decide (48 ≤ supplyOf sys.phys.freelist [])) (by decide +kernel)
  simp only [Bool.and_eq_true, beq_iff_eq, decide_eq_true_eq] at htest
  obtain ⟨hsz, hsupply⟩ := htest
  have hdata : 4096 + headerSize ≤ p.sz := by rw [hsz]; decide
  have hstart : (Kernel.init p { sys.phys with denied := [] }).proc.sz = 16400 := hsz
  obtain ⟨phys, ⟨-, -, hshort⟩ | ⟨hsbrk, -⟩⟩ := Kernel.sbrk_spec
    (Kernel.ok_init booted_heapSys hrun hp hdata []) (by decide : 0 < 4096) (by decide)
  · rw [hstart] at hshort
    exact absurd (hshort (by decide)) (Nat.not_lt.mpr hsupply)
  · rw [hstart] at hsbrk
    obtain ⟨s, hexec, hlive⟩ := exec_fourCalls hsbrk
    exact ⟨sys, p, s, hrun, hp, hexec, hlive, malloc_blocks booted_heapSys hrun hp (by decide)
      hdata (stepsMeet_of_forall (show ∀ a ∈ fourCalls, a.Fits by decide) _) hexec⟩

/-- 2^28 units are 2^32 bytes, which become the `int` 0: `malloc` returns the end
of the memory of the process, whose header is still in its last page. -/
theorem malloc_beyond_break :
    ∃ sys p s, Booted heapSys ∧ exec Vm.step heapSys heapRun = some sys ∧ sys.procs 0 = some p ∧
      p.sz = 16400 ∧ lookup sys.phys.mem p.pagetable 4 ≠ none ∧
      exec (step 4096 Kernel.sbrk) (init (Kernel.init p sys.phys)) [.malloc 4294967280] = some s ∧
      s.live = [(16416, 4294967280)] ∧ s.heap.env.proc.sz = 16400 := by
  obtain ⟨sys, p, hrun, hp, htest⟩ := of_heapRun (P := fun sys p => p.sz == 16400 &&
    (lookup sys.phys.mem p.pagetable 4).isSome &&
    runCheck (step 4096 Kernel.sbrk) (fun _ _ => true)
      (fun s => s.live == [(16416, 4294967280)] && s.heap.env.proc.sz == 16400)
      (init (Kernel.init p sys.phys)) [.malloc 4294967280]) (by decide +kernel)
  simp only [Bool.and_eq_true, beq_iff_eq] at htest
  obtain ⟨⟨hsz, hpage⟩, hcheck⟩ := htest
  obtain ⟨-, s, hexec, hend⟩ := of_runCheck hcheck
  simp only [Bool.and_eq_true, beq_iff_eq] at hend
  exact ⟨sys, p, s, booted_heapSys, hrun, hp, hsz, Option.isSome_iff_ne_none.mp hpage, hexec, hend⟩

end Xv6.Umalloc
