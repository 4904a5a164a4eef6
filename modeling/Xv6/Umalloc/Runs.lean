import Xv6.Umalloc.Malloc

/-!
# Runs of the allocator

In every run of calls of `malloc` and `free` the blocks tile the memory obtained,
as long as its units can be counted in a `uint`.

* `Sys.Good`: the invariant; `Sys.blocks` reads the live blocks off their headers.
* `step_total_le`, `Sys.Good.step`, `good_run`: what a call and a run keep, for any
  `sbrk` that is `Honest`.
* `Source`: an `sbrk` that fails, or returns a fresh region above all earlier ones,
  as it likes.  Its argument is an `int`, so `Act.Fits` asks for requests that fit.
* `freeList_run`: the free list in every run of such requests.  When 2^32 units are
  obtained, the size of a merged block no longer fits in its header
  (`freeList_overflow`).
-/

namespace Xv6.Umalloc

open Xv6.Lib.Linked Xv6.Lib.Run

variable {E : Type}

/-! ## The invariant -/

section Honest

variable {base : Nat} {sbrk : Sbrk E} {mem : E → Memory} {Ok : E → Prop} {Req : Nat → Prop}
variable {s s' : Sys E}

/-- The live block `x` is `b`, which has room for the bytes asked for. -/
def Holds (x : Nat × Nat) (b : Block) : Prop :=
  x.1 = b.addr + headerSize ∧ x.2 + headerSize ≤ headerSize * b.units

/-- The program is not stuck, its live blocks are the blocks in use, and the free
list is no longer than the calls have made it. -/
structure Sys.Good (base : Nat) (mem : E → Memory) (s : Sys E) : Prop where
  running : s.stuck = false
  heap : ∃ fr used, s.heap.Good base (mem s.heap.env) fr used ∧ fr.length ≤ s.calls ∧
    List.Forall₂ Holds s.live used

theorem forall₂_erase {live : List (Nat × Nat)} {used : List Block} {x : Nat × Nat}
    (h : List.Forall₂ Holds live used) (hx : x ∈ live) :
    ∃ b used', used.Perm (b :: used') ∧ Holds x b ∧ List.Forall₂ Holds (live.erase x) used' := by
  induction h with
  | nil => cases hx
  | @cons y b live used hyb hrest ih =>
    by_cases heq : y = x
    · subst heq
      exact ⟨b, used, List.Perm.refl _, hyb, by rwa [List.erase_cons_head]⟩
    · rcases List.mem_cons.mp hx with rfl | hx
      · exact absurd rfl heq
      obtain ⟨c, used', hperm, hxc, hrest'⟩ := ih hx
      refine ⟨c, b :: used', (hperm.cons b).trans (List.Perm.swap c b used'), hxc, ?_⟩
      rw [List.erase_cons_tail (by simpa using heq)]
      exact hrest'.cons hyb

/-- The request of a call, if it is one of `malloc`. -/
def Act.Asks (Req : Nat → Prop) : Act → Prop
  | .malloc nbytes => Req (coreUnits (nunits nbytes.toNat))
  | .free _ => True

/-- No call gives memory back. -/
theorem step_total_le (hs : Honest base sbrk mem Ok Req) {a : Act} (hreq : a.Asks Req)
    (hok : Ok s.heap.env) (hstep : step base sbrk s a = some s') :
    Ok s'.heap.env ∧ (mem s.heap.env).total ≤ (mem s'.heap.env).total := by
  cases a with
  | malloc nbytes =>
    have hle := malloc_total_le s.fuel hs hok hreq
    rw [step] at hstep
    split at hstep
    · cases hstep
    split at hstep
    · next env heq =>
      rw [heq] at hle
      cases hstep
      exact hle
    · next ap heap heq =>
      rw [heq] at hle
      cases hstep
      exact hle
  | free ap =>
    rw [step] at hstep
    split at hstep
    · cases hstep
    split at hstep
    · cases hstep
    split at hstep
    · cases hstep
      exact ⟨hok, le_rfl⟩
    · next heap heq =>
      cases hstep
      show Ok heap.env ∧ _ ≤ (mem heap.env).total
      rw [free_env heq]
      exact ⟨hok, le_rfl⟩

/-- A call that leaves the units countable keeps the invariant. -/
theorem Sys.Good.step (hs : Honest base sbrk mem Ok Req) (hbase : 0 < base) {a : Act}
    (hreq : a.Asks Req) (hok : Ok s.heap.env) (hgood : s.Good base mem)
    (hstep : step base sbrk s a = some s') (htotal : (mem s'.heap.env).total < 2 ^ 32) :
    s'.Good base mem := by
  obtain ⟨hrun, fr, used, hheap, hlen, hlive⟩ := hgood
  cases a with
  | malloc nbytes =>
    have hend : (mem (endEnv (malloc base sbrk s.fuel nbytes.toNat s.heap))).total < 2 ^ 32 := by
      rw [Umalloc.step, if_neg (by rw [hrun]; exact Bool.false_ne_true)] at hstep
      split at hstep
      · next env heq =>
        cases hstep
        rw [heq]
        exact htotal
      · next ap heap heq =>
        cases hstep
        rw [heq]
        exact htotal
    obtain ⟨ap, heap, fr', used', hcall, hinv, hlen', hcase⟩ :=
      malloc_spec hs hok hbase hreq nbytes.isLt hheap (by rw [Sys.fuel]; omega) hend
    rw [Umalloc.step, if_neg (by rw [hrun]; exact Bool.false_ne_true), hcall] at hstep
    cases hstep
    refine ⟨hrun, fr', used', Or.inr hinv, by dsimp only; omega, ?_⟩
    dsimp only
    rcases hcase with ⟨rfl, rfl⟩ | ⟨b, rfl, hunits, rfl⟩
    · rw [if_pos rfl]
      exact hlive
    · rw [if_neg (by simp [headerSize])]
      exact hlive.cons ⟨rfl, hunits ▸ (nunits_spec nbytes.isLt).2.2⟩
  | free ap =>
    rw [Umalloc.step, if_neg (by rw [hrun]; exact Bool.false_ne_true)] at hstep
    split at hstep
    · cases hstep
    next x hfind =>
    have hx : x ∈ s.live := List.mem_of_find?_eq_some hfind
    have hap : x.1 = ap := by simpa using List.find?_some hfind
    obtain ⟨b, used', hperm, hxb, hlive'⟩ := forall₂_erase hlive hx
    have hinv : s.heap.Inv base (mem s.heap.env) fr used := by
      rcases hheap with ⟨-, -, -, rfl⟩ | hinv
      · cases hperm.nil_eq
      · exact hinv
    have hbound : (mem s.heap.env).total < 2 ^ 32 := by
      split at hstep
      · cases hstep
        exact htotal
      · next heap hfree =>
        cases hstep
        rw [← free_env hfree]
        exact htotal
    obtain ⟨heap, fr', hfree, hinv', hlen', -, henv⟩ :=
      free_spec (hinv.perm hperm) hbound
        (show 2 * (fr.length + 1) ≤ s.fuel by rw [Sys.fuel]; omega)
    rw [← hap, hxb.1, hfree] at hstep
    cases hstep
    exact ⟨hrun, fr', used', Or.inr (henv.symm ▸ hinv'), by dsimp only; omega, hlive'⟩

theorem init_good {env : E} (h : (mem env).total = 0) : (init env).Good base mem :=
  ⟨rfl, [], [], Or.inl ⟨rfl, h, rfl, rfl⟩, le_rfl, List.Forall₂.nil⟩

/-- The invariant holds at the end of every run whose requests `sbrk` is honest
about, if the units are countable then. -/
theorem good_run (hs : Honest base sbrk mem Ok Req) (hbase : 0 < base) {env : E} (hok : Ok env)
    (hzero : (mem env).total = 0) {as : List Act}
    (hreq : StepsMeet (step base sbrk) (fun _ a => a.Asks Req) (init env) as)
    (hexec : exec (step base sbrk) (init env) as = some s) :
    Ok s.heap.env ∧ ((mem s.heap.env).total < 2 ^ 32 → s.Good base mem) := by
  refine inv_of_exec
    (I := fun s => Ok s.heap.env ∧ ((mem s.heap.env).total < 2 ^ 32 → s.Good base mem))
    (fun s a s' hinv hask hstep => ?_) ⟨hok, fun _ => init_good hzero⟩ hreq hexec
  obtain ⟨hok', hle⟩ := step_total_le hs hask hinv.1 hstep
  exact ⟨hok', fun htotal =>
    (hinv.2 (hle.trans_lt htotal)).step hs hbase hask hinv.1 hstep htotal⟩

end Honest

/-! ## A source of fresh memory -/

/-- The layout of a program: its static header `base` lies below the break. -/
structure Image where
  base : Nat
  brk : Nat
  base_pos : 0 < base
  base_lt : base + headerSize ≤ brk

/-- An `sbrk` that answers as it likes: the `i`-th call finds no memory, or returns
a region of the size asked for at a distance of its choice above all memory obtained
before. -/
structure Source where
  answers : Nat → Option Nat
  calls : Nat := 0
  top : Nat
  /-- The regions returned, with their sizes in bytes. -/
  regions : List (Nat × Nat) := []

def Source.start (img : Image) (answers : Nat → Option Nat) : Source :=
  { answers := answers, top := img.brk }

/-- `sbrk(n)`: the argument is converted to an `int`.  There is no region of a negative
size. -/
def Source.sbrk : Sbrk Source := fun e nbytes =>
  let n := (BitVec.ofNat 32 nbytes).toInt
  match e.answers e.calls with
  | none => (none, { e with calls := e.calls + 1 })
  | some gap =>
    if n < 0 then (none, { e with calls := e.calls + 1 })
    else (some (e.top + gap), { e with
      calls := e.calls + 1
      top := e.top + gap + n.toNat
      regions := (e.top + gap, n.toNat) :: e.regions })

/-- The units obtained. -/
def Source.units (e : Source) : Nat :=
  (e.regions.map fun r => r.2 / headerSize).sum

/-- The memory obtained. -/
def Source.memory (e : Source) : Memory where
  top := e.top
  total := e.units
  owned x := ∃ r ∈ e.regions, r.1 ≤ x ∧ x < r.1 + r.2

theorem toInt_request {nu : Nat} (hlt : nu * headerSize < 2 ^ 31) :
    (BitVec.ofNat 32 (nu * headerSize)).toInt = (nu * headerSize : Nat) := by
  have hmod : (BitVec.ofNat 32 (nu * headerSize)).toNat = nu * headerSize := by
    rw [BitVec.toNat_ofNat, Nat.mod_eq_of_lt (by omega)]
  rw [BitVec.toInt_eq_toNat_of_lt (by omega), hmod]

theorem Source.honest (img : Image) :
    Honest img.base Source.sbrk Source.memory (fun e => img.base < e.top)
      (fun nu => 0 < nu ∧ nu * headerSize < 2 ^ 31) where
  above h := h
  fail {e e' nu} hok _ h := by
    simp only [Source.sbrk] at h
    split at h
    · cases h
      exact ⟨hok, rfl⟩
    · split at h <;> cases h
      exact ⟨hok, rfl⟩
  grant {e e' nu r} hok hreq h := by
    simp only [Source.sbrk, toInt_request hreq.2, Int.toNat_natCast] at h
    split at h
    · cases h
    · next gap _ =>
      rw [if_neg (by omega)] at h
      cases h
      have hsize : nu * headerSize / headerSize = nu := Nat.mul_div_cancel nu (by decide)
      refine ⟨by dsimp only; omega, Nat.le_add_right _ _, ?_, ?_, fun x hx => ?_,
        fun x hx hlt => ?_⟩
      · simp only [Source.memory, Nat.mul_comm nu headerSize, le_refl]
      · simp only [Source.memory, Source.units, List.map_cons, List.sum_cons, hsize]
        omega
      · obtain ⟨r, hr, hx⟩ := hx
        exact ⟨r, List.mem_cons_of_mem _ hr, hx⟩
      · exact ⟨_, List.mem_cons_self, hx, by rwa [Nat.mul_comm nu headerSize]⟩

/-- The request of a call, in units, fits in an `int` of bytes. -/
def Act.Fits : Act → Prop
  | .malloc nbytes => nbytes.toNat ≤ 2 ^ 31 - 32
  | .free _ => True

instance : DecidablePred Act.Fits
  | .malloc nbytes => inferInstanceAs (Decidable (nbytes.toNat ≤ 2 ^ 31 - 32))
  | .free _ => inferInstanceAs (Decidable True)

theorem Act.Fits.asks {a : Act} (h : a.Fits) :
    a.Asks fun nu => 0 < nu ∧ nu * headerSize < 2 ^ 31 := by
  cases a with
  | malloc nbytes =>
    have h : nbytes.toNat ≤ 2 ^ 31 - 32 := h
    have hpos : 0 < nunits nbytes.toNat := (nunits_spec nbytes.isLt).1
    have hle : nunits nbytes.toNat < 2 ^ 27 := by
      simp only [nunits, headerSize]
      omega
    show 0 < coreUnits (nunits nbytes.toNat) ∧ coreUnits (nunits nbytes.toNat) * 16 < 2 ^ 31
    generalize nunits nbytes.toNat = nu at hpos hle
    rw [coreUnits]
    split <;> omega
  | free _ => trivial

/-! ## The free list in every run -/

/-- The live blocks, as their headers describe them. -/
def Sys.blocks (s : Sys E) : List Block :=
  s.live.map fun x => ⟨x.1 - headerSize, s.heap.size (x.1 - headerSize)⟩

theorem blocks_eq {h : Heap E} {live : List (Nat × Nat)} {used : List Block}
    (hlive : List.Forall₂ Holds live used) (hsizes : ∀ b ∈ used, h.size b.addr = b.units) :
    live.map (fun x => (⟨x.1 - headerSize, h.size (x.1 - headerSize)⟩ : Block)) = used := by
  induction hlive with
  | nil => rfl
  | @cons x b live used hxb _ ih =>
    have haddr : x.1 - headerSize = b.addr := by
      rw [hxb.1]
      exact Nat.add_sub_cancel _ _
    rw [List.map_cons, ih fun c hc => hsizes c (List.mem_cons_of_mem b hc), haddr,
      hsizes b List.mem_cons_self]

/-- While fewer than 2^32 units have been obtained by requests that fit, no call loops for
ever, and the free list is circular, ordered and coalesced, and makes up the memory
obtained together with the live blocks. -/
theorem freeList_run (img : Image) (answers : Nat → Option Nat) {as : List Act} {s : Sys Source}
    (hfits : ∀ a ∈ as, a.Fits)
    (hexec : exec (step img.base Source.sbrk) (init (Source.start img answers)) as = some s)
    (hunits : s.heap.env.units < 2 ^ 32) :
    s.stuck = false ∧
      (s.heap.freep = 0 ∧ s.live = [] ∧ s.heap.env.units = 0 ∨
        ∃ fr, FreeList img.base s.heap fr ∧ (fr ++ s.blocks).Pairwise Apart ∧
          units (fr ++ s.blocks) = s.heap.env.units) := by
  have hbrk : img.base < img.brk := (Nat.lt_add_of_pos_right (by decide)).trans_le img.base_lt
  obtain ⟨hrun, fr, used, hheap, -, hlive⟩ := (good_run (Source.honest img) img.base_pos hbrk rfl
    (stepsMeet_of_forall (fun a ha => (hfits a ha).asks) _) hexec).2 hunits
  refine ⟨hrun, ?_⟩
  rcases hheap with ⟨hfreep, htotal, -, rfl⟩ | hinv
  · exact Or.inl ⟨hfreep, List.forall₂_nil_right_iff.mp hlive, htotal⟩
  · rw [Sys.blocks, blocks_eq hlive hinv.usedSizes]
    exact Or.inr ⟨fr, hinv.list, hinv.tiling.apart, hinv.tiling.count⟩

/-- A program with two pages of code and data. -/
def smallImage : Image := ⟨4096, 8192, by decide, by decide⟩

/-- Two blocks are allocated, and the first is freed. -/
theorem freeList_run_twoBlocks :
    ∃ s, exec (step smallImage.base Source.sbrk) (init (Source.start smallImage fun _ => some 0))
        [.malloc 100, .malloc 5000, .free 73616] = some s ∧ s.live = [(68592, 5000)] ∧
      s.stuck = false ∧
        (s.heap.freep = 0 ∧ s.live = [] ∧ s.heap.env.units = 0 ∨
          ∃ fr, FreeList smallImage.base s.heap fr ∧ (fr ++ s.blocks).Pairwise Apart ∧
            units (fr ++ s.blocks) = s.heap.env.units) := by
  have hcheck : runCheck (step smallImage.base Source.sbrk) (fun _ _ => true)
      (fun s => s.live == [(68592, 5000)] && decide (s.heap.env.units < 2 ^ 32))
      (init (Source.start smallImage fun _ => some 0))
      [.malloc 100, .malloc 5000, .free 73616] = true := by
    decide +kernel
  obtain ⟨-, s, hexec, hend⟩ := of_runCheck hcheck
  simp only [Bool.and_eq_true, beq_iff_eq, decide_eq_true_eq] at hend
  exact ⟨s, hexec, hend.1, freeList_run smallImage _ (by decide) hexec hend.2⟩

/-- A free list of one block. -/
theorem FreeList.eq_singleton {base a : Nat} {h : Heap E} {fr : List Block}
    (hl : FreeList base h fr) (hba : h.ptr base = a) (hab : h.ptr a = base) (hne : a ≠ base) :
    fr = [⟨a, h.size a⟩] := by
  have hring := hl.ring
  cases fr with
  | nil => exact absurd (hba.symm.trans (links_cons_cons.mp hring).1) hne
  | cons b fr =>
    obtain ⟨hb, hrest⟩ := links_cons_cons.mp hring
    have haddr : b.addr = a := hb.symm.trans hba
    have hsize := hl.sizes b List.mem_cons_self
    cases fr with
    | nil =>
      rw [haddr] at hsize
      rw [hsize, ← haddr]
    | cons c fr =>
      -- the next block would be `base`
      have hc : h.ptr b.addr = c.addr := (links_cons_cons.mp hrest).1
      have hlt := (List.pairwise_cons.mp hl.ordered).1 c.addr (by simp)
      rw [haddr, hab] at hc
      omega

/-- 33 blocks of 2^27 - 1 units each are allocated in adjacent regions, and then freed. -/
def manyBlocks : List Act :=
  List.replicate 33 (.malloc (BitVec.ofNat 32 (2 ^ 31 - 32))) ++
    (List.range 33).map fun i => .free (8208 + i * (2 ^ 31 - 16))

/-- The blocks become one, whose header says that it has 2^27 - 33 units. -/
theorem freeList_overflow :
    (∀ a ∈ manyBlocks, a.Fits) ∧
    ∃ s, exec (step smallImage.base Source.sbrk) (init (Source.start smallImage fun _ => some 0))
        manyBlocks = some s ∧
      s.stuck = false ∧ s.live = [] ∧ s.heap.env.units = 2 ^ 32 + (2 ^ 27 - 33) ∧
      ∀ fr, FreeList smallImage.base s.heap fr → units (fr ++ s.blocks) = 2 ^ 27 - 33 := by
  have hcheck : runCheck (step smallImage.base Source.sbrk) (fun _ _ => true)
      (fun s => s.stuck == false && s.live == [] && s.heap.env.units == 2 ^ 32 + (2 ^ 27 - 33) &&
        s.heap.ptr 4096 == 8192 && s.heap.ptr 8192 == 4096 && s.heap.size 8192 == 2 ^ 27 - 33)
      (init (Source.start smallImage fun _ => some 0)) manyBlocks = true := by
    decide +kernel
  obtain ⟨-, s, hexec, hend⟩ := of_runCheck hcheck
  simp only [Bool.and_eq_true, beq_iff_eq] at hend
  obtain ⟨⟨⟨⟨⟨hrun, hlive⟩, hunits⟩, hbase⟩, hnext⟩, hsize⟩ := hend
  refine ⟨by decide, s, hexec, hrun, hlive, hunits, fun fr hfr => ?_⟩
  rw [hfr.eq_singleton hbase hnext (by decide), Sys.blocks, hlive, hsize]
  rfl

end Xv6.Umalloc
