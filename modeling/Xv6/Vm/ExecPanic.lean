import Xv6.Vm.ExecSpec

/-!
# When `kexec` panics

* `ExecReturns`: `kexec` returns `argc` or -1.
* `kexec_returns_iff`: it does so unless the loader reaches a segment with bytes
  for the first page of the image, which `uvmalloc` does not map since the
  loader starts at `PGSIZE`: then `loadseg` panics.
-/

namespace Xv6.Vm

open Xv6.Lib.Bytes Xv6.Lib.Wp

/-- `kexec` returns the number of arguments or -1. -/
def ExecReturns (p : UProc) (path : List UInt8) (file : Option (List UInt8))
    (argv : List (List UInt8)) (s : Phys) : Prop :=
  ∃ res s', kexec p path file argv s = .ok (res, s') ∧ (res.1 = argv.length ∨ res.1 = -1)

/-- `kexec` does not panic, for any file and any arguments, unless the loader reaches a
segment in the first page. -/
theorem kexec_returns_iff {own : Owner} {s : Phys} {p : UProc} (path : List UInt8)
    {file : Option (List UInt8)} {argv : List (List UInt8)} (h : ProcOk own s p)
    (hargs : ExecArgs argv) (hlen : ∀ f, file = some f → f.length < 2 ^ 32) :
    ExecReturns p path file argv s ↔ ∀ f, file = some f → ¬ LoadsNullPage f s.supply := by
  constructor
  · rintro ⟨res, s', hrun, -⟩
    exact ((kexec_spec (E := fun _ => True) h hargs hlen fun _ _ _ => trivial).of_ok hrun).2
  · intro hno
    have hspec : wp (kexec p path file argv) (fun _ => False) _ s := kexec_spec h hargs hlen hno
    obtain ⟨res, s', hrun, hpost, -⟩ := hspec.returns
    refine ⟨res, s', hrun, ?_⟩
    rcases hpost with ⟨rfl, -⟩ | ⟨hargc, -⟩
    · exact .inr rfl
    · exact .inl hargc

/-! ## A first process -/

/-- The first process, as `userinit` makes it. -/
def initProc : UProc :=
  { pagetable := KERNBASE + 4096 * 65, trapframe := KERNBASE + 4096 * 64, sz := 0 }

/-- What a program leaves behind. -/
def stateAfter {α : Type} (x : Kern α) (s : Phys) : Phys :=
  match x s with
  | .ok (_, t) => t
  | .error _ => s

/-- A program whose result is known. -/
theorem wp_stateAfter {α : Type} {x : Kern α} {Q : α → Phys → Prop} {a : α}
    (h : (x s).toOption.map Prod.fst = some a) : wp x E Q s ↔ Q a (stateAfter x s) := by
  unfold wp stateAfter
  cases hx : x s with
  | error e =>
    rw [hx] at h
    cases h
  | ok p =>
    rw [hx] at h
    cases h
    exact Iff.rfl

/-- The memory after `userinit`. -/
def initPhys : Phys := stateAfter allocproc bootPhys

theorem procOk_initProc : ∃ own, ProcOk own initPhys initProc := by
  obtain ⟨own', hnew, -⟩ := (wp_stateAfter (a := some initProc) (by decide +kernel)).mp
    (allocproc_spec (E := fun _ => False) owned_bootPhys (by decide))
  refine ⟨own', hnew.owned, ?_, hnew.space, hnew.trapframe⟩
  rw [initPhys, hnew.frame.trampoline]
  decide

/-- An executable with one segment of one byte at the address `256 * b`. -/
def segmentElf (b : UInt8) : List UInt8 :=
  [0x7f, 0x45, 0x4c, 0x46] ++ List.replicate 28 0 ++ [64] ++ List.replicate 23 0 ++ [1] ++
    List.replicate 7 0 ++
    -- the program header
    [1] ++ List.replicate 16 0 ++ [b] ++ List.replicate 14 0 ++ [1] ++ List.replicate 7 0 ++ [1] ++
    List.replicate 15 0

def nullElf : List UInt8 := segmentElf 0

/-- An executable with one segment of one byte at `PGSIZE`. -/
def textElf : List UInt8 := segmentElf 0x10

/-- `kexec` of `nullElf` by the first process is the panic of `loadseg`. -/
theorem not_kexec_returns_nullElf : (∃ own, ProcOk own initPhys initProc) ∧
    ¬ ExecReturns initProc [] (some nullElf) [] initPhys := by
  refine ⟨procOk_initProc, ?_⟩
  rintro ⟨res, s', hrun, -⟩
  have hpanic : (kexec initProc [] (some nullElf) [] initPhys).map Prod.fst = .error .loadseg := by
    decide +kernel
  rw [hrun] at hpanic
  cases hpanic

theorem execCommit_argc {elf : Elfhdr} {r sz sp argc : Nat} :
    wp (execCommit p path elf r sz sp argc) (fun _ => True) (fun res _ => res.1 = argc) s := by
  simp only [execCommit, wp_bind, wp_pure, setTrapframe, setPage, wp_updates]
  unfold wp
  split <;> trivial

-- how the old page table is freed is not evaluated: its three levels take 512 steps each
theorem kexec_textElf : wp (kexec initProc [] (some textElf) [[0x78]]) (fun _ => True)
    (fun res _ => res.1 = 1) initPhys := by
  simp only [kexec]
  rw [if_neg (by decide +kernel), if_neg (by decide +kernel), wp_bind,
    wp_stateAfter (a := KERNBASE + 4096 * 68) (by decide +kernel), if_neg (by decide), wp_bind,
    wp_stateAfter (a := .ok 4097) (by decide +kernel)]
  dsimp only
  rw [execStack, wp_bind, wp_stateAfter (a := 4 * PGSIZE) (by decide +kernel),
    if_neg (by decide), wp_bind, wp_stateAfter (a := ()) (by decide +kernel), wp_bind,
    wp_stateAfter (a := .ok (4 * PGSIZE - 32)) (by decide +kernel)]
  exact execCommit_argc

set_option maxRecDepth 100000 in
/-- `kexec` of `textElf` with one argument is a success. -/
theorem kexec_returns_iff_textElf : ExecReturns initProc [] (some textElf) [[0x78]] initPhys ∧
    (kexec initProc [] (some textElf) [[0x78]] initPhys).toOption.map (·.1.1) = some 1 := by
  obtain ⟨own, hok⟩ := procOk_initProc
  have hno : ∀ f, some textElf = some f → ¬ LoadsNullPage f initPhys.supply := by
    rintro f ⟨⟩ ⟨-, -, i, hi, ⟨ph, hph, -, -, hva, -⟩, -⟩
    obtain rfl : i = 0 := Nat.lt_one_iff.mp hi
    have heval : (header textElf (elfhdrOf (readi textElf 0 elfhdrSize)) 0).map Proghdr.vaddr =
        some PGSIZE := by decide +kernel
    rw [hph, Option.map_some, hva] at heval
    cases heval
  obtain ⟨res, s', hrun, hres⟩ : ExecReturns initProc [] (some textElf) [[0x78]] initPhys :=
    (kexec_returns_iff [] hok ⟨by decide, by decide⟩ (by rintro f ⟨⟩; decide)).mpr hno
  refine ⟨⟨res, s', hrun, hres⟩, ?_⟩
  rw [hrun]
  exact congrArg some (kexec_textElf.of_ok hrun)

end Xv6.Vm
