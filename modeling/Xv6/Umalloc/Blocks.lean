import Xv6.Lib.Linked
import Xv6.Umalloc.Basic
import Mathlib.Algebra.Order.BigOperators.Group.List
import Mathlib.Algebra.Order.Group.Nat
import Mathlib.Data.List.Perm.Lattice

/-!
# Blocks of memory

What the headers in memory stand for: blocks that tile the memory obtained from
`sbrk`, some of them in the free list and the others in use.

* `Block`, `Apart`: a range of units with its header in the first of them.
* `Tiling`: blocks that are pairwise apart, lie in the memory obtained and have
  as many units as it has; `Tiling.merge` and `Tiling.split` join two neighbours
  and cut a block in two.
* `FreeList`: the circular list through `base` as the sequence of its blocks, in
  the order of their addresses, no two of which touch.
* `Heap.Inv`: the free list and the blocks in use tile the memory obtained.
-/

namespace Xv6.Umalloc

open Xv6.Lib.Linked

variable {E : Type}

/-! ## Tilings -/

/-- A block of `units` units, whose header is at `addr`. -/
structure Block where
  addr : Nat
  units : Nat
  deriving DecidableEq, Repr

/-- The address after a block. -/
def Block.stop (b : Block) : Nat :=
  b.addr + headerSize * b.units

/-- Two blocks have no byte in common. -/
def Apart (b c : Block) : Prop :=
  b.stop ≤ c.addr ∨ c.stop ≤ b.addr

theorem Apart.symm {b c : Block} (h : Apart b c) : Apart c b :=
  Or.symm h

/-- The memory obtained from `sbrk`: `total` units, the bytes `owned`, all of them
below `top`. -/
structure Memory where
  top : Nat
  total : Nat
  owned : Nat → Prop

/-- The number of units of some blocks. -/
def units (l : List Block) : Nat :=
  (l.map Block.units).sum

/-- A block of `m`, above the static data. -/
structure Block.Within (base : Nat) (m : Memory) (b : Block) : Prop where
  pos : 0 < b.units
  above : base < b.addr
  below : b.stop ≤ m.top
  owned : ∀ x, b.addr ≤ x → x < b.stop → m.owned x

/-- The blocks of `l` are apart and make up all of `m`. -/
structure Tiling (base : Nat) (m : Memory) (l : List Block) : Prop where
  apart : l.Pairwise Apart
  within : ∀ b ∈ l, b.Within base m
  count : units l = m.total

variable {base : Nat} {m : Memory} {l : List Block}

theorem Tiling.perm {l' : List Block} (h : Tiling base m l) (hp : l.Perm l') :
    Tiling base m l' := by
  refine ⟨h.apart.perm hp Apart.symm, fun b hb => h.within b (hp.mem_iff.mpr hb), ?_⟩
  rw [← h.count, units, units]
  exact ((hp.map Block.units).sum_eq).symm

theorem Tiling.units_le (h : Tiling base m l) {b : Block} (hb : b ∈ l) : b.units ≤ m.total := by
  rw [← h.count]
  exact List.single_le_sum (by simp) b.units (List.mem_map_of_mem hb)

/-- Two neighbours become one block. -/
theorem Tiling.merge {b c : Block} (h : Tiling base m (b :: c :: l)) (hbc : b.stop = c.addr) :
    Tiling base m (⟨b.addr, b.units + c.units⟩ :: l) := by
  obtain ⟨hb, hc⟩ := List.pairwise_cons.mp h.apart
  obtain ⟨hc, hl⟩ := List.pairwise_cons.mp hc
  have hbin := h.within b List.mem_cons_self
  have hcin := h.within c (by simp)
  have hcount := h.count
  have hstop : (⟨b.addr, b.units + c.units⟩ : Block).stop = c.stop := by
    simp only [Block.stop, headerSize] at hbc ⊢
    omega
  refine ⟨List.pairwise_cons.mpr ⟨fun d hd => ?_, hl⟩, fun d hd => ?_, ?_⟩
  · have h1 := hb d (List.mem_cons_of_mem c hd)
    have h2 := hc d hd
    have hpos := hcin.pos
    have hdpos := (h.within d (by simp [hd])).pos
    simp only [Apart, hstop]
    simp only [Apart, Block.stop, headerSize] at h1 h2 hbc ⊢
    omega
  · rcases List.mem_cons.mp hd with rfl | hd
    · refine ⟨Nat.add_pos_left hbin.pos _, hbin.above, hstop ▸ hcin.below, fun x hx hlt => ?_⟩
      rw [hstop] at hlt
      rcases Nat.lt_or_ge x b.stop with hxb | hxb
      · exact hbin.owned x hx hxb
      · exact hcin.owned x (hbc ▸ hxb) hlt
    · exact h.within d (by simp [hd])
  · rw [← hcount]
    simp only [units, List.map_cons, List.sum_cons]
    omega

/-- A block is cut in two. -/
theorem Tiling.split {a i j : Nat} (h : Tiling base m (⟨a, i + j⟩ :: l)) (hi : 0 < i) (hj : 0 < j) :
    Tiling base m (⟨a + headerSize * i, j⟩ :: ⟨a, i⟩ :: l) := by
  obtain ⟨hb, hl⟩ := List.pairwise_cons.mp h.apart
  have hin := h.within _ List.mem_cons_self
  have hbelow := hin.below
  have habove := hin.above
  have howned := hin.owned
  have hcount := h.count
  simp only [Block.stop, headerSize] at hbelow habove howned ⊢
  refine ⟨List.pairwise_cons.mpr ⟨fun d hd => ?_, List.pairwise_cons.mpr ⟨fun d hd => ?_, hl⟩⟩,
    fun d hd => ?_, ?_⟩
  · rcases List.mem_cons.mp hd with rfl | hd
    · exact Or.inr (Nat.le_refl _)
    · have := hb d hd
      simp only [Apart, Block.stop, headerSize] at this ⊢
      omega
  · have := hb d hd
    simp only [Apart, Block.stop, headerSize] at this ⊢
    omega
  · rcases List.mem_cons.mp hd with rfl | hd
    · refine ⟨hj, by simp only; omega, by simp only [Block.stop, headerSize]; omega,
        fun x hx hlt => ?_⟩
      simp only [Block.stop, headerSize] at hx hlt
      exact howned x (by omega) (by omega)
    rcases List.mem_cons.mp hd with rfl | hd
    · refine ⟨hi, habove, by simp only [Block.stop, headerSize]; omega, fun x hx hlt => ?_⟩
      simp only [Block.stop, headerSize] at hx hlt
      exact howned x hx (by omega)
    · exact h.within d (by simp [hd])
  · rw [← hcount]
    simp only [units, List.map_cons, List.sum_cons]
    omega

/-- More memory is obtained, above the rest. -/
theorem Tiling.grow {m' : Memory} {b : Block} (h : Tiling base m l) (hb : b.Within base m')
    (htop : m.top ≤ b.addr) (htotal : m'.total = m.total + b.units)
    (howned : ∀ x, m.owned x → m'.owned x) : Tiling base m' (b :: l) := by
  have hbelow := hb.below
  refine ⟨List.pairwise_cons.mpr ⟨fun d hd => ?_, h.apart⟩, fun d hd => ?_, ?_⟩
  · exact Or.inr (Nat.le_trans (h.within d hd).below htop)
  · rcases List.mem_cons.mp hd with rfl | hd
    · exact hb
    · have hd := h.within d hd
      refine ⟨hd.pos, hd.above, ?_, fun x hx hlt => howned x (hd.owned x hx hlt)⟩
      have := hd.below
      have : b.addr ≤ b.stop := Nat.le_add_right _ _
      omega
  · rw [htotal, ← h.count]
    simp only [units, List.map_cons, List.sum_cons]
    omega

/-- The headers of blocks that are apart are different. -/
theorem Tiling.addr_ne {b c : Block} (h : Tiling base m (b :: l)) (hc : c ∈ l) :
    c.addr ≠ b.addr := by
  have hbc := (List.pairwise_cons.mp h.apart).1 c hc
  have hb := (h.within b List.mem_cons_self).pos
  have hc := (h.within c (List.mem_cons_of_mem b hc)).pos
  simp only [Apart, Block.stop, headerSize] at hbc
  omega

/-! ## The free list -/

/-- The free list of `h`: the circular list through `base` and the blocks `free`.
Their addresses grow, so that the only pointer that leads downwards is the last
one, which points to `base`; and no two of them touch. -/
structure FreeList (base : Nat) (h : Heap E) (free : List Block) : Prop where
  ring : Ring h.ptr base (free.map Block.addr)
  sizes : ∀ b ∈ free, h.size b.addr = b.units
  baseSize : h.size base = 0
  ordered : (base :: free.map Block.addr).Pairwise (· < ·)
  coalesced : free.Pairwise fun b c => b.stop < c.addr
  roving : h.freep ∈ base :: free.map Block.addr

/-- The blocks of the free list and those in use make up the memory obtained. -/
structure Heap.Inv (base : Nat) (m : Memory) (h : Heap E) (free used : List Block) : Prop where
  list : FreeList base h free
  usedSizes : ∀ b ∈ used, h.size b.addr = b.units
  tiling : Tiling base m (free ++ used)

theorem Heap.Inv.perm {h : Heap E} {free used used' : List Block} (hinv : h.Inv base m free used)
    (hp : used.Perm used') : h.Inv base m free used' :=
  ⟨hinv.list, fun b hb => hinv.usedSizes b (hp.mem_iff.mpr hb),
    hinv.tiling.perm (hp.append_left free)⟩

end Xv6.Umalloc
