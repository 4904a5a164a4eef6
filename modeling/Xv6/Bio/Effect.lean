import Xv6.Bio.Structure

/-!
# What the sections of the cache do to the blocks

* `SameBlock`: two buffers hold the same block with the same data.
* `Got`, `Acquired`, `Stored`, `Kept`: the effect of `bget`, of the rest of
  `bread`, of a store, and of the sections that leave all blocks alone.
* `step_bget`, `step_acquire_fill`, `step_store`, `step_unlock`, `step_brelse`,
  `step_bpin`, `step_bunpin`: which step has which effect.
-/

namespace Xv6.Bio

open Xv6.Lib.Run

/-- The buffers hold the same block with the same data. -/
structure SameBlock (x y : Buf) : Prop where
  dev : x.dev = y.dev
  blockno : x.blockno = y.blockno
  valid : x.valid = y.valid
  data : x.data = y.data

theorem SameBlock.refl (x : Buf) : SameBlock x x :=
  ⟨rfl, rfl, rfl, rfl⟩

/-- `bget` by thread `t` returned buffer `b`. -/
structure Got (s s' : Cache) (t b dev blockno : Nat) : Prop where
  uses : s'.uses = ⟨t, b, .waiting⟩ :: s.uses
  pins : s'.pins = s.pins
  holds : Holds s' b dev blockno
  others : ∀ x, x ≠ b → SameBlock (s'.bc.bufs x) (s.bc.bufs x)
  /-- The block was there, or an unused buffer was taken for it. -/
  found : SameBlock (s'.bc.bufs b) (s.bc.bufs b) ∨
    (s'.bc.bufs b).valid = false ∧ (s.bc.bufs b).refcnt = 0

/-- Thread `t` got the lock of buffer `b` and, if needed, read `data` into it. -/
structure Acquired (s s' : Cache) (t b : Nat) (data : Block) : Prop where
  mem : ⟨t, b, .waiting⟩ ∈ s.uses
  uses : s'.uses = s.advance t b .waiting .holding
  pins : s'.pins = s.pins
  dev : (s'.bc.bufs b).dev = (s.bc.bufs b).dev
  blockno : (s'.bc.bufs b).blockno = (s.bc.bufs b).blockno
  valid : (s'.bc.bufs b).valid = true
  data : (s'.bc.bufs b).data = if (s.bc.bufs b).valid then (s.bc.bufs b).data else data
  others : ∀ x, x ≠ b → SameBlock (s'.bc.bufs x) (s.bc.bufs x)

/-- Thread `t` stored `data` in buffer `b`, which it holds. -/
structure Stored (s s' : Cache) (t b : Nat) (data : Block) : Prop where
  mem : ⟨t, b, .holding⟩ ∈ s.uses
  uses : s'.uses = s.uses
  pins : s'.pins = s.pins
  dev : (s'.bc.bufs b).dev = (s.bc.bufs b).dev
  blockno : (s'.bc.bufs b).blockno = (s.bc.bufs b).blockno
  valid : (s'.bc.bufs b).valid = (s.bc.bufs b).valid
  data : (s'.bc.bufs b).data = data
  others : ∀ x, x ≠ b → SameBlock (s'.bc.bufs x) (s.bc.bufs x)

/-- All buffers hold the blocks they held. -/
def Kept (s s' : Cache) : Prop :=
  ∀ x, SameBlock (s'.bc.bufs x) (s.bc.bufs x)

section Steps

variable {s s' s'' : Cache} {t b dev blockno : Nat} {data : Block}

theorem sameBlock_set_of_ne {bc : Bcache} {f : Buf → Buf} {x : Nat} (hx : x ≠ b) :
    SameBlock ((bc.set b f).bufs x) (bc.bufs x) := by
  rw [Bcache.set_of_ne hx]
  exact .refl _

/-- A change of other fields of a buffer keeps the block. -/
theorem sameBlock_set {bc : Bcache} {f : Buf → Buf} (hf : SameBlock (f (bc.bufs b)) (bc.bufs b))
    (x : Nat) : SameBlock ((bc.set b f).bufs x) (bc.bufs x) := by
  by_cases hx : x = b
  · rw [hx, Bcache.set_self]
    exact hf
  · exact sameBlock_set_of_ne hx

theorem step_bget (h : CacheInv s) (hstep : step s (.bget t dev blockno) = some s') :
    ∃ b bc, s.bc.bget dev blockno = .ok (b, bc) ∧ Got s s' t b dev blockno := by
  unfold step at hstep
  dsimp only at hstep
  split at hstep
  · next b bc hget =>
    cases hstep
    refine ⟨b, bc, hget, rfl, rfl, h.holds_of_bget hget, ?_, ?_⟩
    · intro x hx
      dsimp only
      rcases h.bget_cases hget with ⟨-, rfl⟩ | ⟨-, -, rfl⟩
      · exact sameBlock_set_of_ne hx
      · exact sameBlock_set_of_ne hx
    · dsimp only
      rcases h.bget_cases hget with ⟨-, rfl⟩ | ⟨-, hlru, rfl⟩
      · left
        rw [Bcache.set_self]
        exact ⟨rfl, rfl, rfl, rfl⟩
      · right
        rw [Bcache.set_self]
        exact ⟨rfl, hlru.1⟩
  · cases hstep

theorem step_acquire_fill (hacq : step s (.acquire t b) = some s')
    (hfill : step s' (.fill t b data) = some s'') : Acquired s s'' t b data := by
  obtain ⟨⟨hmem, -⟩, rfl⟩ := of_guard hacq
  obtain ⟨-, rfl⟩ := of_guard hfill
  refine ⟨hmem, rfl, rfl, ?_, ?_, ?_, ?_, fun x hx => ?_⟩ <;> dsimp only
  · rw [Bcache.set_self, Bcache.set_self]
    split <;> rfl
  · rw [Bcache.set_self, Bcache.set_self]
    split <;> rfl
  · rw [Bcache.set_self, Bcache.set_self]
    split
    · next hvalid => exact hvalid
    · rfl
  · rw [Bcache.set_self, Bcache.set_self]
    dsimp only
    split <;> rfl
  · rw [Bcache.set_of_ne hx]
    exact sameBlock_set_of_ne hx

theorem step_store (hstep : step s (.store t b data) = some s') : Stored s s' t b data := by
  obtain ⟨hmem, rfl⟩ := of_guard hstep
  refine ⟨hmem, rfl, rfl, ?_, ?_, ?_, ?_, fun x hx => ?_⟩ <;> dsimp only
  · rw [Bcache.set_self]
  · rw [Bcache.set_self]
  · rw [Bcache.set_self]
  · rw [Bcache.set_self]
  · exact sameBlock_set_of_ne hx

theorem Stored.blockno_eq (hst : Stored s s' t b data) (x : Nat) :
    (s'.bc.bufs x).blockno = (s.bc.bufs x).blockno := by
  by_cases hx : x = b
  · rw [hx]
    exact hst.blockno
  · exact (hst.others x hx).blockno

theorem step_unlock (hstep : step s (.unlock t b) = some s') :
    ⟨t, b, .holding⟩ ∈ s.uses ∧ s'.uses = s.advance t b .holding .leaving ∧ s'.pins = s.pins ∧
      Kept s s' := by
  obtain ⟨hmem, rfl⟩ := of_guard hstep
  refine ⟨hmem, rfl, rfl, fun x => ?_⟩
  dsimp only
  exact sameBlock_set ⟨rfl, rfl, rfl, rfl⟩ x

theorem step_brelse (hstep : step s (.brelse t b) = some s') :
    ⟨t, b, .leaving⟩ ∈ s.uses ∧ s'.uses = s.uses.erase ⟨t, b, .leaving⟩ ∧ s'.pins = s.pins ∧
      Kept s s' := by
  obtain ⟨hmem, rfl⟩ := of_guard hstep
  refine ⟨hmem, rfl, rfl, fun x => ?_⟩
  have hbufs : (s.bc.brelse b).bufs =
      (s.bc.set b fun x => { x with refcnt := x.refcnt - 1 }).bufs := by
    unfold Bcache.brelse
    dsimp only
    split <;> rfl
  show SameBlock ((s.bc.brelse b).bufs x) (s.bc.bufs x)
  rw [hbufs]
  exact sameBlock_set ⟨rfl, rfl, rfl, rfl⟩ x

theorem step_bpin (hstep : step s (.bpin b) = some s') :
    s'.uses = s.uses ∧ s'.pins = Function.update s.pins b (s.pins b + 1) ∧ Kept s s' := by
  obtain ⟨-, rfl⟩ := of_guard hstep
  refine ⟨rfl, rfl, fun x => ?_⟩
  dsimp only
  exact sameBlock_set ⟨rfl, rfl, rfl, rfl⟩ x

theorem step_bunpin (hstep : step s (.bunpin b) = some s') :
    s'.uses = s.uses ∧ s'.pins = Function.update s.pins b (s.pins b - 1) ∧ Kept s s' := by
  obtain ⟨-, rfl⟩ := of_guard hstep
  refine ⟨rfl, rfl, fun x => ?_⟩
  dsimp only
  exact sameBlock_set ⟨rfl, rfl, rfl, rfl⟩ x

end Steps

end Xv6.Bio
