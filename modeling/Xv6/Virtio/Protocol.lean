import Mathlib.Data.List.Perm.Subperm
import Xv6.Lib.Holders
import Xv6.Virtio.Basic

/-!
# The life of a disk request

A request for a buffer is submitted with the head of its chain, completed by the device,
cleared by `virtio_disk_intr` and finished by its caller.  `Flights` follows the requests
of all buffers through these stages.

* `Obs`, `next`: what can be observed of a request, and in which order.
* `label`: what a step of the driver or the device shows.  A completion is about the
  buffer that the device finds in the chain; to clear a buffer is to set `b->disk` to 0.
* `descs`, `At`, `Queues`, `Core`: how the memory, the places of the callers and the
  requests in flight fit together.  The avail ring and the device have the heads of the
  submitted requests, the used ring those of the completed ones.
* `Core.owner`, `Core.head_inj`: every request in flight has its caller, and no two have
  the same head.
-/

namespace Xv6.Virtio

open Xv6.Lib.Run Xv6.Lib.Monitor Xv6.Lib.Fifo Xv6.Lib.Holders

/-! ## The protocol -/

inductive Stage where
  | submitted
  | completed
  | cleared
  deriving DecidableEq, Repr

/-- A request in flight. -/
structure Flight where
  head : Nat
  stage : Stage
  deriving DecidableEq, Repr

/-- The requests in flight, by buffer. -/
abbrev Flights := Nat → Option Flight

/-- What can be observed of the request for the buffer `b` with the chain at `h`. -/
inductive Obs where
  | submit (b h : Nat)
  | complete (b h : Nat)
  | clear (b h : Nat)
  | finish (b h : Nat)
  /-- Something happens to a chain without a buffer. -/
  | stray
  deriving DecidableEq, Repr

/-- The stages of a request follow one another. -/
def next (g : Flights) : Obs → Option Flights
  | .submit b h =>
    if g b = none then some (Function.update g b (some { head := h, stage := .submitted }))
    else none
  | .complete b h =>
    if g b = some { head := h, stage := .submitted } then
      some (Function.update g b (some { head := h, stage := .completed }))
    else none
  | .clear b h =>
    if g b = some { head := h, stage := .completed } then
      some (Function.update g b (some { head := h, stage := .cleared }))
    else none
  | .finish b h =>
    if g b = some { head := h, stage := .cleared } then some (Function.update g b none) else none
  | .stray => none

/-- What the next access of a caller at a place shows. -/
def runLabel (d : Disk) : Place → List Obs
  | .publish r c => [.submit r.b c.head]
  | .entry =>
    let id := d.used.ring (d.usedIdx.toNat % NUM)
    if (d.info id).status ≠ 0 then []
    else match (d.info id).b with
      | some b => [.clear b id]
      | none => [.stray]
  | .done r c => [.finish r.b c.head]
  | _ => []

def label (m : Sys) : Event → List Obs
  | .act (.run p _) =>
    match m.phase p with
    | .hold l => runLabel m.data l
    | _ => []
  | .act _ | .consume => []
  | .complete h =>
    match dataAddr m.data h with
    | .data b => [.complete b h]
    | _ => [.stray]

/-! ## Descriptors and places -/

/-- The descriptors of a chain from `i` on. -/
def Chain.suffix (c : Chain) (i : Nat) : List Nat := c.list.dropWhile (· != i)

/-- The descriptors that a caller has taken. -/
def Place.descs : Place → List Nat
  | .alloc _ idx | .undo _ idx | .undone _ idx => idx
  | .format _ c | .ring _ c | .publish _ c | .wait _ c | .finish _ c => c.list
  | .freeChain _ c i | .freed _ c (some i) => c.suffix i
  | .freed _ _ none | .done _ _ | .intr | .entry | .wake _ | .advance | .panicked _ => []

def descs : Option Unit ⊕ Place → List Nat
  | .inl _ => []
  | .inr l => l.descs

/-- Where a caller goes on that does not hold the lock. -/
def Place.rest : Place → Prop
  | .alloc _ [] | .wait _ _ | .intr => True
  | _ => False

/-- What the descriptor `i` of a chain holds. -/
def Chain.desc (r : Req) (c : Chain) (i : Nat) : Desc :=
  if i = c.head then headDesc c else if i = c.data then dataDesc r c else statusDesc c

/-- The request is written down. -/
structure Formatted (d : Disk) (r : Req) (c : Chain) : Prop where
  desc : ∀ i ∈ c.list, d.desc i = c.desc r i
  buf : (d.info c.head).b = some r.b

/-- No request for the buffer is in flight. -/
def Quiet (d : Disk) (g : Flights) (b : Nat) : Prop := g b = none ∧ d.disk b = 0

/-- The request has been cleared. -/
def Cleared (d : Disk) (g : Flights) (r : Req) (c : Chain) : Prop :=
  g r.b = some { head := c.head, stage := .cleared } ∧ d.disk r.b = 0

/-- The request is in flight. -/
inductive Flying (d : Disk) (g : Flights) (r : Req) (c : Chain) : Prop
  | submitted (hg : g r.b = some { head := c.head, stage := .submitted }) (hdisk : d.disk r.b = 1)
  | completed (hg : g r.b = some { head := c.head, stage := .completed }) (hdisk : d.disk r.b = 1)
      (hstatus : (d.info c.head).status = 0)
  | cleared (h : Cleared d g r c)

/-- What a caller relies on at each place. -/
def At (d : Disk) (g : Flights) : Place → Prop
  | .alloc r _ | .undo r _ | .undone r _ | .format r _ => Quiet d g r.b
  | .ring r c => Formatted d r c ∧ g r.b = none ∧ d.disk r.b = 1
  | .publish r c =>
    (Formatted d r c ∧ g r.b = none ∧ d.disk r.b = 1) ∧
      d.avail.ring (d.avail.idx.toNat % NUM) = c.head
  | .wait r c => Formatted d r c ∧ Flying d g r c
  | .finish r c => Formatted d r c ∧ Cleared d g r c
  | .freeChain r c i =>
    (c.list.Nodup ∧ Cleared d g r c) ∧ i ∈ c.list ∧ ∀ j ∈ c.suffix i, d.desc j = c.desc r j
  | .freed r c (some i) =>
    (c.list.Nodup ∧ Cleared d g r c) ∧ i ∈ c.list ∧ ∀ j ∈ c.suffix i, d.desc j = c.desc r j
  | .freed r c none | .done r c => Cleared d g r c
  | .intr => True
  | .entry | .wake _ | .advance => d.usedIdx ≠ d.used.idx
  | .panicked _ => False

/-! ## The queues -/

/-- The heads in the avail ring that the device has not taken yet. -/
def Disk.submitted (d : Disk) : List Nat :=
  cells NUM d.avail.ring d.seen.toNat (d.avail.idx - d.seen).toNat

/-- The heads in the used ring that the driver has not passed yet. -/
def Disk.returned (d : Disk) : List Nat :=
  cells NUM d.used.ring d.usedIdx.toNat (d.used.idx - d.usedIdx).toNat

/-- The requests in flight are those in the rings and in the device; the first `k` of the
used ring are cleared already. -/
structure Queues (d : Disk) (g : Flights) (k : Nat) : Prop where
  le : k ≤ d.returned.length
  nodup_device : (d.submitted ++ d.taken).Nodup
  mem_device : ∀ h, h ∈ d.submitted ++ d.taken ↔ ∃ b, g b = some { head := h, stage := .submitted }
  nodup_used : (d.returned.drop k).Nodup
  mem_used : ∀ h, h ∈ d.returned.drop k ↔ ∃ b, g b = some { head := h, stage := .completed }

/-- The entry of the used ring that `virtio_disk_intr` is busy with is cleared. -/
def Place.skip : Place → Nat
  | .wake _ | .advance => 1
  | _ => 0

def skip : Option Unit ⊕ Place → Nat
  | .inl _ => 0
  | .inr l => l.skip

/-- The number of cleared entries at the start of the used ring. -/
def Skips (S : Nat → Option Unit ⊕ Place) (k : Nat) : Prop :=
  (k = 0 ∧ ∀ p, skip (S p) = 0) ∨ (k = 1 ∧ ∃ p, skip (S p) = 1)

/-! ## The whole system -/

/-- The memory, the sites of the callers and the requests in flight fit together. -/
structure Core (d : Disk) (S : Nat → Option Unit ⊕ Place) (g : Flights) : Prop where
  holds : Holds (· < NUM) d.free fun p => descs (S p)
  bufs : ∀ p q r r', siteReq (S p) = some r → siteReq (S q) = some r' → r.b = r'.b → p = q
  places : ∀ p l, S p = .inr l → At d g l
  idle : ∀ b, (∀ p r, siteReq (S p) = some r → r.b ≠ b) → Quiet d g b
  queues : ∃ k, Skips S k ∧ Queues d g k

variable {d d' : Disk} {S : Nat → Option Unit ⊕ Place} {g g' : Flights} {p : Nat} {l : Place}
    {r : Req}
  {c : Chain} {b b' h k : Nat}

/-- A request in flight that is not cleared belongs to a caller that waits for it. -/
theorem Core.owner (hcore : Core d S g) {st : Stage} (hg : g b = some { head := h, stage := st })
    (hst : st ≠ .cleared) : ∃ p r c, S p = .inr (.wait r c) ∧ r.b = b ∧ c.head = h := by
  have hreq : ∃ p r, siteReq (S p) = some r ∧ r.b = b := by
    apply Classical.byContradiction
    intro hnone
    have hquiet := (hcore.idle b fun p r hr hb => hnone ⟨p, r, hr, hb⟩).1
    rw [hg] at hquiet
    cases hquiet
  obtain ⟨p, r, hr, rfl⟩ := hreq
  -- at the other places there is no request or it is cleared
  have habsent : g r.b ≠ none := by rw [hg]; exact nofun
  have hcleared : ∀ c, ¬Cleared d g r c := by
    rintro c ⟨hc, -⟩
    rw [hg] at hc
    exact hst (congrArg Flight.stage (Option.some.inj hc))
  cases hp : S p with
  | inl x =>
    rw [hp] at hr
    cases hr
  | inr l =>
    have hat := hcore.places p l hp
    rw [hp] at hr
    cases l with
    | alloc r' idx | undo r' idx | undone r' idx | format r' c =>
      cases hr
      exact absurd hat.1 habsent
    | ring r' c =>
      cases hr
      exact absurd hat.2.1 habsent
    | publish r' c =>
      cases hr
      exact absurd hat.1.2.1 habsent
    | wait r' c =>
      cases hr
      refine ⟨p, r, c, hp, rfl, ?_⟩
      have hhead : ∃ st', g r.b = some { head := c.head, stage := st' } := by
        cases hat.2 with
        | submitted hg' => exact ⟨_, hg'⟩
        | completed hg' => exact ⟨_, hg'⟩
        | cleared hc => exact ⟨_, hc.1⟩
      obtain ⟨st', hg'⟩ := hhead
      rw [hg] at hg'
      exact (congrArg Flight.head (Option.some.inj hg')).symm
    | finish r' c =>
      cases hr
      exact absurd hat.2 (hcleared c)
    | freeChain r' c i =>
      cases hr
      exact absurd hat.1.2 (hcleared c)
    | freed r' c next =>
      cases hr
      cases next with
      | none => exact absurd hat (hcleared c)
      | some i => exact absurd hat.1.2 (hcleared c)
    | done r' c =>
      cases hr
      exact absurd hat (hcleared c)
    | intr | entry | wake b | advance | panicked e => cases hr

theorem Chain.head_mem (c : Chain) : c.head ∈ c.list := List.mem_cons_self

theorem Core.head_lt (hcore : Core d S g) {st : Stage} (hg : g b = some { head := h, stage := st })
    (hst : st ≠ .cleared) : h < NUM := by
  obtain ⟨p, r, c, hp, rfl, rfl⟩ := hcore.owner hg hst
  apply hcore.holds.mem_dom p
  rw [hp]
  exact c.head_mem

/-- Two requests that are not cleared have different heads. -/
theorem Core.head_inj (hcore : Core d S g) {st st' : Stage}
    (hg : g b = some { head := h, stage := st }) (hst : st ≠ .cleared)
      (hg' : g b' = some { head := h, stage := st' }) (hst' : st' ≠ .cleared) :
    b = b' := by
  obtain ⟨p, r, c, hp, rfl, rfl⟩ := hcore.owner hg hst
  obtain ⟨q, r', c', hq, rfl, hhead⟩ := hcore.owner hg' hst'
  have hpq : p = q := by
    apply hcore.holds.unique p q c.head
    · rw [hp]
      exact c.head_mem
    · rw [hq, ← hhead]
      exact c'.head_mem
  subst hpq
  rw [hp] at hq
  cases hq
  rfl

/-- A descriptor of a caller that has not submitted its request is not the head of one
that is not cleared. -/
theorem Core.not_head (hcore : Core d S g) {i : Nat} (hp : S p = .inr l) (hi : i ∈ l.descs)
    (hwait : ∀ r c, l ≠ .wait r c) {st : Stage} (hg : g b = some { head := h, stage := st })
    (hst : st ≠ .cleared) : i ≠ h := by
  rintro rfl
  obtain ⟨q, r, c, hq, -, hhead⟩ := hcore.owner hg hst
  have hpq : p = q := by
    apply hcore.holds.unique p q i
    · rw [hp]
      exact hi
    · rw [hq, ← hhead]
      exact c.head_mem
  subst hpq
  exact hwait r c (Sum.inr.inj (hp.symm.trans hq))

/-- Distinct descriptors are at most `NUM`. -/
theorem length_le_NUM {hs : List Nat} (hnodup : hs.Nodup) (hlt : ∀ h ∈ hs, h < NUM) :
    hs.length ≤ NUM := by
  have hsub : hs ⊆ List.range NUM := fun h hh => List.mem_range.mpr (hlt h hh)
  simpa using (List.subperm_of_subset hnodup hsub).length_le

/-- There is room in the used ring for a chain that the device works on. -/
theorem Core.length_returned (hcore : Core d S g) (hqueues : Queues d g k)
    (hg : g b = some { head := h, stage := .submitted }) :
    (d.used.idx - d.usedIdx).toNat - k < NUM := by
  have hfresh : h ∉ d.returned.drop k := by
    intro hmem
    obtain ⟨b', hb'⟩ := (hqueues.mem_used h).mp hmem
    have heq : b = b' := hcore.head_inj hg nofun hb' nofun
    subst heq
    rw [hg] at hb'
    cases hb'
  have hlength := length_le_NUM (List.nodup_cons.mpr ⟨hfresh, hqueues.nodup_used⟩) fun h' hh => by
    rcases List.mem_cons.mp hh with rfl | hh
    · exact hcore.head_lt hg nofun
    · obtain ⟨b', hb'⟩ := (hqueues.mem_used h').mp hh
      exact hcore.head_lt hb' nofun
  rw [List.length_cons, List.length_drop, Disk.returned, length_cells] at hlength
  omega

end Xv6.Virtio
