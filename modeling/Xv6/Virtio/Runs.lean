import Xv6.Virtio.Steps

/-!
# Runs of the disk driver

* `Inv`, `simulates`: every step of the driver and the device is a step of the protocol
  of `Xv6.Virtio.Protocol`.
* `disk_protocol`: in every run, with the 16-bit counters of the rings wrapping around as
  often as it takes, descriptors are free or belong to one chain, no entry of the avail
  ring is lost, a request is cleared once and after the device has completed it, and
  nothing panics.
-/

namespace Xv6.Virtio

open Xv6.Lib.Run Xv6.Lib.Monitor Xv6.Lib.Fifo Xv6.Lib.Holders
open Function (update update_of_ne update_self)

variable {nproc : Nat} {killed : Nat → Bool} {m m' : Sys} {g : Flights} {e : Event}
    {es : List Event}
  {p : Nat}

/-! ## Steps of the system -/

structure Inv (nproc : Nat) (m : Sys) (g : Flights) : Prop where
  wf : Wf (code nproc) m
  rests : Rests Place.rest m
  core : Core m.data m.sites g

theorem rest_of_isEntry {l : Place} (h : l.isEntry = true) : l.rest := by
  cases l with
  | alloc r idx =>
    cases idx with
    | nil => trivial
    | cons i idx => cases h
  | intr => trivial
  | _ => cases h

theorem rest_of_sleep (u : Unit) (k : Bool) {d : Disk} {l l' : Place} {ch : Chan}
    (h : instr u k d l = .sleep ch l') : l'.rest := by
  cases l with
  | alloc r idx =>
    rw [instr, allocNext.eq_def] at h
    split at h
    · cases h
    · split at h <;> cases h
  | undo r idx =>
    cases idx with
    | nil =>
      cases h
      trivial
    | cons j idx =>
      rw [instr] at h
      split at h <;> cases h
  | wait r c =>
    rw [instr] at h
    split at h
    · cases h
      trivial
    · cases h
  | freeChain r c i =>
    rw [instr] at h
    split at h <;> cases h
  | freed r c next => cases next <;> cases h
  | intr =>
    rw [instr] at h
    split at h <;> cases h
  | entry =>
    rw [instr, intrEntry] at h
    split at h
    · cases h
    · split at h <;> cases h
  | _ => cases h

/-- A call starts, for a buffer that no other call is about. -/
theorem Core.call {d : Disk} {S : Nat → Option Unit ⊕ Place} {l : Place} {x : Option Unit}
    (hcore : Core d S g) (hp : S p = .inl x) (hl : l.isEntry = true)
    (hbufs : ∀ r, l.req = some r → ∀ q r', siteReq (S q) = some r' → r'.b ≠ r.b) :
    Core d (update S p (.inr l)) g := by
  have hplace : At d g l ∧ l.descs = [] ∧ l.skip = 0 := by
    cases l with
    | alloc r idx =>
      cases idx with
      | nil => exact ⟨hcore.idle r.b (hbufs r rfl), rfl, rfl⟩
      | cons i idx => cases hl
    | intr => exact ⟨trivial, rfl, rfl⟩
    | _ => cases hl
  obtain ⟨hat, hdescs, hskip⟩ := hplace
  have hself : ∀ {α : Type} (f : Option Unit ⊕ Place → α), f (.inr l) = f (.inl x) →
      ∀ q, f (update S p (.inr l) q) = f (S q) := by
    intro α f hf q
    rcases eq_or_ne q p with rfl | hne
    · rw [update_self, hp, hf]
    · rw [update_of_ne hne]
  have hcases : ∀ q r, siteReq (update S p (.inr l) q) = some r →
      q = p ∧ l.req = some r ∨ q ≠ p ∧ siteReq (S q) = some r := by
    intro q r hq
    rcases eq_or_ne q p with rfl | hne
    · rw [update_self] at hq
      exact .inl ⟨rfl, hq⟩
    · rw [update_of_ne hne] at hq
      exact .inr ⟨hne, hq⟩
  refine ⟨?_, fun q q' r r' hq hq' heq => ?_, fun q l' hq => ?_, fun b hb => ?_, ?_⟩
  · rw [funext (hself descs hdescs)]
    exact hcore.holds
  · rcases hcases q r hq with ⟨rfl, hr⟩ | ⟨-, hr⟩
    · rcases hcases q' r' hq' with ⟨rfl, -⟩ | ⟨-, hr'⟩
      · rfl
      · exact absurd heq.symm (hbufs r hr q' r' hr')
    · rcases hcases q' r' hq' with ⟨rfl, hr'⟩ | ⟨-, hr'⟩
      · exact absurd heq (hbufs r' hr' q r hr)
      · exact hcore.bufs q q' r r' hr hr' heq
  · rcases eq_or_ne q p with rfl | hne
    · rw [update_self] at hq
      cases hq
      exact hat
    · rw [update_of_ne hne] at hq
      exact hcore.places q l' hq
  · refine hcore.idle b fun q r hr => hb q r ?_
    rcases eq_or_ne q p with rfl | hne
    · rw [hp] at hr
      cases hr
    · rwa [update_of_ne hne]
  · obtain ⟨k, hk, hq⟩ := hcore.queues
    refine ⟨k, ?_, hq⟩
    simp only [Skips, hself skip hskip]
    exact hk

theorem ne_of_proper (hwf : Wf (code nproc) m) {l : Place}
    (hproper : proper nproc m (.call p l) = true) (hl : l.isEntry = true) {r r' : Req}
    (hr : l.req = some r) {q : Nat} (hr' : siteReq (m.sites q) = some r') : r'.b ≠ r.b := by
  have hlt : q < nproc := by
    refine hwf.lt_nproc fun x hq => ?_
    rw [State.sites, hq] at hr'
    cases hr'
  cases l with
  | alloc r₀ idx =>
    cases hr
    have hall := List.all_eq_true.mp hproper q (List.mem_range.mpr hlt)
    rw [hr'] at hall
    simpa using hall
  | intr => cases hr
  | _ => cases hl

/-- Every step is one of the protocol. -/
theorem simulates (hinv : Inv nproc m g) (hstep : step nproc m e = some m') :
    ∃ g', exec next g (label m e) = some g' ∧ Inv nproc m' g' := by
  cases e with
  | consume =>
    obtain ⟨d', hd, rfl⟩ := Option.map_eq_some_iff.mp hstep
    exact ⟨g, rfl, ⟨hinv.wf.slots, hinv.wf.holder⟩, hinv.rests, hinv.core.consume hd⟩
  | complete h =>
    obtain ⟨d', hd, rfl⟩ := Option.map_eq_some_iff.mp hstep
    obtain ⟨b, haddr, hg, hcore⟩ := hinv.core.complete hd
    exact ⟨_, by simp [label, haddr, exec, next, hg], ⟨hinv.wf.slots, hinv.wf.holder⟩,
      hinv.rests, hcore⟩
  | act a =>
    rw [step] at hstep
    split at hstep
    rotate_left
    · cases hstep
    next hproper =>
    have hwf := hinv.wf.step hstep
    have hrests : Rests Place.rest m' :=
      hinv.rests.step (fun _ => rest_of_isEntry) (fun u k _ _ _ _ => rest_of_sleep u k) hstep
    rcases step_cases hstep with ⟨p, l, x, rfl, hentry, hp, rfl⟩ | ⟨p, u, l, rfl, hp, rfl⟩ |
      ⟨hrun, hdata, hsite, -⟩
    · refine ⟨g, rfl, hwf, hrests, ?_⟩
      rw [sites_setPhase]
      refine hinv.core.call (x := x) ?_ hentry fun r hr q r' hr' => ?_
      · rw [State.sites, hp]
        rfl
      · exact ne_of_proper hinv.wf hproper hentry hr hr'
    · have hsites : m.sites p = .inr l := by rw [State.sites, hp]; rfl
      have hlock : m.lock = some p := (hinv.wf.holder p).mpr (by simp [hp])
      have hothers : ∀ q, q ≠ p → ∀ l, m.sites q = .inr l → l.rest := fun q hne l hq =>
        hinv.wf.rest_of_holder hinv.rests (fun heq => hne (by rw [hlock] at heq; cases heq; rfl)) hq
      obtain ⟨g', hg', hcore⟩ := hinv.core.run hothers hsites u (m.killed p)
      refine ⟨g', ?_, hwf, hrests, ?_⟩
      · rw [label, hp]
        exact hg'
      · rw [data_perform, sites_perform]
        exact hcore
    · have hsites : m'.sites = m.sites := funext hsite
      refine ⟨g, ?_, hwf, hrests, ?_⟩
      · cases a with
        | run p i => exact absurd rfl (hrun p i)
        | _ => rfl
      · rw [hdata, hsites]
        exact hinv.core

/-! ## Runs -/

theorem inv_initial (nproc : Nat) (killed : Nat → Bool) :
    Inv nproc (initial killed) fun _ => none := by
  have hsites : ∀ q, (initial killed).sites q = .inl none := fun _ => rfl
  refine ⟨Wf.initial .., fun q l hl => ?_, ?_⟩
  · have hnone : ((initial killed).phase q).later = none := rfl
    rw [hnone] at hl
    cases hl
  · refine ⟨holds_nil fun _ _ => rfl, fun q q' r r' hr => ?_, fun q l hq => ?_,
      fun _ _ => ⟨rfl, rfl⟩, 0, .inl ⟨rfl, fun q => ?_⟩, ?_⟩
    · rw [hsites] at hr
      cases hr
    · rw [hsites] at hq
      cases hq
    · rw [hsites]
      rfl
    · have hsubmitted : (initial killed).data.submitted = [] := by
        simp [Disk.submitted, initial, cells]
      have hreturned : (initial killed).data.returned = [] := by
        simp [Disk.returned, initial, cells]
      refine ⟨Nat.zero_le _, ?_, fun h => ?_, ?_, fun h => ?_⟩
      · rw [hsubmitted]
        exact .nil
      · rw [hsubmitted]
        exact iff_of_false List.not_mem_nil (by simp)
      · rw [hreturned]
        exact .nil
      · rw [hreturned]
        exact iff_of_false List.not_mem_nil (by simp)

theorem inv_run (hrun : exec (step nproc) (initial killed) es = some m) :
    ∃ g, exec next (fun _ => none) (trace (step nproc) label (initial killed) es) = some g ∧
    Inv nproc m g :=
  simulation (R := Inv nproc) (fun _ _ _ _ hinv hstep => simulates hinv hstep)
    (inv_initial nproc killed) hrun

/-- The disk protocol: at any time a descriptor is free or with one caller, and a caller
that does not hold `vdisk_lock` has none or the three of a request in flight; the store to
the avail ring overwrites no entry that the device has not taken; the requests go through
the stages of `next`, so that `b->disk` is cleared once and after the completion; and
nothing panics. -/
theorem disk_protocol (hrun : exec (step nproc) (initial killed) es = some m) :
    (∀ i, i < NUM → (m.data.free i = true ∧ ∀ p, i ∉ descs (m.sites p)) ∨
      (m.data.free i = false ∧ ∃! p, i ∈ descs (m.sites p))) ∧
    (∀ p, m.lock ≠ some p → descs (m.sites p) = [] ∨
      ∃ r c, m.sites p = .inr (.wait r c) ∧ c.list.Nodup ∧ Formatted m.data r c) ∧
    (∀ p r c, m.phase p = .hold (.ring r c) → ∀ k, k < (m.data.avail.idx - m.data.seen).toNat →
      (m.data.seen.toNat + k) % NUM ≠ m.data.avail.idx.toNat % NUM) ∧
    (∃ g, exec next (fun _ => none) (trace (step nproc) label (initial killed) es) = some g ∧
      ∀ p r c, m.sites p = .inr (.wait r c) →
        ∃ st, g r.b = some { head := c.head, stage := st } ∧
        (m.data.disk r.b = 0 ↔ st = .cleared)) ∧
    ∀ p e, m.sites p ≠ .inr (.panicked e) := by
  obtain ⟨g, hg, hwf, hrests, hcore⟩ := inv_run hrun
  refine ⟨fun i hi => hcore.holds.free_or_held hi, fun p hlock => ?_, fun p r c hp k hk => ?_,
    ⟨g, hg, fun p r c hp => ?_⟩, fun p e hp => hcore.places p _ hp⟩
  · cases hp : m.sites p with
    | inl x => exact .inl rfl
    | inr l =>
      have hrest := hwf.rest_of_holder hrests hlock hp
      cases l with
      | alloc r idx =>
        cases idx with
        | nil => exact .inl rfl
        | cons i idx => exact hrest.elim
      | wait r c =>
        refine .inr ⟨r, c, rfl, ?_, (hcore.places p _ hp).1⟩
        have hnodup := hcore.holds.nodup p
        rwa [hp] at hnodup
      | intr => exact .inl rfl
      | _ => exact hrest.elim
  · have hsites : m.sites p = .inr (.ring r c) := by rw [State.sites, hp]; rfl
    obtain ⟨n, -, hq⟩ := hcore.queues
    have hroom := hcore.length_submitted hq hsites c.head_mem (by simp)
    have hindex : m.data.avail.idx.toNat % NUM =
        (m.data.seen.toNat + (m.data.avail.idx - m.data.seen).toNat) % NUM := index_eq num_dvd
    have hNUM : NUM = 8 := rfl
    rw [hindex, hNUM]
    omega
  · cases (hcore.places p _ hp).2 with
    | submitted hg hdisk => exact ⟨_, hg, by rw [hdisk]; decide⟩
    | completed hg hdisk => exact ⟨_, hg, by rw [hdisk]; decide⟩
    | cleared hcleared => exact ⟨_, hcleared.1, iff_of_true hcleared.2 rfl⟩

/-- A request goes to the device and comes back, and an interrupt clears it while its
caller sleeps. -/
def oneRequest : List Event :=
  [.act (.call 0 (.alloc { b := 5, blockno := 33, write := false } [])), .act (.acquire 0),
    .act (.run 0 ()), .act (.run 0 ()), .act (.run 0 ()), .act (.run 0 ()), .act (.run 0 ()),
    .act (.run 0 ()), .act (.run 0 ()), .act (.run 0 ()), .act (.fallAsleep 0), .consume,
    .complete 0, .act (.call 1 .intr), .act (.acquire 1), .act (.run 1 ()), .act (.run 1 ())]

theorem disk_protocol_oneRequest :
    ∃ m, exec (step 2) (initial fun _ => false) oneRequest = some m ∧ m.data.disk 5 = 0 ∧
      descs (m.sites 0) = [0, 1, 2] ∧
      (∀ i, i < NUM → (m.data.free i = true ∧ ∀ p, i ∉ descs (m.sites p)) ∨
        (m.data.free i = false ∧ ∃! p, i ∈ descs (m.sites p))) ∧
      (∀ p, m.lock ≠ some p → descs (m.sites p) = [] ∨
        ∃ r c, m.sites p = .inr (.wait r c) ∧ c.list.Nodup ∧ Formatted m.data r c) ∧
      (∀ p r c, m.phase p = .hold (.ring r c) → ∀ k, k < (m.data.avail.idx - m.data.seen).toNat →
        (m.data.seen.toNat + k) % NUM ≠ m.data.avail.idx.toNat % NUM) ∧
      (∃ g, exec next (fun _ => none) (trace (step 2) label (initial fun _ => false) oneRequest) =
        some g ∧
        ∀ p r c, m.sites p = .inr (.wait r c) →
          ∃ st, g r.b = some { head := c.head, stage := st } ∧
          (m.data.disk r.b = 0 ↔ st = .cleared)) ∧
      ∀ p e, m.sites p ≠ .inr (.panicked e) := by
  have hcheck : runCheck (step 2) (fun _ _ => true)
      (fun m => decide (m.data.disk 5 = 0 ∧ descs (m.sites 0) = [0, 1, 2]))
      (initial fun _ => false) oneRequest = true := by
    decide +kernel
  obtain ⟨-, m, hrun, hend⟩ := of_runCheck hcheck
  obtain ⟨hdisk, hdescs⟩ := of_decide_eq_true hend
  exact ⟨m, hrun, hdisk, hdescs, disk_protocol hrun⟩

/-- What that run shows. -/
example : trace (step 2) label (initial fun _ => false) oneRequest =
    [.submit 5 0, .complete 5 0, .clear 5 0] := by
  decide +kernel

end Xv6.Virtio
