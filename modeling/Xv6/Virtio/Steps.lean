import Xv6.Virtio.Protocol

/-!
# Steps of the disk driver

Every access of a caller and of the device keeps `Core`, with the requests in flight
going through the stages that the step shows.

* `Core.set`: a caller that holds the lock moves on, and changes only its own
  descriptors and the state of its own buffer.
* `Core.run`: the driver, one lemma for each place where it does more than move on.
* `Core.consume`, `Core.complete`: the device.
-/

namespace Xv6.Virtio

open Xv6.Lib.Run Xv6.Lib.Monitor Xv6.Lib.Fifo Xv6.Lib.Holders
open Function (update update_of_ne update_self update_eq_self)

variable {d d' : Disk} {S : Nat → Option Unit ⊕ Place} {g g' : Flights} {p : Nat} {l l' : Place}
    {r : Req}
  {c : Chain} {b h i k : Nat}

/-! ## Chains -/

theorem Chain.desc_head : c.desc r c.head = headDesc c := if_pos rfl

theorem Chain.ne (hnodup : c.list.Nodup) :
    c.head ≠ c.data ∧ c.head ≠ c.status ∧ c.data ≠ c.status := by
  simpa [Chain.list, and_assoc] using hnodup

theorem Chain.mem_list : i ∈ c.list ↔ i = c.head ∨ i = c.data ∨ i = c.status := by
  simp [Chain.list]

theorem Chain.desc_data (hnodup : c.list.Nodup) : c.desc r c.data = dataDesc r c := by
  rw [Chain.desc, if_neg (Chain.ne hnodup).1.symm, if_pos rfl]

theorem Chain.desc_status (hnodup : c.list.Nodup) : c.desc r c.status = statusDesc c := by
  obtain ⟨-, hhead, hdata⟩ := Chain.ne hnodup
  rw [Chain.desc, if_neg hhead.symm, if_neg hdata.symm]

theorem Chain.suffix_head : c.suffix c.head = c.list := by
  simp [Chain.suffix, Chain.list]

theorem Chain.suffix_data (hnodup : c.list.Nodup) : c.suffix c.data = [c.data, c.status] := by
  simp [Chain.suffix, Chain.list, (Chain.ne hnodup).1]

theorem Chain.suffix_status (hnodup : c.list.Nodup) : c.suffix c.status = [c.status] := by
  simp [Chain.suffix, Chain.list, (Chain.ne hnodup).2]

theorem link_headDesc : (headDesc c).link = some c.data := by
  simp [Desc.link, headDesc, VRING_DESC_F_NEXT]

theorem link_dataDesc : (dataDesc r c).link = some c.status := by
  cases hwrite : r.write <;> simp [Desc.link, dataDesc, hwrite, VRING_DESC_F_NEXT,
    VRING_DESC_F_WRITE]

theorem link_statusDesc : (statusDesc c).link = none := by
  simp [Desc.link, statusDesc, VRING_DESC_F_NEXT, VRING_DESC_F_WRITE]

/-- The links of a chain lead from each of its descriptors to the next one. -/
theorem Chain.link_cases (hnodup : c.list.Nodup) (hi : i ∈ c.list) :
    (∃ j, (c.desc r i).link = some j ∧ j ∈ c.list ∧ c.suffix i = i :: c.suffix j) ∨
      ((c.desc r i).link = none ∧ c.suffix i = [i]) := by
  rcases Chain.mem_list.mp hi with rfl | rfl | rfl
  · refine .inl ⟨c.data, ?_, by simp [Chain.list], ?_⟩
    · rw [Chain.desc_head, link_headDesc]
    · rw [Chain.suffix_head, Chain.suffix_data hnodup]
      rfl
  · refine .inl ⟨c.status, ?_, by simp [Chain.list], ?_⟩
    · rw [Chain.desc_data hnodup, link_dataDesc]
    · rw [Chain.suffix_data hnodup, Chain.suffix_status hnodup]
  · refine .inr ⟨?_, Chain.suffix_status hnodup⟩
    rw [Chain.desc_status hnodup, link_statusDesc]

/-- The device finds the buffer of a chain. -/
theorem Formatted.dataAddr (hf : Formatted d r c) (hnodup : c.list.Nodup) :
    dataAddr d c.head = .data r.b := by
  rw [Virtio.dataAddr, hf.desc c.head c.head_mem, Chain.desc_head]
  show (d.desc c.data).addr = .data r.b
  rw [hf.desc c.data (by simp [Chain.list]), Chain.desc_data hnodup]
  rfl

/-- The device finds the status of a chain. -/
theorem Formatted.statusAddr (hf : Formatted d r c) (hnodup : c.list.Nodup) :
    statusAddr d c.head = .status c.head := by
  rw [Virtio.statusAddr, hf.desc c.head c.head_mem, Chain.desc_head]
  show (d.desc (d.desc c.data).next).addr = .status c.head
  rw [hf.desc c.data (by simp [Chain.list]), Chain.desc_data hnodup]
  show (d.desc c.status).addr = .status c.head
  rw [hf.desc c.status (by simp [Chain.list]), Chain.desc_status hnodup]
  rfl

theorem formatted_format (d : Disk) (r : Req) (hnodup : c.list.Nodup) :
    Formatted (format d r c) r c := by
  have hne := Chain.ne hnodup
  refine ⟨fun i hi => ?_, by simp [format]⟩
  rcases Chain.mem_list.mp hi with rfl | rfl | rfl
  · rw [Chain.desc_head]
    simp [format, hne.1, hne.2.1]
  · rw [Chain.desc_data hnodup]
    simp [format, hne.2.2]
  · rw [Chain.desc_status hnodup]
    simp [format]

theorem Formatted.congr (hf : Formatted d r c) (hdesc : ∀ i ∈ c.list, d'.desc i = d.desc i)
    (hbuf : (d'.info c.head).b = (d.info c.head).b) : Formatted d' r c :=
  ⟨fun i hi => (hdesc i hi).trans (hf.desc i hi), hbuf.trans hf.buf⟩

theorem Flying.congr (hf : Flying d g r c) (hg : g' r.b = g r.b) (hdisk : d'.disk r.b = d.disk r.b)
    (hinfo : (d'.info c.head).status = (d.info c.head).status) : Flying d' g' r c := by
  cases hf with
  | submitted h₁ h₂ => exact .submitted (hg.trans h₁) (hdisk.trans h₂)
  | completed h₁ h₂ h₃ => exact .completed (hg.trans h₁) (hdisk.trans h₂) (hinfo.trans h₃)
  | cleared h => exact .cleared ⟨hg.trans h.1, hdisk.trans h.2⟩

theorem Flying.disk (hf : Flying d g r c) {st : Stage}
    (hg : g r.b = some { head := c.head, stage := st }) (hst : st ≠ .cleared) : d.disk r.b = 1 := by
  cases hf with
  | submitted _ hdisk => exact hdisk
  | completed _ hdisk => exact hdisk
  | cleared hcleared =>
    have hg' := hcleared.1
    rw [hg] at hg'
    exact absurd (congrArg Flight.stage (Option.some.inj hg')) hst

/-! ## One caller moves on -/

theorem skip_of_rest (hrest : l.rest) : l.skip = 0 := by
  cases l <;> first | rfl | exact hrest.elim

theorem skips_iff (hothers : ∀ q, q ≠ p → ∀ l, S q = .inr l → l.rest) :
    Skips S k ↔ k = skip (S p) := by
  have hzero : ∀ q, q ≠ p → skip (S q) = 0 := by
    intro q hne
    cases hq : S q with
    | inl x => rfl
    | inr l => exact skip_of_rest (hothers q hne l hq)
  have hle : skip (S p) = 0 ∨ skip (S p) = 1 := by
    cases S p with
    | inl x => exact .inl rfl
    | inr l => cases l <;> simp [skip, Place.skip]
  constructor
  · rintro (⟨rfl, hall⟩ | ⟨rfl, q, hq⟩)
    · exact (hall p).symm
    · rcases eq_or_ne q p with rfl | hne
      · exact hq.symm
      · rw [hzero q hne] at hq
        cases hq
  · rintro rfl
    rcases hle with h0 | h1
    · refine .inl ⟨h0, fun q => ?_⟩
      rcases eq_or_ne q p with rfl | hne
      · exact h0
      · exact hzero q hne
    · exact .inr ⟨h1, p, h1⟩

theorem descs_update (S : Nat → Option Unit ⊕ Place) (p : Nat) (s' : Option Unit ⊕ Place) :
    (fun q => descs (update S p s' q)) = update (fun q => descs (S q)) p (descs s') :=
  funext fun q => Function.apply_update (fun _ => descs) S p s' q

/-- A caller that holds the lock moves on, and what the other ones and the idle buffers
rely on is kept. -/
theorem Core.change (hcore : Core d S g) (hothers : ∀ q, q ≠ p → ∀ l, S q = .inr l → l.rest)
    (s' : Option Unit ⊕ Place)
    (hholds : Holds (· < NUM) d'.free (update (fun q => descs (S q)) p (descs s')))
    (hreq : ∀ r, siteReq s' = some r → siteReq (S p) = some r)
    (hself : ∀ l, s' = .inr l → At d' g' l)
    (hplaces : ∀ q, q ≠ p → ∀ l, S q = .inr l → l.rest → At d g l → At d' g' l)
    (hidle : ∀ b, (∀ q r, siteReq (update S p s' q) = some r → r.b ≠ b) → Quiet d' g' b)
    (hqueues : Queues d g (skip (S p)) → Queues d' g' (skip s')) :
    Core d' (update S p s') g' := by
  have hsites : ∀ q r, siteReq (update S p s' q) = some r → siteReq (S q) = some r := by
    intro q r hq
    rcases eq_or_ne q p with rfl | hne
    · rw [update_self] at hq
      exact hreq r hq
    · rwa [update_of_ne hne] at hq
  refine ⟨(descs_update S p s').symm ▸ hholds, fun q q' r r' hq hq' => ?_, fun q l hq => ?_, hidle,
    skip s', ?_, ?_⟩
  · exact hcore.bufs q q' r r' (hsites q r hq) (hsites q' r' hq')
  · rcases eq_or_ne q p with rfl | hne
    · rw [update_self] at hq
      exact hself l hq
    · rw [update_of_ne hne] at hq
      exact hplaces q hne l hq (hothers q hne l hq) (hcore.places q l hq)
  · refine (skips_iff (p := p) fun q hne l hq => ?_).mpr (by rw [update_self])
    rw [update_of_ne hne] at hq
    exact hothers q hne l hq
  · obtain ⟨k, hk, hq⟩ := hcore.queues
    rw [(skips_iff hothers).mp hk] at hq
    exact hqueues hq

/-- A caller that holds the lock moves on, and changes only its own descriptors and the
state of its own buffer. -/
theorem Core.set (hcore : Core d S g) (hothers : ∀ q, q ≠ p → ∀ l, S q = .inr l → l.rest)
    (s' : Option Unit ⊕ Place)
    (hholds : Holds (· < NUM) d'.free (update (fun q => descs (S q)) p (descs s')))
    (hreq : ∀ r, siteReq s' = some r → siteReq (S p) = some r)
    (hquiet : siteReq s' = none → ∀ r, siteReq (S p) = some r → Quiet d' g' r.b)
    (hself : ∀ l, s' = .inr l → At d' g' l)
    (hdesc : ∀ i, i ∉ descs (S p) → d'.desc i = d.desc i ∧ d'.info i = d.info i)
    (hbuf : ∀ b, (∀ r, siteReq (S p) = some r → r.b ≠ b) → d'.disk b = d.disk b ∧ g' b = g b)
    (hqueues : Queues d g (skip (S p)) → Queues d' g' (skip s')) :
    Core d' (update S p s') g' := by
  refine hcore.change hothers s' hholds hreq hself (fun q hne l hq hrest hat => ?_)
    (fun b hb => ?_) hqueues
  · -- the buffers of other callers are different ones
    have hother : ∀ r, siteReq (S q) = some r → ∀ r', siteReq (S p) = some r' → r'.b ≠ r.b :=
      fun r hr r' hr' heq => hne (hcore.bufs q p r r' hr hr' heq.symm)
    cases l with
    | alloc r idx =>
      obtain ⟨hdisk, hg⟩ := hbuf r.b (hother r (by rw [hq]; rfl))
      exact ⟨hg.trans hat.1, hdisk.trans hat.2⟩
    | wait r c =>
      obtain ⟨hdisk, hg⟩ := hbuf r.b (hother r (by rw [hq]; rfl))
      have hmem : ∀ i ∈ c.list, i ∉ descs (S p) := fun i hi hp =>
        hne (hcore.holds.unique q p i (show i ∈ descs (S q) by rw [hq]; exact hi) hp)
      have hinfo := (hdesc c.head (hmem c.head c.head_mem)).2
      exact ⟨hat.1.congr (fun i hi => (hdesc i (hmem i hi)).1) (by rw [hinfo]),
        hat.2.congr hg hdisk (by rw [hinfo])⟩
    | intr => trivial
    | undo | undone | format | ring | publish | finish | freeChain | freed | done | entry | wake
    | advance | panicked => exact hrest.elim
  · by_cases hown : ∀ r, siteReq (S p) = some r → r.b ≠ b
    · obtain ⟨hdisk, hg⟩ := hbuf b hown
      have hquiet := hcore.idle b fun q r hr => by
        rcases eq_or_ne q p with rfl | hne
        · exact hown r hr
        · exact hb q r (by rw [update_of_ne hne]; exact hr)
      exact ⟨hg.trans hquiet.1, hdisk.trans hquiet.2⟩
    · simp only [not_forall, not_not] at hown
      obtain ⟨r, hr, rfl⟩ := hown
      refine hquiet ?_ r hr
      cases hs : siteReq s' with
      | none => rfl
      | some r' =>
        have heq : some r' = some r := (hreq r' hs).symm.trans hr
        have hne : r'.b ≠ r.b := hb p r' (by rw [update_self]; exact hs)
        cases heq
        exact absurd rfl hne

/-- A caller moves on with the same descriptors. -/
theorem Core.holds_of_descs (hcore : Core d S g) {idx : List Nat} (hdescs : idx = descs (S p)) :
    Holds (· < NUM) d.free (update (fun q => descs (S q)) p idx) := by
  rw [hdescs, update_eq_self p fun q => descs (S q)]
  exact hcore.holds

/-- A caller moves on from one place to another, with the same request. -/
theorem Core.goto (hcore : Core d S g) (hothers : ∀ q, q ≠ p → ∀ l, S q = .inr l → l.rest)
    (hp : S p = .inr l)
    (hholds : Holds (· < NUM) d'.free (update (fun q => descs (S q)) p l'.descs))
    (hreq : l'.req = l.req) (hat : At d' g' l')
    (hdesc : ∀ i, i ∉ l.descs → d'.desc i = d.desc i ∧ d'.info i = d.info i)
    (hbuf : ∀ b, (∀ r, l.req = some r → r.b ≠ b) → d'.disk b = d.disk b ∧ g' b = g b)
    (hqueues : Queues d g l.skip → Queues d' g' l'.skip) :
    Core d' (update S p (.inr l')) g' := by
  refine hcore.set hothers _ hholds (fun r hr => ?_) (fun hnone r hr => ?_)
    (fun _ hl => ?_) ?_ ?_ ?_
  · rw [hp]
    exact hreq.symm.trans hr
  · rw [hp] at hr
    have hsome : l.req = some r := hr
    cases hsome.symm.trans (hreq.symm.trans hnone)
  · cases hl
    exact hat
  all_goals rw [hp]
  · exact hdesc
  · exact hbuf
  · exact hqueues

/-- A caller moves on without touching anything. -/
theorem Core.move (hcore : Core d S g) (hothers : ∀ q, q ≠ p → ∀ l, S q = .inr l → l.rest)
    (hp : S p = .inr l) (hdescs : l'.descs = l.descs) (hreq : l'.req = l.req)
    (hskip : l'.skip = l.skip) (hat : At d g l') : Core d (update S p (.inr l')) g :=
  hcore.goto hothers hp (hcore.holds_of_descs (by rw [hp]; exact hdescs)) hreq hat
    (fun _ _ => ⟨rfl, rfl⟩) (fun _ _ => ⟨rfl, rfl⟩) fun hq => hskip.symm ▸ hq

/-! ## The queues -/

/-- Nothing happens to the queues, and no request is submitted, completed or cleared. -/
theorem Queues.congr (hq : Queues d g k) (hsubmitted : d'.submitted = d.submitted)
    (htaken : d'.taken = d.taken) (hreturned : d'.returned = d.returned)
    (hg : ∀ h st, st ≠ .cleared →
      ((∃ b, g' b = some { head := h, stage := st }) ↔
        ∃ b, g b = some { head := h, stage := st })) :
    Queues d' g' k := by
  refine ⟨?_, ?_, fun h => ?_, ?_, fun h => ?_⟩
  · rw [hreturned]
    exact hq.le
  · rw [hsubmitted, htaken]
    exact hq.nodup_device
  · rw [hsubmitted, htaken, hg h .submitted nofun]
    exact hq.mem_device h
  · rw [hreturned]
    exact hq.nodup_used
  · rw [hreturned, hg h .completed nofun]
    exact hq.mem_used h

/-- The requests at a stage after a request has gone to the stage `st`. -/
theorem exists_update (st : Stage) (x : Option Flight)
    (hne : ∀ h, x ≠ some { head := h, stage := st }) :
    (∃ b', update g b x b' = some { head := h, stage := st }) ↔
      ∃ b', b' ≠ b ∧ g b' = some { head := h, stage := st } := by
  constructor
  · rintro ⟨b', hb'⟩
    rcases eq_or_ne b' b with rfl | hb
    · rw [update_self] at hb'
      exact absurd hb' (hne h)
    · rw [update_of_ne hb] at hb'
      exact ⟨b', hb, hb'⟩
  · rintro ⟨b', hb, hb'⟩
    exact ⟨b', by rwa [update_of_ne hb]⟩

/-- A request goes from a stage that is not `st` to one that is not `st`. -/
theorem exists_update_iff (st : Stage) (x : Option Flight)
    (hne : ∀ h, x ≠ some { head := h, stage := st })
    (hold : ∀ h, g b ≠ some { head := h, stage := st }) :
    (∃ b', update g b x b' = some { head := h, stage := st }) ↔
      ∃ b', g b' = some { head := h, stage := st } := by
  rw [exists_update st x hne]
  refine exists_congr fun b' => and_iff_right_of_imp fun hb' => ?_
  rintro rfl
  exact hold h hb'

/-! ## Allocation -/

section Alloc

variable (hcore : Core d S g) (hothers : ∀ q, q ≠ p → ∀ l, S q = .inr l → l.rest)
include hcore hothers

theorem Core.alloc {idx : List Nat} (hp : S p = .inr (.alloc r idx)) (hi : allocDesc d = some i) :
    Core { d with free := update d.free i false }
      (update S p (.inr (.alloc r (idx ++ [i])))) g := by
  have hlt : i < NUM := List.mem_range.mp (List.mem_of_find?_eq_some hi)
  have hfree : d.free i = true := List.find?_some hi
  have hholds := hcore.holds.take p hlt hfree
  rw [show descs (S p) = idx by rw [hp]; rfl] at hholds
  exact hcore.goto hothers hp hholds rfl (hcore.places p _ hp) (fun _ _ => ⟨rfl, rfl⟩)
    (fun _ _ => ⟨rfl, rfl⟩) fun hq => hq.congr rfl rfl rfl fun _ _ _ => Iff.rfl

omit hothers in
/-- A descriptor that a caller has can be freed. -/
theorem Core.freeDesc_eq (hi : i ∈ descs (S p)) : freeDesc d i = .ok { d with
    desc := update d.desc i { addr := .null, len := 0, flags := 0, next := 0 }
    free := update d.free i true } := by
  have hlt : i < NUM := hcore.holds.mem_dom p i hi
  have hused : d.free i = false := hcore.holds.not_free hi
  rw [freeDesc, if_neg (by omega), hused]
  rfl

/-- A caller frees the first of its descriptors. -/
theorem Core.give {rest : List Nat} (hp : S p = .inr l) (hi : l.descs = i :: rest)
    (hl' : l'.descs = rest) (hreq : l'.req = l.req) (hskip : l'.skip = l.skip)
    (hat : At { d with
      desc := update d.desc i { addr := .null, len := 0, flags := 0, next := 0 }
      free := update d.free i true } g l') :
    Core { d with
      desc := update d.desc i { addr := .null, len := 0, flags := 0, next := 0 }
      free := update d.free i true } (update S p (.inr l')) g := by
  have hdescs : descs (S p) = i :: rest := by rw [hp]; exact hi
  have hholds := hcore.holds.give hdescs
  refine hcore.goto hothers hp (hl'.symm ▸ hholds) hreq hat (fun j hj => ⟨?_, rfl⟩)
    (fun _ _ => ⟨rfl, rfl⟩) fun hq => ?_
  · refine update_of_ne ?_ _ _
    rintro rfl
    exact hj (hi ▸ .head _)
  · rw [hskip]
    exact hq.congr rfl rfl rfl fun _ _ _ => Iff.rfl

end Alloc

/-! ## Submission -/

theorem num_dvd : NUM ∣ 2 ^ 16 := ⟨8192, rfl⟩

/-- There is room in the avail ring for a chain that is not submitted yet. -/
theorem Core.length_submitted (hcore : Core d S g) (hqueues : Queues d g k) (hp : S p = .inr l)
    (hi : i ∈ l.descs) (hwait : ∀ r c, l ≠ .wait r c) : (d.avail.idx - d.seen).toNat < NUM := by
  have hmem : ∀ h ∈ d.submitted, ∃ b, g b = some { head := h, stage := .submitted } := fun h hh =>
    (hqueues.mem_device h).mp (List.mem_append_left _ hh)
  have hnodup : (i :: d.submitted).Nodup := by
    refine List.nodup_cons.mpr ⟨fun hi' => ?_, (List.nodup_append.mp hqueues.nodup_device).1⟩
    obtain ⟨b, hb⟩ := hmem i hi'
    exact hcore.not_head hp hi hwait hb nofun rfl
  have hlength := length_le_NUM hnodup fun h hh => by
    rcases List.mem_cons.mp hh with rfl | hh
    · exact hcore.holds.mem_dom p h (by rw [hp]; exact hi)
    · obtain ⟨b, hb⟩ := hmem h hh
      exact hcore.head_lt hb nofun
  rw [List.length_cons, Disk.submitted, length_cells] at hlength
  omega

section Submit

variable (hcore : Core d S g) (hothers : ∀ q, q ≠ p → ∀ l, S q = .inr l → l.rest)
include hcore hothers

theorem Core.format (hp : S p = .inr (.format r c)) :
    Core (format d r c) (update S p (.inr (.ring r c))) g := by
  have hnodup := hcore.holds.nodup p
  rw [hp] at hnodup
  have hquiet : Quiet d g r.b := hcore.places p _ hp
  refine hcore.goto hothers hp (hcore.holds_of_descs (by rw [hp]; rfl)) rfl
    ⟨formatted_format d r hnodup, hquiet.1, update_self ..⟩ (fun i hi => ?_)
    (fun b hb => ⟨update_of_ne (hb r rfl).symm .., rfl⟩)
    fun hq => hq.congr rfl rfl rfl fun _ _ _ => Iff.rfl
  have hne : i ≠ c.head ∧ i ≠ c.data ∧ i ≠ c.status := by simpa [Place.descs, Chain.list] using hi
  exact ⟨by simp [Virtio.format, hne], update_of_ne hne.1 ..⟩

/-- The store to the avail ring overwrites no chain that the device has not taken. -/
theorem Core.ring (hp : S p = .inr (.ring r c)) :
    Core { d with avail.ring := update d.avail.ring (d.avail.idx.toNat % NUM) c.head }
      (update S p (.inr (.publish r c))) g := by
  have hat := hcore.places p _ hp
  refine hcore.goto hothers hp (hcore.holds_of_descs (by rw [hp]; rfl)) rfl
    ⟨⟨⟨hat.1.desc, hat.1.buf⟩, hat.2⟩, update_self ..⟩ (fun _ _ => ⟨rfl, rfl⟩)
      (fun _ _ => ⟨rfl, rfl⟩)
    fun hq => ?_
  have hroom := hcore.length_submitted hq hp c.head_mem nofun
  refine hq.congr ?_ rfl rfl fun _ _ _ => Iff.rfl
  have hindex : d.avail.idx.toNat % NUM = (d.seen.toNat + (d.avail.idx - d.seen).toNat) % NUM :=
    index_eq num_dvd
  show cells NUM (update d.avail.ring (d.avail.idx.toNat % NUM) c.head) _ _ = _
  rw [hindex]
  exact cells_update hroom c.head

/-- The increment of `avail->idx` submits the request. -/
theorem Core.publish (hp : S p = .inr (.publish r c)) :
    Core { d with avail.idx := d.avail.idx + 1 } (update S p (.inr (.wait r c)))
      (update g r.b (some { head := c.head, stage := .submitted })) := by
  obtain ⟨⟨hformat, hg, hdisk⟩, hring⟩ := hcore.places p _ hp
  refine hcore.goto hothers hp (hcore.holds_of_descs (by rw [hp]; rfl)) rfl
    ⟨⟨hformat.desc, hformat.buf⟩, .submitted (update_self ..) hdisk⟩ (fun _ _ => ⟨rfl, rfl⟩)
    (fun b hb => ⟨rfl, update_of_ne (hb r rfl).symm ..⟩) fun hq => ?_
  have hroom := hcore.length_submitted hq hp c.head_mem nofun
  have hfresh : c.head ∉ d.submitted ++ d.taken := by
    intro hmem
    obtain ⟨b, hb⟩ := (hq.mem_device c.head).mp hmem
    exact hcore.not_head hp c.head_mem nofun hb nofun rfl
  have hsubmitted : Disk.submitted { d with avail.idx := d.avail.idx + 1 } =
      d.submitted ++ [c.head] := by
    have hindex : d.avail.idx.toNat % NUM = (d.seen.toNat + (d.avail.idx - d.seen).toNat) % NUM :=
      index_eq num_dvd
    show cells NUM d.avail.ring d.seen.toNat (d.avail.idx + 1 - d.seen).toNat = _
    rw [toNat_sub_push (by have : NUM = 8 := rfl; omega), cells_succ, ← hindex, hring]
    rfl
  have hperm : (d.submitted ++ [c.head] ++ d.taken).Perm (c.head :: (d.submitted ++ d.taken)) := by
    rw [List.append_assoc]
    exact List.perm_middle
  have hold : ∀ st h, g r.b ≠ some { head := h, stage := st } := by
    intro st h heq
    rw [hg] at heq
    cases heq
  refine ⟨hq.le, ?_, fun h => ?_, hq.nodup_used, fun h => ?_⟩
  · rw [hsubmitted]
    exact hperm.nodup_iff.mpr (List.nodup_cons.mpr ⟨hfresh, hq.nodup_device⟩)
  · rw [hsubmitted, hperm.mem_iff, List.mem_cons, hq.mem_device]
    constructor
    · rintro (rfl | ⟨b, hb⟩)
      · exact ⟨r.b, update_self ..⟩
      · refine ⟨b, ?_⟩
        rw [update_of_ne, hb]
        rintro rfl
        exact hold _ _ hb
    · rintro ⟨b, hb⟩
      rcases eq_or_ne b r.b with rfl | hne
      · rw [update_self] at hb
        exact .inl (congrArg Flight.head (Option.some.inj hb)).symm
      · rw [update_of_ne hne] at hb
        exact .inr ⟨b, hb⟩
  · rw [exists_update_iff .completed (some { head := c.head, stage := .submitted }) nofun
      (hold .completed)]
    exact hq.mem_used h

end Submit

/-! ## The end of a request -/

section Finish

variable (hcore : Core d S g) (hothers : ∀ q, q ≠ p → ∀ l, S q = .inr l → l.rest)
include hcore hothers

theorem Core.finish (hp : S p = .inr (.finish r c)) :
    Core { d with info := update d.info c.head { d.info c.head with b := none } }
      (update S p (.inr (.freeChain r c c.head))) g := by
  have hnodup := hcore.holds.nodup p
  rw [hp] at hnodup
  obtain ⟨hformat, hcleared⟩ := hcore.places p _ hp
  refine hcore.goto hothers hp (hcore.holds_of_descs
    (by rw [hp]; exact Chain.suffix_head)) rfl ⟨⟨hnodup, hcleared⟩, c.head_mem, fun j hj => ?_⟩
    (fun i hi => ⟨rfl, update_of_ne ?_ ..⟩) (fun _ _ => ⟨rfl, rfl⟩)
    fun hq => hq.congr rfl rfl rfl fun _ _ _ => Iff.rfl
  · rw [Chain.suffix_head] at hj
    exact hformat.desc j hj
  · rintro rfl
    exact hi c.head_mem

theorem Core.freeChain (hp : S p = .inr (.freeChain r c i)) :
    ∃ d', freeDesc d i = .ok d' ∧
      Core d' (update S p (.inr (.freed r c (d.desc i).link))) g := by
  obtain ⟨⟨hnodup, hcleared⟩, hi, hdesc⟩ := hcore.places p _ hp
  have hholds := hcore.holds.nodup p
  have hfree : ∀ {rest}, c.suffix i = i :: rest → freeDesc d i = .ok _ := fun hsuffix =>
    hcore.freeDesc_eq (p := p) (by rw [hp, descs, Place.descs, hsuffix]; exact .head _)
  rw [hp] at hholds
  rcases Chain.link_cases (r := r) hnodup hi with ⟨j, hlink, hj, hsuffix⟩ | ⟨hlink, hsuffix⟩
  · have hdescs : (Place.freeChain r c i).descs = i :: c.suffix j := hsuffix
    have hnot : i ∉ c.suffix j := (List.nodup_cons.mp (hdescs ▸ hholds)).1
    refine ⟨_, hfree hsuffix, ?_⟩
    rw [hdesc i (by rw [hsuffix]; exact .head _), hlink]
    refine hcore.give hothers hp hdescs rfl rfl rfl ⟨⟨hnodup, hcleared⟩, hj, fun t ht => ?_⟩
    have hne : t ≠ i := fun heq => hnot (heq ▸ ht)
    rw [← hdesc t (by rw [hsuffix]; exact .tail _ ht)]
    exact update_of_ne hne ..
  · have hdescs : (Place.freeChain r c i).descs = [i] := hsuffix
    refine ⟨_, hfree hsuffix, ?_⟩
    rw [hdesc i (by rw [hsuffix]; exact .head _), hlink]
    exact hcore.give hothers hp hdescs rfl rfl rfl hcleared

/-- The caller returns, and the buffer is idle. -/
theorem Core.done (hp : S p = .inr (.done r c)) (x : Option Unit) :
    Core d (update S p (.inl x)) (update g r.b none) := by
  obtain ⟨hg, hdisk⟩ := hcore.places p _ hp
  refine hcore.set hothers _ (hcore.holds_of_descs (by rw [hp]; rfl)) nofun
    (fun _ r' hr => ?_) nofun
    (fun _ _ => ⟨rfl, rfl⟩) (fun b hb => ⟨rfl, ?_⟩) fun hq => ?_
  · rw [hp] at hr
    cases hr
    exact ⟨update_self .., hdisk⟩
  · have hne : r.b ≠ b := hb r (by rw [hp]; rfl)
    exact update_of_ne hne.symm ..
  · rw [hp] at hq
    refine hq.congr rfl rfl rfl fun h st hst => exists_update_iff st none nofun fun h' heq => ?_
    rw [hg] at heq
    exact hst (congrArg Flight.stage (Option.some.inj heq)).symm

end Finish

/-! ## Interrupts -/

section Interrupt

variable (hcore : Core d S g) (hothers : ∀ q, q ≠ p → ∀ l, S q = .inr l → l.rest)
include hcore hothers

/-- The used ring starts with a chain that the device has completed, and its request is
cleared. -/
theorem Core.entry (hp : S p = .inr .entry) :
    ∃ b id, d.used.ring (d.usedIdx.toNat % NUM) = id ∧ (d.info id).status = 0 ∧
      (d.info id).b = some b ∧ g b = some { head := id, stage := .completed } ∧
      Core { d with disk := update d.disk b 0 } (update S p (.inr (.wake b)))
        (update g b (some { head := id, stage := .cleared })) := by
  obtain ⟨k, hk, hq⟩ := hcore.queues
  have hzero : k = 0 := by
    rw [(skips_iff hothers).mp hk, hp]
    rfl
  subst hzero
  have hne : d.usedIdx ≠ d.used.idx := hcore.places p _ hp
  have hreturned : d.returned = d.used.ring (d.usedIdx.toNat % NUM) :: d.returned.tail := by
    rw [Disk.returned, ← toNat_sub_pop hne, cells_pop]
    rfl
  generalize hid : d.used.ring (d.usedIdx.toNat % NUM) = id at hreturned
  obtain ⟨b, hb⟩ := (hq.mem_used id).mp (by rw [List.drop_zero, hreturned]; exact .head _)
  obtain ⟨q, r, c, hsite, rfl, rfl⟩ := hcore.owner hb (by simp)
  obtain ⟨hformat, hflying⟩ := hcore.places q _ hsite
  have hstatus : (d.info c.head).status = 0 := by
    cases hflying with
    | submitted hg' =>
      rw [hb] at hg'
      cases hg'
    | completed _ _ hstatus => exact hstatus
    | cleared hcleared =>
      have hg' := hcleared.1
      rw [hb] at hg'
      cases hg'
  have hreqq : siteReq (S q) = some r := by rw [hsite]; rfl
  have hqp : q ≠ p := by
    rintro rfl
    rw [hp] at hsite
    cases hsite
  refine ⟨r.b, c.head, rfl, hstatus, hformat.buf, hb, hcore.change hothers _
    (hcore.holds_of_descs (by rw [hp]; rfl)) (fun l hl => by cases hl) (fun l hl => ?_)
      (fun q' hne' l hq' hrest hat => ?_)
    (fun b hb' => ?_) fun _ => ?_⟩
  · cases hl
    exact hne
  · -- the caller that waits for the request finds it cleared
    by_cases hsame : q' = q
    · subst hsame
      rw [hsite] at hq'
      cases hq'
      exact ⟨⟨hformat.desc, hformat.buf⟩, .cleared ⟨update_self .., update_self ..⟩⟩
    · have hother : ∀ r', siteReq (S q') = some r' → r'.b ≠ r.b := fun r' hr' heq =>
        hsame (hcore.bufs q' q r' r hr' hreqq heq)
      cases l with
      | alloc r' idx =>
        have hne'' := hother r' (by rw [hq']; rfl)
        exact ⟨(update_of_ne hne'' ..).trans hat.1, (update_of_ne hne'' ..).trans hat.2⟩
      | wait r' c' =>
        have hne'' := hother r' (by rw [hq']; rfl)
        exact ⟨⟨hat.1.desc, hat.1.buf⟩,
          hat.2.congr (update_of_ne hne'' ..) (update_of_ne hne'' ..) rfl⟩
      | intr => trivial
      | undo | undone | format | ring | publish | finish | freeChain | freed | done | entry | wake
      | advance | panicked => exact hrest.elim
  · have hne'' : r.b ≠ b := hb' q r (by rw [update_of_ne hqp]; exact hreqq)
    have hquiet := hcore.idle b fun q' r' hr' => by
      rcases eq_or_ne q' p with rfl | hne'
      · rw [hp] at hr'
        cases hr'
      · exact hb' q' r' (by rw [update_of_ne hne']; exact hr')
    exact ⟨(update_of_ne hne''.symm ..).trans hquiet.1,
      (update_of_ne hne''.symm ..).trans hquiet.2⟩
  · have hnodup : (c.head :: d.returned.tail).Nodup := by
      rw [← hreturned]
      exact hq.nodup_used
    refine ⟨?_, hq.nodup_device, fun h => ?_, ?_, fun h => ?_⟩
    · show 1 ≤ d.returned.length
      rw [hreturned]
      exact Nat.le_add_left 1 _
    · rw [exists_update_iff .submitted (some { head := c.head, stage := .cleared }) (by simp)
        fun h heq => ?_]
      · exact hq.mem_device h
      · rw [hb] at heq
        cases heq
    · show (d.returned.drop 1).Nodup
      rw [List.drop_one]
      exact hnodup.of_cons
    · show h ∈ d.returned.drop 1 ↔ _
      rw [List.drop_one, exists_update .completed (some { head := c.head, stage := .cleared })
        (by simp)]
      have hmem := hq.mem_used h
      rw [List.drop_zero, hreturned, List.mem_cons] at hmem
      constructor
      · intro htail
        obtain ⟨b', hb'⟩ := hmem.mp (.inr htail)
        refine ⟨b', ?_, hb'⟩
        rintro rfl
        rw [hb] at hb'
        cases hb'
        exact (List.nodup_cons.mp hnodup).1 htail
      · rintro ⟨b', hne', hb'⟩
        refine (hmem.mpr ⟨b', hb'⟩).resolve_left ?_
        rintro rfl
        exact hne' (hcore.head_inj hb' (by simp) hb (by simp))

/-- The driver passes an entry of the used ring that is cleared. -/
theorem Core.advance (hp : S p = .inr .advance) :
    Core { d with usedIdx := d.usedIdx + 1 } (update S p (.inr .intr)) g := by
  have hne : d.usedIdx ≠ d.used.idx := hcore.places p _ hp
  refine hcore.goto hothers hp (hcore.holds_of_descs (by rw [hp]; rfl)) rfl trivial
    (fun _ _ => ⟨rfl, rfl⟩) (fun _ _ => ⟨rfl, rfl⟩) fun hq => ?_
  have hreturned : Disk.returned { d with usedIdx := d.usedIdx + 1 } = d.returned.drop 1 := by
    show cells NUM d.used.ring (d.usedIdx + 1).toNat (d.used.idx - (d.usedIdx + 1)).toNat = _
    rw [cells_toNat_add_one num_dvd (by decide), Disk.returned, ← toNat_sub_pop hne, cells_pop]
    rfl
  refine ⟨Nat.zero_le _, hq.nodup_device, hq.mem_device, ?_, fun h => ?_⟩
  · show (Disk.returned { d with usedIdx := d.usedIdx + 1 }).Nodup
    rw [hreturned]
    exact hq.nodup_used
  · show h ∈ Disk.returned { d with usedIdx := d.usedIdx + 1 } ↔ _
    rw [hreturned]
    exact hq.mem_used h

/-- The driver has passed the whole used ring. -/
theorem Core.leave (hp : S p = .inr .intr) (x : Option Unit) : Core d (update S p (.inl x)) g := by
  refine hcore.set hothers _ (hcore.holds_of_descs (by rw [hp]; rfl)) nofun
    (fun _ r' hr => ?_) nofun
    (fun _ _ => ⟨rfl, rfl⟩) (fun _ _ => ⟨rfl, rfl⟩) fun hq => ?_
  · rw [hp] at hr
    cases hr
  · rw [hp] at hq
    exact hq

end Interrupt

/-! ## The driver -/

/-- Every access of a caller that holds the lock. -/
theorem Core.run (hcore : Core d S g) (hothers : ∀ q, q ≠ p → ∀ l, S q = .inr l → l.rest)
    (hp : S p = .inr l) (u : Unit) (killed : Bool) :
    ∃ g', exec next g (runLabel d l) = some g' ∧
      Core ((instr u killed d l).data d) (update S p (instr u killed d l).site) g' := by
  have hat := hcore.places p l hp
  cases l with
  | alloc r idx =>
    refine ⟨g, rfl, ?_⟩
    rw [instr, allocNext.eq_def]
    split
    · exact hcore.move hothers hp rfl rfl rfl hat
    · split
      · next i hi => exact hcore.alloc hothers hp hi
      · exact hcore.move hothers hp rfl rfl rfl hat
  | undo r idx =>
    refine ⟨g, rfl, ?_⟩
    cases idx with
    | nil => exact hcore.move hothers hp rfl rfl rfl hat
    | cons j idx =>
      have hmem : j ∈ descs (S p) := by
        rw [hp]
        exact .head _
      rw [instr, hcore.freeDesc_eq hmem]
      exact hcore.give hothers hp rfl rfl rfl rfl hat
  | undone r idx => exact ⟨g, rfl, hcore.move hothers hp rfl rfl rfl hat⟩
  | format r c => exact ⟨g, rfl, hcore.format hothers hp⟩
  | ring r c => exact ⟨g, rfl, hcore.ring hothers hp⟩
  | publish r c => exact ⟨_, by simp [runLabel, exec, next, hat.1.2.1], hcore.publish hothers hp⟩
  | wait r c =>
    refine ⟨g, rfl, ?_⟩
    rw [instr]
    split
    · exact hcore.move hothers hp rfl rfl rfl hat
    · next hdisk =>
      refine hcore.move hothers hp rfl rfl rfl ⟨hat.1, ?_⟩
      cases hat.2 with
      | submitted _ hone => exact absurd hone hdisk
      | completed _ hone => exact absurd hone hdisk
      | cleared hcleared => exact hcleared
  | finish r c => exact ⟨g, rfl, hcore.finish hothers hp⟩
  | freeChain r c i =>
    obtain ⟨d', hfree, hcore'⟩ := hcore.freeChain hothers hp
    refine ⟨g, rfl, ?_⟩
    rw [instr, hfree]
    exact hcore'
  | freed r c next =>
    refine ⟨g, rfl, ?_⟩
    cases next with
    | none => exact hcore.move hothers hp rfl rfl rfl hat
    | some i => exact hcore.move hothers hp rfl rfl rfl hat
  | done r c => exact ⟨_, by simp [runLabel, exec, next, hat.1], hcore.done hothers hp _⟩
  | intr =>
    refine ⟨g, rfl, ?_⟩
    rw [instr]
    split
    · next hne => exact hcore.move hothers hp rfl rfl rfl hne
    · exact hcore.leave hothers hp _
  | entry =>
    obtain ⟨b, id, hid, hstatus, hb, hg, hcore'⟩ := hcore.entry hothers hp
    refine ⟨update g b (some { head := id, stage := .cleared }), ?_, ?_⟩
    · simp [runLabel, exec, next, hid, hstatus, hb, hg]
    · rw [instr, intrEntry, hid, if_neg (not_not.mpr hstatus), hb]
      exact hcore'
  | wake b => exact ⟨g, rfl, hcore.move hothers hp rfl rfl rfl hat⟩
  | advance => exact ⟨g, rfl, hcore.advance hothers hp⟩
  | panicked e => exact hat.elim

/-! ## The device -/

/-- The device changes nothing that a caller relies on, but for the stage of a request
that it waits for. -/
theorem At.device (hat : At d g l) (hdesc : d'.desc = d.desc) (havail : d'.avail = d.avail)
    (hdisk : d'.disk = d.disk) (hbuf : ∀ i, (d'.info i).b = (d.info i).b)
    (hflying : ∀ r c, l = .wait r c → Flying d g r c → Flying d' g' r c)
    (hg : ∀ r, l.req = some r → (∀ c, l ≠ .wait r c) → g' r.b = g r.b)
    (hused : d.usedIdx ≠ d.used.idx → d'.usedIdx ≠ d'.used.idx) : At d' g' l := by
  have hformat : ∀ {r c}, Formatted d r c → Formatted d' r c := fun hf =>
    hf.congr (fun _ _ => by rw [hdesc]) (hbuf _)
  have hquiet : ∀ {r : Req}, g' r.b = g r.b → Quiet d g r.b → Quiet d' g' r.b := fun hgr hq =>
    ⟨hgr.trans hq.1, by rw [hdisk]; exact hq.2⟩
  have hcleared : ∀ {r : Req} {c : Chain}, g' r.b = g r.b → Cleared d g r c → Cleared d' g' r c :=
    fun hgr hc =>
    ⟨hgr.trans hc.1, by rw [hdisk]; exact hc.2⟩
  cases l with
  | alloc r idx => exact hquiet (hg r rfl nofun) hat
  | undo r idx => exact hquiet (hg r rfl nofun) hat
  | undone r idx => exact hquiet (hg r rfl nofun) hat
  | format r c => exact hquiet (hg r rfl nofun) hat
  | ring r c => exact ⟨hformat hat.1, (hg r rfl nofun).trans hat.2.1, by rw [hdisk]; exact hat.2.2⟩
  | publish r c =>
    refine ⟨⟨hformat hat.1.1, (hg r rfl nofun).trans hat.1.2.1, by rw [hdisk]; exact hat.1.2.2⟩, ?_⟩
    rw [havail]
    exact hat.2
  | wait r c => exact ⟨hformat hat.1, hflying r c rfl hat.2⟩
  | finish r c => exact ⟨hformat hat.1, hcleared (hg r rfl nofun) hat.2⟩
  | freeChain r c i =>
    refine ⟨⟨hat.1.1, hcleared (hg r rfl nofun) hat.1.2⟩, hat.2.1, ?_⟩
    rw [hdesc]
    exact hat.2.2
  | freed r c next =>
    cases next with
    | none => exact hcleared (hg r rfl nofun) hat
    | some i =>
      refine ⟨⟨hat.1.1, hcleared (hg r rfl nofun) hat.1.2⟩, hat.2.1, ?_⟩
      rw [hdesc]
      exact hat.2.2
  | done r c => exact hcleared (hg r rfl nofun) hat
  | intr => trivial
  | entry => exact hused hat
  | wake b => exact hused hat
  | advance => exact hused hat
  | panicked e => exact hat

theorem Core.consume (hcore : Core d S g) (hd : consume d = some d') : Core d' S g := by
  obtain ⟨hne, rfl⟩ := of_guard hd
  refine ⟨hcore.holds, hcore.bufs, fun p l hp => ?_, hcore.idle, ?_⟩
  · exact (hcore.places p l hp).device rfl rfl rfl (fun _ => rfl)
      (fun _ _ _ hf => hf.congr rfl rfl rfl) (fun _ _ _ => rfl) id
  · obtain ⟨k, hk, hq⟩ := hcore.queues
    have hsubmitted : d.submitted = d.avail.ring (d.seen.toNat % NUM) ::
        cells NUM d.avail.ring (d.seen.toNat + 1) (d.avail.idx - (d.seen + 1)).toNat := by
      rw [Disk.submitted, ← toNat_sub_pop hne, cells_pop]
    have hperm : (Disk.submitted { d with
          seen := d.seen + 1, taken := d.taken ++ [d.avail.ring (d.seen.toNat % NUM)] } ++
        (d.taken ++ [d.avail.ring (d.seen.toNat % NUM)])).Perm (d.submitted ++ d.taken) := by
      show (cells NUM d.avail.ring (d.seen + 1).toNat (d.avail.idx - (d.seen + 1)).toNat ++
        _).Perm _
      rw [cells_toNat_add_one num_dvd (by decide), hsubmitted, ← List.append_assoc]
      exact List.perm_append_comm
    refine ⟨k, hk, hq.le, hperm.nodup_iff.mpr hq.nodup_device, fun h => ?_, hq.nodup_used,
      hq.mem_used⟩
    exact hperm.mem_iff.trans (hq.mem_device h)

/-- A request in flight at a stage other than `cleared` is waited for. -/
theorem Core.wait_of_submitted (hcore : Core d S g) (hp : S p = .inr l) (hr : l.req = some r)
    {st : Stage} (hg : g r.b = some { head := h, stage := st }) (hst : st ≠ .cleared) :
    ∃ c, l = .wait r c := by
  obtain ⟨q, r', c, hq, hb, -⟩ := hcore.owner hg hst
  have hqp : q = p := hcore.bufs q p r' r (by rw [hq]; rfl) (by rw [hp]; exact hr) hb
  subst hqp
  rw [hq] at hp
  cases hp
  cases hr
  exact ⟨c, rfl⟩

/-- The head of a chain goes from the device to the used ring. -/
theorem Queues.complete (hq : Queues d g k) (hb : g b = some { head := h, stage := .submitted })
    (hinj : ∀ b', g b' = some { head := h, stage := .submitted } → b' = b) (htaken : h ∈ d.taken)
    (hsubmitted : d'.submitted = d.submitted) (htaken' : d'.taken = d.taken.erase h)
    (hle : k ≤ d'.returned.length) (hreturned : d'.returned.drop k = d.returned.drop k ++ [h])
    (hfresh : h ∉ d.returned.drop k) :
    Queues d' (update g b (some { head := h, stage := .completed })) k := by
  have hperm : (d.submitted ++ d.taken).Perm (h :: (d.submitted ++ d.taken.erase h)) :=
    ((List.perm_cons_erase htaken).append_left _).trans List.perm_middle
  obtain ⟨hnot, hnodup⟩ := List.nodup_cons.mp (hperm.nodup_iff.mp hq.nodup_device)
  refine ⟨hle, ?_, fun h' => ?_, ?_, fun h' => ?_⟩
  · rw [hsubmitted, htaken']
    exact hnodup
  · rw [hsubmitted, htaken',
      exists_update .submitted (some { head := h, stage := .completed }) nofun]
    have hmem := hq.mem_device h'
    rw [hperm.mem_iff, List.mem_cons] at hmem
    constructor
    · intro hdevice
      obtain ⟨b', hb'⟩ := hmem.mp (.inr hdevice)
      refine ⟨b', ?_, hb'⟩
      rintro rfl
      rw [hb] at hb'
      cases hb'
      exact hnot hdevice
    · rintro ⟨b', hne, hb'⟩
      refine (hmem.mpr ⟨b', hb'⟩).resolve_left ?_
      rintro rfl
      exact hne (hinj b' hb')
  · rw [hreturned]
    exact hq.nodup_used.append (List.nodup_singleton h) (by simpa using hfresh)
  · rw [hreturned, List.mem_append, List.mem_singleton, hq.mem_used]
    constructor
    · rintro (⟨b', hb'⟩ | rfl)
      · refine ⟨b', ?_⟩
        rw [update_of_ne, hb']
        rintro rfl
        rw [hb] at hb'
        cases hb'
      · exact ⟨b, update_self ..⟩
    · rintro ⟨b', hb'⟩
      rcases eq_or_ne b' b with rfl | hne
      · rw [update_self] at hb'
        exact .inr (congrArg Flight.head (Option.some.inj hb')).symm
      · rw [update_of_ne hne] at hb'
        exact .inl ⟨b', hb'⟩

/-- The device completes a request that has been submitted. -/
theorem Core.complete (hcore : Core d S g) (hd : complete d h = some d') :
    ∃ b, dataAddr d h = .data b ∧ g b = some { head := h, stage := .submitted } ∧
      Core d' S (update g b (some { head := h, stage := .completed })) := by
  obtain ⟨htaken, rfl⟩ := of_guard hd
  obtain ⟨k, hk, hq⟩ := hcore.queues
  obtain ⟨b, hb⟩ := (hq.mem_device h).mp (List.mem_append_right _ htaken)
  obtain ⟨p, r, c, hp, rfl, rfl⟩ := hcore.owner hb (by simp)
  have hnodup : c.list.Nodup := by
    have hnodup := hcore.holds.nodup p
    rwa [hp] at hnodup
  obtain ⟨hformat, hflying⟩ := hcore.places p _ hp
  refine ⟨r.b, hformat.dataAddr hnodup, hb, ?_⟩
  rw [hformat.statusAddr hnodup]
  have hroom := hcore.length_returned hq hb
  have hle : k ≤ (d.used.idx - d.usedIdx).toNat := by
    have hle := hq.le
    rwa [Disk.returned, length_cells] at hle
  have hk1 : k ≤ 1 := by
    rcases hk with ⟨rfl, -⟩ | ⟨rfl, -⟩
    · exact Nat.zero_le 1
    · exact Nat.le_refl 1
  have hpush : (d.used.idx + 1 - d.usedIdx).toNat = (d.used.idx - d.usedIdx).toNat + 1 :=
    toNat_sub_push (by have hNUM : NUM = 8 := rfl; omega)
  refine ⟨hcore.holds, hcore.bufs, fun q l hl => ?_, fun b hb' => ?_, k, hk, ?_⟩
  · refine (hcore.places q l hl).device rfl rfl rfl (fun i => ?_) (fun r' c' hl' hf => ?_)
      (fun r' hr' hwait => ?_) fun _ heq => ?_
    · rcases eq_or_ne i c.head with rfl | hne
      · show (update d.info c.head _ c.head).b = _
        rw [update_self]
      · show (update d.info c.head _ i).b = _
        rw [update_of_ne hne]
    · subst hl'
      by_cases hsame : q = p
      · subst hsame
        rw [hp] at hl
        cases hl
        refine .completed (update_self ..) (hflying.disk hb (by simp)) ?_
        show (update d.info c.head _ c.head).status = 0
        rw [update_self]
      · have hne : r'.b ≠ r.b := fun heq =>
          hsame (hcore.bufs q p r' r (by rw [hl]; rfl) (by rw [hp]; rfl) heq)
        have hhead : c'.head ≠ c.head := by
          intro heq
          apply hsame
          apply hcore.holds.unique q p c'.head
          · rw [hl]
            exact c'.head_mem
          · rw [hp, heq]
            exact c.head_mem
        refine hf.congr (update_of_ne hne ..) rfl ?_
        show (update d.info c.head _ c'.head).status = _
        rw [update_of_ne hhead]
    · refine update_of_ne (fun heq => ?_) ..
      have hg' : g r'.b = some { head := c.head, stage := .submitted } := heq ▸ hb
      obtain ⟨c', hc'⟩ := hcore.wait_of_submitted hl hr' hg' (by simp)
      exact hwait c' hc'
    · have heq : d.usedIdx = d.used.idx + 1 := heq
      rw [← heq] at hpush
      simp at hpush
  · have hne : r.b ≠ b := hb' p r (by rw [hp]; rfl)
    have hquiet := hcore.idle b hb'
    exact ⟨(update_of_ne hne.symm ..).trans hquiet.1, hquiet.2⟩
  · have hindex : d.used.idx.toNat % NUM =
        (d.usedIdx.toNat + (d.used.idx - d.usedIdx).toNat) % NUM :=
      index_eq num_dvd
    refine hq.complete hb (fun b' hb' => hcore.head_inj hb' (by simp) hb (by simp)) htaken rfl rfl
      ?_ ?_ fun hmem => ?_
    · show k ≤ (cells NUM _ d.usedIdx.toNat (d.used.idx + 1 - d.usedIdx).toNat).length
      rw [length_cells, hpush]
      exact Nat.le_succ_of_le hle
    · show (cells NUM (update d.used.ring (d.used.idx.toNat % NUM) c.head) d.usedIdx.toNat
        (d.used.idx + 1 - d.usedIdx).toNat).drop k = _
      rw [Disk.returned, drop_cells hle, hpush, drop_cells (by omega), hindex, Nat.sub_add_comm hle,
        show d.usedIdx.toNat + (d.used.idx - d.usedIdx).toNat =
          d.usedIdx.toNat + k + ((d.used.idx - d.usedIdx).toNat - k) by omega]
      exact cells_push hroom c.head
    · obtain ⟨b', hb'⟩ := (hq.mem_used c.head).mp hmem
      have heq : r.b = b' := hcore.head_inj hb (by simp) hb' (by simp)
      rw [← heq, hb] at hb'
      cases hb'

end Xv6.Virtio
