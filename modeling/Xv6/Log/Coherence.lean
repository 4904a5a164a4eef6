import Xv6.Log.Sections

/-!
# Buffers, disk and current contents

`cur` is what the sections have written last, block by block, and `P` lists the
blocks whose buffers the log has pinned.

* `Fresh`: a valid buffer holds the current content of its block; for a block of
  the log area that is what is on the disk.
* `Coherent`: all buffers are fresh, the blocks of `P` are in pinned buffers, and
  all other blocks are current on the disk.
* `Coherent.got`, `Coherent.acquired`, `Coherent.kept`: reading keeps it.
* `Coherent.logged`, `Coherent.bwriteLog`, `Coherent.bwriteHome`,
  `Coherent.unpin`: how writes, the blocks of the log area, installs and the end
  of a pin change it.
-/

namespace Xv6.Log

open Xv6.Bio Xv6.Lib.Run
open Function (update update_of_ne update_self)

variable {start : Nat}

/-- The content of a block that buffers hold. -/
def view (start : Nat) (disk cur : Disk) (b : Nat) : Block :=
  if InLog start b then disk b else cur b

theorem view_inLog {disk cur : Disk} {b : Nat} (h : InLog start b) :
    view start disk cur b = disk b :=
  if_pos h

theorem view_home {disk cur : Disk} {b : Nat} (h : ¬ InLog start b) :
    view start disk cur b = cur b :=
  if_neg h

structure Fresh (start : Nat) (disk cur : Disk) (x : Buf) : Prop where
  dev : x.valid = true → x.dev = ROOTDEV
  data : x.valid = true → x.data = view start disk cur x.blockno

structure Coherent (start : Nat) (c : Cache) (disk cur : Disk) (P : List Nat) : Prop where
  inv : CacheInv c
  used : ∀ u ∈ c.uses, (c.bc.bufs u.buf).dev = ROOTDEV
  held : ∀ t b, ⟨t, b, .holding⟩ ∈ c.uses → (c.bc.bufs b).valid = true
  fresh : ∀ b, b < NBUF → Fresh start disk cur (c.bc.bufs b)
  pinned : ∀ n ∈ P, ∃ b, Holds c b ROOTDEV n ∧ (c.bc.bufs b).valid = true
  pins : ∀ b, b < NBUF →
    c.pins b = if (c.bc.bufs b).dev = ROOTDEV ∧ (c.bc.bufs b).blockno ∈ P then 1 else 0
  clean : ∀ n, ¬ InLog start n → n ∉ P → disk n = cur n
  /-- Home blocks have the numbers that threads asked for. -/
  uint : ∀ b, b < NBUF → ¬ InLog start (c.bc.bufs b).blockno → (c.bc.bufs b).blockno < 2 ^ 32

variable {c c' c'' : Cache} {disk cur : Disk} {P : List Nat} {t b n : Nat} {data : Block}

theorem Fresh.same {x y : Buf} (h : Fresh start disk cur y) (hsame : SameBlock x y) :
    Fresh start disk cur x := by
  refine ⟨fun hvalid => ?_, fun hvalid => ?_⟩
  · rw [hsame.dev]
    exact h.dev (hsame.valid ▸ hvalid)
  · rw [hsame.data, hsame.blockno]
    exact h.data (hsame.valid ▸ hvalid)

theorem holds_of_same {x : Nat} (hsame : SameBlock (c'.bc.bufs x) (c.bc.bufs x)) {dev : Nat} :
    Holds c' x dev n ↔ Holds c x dev n := by
  unfold Holds
  rw [hsame.dev, hsame.blockno]

section

variable (h : Coherent start c disk cur P)

include h

theorem Coherent.unique {x y : Nat} (hx : Holds c x ROOTDEV n) (hy : Holds c y ROOTDEV n) : x = y :=
  h.inv.structured.unique ROOTDEV n x y (by decide) hx hy

theorem Coherent.holds_of_use {u : Use} (hu : u ∈ c.uses) :
    Holds c u.buf ROOTDEV (c.bc.bufs u.buf).blockno :=
  ⟨h.inv.range u hu, h.used u hu, rfl⟩

theorem Coherent.pins_of_holds {x : Nat} (hx : Holds c x ROOTDEV n) (hn : n ∈ P) :
    c.pins x = 1 := by
  rw [h.pins x hx.1, if_pos ⟨hx.2.1, hx.2.2 ▸ hn⟩]

/-- The buffer of a pinned block is valid. -/
theorem Coherent.valid_of_mem {x : Nat} (hx : Holds c x ROOTDEV n) (hn : n ∈ P) :
    (c.bc.bufs x).valid = true := by
  obtain ⟨y, hy, hvalid⟩ := h.pinned n hn
  rw [h.unique hx hy]
  exact hvalid

/-- A buffer without references is neither used nor pinned. -/
theorem Coherent.unused {x : Nat} (hx : x < NBUF) (hzero : (c.bc.bufs x).refcnt = 0) :
    (∀ u ∈ c.uses, u.buf ≠ x) ∧ c.pins x = 0 := by
  have hcount := h.inv.refcnt x hx
  rw [hzero] at hcount
  refine ⟨fun u hu heq => ?_, by omega⟩
  have hpos := users_pos hu
  rw [heq] at hpos
  omega

/-- Data of a held buffer. -/
theorem Coherent.data_of_holding (hmem : ⟨t, b, .holding⟩ ∈ c.uses) :
    (c.bc.bufs b).data = view start disk cur (c.bc.bufs b).blockno :=
  (h.fresh b (h.inv.range _ hmem)).data (h.held t b hmem)

/-! ## Reading -/

theorem Coherent.got (hinv : CacheInv c') (hgot : Got c c' t b ROOTDEV n)
    (hn : ¬ InLog start n → n < 2 ^ 32) : Coherent start c' disk cur P := by
  have hb : b < NBUF := hgot.holds.1
  -- a recycled buffer was unused and unpinned
  have hold : ∀ x, SameBlock (c'.bc.bufs x) (c.bc.bufs x) ∨
      x = b ∧ (c'.bc.bufs x).valid = false ∧ (∀ u ∈ c.uses, u.buf ≠ x) ∧ c.pins x = 0 := by
    intro x
    by_cases hx : x = b
    · subst hx
      rcases hgot.found with hsame | ⟨hinvalid, hzero⟩
      · exact .inl hsame
      · exact .inr ⟨rfl, hinvalid, h.unused hb hzero⟩
    · exact .inl (hgot.others x hx)
  have hpinned : ∀ m ∈ P, ∃ x, Holds c' x ROOTDEV m ∧ (c'.bc.bufs x).valid = true ∧
      c.pins x = 1 := by
    intro m hm
    obtain ⟨x, hx, hvalid⟩ := h.pinned m hm
    have hpin := h.pins_of_holds hx hm
    rcases hold x with hsame | ⟨-, -, -, hzero⟩
    · exact ⟨x, (holds_of_same hsame).mpr hx, hsame.valid.trans hvalid, hpin⟩
    · omega
  refine ⟨hinv, fun u hu => ?_, fun t' x hmem => ?_, fun x hx => ?_, fun m hm => ?_, fun x hx => ?_,
    h.clean, fun x hx => ?_⟩
  · rw [hgot.uses] at hu
    rcases List.mem_cons.mp hu with rfl | hu
    · exact hgot.holds.2.1
    · rcases hold u.buf with hsame | ⟨-, -, hunused, -⟩
      · rw [hsame.dev]
        exact h.used u hu
      · exact absurd rfl (hunused u hu)
  · rw [hgot.uses] at hmem
    rcases List.mem_cons.mp hmem with heq | hmem
    · cases heq
    · rcases hold x with hsame | ⟨-, -, hunused, -⟩
      · rw [hsame.valid]
        exact h.held t' x hmem
      · exact absurd rfl (hunused _ hmem)
  · rcases hold x with hsame | ⟨-, hinvalid, -, -⟩
    · exact (h.fresh x hx).same hsame
    · refine ⟨fun hvalid => ?_, fun hvalid => ?_⟩ <;> rw [hinvalid] at hvalid <;> cases hvalid
  · obtain ⟨x, hx, hvalid, -⟩ := hpinned m hm
    exact ⟨x, hx, hvalid⟩
  · rw [hgot.pins]
    rcases hold x with hsame | ⟨rfl, -, -, hzero⟩
    · rw [hsame.dev, hsame.blockno]
      exact h.pins x hx
    · rw [hzero, if_neg]
      rintro ⟨-, hmem⟩
      rw [hgot.holds.2.2] at hmem
      obtain ⟨y, hy, -, hpin⟩ := hpinned n hmem
      have heq : x = y := hinv.structured.unique ROOTDEV n x y (by decide) hgot.holds hy
      rw [← heq] at hpin
      omega
  · by_cases hxb : x = b
    · rw [hxb, hgot.holds.2.2]
      exact hn
    · rw [(hgot.others x hxb).blockno]
      exact h.uint x hx

theorem Coherent.acquired (hinv : CacheInv c')
    (hacq : Acquired c c' t b (disk (c.bc.bufs b).blockno)) : Coherent start c' disk cur P := by
  have hholds := h.holds_of_use hacq.mem
  have huse : ∀ u ∈ c'.uses, ∃ v ∈ c.uses, v.buf = u.buf := by
    intro u hu
    rw [hacq.uses] at hu
    rcases List.mem_cons.mp hu with rfl | hu
    · exact ⟨_, hacq.mem, rfl⟩
    · exact ⟨u, List.mem_of_mem_erase hu, rfl⟩
  have hblock : ∀ x, (c'.bc.bufs x).dev = (c.bc.bufs x).dev ∧
      (c'.bc.bufs x).blockno = (c.bc.bufs x).blockno := by
    intro x
    by_cases hx : x = b
    · subst hx
      exact ⟨hacq.dev, hacq.blockno⟩
    · exact ⟨(hacq.others x hx).dev, (hacq.others x hx).blockno⟩
  refine ⟨hinv, fun u hu => ?_, fun t' x hmem => ?_, fun x hx => ?_, fun m hm => ?_, fun x hx => ?_,
    h.clean, fun x hx => by rw [(hblock x).2]; exact h.uint x hx⟩
  · obtain ⟨v, hv, heq⟩ := huse u hu
    rw [(hblock _).1, ← heq]
    exact h.used v hv
  · by_cases hx : x = b
    · rw [hx]
      exact hacq.valid
    · rw [(hacq.others x hx).valid]
      rw [hacq.uses] at hmem
      rcases mem_advance hmem with heq | hmem
      · cases heq
        exact absurd rfl hx
      · exact h.held t' x hmem
  · by_cases hxb : x = b
    · subst hxb
      refine ⟨fun _ => hacq.dev.trans hholds.2.1, fun _ => ?_⟩
      rw [hacq.data, hacq.blockno]
      by_cases hvalid : (c.bc.bufs x).valid = true
      · rw [if_pos hvalid]
        exact (h.fresh x hx).data hvalid
      · -- the buffer of a pinned block is valid, so this block is current on the disk
        rw [if_neg hvalid]
        by_cases hlog : InLog start (c.bc.bufs x).blockno
        · rw [view_inLog hlog]
        · rw [view_home hlog]
          exact h.clean _ hlog fun hmem => hvalid (h.valid_of_mem hholds hmem)
    · exact (h.fresh x hx).same (hacq.others x hxb)
  · obtain ⟨x, hx, hvalid⟩ := h.pinned m hm
    refine ⟨x, ⟨hx.1, (hblock x).1.trans hx.2.1, (hblock x).2.trans hx.2.2⟩, ?_⟩
    by_cases hxb : x = b
    · rw [hxb]
      exact hacq.valid
    · rw [(hacq.others x hxb).valid]
      exact hvalid
  · rw [hacq.pins, (hblock x).1, (hblock x).2]
    exact h.pins x hx

/-- Steps that leave the blocks and the pins alone. -/
theorem Coherent.kept (hinv : CacheInv c') (hkept : Kept c c') (hpins : c'.pins = c.pins)
    (huses : ∀ u ∈ c'.uses, ∃ v ∈ c.uses, v.buf = u.buf)
    (hheld : ∀ t b, ⟨t, b, .holding⟩ ∈ c'.uses → ⟨t, b, .holding⟩ ∈ c.uses) :
    Coherent start c' disk cur P := by
  refine ⟨hinv, fun u hu => ?_, fun t b hmem => ?_, fun x hx => (h.fresh x hx).same (hkept x),
    fun m hm => ?_, fun x hx => ?_, h.clean,
    fun x hx => by rw [(hkept x).blockno]; exact h.uint x hx⟩
  · obtain ⟨v, hv, heq⟩ := huses u hu
    rw [(hkept _).dev, ← heq]
    exact h.used v hv
  · rw [(hkept b).valid]
    exact h.held t b (hheld t b hmem)
  · obtain ⟨x, hx, hvalid⟩ := h.pinned m hm
    exact ⟨x, (holds_of_same (hkept x)).mpr hx, (hkept x).valid.trans hvalid⟩
  · rw [hpins, (hkept x).dev, (hkept x).blockno]
    exact h.pins x hx

theorem Coherent.unlock (hstep : Bio.step c (.unlock t b) = some c') :
    Coherent start c' disk cur P := by
  obtain ⟨hmem, huses, hpins, hkept⟩ := step_unlock hstep
  refine h.kept (cacheInv_step h.inv hstep) hkept hpins (fun u hu => ?_) fun t' x hheld => ?_
  · rw [huses] at hu
    rcases List.mem_cons.mp hu with rfl | hu
    · exact ⟨_, hmem, rfl⟩
    · exact ⟨u, List.mem_of_mem_erase hu, rfl⟩
  · rw [huses] at hheld
    rcases mem_advance hheld with heq | hheld
    · cases heq
    · exact hheld

theorem Coherent.brelse (hstep : Bio.step c (.brelse t b) = some c') :
    Coherent start c' disk cur P := by
  obtain ⟨hmem, huses, hpins, hkept⟩ := step_brelse hstep
  refine h.kept (cacheInv_step h.inv hstep) hkept hpins (fun u hu => ?_) fun t' x hheld => ?_
  · rw [huses] at hu
    exact ⟨u, List.mem_of_mem_erase hu, rfl⟩
  · rw [huses] at hheld
    exact List.mem_of_mem_erase hheld

/-! ## Writing -/

/-- A store into a held buffer leaves the blocks where they are. -/
theorem Coherent.stored (hinv : CacheInv c') (hst : Stored c c' t b data) {disk' cur' : Disk}
    (hview : view start disk' cur' (c.bc.bufs b).blockno = data)
    (hother : ∀ m, m ≠ (c.bc.bufs b).blockno → view start disk' cur' m = view start disk cur m)
    (hclean : ∀ m, ¬ InLog start m → m ∉ P → disk' m = cur' m) :
    Coherent start c' disk' cur' P := by
  have hholds := h.holds_of_use hst.mem
  have hblock : ∀ x, (c'.bc.bufs x).dev = (c.bc.bufs x).dev ∧
      (c'.bc.bufs x).blockno = (c.bc.bufs x).blockno ∧
      (c'.bc.bufs x).valid = (c.bc.bufs x).valid := by
    intro x
    by_cases hx : x = b
    · subst hx
      exact ⟨hst.dev, hst.blockno, hst.valid⟩
    · exact ⟨(hst.others x hx).dev, (hst.others x hx).blockno, (hst.others x hx).valid⟩
  refine ⟨hinv, fun u hu => ?_, fun t' x hmem => ?_,
    fun x hx => ⟨fun hvalid => ?_, fun hvalid => ?_⟩, fun m hm => ?_, fun x hx => ?_, hclean,
    fun x hx => by rw [(hblock x).2.1]; exact h.uint x hx⟩
  · rw [(hblock _).1]
    exact h.used u (hst.uses ▸ hu)
  · rw [(hblock x).2.2]
    exact h.held t' x (hst.uses ▸ hmem)
  · rw [(hblock x).1]
    rw [(hblock x).2.2] at hvalid
    exact (h.fresh x hx).dev hvalid
  · rw [(hblock x).2.1]
    rw [(hblock x).2.2] at hvalid
    by_cases hxb : x = b
    · subst hxb
      rw [hst.data, hview]
    · -- no other buffer holds this block
      have hne : (c.bc.bufs x).blockno ≠ (c.bc.bufs b).blockno := by
        intro heq
        exact hxb (h.unique ⟨hx, (h.fresh x hx).dev hvalid, heq⟩ hholds)
      rw [(hst.others x hxb).data, hother _ hne]
      exact (h.fresh x hx).data hvalid
  · obtain ⟨x, hx, hvalid⟩ := h.pinned m hm
    exact ⟨x, ⟨hx.1, (hblock x).1.trans hx.2.1, (hblock x).2.1.trans hx.2.2⟩,
      (hblock x).2.2.trans hvalid⟩
  · rw [hst.pins, (hblock x).1, (hblock x).2.1]
    exact h.pins x hx

/-- A block of the log area is written to the disk. -/
theorem Coherent.bwriteLog (hinv : CacheInv c') (hst : Stored c c' t b data)
    (hlog : InLog start (c.bc.bufs b).blockno) :
    Coherent start c' (update disk (c.bc.bufs b).blockno data) cur P := by
  refine h.stored hinv hst ?_ (fun m hm => ?_) fun m hm hP => ?_
  · rw [view_inLog hlog, update_self]
  · unfold view
    rw [update_of_ne hm]
  · rw [update_of_ne (ne_of_not_inLog hm hlog)]
    exact h.clean m hm hP

/-- A home block is written to the disk with its current content. -/
theorem Coherent.bwriteHome (hinv : CacheInv c') (hst : Stored c c' t b data)
    (hhome : ¬ InLog start (c.bc.bufs b).blockno) (hdata : data = cur (c.bc.bufs b).blockno) :
    Coherent start c' (update disk (c.bc.bufs b).blockno data) cur P := by
  refine h.stored hinv hst ?_ (fun m hm => ?_) fun m hm hP => ?_
  · rw [view_home hhome, hdata]
  · unfold view
    rw [update_of_ne hm]
  · by_cases hmb : m = (c.bc.bufs b).blockno
    · rw [hmb, update_self, hdata]
    · rw [update_of_ne hmb]
      exact h.clean m hm hP

/-- A section writes a block that is in the log already. -/
theorem Coherent.absorbed (hinv : CacheInv c') (hst : Stored c c' t b data)
    (hhome : ¬ InLog start (c.bc.bufs b).blockno) (hP : (c.bc.bufs b).blockno ∈ P) :
    Coherent start c' disk (update cur (c.bc.bufs b).blockno data) P := by
  refine h.stored hinv hst ?_ (fun m hm => ?_) fun m hm hmP => ?_
  · rw [view_home hhome, update_self]
  · unfold view
    rw [update_of_ne hm]
  · have hne : m ≠ (c.bc.bufs b).blockno := fun heq => hmP (heq ▸ hP)
    rw [update_of_ne hne]
    exact h.clean m hm hmP

/-- A pinned buffer with a change of its pin count. -/
theorem Coherent.repin {P' : List Nat} {pins' : Nat} (hinv : CacheInv c') (hkept : Kept c c')
    (huses : c'.uses = c.uses) (hpins : c'.pins = update c.pins b pins')
    (hb : Holds c b ROOTDEV n) (hvalid : (c.bc.bufs b).valid = true)
    (hn : pins' = if n ∈ P' then 1 else 0) (hP : ∀ m, m ≠ n → (m ∈ P' ↔ m ∈ P))
    (hclean : ∀ m, ¬ InLog start m → m ∉ P' → disk m = cur m) :
    Coherent start c' disk cur P' := by
  refine ⟨hinv, fun u hu => ?_, fun t' x hmem => ?_, fun x hx => (h.fresh x hx).same (hkept x),
    fun m hm => ?_, fun x hx => ?_, hclean,
    fun x hx => by rw [(hkept x).blockno]; exact h.uint x hx⟩
  · rw [(hkept _).dev]
    exact h.used u (huses ▸ hu)
  · rw [(hkept x).valid]
    exact h.held t' x (huses ▸ hmem)
  · by_cases hmn : m = n
    · subst hmn
      exact ⟨b, (holds_of_same (hkept b)).mpr hb, (hkept b).valid.trans hvalid⟩
    · obtain ⟨x, hx, hv⟩ := h.pinned m ((hP m hmn).mp hm)
      exact ⟨x, (holds_of_same (hkept x)).mpr hx, (hkept x).valid.trans hv⟩
  · rw [hpins, (hkept x).dev, (hkept x).blockno]
    by_cases hxb : x = b
    · subst hxb
      rw [update_self, hn, hb.2.1, hb.2.2]
      simp only [true_and]
    · rw [update_of_ne hxb, h.pins x hx]
      by_cases hdev : (c.bc.bufs x).dev = ROOTDEV
      · have hne : (c.bc.bufs x).blockno ≠ n := fun heq => hxb (h.unique ⟨hx, hdev, heq⟩ hb)
        simp only [hP _ hne]
      · rw [if_neg fun hc => hdev hc.1, if_neg fun hc => hdev hc.1]

/-- `bunpin` after an install. -/
theorem Coherent.unpin {P' : List Nat} (hstep : Bio.step c (.bunpin b) = some c') (hP : P = n :: P')
    (hnodup : P.Nodup) (hb : Holds c b ROOTDEV n) (hdisk : ¬ InLog start n → disk n = cur n) :
    Coherent start c' disk cur P' := by
  obtain ⟨huses, hpins, hkept⟩ := step_bunpin hstep
  have hn : n ∈ P := hP ▸ List.mem_cons_self
  have hnot : n ∉ P' := by
    rw [hP] at hnodup
    exact (List.nodup_cons.mp hnodup).1
  refine h.repin (cacheInv_step h.inv hstep) hkept huses hpins hb (h.valid_of_mem hb hn) ?_ ?_ ?_
  · rw [h.pins_of_holds hb hn, if_neg hnot]
  · intro m hm
    rw [hP, List.mem_cons]
    exact (or_iff_right hm).symm
  · intro m hm hmP
    by_cases hmn : m = n
    · subst hmn
      exact hdisk hm
    · refine h.clean m hm ?_
      rw [hP, List.mem_cons]
      exact fun hc => hc.elim hmn hmP

end

/-- A section writes a block that is new in the log. -/
theorem Coherent.logged (h : Coherent start c disk cur P)
    (hstep : Bio.step c (.store t b data) = some c') (hpin : Bio.step c' (.bpin b) = some c'')
    (hhome : ¬ InLog start (c.bc.bufs b).blockno) (hnew : (c.bc.bufs b).blockno ∉ P) :
    Coherent start c'' disk (update cur (c.bc.bufs b).blockno data)
      (P ++ [(c.bc.bufs b).blockno]) := by
  have hst := step_store hstep
  obtain ⟨huses, hpins, hkept⟩ := step_bpin hpin
  have hinv' := cacheInv_step h.inv hstep
  have hholds := h.holds_of_use hst.mem
  have hholds' : Holds c' b ROOTDEV (c.bc.bufs b).blockno :=
    ⟨hholds.1, hst.dev.trans hholds.2.1, hst.blockno⟩
  have hzero : c'.pins b = 0 := by
    rw [hst.pins, h.pins b hholds.1, if_neg fun hc => hnew hc.2]
  -- between the two steps the block counts as written on the disk
  have hmid : Coherent start c' (update disk (c.bc.bufs b).blockno data)
      (update cur (c.bc.bufs b).blockno data) P := by
    refine h.stored hinv' hst ?_ (fun m hm => ?_) fun m hm hmP => ?_
    · rw [view_home hhome, update_self]
    · unfold view
      rw [update_of_ne hm, update_of_ne hm]
    · by_cases hmb : m = (c.bc.bufs b).blockno
      · rw [hmb, update_self, update_self]
      · rw [update_of_ne hmb, update_of_ne hmb]
        exact h.clean m hm hmP
  have hlast : Coherent start c'' (update disk (c.bc.bufs b).blockno data)
      (update cur (c.bc.bufs b).blockno data) (P ++ [(c.bc.bufs b).blockno]) := by
    refine hmid.repin (cacheInv_step hinv' hpin) hkept huses hpins hholds'
      (hst.valid.trans (h.held t b hst.mem)) ?_ (fun m hm => ?_) fun m hm hmP => ?_
    · rw [hzero, if_pos (List.mem_append_right _ List.mem_cons_self)]
    · rw [List.mem_append, List.mem_singleton]
      exact or_iff_left hm
    · exact hmid.clean m hm fun hc => hmP (List.mem_append_left _ hc)
  refine ⟨hlast.inv, hlast.used, hlast.held, fun x hx => ?_, hlast.pinned, hlast.pins,
    fun m hm hmP => ?_, hlast.uint⟩
  · refine ⟨(hlast.fresh x hx).dev, fun hvalid => ?_⟩
    rw [(hlast.fresh x hx).data hvalid]
    unfold view
    split
    · next hlog => rw [update_of_ne (ne_of_not_inLog hhome hlog).symm]
    · rfl
  · have hne : m ≠ (c.bc.bufs b).blockno := by
      rintro rfl
      exact hmP (List.mem_append_right _ List.mem_cons_self)
    have := hlast.clean m hm hmP
    rw [update_of_ne hne] at this
    exact this

end Xv6.Log
