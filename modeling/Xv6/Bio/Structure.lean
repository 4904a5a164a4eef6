import Mathlib.Data.List.Perm.Basic
import Xv6.Bio.Cache
import Xv6.Lib.Run

/-!
# The structure of the buffer cache

* `CacheInv`: the ring runs through the buffers in the abstract order, a block
  has at most one buffer, and `refcnt` counts users and pins.
* `CacheInv.bget_cases`, `CacheInv.bget_error`: what the section of `bget` does.
* `cacheInv_step`: every step keeps the invariant.
* `buffer_cache_structure`: the invariant in every run, and which buffer `bget`
  recycles.
-/

namespace Xv6.Bio

open Xv6.Lib.Loop Xv6.Lib.Ring Xv6.Lib.Run
open Function (update update_of_ne update_self)

variable {uses : List Use} {bc : Bcache} {f : Buf → Buf} {new old : Stage}

/-- The number of uses of buffer `b`. -/
def users (uses : List Use) (b : Nat) : Nat :=
  uses.countP fun u => u.buf = b

/-- The number of holders of buffer `b`. -/
def holders (uses : List Use) (b : Nat) : Nat :=
  uses.countP fun u => u.buf = b ∧ u.stage = .holding

structure CacheInv (s : Cache) : Prop where
  ring : IsRing s.bc.links head s.order
  order : ∀ b, b ∈ s.order ↔ b < NBUF
  unique : ∀ b c, b < NBUF → c < NBUF → (s.bc.bufs b).dev ≠ 0 →
    (s.bc.bufs c).dev = (s.bc.bufs b).dev → (s.bc.bufs c).blockno = (s.bc.bufs b).blockno → c = b
  refcnt : ∀ b, b < NBUF → (s.bc.bufs b).refcnt = users s.uses b + s.pins b
  range : ∀ u ∈ s.uses, u.buf < NBUF
  /-- The holder of a buffer has its lock. -/
  lock : ∀ t b, ⟨t, b, .holding⟩ ∈ s.uses → (s.bc.bufs b).lock = some t
  once : ∀ b, holders s.uses b ≤ 1

/-! ## Counting uses -/

theorem countP_advance {old new : Use} (p : Use → Bool) (hmem : old ∈ uses)
    (hp : p new = p old) : (new :: uses.erase old).countP p = uses.countP p := by
  rw [(List.perm_cons_erase hmem).countP_eq p, List.countP_cons, List.countP_cons, hp]

theorem countP_erase_add {old : Use} (p : Use → Bool) (hmem : old ∈ uses) :
    (uses.erase old).countP p + (if p old then 1 else 0) = uses.countP p := by
  rw [(List.perm_cons_erase hmem).countP_eq p, List.countP_cons]

theorem users_pos {u : Use} (hmem : u ∈ uses) : 0 < users uses u.buf :=
  List.countP_pos_iff.mpr ⟨u, hmem, decide_eq_true rfl⟩

theorem holders_pos {t b : Nat} (hmem : ⟨t, b, .holding⟩ ∈ uses) :
    0 < holders uses b :=
  List.countP_pos_iff.mpr ⟨_, hmem, decide_eq_true ⟨rfl, rfl⟩⟩

section Inv

variable {s : Cache} {b c t dev blockno : Nat}

theorem CacheInv.length (h : CacheInv s) : s.order.length = NBUF := by
  have hperm : s.order.Perm (List.range NBUF) := by
    refine (List.perm_ext_iff_of_nodup (List.nodup_cons.mp h.ring.nodup).2 List.nodup_range).mpr ?_
    intro b
    rw [h.order, List.mem_range]
  rw [hperm.length_eq, List.length_range]

/-! ## `bget` -/

/-- The buffer holds the block. -/
def Holds (s : Cache) (b dev blockno : Nat) : Prop :=
  b < NBUF ∧ (s.bc.bufs b).dev = dev ∧ (s.bc.bufs b).blockno = blockno

/-- Among the unused buffers `b` is the last of the order. -/
def LeastRecent (s : Cache) (b : Nat) : Prop :=
  (s.bc.bufs b).refcnt = 0 ∧
    ∃ newer older, s.order = newer ++ b :: older ∧ ∀ x ∈ older, (s.bc.bufs x).refcnt ≠ 0

theorem CacheInv.bget_cached (h : CacheInv s)
    (hmem : s.order.find?
      (fun b => decide ((s.bc.bufs b).dev = dev ∧ (s.bc.bufs b).blockno = blockno)) =
      some b) :
    Holds s b dev blockno ∧
      s.bc.bget dev blockno = .ok (b, s.bc.set b fun x => { x with refcnt := x.refcnt + 1 }) := by
  have hb := List.find?_some hmem
  refine ⟨⟨(h.order b).mp (List.mem_of_find?_eq_some hmem), of_decide_eq_true hb⟩, ?_⟩
  rw [Bcache.bget, h.ring.walk_next _ (by rw [h.length]; exact Nat.lt_succ_self _), hmem]

theorem not_holds_of_find? (h : CacheInv s)
    (hnone : s.order.find?
      (fun b => decide ((s.bc.bufs b).dev = dev ∧ (s.bc.bufs b).blockno = blockno)) =
      none) : ∀ b, ¬ Holds s b dev blockno := by
  rintro b ⟨hlt, hb⟩
  exact List.find?_eq_none.mp hnone b ((h.order b).mpr hlt) (decide_eq_true hb)

theorem CacheInv.bget_recycle (h : CacheInv s)
    (hnone : s.order.find?
      (fun b => decide ((s.bc.bufs b).dev = dev ∧ (s.bc.bufs b).blockno = blockno)) =
      none) :
    s.bc.bget dev blockno =
      match s.order.reverse.find? (fun b => decide ((s.bc.bufs b).refcnt = 0)) with
      | none => .error .noBuffers
      | some b => .ok (b, s.bc.set b fun x =>
          { x with dev := dev, blockno := blockno, valid := false, refcnt := 1 }) := by
  have hlen : s.order.length < NBUF + 1 := by rw [h.length]; exact Nat.lt_succ_self _
  rw [Bcache.bget, h.ring.walk_next _ hlen, hnone]
  dsimp only
  rw [h.ring.walk_prev _ hlen]
  cases s.order.reverse.find? (fun b => decide ((s.bc.bufs b).refcnt = 0)) with
  | none => rfl
  | some b => rfl

theorem leastRecent_of_find?
    (hsome : s.order.reverse.find? (fun b => decide ((s.bc.bufs b).refcnt = 0)) = some b) :
    LeastRecent s b := by
  obtain ⟨hb, front, back, hrev, hfront⟩ := List.find?_eq_some_iff_append.mp hsome
  refine ⟨of_decide_eq_true hb, back.reverse, front.reverse, ?_, fun x hx => ?_⟩
  · have := congrArg List.reverse hrev
    rw [List.reverse_reverse, List.reverse_append, List.reverse_cons, List.append_assoc] at this
    exact this
  · have hx := hfront x (List.mem_reverse.mp hx)
    intro hzero
    rw [hzero] at hx
    cases hx

theorem LeastRecent.lt (hl : LeastRecent s b) (h : CacheInv s) : b < NBUF := by
  obtain ⟨-, newer, older, horder, -⟩ := hl
  rw [← h.order, horder]
  exact List.mem_append_right _ List.mem_cons_self

/-- What the section of `bget` does when it returns. -/
theorem CacheInv.bget_cases (h : CacheInv s) (hget : s.bc.bget dev blockno = .ok (b, bc)) :
    (Holds s b dev blockno ∧ bc = s.bc.set b fun x => { x with refcnt := x.refcnt + 1 }) ∨
      ((∀ c, ¬ Holds s c dev blockno) ∧ LeastRecent s b ∧ bc = s.bc.set b fun x =>
        { x with dev := dev, blockno := blockno, valid := false, refcnt := 1 }) := by
  cases hfind : s.order.find?
      (fun b => decide ((s.bc.bufs b).dev = dev ∧ (s.bc.bufs b).blockno = blockno)) with
  | some c =>
    obtain ⟨hholds, heq⟩ := h.bget_cached hfind
    rw [heq] at hget
    cases hget
    exact .inl ⟨hholds, rfl⟩
  | none =>
    rw [h.bget_recycle hfind] at hget
    cases hlru : s.order.reverse.find? (fun b => decide ((s.bc.bufs b).refcnt = 0)) with
    | none =>
      rw [hlru] at hget
      cases hget
    | some c =>
      rw [hlru] at hget
      cases hget
      exact .inr ⟨not_holds_of_find? h hfind, leastRecent_of_find? hlru, rfl⟩

/-- When `bget` does not return, the block is not cached and every buffer is in use. -/
theorem CacheInv.bget_error (h : CacheInv s) {e : Failure}
    (hget : s.bc.bget dev blockno = .error e) :
    (∀ c, ¬ Holds s c dev blockno) ∧ ∀ c, c < NBUF → (s.bc.bufs c).refcnt ≠ 0 := by
  cases hfind : s.order.find?
      (fun b => decide ((s.bc.bufs b).dev = dev ∧ (s.bc.bufs b).blockno = blockno)) with
  | some c =>
    rw [(h.bget_cached hfind).2] at hget
    cases hget
  | none =>
    rw [h.bget_recycle hfind] at hget
    cases hlru : s.order.reverse.find? (fun b => decide ((s.bc.bufs b).refcnt = 0)) with
    | none =>
      refine ⟨not_holds_of_find? h hfind, fun c hc hzero => ?_⟩
      exact List.find?_eq_none.mp hlru c (List.mem_reverse.mpr ((h.order c).mpr hc))
        (decide_eq_true hzero)
    | some c =>
      rw [hlru] at hget
      cases hget

/-! ## Steps -/

/-- A field that `f` does not change. -/
theorem Bcache.set_field {β : Type} (g : Buf → β)
    (hf : g (f (bc.bufs b)) = g (bc.bufs b)) (x : Nat) :
    g ((bc.set b f).bufs x) = g (bc.bufs x) := by
  show g (update bc.bufs b (f (bc.bufs b)) x) = _
  by_cases hx : x = b
  · rw [hx, update_self, hf]
  · rw [update_of_ne hx]

theorem Bcache.set_self : (bc.set b f).bufs b = f (bc.bufs b) :=
  update_self ..

theorem Bcache.set_of_ne (hne : c ≠ b) :
    (bc.set b f).bufs c = bc.bufs c :=
  update_of_ne hne _ _

/-- Steps that leave the ring, the blocks and the counts alone. -/
theorem CacheInv.keep (h : CacheInv s)
    (hdev : (f (s.bc.bufs b)).dev = (s.bc.bufs b).dev)
    (hblockno : (f (s.bc.bufs b)).blockno = (s.bc.bufs b).blockno)
    (hrefcnt : (f (s.bc.bufs b)).refcnt = (s.bc.bufs b).refcnt)
    (husers : ∀ x, users uses x = users s.uses x) (hrange : ∀ u ∈ uses, u.buf < NBUF)
    (hlock : ∀ t x, ⟨t, x, .holding⟩ ∈ uses → ((s.bc.set b f).bufs x).lock = some t)
    (honce : ∀ x, holders uses x ≤ 1) :
    CacheInv { s with bc := s.bc.set b f, uses := uses } := by
  have hdev' := Bcache.set_field Buf.dev hdev
  have hblockno' := Bcache.set_field Buf.blockno hblockno
  have hrefcnt' := Bcache.set_field Buf.refcnt hrefcnt
  refine ⟨h.ring, h.order, fun x y hx hy => ?_, fun x hx => ?_, hrange, hlock, honce⟩
  · show (s.bc.set b f |>.bufs x).dev ≠ 0 →
      (s.bc.set b f |>.bufs y).dev = (s.bc.set b f |>.bufs x).dev →
      (s.bc.set b f |>.bufs y).blockno = (s.bc.set b f |>.bufs x).blockno → y = x
    rw [hdev', hdev', hblockno', hblockno']
    exact h.unique x y hx hy
  · show (s.bc.set b f |>.bufs x).refcnt = users uses x + s.pins x
    rw [hrefcnt', husers, h.refcnt x hx]

theorem mem_advance {t' c : Nat} {stage : Stage}
    (hmem : ⟨t', c, stage⟩ ∈ s.advance t b old new) :
    ⟨t', c, stage⟩ = (⟨t, b, new⟩ : Use) ∨ ⟨t', c, stage⟩ ∈ s.uses := by
  rcases List.mem_cons.mp hmem with heq | hmem
  · exact .inl heq
  · exact .inr (List.mem_of_mem_erase hmem)

theorem CacheInv.range_advance (h : CacheInv s) (hmem : ⟨t, b, old⟩ ∈ s.uses) :
    ∀ u ∈ s.advance t b old new, u.buf < NBUF := by
  intro u hu
  rcases List.mem_cons.mp hu with rfl | hu
  · exact h.range ⟨t, b, old⟩ hmem
  · exact h.range u (List.mem_of_mem_erase hu)

theorem users_advance (hmem : ⟨t, b, old⟩ ∈ s.uses) (x : Nat) :
    users (s.advance t b old new) x = users s.uses x :=
  countP_advance _ hmem rfl

theorem cacheInv_acquire (h : CacheInv s) (hmem : ⟨t, b, .waiting⟩ ∈ s.uses)
    (hfree : (s.bc.bufs b).lock = none) :
    CacheInv { s with
      bc := s.bc.set b fun x => { x with lock := some t }
      uses := s.advance t b .waiting .holding } := by
  have hnone : ∀ t', ⟨t', b, .holding⟩ ∉ s.uses := by
    intro t' hheld
    have := h.lock t' b hheld
    rw [hfree] at this
    cases this
  refine h.keep rfl rfl rfl (users_advance hmem) (h.range_advance hmem) ?_ ?_
  · intro t' x hheld
    rcases mem_advance hheld with heq | hheld
    · cases heq
      rw [Bcache.set_self]
    · have hx : x ≠ b := fun heq => hnone t' (heq ▸ hheld)
      rw [Bcache.set_of_ne hx]
      exact h.lock t' x hheld
  · intro x
    have hcount : holders (s.advance t b .waiting .holding) x =
        holders s.uses x + if x = b then 1 else 0 := by
      have herase := countP_erase_add (fun u => u.buf = x ∧ u.stage = .holding) hmem
      unfold holders Cache.advance
      rw [List.countP_cons]
      by_cases hx : x = b
      · subst hx
        simpa using herase
      · have hx' : b ≠ x := fun heq => hx heq.symm
        simpa [hx, hx'] using herase
    rw [hcount]
    by_cases hx : x = b
    · have hzero : holders s.uses b = 0 := by
        refine List.countP_eq_zero.mpr fun u hu => ?_
        intro hheld
        obtain ⟨rfl, hstage⟩ := of_decide_eq_true hheld
        exact hnone u.tid (by rw [← hstage]; exact hu)
      rw [hx, hzero, if_pos rfl]
    · rw [if_neg hx]
      exact h.once x

theorem cacheInv_unlock (h : CacheInv s) (hmem : ⟨t, b, .holding⟩ ∈ s.uses) :
    CacheInv { s with
      bc := s.bc.set b fun x => { x with lock := none }
      uses := s.advance t b .holding .leaving } := by
  have hcount : ∀ x, holders (s.uses.erase ⟨t, b, .holding⟩) x + (if b = x then 1 else 0) =
      holders s.uses x := by
    intro x
    have herase := countP_erase_add (fun u => u.buf = x ∧ u.stage = .holding) hmem
    simpa [holders] using herase
  have hcount' : ∀ x, holders (s.advance t b .holding .leaving) x =
      holders (s.uses.erase ⟨t, b, .holding⟩) x := by
    intro x
    simp [holders, Cache.advance]
  refine h.keep rfl rfl rfl (users_advance hmem) (h.range_advance hmem) ?_ ?_
  · intro t' x hheld
    have hheld : ⟨t', x, .holding⟩ ∈ s.uses.erase ⟨t, b, .holding⟩ := by
      rcases List.mem_cons.mp hheld with heq | hheld
      · cases heq
      · exact hheld
    have hx : x ≠ b := by
      rintro rfl
      have hpos := holders_pos hheld
      have honce := h.once x
      have hx := hcount x
      rw [if_pos rfl] at hx
      omega
    rw [Bcache.set_of_ne hx]
    exact h.lock t' x (List.mem_of_mem_erase hheld)
  · intro x
    have hx := hcount x
    have honce := h.once x
    rw [hcount']
    omega

/-- A new use that waits is no holder. -/
theorem CacheInv.wait (h : CacheInv s) (huses : uses = ⟨t, b, .waiting⟩ :: s.uses)
    (hb : b < NBUF) : (∀ u ∈ uses, u.buf < NBUF) ∧
      (∀ t' x, ⟨t', x, .holding⟩ ∈ uses → ⟨t', x, .holding⟩ ∈ s.uses) ∧
      (∀ x, holders uses x ≤ 1) ∧ ∀ x, users uses x = users s.uses x + if b = x then 1 else 0 := by
  subst huses
  refine ⟨fun u hu => ?_, fun t' x hmem => ?_, fun x => ?_, fun x => ?_⟩
  · rcases List.mem_cons.mp hu with rfl | hu
    · exact hb
    · exact h.range u hu
  · rcases List.mem_cons.mp hmem with heq | hmem
    · cases heq
    · exact hmem
  · have hsame : holders (⟨t, b, .waiting⟩ :: s.uses) x = holders s.uses x := by simp [holders]
    rw [hsame]
    exact h.once x
  · simp [users, List.countP_cons]

theorem cacheInv_bget (h : CacheInv s)
    (hget : s.bc.bget dev blockno = .ok (b, bc)) :
    CacheInv { s with bc := bc, uses := ⟨t, b, .waiting⟩ :: s.uses } := by
  rcases h.bget_cases hget with ⟨hholds, rfl⟩ | ⟨hnone, hlru, rfl⟩
  · obtain ⟨hrange, hmem, honce, husers⟩ := h.wait (t := t) rfl hholds.1
    have hd : ∀ x, ((s.bc.set b fun x => { x with refcnt := x.refcnt + 1 }).bufs x).dev =
        (s.bc.bufs x).dev := Bcache.set_field Buf.dev rfl
    have hn : ∀ x, ((s.bc.set b fun x => { x with refcnt := x.refcnt + 1 }).bufs x).blockno =
        (s.bc.bufs x).blockno := Bcache.set_field Buf.blockno rfl
    refine ⟨h.ring, h.order, fun x y hx hy hdev hdev' hno => ?_, fun x hx => ?_, hrange,
      fun t' x hheld => ?_, honce⟩
    · rw [hd] at hdev
      rw [hd, hd] at hdev'
      rw [hn, hn] at hno
      exact h.unique x y hx hy hdev hdev' hno
    · show _ = users (⟨t, b, .waiting⟩ :: s.uses) x + s.pins x
      rw [husers]
      by_cases hxb : x = b
      · rw [hxb, Bcache.set_self, if_pos rfl]
        show (s.bc.bufs b).refcnt + 1 = _
        rw [h.refcnt b hholds.1]
        omega
      · rw [Bcache.set_of_ne hxb, if_neg fun heq => hxb heq.symm, h.refcnt x hx]
        omega
    · rw [Bcache.set_field Buf.lock rfl]
      exact h.lock t' x (hmem t' x hheld)
  · have hb := hlru.lt h
    obtain ⟨hrange, hmem, honce, husers⟩ := h.wait (t := t) rfl hb
    have hzero : users s.uses b + s.pins b = 0 := by
      rw [← h.refcnt b hb]
      exact hlru.1
    refine ⟨h.ring, h.order, fun x y hx hy hdev' hdev'' hno => ?_, fun x hx => ?_, hrange,
      fun t' x hheld => ?_, honce⟩
    · -- the block was nowhere, so the recycled buffer is its only one
      by_cases hxb : x = b <;> by_cases hyb : y = b
      · rw [hxb, hyb]
      · rw [hxb, Bcache.set_self, Bcache.set_of_ne hyb] at hdev'' hno
        exact absurd ⟨hy, hdev'', hno⟩ (hnone y)
      · rw [hyb, Bcache.set_self, Bcache.set_of_ne hxb] at hdev'' hno
        exact absurd ⟨hx, hdev''.symm, hno.symm⟩ (hnone x)
      · rw [Bcache.set_of_ne hxb] at hdev' hdev'' hno
        rw [Bcache.set_of_ne hyb] at hdev'' hno
        exact h.unique x y hx hy hdev' hdev'' hno
    · show _ = users (⟨t, b, .waiting⟩ :: s.uses) x + s.pins x
      rw [husers]
      by_cases hxb : x = b
      · rw [hxb, Bcache.set_self, if_pos rfl]
        show 1 = _
        omega
      · rw [Bcache.set_of_ne hxb, if_neg fun heq => hxb heq.symm, h.refcnt x hx]
        omega
    · rw [Bcache.set_field Buf.lock rfl]
      exact h.lock t' x (hmem t' x hheld)

/-- The ring after its node `b` moved to the front. -/
theorem CacheInv.moveToFront (h : CacheInv s) (hb : b < NBUF) :
    IsRing ((s.bc.links.unlink b).insertFront head b) head (b :: s.order.erase b) ∧
      ∀ x, x ∈ b :: s.order.erase b ↔ x < NBUF := by
  obtain ⟨newer, older, horder⟩ := List.append_of_mem ((h.order b).mpr hb)
  have hring := h.ring
  rw [horder] at hring
  have hnodup := (List.nodup_cons.mp hring.nodup).2
  have hnot : b ∉ newer := fun hmem =>
    (List.nodup_append.mp hnodup).2.2 b hmem b List.mem_cons_self rfl
  have herase : s.order.erase b = newer ++ older := by
    rw [horder, List.erase_append_right _ hnot, List.erase_cons_head]
  have hmem : ∀ x, x ∈ b :: s.order.erase b ↔ x < NBUF := by
    intro x
    rw [herase, ← h.order, horder]
    exact (List.perm_middle.mem_iff).symm
  refine ⟨?_, hmem⟩
  rw [herase]
  refine hring.unlink.insertFront ?_
  intro hin
  rcases List.mem_cons.mp hin with heq | hin
  · exact absurd (heq ▸ hb : head < NBUF) (Nat.lt_irrefl _)
  · have hperm : (newer ++ b :: older).Perm (b :: (newer ++ older)) := List.perm_middle
    exact (List.nodup_cons.mp (hperm.nodup_iff.mp hnodup)).1 hin

theorem cacheInv_brelse (h : CacheInv s) (hmem : ⟨t, b, .leaving⟩ ∈ s.uses) :
    CacheInv { s with
      bc := s.bc.brelse b
      uses := s.uses.erase ⟨t, b, .leaving⟩
      order := if (s.bc.bufs b).refcnt - 1 = 0 then b :: s.order.erase b else s.order } := by
  have hb : b < NBUF := h.range _ hmem
  have hbufs : (s.bc.brelse b).bufs =
      (s.bc.set b fun x => { x with refcnt := x.refcnt - 1 }).bufs := by
    unfold Bcache.brelse
    dsimp only
    split <;> rfl
  have hlinks : (s.bc.brelse b).links = if (s.bc.bufs b).refcnt - 1 = 0 then
      (s.bc.links.unlink b).insertFront head b else s.bc.links := by
    unfold Bcache.brelse
    dsimp only
    rw [Bcache.set_self]
    split <;> rfl
  have hring : IsRing (s.bc.brelse b).links head
        (if (s.bc.bufs b).refcnt - 1 = 0 then b :: s.order.erase b else s.order) ∧
      ∀ x, x ∈ (if (s.bc.bufs b).refcnt - 1 = 0 then b :: s.order.erase b else s.order) ↔
        x < NBUF := by
    rw [hlinks]
    split
    · exact h.moveToFront hb
    · exact ⟨h.ring, h.order⟩
  have husers : ∀ x, users (s.uses.erase ⟨t, b, .leaving⟩) x + (if b = x then 1 else 0) =
      users s.uses x := by
    intro x
    simpa [users] using countP_erase_add (fun u => u.buf = x) hmem
  have hholders : ∀ x, holders (s.uses.erase ⟨t, b, .leaving⟩) x = holders s.uses x := by
    intro x
    simpa [holders] using countP_erase_add (fun u => u.buf = x ∧ u.stage = .holding) hmem
  refine ⟨hring.1, hring.2, fun x y hx hy => ?_, fun x hx => ?_,
    fun u hu => h.range u (List.mem_of_mem_erase hu), fun t' x hheld => ?_, fun x => ?_⟩
  · show ((s.bc.brelse b).bufs x).dev ≠ 0 →
      ((s.bc.brelse b).bufs y).dev = ((s.bc.brelse b).bufs x).dev →
      ((s.bc.brelse b).bufs y).blockno = ((s.bc.brelse b).bufs x).blockno → y = x
    rw [hbufs, Bcache.set_field Buf.dev rfl, Bcache.set_field Buf.dev rfl,
      Bcache.set_field Buf.blockno rfl, Bcache.set_field Buf.blockno rfl]
    exact h.unique x y hx hy
  · show ((s.bc.brelse b).bufs x).refcnt = users (s.uses.erase ⟨t, b, .leaving⟩) x + s.pins x
    have hx' := husers x
    have hold := h.refcnt x hx
    rw [hbufs]
    by_cases hxb : x = b
    · rw [hxb, if_pos rfl] at hx'
      rw [hxb] at hold
      rw [hxb, Bcache.set_self]
      show (s.bc.bufs b).refcnt - 1 = _
      omega
    · rw [if_neg fun heq => hxb heq.symm] at hx'
      rw [Bcache.set_of_ne hxb]
      omega
  · show ((s.bc.brelse b).bufs x).lock = some t'
    rw [hbufs, Bcache.set_field Buf.lock rfl]
    exact h.lock t' x (List.mem_of_mem_erase hheld)
  · show holders (s.uses.erase ⟨t, b, .leaving⟩) x ≤ 1
    rw [hholders]
    exact h.once x

/-- Pinning and unpinning change the two sides of a count alike. -/
theorem CacheInv.pin (h : CacheInv s) {refcnt pins : Nat}
    (heq : b < NBUF → refcnt = users s.uses b + pins) :
    CacheInv { s with
      bc := s.bc.set b fun x => { x with refcnt := refcnt }
      pins := update s.pins b pins } := by
  have hd : ∀ x, ((s.bc.set b fun x => { x with refcnt := refcnt }).bufs x).dev =
      (s.bc.bufs x).dev :=
    Bcache.set_field Buf.dev rfl
  have hn : ∀ x, ((s.bc.set b fun x => { x with refcnt := refcnt }).bufs x).blockno =
      (s.bc.bufs x).blockno := Bcache.set_field Buf.blockno rfl
  refine ⟨h.ring, h.order, fun x y hx hy hdev hdev' hno => ?_, fun x hx => ?_, h.range,
    fun t' x hheld => ?_, h.once⟩
  · rw [hd] at hdev
    rw [hd, hd] at hdev'
    rw [hn, hn] at hno
    exact h.unique x y hx hy hdev hdev' hno
  · show _ = users s.uses x + update s.pins b pins x
    by_cases hxb : x = b
    · subst hxb
      rw [Bcache.set_self, update_self]
      exact heq hx
    · rw [Bcache.set_of_ne hxb, update_of_ne hxb]
      exact h.refcnt x hx
  · rw [Bcache.set_field Buf.lock rfl]
    exact h.lock t' x hheld

end Inv

theorem cacheInv_init : CacheInv Cache.init := by
  have hring : IsRing binit.links head (List.range NBUF).reverse := by
    -- each iteration of `binit` puts the next buffer in front
    refine forUpTo_inv (I := fun n k => n ≤ NBUF → IsRing k head (List.range n).reverse)
      (fun _ => ⟨⟨rfl, rfl⟩, by decide⟩) (fun n hn k ih _ => ?_) (Nat.le_refl _)
    rw [List.range_succ, List.reverse_append, List.reverse_singleton]
    refine (ih (Nat.le_of_lt hn)).insertFront ?_
    intro hmem
    rcases List.mem_cons.mp hmem with heq | hmem
    · exact absurd heq (Nat.ne_of_lt hn)
    · exact absurd (List.mem_range.mp (List.mem_reverse.mp hmem)) (Nat.lt_irrefl n)
  refine ⟨hring, fun b => ?_, fun b c _ _ hdev => absurd rfl hdev, fun b _ => rfl,
    fun u hu => absurd hu List.not_mem_nil, fun t b hu => absurd hu List.not_mem_nil,
    fun b => Nat.zero_le _⟩
  show b ∈ (List.range NBUF).reverse ↔ b < NBUF
  rw [List.mem_reverse, List.mem_range]

theorem cacheInv_step {s s' : Cache} {a : Act} (h : CacheInv s) (hstep : step s a = some s') :
    CacheInv s' := by
  cases a with
  | bget t dev blockno =>
    unfold step at hstep
    dsimp only at hstep
    split at hstep
    · next b bc hget =>
      cases hstep
      exact cacheInv_bget h hget
    · cases hstep
  | acquire t b =>
    obtain ⟨⟨hmem, hfree⟩, rfl⟩ := of_guard hstep
    exact cacheInv_acquire h hmem hfree
  | fill t b data =>
    obtain ⟨-, rfl⟩ := of_guard hstep
    have hlock : ∀ x, ((s.bc.set b fun x =>
        if x.valid then x else { x with valid := true, data := data }).bufs x).lock =
          (s.bc.bufs x).lock := Bcache.set_field Buf.lock (by split <;> rfl)
    refine h.keep (by split <;> rfl) (by split <;> rfl)
      (by split <;> rfl) (fun _ => rfl) h.range (fun t' x hheld => ?_) h.once
    rw [hlock]
    exact h.lock t' x hheld
  | store t b data =>
    obtain ⟨-, rfl⟩ := of_guard hstep
    refine h.keep rfl rfl rfl (fun _ => rfl) h.range (fun t' x hheld => ?_) h.once
    rw [Bcache.set_field Buf.lock rfl]
    exact h.lock t' x hheld
  | unlock t b =>
    obtain ⟨hmem, rfl⟩ := of_guard hstep
    exact cacheInv_unlock h hmem
  | brelse t b =>
    obtain ⟨hmem, rfl⟩ := of_guard hstep
    exact cacheInv_brelse h hmem
  | bpin b =>
    obtain ⟨hb, rfl⟩ := of_guard hstep
    refine h.pin fun _ => ?_
    have := h.refcnt b hb
    omega
  | bunpin b =>
    obtain ⟨⟨hb, hpos⟩, rfl⟩ := of_guard hstep
    refine h.pin fun _ => ?_
    have := h.refcnt b hb
    omega

/-! ## Runs -/

/-- The shape of the cache between two sections. -/
structure Structured (s : Cache) : Prop where
  /-- The pointers form one ring through the head and every buffer. -/
  ring : IsRing s.bc.links head s.order
  all : s.order.Perm (List.range NBUF)
  /-- A block is in at most one buffer. -/
  unique : ∀ dev blockno b c, dev ≠ 0 → Holds s b dev blockno → Holds s c dev blockno → b = c
  refcnt : ∀ b, b < NBUF → (s.bc.bufs b).refcnt = users s.uses b + s.pins b

/-- A `bget` that succeeds finds the block, or recycles the buffer that is the
nearest to the least recently released end of the unused ones. -/
def Recycles (s : Cache) : Prop :=
  ∀ t dev blockno s', step s (.bget t dev blockno) = some s' → ∃ b, Holds s' b dev blockno ∧
    s'.uses = ⟨t, b, .waiting⟩ :: s.uses ∧
    (Holds s b dev blockno ∨ (∀ c, ¬ Holds s c dev blockno) ∧ LeastRecent s b)

theorem CacheInv.structured {s : Cache} (h : CacheInv s) : Structured s := by
  refine ⟨h.ring, ?_, ?_, h.refcnt⟩
  · refine (List.perm_ext_iff_of_nodup (List.nodup_cons.mp h.ring.nodup).2 List.nodup_range).mpr ?_
    intro b
    rw [h.order, List.mem_range]
  · intro dev blockno b c hdev hb hc
    refine h.unique c b hc.1 hb.1 ?_ (hb.2.1.trans hc.2.1.symm) (hb.2.2.trans hc.2.2.symm)
    rw [hc.2.1]
    exact hdev

theorem CacheInv.holds_of_bget {s : Cache} {dev blockno b : Nat} {bc : Bcache} (h : CacheInv s)
    (hget : s.bc.bget dev blockno = .ok (b, bc)) :
    b < NBUF ∧ (bc.bufs b).dev = dev ∧ (bc.bufs b).blockno = blockno := by
  rcases h.bget_cases hget with ⟨hholds, rfl⟩ | ⟨-, hlru, rfl⟩
  · rw [Bcache.set_self]
    exact hholds
  · rw [Bcache.set_self]
    exact ⟨hlru.lt h, rfl, rfl⟩

theorem CacheInv.recycles {s : Cache} (h : CacheInv s) : Recycles s := by
  intro t dev blockno s' hstep
  unfold step at hstep
  dsimp only at hstep
  split at hstep
  · next b bc hget =>
    cases hstep
    refine ⟨b, h.holds_of_bget hget, rfl, ?_⟩
    rcases h.bget_cases hget with ⟨hholds, -⟩ | ⟨hnone, hlru, -⟩
    · exact .inl hholds
    · exact .inr ⟨hnone, hlru⟩
  · cases hstep

/-- The buffer cache keeps its structure in every run. -/
theorem buffer_cache_structure {s : Cache} {acts : List Act}
    (hrun : exec step Cache.init acts = some s) : Structured s ∧ Recycles s := by
  have h : CacheInv s := inv_of_run (fun _ _ _ h hstep => cacheInv_step h hstep) cacheInv_init hrun
  exact ⟨h.structured, h.recycles⟩

/-- A thread reads block 7, another one waits for it and pins it. -/
def oneBlock : List Act :=
  [.bget 1 1 7, .acquire 1 0, .bget 2 1 7, .fill 1 0 zeroBlock, .unlock 1 0, .brelse 1 0,
    .acquire 2 0, .bpin 0, .unlock 2 0, .brelse 2 0, .bget 1 1 8]

theorem buffer_cache_structure_oneBlock :
    ∃ s, exec step Cache.init oneBlock = some s ∧ Structured s ∧ Recycles s := by
  have hrun : (exec step Cache.init oneBlock).isSome = true := by decide +kernel
  obtain ⟨s, hrun⟩ := Option.isSome_iff_exists.mp hrun
  exact ⟨s, hrun, buffer_cache_structure hrun⟩

end Xv6.Bio
