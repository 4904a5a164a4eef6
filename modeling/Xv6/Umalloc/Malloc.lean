import Xv6.Umalloc.Free

/-!
# Allocating a block

`malloc` returns, with a block that was free or is new.

* `Honest`: what is asked of `sbrk`, over a reading `mem` of the environment as
  the memory obtained.
* `mallocLoop_search`: the search goes once around the list, from `freep` to
  `freep`, and ends at the first block that is large enough.
* `carve_spec`, `morecore_spec`: the two ways to the block.
* `malloc_spec`: as long as the units obtained can be counted in a `uint`.
-/

namespace Xv6.Umalloc

open Xv6.Lib.Linked
open Function (update update_of_ne update_self)

variable {E : Type} {base n : Nat} {m : Memory} {h : Heap E} {fr used : List Block}
variable {sbrk : Sbrk E} {fuel : Nat}

/-! ## Cutting a block off -/

theorem carve_spec {x : Nat} (hinv : h.Inv base m fr used) (hx : x ∈ base :: fr.map Block.addr)
    (htotal : m.total < 2 ^ 32) (hpos : 0 < n) (hn : n ≤ h.size (h.ptr x)) :
    ∃ b h' fr', carve n h x (h.ptr x) = (b.addr + headerSize, h') ∧
      h'.Inv base m fr' (b :: used) ∧ b.units = n ∧ fr'.length ≤ fr.length ∧ h'.env = h.env := by
  have hlist := hinv.list
  obtain ⟨u, v, huv⟩ := List.append_of_mem hx
  obtain ⟨pre, post, rfl, hnodes, rfl⟩ := split_nodes huv
  have hpath : Links h.ptr (x :: post.map Block.addr ++ [base]) := hlist.ring.suffix huv
  have hfront : Links h.ptr (u ++ [x]) := hlist.ring.initial huv
  obtain ⟨c, post, rfl⟩ : ∃ c post', post = c :: post' := by
    refine List.exists_cons_of_ne_nil fun hnil => ?_
    -- the node after the last one is `base`, which has no units
    subst hnil
    rw [(links_cons_cons.mp hpath).1, hlist.baseSize] at hn
    omega
  obtain ⟨hnext, hpath⟩ := links_cons_cons.mp hpath
  have hc : h.size c.addr = c.units := hlist.sizes c (by simp)
  have hsort := hlist.ordered
  rw [huv] at hsort
  obtain ⟨-, hsort, hux⟩ := List.pairwise_append.mp hsort
  have hxlt := (List.pairwise_cons.mp hsort).1
  have htile := hinv.tiling.perm perm_front
  have hclt : c.units < 2 ^ 32 := (htile.units_le List.mem_cons_self).trans_lt htotal
  rw [hnext, hc] at hn
  rw [hnext]
  by_cases hexact : c.units = n
  · -- the whole block is taken out of the list
    have hsub : (pre ++ post).Sublist (pre ++ c :: post) :=
      (List.sublist_cons_self c post).append_left pre
    refine ⟨c, { h.setPtr x (h.ptr c.addr) with freep := x }, pre ++ post, ?_,
      ⟨⟨?_, fun d hd => hlist.sizes d (hsub.subset hd), hlist.baseSize, ?_,
        hlist.coalesced.sublist hsub, ?_⟩, fun d hd => ?_, ?_⟩, hexact, hsub.length_le, rfl⟩
    · rw [carve, if_pos (hc.trans hexact)]
    · rw [Lib.Linked.Ring, List.map_append, ← List.cons_append, hnodes, List.append_assoc,
        List.append_assoc]
      refine Links.append.mpr ⟨hfront.congr fun y hy => ?_,
        hpath.replaceHead (update_self _ _ _) fun y hy => ?_⟩
      · exact update_of_ne (hux y hy x List.mem_cons_self).ne _ _
      · exact update_of_ne (hxlt y (by simp [hy])).ne' _ _
    · exact hlist.ordered.sublist ((hsub.map Block.addr).cons_cons base)
    · rw [List.map_append, ← List.cons_append, hnodes]
      simp
    · rcases List.mem_cons.mp hd with rfl | hd
      · exact hc
      · exact hinv.usedSizes d hd
    · exact htile.perm perm_used.symm
  · -- its tail is cut off
    obtain ⟨i, hi⟩ : ∃ i, c.units = i + n := ⟨c.units - n, by omega⟩
    have hipos : 0 < i := by omega
    have hcut : Tiling base m
        (⟨c.addr + headerSize * i, n⟩ :: ⟨c.addr, i⟩ :: (pre ++ post ++ used)) := by
      refine Tiling.split ?_ hipos hpos
      rw [← hi]
      exact htile
    have hcarve : carve n h x c.addr = (c.addr + headerSize * i + headerSize,
        { (h.setSize c.addr i).setSize (c.addr + headerSize * i) n with freep := x }) := by
      have hsub : c.units - n = i := by omega
      rw [carve, if_neg (by rw [hc]; exact hexact), hc, hsub]
      have hafter : (h.setSize c.addr i).after c.addr = c.addr + headerSize * i := by
        show c.addr + headerSize * update h.size c.addr (i % 2 ^ 32) c.addr = _
        rw [update_self, Nat.mod_eq_of_lt (by omega)]
      simp only [hafter]
    have hsizes : ∀ d ∈ pre ++ ⟨c.addr, i⟩ :: post ++ ⟨c.addr + headerSize * i, n⟩ :: used,
        ((h.setSize c.addr i).setSize (c.addr + headerSize * i) n).size d.addr = d.units := by
      intro d hd
      show update (update h.size c.addr (i % 2 ^ 32)) (c.addr + headerSize * i)
        (n % 2 ^ 32) d.addr = d.units
      rcases List.mem_cons.mp (perm_used.mem_iff.mp hd) with rfl | hd
      · rw [update_self, Nat.mod_eq_of_lt (by omega)]
      · have hd := perm_front.mem_iff.mp hd
        rw [update_of_ne (hcut.addr_ne hd)]
        rcases List.mem_cons.mp hd with rfl | hd
        · rw [update_self, Nat.mod_eq_of_lt (by omega)]
        · rw [update_of_ne (htile.addr_ne hd)]
          rcases List.mem_append.mp hd with hd | hd
          · exact hlist.sizes d (by simp only [List.mem_append, List.mem_cons] at hd ⊢; tauto)
          · exact hinv.usedSizes d hd
    have haddrs : (pre ++ ⟨c.addr, i⟩ :: post).map Block.addr =
        (pre ++ c :: post).map Block.addr := by
      simp
    have hbase : base < c.addr := (htile.within c List.mem_cons_self).above
    refine ⟨⟨c.addr + headerSize * i, n⟩, _, pre ++ ⟨c.addr, i⟩ :: post, hcarve,
      ⟨⟨?_, fun d hd => hsizes d (List.mem_append_left _ hd), ?_, ?_, ?_, ?_⟩,
        fun d hd => hsizes d (List.mem_append_right _ hd), ?_⟩, rfl, by simp, rfl⟩
    · rw [haddrs]
      exact hlist.ring
    · show update (update h.size c.addr (i % 2 ^ 32)) (c.addr + headerSize * i)
        (n % 2 ^ 32) base = 0
      rw [update_of_ne (by omega), update_of_ne hbase.ne]
      exact hlist.baseSize
    · rw [haddrs]
      exact hlist.ordered
    · obtain ⟨hpre, hpost, hcross⟩ := List.pairwise_append.mp hlist.coalesced
      obtain ⟨hcpost, hpost⟩ := List.pairwise_cons.mp hpost
      refine List.pairwise_append.mpr ⟨hpre, List.pairwise_cons.mpr ⟨fun d hd => ?_, hpost⟩,
        fun d hd e he => ?_⟩
      · have := hcpost d hd
        simp only [Block.stop, headerSize] at this ⊢
        omega
      · rcases List.mem_cons.mp he with rfl | he
        · exact hcross d hd c List.mem_cons_self
        · exact hcross d hd e (List.mem_cons_of_mem c he)
    · rw [haddrs, huv]
      simp
    · exact hcut.perm ((perm_front.symm.cons _).trans perm_used.symm)

/-! ## The search -/

/-- The search from `prev` goes on until `freep`: it ends at the first block that
is large enough, or asks for more memory. -/
theorem mallocLoop_search (sbrk : Sbrk E) (fuel n : Nat) (l : List Nat) : ∀ (prev rounds : Nat),
    Links h.ptr (prev :: l ++ [h.freep]) → h.freep ∉ l → l.length < rounds →
    (∃ x ∈ prev :: l, n ≤ h.size (h.ptr x) ∧
      mallocLoop sbrk fuel n rounds h prev (h.ptr prev) = .ok (carve n h x (h.ptr x))) ∨
    ((∀ y ∈ l ++ [h.freep], h.size y < n) ∧ ∃ rest, rounds = rest + l.length + 1 ∧
      mallocLoop sbrk fuel n rounds h prev (h.ptr prev) =
        match morecore sbrk fuel n h with
        | .error env => .error env
        | .ok (p, h') =>
          if p = 0 then .ok (0, h') else mallocLoop sbrk fuel n rest h' p (h'.ptr p)) := by
  induction l with
  | nil =>
    intro prev rounds hl _ hrounds
    obtain ⟨rest, rfl⟩ := Nat.exists_eq_succ_of_ne_zero (by omega : rounds ≠ 0)
    have hnext : h.ptr prev = h.freep := (links_cons_cons.mp hl).1
    by_cases hsize : n ≤ h.size (h.ptr prev)
    · exact Or.inl ⟨prev, by simp, hsize, by rw [mallocLoop, if_pos hsize]⟩
    · refine Or.inr ⟨fun y hy => ?_, rest, rfl, ?_⟩
      · rw [List.mem_singleton.mp hy, ← hnext]
        omega
      · rw [mallocLoop, if_neg hsize]
        exact if_pos hnext
  | cons y l ih =>
    intro prev rounds hl hmem hrounds
    obtain ⟨rest, rfl⟩ := Nat.exists_eq_succ_of_ne_zero (by omega : rounds ≠ 0)
    obtain ⟨hnext, hl⟩ := links_cons_cons.mp hl
    by_cases hsize : n ≤ h.size (h.ptr prev)
    · exact Or.inl ⟨prev, by simp, hsize, by rw [mallocLoop, if_pos hsize]⟩
    · have hne : h.ptr prev ≠ h.freep := fun heq => hmem (by rw [← heq, hnext]; simp)
      have hstep : mallocLoop sbrk fuel n (rest + 1) h prev (h.ptr prev)
          = mallocLoop sbrk fuel n rest h y (h.ptr y) := by
        rw [mallocLoop, if_neg hsize, if_neg hne, hnext]
      rw [hstep]
      rcases ih y rest hl (fun hin => hmem (List.mem_cons_of_mem y hin))
          (by simp at hrounds; omega) with ⟨x, hx, hn, heq⟩ | ⟨hsmall, rest', hrest, heq⟩
      · exact Or.inl ⟨x, List.mem_cons_of_mem prev hx, hn, heq⟩
      · refine Or.inr ⟨fun z hz => ?_, rest', by simp; omega, heq⟩
        rcases List.mem_cons.mp hz with rfl | hz
        · rw [← hnext]
          omega
        · exact hsmall z hz

/-- The same for the search that starts at `freep`. -/
theorem mallocLoop_ring (sbrk : Sbrk E) (fuel n : Nat) (hinv : h.Inv base m fr used) (rounds : Nat)
    (hrounds : fr.length < rounds) :
    (∃ x ∈ base :: fr.map Block.addr, n ≤ h.size (h.ptr x) ∧
      mallocLoop sbrk fuel n rounds h h.freep (h.ptr h.freep) = .ok (carve n h x (h.ptr x))) ∨
    ((∀ c ∈ fr, c.units < n) ∧ ∃ rest, rounds = rest + fr.length + 1 ∧
      mallocLoop sbrk fuel n rounds h h.freep (h.ptr h.freep) =
        match morecore sbrk fuel n h with
        | .error env => .error env
        | .ok (p, h') =>
          if p = 0 then .ok (0, h') else mallocLoop sbrk fuel n rest h' p (h'.ptr p)) := by
  obtain ⟨s, t, hst⟩ := List.append_of_mem hinv.list.roving
  have hring : Ring h.ptr h.freep (t ++ s) := hinv.list.ring.rotate hst
  have hlen : (t ++ s).length = fr.length := by
    have := congrArg List.length hst
    simp at this ⊢
    omega
  have hperm : (h.freep :: (t ++ s)).Perm (base :: fr.map Block.addr) := by
    rw [hst]
    exact (List.perm_append_comm.cons _).trans List.perm_middle.symm
  have hnodup : (h.freep :: (t ++ s)).Nodup :=
    hperm.nodup_iff.mpr (hinv.list.ordered.imp fun hlt => Nat.ne_of_lt hlt)
  rcases mallocLoop_search sbrk fuel n (t ++ s) h.freep rounds hring (List.nodup_cons.mp hnodup).1
      (by omega) with ⟨x, hx, hn, heq⟩ | ⟨hsmall, rest, hrest, heq⟩
  · exact Or.inl ⟨x, hperm.mem_iff.mp hx, hn, heq⟩
  · refine Or.inr ⟨fun c hc => ?_, rest, by omega, heq⟩
    rw [← hinv.list.sizes c hc]
    have hin : c.addr ∈ h.freep :: (t ++ s) :=
      hperm.mem_iff.mpr (List.mem_cons_of_mem base (List.mem_map_of_mem hc))
    refine hsmall c.addr ?_
    rw [List.mem_append, List.mem_singleton]
    exact (List.mem_cons.mp hin).symm

/-! ## More memory -/

/-- What is asked of `sbrk` in the environments `Ok` and for the numbers `Req` of
units: it fails, or returns fresh memory of the size asked for, above all that
was obtained before and above `base`.  The memory obtained is read off the
environment by `mem`. -/
structure Honest (base : Nat) (sbrk : Sbrk E) (mem : E → Memory) (Ok : E → Prop)
    (Req : Nat → Prop) : Prop where
  above : ∀ {e}, Ok e → base < (mem e).top
  fail : ∀ {e e' nu}, Ok e → Req nu → sbrk e (nu * headerSize) = (none, e') → Ok e' ∧ mem e' = mem e
  grant : ∀ {e e' nu r}, Ok e → Req nu → sbrk e (nu * headerSize) = (some r, e') → Ok e' ∧
    (mem e).top ≤ r ∧ r + headerSize * nu ≤ (mem e').top ∧ (mem e').total = (mem e).total + nu ∧
    (∀ x, (mem e).owned x → (mem e').owned x) ∧
    ∀ x, r ≤ x → x < r + headerSize * nu → (mem e').owned x

/-- The environment at the end of a call. -/
def endEnv : Except E (Nat × Heap E) → E
  | .error env => env
  | .ok r => r.2.env

/-- The units that `morecore` asks for. -/
def coreUnits (nu : Nat) : Nat :=
  if nu < 4096 then 4096 else nu

theorem le_coreUnits (nu : Nat) : nu ≤ coreUnits nu := by
  rw [coreUnits]
  split <;> omega

variable {mem : E → Memory} {Ok : E → Prop} {Req : Nat → Prop}

theorem morecore_cases (sbrk : Sbrk E) (fuel n : Nat) (h : Heap E) :
    (∃ e', sbrk h.env (coreUnits n * headerSize) = (none, e') ∧
      morecore sbrk fuel n h = .ok (0, { h with env := e' })) ∨
    ∃ r e', sbrk h.env (coreUnits n * headerSize) = (some r, e') ∧
      ((free fuel (r + headerSize)
        (({ h with env := e' } : Heap E).setSize r (coreUnits n)) = none ∧
        morecore sbrk fuel n h = .error e') ∨
      ∃ h', free fuel (r + headerSize) (({ h with env := e' } : Heap E).setSize r (coreUnits n))
        = some h' ∧ morecore sbrk fuel n h = .ok (h'.freep, h')) := by
  rcases hs : sbrk h.env (coreUnits n * headerSize) with ⟨_ | r, e'⟩
  · refine Or.inl ⟨e', rfl, ?_⟩
    unfold morecore
    unfold coreUnits at hs
    dsimp only
    rw [hs]
  · refine Or.inr ⟨r, e', rfl, ?_⟩
    unfold morecore
    unfold coreUnits at hs ⊢
    dsimp only
    rw [hs]
    dsimp only
    rcases free fuel (r + headerSize) _ with _ | h'
    · exact Or.inl ⟨rfl, rfl⟩
    · exact Or.inr ⟨h', rfl, rfl⟩

theorem free_env {h' : Heap E} {ap : Nat} (hf : free fuel ap h = some h') : h'.env = h.env := by
  rw [free, Option.map_eq_some_iff] at hf
  obtain ⟨p, -, rfl⟩ := hf
  show (linkPrev _ _ _).env = h.env
  unfold linkPrev linkNext
  split <;> split <;> rfl

/-- `morecore` never gives memory back. -/
theorem morecore_total_le (fuel : Nat) (hs : Honest base sbrk mem Ok Req) (hok : Ok h.env)
    (hreq : Req (coreUnits n)) :
    Ok (endEnv (morecore sbrk fuel n h)) ∧
      (mem h.env).total ≤ (mem (endEnv (morecore sbrk fuel n h))).total := by
  rcases morecore_cases sbrk fuel n h with ⟨e', hsbrk, hcore⟩ | ⟨r, e', hsbrk, hcore⟩
  · obtain ⟨hok', hmem⟩ := hs.fail hok hreq hsbrk
    rw [hcore]
    exact ⟨hok', by rw [endEnv, hmem]⟩
  · obtain ⟨hok', -, -, htotal, -⟩ := hs.grant hok hreq hsbrk
    have hend : endEnv (morecore sbrk fuel n h) = e' := by
      rcases hcore with ⟨-, hcore⟩ | ⟨h', hfree, hcore⟩
      · rw [hcore]
        rfl
      · rw [hcore]
        exact free_env hfree
    rw [hend, htotal]
    exact ⟨hok', Nat.le_add_right _ _⟩

/-- The loop never gives memory back. -/
theorem mallocLoop_total_le (fuel : Nat) (hs : Honest base sbrk mem Ok Req)
    (hreq : Req (coreUnits n)) (rounds : Nat) : ∀ (h : Heap E) (prevp p : Nat), Ok h.env →
    Ok (endEnv (mallocLoop sbrk fuel n rounds h prevp p)) ∧
      (mem h.env).total ≤ (mem (endEnv (mallocLoop sbrk fuel n rounds h prevp p))).total := by
  induction rounds with
  | zero => exact fun h _ _ hok => ⟨hok, le_rfl⟩
  | succ rounds ih =>
    intro h prevp p hok
    rw [mallocLoop]
    split
    · have hcarve : (carve n h prevp p).2.env = h.env := by
        unfold carve
        split <;> rfl
      rw [endEnv, hcarve]
      exact ⟨hok, le_rfl⟩
    split
    · have hmore := morecore_total_le fuel hs hok hreq
      rcases hcore : morecore sbrk fuel n h with env | ⟨q, h'⟩
      · rw [hcore] at hmore
        exact hmore
      · rw [hcore] at hmore
        dsimp only
        split
        · exact hmore
        · obtain ⟨hok', hle⟩ := ih h' q (h'.ptr q) hmore.1
          exact ⟨hok', hmore.2.trans hle⟩
    · exact ih h p (h.ptr p) hok

/-- The memory that `sbrk` has just returned is a block in use. -/
theorem Heap.Inv.grow (hs : Honest base sbrk mem Ok Req) (hok : Ok h.env) (hreq : Req n)
    {r : Nat} {e' : E} (hinv : h.Inv base (mem h.env) fr used) (hpos : 0 < n) (hn : n < 2 ^ 32)
    (hsbrk : sbrk h.env (n * headerSize) = (some r, e')) :
    (({ h with env := e' } : Heap E).setSize r n).Inv base (mem e') fr (⟨r, n⟩ :: used) := by
  obtain ⟨hok', htop, hend, htotal, hkept, hnew⟩ := hs.grant hok hreq hsbrk
  have hbase := (hs.above hok).trans_le htop
  have htile : Tiling base (mem e') (⟨r, n⟩ :: (fr ++ used)) :=
    hinv.tiling.grow ⟨hpos, hbase, hend, hnew⟩ htop htotal hkept
  have hlist := hinv.list
  have hsize : ∀ c ∈ fr ++ used, update h.size r (n % 2 ^ 32) c.addr = h.size c.addr :=
    fun c hc => update_of_ne (htile.addr_ne hc) _ _
  refine ⟨⟨hlist.ring, fun c hc => ?_, ?_, hlist.ordered, hlist.coalesced, hlist.roving⟩,
    fun c hc => ?_, htile.perm perm_used.symm⟩
  · exact (hsize c (List.mem_append_left _ hc)).trans (hlist.sizes c hc)
  · exact (update_of_ne hbase.ne _ _).trans hlist.baseSize
  · rcases List.mem_cons.mp hc with rfl | hc
    · exact (update_self _ _ _).trans (Nat.mod_eq_of_lt hn)
    · exact (hsize c (List.mem_append_right _ hc)).trans (hinv.usedSizes c hc)

/-- `morecore` returns: it finds no memory, or the free list has a block that is
large enough. -/
theorem morecore_spec (hs : Honest base sbrk mem Ok Req) (hok : Ok h.env)
    (hreq : Req (coreUnits n)) (hinv : h.Inv base (mem h.env) fr used) (hn : n < 2 ^ 32)
    (hfuel : 2 * (fr.length + 1) ≤ fuel)
    (htotal : (mem (endEnv (morecore sbrk fuel n h))).total < 2 ^ 32) :
    ∃ p h' fr', morecore sbrk fuel n h = .ok (p, h') ∧ h'.Inv base (mem h'.env) fr' used ∧
      fr'.length ≤ fr.length + 1 ∧ (p = 0 ∨ p = h'.freep ∧ ∃ c ∈ fr', n ≤ c.units) := by
  rcases morecore_cases sbrk fuel n h with ⟨e', hsbrk, hcore⟩ | ⟨r, e', hsbrk, hcore⟩
  · obtain ⟨hok', hmem⟩ := hs.fail hok hreq hsbrk
    refine ⟨0, { h with env := e' }, fr, hcore, ?_, Nat.le_succ _, Or.inl rfl⟩
    rw [show (({ h with env := e' } : Heap E)).env = e' from rfl, hmem]
    have hlist := hinv.list
    exact ⟨⟨hlist.ring, hlist.sizes, hlist.baseSize, hlist.ordered, hlist.coalesced, hlist.roving⟩,
      hinv.usedSizes, hinv.tiling⟩
  · have hbound : (mem e').total < 2 ^ 32 := by
      rcases hcore with ⟨-, hcore⟩ | ⟨h', hfree, hcore⟩
      · rw [hcore] at htotal
        exact htotal
      · rw [hcore, endEnv, free_env hfree] at htotal
        exact htotal
    have hcore_lt : coreUnits n < 2 ^ 32 := by
      rw [coreUnits]
      split <;> omega
    have hcore_pos : 0 < coreUnits n := by
      rw [coreUnits]
      split <;> omega
    have hgrown := hinv.grow hs hok hreq hcore_pos hcore_lt hsbrk
    obtain ⟨h', fr', hfree, hinv', hlen, ⟨c, hc, hcu⟩, henv⟩ := free_spec hgrown hbound hfuel
    have hok : morecore sbrk fuel n h = .ok (h'.freep, h') := by
      rcases hcore with ⟨hnone, -⟩ | ⟨h'', hsome, hcore⟩
      · rw [hfree] at hnone
        cases hnone
      · rw [hfree, Option.some.injEq] at hsome
        rw [hsome, hcore]
    refine ⟨h'.freep, h', fr', hok, ?_, hlen, Or.inr ⟨rfl, c, hc, (le_coreUnits n).trans hcu⟩⟩
    rw [henv]
    exact hinv'

/-! ## The whole call -/

theorem Heap.Inv.freep_ne (hinv : h.Inv base m fr used) (hbase : 0 < base) : h.freep ≠ 0 := by
  rcases List.mem_cons.mp hinv.list.roving with heq | hin
  · omega
  · have := (List.pairwise_cons.mp hinv.list.ordered).1 _ hin
    omega

/-- The loop returns, once it starts at `freep`: there is no memory, or the
address is that of a block of `n` units. -/
theorem mallocLoop_spec (hs : Honest base sbrk mem Ok Req) (hok : Ok h.env) (hbase : 0 < base)
    (hreq : Req (coreUnits n)) (hinv : h.Inv base (mem h.env) fr used) (hpos : 0 < n)
    (hn : n < 2 ^ 32) (hfuel : 2 * fr.length + 4 ≤ fuel)
    (htotal : (mem (endEnv (mallocLoop sbrk fuel n fuel h h.freep (h.ptr h.freep)))).total <
      2 ^ 32) :
    ∃ ap h' fr' used', mallocLoop sbrk fuel n fuel h h.freep (h.ptr h.freep) = .ok (ap, h') ∧
      h'.Inv base (mem h'.env) fr' used' ∧ fr'.length ≤ fr.length + 1 ∧
      (ap = 0 ∧ used' = used ∨
        ∃ b, ap = b.addr + headerSize ∧ b.units = n ∧ used' = b :: used) := by
  have hle := (mallocLoop_total_le fuel hs hreq fuel h h.freep (h.ptr h.freep) hok).2
  rcases mallocLoop_ring sbrk fuel n hinv fuel (by omega) with
    ⟨x, hx, hsize, heq⟩ | ⟨-, rest, hrest, heq⟩
  · obtain ⟨b, h', fr', hcarve, hinv', hunits, hlen, henv⟩ :=
      carve_spec hinv hx (hle.trans_lt htotal) hpos hsize
    rw [hcarve] at heq
    exact ⟨_, h', fr', b :: used, heq, henv.symm ▸ hinv', by omega, Or.inr ⟨b, rfl, hunits, rfl⟩⟩
  · rw [heq] at htotal ⊢
    -- the units are still counted after `morecore`
    have hmore : (mem (endEnv (morecore sbrk fuel n h))).total < 2 ^ 32 := by
      have hok' := (morecore_total_le fuel hs hok hreq).1
      rcases hcore : morecore sbrk fuel n h with env | ⟨p, h'⟩
      · rw [hcore] at htotal
        exact htotal
      · rw [hcore] at htotal hok'
        dsimp only at htotal
        split at htotal
        · exact htotal
        · exact (mallocLoop_total_le fuel hs hreq rest h' p (h'.ptr p) hok').2.trans_lt htotal
    obtain ⟨p, h', fr', hcore, hinv', hlen, hp⟩ :=
      morecore_spec hs hok hreq hinv hn (by omega) hmore
    rw [hcore] at hmore ⊢
    dsimp only
    rcases hp with rfl | ⟨rfl, c, hc, hcu⟩
    · rw [if_pos rfl]
      exact ⟨0, h', fr', used, rfl, hinv', hlen, Or.inl ⟨rfl, rfl⟩⟩
    · rw [if_neg (hinv'.freep_ne hbase)]
      rcases mallocLoop_ring sbrk fuel n hinv' rest (by omega) with
        ⟨x, hx, hsize, heq⟩ | ⟨hsmall, -⟩
      · obtain ⟨b, h'', fr'', hcarve, hinv'', hunits, hlen', henv⟩ :=
          carve_spec hinv' hx hmore hpos hsize
        rw [hcarve] at heq
        exact ⟨_, h'', fr'', b :: used, heq, henv.symm ▸ hinv'', by omega,
          Or.inr ⟨b, rfl, hunits, rfl⟩⟩
      · have := hsmall c hc
        omega

theorem nunits_spec {nbytes : Nat} (h : nbytes < 2 ^ 32) :
    0 < nunits nbytes ∧ nunits nbytes < 2 ^ 32 ∧
    nbytes + headerSize ≤ headerSize * nunits nbytes := by
  simp only [nunits, headerSize]
  omega

/-- The heap of a program: the allocator has not been used, or its blocks tile the
memory obtained. -/
def Heap.Good (base : Nat) (m : Memory) (h : Heap E) (fr used : List Block) : Prop :=
  h.freep = 0 ∧ m.total = 0 ∧ fr = [] ∧ used = [] ∨ h.Inv base m fr used

theorem prepare_env (base : Nat) (h : Heap E) : (prepare base h).env = h.env := by
  rw [prepare]
  split <;> rfl

theorem prepare_inv (hbase : 0 < base) (hgood : h.Good base m fr used) :
    (prepare base h).Inv base m fr used := by
  rcases hgood with ⟨hfreep, htotal, rfl, rfl⟩ | hinv
  · rw [prepare, if_pos hfreep]
    refine ⟨⟨ring_nil (update_self _ _ _), by simp, update_self _ _ _, by simp,
      List.Pairwise.nil, List.mem_cons_self⟩, by simp, ⟨List.Pairwise.nil, by simp, ?_⟩⟩
    rw [htotal]
    rfl
  · rw [prepare, if_neg (hinv.freep_ne hbase)]
    exact hinv

/-- `malloc` returns: there is no memory, or the address is that of a block for
`nbytes` bytes. -/
theorem malloc_spec (hs : Honest base sbrk mem Ok Req) (hok : Ok h.env) (hbase : 0 < base)
    {nbytes : Nat} (hreq : Req (coreUnits (nunits nbytes))) (hlt : nbytes < 2 ^ 32)
    (hgood : h.Good base (mem h.env) fr used) (hfuel : 2 * fr.length + 4 ≤ fuel)
    (htotal : (mem (endEnv (malloc base sbrk fuel nbytes h))).total < 2 ^ 32) :
    ∃ ap h' fr' used', malloc base sbrk fuel nbytes h = .ok (ap, h') ∧
      h'.Inv base (mem h'.env) fr' used' ∧ fr'.length ≤ fr.length + 1 ∧
      (ap = 0 ∧ used' = used ∨
        ∃ b, ap = b.addr + headerSize ∧ b.units = nunits nbytes ∧ used' = b :: used) := by
  obtain ⟨hpos, hn, -⟩ := nunits_spec hlt
  have hinv := prepare_inv hbase hgood
  rw [← prepare_env base h] at hok hinv
  exact mallocLoop_spec hs hok hbase hreq hinv hpos hn hfuel htotal

/-- `malloc` never gives memory back. -/
theorem malloc_total_le (fuel : Nat) (hs : Honest base sbrk mem Ok Req) (hok : Ok h.env)
    {nbytes : Nat} (hreq : Req (coreUnits (nunits nbytes))) :
    Ok (endEnv (malloc base sbrk fuel nbytes h)) ∧
      (mem h.env).total ≤ (mem (endEnv (malloc base sbrk fuel nbytes h))).total := by
  rw [← prepare_env base h] at hok ⊢
  exact mallocLoop_total_le fuel hs hreq fuel (prepare base h) _ _ hok

end Xv6.Umalloc
