import Xv6.Umalloc.Blocks

/-!
# Freeing a block

`free` keeps the free list and merges the block with its neighbours.

* `findPlace_of_lt`, `findPlace_of_gt`: the search from a node below the block
  ends at the last such node; from a node above it, it goes on at `base`.
* `findPlace_spec`: so the search ends, wherever it starts.
* `Inserting`: the list between the two halves of the insertion, when the block
  points to its successor and its predecessor does not yet point to it.
* `linkNext_spec`, `linkPrev_spec`, and `free_spec` for the whole of `free`.
-/

namespace Xv6.Umalloc

open Xv6.Lib.Linked
open Function (update_of_ne update_self)

variable {E : Type} {base bp : Nat} {m : Memory} {h : Heap E} {fr used : List Block} {b : Block}

/-! ## The search -/

/-- From a node below `bp` the search ends at the last such node. -/
theorem findPlace_of_lt (l : List Nat) : ∀ (p fuel : Nat), Links h.ptr (p :: l ++ [base]) →
    (p :: l).Pairwise (· < ·) → base ≤ p → p < bp → bp ∉ l → l.length < fuel →
    ∃ u r v, p :: l = u ++ r :: v ∧ r < bp ∧ (∀ x ∈ v, bp < x) ∧
    findPlace h bp fuel p = some r := by
  induction l with
  | nil =>
    intro p fuel hl _ hbase hp _ hfuel
    obtain ⟨fuel, rfl⟩ := Nat.exists_eq_succ_of_ne_zero (by omega : fuel ≠ 0)
    have hnext : h.ptr p = base := (links_cons_cons.mp hl).1
    refine ⟨[], p, [], rfl, hp, by simp, ?_⟩
    rw [findPlace, if_neg (by omega), if_pos (by omega)]
  | cons x l ih =>
    intro p fuel hl hsort hbase hp hmem hfuel
    obtain ⟨fuel, rfl⟩ := Nat.exists_eq_succ_of_ne_zero (by omega : fuel ≠ 0)
    obtain ⟨hnext, hrest⟩ := links_cons_cons.mp hl
    obtain ⟨hpx, hsort⟩ := List.pairwise_cons.mp hsort
    have hlt : p < x := hpx x List.mem_cons_self
    have hne : bp ≠ x := fun heq => hmem (heq ▸ List.mem_cons_self)
    rcases Nat.lt_or_ge bp x with hx | hx
    · refine ⟨[], p, x :: l, rfl, hp, fun y hy => ?_, ?_⟩
      · rcases List.mem_cons.mp hy with rfl | hy
        · exact hx
        · exact hx.trans ((List.pairwise_cons.mp hsort).1 y hy)
      · rw [findPlace, if_pos (by omega)]
    · obtain ⟨u, r, v, heq, hr, hv, hfind⟩ := ih x fuel hrest hsort (by omega) (by omega)
        (fun hin => hmem (List.mem_cons_of_mem x hin)) (by simp at hfuel; omega)
      refine ⟨p :: u, r, v, by rw [heq]; rfl, hr, hv, ?_⟩
      rw [findPlace, if_neg (by omega), if_neg (by omega), hnext, hfind]

/-- From a node above `bp` the search comes to `base`. -/
theorem findPlace_of_gt (hbase : base < bp) (l : List Nat) : ∀ (p fuel : Nat),
    Links h.ptr (p :: l ++ [base]) → (p :: l).Pairwise (· < ·) → bp < p →
    findPlace h bp (fuel + l.length + 1) p = findPlace h bp fuel base := by
  induction l with
  | nil =>
    intro p fuel hl _ hp
    have hnext : h.ptr p = base := (links_cons_cons.mp hl).1
    rw [findPlace, if_neg (by omega), if_neg (by omega), hnext]
    rfl
  | cons x l ih =>
    intro p fuel hl hsort hp
    obtain ⟨hnext, hrest⟩ := links_cons_cons.mp hl
    obtain ⟨hpx, hsort⟩ := List.pairwise_cons.mp hsort
    have hlt : p < x := hpx x List.mem_cons_self
    rw [findPlace, if_neg (by omega), if_neg (by omega), hnext]
    exact ih x fuel hrest hsort (by omega)

/-- The blocks of a list cut at one of its nodes. -/
theorem split_nodes {u v : List Nat} {r : Nat} (heq : base :: fr.map Block.addr = u ++ r :: v) :
    ∃ pre post, fr = pre ++ post ∧ base :: pre.map Block.addr = u ++ [r] ∧
      post.map Block.addr = v := by
  refine ⟨fr.take u.length, fr.drop u.length, (List.take_append_drop _ _).symm, ?_, ?_⟩
  · have htake : base :: (fr.take u.length).map Block.addr
        = (base :: fr.map Block.addr).take (u.length + 1) := by
      rw [List.map_take, List.take_succ_cons]
    rw [htake, heq, List.append_cons, List.take_left' (by simp)]
  · have hdrop : (fr.drop u.length).map Block.addr
        = (base :: fr.map Block.addr).drop (u.length + 1) := by
      rw [List.map_drop, List.drop_succ_cons]
    rw [hdrop, heq, List.append_cons, List.drop_left' (by simp)]

/-- Where `bp` belongs in the free list `pre ++ post`: between the blocks of `pre`
and those of `post`, after the node `p`. -/
structure Place (base bp : Nat) (pre post : List Block) (u : List Nat) (p : Nat) : Prop where
  nodes : base :: pre.map Block.addr = u ++ [p]
  before : ∀ c ∈ pre, c.addr < bp
  after : ∀ c ∈ post, bp < c.addr

/-- The search of `free` ends, and finds the place of the block. -/
theorem findPlace_spec (hl : FreeList base h fr) (hbase : base < bp)
    (hne : ∀ c ∈ fr, c.addr ≠ bp) {fuel : Nat} (hfuel : 2 * (fr.length + 1) ≤ fuel) :
    ∃ pre post u p, fr = pre ++ post ∧ Place base bp pre post u p ∧
      findPlace h bp fuel h.freep = some p := by
  have hmem : bp ∉ fr.map Block.addr := fun hin => by
    obtain ⟨c, hc, rfl⟩ := List.mem_map.mp hin
    exact hne c hc rfl
  -- it is enough to find the node
  suffices ∃ u p v, base :: fr.map Block.addr = u ++ p :: v ∧ p < bp ∧ (∀ x ∈ v, bp < x) ∧
      findPlace h bp fuel h.freep = some p by
    obtain ⟨u, p, v, heq, hp, hv, hfind⟩ := this
    obtain ⟨pre, post, hfr, hnodes, rfl⟩ := split_nodes heq
    refine ⟨pre, post, u, p, hfr, ⟨hnodes, fun c hc => ?_, fun c hc => ?_⟩, hfind⟩
    · have hin : c.addr ∈ u ++ [p] := hnodes ▸ List.mem_cons_of_mem base (List.mem_map_of_mem hc)
      have hsort := hl.ordered
      rw [heq] at hsort
      rcases List.mem_append.mp hin with hin | hin
      · exact ((List.pairwise_append.mp hsort).2.2 c.addr hin p List.mem_cons_self).trans hp
      · rw [List.mem_singleton.mp hin]
        exact hp
    · exact hv c.addr (List.mem_map_of_mem hc)
  obtain ⟨s, t, hst⟩ := List.append_of_mem hl.roving
  have hlen : s.length + t.length = fr.length := by
    have := congrArg List.length hst
    simp at this
    omega
  have hsort := hl.ordered
  rw [hst] at hsort
  have hsort := (List.pairwise_append.mp hsort).2.1
  have hpath := hl.ring.suffix hst
  have hle : base ≤ h.freep := by
    rcases List.mem_cons.mp hl.roving with heq | hin
    · exact heq.ge
    · exact ((List.pairwise_cons.mp hl.ordered).1 _ hin).le
  have hnefree : bp ∉ h.freep :: t := fun hin => by
    have hin : bp ∈ base :: fr.map Block.addr := hst ▸ List.mem_append_right s hin
    rcases List.mem_cons.mp hin with heq | hin
    · omega
    · exact hmem hin
  rcases Nat.lt_or_ge h.freep bp with hlt | hge
  · obtain ⟨u, r, v, heq, hr, hv, hfind⟩ := findPlace_of_lt t h.freep fuel hpath hsort hle hlt
      (fun hin => hnefree (List.mem_cons_of_mem _ hin)) (by omega)
    exact ⟨s ++ u, r, v, by rw [hst, heq, List.append_assoc], hr, hv, hfind⟩
  · have hgt : bp < h.freep := by
      have : bp ≠ h.freep := fun heq => hnefree (heq ▸ List.mem_cons_self)
      omega
    obtain ⟨rest, rfl⟩ := Nat.exists_eq_add_of_le (by omega : t.length + 1 ≤ fuel)
    obtain ⟨u, r, v, heq, hr, hv, hfind⟩ := findPlace_of_lt (fr.map Block.addr) base rest hl.ring
      hl.ordered le_rfl hbase hmem (by simp; omega)
    refine ⟨u, r, v, heq, hr, hv, ?_⟩
    rw [show t.length + 1 + rest = rest + t.length + 1 by omega,
      findPlace_of_gt hbase t h.freep rest hpath hsort hgt, hfind]

/-! ## The insertion -/

/-- Consecutive blocks of a free list do not touch. -/
abbrev Separate (l : List Block) : Prop :=
  l.Pairwise fun b c => b.stop < c.addr

theorem ordered_of_separate (hsep : Separate fr) (habove : ∀ c ∈ fr, base < c.addr) :
    (base :: fr.map Block.addr).Pairwise (· < ·) := by
  refine List.pairwise_cons.mpr ⟨fun x hx => ?_, List.pairwise_map.mpr (hsep.imp fun hlt => ?_)⟩
  · obtain ⟨c, hc, rfl⟩ := List.mem_map.mp hx
    exact habove c hc
  · exact (Nat.le_add_right _ _).trans_lt hlt

/-- A block ends before the blocks above it. -/
theorem stop_le {c : Block} (hap : Apart b c) (hlt : b.addr < c.addr) : b.stop ≤ c.addr := by
  rcases hap with hle | hle
  · exact hle
  · have : c.addr ≤ c.stop := Nat.le_add_right _ _
    omega

/-- The list `pre ++ b :: post` between the two halves of the insertion of `b`
after the node `p`. -/
structure Inserting (base : Nat) (m : Memory) (h : Heap E) (pre post used : List Block) (b : Block)
    (u : List Nat) (p : Nat) : Prop where
  nodes : base :: pre.map Block.addr = u ++ [p]
  front : Links h.ptr (u ++ [p])
  back : Links h.ptr (b.addr :: post.map Block.addr ++ [base])
  sizes : ∀ c ∈ pre ++ b :: post ++ used, h.size c.addr = c.units
  baseSize : h.size base = 0
  separatePre : Separate pre
  separatePost : Separate (b :: post)
  before : ∀ c ∈ pre, c.addr < b.addr
  tiling : Tiling base m (pre ++ b :: post ++ used)

section Insertion

variable {pre post : List Block} {u : List Nat} {p : Nat}

theorem perm_front {c : Block} :
    (pre ++ c :: post ++ used).Perm (c :: (pre ++ post ++ used)) := by
  simp only [List.append_assoc, List.cons_append]
  exact List.perm_middle

theorem perm_used : (fr ++ b :: used).Perm (b :: (fr ++ used)) :=
  List.perm_middle

/-- The first half: `b` points to its successor, or has taken it in. -/
theorem linkNext_spec (hinv : h.Inv base m (pre ++ post) (b :: used))
    (hplace : Place base b.addr pre post u p) (htotal : m.total < 2 ^ 32) :
    ∃ b' post', b'.addr = b.addr ∧ b.units ≤ b'.units ∧ post'.length ≤ post.length ∧
      Inserting base m (linkNext h b.addr p) pre post' used b' u p ∧
      (linkNext h b.addr p).env = h.env := by
  have hlist := hinv.list
  have hsplit : base :: (pre ++ post).map Block.addr = u ++ p :: post.map Block.addr := by
    rw [List.map_append, ← List.cons_append, hplace.nodes, List.append_assoc]
    rfl
  have hpath : Links h.ptr (p :: post.map Block.addr ++ [base]) := hlist.ring.suffix hsplit
  have hfront : Links h.ptr (u ++ [p]) := hlist.ring.initial hsplit
  have htile := hinv.tiling.perm perm_used
  have hbin := htile.within b List.mem_cons_self
  have hsize : h.size b.addr = b.units := hinv.usedSizes b List.mem_cons_self
  have hafter : h.after b.addr = b.stop := by rw [Heap.after, hsize]; rfl
  -- the headers of the other blocks stay
  have hother : ∀ c ∈ pre ++ post ++ used, c.addr ≠ b.addr := fun c hc => htile.addr_ne hc
  have hsizes : ∀ c ∈ pre ++ post ++ used, h.size c.addr = c.units := fun c hc => by
    rcases List.mem_append.mp hc with hc | hc
    · exact hlist.sizes c hc
    · exact hinv.usedSizes c (List.mem_cons_of_mem b hc)
  have hbase : base ≠ b.addr := hbin.above.ne
  have hu : ∀ x ∈ u, x ≠ b.addr := fun x hx => by
    have hmem : x ∈ base :: pre.map Block.addr := by
      rw [hplace.nodes]
      exact List.mem_append_left _ hx
    rcases List.mem_cons.mp hmem with rfl | hmem
    · exact hbase
    · obtain ⟨c, hc, rfl⟩ := List.mem_map.mp hmem
      exact hother c (by simp [hc])
  have hnodes : ∀ x ∈ post.map Block.addr, x ≠ b.addr := fun x hx => by
    obtain ⟨c, hc, rfl⟩ := List.mem_map.mp hx
    exact hother c (by simp [hc])
  have hapart : ∀ c ∈ pre ++ post ++ used, Apart b c := (List.pairwise_cons.mp htile.apart).1
  obtain ⟨hseppre, hseppost, -⟩ := List.pairwise_append.mp hlist.coalesced
  by_cases hmerge : h.after b.addr = h.ptr p
  · cases post with
    | nil =>
      -- the successor is `base`, which is below `b`
      have hnext : h.ptr p = base := (links_cons_cons.mp hpath).1
      have hle : b.addr ≤ b.stop := Nat.le_add_right _ _
      have := hbin.above
      omega
    | cons c post =>
      obtain ⟨hnext, hpath⟩ := links_cons_cons.mp hpath
      have hstop : b.stop = c.addr := by rw [← hafter, hmerge, hnext]
      have hc : c.addr ≠ b.addr := hother c (by simp)
      have hmerged : Tiling base m (⟨b.addr, b.units + c.units⟩ :: (pre ++ post ++ used)) :=
        (htile.perm ((perm_front).cons b)).merge hstop
      have hlt : b.units + c.units < 2 ^ 32 :=
        (hmerged.units_le List.mem_cons_self).trans_lt htotal
      have hlink : linkNext h b.addr p
          = (h.setSize b.addr (b.units + c.units)).setPtr b.addr (h.ptr c.addr) := by
        rw [linkNext, if_pos hmerge, hnext, hsize, hsizes c (by simp)]
        simp only [Heap.setSize, hnext]
      have hstop' : (⟨b.addr, b.units + c.units⟩ : Block).stop = c.stop := by
        simp only [Block.stop, headerSize] at hstop ⊢
        omega
      refine ⟨⟨b.addr, b.units + c.units⟩, post, rfl, Nat.le_add_right _ _, by simp, ?_, ?_⟩
      · rw [hlink]
        refine ⟨hplace.nodes, hfront.congr fun x hx => update_of_ne (hu x hx) _ _,
          hpath.replaceHead (update_self _ _ _) fun x hx =>
            update_of_ne (hnodes x (List.mem_cons_of_mem _ hx)) _ _,
          fun d hd => ?_, ?_, hseppre, ?_, hplace.before, hmerged.perm perm_front.symm⟩
        · rcases List.mem_cons.mp (perm_front.mem_iff.mp hd) with rfl | hd
          · exact (update_self _ _ _).trans (Nat.mod_eq_of_lt hlt)
          · have hin : d ∈ pre ++ c :: post ++ used :=
              perm_front.mem_iff.mpr (List.mem_cons_of_mem c hd)
            exact (update_of_ne (hother d hin) _ _).trans (hsizes d hin)
        · exact (update_of_ne hbase _ _).trans hlist.baseSize
        · obtain ⟨hcpost, hpost⟩ := List.pairwise_cons.mp hseppost
          exact List.pairwise_cons.mpr ⟨fun d hd => hstop' ▸ hcpost d hd, hpost⟩
      · rw [hlink]
        rfl
  · have hlink : linkNext h b.addr p = h.setPtr b.addr (h.ptr p) := by
      rw [linkNext, if_neg hmerge]
    refine ⟨b, post, rfl, le_rfl, le_rfl, ?_, ?_⟩
    · rw [hlink]
      refine ⟨hplace.nodes, hfront.congr fun x hx => update_of_ne (hu x hx) _ _,
        hpath.replaceHead (update_self _ _ _) fun x hx =>
          update_of_ne (hnodes x hx) _ _,
        fun d hd => ?_, hlist.baseSize, hseppre, ?_, hplace.before, htile.perm perm_front.symm⟩
      · rcases List.mem_cons.mp (perm_front.mem_iff.mp hd) with rfl | hd
        · exact hsize
        · exact hsizes d hd
      · refine List.pairwise_cons.mpr ⟨fun d hd => ?_, hseppost⟩
        have hle := stop_le (hapart d (by simp [hd])) (hplace.after d hd)
        cases post with
        | nil => cases hd
        | cons c post =>
          have hnext : h.ptr p = c.addr := (links_cons_cons.mp hpath).1
          rcases List.mem_cons.mp hd with rfl | hd
          · omega
          · have hcd : c.stop < d.addr := (List.pairwise_cons.mp hseppost).1 d hd
            have hbc := stop_le (hapart c (by simp)) (hplace.after c List.mem_cons_self)
            have hc : c.addr ≤ c.stop := Nat.le_add_right _ _
            omega
    · rw [hlink]
      rfl

/-- The node `p` is `base`, or the last block before the place. -/
theorem eq_base_or_last (hnodes : base :: pre.map Block.addr = u ++ [p]) :
    pre = [] ∧ p = base ∧ u = [] ∨
      ∃ pre' d, pre = pre' ++ [d] ∧ p = d.addr ∧ u = base :: pre'.map Block.addr := by
  rcases List.eq_nil_or_concat pre with rfl | ⟨pre', d, rfl⟩
  · obtain ⟨hu, hp⟩ := List.append_inj' (show [] ++ [base] = u ++ [p] from hnodes) rfl
    exact Or.inl ⟨rfl, (List.singleton_inj.mp hp).symm, hu.symm⟩
  · rw [List.concat_eq_append, List.map_append, ← List.cons_append] at hnodes
    obtain ⟨hu, hp⟩ := List.append_inj' hnodes rfl
    rw [List.concat_eq_append]
    exact Or.inr ⟨pre', d, rfl, (List.singleton_inj.mp hp).symm, hu.symm⟩

/-- The second half: the predecessor points to `b`, or has taken it in. -/
theorem linkPrev_spec (hins : Inserting base m h pre post used b u p) (htotal : m.total < 2 ^ 32) :
    ∃ fr', ({ linkPrev h b.addr p with freep := p } : Heap E).Inv base m fr' used ∧
      fr'.length ≤ pre.length + post.length + 1 ∧ (∃ c ∈ fr', b.units ≤ c.units) ∧
      (linkPrev h b.addr p).env = h.env := by
  have htile := hins.tiling.perm perm_front
  have hapart : ∀ c ∈ pre ++ post ++ used, Apart b c := (List.pairwise_cons.mp htile.apart).1
  have hbin := htile.within b List.mem_cons_self
  have habove : ∀ c ∈ pre ++ b :: post, base < c.addr := fun c hc =>
    (hins.tiling.within c (List.mem_append_left _ hc)).above
  have hstop : b.addr ≤ b.stop := Nat.le_add_right _ _
  obtain ⟨hbpost, hpost⟩ := List.pairwise_cons.mp hins.separatePost
  have hup : ∀ x ∈ u, x < p := fun x hx => by
    have hsort := ordered_of_separate hins.separatePre fun c hc => habove c (by simp [hc])
    rw [hins.nodes] at hsort
    exact (List.pairwise_append.mp hsort).2.2 x hx p (by simp)
  have hpb : p < b.addr := by
    rcases eq_base_or_last hins.nodes with ⟨-, rfl, -⟩ | ⟨pre', d, rfl, rfl, -⟩
    · exact hbin.above
    · exact hins.before d (by simp)
  have hnodes : ∀ x ∈ post.map Block.addr, b.addr < x := fun x hx => by
    obtain ⟨c, hc, rfl⟩ := List.mem_map.mp hx
    exact hstop.trans_lt (hbpost c hc)
  by_cases hmerge : h.after p = b.addr
  · rcases eq_base_or_last hins.nodes with ⟨rfl, rfl, rfl⟩ | ⟨pre', d, rfl, rfl, rfl⟩
    · -- `base` has no units
      rw [Heap.after, hins.baseSize] at hmerge
      omega
    · have hd : h.size d.addr = d.units := hins.sizes d (by simp)
      have hb : h.size b.addr = b.units := hins.sizes b (by simp)
      have hdb : d.stop = b.addr := by rw [← hmerge, Heap.after, hd]; rfl
      have hmerged : Tiling base m (⟨d.addr, d.units + b.units⟩ :: (pre' ++ post ++ used)) := by
        refine (hins.tiling.perm ?_).merge hdb
        simp only [List.append_assoc, List.cons_append, List.nil_append]
        exact List.perm_middle.trans (List.perm_middle.cons d)
      have hlt : d.units + b.units < 2 ^ 32 :=
        (hmerged.units_le List.mem_cons_self).trans_lt htotal
      have hcstop : (⟨d.addr, d.units + b.units⟩ : Block).stop = b.stop := by
        simp only [Block.stop, headerSize] at hdb ⊢
        omega
      have hlink : linkPrev h b.addr d.addr
          = (h.setSize d.addr (d.units + b.units)).setPtr d.addr (h.ptr b.addr) := by
        rw [linkPrev, if_pos hmerge, hd, hb]
        rfl
      obtain ⟨hsep', -, hlast⟩ := List.pairwise_append.mp hins.separatePre
      rw [hlink]
      have hsep : Separate (pre' ++ ⟨d.addr, d.units + b.units⟩ :: post) := by
        refine List.pairwise_append.mpr ⟨hsep', List.pairwise_cons.mpr
          ⟨fun y hy => hcstop ▸ hbpost y hy, hpost⟩, fun x hx y hy => ?_⟩
        have hxd : x.stop < d.addr := hlast x hx d (by simp)
        rcases List.mem_cons.mp hy with rfl | hy
        · exact hxd
        · have := hbpost y hy
          omega
      have hsizes : ∀ c ∈ pre' ++ ⟨d.addr, d.units + b.units⟩ :: post ++ used,
          Function.update h.size d.addr ((d.units + b.units) % 2 ^ 32) c.addr = c.units := by
        intro c hc
        rcases List.mem_cons.mp (perm_front.mem_iff.mp hc) with rfl | hc
        · exact (update_self _ _ _).trans (Nat.mod_eq_of_lt hlt)
        · refine (update_of_ne (hmerged.addr_ne hc) _ _).trans (hins.sizes c ?_)
          simp only [List.mem_append, List.mem_cons] at hc ⊢
          tauto
      refine ⟨pre' ++ ⟨d.addr, d.units + b.units⟩ :: post,
        ⟨⟨?_, fun c hc => hsizes c (List.mem_append_left _ hc), ?_, ?_, hsep, ?_⟩,
          fun c hc => hsizes c (List.mem_append_right _ hc), hmerged.perm perm_front.symm⟩, ?_,
          ?_, rfl⟩
      · rw [Lib.Linked.Ring, List.map_append, List.map_cons, ← List.cons_append, List.append_assoc]
        refine Links.append.mpr ⟨hins.front.congr fun x hx => ?_,
          hins.back.replaceHead (update_self _ _ _) fun x hx => ?_⟩
        · exact update_of_ne (hup x hx).ne _ _
        · exact update_of_ne (hpb.trans (hnodes x hx)).ne' _ _
      · exact (update_of_ne (habove d (by simp)).ne _ _).trans hins.baseSize
      · refine ordered_of_separate hsep fun c hc => ?_
        exact (hmerged.within c (perm_front.mem_iff.mp (List.mem_append_left used hc))).above
      · simp
      · simp
        omega
      · exact ⟨_, List.mem_append_right _ List.mem_cons_self, Nat.le_add_left _ _⟩
  · have hlink : linkPrev h b.addr p = h.setPtr p b.addr := by rw [linkPrev, if_neg hmerge]
    have hsep : Separate (pre ++ b :: post) := by
      refine List.pairwise_append.mpr ⟨hins.separatePre, hins.separatePost, fun x hx y hy => ?_⟩
      -- only the last block before `b` could touch it
      have hxb : x.stop < b.addr := by
        have hle := stop_le (hapart x (by simp [hx])).symm (hins.before x hx)
        rcases eq_base_or_last hins.nodes with ⟨rfl, -, -⟩ | ⟨pre', d, rfl, rfl, -⟩
        · cases hx
        rcases List.mem_append.mp hx with hx' | hx'
        · have hxd : x.stop < d.addr :=
            (List.pairwise_append.mp hins.separatePre).2.2 x hx' d (by simp)
          omega
        · obtain rfl := List.mem_singleton.mp hx'
          rw [Heap.after, hins.sizes x (by simp)] at hmerge
          exact lt_of_le_of_ne hle hmerge
      rcases List.mem_cons.mp hy with rfl | hy
      · exact hxb
      · exact hxb.trans (hstop.trans_lt (hbpost y hy))
    rw [hlink]
    refine ⟨pre ++ b :: post,
      ⟨⟨?_, fun c hc => hins.sizes c (List.mem_append_left _ hc), hins.baseSize,
        ordered_of_separate hsep habove, hsep, ?_⟩,
        fun c hc => hins.sizes c (List.mem_append_right _ hc), hins.tiling⟩, ?_, ?_, rfl⟩
    · rw [Lib.Linked.Ring, List.map_append, List.map_cons, ← List.cons_append, hins.nodes,
        List.append_assoc, List.append_assoc]
      refine Links.append.mpr ⟨hins.front.congr fun x hx => update_of_ne (hup x hx).ne _ _,
        links_cons_cons.mpr ⟨update_self _ _ _,
          hins.back.replaceHead (update_of_ne hpb.ne' _ _) fun x hx => ?_⟩⟩
      exact update_of_ne (hpb.trans (hnodes x hx)).ne' _ _
    · rw [List.map_append, ← List.cons_append, hins.nodes]
      simp
    · simp
      omega
    · exact ⟨b, by simp, le_rfl⟩

end Insertion

/-- `free` returns, with the block in the free list. -/
theorem free_spec (hinv : h.Inv base m fr (b :: used)) (htotal : m.total < 2 ^ 32) {fuel : Nat}
    (hfuel : 2 * (fr.length + 1) ≤ fuel) :
    ∃ h' fr', free fuel (b.addr + headerSize) h = some h' ∧ h'.Inv base m fr' used ∧
      fr'.length ≤ fr.length + 1 ∧ (∃ c ∈ fr', b.units ≤ c.units) ∧ h'.env = h.env := by
  have htile := hinv.tiling.perm perm_used
  obtain ⟨pre, post, u, p, rfl, hplace, hfind⟩ := findPlace_spec hinv.list
    (htile.within b List.mem_cons_self).above
    (fun c hc => htile.addr_ne (List.mem_append_left used hc)) hfuel
  obtain ⟨b', post', haddr, hunits, hlen, hins, henv⟩ := linkNext_spec hinv hplace htotal
  obtain ⟨fr', hinv', hlen', ⟨c, hc, hcu⟩, henv'⟩ := linkPrev_spec hins htotal
  rw [haddr] at hinv' henv'
  refine ⟨_, fr', ?_, hinv', ?_, ⟨c, hc, hunits.trans hcu⟩, henv'.trans henv⟩
  · rw [free, Nat.add_sub_cancel, hfind]
    rfl
  · simp only [List.length_append] at hlen' ⊢
    omega

end Xv6.Umalloc
