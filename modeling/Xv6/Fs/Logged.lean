import Mathlib.Data.Finset.Card
import Xv6.Fs.Write

/-!
# The blocks that a write hands to the log

How many different blocks `writei` logs, on any disk: each block of the range and its map
block, the indirect block and its map block, and the block of the inode.

* `blocksOf`: the number of blocks that a range of bytes touches.
* `Logs`: the blocks that came into the log, apart from the indirect block of the inode and
  its map block.
* `Overflows`: a panic for want of room in the log comes after so many blocks.  It composes
  as `Logs` does.
* `balloc_logs`, `bmap_logs`, `writeiLoop_logs`, `writei_logs`: the parts of `writei`.
-/

namespace Xv6.Fs

open Xv6.Lib.Wp

/-- The number of blocks that the `n` bytes from `off` on touch. -/
def blocksOf (off n : Nat) : Nat := if n = 0 then 0 else (off % BSIZE + n - 1) / BSIZE + 1

theorem blocksOf_succ (off : Nat) {n m : Nat} (hn : 0 < n) (hm : min n (BSIZE - off % BSIZE) = m) :
    blocksOf (off + m) (n - m) + 1 = blocksOf off n := by
  unfold blocksOf
  simp only [BSIZE] at *
  split <;> split <;> omega

/-- The indirect block of the inode in the entry `ip`. -/
def Vol.indirect (s : Vol) (ip : Nat) : Nat := (s.itable ip).din.addrs NDIRECT

/-- From `s` to `t` only blocks of `D` came into the log, apart from the indirect block and its
map block, and no block came twice. -/
structure Logs (ip : Nat) (D : Finset Nat) (s t : Vol) : Prop where
  sb : t.sb = s.sb
  kept : s.indirect ip ≠ 0 → t.indirect ip = s.indirect ip
  blocks : ∀ b ∈ t.lh, b ∈ s.lh ∨ b ∈ D ∨
    (t.indirect ip ≠ 0 ∧ (b = t.indirect ip ∨ b = s.sb.BBLOCK (t.indirect ip)))
  length : t.lh.length + s.lh.toFinset.card = s.lh.length + t.lh.toFinset.card

/-- At most `c` different blocks came into the log, apart from the indirect block and its map
block. -/
def Logged (ip c : Nat) (s t : Vol) : Prop :=
  ∃ D : Finset Nat, D.card ≤ c ∧ Logs ip D s t

/-- The panic `e` is not for want of room in the log, or the log was full after at most `c`
blocks. -/
def Overflows (ip c : Nat) (s : Vol) (e : Panic) : Prop :=
  e = .logTooBig → ∃ t, Logged ip c s t ∧ LOGBLOCKS ≤ t.lh.length

section Logs

variable {E : Panic → Prop} {ip c c' : Nat} {D D' : Finset Nat} {s t u : Vol} {e : Panic}

theorem Logs.refl (ip : Nat) (s : Vol) : Logs ip ∅ s s where
  sb := rfl
  kept _ := rfl
  blocks _ hb := .inl hb
  length := rfl

theorem Logs.trans (h : Logs ip D s t) (h' : Logs ip D' t u) : Logs ip (D ∪ D') s u where
  sb := h'.sb.trans h.sb
  kept hne := by
    have hmid := h.kept hne
    rw [h'.kept (by rwa [hmid]), hmid]
  blocks b hb := by
    rcases h'.blocks b hb with hb | hb | ⟨hne, hb⟩
    · rcases h.blocks b hb with hb | hb | ⟨hne, hb⟩
      · exact .inl hb
      · exact .inr (.inl (Finset.mem_union_left _ hb))
      · have hkept := h'.kept hne
        rw [← hkept] at hne hb
        exact .inr (.inr ⟨hne, hb⟩)
    · exact .inr (.inl (Finset.mem_union_right _ hb))
    · rw [h.sb] at hb
      exact .inr (.inr ⟨hne, hb⟩)
  length := by
    have h₁ := h.length
    have h₂ := h'.length
    omega

theorem Logs.mono (h : Logs ip D s t) (hsub : D ⊆ D') : Logs ip D' s t where
  sb := h.sb
  kept := h.kept
  blocks b hb := (h.blocks b hb).imp_right (Or.imp_left fun hD => hsub hD)
  length := h.length

/-- A change that leaves the log and the indirect block alone. -/
theorem Logs.of_eq (hsb : t.sb = s.sb) (hlh : t.lh = s.lh) (hind : t.indirect ip = s.indirect ip) :
    Logs ip ∅ s t where
  sb := hsb
  kept _ := hind
  blocks _ hb := .inl (hlh ▸ hb)
  length := by rw [hlh]

/-- The indirect block and its map block do not count. -/
theorem Logs.absorb (h : Logs ip D s t) (hne : t.indirect ip ≠ 0)
    (hD : ∀ b ∈ D, b ∈ D' ∨ b = t.indirect ip ∨ b = s.sb.BBLOCK (t.indirect ip)) :
    Logs ip D' s t where
  sb := h.sb
  kept := h.kept
  blocks b hb := by
    rcases h.blocks b hb with hb | hb | hb
    · exact .inl hb
    · exact .inr ((hD b hb).imp_right fun hb => ⟨hne, hb⟩)
    · exact .inr (.inr hb)
  length := h.length

/-- The blocks that came into the log, with the indirect block and its map block. -/
theorem Logged.card_le (h : Logged ip c s t) : (t.lh.toFinset \ s.lh.toFinset).card ≤ c + 2 := by
  obtain ⟨D, hD, h⟩ := h
  have hsub : t.lh.toFinset \ s.lh.toFinset ⊆ D ∪ {t.indirect ip, s.sb.BBLOCK (t.indirect ip)} := by
    intro b hb
    rw [Finset.mem_sdiff, List.mem_toFinset, List.mem_toFinset] at hb
    rw [Finset.mem_union, Finset.mem_insert, Finset.mem_singleton]
    rcases h.blocks b hb.1 with hold | hD | hind
    · exact absurd hold hb.2
    · exact .inl hD
    · exact .inr hind.2
  have hcard := (Finset.card_le_card hsub).trans (Finset.card_union_le ..)
  have htwo := Finset.card_le_two (a := t.indirect ip) (b := s.sb.BBLOCK (t.indirect ip))
  omega

theorem Logged.refl (ip c : Nat) (s : Vol) : Logged ip c s s :=
  ⟨∅, Nat.zero_le c, Logs.refl ip s⟩

theorem Logged.trans (h : Logged ip c s t) (h' : Logged ip c' t u) : Logged ip (c + c') s u := by
  obtain ⟨D, hcard, h⟩ := h
  obtain ⟨D', hcard', h'⟩ := h'
  exact ⟨D ∪ D', (Finset.card_union_le D D').trans (Nat.add_le_add hcard hcard'), h.trans h'⟩

theorem Logged.mono (h : Logged ip c s t) (hc : c ≤ c') : Logged ip c' s t := by
  obtain ⟨D, hcard, h⟩ := h
  exact ⟨D, hcard.trans hc, h⟩

theorem Logs.pair {a b : Nat} (h : Logs ip {a, b} s t) : Logged ip 2 s t :=
  ⟨_, Finset.card_le_two, h⟩

/-- The log grew by the blocks that came into it. -/
theorem Logged.length_le (h : Logged ip c s t) : t.lh.length ≤ s.lh.length + (c + 2) := by
  have hcard := h.card_le
  have hnew := Finset.card_le_card_sdiff_add_card (s := t.lh.toFinset) (t := s.lh.toFinset)
  obtain ⟨D, -, h⟩ := h
  have hlength := h.length
  omega

/-- A panic after some blocks came into the log. -/
theorem Overflows.after (h : Overflows ip c' t e) (hlogs : Logged ip c s t) :
    Overflows ip (c + c') s e := by
  intro he
  obtain ⟨u, hu, hfull⟩ := h he
  exact ⟨u, hlogs.trans hu, hfull⟩

theorem Overflows.mono (h : Overflows ip c s e) (hc : c ≤ c') : Overflows ip c' s e := by
  intro he
  obtain ⟨t, ht, hfull⟩ := h he
  exact ⟨t, ht.mono hc, hfull⟩

theorem Overflows.length_le (h : Overflows ip c s .logTooBig) :
    LOGBLOCKS ≤ s.lh.length + (c + 2) := by
  obtain ⟨t, ht, hfull⟩ := h rfl
  exact hfull.trans ht.length_le

/-! ## The programs -/

theorem logWrite_logs (ip b : Nat) :
    wp (logWrite b) (Overflows ip 0 s) (fun _ t => Logs ip {b} s t ∧ t.itable = s.itable) s := by
  rw [logWrite, wp_bind, wp_reads, wp_bind, wp_reads]
  split
  · next hfull =>
    rw [wp_throw]
    exact fun _ => ⟨s, Logged.refl ip 0 s, hfull⟩
  split
  · rw [wp_throw]
    rintro ⟨⟩
  rw [wp_updates]
  by_cases hb : b ∈ s.lh
  · rw [if_pos hb]
    exact ⟨(Logs.refl ip s).mono (Finset.empty_subset _), rfl⟩
  · rw [if_neg hb]
    refine ⟨⟨rfl, fun _ => rfl, fun c hc => ?_, ?_⟩, rfl⟩
    · rw [List.mem_append, List.mem_singleton] at hc
      exact hc.imp_right fun heq => .inl (Finset.mem_singleton.mpr heq)
    · rw [List.toFinset_append, Finset.card_union_of_disjoint (by simpa using hb)]
      simp only [List.length_append, List.length_singleton, List.toFinset_cons, List.toFinset_nil]
      rw [insert_empty_eq, Finset.card_singleton]
      omega

/-- A change that leaves the log alone does not count. -/
theorem Overflows.of_eq (h : Overflows ip c t e) (hlogs : Logs ip ∅ s t) : Overflows ip c s e :=
  (h.after ⟨∅, Nat.le_refl 0, hlogs⟩).mono (Nat.zero_add c).le

/-- A buffer is changed and handed to the log. -/
theorem setLog_logs (ip b : Nat) (f : Block → Block) :
    wp (setBlock b f >>= fun _ => logWrite b) (Overflows ip 0 s)
      (fun _ t => Logs ip {b} s t ∧ t.itable = s.itable) s := by
  rw [wp_bind, setBlock, wp_updates]
  refine ((logWrite_logs ip b).mono fun _ t ht => ?_).mono_fail fun e he => ?_
  · exact ⟨⟨ht.1.sb, ht.1.kept, ht.1.blocks, ht.1.length⟩, ht.2⟩
  · exact he.of_eq (Logs.of_eq rfl rfl rfl)

theorem ballocTry_logs (ip g : Nat) {bi : Nat} (hbi : bi < BPB) :
    wp (ballocTry s.sb (g * BPB) bi) (Overflows ip 1 s) (fun r t => match r with
      | none => t = s
      | some c => Logs ip {c, s.sb.BBLOCK c} s t ∧ t.itable = s.itable) s := by
  have hmap : s.sb.BBLOCK (g * BPB) = s.sb.BBLOCK (g * BPB + bi) := by
    simp only [Superblock.BBLOCK, BPB] at hbi ⊢
    omega
  rw [ballocTry, wp_bind, bread, wp_reads]
  split
  · rw [← bind_assoc, wp_bind]
    refine ((setLog_logs ip _ _).mono fun _ s₁ h₁ => ?_).mono_fail fun e he => he.mono (by decide)
    have hone : Logged ip 1 s s₁ := ⟨_, (Finset.card_singleton _).le, h₁.1⟩
    rw [wp_bind, bzero]
    refine ((setLog_logs ip _ _).mono fun _ s₂ h₂ => ?_).mono_fail fun e he => he.after hone
    rw [wp_pure, hmap] at *
    refine ⟨(h₁.1.trans h₂.1).mono ?_, h₂.2.trans h₁.2⟩
    rw [Finset.union_comm]
    exact Finset.Subset.refl _
  · rw [wp_pure]

/-- `balloc` logs the new block and its map block. -/
theorem balloc_logs (ip : Nat) :
    wp balloc (Overflows ip 1 s)
      (fun a t => Logs ip {a, s.sb.BBLOCK a} s t ∧ t.itable = s.itable) s := by
  rw [balloc, wp_bind, wp_reads, wp_bind]
  -- both loops run on with nothing changed, and end with the first block found
  refine (wp_untilSome (I := fun _ t => t = s)
    (R := fun c t => Logs ip {c, s.sb.BBLOCK c} s t ∧ t.itable = s.itable) rfl ?_).mono
      fun r t ht => ?_
  · intro g hg t ht
    subst ht
    refine wp_untilSome (I := fun _ u => u = t) rfl fun bi hbi u hu => ?_
    subst hu
    refine (ballocTry_logs ip g (Nat.lt_min.mp hbi).1).mono fun r v hv => ?_
    cases r with
    | none => exact hv
    | some c => exact hv
  · rw [wp_pure]
    cases r with
    | none =>
      subst ht
      exact ⟨(Logs.refl ip t).mono (Finset.empty_subset _), rfl⟩
    | some c => exact ht

/-- A new address. -/
theorem setAddr_logs (ip x a : Nat) :
    wp (setDin ip (fun d => { d with addrs := Function.update d.addrs x a }) >>= fun _ =>
        (pure a : FsM Nat)) E
      (fun r t => r = a ∧ t.sb = s.sb ∧ t.lh = s.lh ∧
        t.indirect ip = Function.update (s.itable ip).din.addrs x a NDIRECT) s := by
  rw [wp_bind, wp_setDin, wp_pure]
  refine ⟨rfl, rfl, rfl, ?_⟩
  show (Function.update s.itable ip _ ip).din.addrs NDIRECT = _
  rw [Function.update_self]

/-- A direct address. -/
theorem addrOf_logs {x : Nat} (hx : x ≠ NDIRECT) :
    wp (addrOf ip x) (Overflows ip 1 s) (fun a t => Logs ip {a, s.sb.BBLOCK a} s t) s := by
  rw [addrOf, wp_bind, inode, wp_reads]
  split
  swap
  · rw [wp_pure]
    exact (Logs.refl ip s).mono (Finset.empty_subset _)
  rw [wp_bind]
  refine (balloc_logs ip).mono fun a t ht => ?_
  split
  · next hzero =>
    rw [wp_pure]
    exact hzero ▸ ht.1
  · refine (setAddr_logs ip x a).mono fun r u hu => ?_
    obtain ⟨rfl, hsb, hlh, hind⟩ := hu
    rw [Function.update_of_ne hx.symm] at hind
    have hset := ht.1.trans (Logs.of_eq hsb hlh hind)
    rwa [Finset.union_empty] at hset

/-- The address of the indirect block. -/
theorem addrOf_indirect_logs :
    wp (addrOf ip NDIRECT) (Overflows ip 1 s) (fun a t =>
      (a ≠ 0 → Logs ip ∅ s t ∧ t.indirect ip = a) ∧
      (a = 0 → Logs ip {a, s.sb.BBLOCK a} s t)) s := by
  rw [addrOf, wp_bind, inode, wp_reads]
  split
  swap
  · next hne =>
    rw [wp_pure]
    exact ⟨fun _ => ⟨Logs.refl ip s, rfl⟩, fun hzero => absurd hzero hne⟩
  next hzero =>
  rw [wp_bind]
  refine (balloc_logs ip).mono fun a t ht => ?_
  split
  · next ha =>
    rw [wp_pure]
    exact ⟨fun hne => absurd rfl hne, fun _ => ha ▸ ht.1⟩
  · next ha =>
    refine (setAddr_logs ip NDIRECT a).mono fun r u hu => ?_
    obtain ⟨rfl, hsb, hlh, hind⟩ := hu
    rw [Function.update_self] at hind
    refine ⟨fun _ => ⟨⟨hsb.trans ht.1.sb, fun hne => absurd hzero hne, fun b hb => ?_, ?_⟩, hind⟩,
      fun h => absurd h ha⟩
    · rw [hind]
      rw [hlh] at hb
      have hnone : t.indirect ip = 0 := by rw [Vol.indirect, ht.2, hzero]
      rcases ht.1.blocks b hb with hb | hb | hb
      · exact .inl hb
      · rw [Finset.mem_insert, Finset.mem_singleton] at hb
        exact .inr (.inr ⟨ha, hb⟩)
      · exact absurd hnone hb.1
    · rw [hlh]
      exact ht.1.length

theorem slotOf_logs {ind : Nat} (hind : s.indirect ip = ind) (hne : ind ≠ 0) (j : Nat) :
    wp (slotOf ind j) (Overflows ip 2 s) (fun a t => Logs ip {a, s.sb.BBLOCK a} s t) s := by
  rw [slotOf, wp_bind, bread, wp_reads]
  split
  swap
  · rw [wp_pure]
    exact (Logs.refl ip s).mono (Finset.empty_subset _)
  rw [wp_bind]
  refine ((balloc_logs ip).mono fun a t ht => ?_).mono_fail fun e he => he.mono (by decide)
  split
  · next hzero =>
    rw [wp_pure]
    exact hzero ▸ ht.1
  · rw [← bind_assoc, wp_bind]
    refine ((setLog_logs ip ind _).mono fun _ u hu => ?_).mono_fail fun e he => he.after ht.1.pair
    rw [wp_pure]
    have hsame : u.indirect ip = ind := by rw [Vol.indirect, hu.2, ht.2, ← hind, Vol.indirect]
    refine (ht.1.trans hu.1).absorb (by rwa [hsame]) fun b hb => ?_
    rw [Finset.mem_union, Finset.mem_singleton] at hb
    rw [hsame]
    exact hb.imp_right .inl

theorem bmap_logs (ip bn : Nat) :
    wp (bmap ip bn) (Overflows ip 2 s) (fun a t => Logs ip {a, s.sb.BBLOCK a} s t) s := by
  rw [bmap]
  split
  · next hdirect =>
    exact (addrOf_logs (Nat.ne_of_lt hdirect)).mono_fail fun e he => he.mono (by decide)
  split
  swap
  · rw [wp_throw]
    rintro ⟨⟩
  rw [wp_bind]
  refine (addrOf_indirect_logs.mono fun ind t ht => ?_).mono_fail fun e he => he.mono (by decide)
  split
  · next hzero =>
    rw [wp_pure]
    exact hzero ▸ ht.2 hzero
  · next hne =>
    obtain ⟨hlogs, hind⟩ := ht.1 hne
    refine ((slotOf_logs hind hne _).mono fun a u hu => ?_).mono_fail fun e he => he.of_eq hlogs
    have hboth := hlogs.trans hu
    rwa [Finset.empty_union, hlogs.sb] at hboth

/-- Every block that the loop of `writei` touches and its map block. -/
theorem writeiLoop_logs {src : Mem} {n : Nat} (fuel : Nat) : ∀ {s : Vol} {tot off : Nat},
    wp (writeiLoop ip src n fuel tot off) (Overflows ip (2 * blocksOf off (n - tot)) s)
      (fun _ t => Logged ip (2 * blocksOf off (n - tot)) s t) s := by
  induction fuel with
  | zero =>
    intro s tot off
    rw [writeiLoop, wp_pure]
    exact Logged.refl ..
  | succ fuel ih =>
    intro s tot off
    rw [writeiLoop]
    split
    swap
    · rw [wp_pure]
      exact Logged.refl ..
    next hlt =>
    generalize hm : min (n - tot) (BSIZE - off % BSIZE) = m
    have hblocks := blocksOf_succ off (n := n - tot) (by omega) hm
    rw [Nat.sub_sub] at hblocks
    have hcount : 2 * blocksOf off (n - tot) = 2 + 2 * blocksOf (off + m) (n - (tot + m)) := by
      omega
    rw [hcount, wp_bind]
    refine ((bmap_logs ip _).mono fun a t ht => ?_).mono_fail fun e he => he.mono (by omega)
    split
    · rw [wp_pure]
      exact ht.pair.mono (by omega)
    rw [wp_bind, setBlock, wp_updates]
    -- a copy into the block leaves the log alone
    have hcopy : ∀ disk, Logs ip {a, s.sb.BBLOCK a} s { t with disk := disk } := fun _ =>
      ⟨ht.sb, ht.kept, ht.blocks, ht.length⟩
    split
    · rw [wp_pure]
      exact (hcopy _).pair.mono (by omega)
    rw [wp_bind]
    refine ((logWrite_logs ip a).mono fun _ u hu => ?_).mono_fail fun e he =>
      (he.after (hcopy _).pair).mono (by omega)
    -- the data block is one of the two
    have hdata : Logs ip {a, s.sb.BBLOCK a} s u := by
      refine ((hcopy _).trans hu.1).mono (Finset.union_subset ?_ ?_)
      · exact Finset.Subset.refl _
      · exact Finset.singleton_subset_iff.mpr (Finset.mem_insert_self ..)
    exact (ih.mono fun _ v hv => hdata.pair.trans hv).mono_fail fun e he => he.after hdata.pair

/-- The loop if its first block is there already: that block needs no map block. -/
theorem writeiLoop_logs_there {src : Mem} {n fuel off : Nat} {d : Dinode}
    (hdin : (s.itable ip).din = d) (hbn : off / BSIZE < MAXFILE)
    (hne : d.ptr s.disk (off / BSIZE) ≠ 0) (hn : 0 < n) :
    wp (writeiLoop ip src n (fuel + 1) 0 off) (Overflows ip (2 * blocksOf off n - 1) s)
      (fun _ t => Logged ip (2 * blocksOf off n - 1) s t) s := by
  rw [writeiLoop, if_pos hn, Nat.sub_zero]
  generalize hm : min n (BSIZE - off % BSIZE) = m
  have hblocks := blocksOf_succ off hn hm
  have hcount : 2 * blocksOf off n - 1 = 1 + 2 * blocksOf (off + m) (n - m) := by omega
  rw [hcount, wp_bind]
  refine (bmap_read hdin hbn hne).mono fun a t ht => ?_
  obtain ⟨rfl, rfl⟩ := ht
  rw [if_neg hne, wp_bind, setBlock, wp_updates]
  split
  · rw [wp_pure]
    exact ⟨∅, Nat.zero_le _, Logs.of_eq rfl rfl rfl⟩
  rw [wp_bind]
  refine ((logWrite_logs ip _).mono fun _ u hu => ?_).mono_fail fun e he => ?_
  swap
  · exact Overflows.of_eq (he.mono (Nat.zero_le _)) (Logs.of_eq rfl rfl rfl)
  have hone : Logged ip 1 t u :=
    ⟨_, (Finset.card_singleton _).le, hu.1.sb, hu.1.kept, hu.1.blocks, hu.1.length⟩
  rw [Nat.zero_add]
  exact ((writeiLoop_logs fuel).mono fun _ v hv => hone.trans hv).mono_fail fun e he =>
    he.after hone

/-- A new copy of the inode with the same indirect block. -/
theorem logs_setDin {d : Dinode} (hd : d.addrs NDIRECT = s.indirect ip) :
    Logs ip ∅ s { s with itable := setDinAt s.itable ip d } := by
  refine Logs.of_eq rfl rfl ?_
  show (Function.update s.itable ip _ ip).din.addrs NDIRECT = _
  rw [Function.update_self, ← hd]

/-- A new size, on the disk also. -/
theorem setSize_logs (ip : Nat) (f : Dinode → Nat) :
    wp (setDin ip (fun d => { d with size := f d }) >>= fun _ => iupdate ip) (Overflows ip 0 s)
      (fun _ t => Logged ip 1 s t) s := by
  rw [wp_bind, wp_setDin, iupdate, wp_bind, inode, wp_reads, wp_bind, wp_reads]
  have hset : Logs ip ∅ s { s with
      itable := setDinAt s.itable ip { (s.itable ip).din with size := f (s.itable ip).din } } :=
    logs_setDin rfl
  refine ((setLog_logs ip _ _).mono fun _ t ht => ?_).mono_fail fun e he => he.of_eq hset
  have hboth := hset.trans ht.1
  rw [Finset.empty_union] at hboth
  exact ⟨_, (Finset.card_singleton _).le, hboth⟩

/-- `writei` logs the block of the inode after its loop. -/
theorem writei_logs {src : Mem} {off n : Nat}
    (hloop : wp (writeiLoop ip src n n 0 off) (Overflows ip c s) (fun _ t => Logged ip c s t) s) :
    wp (writei ip src off n) (Overflows ip c s) (fun _ t => Logged ip (c + 1) s t) s := by
  rw [writei, wp_bind, inode, wp_reads]
  split
  · rw [wp_pure]
    exact Logged.refl ..
  split
  · rw [wp_pure]
    exact Logged.refl ..
  rw [wp_bind]
  refine hloop.mono fun r t ht => ?_
  obtain ⟨tot, off⟩ := r
  dsimp only
  rw [← bind_assoc, wp_bind]
  refine ((setSize_logs ip _).mono fun _ u hu => ?_).mono_fail fun e he => he.after ht
  rw [wp_pure]
  exact ht.trans hu

end Logs

end Xv6.Fs
