import Mathlib.Data.List.Nodup
import Mathlib.Data.List.Perm.Subperm
import Xv6.Vm.Fork
import Xv6.Vm.Exec

/-!
# Loading segments

A new image is built from the second page up.  `Image` says what its page table
looks like after some segments: every page below the size but the first one is
mapped, and the tables and pages it has cost are known exactly, so that it is
known when `uvmalloc` runs out of memory.

* `imageCost`, `ImageTable`: the pages and the tables of an image of some pages.
* `Image`; `Image.uvmalloc_spec`: growing an image succeeds exactly if there is
  enough memory.
* `loadseg_spec`: a segment above the first page is read, and `loadseg` succeeds
  exactly if the file has its bytes; `loadseg_null`: a segment in the first page
  is a panic.
-/

namespace Xv6.Vm

open Xv6.Lib.Bytes Xv6.Lib.Wp

variable {base n off sz v : Nat} {file : List UInt8}

variable {E : Panic → Prop} {own : Owner} {s : Phys} {r : Nat}

/-! ## How much memory there is -/

theorem supplyOf_le_length (freelist : List Nat) (denied : List Bool) :
    supplyOf freelist denied ≤ freelist.length := by
  induction freelist generalizing denied with
  | nil => exact Nat.zero_le _
  | cons p rest ih =>
    cases denied with
    | nil => exact Nat.le_refl _
    | cons b bs =>
      have := ih bs
      rw [supplyOf, List.length_cons]
      split <;> omega

/-- The allocator has at most the pages between `KERNBASE` and `PHYSTOP`. -/
theorem Owned.supply_le (h : Owned own s) : s.supply ≤ 32768 := by
  refine (supplyOf_le_length _ _).trans ?_
  have hrange : ∀ p ∈ s.freelist, p % 4096 = 0 ∧ KERNBASE ≤ p ∧ p < PHYSTOP := by
    intro p hp
    have hram := h.ram p (by simp [(h.free p).mpr hp])
    exact ⟨hram.1, h.kend.trans hram.2.1, hram.2.2⟩
  have hbase : KERNBASE = 0x80000000 := rfl
  have hstop : PHYSTOP = 0x88000000 := rfl
  have hnodup : (s.freelist.map fun p => (p - KERNBASE) / 4096).Nodup := by
    refine List.Nodup.map_on (fun p hp q hq heq => ?_) h.nodup
    have hp' := hrange p hp
    have hq' := hrange q hq
    omega
  have hsub : (s.freelist.map fun p => (p - KERNBASE) / 4096) ⊆ List.range 32768 := by
    intro n hn
    obtain ⟨p, hp, rfl⟩ := List.mem_map.mp hn
    have hp' := hrange p hp
    rw [List.mem_range]
    omega
  have hle := (hnodup.subperm hsub).length_le
  rwa [List.length_map, List.length_range] at hle

/-! ## Images -/

/-- The pages and tables of an image of `n` pages, the first of which is not
mapped. -/
def imageCost (n : Nat) : Nat :=
  if n ≤ 1 then 0 else (n - 1) + (2 + (n - 1) / 512)

/-- The tables of an image of `n` pages with its trampoline and trapframe. -/
def ImageTable (n l b : Nat) : Prop :=
  (l = 2 ∧ b = 0 ∨ l = 1 ∧ b = 255 ∨ l = 0 ∧ b = 131071) ∨
    1 < n ∧ (l = 1 ∧ b = 0 ∨ l = 0 ∧ b ≤ (n - 1) / 512)

theorem imageCost_mono {m : Nat} (h : m ≤ n) : imageCost m ≤ imageCost n := by
  rw [imageCost, imageCost]
  split <;> split <;> omega

theorem le_imageCost (n : Nat) : n ≤ imageCost n + 1 := by
  rw [imageCost]
  split <;> omega

/-- The tables of one page more. -/
theorem imageTable_succ (hone : 1 ≤ v) (hv : v < 2 ^ 18) (l b : Nat) :
    ImageTable (v + 1) l b ↔
      ImageTable v l b ∨ l = 1 ∧ b = v / 512 / 512 ∨ l = 0 ∧ b = v / 512 := by
  have htop : v / 512 / 512 = 0 := by omega
  have hlow : b ≤ v / 512 ↔ 1 < v ∧ b ≤ (v - 1) / 512 ∨ b = v / 512 := by omega
  have hlt : 1 < v + 1 := by omega
  unfold ImageTable
  rw [Nat.add_sub_cancel]
  constructor
  · rintro (h | ⟨-, ⟨rfl, rfl⟩ | ⟨rfl, hb⟩⟩)
    · exact .inl (.inl h)
    · exact .inr (.inl ⟨rfl, htop.symm⟩)
    · rcases hlow.mp hb with ⟨h1, h2⟩ | h2
      · exact .inl (.inr ⟨h1, .inr ⟨rfl, h2⟩⟩)
      · exact .inr (.inr ⟨rfl, h2⟩)
  · rintro ((h | ⟨h1, ⟨rfl, rfl⟩ | ⟨rfl, hb⟩⟩) | ⟨rfl, hb⟩ | ⟨rfl, hb⟩)
    · exact .inl h
    · exact .inr ⟨hlt, .inl ⟨rfl, rfl⟩⟩
    · exact .inr ⟨hlt, .inr ⟨rfl, hlow.mpr (.inl ⟨h1, hb⟩)⟩⟩
    · exact .inr ⟨hlt, .inl ⟨rfl, hb.trans htop⟩⟩
    · exact .inr ⟨hlt, .inr ⟨rfl, hlow.mpr (.inr hb)⟩⟩

/-- One page more costs the page and its tables. -/
theorem imageCost_succ (hone : 1 ≤ v) (hv : v < 2 ^ 18)
    (htab : ∀ l b, HasTable own r l b ↔ ImageTable v l b) :
    imageCost (v + 1) = imageCost v + (1 + tableCost own r v) := by
  have hone_iff : HasTable own r 1 (v / 512 / 512) ↔ 1 < v := by
    rw [htab, ImageTable]
    omega
  have hzero_iff : HasTable own r 0 (v / 512) ↔ 1 < v ∧ v / 512 ≤ (v - 1) / 512 := by
    rw [htab, ImageTable]
    omega
  have hcost : tableCost own r v =
      if 1 < v then if v / 512 ≤ (v - 1) / 512 then 0 else 1 else 2 := by
    unfold tableCost
    by_cases h1 : 1 < v
    · by_cases h0 : v / 512 ≤ (v - 1) / 512
      · rw [if_pos (hone_iff.mpr h1), if_pos (hzero_iff.mpr ⟨h1, h0⟩), if_pos h1, if_pos h0]
      · rw [if_pos (hone_iff.mpr h1), if_neg fun hh => h0 (hzero_iff.mp hh).2, if_pos h1, if_neg h0]
    · rw [if_neg fun hh => h1 (hone_iff.mp hh), if_neg h1]
  rw [hcost, imageCost, imageCost, Nat.add_sub_cancel]
  split
  · omega
  · split
    · rw [if_neg (by omega)]
      omega
    · rw [if_pos (by omega)]
      split <;> omega

/-- The page table `r` of an image of size `sz`.  `base` is what the allocator
could give before the image had its first page. -/
structure Image (base r sz : Nat) (own : Owner) (s : Phys) : Prop where
  owned : Owned own s
  space : Space own s r sz
  pos : PGSIZE ≤ sz
  null : lookup s.mem r 0 = none
  mapped : ∀ v, 1 ≤ v → v < npages sz → ∃ e, lookup s.mem r v = some e ∧ isUser e = true
  tables : ∀ l b, HasTable own r l b ↔ ImageTable (npages sz) l b
  supply : base = s.supply + imageCost (npages sz)
  small : base ≤ 32768

theorem isUser_userPerm (xperm : Nat) : isUser (PTE_R ||| PTE_U ||| xperm) = true := by
  have hbit : (PTE_R ||| PTE_U).testBit 4 = true := by decide
  rw [isUser, Nat.testBit_or, hbit, Bool.true_or]

theorem lt_of_npages_le (h : npages sz ≤ n) : sz ≤ n * 4096 := by
  rw [npages] at h
  omega

/-- What `uvmalloc` does to an image. -/
def Image.AllocPost (base r sz newsz : Nat) (own : Owner) (s : Phys) (res : Nat)
    (s' : Phys) : Prop :=
  ∃ own', res = max sz newsz ∧ imageCost (npages (max sz newsz)) ≤ base ∧
      Image base r (max sz newsz) own' s' ∧ Frame r NoPage own own' s s' ∨
    res = 0 ∧ base < imageCost (npages (max sz newsz)) ∧ Same r own own' s s'

theorem Image.uvmalloc_spec {newsz xperm : Nat} (h : Image base r sz own s)
    (hperm : xperm < 1024) :
    wp (uvmalloc r sz newsz xperm) E (Image.AllocPost base r sz newsz own s) s := by
  have htf := trapframe_eq
  have htv := tfvpn_lt
  have hbig : 2 ^ 25 < TFVPN := by decide
  have hsmall := h.small
  by_cases hle : sz ≤ newsz
  · have hpos : 1 ≤ npages sz := by
      have := h.pos
      rw [npages, show PGSIZE = 4096 from rfl] at *
      omega
    have hstep : ∀ v own₁ s₁, npages sz ≤ v → v < npages newsz →
        ((∀ l b, HasTable own₁ r l b ↔ ImageTable v l b) ∧ base = s₁.supply + imageCost v) →
        v < TFVPN ∧ ∀ pa own₂ s₂,
          Fresh r v pa (PTE_R ||| PTE_U ||| xperm) (fun _ => 0) own₁ own₂ s₁ s₂ →
          ((∀ l b, HasTable own₂ r l b ↔ ImageTable (v + 1) l b) ∧
            base = s₂.supply + imageCost (v + 1)) := by
      intro v own₁ s₁ hlo hhi hK
      obtain ⟨htab, hsupply⟩ := hK
      have hv := le_imageCost v
      refine ⟨by omega, fun pa own₂ s₂ hfresh => ⟨fun l b => ?_, ?_⟩⟩
      · rw [hfresh.tables l b, htab, imageTable_succ (by omega) (by omega)]
      · rw [imageCost_succ (by omega) (by omega) htab, hsupply, hfresh.supply]
        omega
    refine (uvmalloc_rule (fun v own₁ s₁ => (∀ l b, HasTable own₁ r l b ↔ ImageTable v l b) ∧
      base = s₁.supply + imageCost v) h.owned h.space.root h.space.sz_le hle hperm
      (fun v hlo _ => h.space.none hlo) ⟨h.tables, h.supply⟩ hstep).mono fun res s' hres => ?_
    have hmax : max sz newsz = newsz := max_eq_right hle
    have hmono := npages_mono hle
    rw [Image.AllocPost, hmax]
    rcases hres with ⟨rfl, own', halloc, htab, hsupply⟩ | ⟨rfl, own', hsame, v, own₁, s₁, hlo, hhi,
      ⟨htab, hsupply⟩, hfail⟩
    · have hpages := le_imageCost (npages res)
      have hsz : res ≤ TRAPFRAME := by
        have := lt_of_npages_le (Nat.le_refl (npages res))
        omega
      refine ⟨own', .inl ⟨rfl, by omega, ⟨halloc.owned, (halloc.resized h.space hle hsz).space,
        h.pos.trans hle, ?_, fun v hv hlt => ?_, htab, hsupply, h.small⟩, halloc.frame⟩⟩
      · rw [halloc.kept 0 (by omega) (by omega)]
        exact h.null
      · by_cases hold : v < npages sz
        · rw [halloc.kept v (by omega) (by omega)]
          exact h.mapped v hv hold
        · obtain ⟨pa, -, -, hentry, -⟩ := halloc.new v (by omega) hlt
          refine ⟨_, hentry, ?_⟩
          rw [isUser_mkPte pa (userPerm_lt hperm)]
          exact isUser_userPerm xperm
    · have hv := le_imageCost v
      have hcost : imageCost (v + 1) = imageCost v + (1 + tableCost own₁ r v) :=
        imageCost_succ (by omega) (by omega) htab
      have hup := imageCost_mono (show v + 1 ≤ npages newsz from hhi)
      exact ⟨own', .inr ⟨rfl, by omega, hsame⟩⟩
  · have hmax : max sz newsz = sz := max_eq_left (Nat.le_of_not_le hle)
    rw [uvmalloc, if_pos (Nat.lt_of_not_le hle), wp_pure, Image.AllocPost, hmax]
    have := h.supply
    exact ⟨own, .inl ⟨rfl, by omega, h, Frame.refl _ _ _ _⟩⟩

theorem Image.touch {s' : Phys} (h : Image base r sz own s)
    (ht : Touched r own s s') : Image base r sz own s' := by
  have htf := tfvpn_lt
  have hpages := npages_le_of_le_trapframe h.space.sz_le
  refine ⟨ht.owned h.owned, (ht.resized h.owned h.space fun _ => False).space, h.pos, ?_,
    fun v hv hlt => ?_, h.tables, by rw [ht.supply]; exact h.supply, h.small⟩
  · rw [ht.lookup_eq h.owned h.space.root (by omega)]
    exact h.null
  · rw [ht.lookup_eq h.owned h.space.root (by omega)]
    exact h.mapped v hv hlt

/-! ## `loadseg` -/

theorem walkaddr_of_user {Q : Nat → Phys → Prop} {e : Nat} (hv : v < 2 ^ 26)
    (hentry : lookup s.mem r v = some e) (huser : isUser e = true) :
    wp (walkaddr r (v * PGSIZE)) E Q s ↔ Q (PTE2PA e) s := by
  obtain ⟨hvalid, rfl⟩ := lookup_eq_some.mp hentry
  rw [walkaddr_spec (vpn_lt_maxva hv), vpn_div, if_pos ⟨hvalid, huser⟩]

theorem walkaddr_of_none {Q : Nat → Phys → Prop} (hv : v < 2 ^ 26)
    (hnone : lookup s.mem r v = none) : wp (walkaddr r (v * PGSIZE)) E Q s ↔ Q 0 s := by
  have hinv := lookup_eq_none.mp hnone
  rw [walkaddr_spec (vpn_lt_maxva hv), vpn_div, if_neg (by simp [hinv])]

/-- A read from the file is complete exactly if the file has the bytes. -/
theorem readi_length_iff (hlen : file.length < 2 ^ 32)
    (hpos : 0 < n) (hn : n < 2 ^ 32) :
    (readi file off n).length = n ↔ off + n ≤ file.length := by
  rw [readi]
  split
  · rename_i hout
    rw [List.length_nil]
    constructor
    · omega
    · intro hle
      rcases hout with hout | hwrap
      · omega
      · rw [Nat.mod_eq_of_lt (by omega)] at hwrap
        omega
  · rw [List.length_take, List.length_drop]
    omega

/-- The file has the bytes of a segment. -/
def InFile (file : List UInt8) (off n : Nat) : Prop :=
  n = 0 ∨ off + n ≤ file.length

/-- `loadseg` above the first page. -/
theorem loadseg_spec (h : Image base r sz own s)
    (hv : 1 ≤ v) (hend : v * PGSIZE + n ≤ sz) (hoff : off < 2 ^ 32) (hlen : file.length < 2 ^ 32) :
    wp (loadseg r (v * PGSIZE) file off n) E (fun rc s' => Touched r own s s' ∧
      (rc = 0 ∧ InFile file off n ∨ rc = -1 ∧ ¬ InFile file off n)) s := by
  have htf := trapframe_eq
  have htv := tfvpn_lt
  have hsize : PGSIZE = 4096 := rfl
  have hsz := h.space.sz_le
  have hend' : v * 4096 + n ≤ sz := hend
  rw [loadseg, wp_bind]
  refine (wp_untilSome (I := fun k t => Touched r own s t ∧
      (k = 0 ∨ off + min (k * 4096) n ≤ file.length))
    (R := fun rc t => Touched r own s t ∧ rc = -1 ∧ ¬ InFile file off n)
    ⟨Touched.refl r own s, .inl rfl⟩ fun k hk t hinv => ?_).mono fun res t hres => ?_
  · obtain ⟨htouch, hread⟩ := hinv
    have hlt : k * 4096 < n := by
      rw [hsize] at hk
      omega
    have himage := h.touch htouch
    have hpage : v + k < npages sz := by
      rw [npages]
      omega
    have hpages := npages_le_of_le_trapframe hsz
    obtain ⟨e, hentry, huser⟩ := himage.mapped (v + k) (by omega) hpage
    have hown := himage.owned.page_of_lookup himage.space.root (by omega) hentry
    have hva : (v * PGSIZE + k * PGSIZE) % 2 ^ 64 = (v + k) * PGSIZE := by
      rw [← Nat.add_mul, hsize]
      omega
    rw [loadPage, hva, wp_bind, walkaddr_of_user (by omega) hentry huser,
      if_neg (himage.owned.pos hown)]
    dsimp only
    obtain ⟨m, hm⟩ : ∃ m, m = if n - k * PGSIZE < PGSIZE then n - k * PGSIZE else PGSIZE := ⟨_, rfl⟩
    rw [← hm]
    have hmin : m = min 4096 (n - k * 4096) := by
      rw [hm, hsize]
      split <;> omega
    rw [setPage, wp_bind, wp_updates]
    have htouch' := htouch.trans (touched_setPage (s := t) hown
      (copyBytes (t.mem (PTE2PA e)) 0
        (fun j => (readi file ((off + k * PGSIZE) % 2 ^ 32) m).getD j 0) 0
        (readi file ((off + k * PGSIZE) % 2 ^ 32) m).length))
    -- earlier pages have been read in full, so the offset does not wrap
    have hnowrap : (off + k * PGSIZE) % 2 ^ 32 = off + k * 4096 := by
      rw [hsize]
      omega
    have hcomplete : (readi file (off + k * 4096) m).length = m ↔
        off + k * 4096 + m ≤ file.length :=
      readi_length_iff hlen (by omega) (by omega)
    rw [← hnowrap] at hcomplete
    split
    · rename_i hshort
      refine (wp_pure _).mpr ⟨htouch', rfl, ?_⟩
      rw [Ne, hcomplete, hnowrap] at hshort
      rw [InFile]
      omega
    · rename_i hfull
      refine (wp_pure _).mpr ⟨htouch', .inr ?_⟩
      have hle := hcomplete.mp (not_not.mp hfull)
      rw [hnowrap] at hle
      omega
  · rw [wp_pure]
    rcases res with _ | rc
    · obtain ⟨htouch, hread⟩ := hres
      refine ⟨htouch, .inl ⟨rfl, ?_⟩⟩
      rw [InFile]
      rw [hsize] at hread
      omega
    · exact ⟨hres.1, .inr hres.2⟩

/-- `loadseg` in the first page. -/
theorem loadseg_null {Q : Int → Phys → Prop}
    (h : Image base r sz own s) (hn : 0 < n) (hE : E .loadseg) :
    wp (loadseg r 0 file off n) E Q s := by
  have hsize : PGSIZE = 4096 := rfl
  obtain ⟨k, hk⟩ : ∃ k, (n + PGSIZE - 1) / PGSIZE = k + 1 := ⟨(n - 1) / 4096, by rw [hsize]; omega⟩
  -- the first round ends the loop
  have hfirst : ∀ k, wp (untilSome (fun k => loadPage r 0 file off n (k * PGSIZE)) (k + 1)) E
      (fun _ _ => False) s := by
    intro k
    induction k with
    | zero =>
      rw [untilSome, untilSome, wp_bind, wp_pure]
      dsimp only
      rw [Nat.zero_mul, loadPage, wp_bind, Nat.zero_add, Nat.zero_mod]
      have hva : (0 : Nat) = 0 * PGSIZE := rfl
      rw [hva, walkaddr_of_none (by decide) h.null, if_pos hva, wp_throw]
      exact hE
    | succ k ih =>
      rw [untilSome, wp_bind]
      exact ih.mono fun _ _ hF => hF.elim
  rw [loadseg, hk, wp_bind]
  exact (hfirst k).mono fun _ _ hF => hF.elim

end Xv6.Vm
