import Xv6.Vm.Segments

/-!
# `kexec`

`kexec` panics exactly if the loader reaches a segment with bytes for the first
page; otherwise it returns, and leaves the memory of all processes in order.

* `uvmclear_spec`, `Stack`, `copyout_stack`, `pushArgs_spec`: the user stack.
* `ExecPost`: a failed `kexec` changes nothing; a successful one has a new address
  space and has freed the old one.
* `LoadsNullPage`: the executables on which `kexec` panics.
* `kexec_spec`.
-/

namespace Xv6.Vm

open Xv6.Lib.Bytes Xv6.Lib.Wp

variable {base n sz : Nat} {s' : Phys} {p : UProc} {argv : List (List UInt8)} {path : List UInt8}

variable {E : Panic → Prop} {own : Owner} {s : Phys} {r : Nat}

/-! ## The user stack -/

theorem isValid_clearUser (e : Nat) : isValid (clearUser e) = isValid e := by
  rw [isValid, testBit_clearUser (by decide), isValid]
  simp

theorem isLeaf_clearUser (e : Nat) : isLeaf (clearUser e) = isLeaf e := by
  rw [isLeaf, testBit_clearUser (by decide), testBit_clearUser (by decide),
    testBit_clearUser (by decide), isLeaf]
  simp

/-- `uvmclear` changes one entry. -/
theorem uvmclear_spec {v e : Nat} (h : Owned own s) (hr : Root own r) (hv : v < TFVPN)
    (hentry : lookup s.mem r v = some e) :
    wp (uvmclear r (v * PGSIZE)) E (fun _ s' => Owned own s' ∧ Frame r NoPage own own s s' ∧
      ∀ w, w < 2 ^ 27 →
        lookup s'.mem r w = if w = v then some (clearUser e) else lookup s.mem r w) s := by
  have htf := tfvpn_lt
  obtain ⟨hvalid, hpte⟩ := lookup_eq_some.mp hentry
  by_cases htab : HasTable own r 0 (v / 512)
  · obtain ⟨q, hq⟩ := htab
    have hrec : v / 512 * 512 + v % 512 = v := Nat.div_add_mod' v 512
    have hi : v % 512 < 512 := Nat.mod_lt _ (by decide)
    have heq : getPte s.mem q (v % 512) = e := (h.pteOf_eq hq).symm.trans hpte
    have he : e < 256 ^ 8 := heq ▸ getPte_lt _ _ _
    have hclear : clearUser e < 256 ^ 8 := Nat.lt_of_le_of_lt Nat.and_le_left he
    have hleaf := (h.leaf_of_lookup hr (by omega) hentry).1
    rw [uvmclear, wp_bind, walk_false_spec (vpn_lt_maxva (by omega)), vpn_div, h.locate_eq hq]
    simp only [Option.map_some, readPte, writePte, wp_bind, wp_reads, wp_updates, heq]
    have howned := h.storeLeaf hq hi hclear (hrec.symm ▸ by omega)
      (fun _ => by rw [isLeaf_clearUser]; exact hleaf)
      fun _ => by rw [heq, isValid_clearUser, PTE2PA_clearUser he]; exact ⟨rfl, rfl⟩
    refine ⟨howned, h.frame_store hq _ _, fun w hw => ?_⟩
    have hset := pteOf_setPte h howned (fun _ _ _ => Iff.rfl) (fun _ _ _ _ => rfl) hq hi hclear hw
    rw [hrec] at hset
    split
    · rename_i hwv
      rw [if_pos hwv] at hset
      refine lookup_eq_some.mpr ⟨?_, hset⟩
      rw [hset, isValid_clearUser, ← hpte]
      exact hvalid
    · rename_i hwv
      exact lookup_congr (by rw [hset, if_neg hwv])
  · rw [h.pteOf_eq_zero hr (by omega) htab] at hvalid
    cases hvalid

/-- An image of size `(n + 1) * PGSIZE` whose last page is the user stack. -/
structure Stack (r n : Nat) (own : Owner) (s : Phys) : Prop where
  owned : Owned own s
  space : Space own s r ((n + 1) * PGSIZE)
  null : lookup s.mem r 0 = none
  pos : 2 ≤ n
  top : ∃ e, lookup s.mem r n = some e ∧ isUser e = true ∧ isWritable e = true

theorem Stack.lt (h : Stack r n own s) : n < TFVPN := by
  have htf := trapframe_eq
  have hle := h.space.sz_le
  rw [show PGSIZE = 4096 from rfl] at hle
  omega

theorem Stack.touch (h : Stack r n own s) (ht : Touched r own s s') :
    Stack r n own s' := by
  have htf := tfvpn_lt
  have hlt := h.lt
  refine ⟨ht.owned h.owned, (ht.resized h.owned h.space fun _ => False).space, ?_, h.pos, ?_⟩
  · rw [ht.lookup_eq h.owned h.space.root (by omega)]
    exact h.null
  · rw [ht.lookup_eq h.owned h.space.root (by omega)]
    exact h.top

/-- `copyout` to the stack page. -/
theorem copyout_stack {dstva : Nat} {src : List UInt8} (h : Stack r n own s)
    (hlo : n * 4096 ≤ dstva) (hhi : dstva + src.length ≤ (n + 1) * 4096) (hsrc : 0 < src.length) :
    wp (copyout p r dstva src) E (fun rc s' => rc = 0 ∧ Touched r own s s') s := by
  have hmax : MAXVA = 2 ^ 26 * 4096 := rfl
  have hsize : PGSIZE = 4096 := rfl
  have htf := tfvpn_lt
  have hlt := h.lt
  obtain ⟨e, hentry, huser, hwrite⟩ := h.top
  have hown := h.owned.page_of_lookup h.space.root hlt hentry
  obtain ⟨m, hm⟩ : ∃ m, src.length = m + 1 := ⟨src.length - 1, by omega⟩
  have hdiv : dstva / 4096 = n := by omega
  have hva : PGROUNDDOWN dstva = n * PGSIZE := by
    rw [PGROUNDDOWN, hsize, hdiv]
  have hva' : n * PGSIZE = n * 4096 := rfl
  rw [copyout, hm, copyoutLoop, if_neg (by omega)]
  dsimp only
  rw [hva, if_neg (by omega), wp_bind, userPage, wp_bind, walkaddr_of_user (by omega) hentry huser,
    if_neg (h.owned.pos hown), wp_pure, if_neg (h.owned.pos hown), wp_bind,
    walk_false_spec (vpn_lt_maxva (by omega)), vpn_div]
  cases hloc : locate s.mem r n with
  | none =>
    rw [lookup_of_locate_none hloc] at hentry
    cases hentry
  | some q =>
    have hpte : getPte s.mem q (n % 512) = e := by
      have := (lookup_eq_some.mp hentry).2
      rwa [pteOf, hloc] at this
    simp only [Option.map_some, readPte, wp_bind, wp_reads, hpte, hwrite, Bool.true_eq_false,
      if_false, setPage, wp_updates]
    have hall : min (PGSIZE - (dstva - n * PGSIZE)) src.length = src.length := by
      rw [hsize]
      omega
    rw [hall, List.drop_length]
    have htouch := touched_setPage (s := s) hown
      (copyBytes (s.mem (PTE2PA e)) (dstva - n * PGSIZE) (fun k => src.getD k 0) 0 src.length)
    cases m with
    | zero =>
      rw [copyoutLoop, wp_pure]
      exact ⟨rfl, htouch⟩
    | succ m =>
      rw [copyoutLoop, if_pos List.length_nil, wp_pure]
      exact ⟨rfl, htouch⟩

theorem pushDown_le {sp k : Nat} (hk : k ≤ sp) (hsp : sp < 2 ^ 64) : pushDown sp k + k ≤ sp := by
  rw [pushDown, sub64]
  omega

theorem pushArg_spec {i : Nat} {acc : Nat × List Nat}
    (h : Stack r n own s) (hargv : ∀ a ∈ argv, a.length < PGSIZE) (hlo : n * 4096 ≤ acc.1)
    (hhi : acc.1 ≤ (n + 1) * 4096) :
    wp (pushArg p r (n * 4096) argv i acc) E (fun res s' => Touched r own s s' ∧
      ∀ acc', res = .ok acc' → acc'.2.length = acc.2.length + 1 ∧ n * 4096 ≤ acc'.1 ∧
        acc'.1 ≤ (n + 1) * 4096) s := by
  have htf := tfvpn_lt
  have hlt := h.lt
  have hpos := h.pos
  have harg : (argv.getD i []).length < 4096 := by
    rw [List.getD_eq_getElem?_getD]
    cases hget : argv[i]? with
    | none => exact Nat.zero_lt_succ _
    | some a => exact hargv a (List.mem_of_getElem? hget)
  have hdown : pushDown acc.1 ((argv.getD i []).length + 1) + ((argv.getD i []).length + 1) ≤
      acc.1 :=
    pushDown_le (by omega) (by omega)
  rw [pushArg]
  dsimp only
  split
  · exact (wp_pure _).mpr ⟨Touched.refl _ _ _, nofun⟩
  split
  · exact (wp_pure _).mpr ⟨Touched.refl _ _ _, nofun⟩
  · rw [wp_bind]
    refine (copyout_stack h (by omega) ?_ (by simp)).mono fun rc s' hcopy => ?_
    · rw [List.length_append, List.length_singleton]
      omega
    · obtain ⟨rfl, htouch⟩ := hcopy
      rw [if_neg (by decide), wp_pure]
      refine ⟨htouch, fun acc' hacc => ?_⟩
      cases hacc
      refine ⟨by simp, ?_⟩
      dsimp only
      omega

theorem length_wordBytes (words : List Nat) : (wordBytes words).length = 8 * words.length := by
  induction words with
  | nil => rfl
  | cons w words ih =>
    rw [wordBytes, List.flatMap_cons, List.length_append, ← wordBytes, ih, List.length_map,
      List.length_range, List.length_cons]
    omega

/-- The argument vectors that `sys_exec` builds. -/
structure ExecArgs (argv : List (List UInt8)) : Prop where
  length : argv.length < MAXARG
  arg : ∀ a ∈ argv, a.length < PGSIZE

theorem pushArgs_spec (h : Stack r n own s)
    (hargs : ExecArgs argv) :
    wp (pushArgs p r ((n + 1) * PGSIZE) argv) E (fun _ s' => Touched r own s s') s := by
  have htf := tfvpn_lt
  have hlt := h.lt
  have hpos := h.pos
  have hbase : sub64 ((n + 1) * PGSIZE) (USERSTACK * PGSIZE) = n * 4096 := by
    rw [sub64, show PGSIZE = 4096 from rfl, show USERSTACK = 1 from rfl]
    omega
  have hargc : argv.length < 32 := hargs.length
  rw [pushArgs, wp_bind, hbase]
  refine (wp_foldUntil (I := fun i acc t => Touched r own s t ∧ acc.2.length = i ∧
      n * 4096 ≤ acc.1 ∧ acc.1 ≤ (n + 1) * 4096)
    (R := fun _ t => Touched r own s t)
    ⟨Touched.refl _ _ _, rfl, by
      show n * 4096 ≤ (n + 1) * 4096
      omega, Nat.le_refl _⟩ fun i hi acc t hinv => ?_).mono fun res t hres => ?_
  · obtain ⟨htouch, hustack, hlo, hhi⟩ := hinv
    refine (pushArg_spec (h.touch htouch) hargs.arg hlo hhi).mono fun res t' hpush => ?_
    rcases res with u | acc'
    · exact htouch.trans hpush.1
    · obtain ⟨hlen, hlo', hhi'⟩ := hpush.2 acc' rfl
      exact ⟨htouch.trans hpush.1, by omega, hlo', hhi'⟩
  · rcases res with u | ⟨sp, ustack⟩
    · exact (wp_pure _).mpr hres
    · obtain ⟨htouch, hustack, hlo, hhi⟩ := hres
      have hdown : pushDown sp ((argv.length + 1) * 8) + (argv.length + 1) * 8 ≤ sp :=
        pushDown_le (by omega) (by omega)
      dsimp only at hustack ⊢
      split
      · exact (wp_pure _).mpr htouch
      · rw [wp_bind]
        refine (copyout_stack (h.touch htouch) (by omega) ?_ ?_).mono fun rc t' hcopy => ?_
        · rw [length_wordBytes, List.length_append, hustack, List.length_singleton]
          omega
        · rw [length_wordBytes, List.length_append, List.length_singleton]
          omega
        · split
          · exact (wp_pure _).mpr (htouch.trans hcopy.2)
          · exact (wp_pure _).mpr (htouch.trans hcopy.2)

/-! ## Leaving `kexec` -/

theorem execBad_spec (h : Owned own s) (hsp : Space own s r sz) :
    wp (execBad p r sz) E (fun res s' => res = (-1, p) ∧ ∃ own', Freed r own own' s s') s := by
  rw [execBad, wp_bind]
  refine (procFreepagetable_spec h hsp).mono fun _ s' hfree => ?_
  exact (wp_pure _).mpr ⟨rfl, hfree⟩

theorem execCommit_spec {elf : Elfhdr} {sp argc : Nat}
    (h : Owned own s) (hsp : Space own s p.pagetable p.sz) (htf : own p.trapframe = some .held) :
    wp (execCommit p path elf r sz sp argc) E (fun res s' =>
      res = ((argc : Int), { p with pagetable := r, sz := sz, name := progName path }) ∧
        ∃ s₁ own', Wrote p.trapframe s s₁ ∧ Freed p.pagetable own own' s₁ s') s := by
  rw [execCommit, setTrapframe, setTrapframe, setTrapframe, wp_bind]
  refine wp_setPage fun s₁ hw₁ => ?_
  rw [wp_bind]
  refine wp_setPage fun s₂ hw₂ => ?_
  rw [wp_bind]
  refine wp_setPage fun s₃ hw₃ => ?_
  have hw := (hw₁.trans hw₂).trans hw₃
  rw [wp_bind]
  refine (procFreepagetable_spec (hw.owned h htf) (hw.space h htf hsp)).mono fun _ s' hfree => ?_
  obtain ⟨own', hfree⟩ := hfree
  exact (wp_pure _).mpr ⟨rfl, s₃, own', hw, hfree⟩

/-- How `kexec` ends once the new page table `r` is there: the new page table is
freed, or the old one. -/
def ExecEnd (own : Owner) (p : UProc) (argc r : Nat) (s : Phys) (res : Int × UProc) (s' : Phys) :
    Prop :=
  ∃ own₁ s₁ own₂, Changed r own own₁ s s₁ ∧
    (res = (-1, p) ∧ Freed r own₁ own₂ s₁ s' ∨
      res.1 = argc ∧ res.2.pagetable = r ∧ res.2.trapframe = p.trapframe ∧
        Space own₁ s₁ r res.2.sz ∧ lookup s₁.mem r 0 = none ∧
        ∃ s₂, Wrote p.trapframe s₁ s₂ ∧ Freed p.pagetable own₁ own₂ s₂ s')

/-- The user stack on top of an image. -/
theorem Image.stack {own₁ : Owner} {s₁ s₂ : Phys} (h : Image base r sz own s)
    (halloc : Alloced r (npages sz) (npages sz + 2) (PTE_R ||| PTE_U ||| PTE_W) own own₁ s s₁)
    (hspace : Space own₁ s₁ r ((npages sz + 1 + 1) * PGSIZE)) (howned : Owned own₁ s₂) {e : Nat}
    (hlook : ∀ w, w < 2 ^ 27 → lookup s₂.mem r w =
      if w = npages sz then some (clearUser e) else lookup s₁.mem r w)
    (hentry : lookup s₁.mem r (npages sz) = some e) :
    Stack r (npages sz + 1) own₁ s₂ := by
  have htf := tfvpn_lt
  have hpos : 1 ≤ npages sz := by
    have := h.pos
    rw [npages, show PGSIZE = 4096 from rfl] at *
    omega
  have hpages := npages_le_of_le_trapframe hspace.sz_le
  rw [npages_mul] at hpages
  refine ⟨howned,
    hspace.resize hspace.root hspace.sz_le (fun v hv hsome => ?_) (fun v hge hv => ?_),
    ?_, by omega, ?_⟩
  · refine hspace.below v hv fun hnone => hsome ?_
    rw [hlook v (by omega)]
    split
    · rename_i hvn
      rw [hvn, hentry] at hnone
      cases hnone
    · exact hnone
  · rw [hlook v hv, if_neg (by omega)]
  · rw [hlook 0 (by omega), if_neg (by omega), halloc.kept 0 (by omega) (by omega)]
    exact h.null
  · obtain ⟨pa, -, -, htop, -⟩ := halloc.new (npages sz + 1) (by omega) (by omega)
    rw [hlook _ (by omega), if_neg (by omega), htop]
    refine ⟨_, rfl, ?_, ?_⟩
    · rw [isUser_mkPte pa (userPerm_lt (by decide))]
      exact isUser_userPerm _
    · rw [isWritable_mkPte pa (userPerm_lt (by decide))]
      decide

theorem execStack_spec {elf : Elfhdr}
    (h : Image base r sz own s) (hargs : ExecArgs argv) (hne : p.pagetable ≠ r)
    (hsp : Space own s p.pagetable p.sz) (htf : own p.trapframe = some .held) :
    wp (execStack p path elf argv r sz) E (ExecEnd own p argv.length r s) s := by
  have htop := trapframe_eq
  have htv : 2 ^ 25 < TFVPN := by decide
  have htv' : TFVPN < 2 ^ 26 := by decide
  have hsize : PGSIZE = 4096 := rfl
  have hsmall : npages sz ≤ 32769 := by
    have := le_imageCost (npages sz)
    have := h.supply
    have := h.small
    omega
  have hup : PGROUNDUP sz = npages sz * PGSIZE := PGROUNDUP_eq (by
    have := h.space.sz_le
    omega)
  have hnew : (npages sz * PGSIZE + (USERSTACK + 1) * PGSIZE) % 2 ^ 64 =
      (npages sz + 1 + 1) * PGSIZE := by
    rw [hsize, show USERSTACK = 1 from rfl]
    omega
  have hle : sz ≤ npages sz * PGSIZE := lt_of_npages_le (Nat.le_refl _)
  have hlarge : (npages sz + 1 + 1) * PGSIZE ≤ TRAPFRAME := by
    rw [hsize]
    omega
  have hspace : Space own s r (npages sz * PGSIZE) := h.space.grow hle (by rw [hsize]; omega)
  rw [execStack, hup, hnew, wp_bind]
  refine (uvmalloc_spec h.owned h.space.root (by rw [hsize]; omega) hlarge (by decide)
    (hspace.none_between hlarge)).mono fun sz₁ s₁ hres => ?_
  obtain ⟨own₁, ⟨rfl, halloc⟩ | ⟨rfl, hsame, -⟩⟩ := hres
  · have hspace₁ := (halloc.resized hspace (by rw [hsize]; omega) hlarge).space
    rw [npages_mul, npages_mul] at halloc
    obtain ⟨pa, -, -, hentry, -⟩ := halloc.new (npages sz) (by omega) (by omega)
    have hva : sub64 ((npages sz + 1 + 1) * PGSIZE) ((USERSTACK + 1) * PGSIZE) =
        npages sz * PGSIZE := by
      rw [sub64, hsize, show USERSTACK = 1 from rfl]
      omega
    rw [if_neg (by rw [hsize]; omega), wp_bind, hva]
    refine (uvmclear_spec halloc.owned halloc.root (by omega) hentry).mono fun _ s₂ hclear => ?_
    obtain ⟨howned₂, hframe₂, hlook₂⟩ := hclear
    have hstack := h.stack halloc hspace₁ howned₂ hlook₂ hentry
    have hchanged₂ : Changed r own own₁ s s₂ :=
      ⟨howned₂, (halloc.frame.trans hframe₂).widen nofun⟩
    rw [wp_bind]
    refine (pushArgs_spec hstack hargs).mono fun res s₃ htouch => ?_
    have hchanged := hchanged₂.trans (htouch.changed howned₂)
    have hstack₃ := hstack.touch htouch
    rcases res with u | sp
    · refine (execBad_spec hstack₃.owned hstack₃.space).mono fun res s₄ hbad => ?_
      obtain ⟨hres, own₂, hfree⟩ := hbad
      exact ⟨own₁, s₃, own₂, hchanged, .inl ⟨hres, hfree⟩⟩
    · have hframe : Frame r NoPage own own₁ s s₂ := halloc.frame.trans hframe₂
      have hsp₂ := hsp.frame hframe h.owned howned₂ hne
      have hsp₃ := hsp₂.frame htouch.frame howned₂ hstack₃.owned hne
      have htf₃ := (hframe.held _ htf not_false).1
      refine (execCommit_spec hstack₃.owned hsp₃ htf₃).mono fun res s₄ hcommit => ?_
      obtain ⟨rfl, s₅, own₂, hwrote, hfree⟩ := hcommit
      exact ⟨own₁, s₃, own₂, hchanged, .inr ⟨rfl, rfl, rfl, hstack₃.space, hstack₃.null, s₅, hwrote,
        hfree⟩⟩
  · rw [if_pos rfl]
    refine (execBad_spec hsame.owned (hsame.resized hspace fun _ => False).space).mono
      fun res s₂ hbad => ?_
    obtain ⟨hres, own₂, hfree⟩ := hbad
    exact ⟨own₁, s₁, own₂, ⟨hsame.owned, hsame.frame.widen nofun⟩, .inl ⟨hres, hfree⟩⟩

/-! ## `kexec` as a whole -/

/-- The loader reaches a segment with bytes for the first page of the image, when
the allocator has `supply` pages to give. -/
def LoadsNullPage (file : List UInt8) (supply : Nat) : Prop :=
  elfhdrSize ≤ file.length ∧ (elfhdrOf (readi file 0 elfhdrSize)).magic = ELF_MAGIC ∧
    ∃ i, i < (elfhdrOf (readi file 0 elfhdrSize)).phnum ∧
      NullHeader file (elfhdrOf (readi file 0 elfhdrSize)) i ∧
      (∀ j, j < i → Passes file (elfhdrOf (readi file 0 elfhdrSize)) j) ∧
      3 + imageCost (npages (imageEnd file (elfhdrOf (readi file 0 elfhdrSize)) (i + 1))) ≤ supply

theorem loadsNullPage_iff {file : List UInt8} {supply : Nat}
    (hlen : elfhdrSize ≤ file.length)
    (hmagic : (elfhdrOf (readi file 0 elfhdrSize)).magic = ELF_MAGIC)
    (hsupply : supply = base + 3) :
    LoadsNullPage file supply ↔ NullLoad file (elfhdrOf (readi file 0 elfhdrSize))
      (elfhdrOf (readi file 0 elfhdrSize)).phnum base := by
  constructor
  · rintro ⟨-, -, i, hi, hnull, hpass, hcost⟩
    exact ⟨i, hi, hnull, hpass, by omega⟩
  · rintro ⟨i, hi, hnull, hpass, hcost⟩
    exact ⟨hlen, hmagic, i, hi, hnull, hpass, by omega⟩

/-- A page table that has just been made is an image of one page. -/
theorem NewSpace.image {tf : Nat} {own' : Owner} (h : NewSpace r tf own own' s s') :
    Image s'.supply r PGSIZE own' s' := by
  have htf : 2 ^ 25 < TFVPN := by decide
  have hone : npages PGSIZE = 1 := by decide
  refine ⟨h.owned, h.space (by decide), Nat.le_refl _, ?_, fun v hv hlt => ?_, fun l b => ?_, ?_,
    h.owned.supply_le⟩
  · rw [h.entry 0 (by decide), if_neg (by omega), if_neg (by omega)]
  · omega
  · rw [h.tables, hone, ImageTable]
    exact ⟨.inl, fun hor => hor.resolve_right fun hand => absurd hand.1 (by decide)⟩
  · rw [hone]
    rfl

/-- What `kexec` does to the memory: nothing, or there is a new address space
whose first page is not mapped, and the old one is freed. -/
def ExecPost (own : Owner) (p : UProc) (argc : Nat) (s : Phys) (res : Int × UProc) (s' : Phys) :
    Prop :=
  res = (-1, p) ∧ (∃ own', Kept own own' s s') ∨
    res.1 = argc ∧ res.2.trapframe = p.trapframe ∧ own res.2.pagetable = some .free ∧
      ∃ own₁ s₁ s₂ own₂, Owned own₁ s₁ ∧ Frame res.2.pagetable NoPage own own₁ s s₁ ∧
        Space own₁ s₁ res.2.pagetable res.2.sz ∧ lookup s₁.mem res.2.pagetable 0 = none ∧
        Wrote p.trapframe s₁ s₂ ∧ Freed p.pagetable own₁ own₂ s₂ s'

/-- The memory of a process, and what `kexec` needs besides. -/
structure ProcOk (own : Owner) (s : Phys) (p : UProc) : Prop where
  owned : Owned own s
  trampoline : s.trampoline < PHYSTOP
  space : Space own s p.pagetable p.sz
  trapframe : own p.trapframe = some .held

/-- The ends of `kexec` with a new page table. -/
theorem ExecEnd.post {own₁ : Owner} {s₁ : Phys} {argc tf : Nat} {res : Int × UProc}
    (h : ExecEnd own₁ p argc r s₁ res s') (hs : Owned own s)
    (hnew : NewSpace r tf own own₁ s s₁) : ExecPost own p argc s res s' := by
  obtain ⟨own₂, s₂, own₃, hchanged, hres⟩ := h
  have hframe := hnew.frame.forget hs hnew.free hchanged.frame
  rcases hres with ⟨rfl, hfree⟩ | ⟨hargc, rfl, htf, hsp, hnull, s₃, hwrote, hfree⟩
  · exact .inl ⟨rfl, own₃, hfree.kept hs hnew.free hframe⟩
  · exact .inr ⟨hargc, htf, hnew.free, own₂, s₂, s₃, own₃, hchanged.owned, hframe, hsp, hnull,
      hwrote, hfree⟩

theorem kexec_spec {file : Option (List UInt8)} (h : ProcOk own s p) (hargs : ExecArgs argv)
    (hlen : ∀ f, file = some f → f.length < 2 ^ 32)
    (hE : ∀ f, file = some f → LoadsNullPage f s.supply → E .loadseg) :
    wp (kexec p path file argv) E (fun res s' => ExecPost own p argv.length s res s' ∧
      ∀ f, file = some f → ¬ LoadsNullPage f s.supply) s := by
  have hstay : ExecPost own p argv.length s (-1, p) s :=
    .inl ⟨rfl, own, h.owned, fun r => Frame.refl _ _ _ _⟩
  rcases file with _ | file
  · rw [kexec, wp_pure]
    exact ⟨hstay, nofun⟩
  have hlen := hlen file rfl
  have hE := hE file rfl
  suffices hsuff : wp (kexec p path (some file) argv) E (fun res s' =>
      ExecPost own p argv.length s res s' ∧ ¬ LoadsNullPage file s.supply) s by
    refine hsuff.mono fun res s' hres => ⟨hres.1, fun f hf => ?_⟩
    cases hf
    exact hres.2
  rw [kexec]
  dsimp only
  by_cases hread : (readi file 0 elfhdrSize).length = elfhdrSize
  · have hfull : elfhdrSize ≤ file.length := by
      have := (readi_length_iff hlen (by decide) (by decide)).mp hread
      omega
    rw [if_neg (not_not.mpr hread)]
    by_cases hmagic : (elfhdrOf (readi file 0 elfhdrSize)).magic = ELF_MAGIC
    · rw [if_neg (not_not.mpr hmagic), wp_bind]
      refine (procPagetable_spec h.owned h.trampoline h.trapframe).mono fun r s₁ hnew => ?_
      obtain ⟨own₁, ⟨rfl, hfew, hkept⟩ | ⟨hr, hnew⟩⟩ := hnew
      · rw [if_pos rfl, wp_pure]
        refine ⟨.inl ⟨rfl, own₁, hkept⟩, ?_⟩
        rintro ⟨-, -, i, -, -, -, hcost⟩
        omega
      · have hiff := loadsNullPage_iff hfull hmagic hnew.supply
        rw [if_neg hr, wp_bind]
        refine (loadSegments_spec hnew.image hlen fun hnull => hE (hiff.mpr hnull)).mono
          fun res s₂ hload => ?_
        obtain ⟨hno, own₂, hchanged, hres⟩ := hload
        rw [hiff]
        have hne : p.pagetable ≠ r := ne_of_role h.space.root hnew.free nofun
        rcases res with sz | sz
        · refine (execBad_spec hchanged.owned hres).mono fun res s₃ hbad => ?_
          obtain ⟨rfl, own₃, hfree⟩ := hbad
          exact ⟨ExecEnd.post ⟨own₂, s₂, own₃, hchanged, .inl ⟨rfl, hfree⟩⟩ h.owned hnew, hno⟩
        · have hsp₂ := (h.space.frame hnew.frame h.owned hnew.owned hne).frame hchanged.frame
            hnew.owned hchanged.owned hne
          have htf₁ := (hnew.frame.held _ h.trapframe not_false).1
          have htf₂ := (hchanged.frame.held _ htf₁ (by
            rintro ⟨v, hv⟩
            rw [htf₁] at hv
            cases hv)).1
          refine (execStack_spec hres hargs hne hsp₂ htf₂).mono fun res s₃ hend => ?_
          obtain ⟨own₃, s₄, own₄, hchanged', hend⟩ := hend
          exact ⟨ExecEnd.post ⟨own₃, s₄, own₄, hchanged.trans hchanged', hend⟩ h.owned hnew, hno⟩
    · rw [if_pos hmagic, wp_pure]
      exact ⟨hstay, fun hnull => hmagic hnull.2.1⟩
  · rw [if_pos hread, wp_pure]
    refine ⟨hstay, fun hnull => hread ?_⟩
    exact (readi_length_iff hlen (by decide) (by decide)).mpr (by
      have := hnull.1
      omega)

end Xv6.Vm
