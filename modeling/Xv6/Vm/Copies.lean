import Xv6.Vm.Ops
import Xv6.Vm.UserMem

/-!
# Copies between the kernel and the user

`copyout` and `copyin` go through a range of user addresses page by page: each page
is looked up, faulted in if need be, and checked once more before the bytes in it
are copied.

* `UserTable`: the pages from the trapframe on are not the user's.
* `Serves`: `vmfault` maps pages of the range in the table that it tests.
* `Transfer`: some bytes were copied, the pages that faulted are fresh ones, and
  nothing else changed.  Its steps are `Transfer.same`, `Transfer.fault`,
  `Transfer.read` and `Transfer.write`.
* `Inaccessible`: why a copy ends early; `CopyEnd`: how a copy ends.
* `copyoutLoop_exact`, `copyinLoop_exact`: what the loops do.
-/

namespace Xv6.Vm

open Xv6.Lib.Bytes Xv6.Lib.Wp
open Function (update update_of_ne update_self)

variable {len v x : Nat}

variable {E : Panic → Prop} {own own' : Owner} {s s' : Phys} {pt : Nat}

/-! ## What a user sees, by the roles of pages -/

/-- The page table `pt` shows the user pages below `TRAPFRAME` only. -/
structure UserTable (own : Owner) (s : Phys) (pt : Nat) : Prop where
  root : Root own pt
  special : ∀ v e, TFVPN ≤ v → v < 2 ^ 27 → lookup s.mem pt v = some e → isUser e = false

theorem Space.userTable {sz : Nat} (h : Space own s pt sz) : UserTable own s pt :=
  ⟨h.root, h.special⟩

theorem UserTable.kept (h : UserTable own s pt) (hr : Root own' pt)
    (hkept : ∀ v, TFVPN ≤ v → v < 2 ^ 27 → lookup s'.mem pt v = lookup s.mem pt v) :
    UserTable own' s' pt :=
  ⟨hr, fun v e hge hv he => h.special v e hge hv ((hkept v hge hv).symm.trans he)⟩

theorem UserTable.lt (h : UserTable own s pt) {e : Nat} (hv : v < 2 ^ 27)
    (he : lookup s.mem pt v = some e) (huser : isUser e = true) : v < TFVPN := by
  by_contra hge
  rw [h.special v e (by omega) hv he] at huser
  cases huser

theorem vpn_lt_of_lt_maxva (h : x < MAXVA) : x / 4096 < 2 ^ 26 := by
  rw [show MAXVA = 2 ^ 26 * 4096 from rfl] at h
  omega

/-- A user entry shows its page. -/
theorem UserTable.userPa_eq (h : UserTable own s pt) (hs : Owned own s) {e : Nat}
    (hx : x / 4096 < 2 ^ 27) (he : lookup s.mem pt (x / 4096) = some e) (huser : isUser e = true) :
    userPa s.mem pt x = PTE2PA e ∧ own (PTE2PA e) = some (.user pt (x / 4096)) ∧ PTE2PA e ≠ 0 := by
  have hown := hs.page_of_lookup h.root (h.lt hx he huser) he
  have hlt := (hs.leaf_of_lookup h.root hx he).2.1
  have hmax : x < MAXVA := by
    rw [show MAXVA = 2 ^ 26 * 4096 from rfl]
    omega
  obtain ⟨hvalid, heq⟩ := lookup_eq_some.mp he
  rw [← heq] at huser hown ⊢
  exact ⟨if_pos ⟨hmax, hvalid, huser⟩, hown, hs.pos hown⟩

/-- What the user sees is the page of a user entry. -/
theorem UserTable.of_userPa (h : UserTable own s pt) (hs : Owned own s)
    (hne : userPa s.mem pt x ≠ 0) :
    ∃ e, lookup s.mem pt (x / 4096) = some e ∧ isUser e = true ∧ userPa s.mem pt x = PTE2PA e ∧
      own (PTE2PA e) = some (.user pt (x / 4096)) := by
  have hmax := vpn_lt_of_lt_maxva (lt_maxva_of_userPa hne)
  by_cases hseen : isValid (pteOf s.mem pt (x / 4096)) = true ∧
    isUser (pteOf s.mem pt (x / 4096)) = true
  · have he : lookup s.mem pt (x / 4096) = some (pteOf s.mem pt (x / 4096)) :=
      lookup_eq_some.mpr ⟨hseen.1, rfl⟩
    obtain ⟨heq, hown, -⟩ := h.userPa_eq hs (by omega) he hseen.2
    exact ⟨_, he, hseen.2, heq, hown⟩
  · exact absurd (if_neg fun hall => hseen hall.2) hne

/-- The page that the user sees depends on the entry only. -/
theorem userPa_of_lookup {mem mem' : Nat → Nat → UInt8}
    (h : lookup mem' pt (x / 4096) = lookup mem pt (x / 4096)) :
    userPa mem' pt x = userPa mem pt x := by
  cases hl : lookup mem pt (x / 4096) with
  | none =>
    have hno := lookup_eq_none.mp hl
    have hno' := lookup_eq_none.mp (h.trans hl)
    rw [userPa, userPa, if_neg (by simp [hno']), if_neg (by simp [hno])]
  | some e =>
    have he := lookup_eq_some.mp hl
    have he' := lookup_eq_some.mp (h.trans hl)
    rw [userPa, userPa, he.2, he'.2]

/-- The byte that the user sees depends on the entry and on the page. -/
theorem UserTable.userByte_congr (h : UserTable own s pt) (hs : Owned own s)
    (hlook : x / 4096 < 2 ^ 27 → lookup s'.mem pt (x / 4096) = lookup s.mem pt (x / 4096))
    (hmem : ∀ q, own q = some (.user pt (x / 4096)) → s'.mem q = s.mem q) :
    userByte s'.mem pt x = userByte s.mem pt x := by
  by_cases hmax : x < MAXVA
  · have hpa : userPa s'.mem pt x = userPa s.mem pt x :=
      userPa_of_lookup (hlook (Nat.lt_trans (vpn_lt_of_lt_maxva hmax) (by decide)))
    by_cases hzero : userPa s.mem pt x = 0
    · rw [userByte_eq_none.mpr hzero, userByte_eq_none.mpr (hpa.trans hzero)]
    · obtain ⟨e, -, -, heq, hown⟩ := h.of_userPa hs hzero
      rw [userByte_of_ne (hpa.trans_ne hzero), userByte_of_ne hzero, hpa, heq, hmem _ hown]
  · rw [userByte_eq_none.mpr (if_neg fun hall => hmax hall.1),
      userByte_eq_none.mpr (if_neg fun hall => hmax hall.1)]

/-- The bytes of a page that is not mapped. -/
theorem userView_of_none {mem : Nat → Nat → UInt8} (h : lookup mem pt (x / 4096) = none) :
    userView mem pt x = 0 := by
  have hno := lookup_eq_none.mp h
  have hzero : userPa mem pt x = 0 := if_neg (by simp [hno])
  rw [userView, userByte_eq_none.mpr hzero]
  rfl

theorem Same.userByte_eq (h : Same pt own own' s s') (hs : Owned own s) (ht : UserTable own s pt)
    (x : Nat) : userByte s'.mem pt x = userByte s.mem pt x :=
  ht.userByte_congr hs (h.kept _) fun q hq => (h.frame.user q pt _ hq id).2

section Write

variable {d e k : Nat} {src : Nat → UInt8}

/-- A store to a user page of `pt`. -/
theorem frame_setUserPage {pa : Nat} (hpa : own pa = some (.user pt v)) (page : Nat → UInt8) :
    Frame pt (· = pa) own own s { s with mem := update s.mem pa page } where
  kend := rfl
  trampoline := rfl
  dom _ := Iff.rfl
  outside q hq := update_of_ne (ne_of_none hq hpa) _ _
  newHeld _ := .inl
  table q r l b _ hq := by
    refine ⟨hq, update_of_ne ?_ _ _⟩
    rintro rfl
    rw [hq] at hpa
    cases hpa
  newTable _ _ _ _ _ := id
  held q hq hne := ⟨hq, update_of_ne hne _ _⟩
  user q r v hq hne := ⟨hq, update_of_ne hne _ _⟩

/-- A store to bytes of one user page, as the user sees it. -/
theorem UserTable.userView_write (h : UserTable own s pt) (hs : Owned own s)
    (hd : d / 4096 < 2 ^ 27) (he : lookup s.mem pt (d / 4096) = some e) (huser : isUser e = true)
    (hk : d % 4096 + k ≤ 4096) (x : Nat) :
    userView (update s.mem (PTE2PA e) (copyBytes (s.mem (PTE2PA e)) (d % 4096) src 0 k)) pt x =
      copyBytes (userView s.mem pt) d src 0 k x := by
  obtain ⟨-, hown, -⟩ := h.userPa_eq hs hd he huser
  have htouch := touched_setPage (s := s) hown (copyBytes (s.mem (PTE2PA e)) (d % 4096) src 0 k)
  by_cases hpage : x / 4096 = d / 4096
  · have hx : lookup s.mem pt (x / 4096) = some e := by
      rw [hpage]
      exact he
    obtain ⟨hpa, -, hne⟩ := h.userPa_eq hs (hpage ▸ hd) hx huser
    have hpa' := (userPa_of_lookup (htouch.lookup_eq hs h.root (hpage ▸ hd))).trans hpa
    have hview : userView s.mem pt x = s.mem (PTE2PA e) (x % 4096) := by
      rw [userView, userByte_of_ne (hpa.trans_ne hne), hpa]
      rfl
    dsimp only at hpa'
    rw [userView, userByte_of_ne (hpa'.trans_ne hne), hpa', update_self,
      Option.getD_some, copyBytes, copyBytes, hview]
    by_cases hin : d ≤ x ∧ x < d + k
    · rw [if_pos hin, if_pos (by omega), show x % 4096 - d % 4096 = x - d by omega]
    · rw [if_neg hin, if_neg (by omega)]
  · have hsame :=
      h.userByte_congr hs (x := x) (fun hx => htouch.lookup_eq hs h.root hx) fun q hq => by
      refine update_of_ne ?_ _ _
      rintro rfl
      rw [hown, Option.some.injEq] at hq
      exact hpage (Role.user.inj hq).2.symm
    dsimp only at hsame
    rw [userView, hsame, copyBytes, if_neg (by omega), userView]

end Write

/-! ## Transfers -/

/-- A fault mapped the page `v` of the process. -/
structure Faulted (p : UProc) (pt v : Nat) (s s' : Phys) : Prop where
  table : pt = p.pagetable
  pos : 1 ≤ v
  lt : v * PGSIZE < p.sz
  none : lookup s.mem pt v = none
  fresh : ∃ pa, lookup s'.mem pt v = some (mkPte pa (PTE_W ||| PTE_U ||| PTE_R))

/-- From `s` to `s'` the first `n` bytes at the user address `a` were copied, all of
them in user pages whose entries pass `acc`.  The user sees the bytes `w` now.  Only
the pages in `H` were written to, and only faults mapped new pages. -/
structure Transfer (p : UProc) (pt : Nat) (acc : Nat → Bool) (a n : Nat) (H : Nat → Prop)
    (w : Nat → UInt8) (own own' : Owner) (s s' : Phys) : Prop where
  owned : Owned own' s'
  table : UserTable own' s' pt
  frame : Frame pt H own own' s s'
  entry : ∀ v, v < 2 ^ 27 → lookup s'.mem pt v = lookup s.mem pt v ∨ Faulted p pt v s s'
  access : ∀ i, i < n → ∃ e, (a + i) / 4096 < 2 ^ 27 ∧
    lookup s'.mem pt ((a + i) / 4096) = some e ∧ isUser e = true ∧ acc e = true
  view : ∀ x, userView s'.mem pt x = w x

section Transfer

variable {p : UProc} {acc : Nat → Bool} {a n : Nat} {H : Nat → Prop} {w : Nat → UInt8}
  {own'' : Owner} {s'' : Phys}

theorem Transfer.refl (h : Owned own s) (ht : UserTable own s pt) (p : UProc) (acc : Nat → Bool)
    (a : Nat) (H : Nat → Prop) : Transfer p pt acc a 0 H (userView s.mem pt) own own s s :=
  ⟨h, ht, Frame.refl _ _ _ _, fun _ _ => .inl rfl, nofun, fun _ => rfl⟩

/-- Entries that an operation keeps are still those of before or faulted. -/
theorem Transfer.entry_kept (h : Transfer p pt acc a n H w own own' s s') (hv : v < 2 ^ 27)
    (hkept : lookup s''.mem pt v = lookup s'.mem pt v) :
    lookup s''.mem pt v = lookup s.mem pt v ∨ Faulted p pt v s s'' := by
  rcases h.entry v hv with heq | hfault
  · exact .inl (hkept.trans heq)
  · obtain ⟨pa, hpa⟩ := hfault.fresh
    exact .inr { hfault with fresh := ⟨pa, hkept.trans hpa⟩ }

theorem Transfer.same (h : Transfer p pt acc a n H w own own' s s')
    (hsame : Same pt own' own'' s' s'') : Transfer p pt acc a n H w own own'' s s'' where
  owned := hsame.owned
  table := h.table.kept hsame.root fun v _ hv => hsame.kept v hv
  frame := h.frame.trans (hsame.frame.widen nofun)
  entry v hv := h.entry_kept hv (hsame.kept v hv)
  access i hi := by
    obtain ⟨e, hlt, he⟩ := h.access i hi
    rw [← hsame.kept _ hlt] at he
    exact ⟨e, hlt, he⟩
  view x := by
    rw [← h.view x, userView, userView, hsame.userByte_eq h.owned h.table]

/-- A fault shows the user a page of zeros where there was nothing. -/
theorem Transfer.fault {va pa : Nat} (h : Transfer p pt acc a n H w own own' s s')
    (hpt : pt = p.pagetable) (hcan : CanFault p pt s' (va / 4096 * PGSIZE))
    (hfresh : Fresh pt (va / 4096) pa (PTE_W ||| PTE_U ||| PTE_R) (fun _ => 0) own' own'' s' s'') :
    Transfer p pt acc a n H w own own'' s s'' := by
  obtain ⟨hlow, hhigh, hnone⟩ := hcan
  have hsize : PGSIZE = 4096 := rfl
  have htv := tfvpn_lt
  have hv : va / 4096 < TFVPN := (hfresh.owned.user pa pt _ hfresh.user).1
  replace hnone := hnone (vpn_lt_maxva (by omega))
  rw [vpn_div] at hnone
  have hpos : 1 ≤ va / 4096 := by
    rw [hsize] at hlow
    omega
  have hcases : ∀ v, v < 2 ^ 27 → lookup s''.mem pt v = lookup s'.mem pt v ∨ v = va / 4096 := by
    intro v hv
    by_cases heq : v = va / 4096
    · exact .inr heq
    · exact .inl (hfresh.kept v hv heq)
  have hkept : ∀ v, TFVPN ≤ v → v < 2 ^ 27 → lookup s''.mem pt v = lookup s'.mem pt v :=
    fun v hge hlt => hfresh.kept v hlt (by omega)
  have htable := h.table.kept hfresh.root hkept
  refine ⟨hfresh.owned, htable, h.frame.trans (hfresh.frame.widen nofun), fun v hlt => ?_,
    fun i hi => ?_, fun x => ?_⟩
  · rcases hcases v hlt with hsame | rfl
    · exact h.entry_kept hlt hsame
    · refine .inr ⟨hpt, hpos, hhigh, ?_, pa, hfresh.entry⟩
      rcases h.entry _ hlt with heq | hfault
      · exact heq.symm.trans hnone
      · exact hfault.none
  · obtain ⟨e, hlt, he⟩ := h.access i hi
    rcases hcases _ hlt with hsame | heq
    · exact ⟨e, hlt, hsame.trans he.1, he.2⟩
    · rw [heq, hnone] at he
      cases he.1
  · rw [← h.view x]
    by_cases heq : x / 4096 = va / 4096
    · have he : lookup s''.mem pt (x / 4096) = some (mkPte pa (PTE_W ||| PTE_U ||| PTE_R)) := by
        rw [heq]
        exact hfresh.entry
      have huser : isUser (mkPte pa (PTE_W ||| PTE_U ||| PTE_R)) = true := by
        rw [isUser_mkPte pa (by decide)]
        decide
      obtain ⟨hpa, hown, hne⟩ := htable.userPa_eq hfresh.owned (by omega) he huser
      have hpage : PTE2PA (mkPte pa (PTE_W ||| PTE_U ||| PTE_R)) = pa :=
        hfresh.owned.user_inj hown (heq ▸ hfresh.user)
      have hzero : lookup s'.mem pt (x / 4096) = none := by
        rw [heq]
        exact hnone
      rw [userView_of_none hzero, userView, userByte_of_ne (hpa.trans_ne hne), hpa, hpage,
        hfresh.mem]
      rfl
    · rw [userView, userView, h.table.userByte_congr h.owned
        (fun hx => hfresh.kept _ hx heq) fun q hq => (hfresh.frame.user q pt _ hq id).2]

/-- The bytes up to the end of a page that passes are read. -/
theorem Transfer.read {e k : Nat} (h : Transfer p pt acc a n H w own own' s s')
    (hlt : (a + n) / 4096 < 2 ^ 27) (he : lookup s'.mem pt ((a + n) / 4096) = some e)
    (huser : isUser e = true) (hacc : acc e = true) (hk : (a + n) % 4096 + k ≤ 4096) :
    Transfer p pt acc a (n + k) H w own own' s s' := by
  refine { h with access := fun i hi => ?_ }
  by_cases hold : i < n
  · exact h.access i hold
  · have heq : (a + i) / 4096 = (a + n) / 4096 := by omega
    rw [heq]
    exact ⟨e, hlt, he, huser, hacc⟩

/-- The pages at the first `n` bytes from `a` that are user pages and pass `acc`. -/
def Target (s : Phys) (pt : Nat) (acc : Nat → Bool) (a n q : Nat) : Prop :=
  ∃ i e, i < n ∧ lookup s.mem pt ((a + i) / 4096) = some e ∧ isUser e = true ∧ acc e = true ∧
    PTE2PA e = q

theorem Target.mono {m q : Nat} (h : Target s pt acc a n q) (hle : n ≤ m) :
    Target s pt acc a m q := by
  obtain ⟨i, e, hi, he⟩ := h
  exact ⟨i, e, by omega, he⟩

/-- The bytes up to the end of a page that passes are written. -/
theorem Transfer.write {e k : Nat} (src : Nat → UInt8)
    (h : Transfer p pt acc a n (Target s pt acc a n) w own own' s s') (hs : Owned own s)
    (hlt : (a + n) / 4096 < 2 ^ 27) (he : lookup s'.mem pt ((a + n) / 4096) = some e)
    (huser : isUser e = true) (hacc : acc e = true) (hk : (a + n) % 4096 + k ≤ 4096)
    (hpos : 0 < k) :
    Transfer p pt acc a (n + k) (Target s pt acc a (n + k)) (copyBytes w (a + n) src 0 k) own own' s
      { s' with
        mem := update s'.mem (PTE2PA e)
          (copyBytes (s'.mem (PTE2PA e)) ((a + n) % 4096) src 0 k) } := by
  have hread := h.read hlt he huser hacc hk
  obtain ⟨-, hown, -⟩ := h.table.userPa_eq h.owned hlt he huser
  have htouch := touched_setPage (s := s') hown
    (copyBytes (s'.mem (PTE2PA e)) ((a + n) % 4096) src 0 k)
  have hkept := fun v (hv : v < 2 ^ 27) => htouch.lookup_eq h.owned h.table.root hv
  refine ⟨htouch.owned h.owned, h.table.kept h.table.root fun v _ hv => hkept v hv, ?_,
    fun v hv => h.entry_kept hv (hkept v hv), fun i hi => ?_, fun x => ?_⟩
  · have hbefore : Frame pt (fun q => Target s pt acc a (n + k) q ∨ q = PTE2PA e) own own' s s' :=
      h.frame.widen fun q hq => .inl (hq.mono (Nat.le_add_right n k))
    refine (hbefore.trans ((frame_setUserPage hown _).widen fun q => .inr)).narrow fun q hq => ?_
    rcases hq with hq | rfl
    · exact .inl hq
    by_cases htarget : Target s pt acc a (n + k) (PTE2PA e)
    · exact .inl htarget
    -- a page that was in use before and is now at `a + n` was there from the start
    have hold : ¬ Target s pt acc a n (PTE2PA e) :=
      fun ht => htarget (ht.mono (Nat.le_add_right n k))
    refine .inr ⟨fun hheld => ?_, fun r v huser' => ?_⟩
    · rw [(h.frame.held _ hheld hold).1] at hown
      cases hown
    · have hrole := (h.frame.user _ r v huser' hold).1
      rw [hown, Option.some.injEq] at hrole
      obtain ⟨rfl, rfl⟩ := Role.user.inj hrole
      obtain ⟨-, q, hq, hvalid, hpa⟩ := hs.user _ _ _ huser'
      have hentry : lookup s.mem pt ((a + n) / 4096) ≠ none := by
        rw [Ne, lookup_eq_none, hs.pteOf_eq hq, hvalid]
        exact nofun
      rcases h.entry _ hlt with heq | hfault
      · exact htarget ⟨n, e, by omega, heq.symm.trans he, huser, hacc, rfl⟩
      · exact hentry hfault.none
  · obtain ⟨e', hlt', he'⟩ := hread.access i hi
    exact ⟨e', hlt', (hkept _ hlt').trans he'.1, he'.2⟩
  · have hview : userView s'.mem pt = w := funext h.view
    rw [← hview]
    exact h.table.userView_write h.owned hlt he huser hk x

end Transfer

/-! ## The pages of a range -/

/-- A page of the `len` bytes from `a` that passes the tests of `vmfault` is one below
`TRAPFRAME`, and `pt` is the table of the process: `vmfault` looks the page up in `pt`
but maps it in the table of the process.  The kernel uses another table only for the
arguments of a new image, whose stack it has mapped. -/
def Serves (p : UProc) (pt : Nat) (s : Phys) (a len : Nat) : Prop :=
  ∀ i, i < len → CanFault p pt s (PGROUNDDOWN (a + i)) →
    pt = p.pagetable ∧ PGROUNDDOWN (a + i) < TRAPFRAME

theorem serves_of_own {p : UProc} (hsz : p.sz ≤ TRAPFRAME) (a len : Nat) :
    Serves p p.pagetable s a len :=
  fun _ _ hcan => ⟨rfl, Nat.lt_of_lt_of_le hcan.2.1 hsz⟩

/-- The copy cannot go on at `x`: the address is too large, or the page is not one of
the user or does not pass `acc`, or it is not mapped and a fault does not help. -/
def Inaccessible (p : UProc) (pt : Nat) (acc : Nat → Bool) (own : Owner) (s : Phys)
    (x : Nat) : Prop :=
  MAXVA ≤ x ∨
  (∃ e, lookup s.mem pt (x / 4096) = some e ∧ (isUser e = false ∨ acc e = false)) ∨
  lookup s.mem pt (x / 4096) = none ∧
    (CanFault p pt s (x / 4096 * PGSIZE) → s.supply < 1 + tableCost own pt (x / 4096))

section Loops

variable {p : UProc} {acc : Nat → Bool} {a n : Nat} {H : Nat → Prop} {w : Nat → UInt8}
  {own₁ : Owner} {s₁ : Phys}

theorem inaccessible_of_userPa (h : Owned own s) (ht : UserTable own s pt)
    (hzero : userPa s.mem pt x = 0)
    (hfault : CanFault p pt s (x / 4096 * PGSIZE) →
      s.supply < 1 + tableCost own pt (x / 4096)) :
    Inaccessible p pt acc own s x := by
  by_cases hmax : MAXVA ≤ x
  · exact .inl hmax
  have hx := vpn_lt_of_lt_maxva (Nat.lt_of_not_le hmax)
  cases he : lookup s.mem pt (x / 4096) with
  | none => exact .inr (.inr ⟨he, hfault⟩)
  | some e =>
    refine .inr (.inl ⟨e, he, .inl ?_⟩)
    by_contra huser
    obtain ⟨hpa, -, hne⟩ := ht.userPa_eq h (by omega) he (Bool.eq_true_of_not_eq_false huser)
    exact hne (hpa.symm.trans hzero)

/-- One page of a copy: it is there, it was faulted in and may be written to, or the
copy cannot go on. -/
theorem Transfer.userPage_spec (h : Transfer p pt acc a n H w own own₁ s s₁)
    (hserve : CanFault p pt s (PGROUNDDOWN (a + n)) →
      pt = p.pagetable ∧ PGROUNDDOWN (a + n) < TRAPFRAME) :
    wp (userPage p pt (PGROUNDDOWN (a + n))) E (fun pa s₂ => ∃ own₂,
      pa ≠ 0 ∧ Transfer p pt acc a n H w own own₂ s s₂ ∧ (a + n) / 4096 < 2 ^ 26 ∧
        (∃ e, lookup s₂.mem pt ((a + n) / 4096) = some e ∧ isUser e = true ∧ PTE2PA e = pa ∧
          (own₂ = own₁ ∧ s₂ = s₁ ∨ isWritable e = true)) ∨
      pa = 0 ∧ Same pt own₁ own₂ s₁ s₂ ∧ Inaccessible p pt acc own₁ s₁ (a + n)) s₁ := by
  rw [userPage, wp_bind, walkaddr_user, userPa_pgrounddown]
  by_cases hzero : userPa s₁.mem pt (a + n) = 0
  · rw [if_pos hzero]
    have hdiv : PGROUNDDOWN (a + n) = (a + n) / 4096 * PGSIZE := rfl
    -- a page without an entry now had none at the start
    have hold : CanFault p pt s₁ (PGROUNDDOWN (a + n)) → CanFault p pt s (PGROUNDDOWN (a + n)) := by
      refine fun hcan => ⟨hcan.1, hcan.2.1, fun hlt => ?_⟩
      have hx := vpn_lt_of_lt_maxva hlt
      rcases h.entry (PGROUNDDOWN (a + n) / 4096) (by omega) with heq | hfault
      · exact heq.symm.trans (hcan.2.2 hlt)
      · exact hfault.none
    refine (vmfault_cases h.owned h.table.root fun hcan => hserve (hold hcan)).mono
      fun pa s₂ hpost => ?_
    rw [hdiv] at hserve hold
    rw [hdiv, vpn_div] at hpost
    obtain ⟨own₂, ⟨hne, hcan, hfresh⟩ | ⟨hpa, hsame, hfull⟩⟩ := hpost
    · have hpt := (hserve (hold hcan)).1
      have hperm : PTE_W ||| PTE_U ||| PTE_R < 1024 := by decide
      have hpage : PTE2PA (mkPte pa (PTE_W ||| PTE_U ||| PTE_R)) = pa :=
        PTE2PA_mkPte (hfresh.owned.pageAddr hfresh.user) hperm
      have hlt := (hfresh.owned.user pa pt _ hfresh.user).1
      have htf := tfvpn_lt
      refine ⟨own₂, .inl ⟨hne, h.fault hpt hcan hfresh, by omega, _, hfresh.entry, ?_, hpage,
        .inr ?_⟩⟩
      · rw [isUser_mkPte pa hperm]
        decide
      · rw [isWritable_mkPte pa hperm]
        decide
    · exact ⟨own₂, .inr ⟨hpa, hsame, inaccessible_of_userPa h.owned h.table hzero hfull⟩⟩
  · rw [if_neg hzero, wp_pure]
    obtain ⟨e, he, huser, heq, -⟩ := h.table.of_userPa h.owned hzero
    exact ⟨own₁,
      .inl ⟨hzero, h, vpn_lt_of_lt_maxva (lt_maxva_of_userPa hzero), e, he, huser, heq.symm,
      .inl ⟨rfl, rfl⟩⟩⟩

/-- A copy of `len` bytes returned `rc` after `n` of them: 0 after all of them, or -1
at the first byte of a page where it cannot go on.  `T` holds when the `n` bytes are
copied. -/
def Stops (p : UProc) (pt : Nat) (acc : Nat → Bool) (a len n : Nat) (T : Owner → Phys → Prop)
    (rc : Int) (own' : Owner) (s' : Phys) : Prop :=
  rc = 0 ∧ n = len ∨
  rc = -1 ∧ n < len ∧ (n = 0 ∨ (a + n) % 4096 = 0) ∧
    ∃ own₁ s₁, T own₁ s₁ ∧ Inaccessible p pt acc own₁ s₁ (a + n) ∧ Same pt own₁ own' s₁ s'

/-- How a copy of `len` bytes ends. -/
def CopyEnd (p : UProc) (pt : Nat) (acc : Nat → Bool) (a len : Nat) (T : Nat → Owner → Phys → Prop)
    (rc : Int) (s' : Phys) : Prop :=
  ∃ n own', T n own' s' ∧ Stops p pt acc a len n (T n) rc own' s'

/-- The address of the next round. -/
theorem next_page {d k : Nat} (hd : d / 4096 < 2 ^ 26) (hk : d % 4096 + k = 4096) :
    (PGROUNDDOWN d + PGSIZE) % 2 ^ 64 = d + k := by
  rw [PGROUNDDOWN, show PGSIZE = 4096 from rfl]
  omega

/-- After `n` bytes of `src` are copied to `a`. -/
abbrev Sent (p : UProc) (pt a : Nat) (src : List UInt8) (own : Owner) (s : Phys) (n : Nat)
    (own' : Owner) (s' : Phys) : Prop :=
  Transfer p pt isWritable a n (Target s pt isWritable a n)
    (copyBytes (userView s.mem pt) a (fun k => src.getD k 0) 0 n) own own' s s'

theorem copyoutLoop_exact {src : List UInt8} (hs : Owned own s)
    (hserve : Serves p pt s a src.length) (fuel : Nat) : ∀ {own₁ : Owner} {s₁ : Phys} {n d : Nat},
    src.length - n ≤ fuel → n ≤ src.length →
    (n < src.length → d = a + n ∧ (n = 0 ∨ (a + n) % 4096 = 0)) →
    Sent p pt a src own s n own₁ s₁ →
    wp (copyoutLoop p pt fuel d (src.drop n)) E
      (CopyEnd p pt isWritable a src.length (Sent p pt a src own s)) s₁ := by
  induction fuel with
  | zero =>
    intro own₁ s₁ n d hfuel hn hd h
    rw [copyoutLoop, wp_pure]
    exact ⟨n, own₁, h, .inl ⟨rfl, by omega⟩⟩
  | succ fuel ih =>
    intro own₁ s₁ n d hfuel hn hd h
    have hstay : Same pt own₁ own₁ s₁ s₁ := (Grow.refl h.owned h.table.root).same
    rw [copyoutLoop, List.length_drop]
    by_cases hend : src.length - n = 0
    · rw [if_pos hend, wp_pure]
      exact ⟨n, own₁, h, .inl ⟨rfl, by omega⟩⟩
    obtain ⟨rfl, hstart⟩ := hd (by omega)
    rw [if_neg hend]
    dsimp only
    by_cases hmax : MAXVA ≤ PGROUNDDOWN (a + n)
    · rw [if_pos hmax, wp_pure]
      have hle : PGROUNDDOWN (a + n) ≤ a + n := Nat.div_mul_le_self _ _
      exact ⟨n, own₁, h, .inr ⟨rfl, by omega, hstart, own₁, s₁, h, .inl (by omega), hstay⟩⟩
    rw [if_neg hmax, wp_bind]
    refine (h.userPage_spec (hserve n (by omega))).mono fun pa s₂ hpage => ?_
    obtain ⟨own₂, ⟨hpa, h₂, hlt, e, he, huser, rfl, hfresh⟩ | ⟨hpa, hsame, hno⟩⟩ := hpage
    · rw [if_neg hpa, wp_bind, walk_false_spec (by omega), pgrounddown_div]
      -- a page with an entry has a table
      cases hloc : locate s₂.mem pt ((a + n) / 4096) with
      | none =>
        rw [lookup_of_locate_none hloc] at he
        cases he
      | some q =>
        have hpte : getPte s₂.mem q ((a + n) / 4096 % 512) = e := by
          have heq := (lookup_eq_some.mp he).2
          rwa [pteOf, hloc] at heq
        simp only [Option.map_some, readPte, wp_bind, wp_reads, hpte]
        by_cases hwrite : isWritable e = false
        · rw [if_pos hwrite, wp_pure]
          obtain ⟨rfl, rfl⟩ := hfresh.resolve_right (by simp [hwrite])
          exact ⟨n, own₂, h, .inr ⟨rfl, by omega, hstart, own₂, s₂, h,
            .inr (.inl ⟨e, he, .inr hwrite⟩), hstay⟩⟩
        · rw [if_neg hwrite, setPage, wp_bind, wp_updates, sub_pgrounddown, List.drop_drop]
          have hwrite : isWritable e = true := Bool.eq_true_of_not_eq_false hwrite
          obtain ⟨k, hk⟩ : ∃ k, k = min (PGSIZE - (a + n) % 4096) (src.length - n) := ⟨_, rfl⟩
          have hsize : PGSIZE = 4096 := rfl
          rw [← hk]
          have hsent := h₂.write (fun i => (src.drop n).getD i 0) hs (by omega) he huser hwrite
            (show (a + n) % 4096 + k ≤ 4096 by omega) (by omega)
          have hbytes : ∀ i, i < k → (src.drop n).getD (0 + i) 0 = src.getD (n + i) 0 := by
            intro i _
            rw [List.getD_eq_getElem?_getD, List.getElem?_drop, Nat.zero_add,
              ← List.getD_eq_getElem?_getD]
          rw [copyBytes_append hbytes] at hsent
          exact ih (by omega) (by omega) (fun hmore =>
            ⟨by rw [next_page hlt (show (a + n) % 4096 + k = 4096 by omega), Nat.add_assoc],
              .inr (by omega)⟩) hsent
    · rw [if_pos hpa, wp_pure]
      exact ⟨n, own₂, h.same hsame, .inr ⟨rfl, by omega, hstart, own₁, s₁, h, hno, hsame⟩⟩

/-- After the `n` bytes at `a` are copied to `dst`. -/
def Received (p : UProc) (pt a : Nat) (own : Owner) (s : Phys) (dst : List UInt8) (n : Nat)
    (own' : Owner) (s' : Phys) : Prop :=
  Transfer p pt (fun _ => true) a n NoPage (userView s.mem pt) own own' s s' ∧
    dst = userBytes s'.mem pt a n

theorem Received.same {dst : List UInt8} {own₂ : Owner} {s₂ : Phys}
    (h : Received p pt a own s dst n own₁ s₁) (hsame : Same pt own₁ own₂ s₁ s₂) :
    Received p pt a own s dst n own₂ s₂ := by
  refine ⟨h.1.same hsame, h.2.trans (List.map_congr_left fun i _ => ?_)⟩
  rw [hsame.userByte_eq h.1.owned h.1.table]

theorem copyinLoop_exact (hserve : Serves p pt s a len) (fuel : Nat) :
    ∀ {own₁ : Owner} {s₁ : Phys} {n d : Nat} {dst : List UInt8},
    len - n ≤ fuel → n ≤ len → (n < len → d = a + n ∧ (n = 0 ∨ (a + n) % 4096 = 0)) →
    Received p pt a own s dst n own₁ s₁ →
    wp (copyinLoop p pt fuel d (len - n) dst) E (fun res =>
      CopyEnd p pt (fun _ => true) a len (Received p pt a own s res.2) res.1) s₁ := by
  induction fuel with
  | zero =>
    intro own₁ s₁ n d dst hfuel hn hd h
    rw [copyinLoop, wp_pure]
    exact ⟨n, own₁, h, .inl ⟨rfl, by omega⟩⟩
  | succ fuel ih =>
    intro own₁ s₁ n d dst hfuel hn hd h
    rw [copyinLoop]
    by_cases hend : len - n = 0
    · rw [if_pos hend, wp_pure]
      exact ⟨n, own₁, h, .inl ⟨rfl, by omega⟩⟩
    obtain ⟨rfl, hstart⟩ := hd (by omega)
    rw [if_neg hend]
    dsimp only
    rw [wp_bind]
    refine (h.1.userPage_spec (hserve n (by omega))).mono fun pa s₂ hpage => ?_
    obtain ⟨own₂, ⟨hpa, h₂, hlt, e, he, huser, rfl, -⟩ | ⟨hpa, hsame, hno⟩⟩ := hpage
    · rw [if_neg hpa, wp_bind, wp_reads, sub_pgrounddown]
      obtain ⟨k, hk⟩ : ∃ k, k = min (PGSIZE - (a + n) % 4096) (len - n) := ⟨_, rfl⟩
      have hsize : PGSIZE = 4096 := rfl
      have hview : ∀ x, (userByte s₁.mem pt x).getD 0 = (userByte s₂.mem pt x).getD 0 :=
        fun x => (h.1.view x).trans (h₂.view x).symm
      have hdst : dst = userBytes s₂.mem pt a n :=
        h.2.trans (List.map_congr_left fun i _ => hview _)
      have hseen := (h₂.table.userPa_eq h₂.owned (by omega) he huser).1
      rw [← hk, ← hseen, userBytes_page (hseen.trans_ne hpa) (by omega), hdst, ← userBytes_append,
        Nat.sub_sub]
      refine ih (by omega) (by omega) (fun hmore => ⟨?_, .inr (by omega)⟩)
        ⟨h₂.read (by omega) he huser rfl (by omega), rfl⟩
      rw [next_page hlt (show (a + n) % 4096 + k = 4096 by omega), Nat.add_assoc]
    · rw [if_pos hpa, wp_pure]
      exact ⟨n, own₂, h.same hsame, .inr ⟨rfl, by omega, hstart, own₁, s₁, h, hno, hsame⟩⟩

theorem copyout_cases {src : List UInt8} (h : Owned own s) (ht : UserTable own s pt)
    (hserve : Serves p pt s a src.length) :
    wp (copyout p pt a src) E
      (CopyEnd p pt isWritable a src.length (Sent p pt a src own s)) s := by
  have hrefl := Transfer.refl h ht p isWritable a (Target s pt isWritable a 0)
  have hstart : Sent p pt a src own s 0 own s :=
    { hrefl with view := fun x => (if_neg (by omega)).symm }
  exact copyoutLoop_exact h hserve src.length (Nat.sub_le _ _) (Nat.zero_le _)
    (fun _ => ⟨rfl, .inl rfl⟩) hstart

theorem copyin_cases (h : Owned own s) (ht : UserTable own s pt)
    (hserve : Serves p pt s a len) :
    wp (copyin p pt a len) E (fun res =>
      CopyEnd p pt (fun _ => true) a len (Received p pt a own s res.2) res.1) s := by
  have hstart : Received p pt a own s [] 0 own s := ⟨Transfer.refl h ht p _ a _, rfl⟩
  exact copyinLoop_exact hserve len (Nat.sub_le _ _) (Nat.zero_le _)
    (fun _ => ⟨rfl, .inl rfl⟩) hstart

end Loops

/-! ## Copies for a process -/

section Process

variable {p : UProc}

/-- A transfer for the address space of a process keeps it one. -/
theorem Transfer.resized {acc : Nat → Bool} {a n : Nat} {H : Nat → Prop} {w : Nat → UInt8}
    (h : Transfer p p.pagetable acc a n H w own own' s s') (hsp : Space own s p.pagetable p.sz)
    (hH : ∀ q, H q → ∃ v, own q = some (.user p.pagetable v)) :
    Resized p.pagetable p.sz p.sz (1 ≤ ·) own own' s s' := by
  have htf := tfvpn_lt
  have hsize : PGSIZE = 4096 := rfl
  have hpages := npages_le_of_le_trapframe hsp.sz_le
  have hlt : ∀ v, Faulted p p.pagetable v s s' → v < npages p.sz := by
    intro v hfault
    have hlow := hfault.lt
    rw [hsize] at hlow
    rw [npages]
    omega
  refine ⟨⟨h.owned, h.frame.widen hH⟩, hsp.resize h.table.root hsp.sz_le (fun v hv hne => ?_)
    (fun v hge hv => ?_), fun v hv hzero hnone => ?_⟩
  · rcases h.entry v (by omega) with heq | hfault
    · exact hsp.below v hv (heq ▸ hne)
    · exact hlt v hfault
  · rcases h.entry v hv with heq | hfault
    · exact heq
    · have := hlt v hfault
      omega
  · rcases h.entry v (by omega) with heq | hfault
    · exact heq.trans hnone
    · exact absurd hfault.pos hzero

/-- What a copy between the kernel and the user has done to the address space. -/
def CopyPost (own : Owner) (p : UProc) (s s' : Phys) : Prop :=
  ∃ own', Resized p.pagetable p.sz p.sz (1 ≤ ·) own own' s s'

theorem copyout_spec {dstva : Nat} {src : List UInt8} (h : Owned own s)
    (hsp : Space own s p.pagetable p.sz) :
    wp (copyout p p.pagetable dstva src) E (fun _ s' => CopyPost own p s s') s := by
  refine (copyout_cases h hsp.userTable (serves_of_own hsp.sz_le _ _)).mono fun rc s' hend => ?_
  obtain ⟨n, own', hsent, -⟩ := hend
  refine ⟨own', hsent.resized hsp fun q hq => ?_⟩
  obtain ⟨i, e, hi, he, huser, -, rfl⟩ := hq
  obtain ⟨_, hlt, -⟩ := hsent.access i hi
  exact ⟨_, (hsp.userTable.userPa_eq h hlt he huser).2.1⟩

theorem copyin_spec {srcva : Nat} (h : Owned own s) (hsp : Space own s p.pagetable p.sz) :
    wp (copyin p p.pagetable srcva len) E (fun _ s' => CopyPost own p s s') s := by
  refine (copyin_cases h hsp.userTable (serves_of_own hsp.sz_le _ _)).mono fun res s' hend => ?_
  obtain ⟨n, own', hreceived, -⟩ := hend
  exact ⟨own', hreceived.1.resized hsp nofun⟩

end Process

/-! ## Copies are exact and confined -/

theorem Transfer.userByte_eq {p : UProc} {acc : Nat → Bool} {a n i : Nat} {H : Nat → Prop}
    {w : Nat → UInt8} (h : Transfer p pt acc a n H w own own' s s') (hi : i < n) :
    ∃ e, lookup s'.mem pt ((a + i) / 4096) = some e ∧ isUser e = true ∧ acc e = true ∧
      userByte s'.mem pt (a + i) = some (s'.mem (PTE2PA e) ((a + i) % 4096)) ∧
      userByte s'.mem pt (a + i) = some (w (a + i)) := by
  obtain ⟨e, hlt, he, huser, hacc⟩ := h.access i hi
  obtain ⟨hpa, -, hne⟩ := h.table.userPa_eq h.owned hlt he huser
  have hbyte : userByte s'.mem pt (a + i) = some (s'.mem (PTE2PA e) ((a + i) % 4096)) := by
    rw [userByte_of_ne (hpa.trans_ne hne), hpa]
  have hview := h.view (a + i)
  rw [userView, hbyte, Option.getD_some] at hview
  exact ⟨e, he, huser, hacc, hbyte, hbyte.trans (congrArg some hview)⟩

end Xv6.Vm
