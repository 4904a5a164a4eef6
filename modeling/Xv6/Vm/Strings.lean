import Mathlib.Data.List.TakeWhile
import Xv6.Vm.UserMem
import Xv6.Vm.Proc

/-!
# Strings of user memory

`copyinstr` of `vm.c` looks for a NUL page by page, with the number of bytes left, the
address and the destination kept apart; it does not fault pages in.  `fetchstr` of
`syscall.c` calls it for the arguments of system calls.

* `StrAt`: there is a string of `k` bytes and its NUL at a user address.
* `InstrPost`, `copyinstrLoop_exact`: what the rounds of the loop return.
* `copyinstr_exact`: `copyinstr` succeeds exactly if there is a string that fits,
  and then returns it; `fetchstr` returns its length.
-/

namespace Xv6.Vm

open Xv6.Lib.Bytes Xv6.Lib.Wp

/-- `copyinstr` with at most `fuel` pages to go; every round takes a byte, so
`max` is enough.  `dst` is what was copied so far. -/
def copyinstrLoop (pagetable : Nat) : Nat → Nat → Nat → List UInt8 → Kern (Int × List UInt8)
  | 0, _, _, dst => pure (-1, dst)
  | fuel + 1, srcva, max, dst =>
    if max = 0 then pure (-1, dst)
    else do
      let va0 := PGROUNDDOWN srcva
      let pa0 ← walkaddr pagetable va0
      if pa0 = 0 then pure (-1, dst)
      else do
        let n := min (PGSIZE - (srcva - va0)) max
        let bytes ← reads fun s => (List.range n).map fun k => s.mem pa0 (srcva - va0 + k)
        let str := bytes.takeWhile (· ≠ 0)
        if str.length < n then pure (0, dst ++ str ++ [0])
        else copyinstrLoop pagetable fuel ((va0 + PGSIZE) % 2 ^ 64) (max - n) (dst ++ bytes)

/-- Copy a string of less than `max` bytes from the user address `srcva`. -/
def copyinstr (pagetable srcva max : Nat) : Kern (Int × List UInt8) :=
  copyinstrLoop pagetable max srcva max []

/-- Fetch the string at `addr`, without its NUL. -/
def fetchstr (p : UProc) (addr max : Nat) : Kern (Option (List UInt8)) := do
  let (r, buf) ← copyinstr p.pagetable addr max
  if r < 0 then pure none else pure (some (buf.takeWhile (· ≠ 0)))

/-- At the user address `a` there is a string of `k` bytes, followed by NUL. -/
structure StrAt (mem : Nat → Nat → UInt8) (pt a k : Nat) : Prop where
  mapped : ∀ i, i ≤ k → userByte mem pt (a + i) ≠ none
  nul : userByte mem pt (a + k) = some 0
  first : ∀ i, i < k → userByte mem pt (a + i) ≠ some 0

section

variable {mem : Nat → Nat → UInt8} {pt a k n : Nat}

theorem StrAt.unique {k' : Nat} (h : StrAt mem pt a k) (h' : StrAt mem pt a k') : k = k' := by
  rcases Nat.lt_trichotomy k k' with hlt | heq | hlt
  · exact absurd h.nul (h'.first k hlt)
  · exact heq
  · exact absurd h'.nul (h.first k' hlt)

/-- A string goes on in the next page if there is no NUL in this one. -/
theorem strAt_add_iff (hmapped : ∀ i, i < n → userByte mem pt (a + i) ≠ none)
    (hne : ∀ i, i < n → userByte mem pt (a + i) ≠ some 0) :
    StrAt mem pt a k ↔ n ≤ k ∧ StrAt mem pt (a + n) (k - n) := by
  constructor
  · intro h
    have hle : n ≤ k := by
      by_contra hlt
      exact hne k (by omega) h.nul
    refine ⟨hle, fun i hi => ?_, ?_, fun i hi => ?_⟩
    · rw [Nat.add_assoc]
      exact h.mapped (n + i) (by omega)
    · rw [Nat.add_assoc, Nat.add_sub_cancel' hle]
      exact h.nul
    · rw [Nat.add_assoc]
      exact h.first (n + i) (by omega)
  · rintro ⟨hle, h⟩
    refine ⟨fun i hi => ?_, ?_, fun i hi => ?_⟩
    · by_cases hin : i < n
      · exact hmapped i hin
      · have hnext := h.mapped (i - n) (by omega)
        rwa [Nat.add_assoc, Nat.add_sub_cancel' (by omega)] at hnext
    · have hnul := h.nul
      rwa [Nat.add_assoc, Nat.add_sub_cancel' hle] at hnul
    · by_cases hin : i < n
      · exact hne i hin
      · have hnext := h.first (i - n) (by omega)
        rwa [Nat.add_assoc, Nat.add_sub_cancel' (by omega)] at hnext

theorem ne_zero_of_mem_takeWhile {b : UInt8} {bytes : List UInt8}
    (h : b ∈ bytes.takeWhile (· ≠ 0)) : b ≠ 0 := by
  have hp := List.mem_takeWhile_imp h
  exact of_decide_eq_true hp

/-- The bytes before the first NUL of some bytes that are mapped. -/
theorem strAt_of_takeWhile (hmapped : ∀ i, i < n → userByte mem pt (a + i) ≠ none)
    (hk : ((userBytes mem pt a n).takeWhile (· ≠ 0)).length = k) (hlt : k < n) :
    StrAt mem pt a k ∧
      (userBytes mem pt a n).takeWhile (· ≠ 0) ++ [0] = userBytes mem pt a (k + 1) := by
  have hsplit := List.takeWhile_append_dropWhile (p := (· ≠ 0)) (l := userBytes mem pt a n)
  have hbyte : ∀ i, i < n → userByte mem pt (a + i) = some ((userByte mem pt (a + i)).getD 0) := by
    intro i hi
    obtain ⟨b, hb⟩ := Option.ne_none_iff_exists'.mp (hmapped i hi)
    rw [hb, Option.getD_some]
  -- the bytes are those before the first NUL, the NUL, and the rest
  obtain ⟨c, rest, hrest⟩ : ∃ c rest, (userBytes mem pt a n).dropWhile (· ≠ 0) = c :: rest := by
    refine List.exists_cons_of_ne_nil fun hnil => ?_
    rw [hnil, List.append_nil] at hsplit
    rw [hsplit, length_userBytes] at hk
    omega
  have hc : c = 0 := by
    have hhead := List.head_dropWhile_not (fun b : UInt8 => decide (b ≠ 0))
      (hrest ▸ List.cons_ne_nil c rest)
    simp only [hrest, List.head_cons, decide_eq_false_iff_not, not_not] at hhead
    exact hhead
  rw [hrest, hc] at hsplit
  have hget : ∀ i, i < n → ((userBytes mem pt a n).takeWhile (· ≠ 0) ++ 0 :: rest)[i]? =
      some ((userByte mem pt (a + i)).getD 0) := by
    intro i hi
    rw [hsplit]
    exact userBytes_getElem? hi
  refine ⟨⟨fun i hi => hmapped i (by omega), ?_, fun i hi hnul => ?_⟩, ?_⟩
  · have hat := hget k hlt
    rw [List.getElem?_append_right (by omega), hk, Nat.sub_self, List.getElem?_cons_zero] at hat
    rw [hbyte k hlt, ← hat]
  · have hat := hget i (by omega)
    rw [hnul, Option.getD_some, List.getElem?_append_left (by omega)] at hat
    exact ne_zero_of_mem_takeWhile (List.mem_of_getElem? hat) rfl
  · have hright : (userBytes mem pt a n).take (k + 1) = userBytes mem pt a (k + 1) := by
      rw [show n = (k + 1) + (n - (k + 1)) by omega, userBytes_append]
      exact List.take_left' length_userBytes
    rw [← hright, ← hsplit, List.take_append, hsplit, hk, Nat.add_sub_cancel_left,
      List.take_of_length_le (by omega), List.take_succ_cons, List.take_zero]

end

/-! ## The loop -/

/-- What `copyinstr` returns when it is at `srcva`, may copy `max` more bytes, and has
copied `dst`. -/
def InstrPost (mem : Nat → Nat → UInt8) (pt srcva max : Nat) (dst : List UInt8)
    (res : Int × List UInt8) : Prop :=
  res.1 = 0 ∧ (∃ k, k < max ∧ StrAt mem pt srcva k ∧
    res.2 = dst ++ userBytes mem pt srcva (k + 1)) ∨
  res.1 = -1 ∧ (∀ k, k < max → ¬ StrAt mem pt srcva k) ∧
    ∃ n, n ≤ max ∧ res.2 = dst ++ userBytes mem pt srcva n

section Loop

variable {E : Panic → Prop} {s : Phys} {pt : Nat}

theorem InstrPost.stop {mem : Nat → Nat → UInt8} {srcva max : Nat} {dst : List UInt8}
    (h : ∀ k, k < max → ¬ StrAt mem pt srcva k) : InstrPost mem pt srcva max dst (-1, dst) :=
  .inr ⟨rfl, h, 0, Nat.zero_le _, (List.append_nil dst).symm⟩

theorem copyinstrLoop_exact (fuel : Nat) : ∀ {srcva max : Nat} {dst : List UInt8}, max ≤ fuel →
    wp (copyinstrLoop pt fuel srcva max dst) E
      (fun res s' => s' = s ∧ InstrPost s.mem pt srcva max dst res) s := by
  induction fuel with
  | zero =>
    intro srcva max dst hmax
    rw [copyinstrLoop, wp_pure]
    exact ⟨rfl, .stop fun k hk => by omega⟩
  | succ fuel ih =>
    intro srcva max dst hmax
    rw [copyinstrLoop]
    by_cases hzero : max = 0
    · rw [if_pos hzero, wp_pure]
      exact ⟨rfl, .stop fun k hk => by omega⟩
    rw [if_neg hzero]
    dsimp only
    rw [wp_bind, walkaddr_user, userPa_pgrounddown]
    by_cases hpa : userPa s.mem pt srcva = 0
    · rw [if_pos hpa, wp_pure]
      exact ⟨rfl, .stop fun k _ hstr => hstr.mapped 0 (Nat.zero_le k) (userByte_eq_none.mpr hpa)⟩
    rw [if_neg hpa, wp_bind, wp_reads, sub_pgrounddown]
    have hlt := lt_maxva_of_userPa hpa
    have hmaxva : MAXVA = 2 ^ 38 := rfl
    obtain ⟨n, hn⟩ : ∃ n, n = min (PGSIZE - srcva % 4096) max := ⟨_, rfl⟩
    have hsize : PGSIZE = 4096 := rfl
    have hpage : n ≤ 4096 - srcva % 4096 := by omega
    have hmapped : ∀ i, i < n → userByte s.mem pt (srcva + i) ≠ none := by
      intro i hi
      rw [userByte_page hpa (by omega)]
      exact nofun
    rw [← hn, userBytes_page hpa hpage]
    split
    · next hshort =>
      obtain ⟨hstr, hbytes⟩ := strAt_of_takeWhile hmapped rfl hshort
      rw [wp_pure, List.append_assoc, hbytes]
      exact ⟨rfl, .inl ⟨rfl, _, by omega, hstr, rfl⟩⟩
    · next hfull =>
      -- no NUL in this page
      have hne : ∀ i, i < n → userByte s.mem pt (srcva + i) ≠ some 0 := by
        have heq := List.IsPrefix.eq_of_length_le
          (List.takeWhile_prefix (l := userBytes s.mem pt srcva n) (· ≠ 0))
          (by rw [length_userBytes]; omega)
        intro i hi hnul
        have hat : (userBytes s.mem pt srcva n)[i]? = _ := userBytes_getElem? hi
        rw [hnul, Option.getD_some, ← heq] at hat
        exact ne_zero_of_mem_takeWhile (List.mem_of_getElem? hat) rfl
      have hstr := fun k => strAt_add_iff (k := k) hmapped hne
      refine (ih (show max - n ≤ fuel by omega)).mono fun res s' hres => ⟨hres.1, ?_⟩
      by_cases hend : n = max
      · -- the bytes are used up
        have hno : ∀ k, k < max → ¬ StrAt s.mem pt srcva k := by
          intro k hk hstr'
          have := ((hstr k).mp hstr').1
          omega
        rcases hres.2 with ⟨-, k, hk, -⟩ | ⟨herr, -, m, hm, hout⟩
        · omega
        · obtain rfl : m = 0 := by omega
          refine .inr ⟨herr, hno, n, by omega, ?_⟩
          rw [hout]
          exact List.append_nil _
      · have hnext : (PGROUNDDOWN srcva + PGSIZE) % 2 ^ 64 = srcva + n := by
          rw [PGROUNDDOWN, hsize]
          omega
        rw [hnext] at hres
        rcases hres.2 with ⟨hok, k, hk, hat, hout⟩ | ⟨herr, hno, m, hm, hout⟩
        · refine .inl ⟨hok, n + k, by omega, (hstr _).mpr ⟨by omega, ?_⟩, ?_⟩
          · rwa [Nat.add_sub_cancel_left]
          · rw [hout, List.append_assoc, ← userBytes_append, Nat.add_assoc]
        · refine .inr ⟨herr, fun k hk hat => ?_, n + m, by omega, ?_⟩
          · obtain ⟨hle, hat⟩ := (hstr k).mp hat
            exact hno (k - n) (by omega) hat
          · rw [hout, List.append_assoc, ← userBytes_append]

/-- What `fetchstr` returns: the string without its NUL. -/
def FetchPost (mem : Nat → Nat → UInt8) (pt addr max : Nat) (res : Option (List UInt8)) : Prop :=
  match res with
  | none => ∀ k, k < max → ¬ StrAt mem pt addr k
  | some str => ∃ k, StrAt mem pt addr k ∧ str = userBytes mem pt addr k ∧ str.length = k ∧
      (str ++ [0]).length ≤ max

theorem fetchstr_exact {p : UProc} {addr max : Nat} :
    wp (fetchstr p addr max) E
      (fun res s' => s' = s ∧ FetchPost s.mem p.pagetable addr max res) s := by
  rw [fetchstr, wp_bind]
  refine (copyinstrLoop_exact max (Nat.le_refl max)).mono fun res s' hres => ?_
  obtain ⟨r, buf⟩ := res
  obtain ⟨rfl, ⟨hr, k, hk, hstr, hbuf⟩ | ⟨hr, hno, -⟩⟩ := hres
  · have hr : r = 0 := hr
    have hbuf : buf = userBytes s'.mem p.pagetable addr (k + 1) := hbuf
    have hlast : userBytes s'.mem p.pagetable addr (k + 1) =
        userBytes s'.mem p.pagetable addr k ++ [0] := by
      rw [userBytes_append, userBytes, userBytes]
      simp [hstr.nul]
    have hne : ∀ b ∈ userBytes s'.mem p.pagetable addr k, decide (b ≠ 0) = true := by
      intro b hb
      obtain ⟨i, hi, rfl⟩ := List.mem_map.mp hb
      have hi := List.mem_range.mp hi
      obtain ⟨c, hc⟩ := Option.ne_none_iff_exists'.mp (hstr.mapped i (by omega))
      have hfirst := hstr.first i hi
      rw [hc] at hfirst ⊢
      exact decide_eq_true fun heq => hfirst (congrArg some heq)
    have htake : buf.takeWhile (· ≠ 0) = userBytes s'.mem p.pagetable addr k := by
      rw [hbuf, hlast, List.takeWhile_append_of_pos hne]
      exact List.append_nil _
    dsimp only
    rw [hr, if_neg (by decide), wp_pure, htake]
    refine ⟨rfl, k, hstr, rfl, length_userBytes, ?_⟩
    rw [List.length_append, length_userBytes]
    exact hk
  · have hr : r = -1 := hr
    dsimp only
    rw [hr, if_pos (by decide), wp_pure]
    exact ⟨rfl, hno⟩

end Loop

/-- `copyinstr` is exact, for every page table, address and length: it returns 0
exactly if there is a string of less than `max` bytes, then it has copied the
string with its NUL, and it never copies more than `max` bytes.  So `fetchstr`
returns the string and its length, and the buffer of `max` bytes holds it with its
NUL. -/
theorem copyinstr_exact (s : Phys) (p : UProc) (pt srcva max : Nat) :
    (∃ rc dst, copyinstr pt srcva max s = .ok ((rc, dst), s) ∧ (rc = 0 ∨ rc = -1) ∧
      dst.length ≤ max ∧ (rc = 0 ↔ ∃ k, k < max ∧ StrAt s.mem pt srcva k) ∧
      ∀ k, rc = 0 → StrAt s.mem pt srcva k → dst = userBytes s.mem pt srcva (k + 1)) ∧
    ∃ res, fetchstr p srcva max s = .ok (res, s) ∧
      FetchPost s.mem p.pagetable srcva max res := by
  constructor
  · have hspec : wp (copyinstr pt srcva max) (fun _ => False)
        (fun res s' => s' = s ∧ InstrPost s.mem pt srcva max [] res) s :=
      copyinstrLoop_exact max (Nat.le_refl max)
    obtain ⟨⟨rc, dst⟩, s', hrun, rfl, hpost⟩ := hspec.returns
    refine ⟨rc, dst, hrun, ?_⟩
    rcases hpost with ⟨hrc, k, hk, hstr, hdst⟩ | ⟨hrc, hno, n, hn, hdst⟩
    · have hdst : dst = userBytes s'.mem pt srcva (k + 1) := hdst
      refine ⟨.inl hrc, ?_, iff_of_true hrc ⟨k, hk, hstr⟩, fun k' _ hstr' => ?_⟩
      · rw [hdst, length_userBytes]
        omega
      · rw [hstr'.unique hstr, hdst]
    · have hrc : rc = -1 := hrc
      have hdst : dst = userBytes s'.mem pt srcva n := hdst
      refine ⟨.inr hrc, ?_, iff_of_false (by omega) fun ⟨k, hk, hstr⟩ => hno k hk hstr,
        fun k hzero => absurd hzero (by omega)⟩
      rw [hdst, length_userBytes]
      exact hn
  · have hspec : wp (fetchstr p srcva max) (fun _ => False)
        (fun res s' => s' = s ∧ FetchPost s.mem p.pagetable srcva max res) s := fetchstr_exact
    obtain ⟨res, s', hrun, rfl, hpost⟩ := hspec.returns
    exact ⟨res, hrun, hpost⟩

end Xv6.Vm
