import Xv6.Vm.Resize

/-!
# The memory that a user sees

A page table shows a user the bytes of those physical pages that it maps with a
valid user entry.

* `userPa`: the page at an address, as `walkaddr` finds it (`walkaddr_user`).
* `userByte`, `userBytes`: one byte, and consecutive bytes; `userBytes_page` reads
  those up to the end of a page off that page.
-/

namespace Xv6.Vm

open Xv6.Lib.Bytes Xv6.Lib.Wp

variable {E : Panic → Prop} {s : Phys} {mem mem' : Nat → Nat → UInt8} {pt a n : Nat}

/-- The physical page that a user finds at `va`, or 0. -/
def userPa (mem : Nat → Nat → UInt8) (pt va : Nat) : Nat :=
  if va < MAXVA ∧ isValid (pteOf mem pt (va / 4096)) = true ∧
      isUser (pteOf mem pt (va / 4096)) = true then
    PTE2PA (pteOf mem pt (va / 4096))
  else 0

/-- The byte that a user finds at `a`. -/
def userByte (mem : Nat → Nat → UInt8) (pt a : Nat) : Option UInt8 :=
  if userPa mem pt a = 0 then none else some (mem (userPa mem pt a) (a % 4096))

/-- The bytes that a user finds from `a` on; 0 stands for those that are not mapped. -/
def userBytes (mem : Nat → Nat → UInt8) (pt a n : Nat) : List UInt8 :=
  (List.range n).map fun i => (userByte mem pt (a + i)).getD 0

/-- The memory of the user as a storage; 0 stands for the bytes that are not mapped. -/
def userView (mem : Nat → Nat → UInt8) (pt a : Nat) : UInt8 :=
  (userByte mem pt a).getD 0

/-- `walkaddr` finds what the user would. -/
theorem walkaddr_user {Q : Nat → Phys → Prop} {va : Nat} :
    wp (walkaddr pt va) E Q s ↔ Q (userPa s.mem pt va) s := by
  by_cases hva : va < MAXVA
  · rw [walkaddr_spec hva, userPa]
    simp only [hva, true_and]
  · rw [walkaddr, if_pos (Nat.le_of_not_lt hva), wp_pure, userPa, if_neg fun h => hva h.1]

/-- The page is the same for all addresses in it. -/
theorem userPa_congr {b : Nat} (h : b / 4096 = a / 4096) : userPa mem pt b = userPa mem pt a := by
  have hmax : b < MAXVA ↔ a < MAXVA := by
    rw [show MAXVA = 2 ^ 26 * 4096 from rfl]
    omega
  rw [userPa, userPa, h]
  simp only [hmax]

theorem pgrounddown_div (a : Nat) : PGROUNDDOWN a / 4096 = a / 4096 :=
  Nat.mul_div_cancel (a / PGSIZE) (by decide)

theorem sub_pgrounddown (a : Nat) : a - PGROUNDDOWN a = a % 4096 := by
  rw [PGROUNDDOWN, show PGSIZE = 4096 from rfl]
  omega

theorem userPa_pgrounddown : userPa mem pt (PGROUNDDOWN a) = userPa mem pt a :=
  userPa_congr (pgrounddown_div a)

theorem lt_maxva_of_userPa (h : userPa mem pt a ≠ 0) : a < MAXVA := by
  by_contra hlt
  exact h (if_neg fun hmapped => hlt hmapped.1)

theorem userByte_eq_none : userByte mem pt a = none ↔ userPa mem pt a = 0 := by
  unfold userByte
  split <;> simp [*]

theorem userByte_of_ne (h : userPa mem pt a ≠ 0) :
    userByte mem pt a = some (mem (userPa mem pt a) (a % 4096)) :=
  if_neg h

/-- The bytes up to the end of a page are all in that page. -/
theorem userByte_page {i : Nat} (h : userPa mem pt a ≠ 0) (hi : a % 4096 + i < 4096) :
    userByte mem pt (a + i) = some (mem (userPa mem pt a) (a % 4096 + i)) := by
  have hpa : userPa mem pt (a + i) = userPa mem pt a := userPa_congr (by omega)
  rw [userByte_of_ne (hpa ▸ h), hpa, show (a + i) % 4096 = a % 4096 + i by omega]

theorem length_userBytes : (userBytes mem pt a n).length = n := by
  rw [userBytes, List.length_map, List.length_range]

theorem userBytes_page (h : userPa mem pt a ≠ 0) (hn : n ≤ 4096 - a % 4096) :
    (List.range n).map (fun k => mem (userPa mem pt a) (a % 4096 + k)) = userBytes mem pt a n := by
  refine List.map_congr_left fun i hi => ?_
  have hlt := List.mem_range.mp hi
  rw [userByte_page h (by omega), Option.getD_some]

theorem userBytes_append (m : Nat) :
    userBytes mem pt a (n + m) = userBytes mem pt a n ++ userBytes mem pt (a + n) m := by
  rw [userBytes, List.range_add, List.map_append, List.map_map, userBytes, userBytes]
  simp only [Function.comp_def, Nat.add_assoc]

/-- A bytewise look at consecutive bytes. -/
theorem userBytes_getElem? {i : Nat} (hi : i < n) :
    (userBytes mem pt a n)[i]? = some ((userByte mem pt (a + i)).getD 0) := by
  rw [userBytes, List.getElem?_map, List.getElem?_range hi, Option.map_some]

end Xv6.Vm
