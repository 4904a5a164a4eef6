import Xv6.Vm.Load

/-!
# The loop over the program headers

Which executables `kexec` loads, read off the file, and the specification of the
loop over the program headers in these terms.

* `header`, `Proghdr.Sane`, `segmentEnd`, `imageEnd`: the headers of a file and the
  memory they ask for.
* `Passes`: a header that does not stop the loader.
* `NullHeader`: a header that puts bytes of the file into the first page.
* `NullLoad`: the loader gets as far as such a header.
* `loadSegments_spec`: the loop panics exactly in that case.
-/

namespace Xv6.Vm

open Xv6.Lib.Bytes Xv6.Lib.Wp

variable {i n : Nat} {ph : Proghdr}

/-! ## Headers -/

/-- The program header `i` of a file, if the file has it. -/
def header (file : List UInt8) (elf : Elfhdr) (i : Nat) : Option Proghdr :=
  if (readi file (proghdrOff elf i) proghdrSize).length = proghdrSize then
    some (proghdrOf (readi file (proghdrOff elf i) proghdrSize))
  else none

/-- The sizes of a segment fit, it does not wrap and starts at a page. -/
def Proghdr.Sane (ph : Proghdr) : Prop :=
  ph.filesz ≤ ph.memsz ∧ ph.vaddr + ph.memsz < 2 ^ 64 ∧ ph.vaddr % PGSIZE = 0

/-- The end of the segment `i`. -/
def segmentEnd (file : List UInt8) (elf : Elfhdr) (i : Nat) : Nat :=
  match header file elf i with
  | some ph => if ph.type = ELF_PROG_LOAD then ph.vaddr + ph.memsz else 0
  | none => 0

/-- The size of the image after `n` headers. -/
def imageEnd (file : List UInt8) (elf : Elfhdr) : Nat → Nat
  | 0 => PGSIZE
  | n + 1 => max (imageEnd file elf n) (segmentEnd file elf n)

/-- The header `i` does not stop the loader: it is there, and a segment to load is
sane, in the file, and not in the first page unless it has no bytes. -/
def Passes (file : List UInt8) (elf : Elfhdr) (i : Nat) : Prop :=
  ∃ ph, header file elf i = some ph ∧ (ph.type = ELF_PROG_LOAD →
    ph.Sane ∧ (ph.vaddr = 0 → ph.filesz = 0) ∧ InFile file (ph.off % 2 ^ 32) ph.filesz)

/-- The header `i` puts bytes of the file into the first page. -/
def NullHeader (file : List UInt8) (elf : Elfhdr) (i : Nat) : Prop :=
  ∃ ph, header file elf i = some ph ∧ ph.type = ELF_PROG_LOAD ∧ ph.Sane ∧ ph.vaddr = 0 ∧
    0 < ph.filesz

/-- Some header of the first `n` puts bytes into the first page, the headers
before it pass, and there is memory for the image up to it. -/
def NullLoad (file : List UInt8) (elf : Elfhdr) (n base : Nat) : Prop :=
  ∃ i, i < n ∧ NullHeader file elf i ∧ (∀ j, j < i → Passes file elf j) ∧
    imageCost (npages (imageEnd file elf (i + 1))) ≤ base

theorem wordAt_lt (bytes : List UInt8) (n off : Nat) : wordAt bytes n off < 256 ^ n :=
  readLE_lt _ _ _

theorem imageEnd_mono (file : List UInt8) (elf : Elfhdr) {m : Nat} (h : m ≤ n) :
    imageEnd file elf m ≤ imageEnd file elf n := by
  induction n with
  | zero =>
    rw [Nat.le_zero.mp h]
  | succ n ih =>
    rcases Nat.le_succ_iff.mp h with h | rfl
    · exact (ih h).trans (Nat.le_max_left _ _)
    · exact Nat.le_refl _

theorem Passes.not_null {file : List UInt8} {elf : Elfhdr} (h : Passes file elf i) :
    ¬ NullHeader file elf i := by
  rintro ⟨ph, hph, hload, -, hva, hpos⟩
  obtain ⟨ph', hph', hpass⟩ := h
  cases hph.symm.trans hph'
  have hzero := (hpass hload).2.1 hva
  omega

/-- No header among those that pass is a null header. -/
theorem not_nullLoad_of_passes {file : List UInt8} {elf : Elfhdr} {base : Nat}
    (h : ∀ j, j < n → Passes file elf j) : ¬ NullLoad file elf n base :=
  fun ⟨i, hi, hnull, _⟩ => (h i hi).not_null hnull

/-- A header that stops the loader without a panic. -/
theorem not_nullLoad_of_stop {file : List UInt8} {elf : Elfhdr} {base : Nat}
    (hpass : ∀ j, j < i → Passes file elf j)
    (hstop : ¬ Passes file elf i ∧ ¬ NullHeader file elf i ∨
      base < imageCost (npages (imageEnd file elf (i + 1)))) : ¬ NullLoad file elf n base := by
  rintro ⟨k, -, hnull, hbefore, hcost⟩
  rcases Nat.lt_trichotomy k i with hk | rfl | hk
  · exact (hpass k hk).not_null hnull
  · rcases hstop with hstop | hcost'
    · exact hstop.2 hnull
    · omega
  · rcases hstop with hstop | hcost'
    · exact hstop.1 (hbefore i hk)
    · have hmono := imageCost_mono (npages_mono
        (imageEnd_mono file elf (show i + 1 ≤ k + 1 by omega)))
      omega

/-! ## The loop -/

section Loop

variable {E : Panic → Prop} {own : Owner} {s : Phys} {r base : Nat} {file : List UInt8}
    {elf : Elfhdr}

/-- Where the loader is after a header. -/
def SegmentPost (own : Owner) (r base : Nat) (file : List UInt8) (elf : Elfhdr) (i : Nat) (s : Phys)
    (res : Except Nat Nat) (s' : Phys) : Prop :=
  ∃ own', Changed r own own' s s' ∧
    match res with
    | .ok sz => sz = imageEnd file elf (i + 1) ∧ Passes file elf i ∧ Image base r sz own' s'
    | .error sz => Space own' s' r sz ∧ (¬ Passes file elf i ∧ ¬ NullHeader file elf i ∨
        base < imageCost (npages (imageEnd file elf (i + 1))))

theorem loadseg_zero {Q : Int → Phys → Prop} {va off : Nat} :
    wp (loadseg r va file off 0) E Q s ↔ Q 0 s := by
  rw [loadseg, wp_bind, show (0 + PGSIZE - 1) / PGSIZE = 0 from rfl, untilSome, wp_pure, wp_pure]
  exact Iff.rfl

theorem flags2perm_lt (flags : Nat) : flags2perm flags < 1024 := by
  refine Nat.or_lt_two_pow (n := 10) ?_ ?_ <;> split <;> decide

/-- The end of a segment to load. -/
theorem segmentEnd_of_load (hph : header file elf i = some ph)
    (hload : ph.type = ELF_PROG_LOAD) : segmentEnd file elf i = ph.vaddr + ph.memsz := by
  rw [segmentEnd, hph]
  exact if_pos hload

/-- Stopping at a header whose segment is not sane. -/
theorem segmentPost_insane {sz : Nat} (h : Image base r sz own s)
    (hph : header file elf i = some ph) (hload : ph.type = ELF_PROG_LOAD) (hsane : ¬ ph.Sane) :
    SegmentPost own r base file elf i s (.error sz) s := by
  refine ⟨own, Changed.refl h.owned r, h.space, .inl ⟨?_, ?_⟩⟩
  · rintro ⟨ph', hph', hpass⟩
    cases hph.symm.trans hph'
    exact hsane (hpass hload).1
  · rintro ⟨ph', hph', -, hsane', -⟩
    cases hph.symm.trans hph'
    exact hsane hsane'

/-- Reading the segment once its memory is there. -/
theorem loadsegment_read {sz : Nat} {own₁ : Owner} {s₁ : Phys}
    (hlen : file.length < 2 ^ 32) (hph : header file elf i = some ph)
    (hload : ph.type = ELF_PROG_LOAD) (hsane : ph.Sane)
    (hE : NullHeader file elf i → imageCost (npages (imageEnd file elf (i + 1))) ≤ base →
      E .loadseg)
    (hchanged : Changed r own own₁ s s₁) (himage : Image base r sz own₁ s₁)
    (hsz : sz = imageEnd file elf (i + 1)) :
    wp (loadseg r ph.vaddr file (ph.off % 2 ^ 32) (ph.filesz % 2 ^ 32)) E
      (fun rc s' => SegmentPost own r base file elf i s (if rc < 0 then .error sz else .ok sz) s')
      s₁ := by
  have hcost : imageCost (npages sz) ≤ base := by
    have := himage.supply
    omega
  have hend : ph.vaddr + ph.memsz ≤ sz := by
    rw [hsz, ← segmentEnd_of_load hph hload]
    exact Nat.le_max_right _ _
  -- what fits into memory is far below `2 ^ 32`
  have hsmall : sz < 2 ^ 32 := by
    have hpages := le_imageCost (npages sz)
    have hle := lt_of_npages_le (Nat.le_refl (npages sz))
    have := himage.small
    omega
  have hfile : ph.filesz % 2 ^ 32 = ph.filesz := by
    have := hsane.1
    omega
  have hdone : ∀ t, Touched r own₁ s₁ t → (ph.vaddr = 0 → ph.filesz = 0) →
      InFile file (ph.off % 2 ^ 32) ph.filesz → SegmentPost own r base file elf i s (.ok sz) t :=
    fun t htouch hva hin => ⟨own₁, hchanged.trans (htouch.changed himage.owned), hsz,
      ⟨ph, hph, fun _ => ⟨hsane, hva, hin⟩⟩, himage.touch htouch⟩
  rw [hfile]
  by_cases hzero : ph.filesz = 0
  · rw [hzero, loadseg_zero]
    exact hdone s₁ (Touched.refl _ _ _) (fun _ => hzero) (.inl hzero)
  by_cases hva : ph.vaddr = 0
  · rw [hva]
    refine loadseg_null himage (by omega) (hE ?_ (hsz ▸ hcost))
    exact ⟨ph, hph, hload, hsane, hva, by omega⟩
  · have hpage : ph.vaddr = ph.vaddr / 4096 * PGSIZE := by
      have := hsane.2.2
      rw [show PGSIZE = 4096 from rfl] at *
      omega
    have hv : 1 ≤ ph.vaddr / 4096 := by
      rw [show PGSIZE = 4096 from rfl] at hpage
      omega
    have hin : ph.vaddr / 4096 * PGSIZE + ph.filesz ≤ sz := by
      have := hsane.1
      rw [← hpage]
      omega
    rw [hpage]
    refine (loadseg_spec himage hv hin (Nat.mod_lt _ (by decide)) hlen).mono fun rc t hread => ?_
    obtain ⟨htouch, ⟨rfl, hin⟩ | ⟨rfl, hout⟩⟩ := hread
    · rw [if_neg (by decide)]
      exact hdone t htouch (fun hz => absurd hz hva) hin
    · rw [if_pos (by decide)]
      refine ⟨own₁, hchanged.trans (htouch.changed himage.owned), (himage.touch htouch).space,
        .inl ⟨?_, ?_⟩⟩
      · rintro ⟨ph', hph', hpass⟩
        cases hph.symm.trans hph'
        exact hout (hpass hload).2.2
      · rintro ⟨ph', hph', -, -, hva', -⟩
        cases hph.symm.trans hph'
        exact hva hva'

theorem loadSegment_spec (h : Image base r (imageEnd file elf i) own s)
    (hlen : file.length < 2 ^ 32)
    (hE : NullHeader file elf i → imageCost (npages (imageEnd file elf (i + 1))) ≤ base →
      E .loadseg) :
    wp (loadSegment r file elf i (imageEnd file elf i)) E
      (SegmentPost own r base file elf i s) s := by
  have hsize : proghdrSize = 56 := rfl
  rw [loadSegment]
  dsimp only
  by_cases hread : (readi file (proghdrOff elf i) proghdrSize).length = proghdrSize
  · have hph : header file elf i = some (proghdrOf (readi file (proghdrOff elf i) proghdrSize)) :=
      if_pos hread
    obtain ⟨ph, hdef⟩ : ∃ ph, ph = proghdrOf (readi file (proghdrOff elf i) proghdrSize) := ⟨_, rfl⟩
    rw [if_neg (not_not.mpr hread), ← hdef]
    rw [← hdef] at hph
    have hva : ph.vaddr < 256 ^ 8 := hdef ▸ wordAt_lt _ _ _
    have hmem : ph.memsz < 256 ^ 8 := hdef ▸ wordAt_lt _ _ _
    by_cases hload : ph.type = ELF_PROG_LOAD
    · rw [if_neg (not_not.mpr hload)]
      split
      · rename_i hsizes
        exact (wp_pure _).mpr (segmentPost_insane h hph hload fun hsane => by
          have := hsane.1
          omega)
      split
      · rename_i hwrap
        refine (wp_pure _).mpr (segmentPost_insane h hph hload fun hsane => ?_)
        rw [Nat.mod_eq_of_lt hsane.2.1] at hwrap
        omega
      split
      · rename_i halign
        exact (wp_pure _).mpr (segmentPost_insane h hph hload fun hsane => halign hsane.2.2)
      · rename_i hsizes hwrap halign
        have hsane : ph.Sane := ⟨by omega, by omega, not_not.mp halign⟩
        have hend : (ph.vaddr + ph.memsz) % 2 ^ 64 = segmentEnd file elf i := by
          rw [Nat.mod_eq_of_lt hsane.2.1, segmentEnd_of_load hph hload]
        rw [wp_bind, hend]
        refine (h.uvmalloc_spec (flags2perm_lt _)).mono fun sz₁ s₁ halloc => ?_
        rw [Image.AllocPost] at halloc
        obtain ⟨own₁, ⟨rfl, -, himage, hframe⟩ | ⟨rfl, hfull, hsame⟩⟩ := halloc
        · have hpos := himage.pos
          rw [if_neg (by rw [show PGSIZE = 4096 from rfl] at hpos; omega), wp_bind]
          have hread :=
            loadsegment_read hlen hph hload hsane hE
              ⟨himage.owned, hframe.widen fun _ hnot => hnot.elim⟩ himage rfl
          refine hread.mono fun rc s₂ hpost => ?_
          split
          · rename_i hneg
            rw [if_pos hneg] at hpost
            exact (wp_pure _).mpr hpost
          · rename_i hneg
            rw [if_neg hneg] at hpost
            exact (wp_pure _).mpr hpost
        · rw [if_pos rfl, wp_pure]
          exact ⟨own₁, ⟨hsame.owned, hsame.frame.widen (by simp)⟩,
            (hsame.resized h.space fun _ => False).space, .inr hfull⟩
    · have hskip : segmentEnd file elf i = 0 := by
        rw [segmentEnd, hph]
        exact if_neg hload
      have hsame : imageEnd file elf (i + 1) = imageEnd file elf i := by
        rw [imageEnd, hskip, Nat.max_zero]
      rw [if_pos hload, wp_pure]
      exact ⟨own, Changed.refl h.owned r, hsame.symm, ⟨ph, hph, fun hl => absurd hl hload⟩, h⟩
  · have hnone : header file elf i = none := if_neg hread
    rw [if_pos hread, wp_pure]
    refine ⟨own, Changed.refl h.owned r, h.space, .inl ⟨?_, ?_⟩⟩
    · rintro ⟨ph, hph, -⟩
      cases hnone.symm.trans hph
    · rintro ⟨ph, hph, -⟩
      cases hnone.symm.trans hph

/-- Where the loader is after the loop. -/
def SegmentsPost (own : Owner) (r base : Nat) (file : List UInt8) (elf : Elfhdr) (n : Nat)
    (s : Phys) (res : Except Nat Nat) (s' : Phys) : Prop :=
  ¬ NullLoad file elf n base ∧ ∃ own', Changed r own own' s s' ∧
    match res with
    | .ok sz => Image base r sz own' s'
    | .error sz => Space own' s' r sz

theorem loadSegments_spec (h : Image base r PGSIZE own s) (hlen : file.length < 2 ^ 32)
    (hE : NullLoad file elf n base → E .loadseg) :
    wp (foldUntil (loadSegment r file elf) n PGSIZE) E
      (SegmentsPost own r base file elf n s) s := by
  refine (wp_foldUntil (I := fun i sz t => sz = imageEnd file elf i ∧
      (∀ j, j < i → Passes file elf j) ∧ ∃ own₁, Changed r own own₁ s t ∧ Image base r sz own₁ t)
    (R := fun sz t => SegmentsPost own r base file elf n s (.error sz) t)
    ⟨rfl, fun j hj => absurd hj (Nat.not_lt_zero j), own, Changed.refl h.owned r, h⟩
    fun i hi sz t hinv => ?_).mono fun res t hres => ?_
  · obtain ⟨rfl, hpass, own₁, hchanged, himage⟩ := hinv
    refine (loadSegment_spec himage hlen fun hnull hcost => hE ⟨i, hi, hnull, hpass, hcost⟩).mono
      fun res t' hpost => ?_
    obtain ⟨own₂, hchanged₂, hres⟩ := hpost
    rcases res with sz' | sz'
    · exact ⟨not_nullLoad_of_stop hpass hres.2, own₂, hchanged.trans hchanged₂, hres.1⟩
    · obtain ⟨rfl, hpass', himage'⟩ := hres
      refine ⟨rfl, fun j hj => ?_, own₂, hchanged.trans hchanged₂, himage'⟩
      rcases Nat.lt_succ_iff_lt_or_eq.mp hj with hj | rfl
      · exact hpass j hj
      · exact hpass'
  · rcases res with sz | sz
    · exact hres
    · obtain ⟨-, hpass, own₁, hchanged, himage⟩ := hres
      exact ⟨not_nullLoad_of_passes hpass, own₁, hchanged, himage⟩

end Loop

end Xv6.Vm
