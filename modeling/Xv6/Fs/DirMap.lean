import Xv6.Fs.DirSpec
import Xv6.Fs.Image
import Xv6.Lib.Run
import Xv6.Lib.SlotMap

/-!
# A directory is a finite map

A directory starts with its entries `.` and `..`; names are added by `dirlink` and removed
by clearing entries.

* `Event`, `mapped`: what has happened to the directory, and the map from names to inode
  numbers that follows from it.
* `DirSys`, `dirStep`: a directory with its history.
* `DirInv`: the entries represent the map.
* `directory_finite_map`.
-/

namespace Xv6.Fs

open Xv6.Lib.Bytes Xv6.Lib.Run Xv6.Lib.SlotMap Xv6.Lib.Wp
open Function (update update_of_ne update_self)

variable {de : Dirent} {k : Nat} {d' : Dinode} {own' : Owners} {s' : Vol}

/-! ## The map -/

/-- The names `.` and `..`. -/
def dot : List UInt8 := [46]
def dotdot : List UInt8 := [46, 46]

inductive Event where
  | linked (name : List UInt8) (inum : Nat)
  /-- A call of `dirlink` that failed. -/
  | refused
  | removed (name : List UInt8)

def Event.apply (map : List UInt8 → Option Nat) : Event → List UInt8 → Option Nat
  | .linked name inum => update map name (some inum)
  | .refused => map
  | .removed name => update map name none

/-- The map of a directory that was empty before `hist`. -/
def mapped (here parent : Nat) (hist : List Event) : List UInt8 → Option Nat :=
  hist.foldl Event.apply
    (update (update (fun _ => none) dot (some here)) dotdot (some parent))

theorem mapped_append (here parent : Nat) (hist : List Event) (e : Event) :
    mapped here parent (hist ++ [e]) = e.apply (mapped here parent hist) := by
  rw [mapped, List.foldl_append]
  rfl

/-! ## The directory -/

/-- The entry `k` of the locked directory `ip`. -/
def Vol.dirent (s : Vol) (ip k : Nat) : Dirent := (s.itable ip).din.dirent s.disk k

/-- The number of its entries. -/
def Vol.entries (s : Vol) (ip : Nat) : Nat := rounds (s.itable ip).din.size

/-- An entry as a slot of the map. -/
def Dirent.slot (de : Dirent) : Option (List UInt8 × Nat) :=
  if de.inum = 0 then none else some (keyOf de.name, de.inum)

structure DirSys where
  vol : Vol
  hist : List Event

inductive DirAct where
  | link (name : Nat → UInt8) (inum : Nat)
  /-- What `sys_unlink` does to the entry `k`. -/
  | zero (k : Nat)
  | beginOp
  | endOp

def dirStep (ip : Nat) (sys : DirSys) : DirAct → Option DirSys
  | .link name inum =>
    if 0 < sys.vol.outstanding ∧ 1 ≤ inum ∧ inum ≤ 65535 then
      match dirlink ip name inum sys.vol with
      | .ok (r, s) => some ⟨s, sys.hist ++ [if r = 0 then .linked (keyOf name) inum else .refused]⟩
      | .error _ => none
    else none
  | .zero k =>
    if 0 < sys.vol.outstanding ∧ 2 ≤ k ∧ k < sys.vol.entries ip ∧
      (sys.vol.dirent ip k).inum ≠ 0 then
      match writei ip ⟨fun _ => 0, none⟩ (k * direntSize) direntSize sys.vol with
      | .ok (r, s) =>
        if r ≠ direntSize then none
        else some ⟨s, sys.hist ++ [.removed (keyOf (sys.vol.dirent ip k).name)]⟩
      | .error _ => none
    else none
  | .beginOp => some { sys with vol := { sys.vol with outstanding := sys.vol.outstanding + 1 } }
  | .endOp =>
    match endOp sys.vol with
    | .ok (_, s) => some { sys with vol := s }
    | .error _ => none

/-! ## The invariant -/

/-- The inode `i`, locked in the table entry `ip`, is a directory with `m` entries that
represent the map of its history. -/
structure DirInv (ip here parent : Nat) (ino : Nat → Dinode) (own : Owners) (i m : Nat)
    (sys : DirSys) : Prop where
  ok : FsOk ino own Nothing Nothing sys.vol
  refs : Refs sys.vol.itable
  entry : Entry ip i (ino i) sys.vol
  dir : IsDir (ino i) m
  names : Represents (fun k => ((ino i).dirent sys.vol.disk k).slot) m (mapped here parent sys.hist)
  two : 2 ≤ m
  dot : ((ino i).dirent sys.vol.disk 0).slot = some (Fs.dot, here)
  dotdot : ((ino i).dirent sys.vol.disk 1).slot = some (Fs.dotdot, parent)

section Invariant

variable {ip here parent : Nat} {ino : Nat → Dinode} {own : Owners} {i m : Nat}
  {sys : DirSys}

theorem slot_eq_none (h : de.inum = 0) : de.slot = none := if_pos h

theorem slot_eq_some (h : de.inum ≠ 0) : de.slot = some (keyOf de.name, de.inum) := if_neg h

theorem of_slot_eq_some {name : List UInt8} {inum : Nat} (h : de.slot = some (name, inum)) :
    de.inum ≠ 0 ∧ keyOf de.name = name := by
  rw [Dirent.slot] at h
  split at h
  · cases h
  · next hlive =>
    rw [Option.some.injEq, Prod.mk.injEq] at h
    exact ⟨hlive, h.1⟩

theorem DirInv.setLog (h : DirInv ip here parent ino own i m sys) (outstanding : Nat)
    (lh : List Nat) :
    DirInv ip here parent ino own i m { sys with vol := { sys.vol with outstanding, lh } } :=
  ⟨h.ok.setLog rfl rfl rfl, h.refs, ⟨h.entry.ref, h.entry.inum, h.entry.din⟩, h.dir, h.names, h.two,
    h.dot, h.dotdot⟩

/-- An entry behind the first two changes as the map does. -/
theorem DirInv.setEntry (h : DirInv ip here parent ino own i m sys) {m' : Nat} {done : Bool}
       {e : Event} (hk : done = true → 2 ≤ k)
    (hset : EntrySet ino Nothing i k de done d' own' sys.vol s')
    (huse : SameUse (setDinAt sys.vol.itable ip d') s'.itable)
    (hsize : d'.size = m' * direntSize) (hm : m ≤ m')
    (hnames : Represents (fun l => if done = true ∧ l = k then de.slot
      else ((ino i).dirent sys.vol.disk l).slot) m' (mapped here parent (sys.hist ++ [e]))) :
    DirInv ip here parent (update ino i d') own' i m' ⟨s', sys.hist ++ [e]⟩ := by
  have hself : update ino i d' i = d' := update_self ..
  have hentry : Entry ip i d' { sys.vol with itable := setDinAt sys.vol.itable ip d' } :=
    h.entry.setDin rfl
  have htable : s'.itable ip = setDinAt sys.vol.itable ip d' ip := huse.used ip hentry.ref
  have hslots : ∀ l, l < m' → (d'.dirent s'.disk l).slot =
      if done = true ∧ l = k then de.slot else ((ino i).dirent sys.vol.disk l).slot := by
    intro l hl
    rw [hset.entries l (by rw [hsize]; exact Nat.mul_le_mul_right _ hl)]
    split <;> rfl
  have hm' : 2 ≤ m' := Nat.le_trans h.two hm
  refine ⟨hset.ok, huse.refs ?_, ⟨?_, ?_, ?_⟩, ⟨?_, ?_⟩, ?_, hm', ?_, ?_⟩
  · exact h.refs.update (h.refs.bound ip h.entry.ref) (h.refs.nonneg ip)
  · show 0 < (s'.itable ip).ref
    rw [htable]
    exact hentry.ref
  · show (s'.itable ip).inum = i
    rw [htable]
    exact hentry.inum
  · show (s'.itable ip).din = _
    rw [htable, hself]
    exact hentry.din
  · rw [hself, hset.attrs]
    exact h.dir.type
  · rw [hself]
    exact hsize
  · rw [hself]
    exact hnames.congr hslots
  · rw [hself, hslots 0 (by omega), if_neg fun hdone => by have := hk hdone.1; omega]
    exact h.dot
  · rw [hself, hslots 1 (by omega), if_neg fun hdone => by have := hk hdone.1; omega]
    exact h.dotdot

/-- `dirlink` has returned `r`. -/
theorem DirInv.link (h : DirInv ip here parent ino own i m sys) {inum : Nat} {name : Nat → UInt8}
    {r : Int}
       (hlow : 1 ≤ inum) (hhigh : inum ≤ 65535)
    (hlinked : Linked ino Nothing i ip m k name inum r d' own' sys.vol s') :
    ∃ m', DirInv ip here parent (update ino i d') own' i m'
      ⟨s', sys.hist ++ [if r = 0 then .linked (keyOf name) inum else .refused]⟩ := by
  have hset := hlinked.entry
  rcases hlinked.result with rfl | rfl
  · -- the new entry is not one of the first two, which are in use
    have hk : 2 ≤ k := by
      by_contra hlt
      have hempty := slot_eq_none (hlinked.empty (Nat.lt_of_lt_of_le (Nat.not_le.mp hlt) h.two))
      rcases (by omega : k = 0 ∨ k = 1) with rfl | rfl
      · rw [h.dot] at hempty
        cases hempty
      · rw [h.dotdot] at hempty
        cases hempty
    have hmod : inum % 2 ^ 16 = inum := Nat.mod_eq_of_lt (by omega)
    have hslot : (newDirent name inum).slot = some (keyOf name, inum) := by
      rw [slot_eq_some, keyOf_newDirent]
      · show some (keyOf name, inum % 2 ^ 16) = _
        rw [hmod]
      · show inum % 2 ^ 16 ≠ 0
        omega
    have hfresh : mapped here parent sys.hist (keyOf name) = none := by
      refine h.names.eq_none_iff.mpr fun l v hl hslot => hlinked.fresh rfl l hl ?_
      exact of_slot_eq_some hslot
    have hinsert :=
      h.names.insert (v := inum) hlinked.le (fun hlt => slot_eq_none (hlinked.empty hlt)) hfresh
    refine ⟨max m (k + 1), h.setEntry (fun _ => hk) hset hlinked.itable ?_ (Nat.le_max_left _ _) ?_⟩
    · rw [hset.size, if_pos (by decide), h.dir.size, Nat.mul_max_mul_right]
    · rw [mapped_append, if_pos rfl]
      refine hinsert.congr fun l _ => ?_
      rcases eq_or_ne l k with rfl | hne
      · rw [if_pos ⟨by decide, rfl⟩, update_self, hslot]
      · rw [if_neg fun hdone => hne hdone.2, update_of_ne hne]
  · refine ⟨m, h.setEntry (fun hdone => absurd hdone (by decide)) hset hlinked.itable ?_
      (Nat.le_refl m) ?_⟩
    · rw [hset.size, if_neg (by decide), h.dir.size]
    · rw [mapped_append, if_neg (by decide)]
      refine h.names.congr fun l _ => ?_
      rw [if_neg fun hdone => absurd hdone.1 (by decide)]

/-- The entry `k` has been cleared. -/
theorem DirInv.zero (h : DirInv ip here parent ino own i m sys) (hk : 2 ≤ k) (hkm : k < m)
    (hlive : ((ino i).dirent sys.vol.disk k).inum ≠ 0)
    (hset : EntrySet ino Nothing i k ⟨0, fun _ => 0⟩ true d' own' sys.vol s')
    (htable : s'.itable = setDinAt sys.vol.itable ip d') :
    DirInv ip here parent (update ino i d') own' i m
      ⟨s', sys.hist ++ [.removed (keyOf ((ino i).dirent sys.vol.disk k).name)]⟩ := by
  have hremove := h.names.remove hkm (slot_eq_some hlive)
  refine h.setEntry (fun _ => hk) hset (htable ▸ SameUse.refl _) ?_ (Nat.le_refl m) ?_
  · rw [hset.size, if_pos rfl, h.dir.size, Nat.mul_max_mul_right, Nat.max_eq_left hkm]
  · rw [mapped_append]
    refine hremove.congr fun l _ => ?_
    rcases eq_or_ne l k with rfl | hne
    · rw [if_pos ⟨rfl, rfl⟩, update_self, slot_eq_none rfl]
    · rw [if_neg fun hdone => hne hdone.2, update_of_ne hne]

/-- The bytes of a cleared entry. -/
theorem direntBytes_zero : direntBytes ⟨0, fun _ => 0⟩ = fun _ => 0 := by
  funext a
  rw [direntBytes, writeLE]
  split
  · split
    · rw [Nat.zero_div]
      rfl
    · rfl
  · rfl

theorem dirInv_step {sys' : DirSys} {a : DirAct} (h : DirInv ip here parent ino own i m sys)
    (hstep : dirStep ip sys a = some sys') :
    ∃ ino' own' m', DirInv ip here parent ino' own' i m' sys' := by
  have hroom : 0 < sys.vol.outstanding → Room (fun _ => True) sys.vol := fun htrans =>
    ⟨htrans, trivial⟩
  cases a with
  | link name inum =>
    simp only [dirStep] at hstep
    split at hstep
    · next hguard =>
      split at hstep
      · next r s hrun =>
        cases hstep
        obtain ⟨k, d', own', hlinked⟩ := (dirlink_spec h.ok h.entry h.dir h.refs (hroom hguard.1)
          (fun _ => trivial) name inum).of_ok hrun
        obtain ⟨m', hinv⟩ := h.link hguard.2.1 hguard.2.2 hlinked
        exact ⟨_, _, m', hinv⟩
      · cases hstep
    · cases hstep
  | zero k =>
    simp only [dirStep] at hstep
    split at hstep
    · next hguard =>
      obtain ⟨htrans, hk, hcount, hlive⟩ := hguard
      rw [Vol.entries, h.entry.din, h.dir.rounds_eq] at hcount
      rw [Vol.dirent, h.entry.din] at hlive
      split at hstep
      · next r s hrun =>
        split at hstep
        · cases hstep
        · next hdone =>
          cases hstep
          have hstored : Dirent.Stored ⟨0, fun _ => 0⟩ := ⟨by decide, fun _ _ => rfl⟩
          have hspec :=
            writeDirent_spec (E := fun _ => True) h.ok h.entry h.dir (Nat.le_of_lt hcount)
            (hroom htrans) hstored
          rw [direntBytes_zero] at hspec
          obtain ⟨d', own', hset, -, htable⟩ := hspec.of_ok hrun
          rw [decide_eq_true (not_not.mp hdone)] at hset
          rw [Vol.dirent, h.entry.din]
          exact ⟨_, _, m, h.zero hk hcount hlive hset htable⟩
      · cases hstep
    · cases hstep
  | beginOp =>
    cases hstep
    exact ⟨ino, own, m, h.setLog _ _⟩
  | endOp =>
    cases hstep
    exact ⟨ino, own, m, h.setLog _ _⟩

theorem dirInv_run {sys' : DirSys} {acts : List DirAct} (h : DirInv ip here parent ino own i m sys)
    (hrun : exec (dirStep ip) sys acts = some sys') :
    ∃ ino' own' m', DirInv ip here parent ino' own' i m' sys' := by
  refine inv_of_run (I := fun sys => ∃ ino own m, DirInv ip here parent ino own i m sys)
    (fun s a t hs hstep => ?_) ⟨ino, own, m, h⟩ hrun
  obtain ⟨ino, own, m, hinv⟩ := hs
  exact dirInv_step hinv hstep

end Invariant

/-! ## Runs -/

/-- The table entry `ip` holds a locked directory that has the entries `.` and `..` only. -/
structure EmptyDirectory (ip here parent : Nat) (s : Vol) : Prop where
  wf : ∃ ino own, FsOk ino own Nothing Nothing s
  refs : Refs s.itable
  ref : 0 < (s.itable ip).ref
  valid : (s.itable ip).valid = true
  type : (s.itable ip).din.type = T_DIR
  size : (s.itable ip).din.size = 2 * direntSize
  dot : (s.dirent ip 0).slot = some (Fs.dot, here)
  dotdot : (s.dirent ip 1).slot = some (Fs.dotdot, parent)

section Runs

variable {ip here parent : Nat} {s : Vol} {sys : DirSys} {acts : List DirAct}

theorem EmptyDirectory.inv (h : EmptyDirectory ip here parent s) :
    ∃ ino own, DirInv ip here parent ino own (s.itable ip).inum 2 ⟨s, []⟩ := by
  obtain ⟨ino, own, hok⟩ := h.wf
  have hdin := (hok.valid ip h.ref h.valid nofun).1
  have htype := h.type
  have hsize := h.size
  have hdot := h.dot
  have hdotdot := h.dotdot
  rw [Vol.dirent] at hdot hdotdot
  rw [hdin] at htype hsize hdot hdotdot
  refine ⟨ino, own, hok, h.refs, ⟨h.ref, rfl, hdin⟩, ⟨htype, hsize⟩, ?_, Nat.le_refl 2, hdot,
    hdotdot⟩
  have hone :=
    (represents_empty (fun _ => none)).insert (k := 0) (c := Fs.dot) (v := here) (Nat.le_refl 0)
    (fun hlt => absurd hlt (Nat.lt_irrefl 0)) rfl
  have htwo := hone.insert (k := 1) (c := Fs.dotdot) (v := parent) (Nat.le_refl 1)
    (fun hlt => absurd hlt (Nat.lt_irrefl 1)) (update_of_ne (by decide) _ _)
  refine htwo.congr fun l hl => ?_
  rcases (by omega : l = 0 ∨ l = 1) with rfl | rfl
  · exact hdot
  · exact hdotdot

/-- The result of `dirlookup` as an inode number. -/
def lookupResult (r : Option (Nat × Nat)) (s : Vol) : Option Nat :=
  r.map fun p => (s.itable p.1).inum

/-- After any number of calls of `dirlink` and removals, no two live entries have the same
name, `dirlookup` returns what the history says unless the table of inodes is full, the
first two entries are `.` and `..`, and `isdirempty` holds if no other name is left. -/
theorem directory_finite_map (h : EmptyDirectory ip here parent s)
    (hrun : exec (dirStep ip) ⟨s, []⟩ acts = some sys) :
    (∀ k l, k < sys.vol.entries ip → l < sys.vol.entries ip → (sys.vol.dirent ip k).inum ≠ 0 →
      (sys.vol.dirent ip l).inum ≠ 0 →
      namecmp (sys.vol.dirent ip k).name (sys.vol.dirent ip l).name = 0 → k = l) ∧
    (∀ name, wp (dirlookup ip name)
      (fun e => e = .igetNoInodes ∧ ∀ e, e < NINODE → (sys.vol.itable e).ref ≠ 0)
      (fun r s' => lookupResult r s' = mapped here parent sys.hist (keyOf name)) sys.vol) ∧
    (2 ≤ sys.vol.entries ip ∧ (sys.vol.dirent ip 0).slot = some (dot, here) ∧
      (sys.vol.dirent ip 1).slot = some (dotdot, parent)) ∧
    wp (isdirempty ip) (fun _ => False) (fun r _ => r = true ↔
      ∀ name, name ≠ dot → name ≠ dotdot → mapped here parent sys.hist name = none) sys.vol := by
  obtain ⟨ino₀, own₀, hinv₀⟩ := h.inv
  obtain ⟨ino, own, m, hinv⟩ := dirInv_run hinv₀ hrun
  generalize (s.itable ip).inum = i at hinv
  have hi : i < sys.vol.sb.ninodes := hinv.entry.inum ▸ hinv.ok.range ip hinv.entry.ref
  have hdirent : ∀ k, sys.vol.dirent ip k = (ino i).dirent sys.vol.disk k := fun k => by
    rw [Vol.dirent, hinv.entry.din]
  have hentries : sys.vol.entries ip = m := by rw [Vol.entries, hinv.entry.din, hinv.dir.rounds_eq]
  rw [hentries]
  simp only [hdirent]
  refine ⟨fun k l hk hl hlive hlive' hcmp => ?_, fun name => ?_,
    ⟨hinv.two, hinv.dot, hinv.dotdot⟩, ?_⟩
  · exact hinv.names.distinct k l _ _ hk hl (slot_eq_some hlive) (slot_eq_some hlive')
      (namecmp_eq_zero.mp hcmp)
  · refine (dirlookup_spec hinv.ok hinv.entry.din hi hinv.dir hinv.refs (fun hfull => ⟨rfl, hfull⟩)
      name).mono fun r s' hs' => ?_
    cases r with
    | none =>
      refine (hinv.names.eq_none_iff.mpr fun k v hk hslot => hs'.2 k hk ?_).symm
      exact of_slot_eq_some hslot
    | some p =>
      obtain ⟨k, hfound⟩ := hs'
      obtain ⟨itable', hgot, rfl⟩ := hfound.table
      have hslot := slot_eq_some hfound.named.1
      rw [hfound.named.2] at hslot
      rw [hinv.names.eq_some hfound.lt hslot]
      show some (itable' p.1).inum = _
      rw [hgot.entry.1]
  · refine (isdirempty_spec hinv.ok hinv.entry.din hi hinv.dir).mono fun r s' hs' => hs'.2.trans ?_
    constructor
    · intro hempty name hdot hdotdot
      refine hinv.names.eq_none_iff.mpr fun k v hk hslot => ?_
      have hlow : 2 ≤ k := by
        by_contra hlt
        rcases (by omega : k = 0 ∨ k = 1) with rfl | rfl
        · rw [hinv.dot] at hslot
          cases hslot
          exact hdot rfl
        · rw [hinv.dotdot] at hslot
          cases hslot
          exact hdotdot rfl
      exact (of_slot_eq_some hslot).1 (hempty k hlow hk)
    · intro hnone k hlow hk
      by_contra hlive
      have hslot := slot_eq_some hlive
      have htwo := hinv.two
      have hmapped := hnone (keyOf ((ino i).dirent sys.vol.disk k).name)
        (fun heq => by
          have := hinv.names.distinct k 0 _ _ hk (by omega) hslot hinv.dot heq
          omega)
        (fun heq => by
          have := hinv.names.distinct k 1 _ _ hk (by omega) hslot hinv.dotdot heq
          omega)
      rw [hinv.names.eq_some hk hslot] at hmapped
      cases hmapped

/-- The root directory of the image, locked inside of a transaction. -/
def lockedRoot : Vol where
  sb := smallSb
  disk := imageDisk
  itable e :=
    if e = 0 then { inum := 1, ref := 1, locked := true, valid := true, din := imageIno 1 }
    else { inum := 0, ref := 0, locked := false, valid := false, din := freshDinode 0 }
  outstanding := 1

theorem lockedRoot_table {e : Nat} (href : 0 < (lockedRoot.itable e).ref) : e = 0 := by
  by_contra hne
  rw [lockedRoot] at href
  simp [hne] at href

theorem emptyDirectory_lockedRoot : EmptyDirectory 0 1 1 lockedRoot := by
  refine ⟨⟨_, _, image_ok rfl rfl (fun e => lockedRoot_table) (fun _ => rfl) fun _ => rfl⟩,
    ⟨fun e => ?_,
      ?_⟩, by decide, by decide, by decide +kernel, by decide +kernel, by decide +kernel,
      by decide +kernel⟩
  · rw [lockedRoot]
    dsimp only
    split <;> decide
  · intro e href
    rw [lockedRoot_table href]
    decide

/-- A name of 17 characters, the first `DIRSIZ` of which count. -/
def longName (a : Nat) : UInt8 := if a < 17 then UInt8.ofNat (97 + a) else 0

/-- The name is linked and then refused, once with other characters behind `DIRSIZ`. -/
def longNameRun : List DirAct :=
  [.link longName 5, .link (fun a => if a < 14 then longName a else 0) 6]

theorem directory_finite_map_longNameRun :
    ∃ sys r s', exec (dirStep 0) ⟨lockedRoot, []⟩ longNameRun = some sys ∧
      dirlookup 0 longName sys.vol = .ok (r, s') ∧ lookupResult r s' = some 5 := by
  have hcheck : runCheck (dirStep 0) (fun _ _ => true) (fun sys => decide (
    mapped 1 1 sys.hist (keyOf longName) = some 5 ∧ (sys.vol.itable 1).ref = 0)) ⟨lockedRoot, []⟩
    longNameRun = true := by decide +kernel
  obtain ⟨-, sys, hrun, hsys⟩ := of_runCheck hcheck
  obtain ⟨hmapped, hfree⟩ := of_decide_eq_true hsys
  have hlookup := (directory_finite_map emptyDirectory_lockedRoot hrun).2.1 longName
  rw [hmapped] at hlookup
  obtain ⟨r, s', hresult, hr⟩ := wp.returns (hlookup.mono_fail fun e hfull =>
    hfull.2 1 (by decide) hfree)
  exact ⟨sys, r, s', hrun, hresult, hr⟩

end Runs

end Xv6.Fs
