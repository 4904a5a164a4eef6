import Xv6.Fs.Runs
import Mathlib.Algebra.BigOperators.Group.Finset.Piecewise

/-!
# Processes that write to one open file

Any number of processes call `filewrite` on the same open file, so they share its offset.

* `Phase`: where a process is in `filewrite`; `SharedFile`: the file system, the open file
  and the processes, with a log of the chunks in the order in which they were written.
* `step`: one process goes on to the next point where others may come in between.  The
  offset is used and advanced while the inode is locked.
* `chunk`: the chunks into which `filewrite` cuts a buffer.
* `Inv`: the log is what the file holds from the first offset on.
* `shared_writes_concatenate`.
-/

namespace Xv6.Fs.Shared

open Xv6.Lib.Run Xv6.Lib.Wp
open Function (update update_of_ne update_self)

/-! ## The processes -/

/-- A call of `filewrite`: its number in the order of the calls, and its arguments. -/
structure Call where
  id : Nat
  src : Mem
  n : Nat

/-- Where a process is; `i` is the number of bytes that the call has written. -/
inductive Phase where
  | idle
  /-- Before `while(i < n)`. -/
  | top (call : Call) (i : Nat)
  /-- After `begin_op`. -/
  | begun (call : Call) (i : Nat)
  /-- After `ilock`. -/
  | locked (call : Call) (i : Nat)
  /-- After `f->off += r`. -/
  | wrote (call : Call) (i : Nat) (r : Int)
  /-- After `iunlock`. -/
  | unlocked (call : Call) (i : Nat) (r : Int)

structure SharedFile where
  vol : Vol
  f : IFile
  phase : Nat → Phase
  /-- The buffers and lengths of all calls so far, without those that find the file
  not `writable`. -/
  calls : List (Mem × Nat)
  /-- The chunks that have been written, each with the number of its call. -/
  log : List (Nat × List UInt8)

inductive Act where
  | call (p : Nat) (src : Mem) (n : Nat)
  | run (p : Nat)

def SharedFile.setPhase (m : SharedFile) (p : Nat) (ph : Phase) : SharedFile :=
  { m with phase := update m.phase p ph }

/-- The length of the next chunk. -/
def chunkLen (n i : Nat) : Nat := min (n - i) maxChunk

/-- The next part of `filewrite`; `none` if the process has to wait, or panics. -/
def runPhase (m : SharedFile) (p : Nat) : Phase → Option SharedFile
  | .idle => none
  | .top call i =>
    if i < call.n then
      match beginOp m.vol with
      | .ok (_, s) => some ({ m with vol := s }.setPhase p (.begun call i))
      | .error _ => none
    else some (m.setPhase p .idle)
  | .begun call i =>
    match ilock m.f.ip m.vol with
    | .ok (_, s) => some ({ m with vol := s }.setPhase p (.locked call i))
    | .error _ => none
  | .locked call i =>
    match writei m.f.ip (call.src.drop i) m.f.off (chunkLen call.n i) m.vol with
    | .ok (r, s) =>
      some ({ m with
        vol := s
        f := m.f.advance r
        log := m.log ++ [(call.id, (call.src.drop i).take r.toNat)] }.setPhase p (.wrote call i r))
    | .error _ => none
  | .wrote call i r =>
    match iunlock m.f.ip m.vol with
    | .ok (_, s) => some ({ m with vol := s }.setPhase p (.unlocked call i r))
    | .error _ => none
  | .unlocked call i r =>
    match endOp m.vol with
    | .ok (_, s) =>
      some ({ m with vol := s }.setPhase p
        (if r ≠ chunkLen call.n i then .idle else .top call (i + chunkLen call.n i)))
    | .error _ => none

def step (m : SharedFile) : Act → Option SharedFile
  | .call p src n =>
    match m.phase p with
    | .idle =>
      -- `filewrite` returns -1
      if m.f.writable = false then some m
      else some ({ m with calls := m.calls ++ [(src, n)] }.setPhase p
        (.top ⟨m.calls.length, src, n⟩ 0))
    | _ => none
  | .run p => runPhase m p (m.phase p)

def start (s : Vol) (f : IFile) : SharedFile := ⟨s, f, fun _ => .idle, [], []⟩

/-- The step is not a call of `writei` that writes less than its chunk. -/
def writesAll (m : SharedFile) : Act → Bool
  | .call .. => true
  | .run p =>
    match m.phase p with
    | .locked call i =>
      match writei m.f.ip (call.src.drop i) m.f.off (chunkLen call.n i) m.vol with
      | .ok (r, _) => decide (r = chunkLen call.n i)
      | .error _ => true
    | _ => true

/-! ## Chunks -/

/-- The chunk `j` of a buffer of `n` bytes. -/
def chunk (src : Mem) (n j : Nat) : List UInt8 :=
  (src.drop (j * maxChunk)).take (chunkLen n (j * maxChunk))

def nchunks (n : Nat) : Nat := (n + maxChunk - 1) / maxChunk

/-- All chunks of a call, in order. -/
def chunks (src : Mem) (n : Nat) : List (List UInt8) :=
  (List.range (nchunks n)).map (chunk src n)

/-- The chunks of the call `c` in a log, in order. -/
def chunksOf (c : Nat) (log : List (Nat × List UInt8)) : List (List UInt8) :=
  (log.filter fun e => e.1 = c).map Prod.snd

section Chunks

variable {src : Mem} {n i j c c' : Nat} {log : List (Nat × List UInt8)} {bytes : List UInt8}

theorem length_chunk (src : Mem) (n j : Nat) :
    (chunk src n j).length = chunkLen n (j * maxChunk) := by
  rw [chunk, Mem.take, List.length_map, List.length_range]

theorem chunksOf_append_self : chunksOf c (log ++ [(c, bytes)]) = chunksOf c log ++ [bytes] := by
  simp [chunksOf]

theorem chunksOf_append_of_ne (hne : c ≠ c') :
    chunksOf c (log ++ [(c', bytes)]) = chunksOf c log := by
  simp [chunksOf, hne.symm]

/-- The first `j` chunks have all bytes up to the chunk `j`. -/
theorem sum_length_chunks (src : Mem) (n j : Nat) :
    (((List.range j).map (chunk src n)).map List.length).sum = min n (j * maxChunk) := by
  induction j with
  | zero => simp
  | succ j ih =>
    rw [List.range_succ, List.map_append, List.map_append, List.sum_append, ih]
    simp only [List.map_cons, List.map_nil, List.sum_cons, List.sum_nil, length_chunk, chunkLen]
    rw [Nat.succ_mul]
    omega

theorem sum_length_all (src : Mem) (n : Nat) : ((chunks src n).map List.length).sum = n := by
  rw [chunks, sum_length_chunks, nchunks]
  refine Nat.min_eq_left ?_
  have hpos : 0 < maxChunk := by decide
  have hdiv := Nat.div_add_mod (n + maxChunk - 1) maxChunk
  have hmod := Nat.mod_lt (n + maxChunk - 1) hpos
  rw [Nat.mul_comm] at hdiv
  omega

theorem sum_length_chunksOf_append (log : List (Nat × List UInt8)) (e : Nat × List UInt8)
    (c : Nat) :
    ((chunksOf c (log ++ [e])).map List.length).sum =
      ((chunksOf c log).map List.length).sum + if e.1 = c then e.2.length else 0 := by
  obtain ⟨c', bytes⟩ := e
  rcases eq_or_ne c c' with rfl | hne
  · rw [chunksOf_append_self, if_pos rfl]
    simp
  · rw [chunksOf_append_of_ne hne, if_neg hne.symm, Nat.add_zero]

/-- The bytes of a log are those of its calls. -/
theorem sum_length_log (k : Nat) (hids : ∀ e ∈ log, e.1 < k) :
    (log.map fun e => e.2.length).sum = ∑ c ∈ Finset.range k,
      ((chunksOf c log).map List.length).sum := by
  induction log using List.reverseRecOn with
  | nil => simp [chunksOf]
  | append_singleton log e ih =>
    have he : e.1 ∈ Finset.range k := Finset.mem_range.mpr (hids e (by simp))
    simp only [sum_length_chunksOf_append, Finset.sum_add_distrib, Finset.sum_ite_eq, if_pos he]
    rw [← ih fun e he => hids e (List.mem_append_left _ he)]
    simp

/-- A sum over the calls. -/
theorem sum_calls (calls : List (Mem × Nat)) (f : Nat → Nat)
    (hf : ∀ c src n, calls[c]? = some (src, n) → f c = n) :
    ∑ c ∈ Finset.range calls.length, f c = (calls.map Prod.snd).sum := by
  induction calls using List.reverseRecOn with
  | nil => simp
  | append_singleton calls call ih =>
    obtain ⟨src, n⟩ := call
    have hlast : f calls.length = n := hf calls.length src n (by simp)
    rw [List.length_append, List.length_singleton, Finset.sum_range_succ, hlast, ih]
    · simp
    · intro c src' n' hc
      refine hf c src' n' ?_
      rw [List.getElem?_append_left (List.getElem?_eq_some_iff.mp hc).1]
      exact hc

end Chunks

/-! ## The calls -/

/-- The call that a process is in. -/
def Phase.call : Phase → Option Call
  | .idle => none
  | .top call _ => some call
  | .begun call _ => some call
  | .locked call _ => some call
  | .wrote call _ _ => some call
  | .unlocked call _ _ => some call

/-- The call has written its first `j` chunks, which have `i` bytes. -/
structure Progress (log : List (Nat × List UInt8)) (call : Call) (i j : Nat) : Prop where
  bytes : i = min call.n (j * maxChunk)
  le : j ≤ nchunks call.n
  logged : chunksOf call.id log = (List.range j).map (chunk call.src call.n)

/-- What the log holds of the call that a process is in. -/
def Phase.Logged (log : List (Nat × List UInt8)) : Phase → Prop
  | .idle => True
  | .top call i => ∃ j, Progress log call i j
  | .begun call i => i < call.n ∧ ∃ j, Progress log call i j
  | .locked call i => i < call.n ∧ ∃ j, Progress log call i j
  | .wrote call i r => r = chunkLen call.n i ∧ ∃ j, Progress log call (i + chunkLen call.n i) j
  | .unlocked call i r => r = chunkLen call.n i ∧ ∃ j, Progress log call (i + chunkLen call.n i) j

/-- The calls: each of them has a number of its own, and its chunks are in the log. -/
structure CallInv (phase : Nat → Phase) (calls : List (Mem × Nat)) (log : List (Nat × List UInt8)) :
    Prop where
  ids : ∀ e ∈ log, e.1 < calls.length
  args : ∀ p call, (phase p).call = some call → calls[call.id]? = some (call.src, call.n)
  unique : ∀ p q call call', (phase p).call = some call → (phase q).call = some call' →
    call.id = call'.id → p = q
  logged : ∀ p, (phase p).Logged log
  finished : ∀ c src n, calls[c]? = some (src, n) →
    (∃ p call, (phase p).call = some call ∧ call.id = c) ∨ chunksOf c log = chunks src n

section Calls

variable {phase : Nat → Phase} {calls : List (Mem × Nat)} {log : List (Nat × List UInt8)} {p : Nat}
  {ph : Phase} {call : Call}

theorem call_update (hcall : (phase p).call = some call) (hsame : ph.call = some call) (q : Nat) :
    (update phase p ph q).call = (phase q).call := by
  rcases eq_or_ne q p with rfl | hne
  · rw [update_self, hsame, hcall]
  · rw [update_of_ne hne]

/-- A process goes on in its call. -/
theorem CallInv.goOn (h : CallInv phase calls log) (hcall : (phase p).call = some call)
    (hsame : ph.call = some call) (hlogged : ph.Logged log) :
    CallInv (update phase p ph) calls log := by
  have hold := call_update hcall hsame
  refine ⟨h.ids, fun q call' hq => ?_, fun q q' c c' hq hq' heq => ?_, fun q => ?_,
    fun c src n hc => ?_⟩
  · rw [hold] at hq
    exact h.args q call' hq
  · rw [hold] at hq hq'
    exact h.unique q q' c c' hq hq' heq
  · rcases eq_or_ne q p with rfl | hne
    · rw [update_self]
      exact hlogged
    · rw [update_of_ne hne]
      exact h.logged q
  · refine (h.finished c src n hc).imp_left ?_
    rintro ⟨q, call', hq, hid⟩
    exact ⟨q, call', (hold q).trans hq, hid⟩

/-- A process starts a call. -/
theorem CallInv.start (h : CallInv phase calls log) (hidle : phase p = .idle) (src : Mem)
    (n : Nat) :
    CallInv (update phase p (.top ⟨calls.length, src, n⟩ 0)) (calls ++ [(src, n)]) log := by
  have hlt : ∀ q call', (phase q).call = some call' → call'.id < calls.length := fun q call' hq =>
    (List.getElem?_eq_some_iff.mp (h.args q call' hq)).1
  have hkeep : ∀ (c : Nat) x, calls[c]? = some x → (calls ++ [(src, n)])[c]? = some x := by
    intro c x hc
    rw [List.getElem?_append_left (List.getElem?_eq_some_iff.mp hc).1]
    exact hc
  have hnone : chunksOf calls.length log = [] := by
    rw [chunksOf, List.map_eq_nil_iff, List.filter_eq_nil_iff]
    intro e he
    have := h.ids e he
    simp
    omega
  refine ⟨fun e he => ?_, fun q call' hq => ?_, fun q q' c c' hq hq' heq => ?_, fun q => ?_,
    fun c src' n' hc => ?_⟩
  · rw [List.length_append]
    exact Nat.lt_add_right _ (h.ids e he)
  · rcases eq_or_ne q p with rfl | hne
    · rw [update_self] at hq
      cases hq
      simp
    · rw [update_of_ne hne] at hq
      exact hkeep _ _ (h.args q call' hq)
  · rcases eq_or_ne q p with rfl | hne
    · rcases eq_or_ne q' q with rfl | hne'
      · rfl
      · rw [update_self] at hq
        rw [update_of_ne hne'] at hq'
        cases hq
        exact absurd heq.symm (Nat.ne_of_lt (hlt q' c' hq'))
    · rw [update_of_ne hne] at hq
      rcases eq_or_ne q' p with rfl | hne'
      · rw [update_self] at hq'
        cases hq'
        exact absurd heq (Nat.ne_of_lt (hlt q c hq))
      · rw [update_of_ne hne'] at hq'
        exact h.unique q q' c c' hq hq' heq
  · rcases eq_or_ne q p with rfl | hne
    · rw [update_self]
      refine ⟨0, ?_, Nat.zero_le _, hnone⟩
      simp
    · rw [update_of_ne hne]
      exact h.logged q
  · rcases Nat.lt_or_ge c calls.length with hold | hnew
    · rw [List.getElem?_append_left hold] at hc
      refine (h.finished c src' n' hc).imp_left ?_
      rintro ⟨q, call', hq, hid⟩
      refine ⟨q, call', ?_, hid⟩
      rw [update_of_ne ?_]
      · exact hq
      · rintro rfl
        rw [hidle] at hq
        cases hq
    · refine .inl ⟨p, ⟨calls.length, src, n⟩, by rw [update_self]; rfl, ?_⟩
      have hbound := (List.getElem?_eq_some_iff.mp hc).1
      rw [List.length_append, List.length_singleton] at hbound
      show calls.length = c
      omega

/-- A process is at the end of its call. -/
theorem CallInv.finish (h : CallInv phase calls log) (hcall : (phase p).call = some call)
    (hdone : chunksOf call.id log = chunks call.src call.n) :
    CallInv (update phase p .idle) calls log := by
  have hold : ∀ q call', (update phase p .idle q).call = some call' →
      q ≠ p ∧ (phase q).call = some call' := by
    intro q call' hq
    rcases eq_or_ne q p with rfl | hne
    · rw [update_self] at hq
      cases hq
    · rw [update_of_ne hne] at hq
      exact ⟨hne, hq⟩
  refine ⟨h.ids, fun q call' hq => h.args q call' (hold q call' hq).2,
    fun q q' c c' hq hq' heq => h.unique q q' c c' (hold q c hq).2 (hold q' c' hq').2 heq,
    fun q => ?_, fun c src n hc => ?_⟩
  · rcases eq_or_ne q p with rfl | hne
    · rw [update_self]
      trivial
    · rw [update_of_ne hne]
      exact h.logged q
  · rcases h.finished c src n hc with ⟨q, call', hq, hid⟩ | hall
    · rcases eq_or_ne q p with rfl | hne
      · rw [hcall, Option.some.injEq] at hq
        subst hq
        have hargs := h.args q call hcall
        rw [hid, hc, Option.some.injEq, Prod.mk.injEq] at hargs
        rw [hargs.1, hargs.2, ← hid]
        exact .inr hdone
      · exact .inl ⟨q, call', by rw [update_of_ne hne]; exact hq, hid⟩
    · exact .inr hall

theorem Progress.append {i j c : Nat} {bytes : List UInt8} (h : Progress log call i j)
    (hne : call.id ≠ c) :
    Progress (log ++ [(c, bytes)]) call i j :=
  ⟨h.bytes, h.le, by rw [chunksOf_append_of_ne hne]; exact h.logged⟩

theorem Phase.Logged.progress (h : ph.Logged log) (hcall : ph.call = some call) :
    ∃ i j, Progress log call i j := by
  cases ph with
  | idle => cases hcall
  | top call i =>
    cases hcall
    exact ⟨i, h⟩
  | begun call i =>
    cases hcall
    exact ⟨i, h.2⟩
  | locked call i =>
    cases hcall
    exact ⟨i, h.2⟩
  | wrote call i r =>
    cases hcall
    exact ⟨_, h.2⟩
  | unlocked call i r =>
    cases hcall
    exact ⟨_, h.2⟩

/-- The log holds the first chunks of each call. -/
theorem CallInv.first_chunks (h : CallInv phase calls log) {c n : Nat} {src : Mem}
    (hc : calls[c]? = some (src, n)) : chunksOf c log <+: chunks src n := by
  rcases h.finished c src n hc with ⟨p, call, hcall, rfl⟩ | hall
  · obtain ⟨i, j, hj⟩ := (h.logged p).progress hcall
    have hargs := h.args p call hcall
    rw [hc, Option.some.injEq, Prod.mk.injEq] at hargs
    have hle := hj.le
    rw [hj.logged, chunks, hargs.1, hargs.2]
    rw [← hargs.2] at hle ⊢
    have htake : (List.range (nchunks n)).take j = List.range j := by
      rw [List.take_range, Nat.min_eq_left hle]
    rw [← htake]
    exact List.IsPrefix.map _ ( List.take_prefix j _)
  · rw [hall]

theorem CallInv.chunk_le (h : CallInv phase calls log) {e : Nat × List UInt8} (he : e ∈ log) :
    e.2.length ≤ maxChunk := by
  have hmem : e.2 ∈ chunksOf e.1 log :=
    List.mem_map.mpr ⟨e, List.mem_filter.mpr ⟨he, decide_eq_true rfl⟩, rfl⟩
  have hall := (h.first_chunks (List.getElem?_eq_getElem (h.ids e he))).subset hmem
  obtain ⟨j, -, hj⟩ := List.mem_map.mp hall
  rw [← hj, length_chunk]
  exact Nat.min_le_right _ _

/-- A chunk of another call. -/
theorem Phase.Logged.append {c : Nat} {bytes : List UInt8} (h : ph.Logged log)
    (hne : ∀ call, ph.call = some call → call.id ≠ c) : ph.Logged (log ++ [(c, bytes)]) := by
  cases ph with
  | idle => trivial
  | top call i =>
    obtain ⟨j, hj⟩ := h
    exact ⟨j, hj.append (hne call rfl)⟩
  | begun call i =>
    obtain ⟨hlt, j, hj⟩ := h
    exact ⟨hlt, j, hj.append (hne call rfl)⟩
  | locked call i =>
    obtain ⟨hlt, j, hj⟩ := h
    exact ⟨hlt, j, hj.append (hne call rfl)⟩
  | wrote call i r =>
    obtain ⟨hr, j, hj⟩ := h
    exact ⟨hr, j, hj.append (hne call rfl)⟩
  | unlocked call i r =>
    obtain ⟨hr, j, hj⟩ := h
    exact ⟨hr, j, hj.append (hne call rfl)⟩

/-- A process has written a chunk. -/
theorem CallInv.write (h : CallInv phase calls log) (hcall : (phase p).call = some call)
    (hsame : ph.call = some call) {bytes : List UInt8}
    (hlogged : ph.Logged (log ++ [(call.id, bytes)])) :
    CallInv (update phase p ph) calls (log ++ [(call.id, bytes)]) := by
  have hold := call_update hcall hsame
  refine ⟨fun e he => ?_, fun q call' hq => ?_, fun q q' c c' hq hq' heq => ?_, fun q => ?_,
    fun c src n hc => ?_⟩
  · rcases List.mem_append.mp he with hmem | hmem
    · exact h.ids e hmem
    · rw [List.mem_singleton.mp hmem]
      exact (List.getElem?_eq_some_iff.mp (h.args p call hcall)).1
  · rw [hold] at hq
    exact h.args q call' hq
  · rw [hold] at hq hq'
    exact h.unique q q' c c' hq hq' heq
  · rcases eq_or_ne q p with rfl | hne
    · rw [update_self]
      exact hlogged
    · rw [update_of_ne hne]
      exact (h.logged q).append fun call' hq heq => hne (h.unique q p call' call hq hcall heq)
  · rcases eq_or_ne c call.id with rfl | hne
    · exact .inl ⟨p, call, (hold p).trans hcall, rfl⟩
    · rw [chunksOf_append_of_ne hne]
      refine (h.finished c src n hc).imp_left ?_
      rintro ⟨q, call', hq, hid⟩
      exact ⟨q, call', (hold q).trans hq, hid⟩

end Calls

/-! ## The file -/

/-- The process is inside of a transaction. -/
def Phase.inOp : Phase → Bool
  | .idle => false
  | .top .. => false
  | .begun .. => true
  | .locked .. => true
  | .wrote .. => true
  | .unlocked .. => true

/-- The file holds the log from the first offset on. -/
structure FileInv (s₀ : Vol) (f₀ : IFile) (m : SharedFile) : Prop where
  sound : Sound m.vol
  ip : m.f.ip = f₀.ip
  holds : m.vol.holds f₀.ip = true
  inum : (m.vol.itable f₀.ip).inum = (s₀.itable f₀.ip).inum
  valid : ∀ p call i, m.phase p = .locked call i → (m.vol.itable f₀.ip).valid = true
  trans : ∃ T : Finset Nat, (∀ p, p ∈ T ↔ (m.phase p).inOp = true) ∧ T.card ≤ m.vol.outstanding
  off : m.f.off = f₀.off + (m.log.map fun e => e.2.length).sum
  content : m.vol.contentOf (s₀.itable f₀.ip).inum =
    splice (s₀.contentOf (s₀.itable f₀.ip).inum) f₀.off (m.log.flatMap Prod.snd)
  fits : m.log = [] ∨ f₀.off ≤ (s₀.contentOf (s₀.itable f₀.ip).inum).length

section File

variable {s₀ : Vol} {f₀ : IFile} {m : SharedFile} {p i : Nat} {call : Call}

/-- A whole chunk is written. -/
theorem writei_whole {s s' : Vol} {ip off n : Nat} {src : Mem} {r : Int} (h : Sound s)
    (hholds : s.holds ip = true) (hvalid : (s.itable ip).valid = true)
    (htrans : s.inTransaction = true) (hn : 0 < n) (hlt : n < 2 ^ 32)
    (hrun : writei ip src off n s = .ok (r, s')) (hr : r = n) :
    off ≤ (s.contentOf (s.itable ip).inum).length ∧ off + n < 2 ^ 32 ∧ Sound s' ∧
      s'.outstanding = s.outstanding ∧ (∃ d, s'.itable = setDinAt s.itable ip d) ∧
      s'.contentOf (s.itable ip).inum =
        splice (s.contentOf (s.itable ip).inum) off (src.take n) := by
  obtain ⟨hip, href⟩ := holds_iff.mp hholds
  obtain ⟨ino, own, hok⟩ := h.1
  have hsize := hok.dinode_eq (hok.range ip href)
  obtain ⟨hentry, htype⟩ := hok.entry href hvalid
  have hlen : (s.contentOf (s.itable ip).inum).length = (ino (s.itable ip).inum).size := by
    rw [Vol.contentOf, hsize, length_content]
  have hfits : off ≤ (ino (s.itable ip).inum).size ∧ off + n ≤ MAXFILE * BSIZE := by
    by_contra hnot
    have hsizes := hok.sizes _ ⟨hok.range ip href, htype⟩
    have hneg := ((writei_refused hentry.din hsizes hlt hnot).of_ok (E := fun _ => False) hrun).1
    omega
  obtain ⟨hoff, hend⟩ := hfits
  have hroom : Room (fun _ => True) s := ⟨of_decide_eq_true htrans, trivial⟩
  obtain ⟨k, hk, -, -, hwf, -, hout, htable, -, hcontent, -⟩ :=
    (writei_splice hok href hvalid rfl hroom (hsize ▸ hoff) hend).of_ok hrun
  obtain rfl : k = n := by omega
  refine ⟨hlen ▸ hoff, Nat.lt_of_le_of_lt hend (by decide), h.setDinAt hip hwf htable, hout,
    ⟨_, htable⟩, hcontent (.inr rfl)⟩

theorem FileInv.inTransaction (h : FileInv s₀ f₀ m) (hop : (m.phase p).inOp = true) :
    m.vol.inTransaction = true := by
  obtain ⟨T, hmem, hcard⟩ := h.trans
  have hpos : 0 < T.card := Finset.card_pos.mpr ⟨p, (hmem p).mpr hop⟩
  exact decide_eq_true (Nat.lt_of_lt_of_le hpos hcard)

/-- The processes in a transaction after a step of `p`. -/
theorem FileInv.transStep (h : FileInv s₀ f₀ m) (ph : Phase) {outstanding : Nat}
    (hout : m.vol.outstanding + (if ph.inOp then 1 else 0) ≤
      outstanding + if (m.phase p).inOp then 1 else 0) :
    ∃ T : Finset Nat, (∀ q, q ∈ T ↔ (update m.phase p ph q).inOp = true) ∧
      T.card ≤ outstanding := by
  obtain ⟨T, hmem, hcard⟩ := h.trans
  have hother : ∀ q, q ≠ p → (q ∈ T ↔ (update m.phase p ph q).inOp = true) := fun q hne => by
    rw [update_of_ne hne]
    exact hmem q
  by_cases hnew : ph.inOp = true
  · refine ⟨insert p T, fun q => ?_, ?_⟩
    · rcases eq_or_ne q p with rfl | hne
      · rw [update_self]
        exact iff_of_true (Finset.mem_insert_self _ _) hnew
      · rw [Finset.mem_insert, or_iff_right hne]
        exact hother q hne
    · by_cases hold : (m.phase p).inOp = true
      · rw [Finset.insert_eq_of_mem ((hmem p).mpr hold)]
        rw [if_pos hnew, if_pos hold] at hout
        omega
      · have hle := Finset.card_insert_le p T
        rw [if_pos hnew, if_neg hold] at hout
        omega
  · refine ⟨T.erase p, fun q => ?_, ?_⟩
    · rcases eq_or_ne q p with rfl | hne
      · rw [update_self]
        exact iff_of_false (Finset.notMem_erase _ _) hnew
      · rw [Finset.mem_erase, and_iff_right hne]
        exact hother q hne
    · by_cases hold : (m.phase p).inOp = true
      · rw [Finset.card_erase_of_mem ((hmem p).mpr hold)]
        rw [if_neg hnew, if_pos hold] at hout
        omega
      · have hle := Finset.card_erase_le (s := T) (a := p)
        rw [if_neg hnew, if_neg hold] at hout
        omega

/-- A step that does not change the content of files. -/
theorem FileInv.quiet (h : FileInv s₀ f₀ m) (ph : Phase) {s' : Vol} (hsound : Sound s')
    (hdisk : s'.disk = m.vol.disk) (hsb : s'.sb = m.vol.sb)
    (href : (s'.itable f₀.ip).ref = (m.vol.itable f₀.ip).ref)
    (hinum : (s'.itable f₀.ip).inum = (m.vol.itable f₀.ip).inum)
    (hvalid : (m.vol.itable f₀.ip).valid = true → (s'.itable f₀.ip).valid = true)
    (hlocked : ∀ call i, ph = .locked call i → (s'.itable f₀.ip).valid = true)
    (hout : m.vol.outstanding + (if ph.inOp then 1 else 0) ≤
      s'.outstanding + if (m.phase p).inOp then 1 else 0) :
    FileInv s₀ f₀ ({ m with vol := s' }.setPhase p ph) := by
  obtain ⟨hip, href'⟩ := holds_iff.mp h.holds
  have hcontent : ∀ i, s'.contentOf i = m.vol.contentOf i := fun i => by
    rw [Vol.contentOf, Vol.dinode, hdisk, hsb, Vol.contentOf, Vol.dinode]
  refine ⟨hsound, h.ip, holds_iff.mpr ⟨hip, href.symm ▸ href'⟩, hinum.trans h.inum,
    fun q call i hq => ?_, h.transStep ph hout, h.off, (hcontent _).trans h.content, h.fits⟩
  change update m.phase p ph q = .locked call i at hq
  rcases eq_or_ne q p with rfl | hne
  · rw [update_self] at hq
    exact hlocked call i hq
  · rw [update_of_ne hne] at hq
    exact hvalid (h.valid q call i hq)

/-- A process writes a whole chunk. -/
theorem FileInv.write (h : FileInv s₀ f₀ m) (hphase : m.phase p = .locked call i) (hi : i < call.n)
    {r : Int} {s' : Vol}
    (hrun : writei m.f.ip (call.src.drop i) m.f.off (chunkLen call.n i) m.vol = .ok (r, s'))
    (hr : r = chunkLen call.n i) :
    FileInv s₀ f₀ ({ m with
      vol := s'
      f := m.f.advance r
      log := m.log ++ [(call.id, (call.src.drop i).take r.toNat)] }.setPhase p
        (.wrote call i r)) := by
  have hpos : 0 < chunkLen call.n i := by
    have hmax : 0 < maxChunk := by decide
    simp only [chunkLen]
    omega
  have hsmall : chunkLen call.n i < 2 ^ 32 := Nat.lt_of_le_of_lt (Nat.min_le_right _ _) (by decide)
  rw [h.ip] at hrun
  obtain ⟨hoff, hend, hsound, hout, ⟨d, htable⟩, hcontent⟩ := writei_whole h.sound h.holds
    (h.valid p call i hphase) (h.inTransaction (p := p) (by rw [hphase]; rfl)) hpos hsmall hrun hr
  obtain ⟨hip, href⟩ := holds_iff.mp h.holds
  have hself : s'.itable f₀.ip = { m.vol.itable f₀.ip with din := d } := by
    rw [htable]
    exact update_self f₀.ip _ _
  have htoNat : r.toNat = chunkLen call.n i := by
    rw [hr, Int.toNat_natCast]
  have hlen : ((call.src.drop i).take (chunkLen call.n i)).length = chunkLen call.n i := by
    rw [Mem.take, List.length_map, List.length_range]
  have hadvance : m.f.advance r = { m.f with off := m.f.off + chunkLen call.n i } := by
    rw [IFile.advance, if_pos (by omega), htoNat, Nat.mod_eq_of_lt hend]
  have hlog : f₀.off + (m.log.flatMap Prod.snd).length = m.f.off := by
    rw [h.off, List.length_flatMap]
  have hfirst : f₀.off ≤ (s₀.contentOf (s₀.itable f₀.ip).inum).length := by
    rcases h.fits with hnil | hle
    · have hcontent₀ := h.content
      rw [hnil, List.flatMap_nil, splice_nil] at hcontent₀
      rw [← hcontent₀, ← h.inum]
      refine Nat.le_trans (Nat.le_of_eq ?_) hoff
      rw [← hlog, hnil]
      rfl
    · exact hle
  have href' : 0 < (s'.itable f₀.ip).ref := by
    rw [hself]
    exact href
  have hinum' : (s'.itable f₀.ip).inum = (s₀.itable f₀.ip).inum := by
    rw [hself]
    exact h.inum
  rw [h.inum] at hcontent
  refine ⟨hsound, ?_, holds_iff.mpr ⟨hip, href'⟩, hinum', fun q call' j hq => ?_,
    h.transStep _ ?_, ?_, ?_, .inr hfirst⟩
  · show (m.f.advance r).ip = f₀.ip
    rw [hadvance]
    exact h.ip
  · show (s'.itable f₀.ip).valid = true
    rw [hself]
    exact h.valid p call i hphase
  · show m.vol.outstanding + 1 ≤ s'.outstanding + _
    rw [hout, hphase]
    exact Nat.le_refl _
  · show (m.f.advance r).off = f₀.off +
      ((m.log ++ [(call.id, (call.src.drop i).take r.toNat)]).map fun e => e.2.length).sum
    rw [hadvance, List.map_append, List.sum_append, h.off, htoNat]
    simp [hlen, Nat.add_assoc]
  · show s'.contentOf _ =
      splice _ _ ((m.log ++ [(call.id, (call.src.drop i).take r.toNat)]).flatMap Prod.snd)
    rw [hcontent, h.content, List.flatMap_append, ← hlog, splice_splice _ hfirst, htoNat]
    simp

end File

/-! ## Runs -/

section Runs

variable {s₀ : Vol} {f₀ : IFile} {m m' : SharedFile} {a : Act} {acts : List Act}

/-- Both parts of the invariant. -/
def Inv (s₀ : Vol) (f₀ : IFile) (m : SharedFile) : Prop :=
  FileInv s₀ f₀ m ∧ CallInv m.phase m.calls m.log

theorem Progress.all {log : List (Nat × List UInt8)} {call : Call} {i j : Nat}
    (h : Progress log call i j) (hge : call.n ≤ i) :
    chunksOf call.id log = chunks call.src call.n := by
  have hj : j = nchunks call.n := by
    refine Nat.le_antisymm h.le ?_
    have hbytes := h.bytes
    have hle : call.n ≤ j * maxChunk := by omega
    refine Nat.le_of_lt_succ ((Nat.div_lt_iff_lt_mul (by decide)).mpr ?_)
    have hpos : 0 < maxChunk := by decide
    rw [Nat.succ_mul]
    omega
  rw [h.logged, hj]
  rfl

/-- The next chunk of a call is in the log. -/
theorem Progress.next {log : List (Nat × List UInt8)} {call : Call} {i j : Nat}
    (h : Progress log call i j) (hlt : i < call.n) :
    Progress (log ++ [(call.id, (call.src.drop i).take (chunkLen call.n i))]) call
      (i + chunkLen call.n i) (j + 1) := by
  have hpos : 0 < maxChunk := by decide
  have hbytes := h.bytes
  obtain rfl : i = j * maxChunk := by omega
  refine ⟨?_, ?_, ?_⟩
  · rw [Nat.succ_mul]
    simp only [chunkLen]
    omega
  · refine (Nat.le_div_iff_mul_le hpos).mpr ?_
    rw [Nat.succ_mul]
    omega
  · rw [chunksOf_append_self, h.logged, List.range_succ, List.map_append]
    rfl

theorem inv_run_step (h : Inv s₀ f₀ m) {p : Nat} (hfull : writesAll m (.run p) = true)
    (hstep : runPhase m p (m.phase p) = some m') : Inv s₀ f₀ m' := by
  obtain ⟨hfile, hcalls⟩ := h
  have hlogged := hcalls.logged p
  cases hphase : m.phase p with
  | idle =>
    rw [hphase] at hstep
    cases hstep
  | top call i =>
    rw [hphase] at hstep hlogged
    simp only [runPhase] at hstep
    split at hstep
    · next hlt =>
      cases hstep
      refine ⟨hfile.quiet _ ?_ rfl rfl rfl rfl id nofun ?_,
        hcalls.goOn (by rw [hphase]; rfl) rfl ⟨hlt, hlogged⟩⟩
      · exact (Op.run_spec .beginOp hfile.sound rfl).of_ok rfl
      · rw [hphase]
        exact Nat.le_refl _
    · next hge =>
      cases hstep
      obtain ⟨j, hj⟩ := hlogged
      refine ⟨hfile.quiet .idle hfile.sound rfl rfl rfl rfl id nofun ?_, ?_⟩
      · rw [hphase]
        exact Nat.le_refl _
      · exact hcalls.finish (by rw [hphase]; rfl) (hj.all (Nat.not_lt.mp hge))
  | begun call i =>
    rw [hphase] at hstep hlogged
    simp only [runPhase] at hstep
    split at hstep
    · next s' hrun =>
      cases hstep
      obtain ⟨ino, own, hok⟩ := hfile.sound.1
      obtain ⟨hip, href⟩ := holds_iff.mp hfile.holds
      rw [hfile.ip] at hrun
      have hsound := (Op.run_spec (.ilock f₀.ip) hfile.sound hfile.holds).of_ok hrun
      obtain ⟨-, -, rfl⟩ := (ilock_spec (E := fun _ => True) hok href rfl (fun _ => trivial)
        fun _ => trivial).of_ok hrun
      refine ⟨hfile.quiet _ hsound rfl rfl ?_ ?_ (fun _ => ?_) (fun _ _ _ => ?_) ?_,
        hcalls.goOn (by rw [hphase]; rfl) rfl hlogged⟩
      · rw [setEntry_self]
      · rw [setEntry_self]
      · rw [setEntry_self]
      · rw [setEntry_self]
      · rw [hphase]
        exact Nat.le_refl _
    · cases hstep
  | locked call i =>
    rw [writesAll, hphase] at hfull
    rw [hphase] at hstep hlogged
    simp only [runPhase] at hstep
    simp only at hfull
    split at hstep
    · next r s' hrun =>
      cases hstep
      rw [hrun] at hfull
      have hr := of_decide_eq_true hfull
      obtain ⟨hlt, j, hj⟩ := hlogged
      refine ⟨hfile.write hphase hlt hrun hr,
        hcalls.write (by rw [hphase]; rfl) rfl ⟨hr, j + 1, ?_⟩⟩
      rw [hr, Int.toNat_natCast]
      exact hj.next hlt
    · cases hstep
  | wrote call i r =>
    rw [hphase] at hstep hlogged
    simp only [runPhase] at hstep
    split at hstep
    · next s' hrun =>
      cases hstep
      obtain ⟨ino, own, hok⟩ := hfile.sound.1
      obtain ⟨hip, href⟩ := holds_iff.mp hfile.holds
      rw [hfile.ip] at hrun
      have hsound := (Op.run_spec (.iunlock f₀.ip) hfile.sound hfile.holds).of_ok hrun
      obtain ⟨-, rfl⟩ := (iunlock_spec (E := fun _ => True) hok href fun _ => trivial).of_ok hrun
      refine ⟨hfile.quiet _ hsound rfl rfl ?_ ?_ (fun hvalid => ?_) nofun ?_,
        hcalls.goOn (by rw [hphase]; rfl) rfl hlogged⟩
      · rw [setEntry_self]
      · rw [setEntry_self]
      · rw [setEntry_self]
        exact hvalid
      · rw [hphase]
        exact Nat.le_refl _
    · cases hstep
  | unlocked call i r =>
    rw [hphase] at hstep hlogged
    simp only [runPhase] at hstep
    obtain ⟨hr, hj⟩ := hlogged
    split at hstep
    · next s' hrun =>
      rw [if_neg (not_not_intro hr)] at hstep
      cases hstep
      have htrans : m.vol.inTransaction = true := hfile.inTransaction (p := p) (by rw [hphase]; rfl)
      have hsound := (Op.run_spec .endOp hfile.sound htrans).of_ok hrun
      cases hrun
      refine ⟨hfile.quiet _ hsound rfl rfl rfl rfl id nofun ?_,
        hcalls.goOn (by rw [hphase]; rfl) rfl hj⟩
      have hpos : 0 < m.vol.outstanding := of_decide_eq_true htrans
      rw [hphase]
      show m.vol.outstanding + 0 ≤ m.vol.outstanding - 1 + 1
      omega
    · cases hstep

theorem inv_step (h : Inv s₀ f₀ m) (hfull : writesAll m a = true) (hstep : step m a = some m') :
    Inv s₀ f₀ m' := by
  cases a with
  | call p src n =>
    simp only [step] at hstep
    split at hstep
    · next hidle =>
      split at hstep
      · cases hstep
        exact h
      · cases hstep
        refine ⟨?_, h.2.start hidle src n⟩
        have hquiet :=
          h.1.quiet (p := p) (.top ⟨m.calls.length, src, n⟩ 0) h.1.sound rfl rfl rfl rfl
          id nofun (by rw [hidle]; exact Nat.le_refl _)
        exact ⟨hquiet.sound, hquiet.ip, hquiet.holds, hquiet.inum, hquiet.valid, hquiet.trans,
          hquiet.off, hquiet.content, hquiet.fits⟩
    · cases hstep
  | run p => exact inv_run_step h hfull hstep

theorem inv_start (h : Sound s₀) (hholds : s₀.holds f₀.ip = true) : Inv s₀ f₀ (start s₀ f₀) := by
  refine ⟨⟨h, rfl, hholds, rfl, nofun, ⟨∅, fun p => iff_of_false (Finset.notMem_empty p) nofun, ?_⟩,
    rfl, ?_, .inl rfl⟩, nofun, nofun, nofun, fun p => trivial, nofun⟩
  · exact Nat.zero_le _
  · exact (splice_nil _ _).symm

/-- In every run in which `writei` writes whole chunks, the file holds, from the first
offset on, the chunks of all calls one behind the other, the chunks of each call in order,
and the offset is behind the last of them.  When no call is going on, the offset has moved
by the lengths of all calls. -/
theorem shared_writes_concatenate (h : Sound s₀) (hholds : s₀.holds f₀.ip = true)
    (hfull : StepsMeet step (fun m a => writesAll m a = true) (start s₀ f₀) acts)
    (hrun : exec step (start s₀ f₀) acts = some m) :
    m.vol.contentOf (s₀.itable f₀.ip).inum =
      splice (s₀.contentOf (s₀.itable f₀.ip).inum) f₀.off (m.log.flatMap Prod.snd) ∧
    m.f.off = f₀.off + (m.log.map fun e => e.2.length).sum ∧
    (∀ e ∈ m.log, e.2.length ≤ maxChunk) ∧
    (∀ c src n, m.calls[c]? = some (src, n) → chunksOf c m.log <+: chunks src n ∧
      ((∀ p call, (m.phase p).call = some call → call.id ≠ c) → chunksOf c m.log = chunks src n)) ∧
    ((∀ p, m.phase p = .idle) → m.f.off = f₀.off + (m.calls.map Prod.snd).sum) := by
  obtain ⟨hfile, hcalls⟩ := inv_of_exec (fun _ _ _ hinv hfull hstep => inv_step hinv hfull hstep)
    (inv_start h hholds) hfull hrun
  have hall : ∀ c src n, m.calls[c]? = some (src, n) →
      (∀ p call, (m.phase p).call = some call → call.id ≠ c) → chunksOf c m.log = chunks src n := by
    intro c src n hc hnone
    refine (hcalls.finished c src n hc).resolve_left ?_
    rintro ⟨p, call, hcall, hid⟩
    exact hnone p call hcall hid
  refine ⟨hfile.content, hfile.off, fun e he => hcalls.chunk_le he,
    fun c src n hc => ⟨hcalls.first_chunks hc, hall c src n hc⟩, fun hidle => ?_⟩
  · rw [hfile.off, sum_length_log m.calls.length hcalls.ids]
    congr 1
    refine sum_calls m.calls _ fun c src n hc => ?_
    rw [hall c src n hc fun p call hcall => by rw [hidle p] at hcall; cases hcall]
    exact sum_length_all src n

/-- The small file system with its file unlocked. -/
def shared : Vol := blank.setEntry 0 { blank.itable 0 with locked := false }

theorem sound_shared : Sound shared := (Op.run_spec (.iunlock 0) sound_blank (by decide)).of_ok rfl

/-- Process 1 writes 4000 bytes; process 2 writes 10 bytes between the two chunks. -/
def twoWriters : List Act :=
  [.call 1 ⟨fun _ => 65, none⟩ 4000, .call 2 ⟨fun _ => 66, none⟩ 10] ++ List.replicate 5 (.run 1) ++
    List.replicate 6 (.run 2) ++ List.replicate 6 (.run 1)

theorem shared_writes_concatenate_twoWriters :
    ∃ m, exec step (start shared ⟨true, true, 0, 0⟩) twoWriters = some m ∧
      m.log.map (fun e => (e.1, e.2.length)) = [(0, 3072), (1, 10), (0, 928)] ∧
      m.vol.contentOf 1 = splice (shared.contentOf 1) 0 (m.log.flatMap Prod.snd) := by
  have hcheck : runCheck step writesAll (fun m => decide (
    m.log.map (fun e => (e.1, e.2.length)) = [(0, 3072), (1, 10), (0, 928)]))
    (start shared ⟨true, true, 0, 0⟩) twoWriters = true := by decide +kernel
  obtain ⟨hfull, m, hrun, hm⟩ := of_runCheck hcheck
  exact ⟨m, hrun, of_decide_eq_true hm,
    (shared_writes_concatenate sound_shared (by decide) hfull hrun).1⟩

end Runs

end Xv6.Fs.Shared
