import Xv6.Disk.Block
import Xv6.Lib.Crash
import Xv6.Lib.Loop

/-!
# The redo log

`commit` and `recover_from_log` of `log.c`, as programs over a disk that
performs one block write at a time.

* `hdrN`, `hdrBlocks`, `putHead`: the header block, `int n` followed by
  `int block[LOGBLOCKS]`.  Writing a header stores `n` and the first `n` block
  numbers; older entries behind them stay where they were.
* `LogSys`: the disk with its history of writes, the buffers that differ from
  the disk (the blocks of the open transaction, which `log_write` pinned), and
  the in-memory header `log.lh` as the list of its first `n` entries.
* `writeLog`, `writeHead`, `installTrans`, `readHead`, `commit`,
  `recoverFromLog`: the functions of `log.c`; `start` is `log.start`.
-/

namespace Xv6.Log

open Xv6.Lib.Bytes Xv6.Lib.Loop Xv6.Lib.Crash

/-- Size of the log in data blocks. -/
def LOGBLOCKS : Nat := 30

/-! ## The header block -/

/-- `lh->n`, a signed 32-bit number. -/
def hdrN (b : Block) : Int :=
  (BitVec.ofNat 32 (readLE 4 b 0)).toInt

/-- `lh->block[i]`. -/
def hdrBlock (b : Block) (i : Nat) : Nat :=
  readLE 4 b (4 + 4 * i)

/-- The entries that the loop of `read_head` copies: none when `n` is negative. -/
def hdrBlocks (b : Block) : List Nat :=
  (List.range (hdrN b).toNat).map (hdrBlock b)

/-- The header block after `write_head` stored `lh` in it. -/
def putHead (b : Block) (lh : List Nat) : Block :=
  forUpTo (fun i b => writeLE 4 b (4 + 4 * i) (lh.getD i 0)) lh.length (writeLE 4 b 0 lh.length)

/-! ## The log and its disk -/

structure LogSys where
  dev : Device Nat Block
  /-- The buffers whose contents are not on disk. -/
  cached : Nat → Option Block := fun _ => none
  /-- `log.lh.block[0..n)`. -/
  lh : List Nat := []

/-- The data of the buffer that `bread(dev, b)` returns. -/
def LogSys.bread (s : LogSys) (b : Nat) : Block :=
  (s.cached b).getD (s.dev.now b)

/-- `bwrite` of a buffer of block `b` whose data is `data`. -/
def LogSys.bwrite (s : LogSys) (b : Nat) (data : Block) : LogSys :=
  { s with dev := s.dev.write b data, cached := Function.update s.cached b none }

/-- The state of a machine that boots from the disk `d`. -/
def boot (d : Disk) : LogSys :=
  { dev := { init := d } }

section Code

variable (start : Nat)

/-- Copy modified blocks from cache to log. -/
def writeLog (s : LogSys) : LogSys :=
  forUpTo (fun tail t => t.bwrite (start + tail + 1) (t.bread (t.lh.getD tail 0))) s.lh.length s

/-- Write the in-memory log header to disk. -/
def writeHead (s : LogSys) : LogSys :=
  s.bwrite start (putHead (s.bread start) s.lh)

/-- Copy committed blocks from log to their home location. -/
def installTrans (s : LogSys) : LogSys :=
  forUpTo (fun tail t => t.bwrite (t.lh.getD tail 0) (t.bread (start + tail + 1))) s.lh.length s

/-- Read the log header from disk into the in-memory log header. -/
def readHead (s : LogSys) : LogSys :=
  { s with lh := hdrBlocks (s.bread start) }

/-- Erase the transaction: `log.lh.n = 0; write_head();`. -/
def clearHead (s : LogSys) : LogSys :=
  writeHead start { s with lh := [] }

/-- The recovery that `initlog` runs at boot. -/
def recoverFromLog (s : LogSys) : LogSys :=
  clearHead start (installTrans start (readHead start s))

/-- Write the transaction to the log, commit it, install it and erase it. -/
def commit (s : LogSys) : LogSys :=
  if 0 < s.lh.length then
    clearHead start (installTrans start (writeHead start (writeLog start s)))
  else s

/-- The disk after a recovery from `d` that crashed after `k` writes. -/
def crashedRecovery (d : Disk) (k : Nat) : Disk :=
  (recoverFromLog start (boot d)).dev.crash k

/-- The disk after a recovery from `d` that ran to its end. -/
def recovered (d : Disk) : Disk :=
  (recoverFromLog start (boot d)).dev.now

end Code

/-! ## Reading back a header -/

/-- The loop of `write_head` after `i` of its stores. -/
private theorem putHead_loop (b : Block) (lh : List Nat) :
    let t := putHead b lh
    readLE 4 t 0 = lh.length % 256 ^ 4 ∧
      ∀ j < lh.length, hdrBlock t j = lh.getD j 0 % 256 ^ 4 := by
  unfold putHead
  refine forUpTo_inv (I := fun i t => readLE 4 t 0 = lh.length % 256 ^ 4 ∧
    ∀ j < i, hdrBlock t j = lh.getD j 0 % 256 ^ 4) ⟨by simp, by simp⟩ ?_
  rintro i - t ⟨hn, hblocks⟩
  refine ⟨?_, fun j hj => ?_⟩
  · rw [readLE_writeLE_of_disjoint _ _ (by omega), hn]
  · rcases Nat.lt_succ_iff_lt_or_eq.mp hj with hj | rfl
    · rw [hdrBlock, readLE_writeLE_of_disjoint _ _ (by omega), ← hblocks j hj, hdrBlock]
    · exact readLE_writeLE _ _ _ _

theorem hdrN_putHead (b : Block) {lh : List Nat} (h : lh.length ≤ LOGBLOCKS) :
    hdrN (putHead b lh) = lh.length := by
  have hsmall : lh.length < 2 ^ 31 := lt_of_le_of_lt h (by decide)
  have hn : readLE 4 (putHead b lh) 0 = lh.length := by
    rw [(putHead_loop b lh).1, Nat.mod_eq_of_lt (by omega)]
  have hnat : (BitVec.ofNat 32 lh.length).toNat = lh.length := by
    rw [BitVec.toNat_ofNat, Nat.mod_eq_of_lt (by omega)]
  rw [hdrN, hn, BitVec.toInt_eq_toNat_of_lt (by omega), hnat]

/-- A header that was written is read back. -/
theorem hdrBlocks_putHead (b : Block) {lh : List Nat} (hlen : lh.length ≤ LOGBLOCKS)
    (huint : ∀ x ∈ lh, x < 2 ^ 32) : hdrBlocks (putHead b lh) = lh := by
  refine List.ext_getElem (by simp [hdrBlocks, hdrN_putHead b hlen]) fun i hi hlh => ?_
  have hx : lh.getD i 0 = lh[i] := by simp [hlh]
  simp only [hdrBlocks, List.getElem_map, List.getElem_range]
  rw [(putHead_loop b lh).2 i hlh, hx,
    Nat.mod_eq_of_lt (by simpa using huint _ (lh.getElem_mem hlh))]

end Xv6.Log
