import Xv6.Bio

/-!
The redo log of `kernel/log.c`: the critical sections under `log.lock`
(`begin_op`, `log_write`, `end_op`) and the disk side (`write_log`,
`write_head`, `read_head`, `install_trans`, `commit`, `recover_from_log`).

The in-memory header `log.lh` is the list `block[0..n)`, so `log.lh.n` is its
length. On disk the header is the block `log.start`: `n` in its first four
bytes and `block[i]` in the four bytes from `4 + 4 * i` on; what `write_head`
does not write stays there from earlier transactions.
-/

namespace Xv6

inductive LogPanic
  | committing
  | tooBig
  | outsideTrans
  deriving DecidableEq, Repr

structure Log where
  start : ℕ
  size : ℕ
  outstanding : ℤ
  committing : Bool
  lh : List ℕ
  deriving DecidableEq

namespace Log

variable {b : ℕ} {l : List ℕ} {L L' : Log}

/-! ### The critical sections -/

/-- One turn of the loop of `begin_op`: `none` is a call of `sleep`. -/
def beginOp (L : Log) : Option Log :=
  if L.committing then none
  else if L.lh.length + (L.outstanding + 1) * MAXOPBLOCKS > LOGSIZE then none
  else some { L with outstanding := L.outstanding + 1 }

/-- The header after `log_write` of block `b`: the first entry equal to `b`
is overwritten by `b`, and `b` is appended when there is none. -/
def absorb : List ℕ → ℕ → List ℕ
  | [], b => [b]
  | x :: xs, b => if x = b then b :: xs else x :: absorb xs b

def logWrite (L : Log) (b : ℕ) : Except LogPanic Log :=
  if L.lh.length ≥ LOGSIZE ∨ (L.lh.length : ℤ) ≥ (L.size : ℤ) - 1 then .error .tooBig
  else if L.outstanding < 1 then .error .outsideTrans
  else .ok { L with lh := absorb L.lh b }

def endOp (L : Log) : Except LogPanic (Bool × Log) :=
  let L := { L with outstanding := L.outstanding - 1 }
  if L.committing then .error .committing
  else if L.outstanding = 0 then .ok (true, { L with committing := true })
  else .ok (false, L)

def endCommit (L : Log) : Log := { L with committing := false }

theorem beginOp_eq (h : L.beginOp = some L') :
    L.committing = false ∧ L' = { L with outstanding := L.outstanding + 1 } := by
  simp only [beginOp] at h
  split at h
  · cases h
  · rename_i hc
    split at h <;> cases h
    exact ⟨by simpa using hc, rfl⟩

theorem logWrite_eq (h : L.logWrite b = .ok L') : L' = { L with lh := absorb L.lh b } := by
  simp only [logWrite] at h
  split at h
  · cases h
  · split at h <;> cases h
    rfl

theorem endOp_eq {c : Bool} (h : L.endOp = .ok (c, L')) :
    (c = true ↔ L.outstanding - 1 = 0) ∧
      L' = { L with outstanding := L.outstanding - 1, committing := c } := by
  simp only [endOp] at h
  split at h
  · cases h
  · grind

theorem absorb_of_mem (h : b ∈ l) : absorb l b = l := by
  induction l with
  | nil => simp at h
  | cons x xs ih => grind [absorb]

theorem absorb_of_notMem (h : b ∉ l) : absorb l b = l ++ [b] := by
  induction l with
  | nil => rfl
  | cons x xs ih => grind [absorb]

theorem mem_absorb {x : ℕ} : x ∈ absorb l b ↔ x ∈ l ∨ x = b := by
  by_cases h : b ∈ l
  · grind [absorb_of_mem]
  · simp [absorb_of_notMem h]

theorem nodup_absorb (b : ℕ) (h : l.Nodup) : (absorb l b).Nodup := by
  by_cases hb : b ∈ l
  · rwa [absorb_of_mem hb]
  · grind [absorb_of_notMem]

/-! ### The disk side -/

def headN (hb : Block) : ℕ := hb.getLe 4 0

def headEntry (hb : Block) (i : ℕ) : ℕ := hb.getLe 4 (4 + 4 * i)

def putEntries (hb : Block) : ℕ → List ℕ → Block
  | _, [] => hb
  | i, b :: bs => putEntries (hb.putLe 4 (4 + 4 * i) b) (i + 1) bs

def writeHead (start : ℕ) (lh : List ℕ) (m : Bio) : Bio :=
  (m.setData start (putEntries ((m.bread start).putLe 4 0 lh.length) 0 lh)).bwrite start

def readHead (start : ℕ) (m : Bio) : List ℕ :=
  (List.range (headN (m.bread start))).map (headEntry (m.bread start))

/-- The loop of `write_log` from `tail` on: copy each modified block from the
cache to its log block. -/
def writeLogFrom (start : ℕ) : ℕ → List ℕ → Bio → Bio
  | _, [], m => m
  | tail, b :: bs, m =>
    let m := m.setData (start + tail + 1) (m.bread b)
    writeLogFrom start (tail + 1) bs (m.bwrite (start + tail + 1))

/-- The loop of `install_trans` from `tail` on: copy each log block to its
home location. -/
def installFrom (start : ℕ) (recovering : Bool) : ℕ → List ℕ → Bio → Bio
  | _, [], m => m
  | tail, b :: bs, m =>
    let m := (m.setData b (m.bread (start + tail + 1))).bwrite b
    installFrom start recovering (tail + 1) bs (if recovering then m else m.bunpin b)

def writeLog (start : ℕ) (lh : List ℕ) (m : Bio) : Bio := writeLogFrom start 0 lh m

def installTrans (start : ℕ) (recovering : Bool) (lh : List ℕ) (m : Bio) : Bio :=
  installFrom start recovering 0 lh m

/-- `commit`, on the buffers; it also leaves `log.lh.n = 0`. -/
def commitBio (start : ℕ) (lh : List ℕ) (m : Bio) : Bio :=
  if lh.length > 0 then
    let m := writeLog start lh m
    let m := writeHead start lh m
    let m := installTrans start false lh m
    writeHead start [] m
  else m

def commit (L : Log) (m : Bio) : Log × Bio := ({ L with lh := [] }, commitBio L.start L.lh m)

/-- `recover_from_log`, on the buffers; it leaves `log.lh.n = 0`. -/
def recoverFromLog (start : ℕ) (m : Bio) : Bio :=
  let lh := readHead start m
  let m := installTrans start true lh m
  writeHead start [] m

end Log

end Xv6
