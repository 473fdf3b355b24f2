import Xv6.Foundation.RedoLog
import Xv6.Param

/-! # The redo log of `log.c`

The in-memory log, the block reads and writes it performs through the buffer
cache, and its commit and recovery procedures. -/

namespace Xv6

open Foundation

/-! ## Block input and output

`view` is what `bread` returns for each block: the contents last stored in its
buffer, or the disk's contents when there is none. The log runs on one device,
so blocks are named by their number alone. -/

/-- The cached blocks together with the writes sent to the disk so far, oldest
first. -/
structure Machine where
  view : Disk
  issued : List (Nat × Block)

namespace Machine

def bread (machine : Machine) (blockno : Nat) : Block := machine.view blockno

/-- Change the data of a held buffer. -/
def modify (machine : Machine) (blockno : Nat) (data : Block) : Machine :=
  { machine with view := Function.update machine.view blockno data }

/-- Send the buffer's contents to the disk. -/
def bwrite (machine : Machine) (blockno : Nat) : Machine :=
  { machine with issued := machine.issued ++ [(blockno, machine.view blockno)] }

/-- After a reboot every buffer is read afresh. -/
def boot (disk : Disk) : Machine := { view := disk, issued := [] }

end Machine

/-! ## struct log -/

/-- `struct log`. The header keeps the first `n` entries of `lh.block`, so
`lh.n` is the length of the list. -/
structure Log where
  start : Nat
  size : Nat
  outstanding : Int
  committing : Bool
  lh : List Nat
deriving DecidableEq, Repr

namespace Log

/-- Blocks `[start, start + size)` belong to the log. -/
def InArea (log : Log) (blockno : Nat) : Prop :=
  log.start ≤ blockno ∧ blockno < log.start + log.size

instance (log : Log) (blockno : Nat) : Decidable (log.InArea blockno) :=
  inferInstanceAs (Decidable (_ ∧ _))

end Log

/-! ## The header block -/

/-- The count field of a header block. -/
def headerCount (header : Block) : Int := toInt32 (header.word 0)

/-- The loop of `write_head`: store the entries from position `index` on. -/
def putEntries (header : Block) : Nat → List Nat → Block
  | _, [] => header
  | index, blockno :: rest =>
    putEntries (header.setWord (index + 1) blockno) (index + 1) rest

/-- What `write_head` stores in the header block. -/
def putHeader (header : Block) (lh : List Nat) : Block :=
  putEntries (header.setWord 0 lh.length) 0 lh

/-- What `read_head` loads from the header block. A count above `LOGSIZE`
overruns `lh.block`, which is undefined; a negative one copies nothing. -/
def getHeader (header : Block) : Option (List Nat) :=
  let n := headerCount header
  if n ≤ logSize then
    some ((List.range n.toNat).map fun index => header.word (index + 1))
  else none

/-! ## Commit and recovery -/

namespace Log

/-- One turn of the loop of `write_log`: copy a cached block to its log block. -/
def writeLogBlock (log : Log) (tail blockno : Nat) (machine : Machine) : Machine :=
  let target := log.start + tail + 1
  (machine.modify target (machine.bread blockno)).bwrite target

/-- `write_log`, from log position `tail` on. -/
def writeLog (log : Log) : Nat → List Nat → Machine → Machine
  | _, [], machine => machine
  | tail, blockno :: rest, machine =>
    writeLog log (tail + 1) rest (log.writeLogBlock tail blockno machine)

/-- One turn of the loop of `install_trans`: copy a log block home. The
`recovering` flag only decides whether the buffer is unpinned. -/
def installBlock (log : Log) (tail blockno : Nat) (machine : Machine) : Machine :=
  (machine.modify blockno (machine.bread (log.start + tail + 1))).bwrite blockno

/-- `install_trans`, from log position `tail` on. -/
def installTrans (log : Log) : Nat → List Nat → Machine → Machine
  | _, [], machine => machine
  | tail, blockno :: rest, machine =>
    installTrans log (tail + 1) rest (log.installBlock tail blockno machine)

/-- `read_head`. -/
def readHead (log : Log) (machine : Machine) : Option Log :=
  (getHeader (machine.bread log.start)).map fun lh => { log with lh := lh }

/-- `write_head`. -/
def writeHead (log : Log) (machine : Machine) : Machine :=
  (machine.modify log.start (putHeader (machine.bread log.start) log.lh)).bwrite
    log.start

/-- `recover_from_log`. -/
def recoverFromLog (log : Log) (machine : Machine) : Option (Log × Machine) :=
  (log.readHead machine).map fun log =>
    let machine := log.installTrans 0 log.lh machine
    let log := { log with lh := [] }
    (log, log.writeHead machine)

/-- `commit`. -/
def commit (log : Log) (machine : Machine) : Log × Machine :=
  if 0 < log.lh.length then
    let machine := log.writeLog 0 log.lh machine
    let machine := log.writeHead machine
    let machine := log.installTrans 0 log.lh machine
    let log := { log with lh := [] }
    (log, log.writeHead machine)
  else (log, machine)

end Log

/-! ## Operations

The parts of `begin_op`, `log_write` and `end_op` that run under `log.lock`,
and the test that `log_write` makes before it takes the lock. -/

inductive LogPanic
  | tooBigATransaction
  | logWriteOutsideOfTrans
  | logCommitting
  | bgetNoBuffers
deriving DecidableEq, Repr

namespace Log

/-- One turn of the loop of `begin_op`; `none` when the caller sleeps. -/
def beginOp (log : Log) : Option Log :=
  if log.committing then none
  else if logSize < log.lh.length + (log.outstanding + 1) * maxOpBlocks then none
  else some { log with outstanding := log.outstanding + 1 }

/-- The tests at the start of `log_write`. -/
def logWriteCheck (log : Log) : Option LogPanic :=
  if logSize ≤ log.lh.length ∨ (log.size : Int) - 1 ≤ log.lh.length then
    some .tooBigATransaction
  else if log.outstanding < 1 then some .logWriteOutsideOfTrans
  else none

/-- The part of `log_write` under the lock: a block that is listed already is
absorbed, any other is added at the end. -/
def logWriteAppend (log : Log) (blockno : Nat) : Log :=
  if blockno ∈ log.lh then log else { log with lh := log.lh ++ [blockno] }

/-- The first half of `end_op`, up to the release of the lock, with `do_commit`. -/
def endOp (log : Log) : Except LogPanic (Bool × Log) :=
  let log := { log with outstanding := log.outstanding - 1 }
  if log.committing then .error .logCommitting
  else if log.outstanding = 0 then .ok (true, { log with committing := true })
  else .ok (false, log)

variable {log after : Log}

theorem beginOp_eq_some (begins : log.beginOp = some after) :
    after = { log with outstanding := log.outstanding + 1 } ∧ log.committing = false ∧
      log.lh.length + (log.outstanding + 1) * maxOpBlocks ≤ logSize := by
  unfold beginOp at begins
  split at begins
  · cases begins
  rename_i notCommitting
  split at begins
  · cases begins
  · rename_i room
    exact ⟨(Option.some.inj begins).symm, by simpa using notCommitting, Int.not_lt.mp room⟩

theorem logWriteAppend_eq (log : Log) (blockno : Nat) : log.logWriteAppend blockno =
      { log with lh := (log.logWriteAppend blockno).lh } := by
  rw [logWriteAppend]
  split <;> rfl

theorem mem_logWriteAppend {blockno o : Nat} :
    o ∈ (log.logWriteAppend blockno).lh ↔ o ∈ log.lh ∨ o = blockno := by
  rw [logWriteAppend]
  split
  · rename_i listed
    exact ⟨Or.inl, fun either => either.elim id fun eq => eq ▸ listed⟩
  · simp

theorem nodup_logWriteAppend {blockno : Nat} (nodup : log.lh.Nodup) :
    (log.logWriteAppend blockno).lh.Nodup := by
  rw [logWriteAppend]
  split
  · exact nodup
  rename_i absent
  rw [List.nodup_append]
  refine ⟨nodup, by simp, ?_⟩
  intro old mem new newMember eq
  rcases List.mem_singleton.mp newMember with rfl
  exact absent (eq ▸ mem)

theorem endOp_eq_ok {doCommit : Bool} (flag : log.committing = false)
    (ends : log.endOp = .ok (doCommit, after)) : after = { log with
          outstanding := log.outstanding - 1
          committing := doCommit } ∧ (doCommit = true ↔ log.outstanding = 1) := by
  simp only [endOp, flag] at ends
  split at ends
  · cases ends
  split at ends
  · cases ends
    exact ⟨rfl, by simp; omega⟩
  cases ends
  refine ⟨?_, by simp; omega⟩
  rw [← flag]

end Log

end Xv6
