import Xv6.Foundation.Pool
import Xv6.Log.Log

/-! # Concurrent file system operations on the log

Processes run operations: `begin_op`, some calls of `log_write`, `end_op`. The
last operation to end commits, outside the lock, one disk write at a time. -/

namespace Xv6

open Foundation

/-! ## What has happened so far -/

/-- One call of `log_write`: the operation it belongs to, and the contents of
the buffer it was called with. -/
structure Update where
  op : Nat
  blockno : Nat
  data : Block

/-- A record of the run that no code reads. Operations are numbered in the
order of their `begin_op`; `durable` are those whose `commit` has returned. -/
structure History (Pid : Type) where
  begun : Nat
  running : Pid → Nat
  updates : List Update
  ended : List Nat
  durable : List Nat

/-- Nothing has happened yet. -/
def History.boot (Pid : Type) : History Pid where
  begun := 0
  running _ := 0
  updates := []
  ended := []
  durable := []

/-- The log in memory, the buffer cache with the writes sent to the disk since
boot, and the record of the run. -/
structure LogState (Pid : Type) where
  log : Log
  machine : Machine
  history : History Pid

/-! ## Atomic steps -/

inductive LogCommand
  | beginOp
  | logWrite (blockno : Nat) (data : Block)
  | logWriteCheck
  | logWriteAppend (blockno : Nat) (data : Block)
  | endOp
  | headerCount
  | writeLogBlock (tail : Nat)
  | writeHead
  | installBlock (tail : Nat)
  | clearHead
  | endCommit

/-- `end_op` learns whether it has to commit, and `commit` reads `log.lh.n`. -/
@[reducible] def LogCommand.Response : LogCommand → Type
  | .endOp => Bool
  | .headerCount => Nat
  | _ => Unit

namespace LogState

variable {Pid : Type} [DecidableEq Pid]

/-- `log_write` past its tests, called with a buffer that the caller has filled
with `data`. -/
def append (p : Pid) (blockno : Nat) (data : Block)
    (s : LogState Pid) : LogState Pid where
  log := s.log.logWriteAppend blockno
  machine := s.machine.modify blockno data
  history :=
    { s.history with
      updates := s.history.updates ++
        [{ op := s.history.running p, blockno := blockno, data := data }] }

/-- Record that every operation that has ended is on the disk. -/
def settle (s : LogState Pid) : LogState Pid :=
  { s with history := { s.history with durable := s.history.ended } }

def exec (p : Pid) : (cmd : LogCommand) → LogState Pid →
    Outcome LogPanic (cmd.Response × LogState Pid)
  | .beginOp, s =>
    match s.log.beginOp with
    | none => .blocked
    | some log => .ok ((),
        { s with
          log := log
          history :=
            { s.history with
              begun := s.history.begun + 1
              running := Function.update s.history.running p
                s.history.begun } })
  | .logWrite blockno data, s =>
    match s.log.logWriteCheck with
    | some reason => .panic reason
    | none => .ok ((), s.append p blockno data)
  | .logWriteCheck, s =>
    match s.log.logWriteCheck with
    | some reason => .panic reason
    | none => .ok ((), s)
  | .logWriteAppend blockno data, s =>
    .ok ((), s.append p blockno data)
  | .endOp, s =>
    match s.log.endOp with
    | .error reason => .panic reason
    | .ok (doCommit, log) => .ok (doCommit,
        { s with
          log := log
          history :=
            { s.history with
              ended := s.history.ended ++ [s.history.running p] } })
  | .headerCount, s =>
    .ok (s.log.lh.length,
      if s.log.lh.length = 0 then s.settle else s)
  | .writeLogBlock tail, s =>
    -- A listed block pins its buffer, and `bread` needs one more for the log block.
    if nBuf ≤ s.log.lh.length then .panic .bgetNoBuffers
    else .ok ((), { s with
      machine := s.log.writeLogBlock tail (s.log.lh.getD tail 0)
        s.machine })
  | .writeHead, s =>
    let written := { s with machine := s.log.writeHead s.machine }
    .ok ((), if s.log.lh.length = 0 then written.settle else written)
  | .installBlock tail, s =>
    .ok ((), { s with
      machine := s.log.installBlock tail (s.log.lh.getD tail 0)
        s.machine })
  | .clearHead, s =>
    .ok ((), { s with log := { s.log with lh := [] } })
  | .endCommit, s =>
    .ok ((), { s with log := { s.log with committing := false } })

/-- What each command does to the state when it neither blocks nor panics. -/
inductive Step (p : Pid) (s : LogState Pid) :
    (cmd : LogCommand) → cmd.Response → LogState Pid → Prop
  | beginOp {log : Log} (begins : s.log.beginOp = some log) :
      Step p s .beginOp ()
        { s with
          log := log
          history :=
            { s.history with
              begun := s.history.begun + 1
              running := Function.update s.history.running p
                s.history.begun } }
  | logWrite {blockno : Nat} {data : Block} (passes : s.log.logWriteCheck = none) :
      Step p s (.logWrite blockno data) ()
        (s.append p blockno data)
  | logWriteCheck (passes : s.log.logWriteCheck = none) :
      Step p s .logWriteCheck () s
  | logWriteAppend {blockno : Nat} {data : Block} :
      Step p s (.logWriteAppend blockno data) ()
        (s.append p blockno data)
  | endOp {doCommit : Bool} {log : Log} (ends : s.log.endOp = .ok (doCommit, log)) :
      Step p s .endOp doCommit
        { s with
          log := log
          history :=
            { s.history with
              ended := s.history.ended ++ [s.history.running p] } }
  | headerCount :
      Step p s .headerCount s.log.lh.length
        (if s.log.lh.length = 0 then s.settle else s)
  | writeLogBlock {tail : Nat} (buffers : s.log.lh.length < nBuf) :
      Step p s (.writeLogBlock tail) ()
        { s with
          machine := s.log.writeLogBlock tail (s.log.lh.getD tail 0)
            s.machine }
  | writeHead (listed : s.log.lh.length ≠ 0) :
      Step p s .writeHead ()
        { s with machine := s.log.writeHead s.machine }
  | eraseHead (empty : s.log.lh.length = 0) :
      Step p s .writeHead ()
        ({ s with machine := s.log.writeHead s.machine } :
          LogState Pid).settle
  | installBlock {tail : Nat} :
      Step p s (.installBlock tail) ()
        { s with
          machine := s.log.installBlock tail (s.log.lh.getD tail 0)
            s.machine }
  | clearHead :
      Step p s .clearHead () { s with log := { s.log with lh := [] } }
  | endCommit :
      Step p s .endCommit ()
        { s with log := { s.log with committing := false } }

theorem step_of_exec {p : Pid} {cmd : LogCommand} {r : cmd.Response} {s after : LogState Pid}
    (ran : s.exec p cmd = .ok (r, after)) : Step p s cmd r after := by
  cases cmd with
  | beginOp =>
    cases begins : s.log.beginOp with
    | none => simp [exec, begins] at ran
    | some log =>
      simp only [exec, begins, Outcome.ok.injEq, Prod.mk.injEq] at ran
      rcases ran with ⟨_, rfl⟩
      exact .beginOp begins
  | logWrite blockno data =>
    cases checks : s.log.logWriteCheck with
    | some why => simp [exec, checks] at ran
    | none =>
      simp only [exec, checks, Outcome.ok.injEq, Prod.mk.injEq] at ran
      rcases ran with ⟨_, rfl⟩
      exact .logWrite checks
  | logWriteCheck =>
    cases checks : s.log.logWriteCheck with
    | some why => simp [exec, checks] at ran
    | none =>
      simp only [exec, checks, Outcome.ok.injEq, Prod.mk.injEq] at ran
      rcases ran with ⟨_, rfl⟩
      exact .logWriteCheck checks
  | logWriteAppend blockno data => cases ran; exact .logWriteAppend
  | endOp =>
    cases ends : s.log.endOp with
    | error why => simp [exec, ends] at ran
    | ok out =>
      rcases out with ⟨doCommit, log⟩
      simp only [exec, ends, Outcome.ok.injEq, Prod.mk.injEq] at ran
      rcases ran with ⟨rfl, rfl⟩
      exact .endOp ends
  | headerCount => cases ran; exact .headerCount
  | writeLogBlock tail =>
    by_cases pinned : nBuf ≤ s.log.lh.length
    · simp [exec, pinned] at ran
    simp only [exec, if_neg pinned, Outcome.ok.injEq, Prod.mk.injEq] at ran
    rcases ran with ⟨_, rfl⟩
    exact .writeLogBlock (Nat.lt_of_not_le pinned)
  | writeHead =>
    by_cases empty : s.log.lh.length = 0
    · simp only [exec, if_pos empty, Outcome.ok.injEq, Prod.mk.injEq] at ran
      rcases ran with ⟨_, rfl⟩
      exact .eraseHead empty
    simp only [exec, if_neg empty, Outcome.ok.injEq, Prod.mk.injEq] at ran
    rcases ran with ⟨_, rfl⟩
    exact .writeHead empty
  | installBlock tail => cases ran; exact .installBlock
  | clearHead => cases ran; exact .clearHead
  | endCommit => cases ran; exact .endCommit

end LogState

/-! ## The programs that processes run -/

abbrev LogProgram (α : Type) := Program LogCommand LogCommand.Response α

namespace LogProgram

def step (cmd : LogCommand) : LogProgram cmd.Response :=
  Program.command cmd

/-- The loop of `write_log`, for `count` more log blocks. -/
def writeLog : Nat → Nat → LogProgram Unit
  | 0, _ => pure ()
  | count + 1, tail => do
      step (.writeLogBlock tail)
      writeLog count (tail + 1)

/-- The loop of `install_trans`, for `count` more blocks. -/
def installTrans : Nat → Nat → LogProgram Unit
  | 0, _ => pure ()
  | count + 1, tail => do
      step (.installBlock tail)
      installTrans count (tail + 1)

def commit : LogProgram Unit := do
  let n : Nat ← step .headerCount
  if 0 < n then
    writeLog n 0
    step .writeHead
    installTrans n 0
    step .clearHead
    step .writeHead
  else pure ()

def endOp : LogProgram Unit := do
  let doCommit : Bool ← step .endOp
  if doCommit then
    commit
    step .endCommit
  else pure ()

/-- The calls of `log_write` of one operation, each taken as one step. -/
def logWrites : List (Nat × Block) → LogProgram Unit
  | [] => pure ()
  | (blockno, data) :: rest => do
      step (.logWrite blockno data)
      logWrites rest

/-- The same, with the tests and the part under the lock as two steps. -/
def logWritesSplit : List (Nat × Block) → LogProgram Unit
  | [] => pure ()
  | (blockno, data) :: rest => do
      step .logWriteCheck
      step (.logWriteAppend blockno data)
      logWritesSplit rest

def operation (writes : List (Nat × Block)) : LogProgram Unit := do
  step .beginOp
  logWrites writes
  endOp

def operationSplit (writes : List (Nat × Block)) : LogProgram Unit := do
  step .beginOp
  logWritesSplit writes
  endOp

end LogProgram

/-- Processes that run operations one after another. -/
def logSystem (Pid : Type) [DecidableEq Pid] {Operation : Type}
    (prog : Operation → LogProgram Unit) :
    System Pid (LogState Pid) LogPanic Unit Operation where
  Command := LogCommand
  Response := LogCommand.Response
  exec := LogState.exec
  body _ operation _ := prog operation

/-- The log in memory as it is before recovery has read the header. -/
def Log.boot (start size : Nat) : Log :=
  { start := start, size := size, outstanding := 0, committing := false, lh := [] }

/-- `initlog`: recover from the log found on the disk. -/
def initlog (Pid : Type) (start size : Nat) (disk : Disk) :
    Option (LogState Pid) :=
  ((Log.boot start size).recoverFromLog (Machine.boot disk)).map fun (log, machine) =>
    { log := log, machine := machine, history := History.boot Pid }

end Xv6
