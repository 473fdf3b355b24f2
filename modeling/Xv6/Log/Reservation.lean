import Mathlib.Data.List.Dedup
import Xv6.Layout
import Xv6.Log.Durability

/-! # Log space

`begin_op` reserves `MAXOPBLOCKS` of `LOGSIZE` blocks for each operation, while
`log_write` refuses to go past `log.size - 1` blocks, before it looks whether
the block is listed already, and before it takes the lock. -/

namespace Xv6

open Foundation List Log LogState

variable {Pid : Type}

/-- An operation, given by the blocks it logs and their contents, that keeps to
its reservation: at most `MAXOPBLOCKS` different blocks. -/
structure Operation where
  writes : List (Nat × Block)
  budget : (writes.map Prod.fst).dedup.length ≤ maxOpBlocks

/-- The different blocks that the operations of the open transaction have
logged. -/
def History.loggedBlocks (history : History Pid) : List Nat :=
  ((history.updates.filter fun update => update.op ∉ history.durable).map
    Update.blockno).dedup

theorem History.mem_loggedBlocks {hist : History Pid} {blockno : Nat} :
    blockno ∈ hist.loggedBlocks ↔ hist.Logged blockno := by
  simp only [loggedBlocks, mem_dedup, mem_map, mem_filter, decide_eq_true_eq, Logged, and_assoc]

section

variable [Fintype Pid] {s : LogState Pid} {ts : Pid → LogToken}

theorem GroupCommit.length_lh (inv : GroupCommit s ts) (flag : s.log.committing = false) :
    s.log.lh.length = s.history.loggedBlocks.length := by
  have listed := inv.listed fun _ _ _ => inv.no_commit_of_not_committing flag
  have same : s.log.lh.Perm s.history.loggedBlocks := by
    apply (perm_ext_iff_of_nodup inv.nodup (nodup_dedup _)).mpr
    intro blockno
    exact (listed blockno).trans History.mem_loggedBlocks.symm
  exact same.length_eq

theorem GroupCommit.length_lh_of_inOp {p : Pid} {op : Nat}
    (inv : GroupCommit s ts) (h : ts p = .inOp op) :
    s.log.lh.length = s.history.loggedBlocks.length := inv.length_lh (inv.not_committing_of_inOp h)

theorem Log.logWriteCheck_tooBig {log : Log} (active : 1 ≤ log.outstanding)
    (sized : log.size = logSize) :
    log.logWriteCheck = some .tooBigATransaction ↔ ¬log.lh.length < logSize - 1 := by
  have limit := logSize_eq
  by_cases full : logSize ≤ log.lh.length ∨ (log.size : Int) - 1 ≤ log.lh.length
  · rw [logWriteCheck, if_pos full]
    simp only [true_iff]
    omega
  rw [logWriteCheck, if_neg full, if_neg (by omega)]
  simp only [reduceCtorEq, false_iff]
  omega

end

/-! ## log_write as one step -/

/-- `log_write` is called while the open transaction has logged fewer than
`LOGSIZE - 1` different blocks. -/
def LogCommand.HasSpace (s : LogState Pid) : LogCommand → Prop
  | .logWrite _ _ | .logWriteCheck =>
    s.history.loggedBlocks.length < logSize - 1
  | _ => True

instance (s : LogState Pid) (cmd : LogCommand) : Decidable (cmd.HasSpace s) :=
  match cmd with
  | .logWrite _ _ | .logWriteCheck => Nat.decLt _ _
  | .logWriteAppend _ _ | .writeLogBlock _ | .installBlock _ | .beginOp | .endOp | .headerCount
  | .writeHead | .clearHead | .endCommit => instDecidableTrue

section

variable [Fintype Pid] [DecidableEq Pid]

theorem exec_logWrite_tooBig {s : LogState Pid} {ts : Pid → LogToken} {p : Pid}
    {op : Nat} (inv : GroupCommit s ts) (h : ts p = .inOp op) (sized : s.log.size = logSize)
    (blockno : Nat) (data : Block) :
    s.exec p (.logWrite blockno data) = .panic .tooBigATransaction ↔
    ¬s.history.loggedBlocks.length < logSize - 1 := by
  have active := inv.outstanding_pos h
  rw [← inv.length_lh_of_inOp h, ← logWriteCheck_tooBig active sized]
  cases checks : s.log.logWriteCheck <;> simp [exec, checks]

/-- Operations on the log area that `mkfs` lays out. -/
def spaceDiscipline (Pid : Type) [Fintype Pid] [DecidableEq Pid]
    (Allowed : Pid → LogCommand → LogState Pid → Prop) :
    LogDiscipline Pid where
  Extra s _ := s.log.rebooted =
    Log.boot Mkfs.superblock.logstart Mkfs.superblock.nlog
  Allowed := Allowed
  Tolerated _ := True
  extra_step := fun _ located _ _ ran =>
    (LogState.exec_rebooted ran).trans located
  panic_tolerated := fun _ _ _ _ _ => trivial

/-- Operations of at most `MAXOPBLOCKS` blocks each, in atomic steps. -/
abbrev operations (Pid : Type) [DecidableEq Pid] :
    System Pid (LogState Pid) LogPanic Unit Operation :=
  logSystem Pid fun operation : Operation => LogProgram.operation operation.writes

theorem log_write_space {disk : Disk} {s : LogState Pid}
    (booted : initlog Pid Mkfs.superblock.logstart Mkfs.superblock.nlog disk = some s)
    (pool : Pool (operations Pid)) : ((operations Pid).Reachable (fun _ cmd cur => cmd.HasSpace cur)
        ((operations Pid).idle s fun _ => ()) pool →
      ¬(operations Pid).Panics (fun _ cmd cur => cmd.HasSpace cur) pool .tooBigATransaction) ∧
    ((operations Pid).Reachable (operations Pid).always ((operations Pid).idle s fun _ => ()) pool →
      ∀ p blockno data next, pool.threads p = .call (LogCommand.logWrite blockno data) next →
        (pool.state.exec p (.logWrite blockno data) = .panic .tooBigATransaction ↔
          ¬LogCommand.HasSpace pool.state (.logWrite blockno data))) := by
  have inv := GroupCommit.boot booted
  have located := congrArg Log.rebooted (initlog_log booted)
  have sizedOf : ∀ cur : LogState Pid, cur.log.rebooted =
      Log.boot Mkfs.superblock.logstart Mkfs.superblock.nlog → cur.log.size = logSize :=
    fun cur eq => congrArg Log.size eq
  constructor
  · intro reach panics
    rcases (spaceDiscipline Pid fun _ cmd cur =>
      cmd.HasSpace cur).reachable_fits
      (fun _ operation => LogDiscipline.valid_operation operation.writes)
      inv located reach with ⟨ts, fits⟩
    rcases panics with ⟨p, cmd, next, cur, allowed, ran⟩
    have ready := fits.ready cur
    have sized := sizedOf _ fits.1.2
    have limit := logSize_eq
    rcases fits.1.1.panic ready ran with ⟨_, full, ⟨blockno, data, rfl⟩ | rfl⟩ | ⟨⟨⟩, _⟩
    all_goals
      rcases ready with ⟨op, holds⟩
      have listed := fits.1.1.length_lh_of_inOp holds
      have space : pool.state.history.loggedBlocks.length < logSize - 1 := allowed
      omega
  · intro reach p blockno data next cur
    rcases (spaceDiscipline Pid fun _ _ _ => True).reachable_fits
      (fun _ operation => LogDiscipline.valid_operation operation.writes)
      inv located reach with ⟨ts, fits⟩
    rcases fits.ready cur with ⟨op, holds⟩
    exact exec_logWrite_tooBig fits.1.1 holds (sizedOf _ fits.1.2) blockno data

end

/-- An operation that logs ten blocks in a row. -/
def tenBlocks (first : Nat) : Operation where
  writes := (List.range 10).map fun index => (first + index, Block.zero)
  budget := by
    refine le_trans (List.dedup_sublist _).length_le ?_
    simp

/-- Three operations run side by side; the first two log all their blocks and
the third all but its last. -/
def threeOperations : List (System.Event (Fin 3) Operation) :=
  [.start 0 (tenBlocks 100), .start 1 (tenBlocks 200), .start 2 (tenBlocks 300),
    .step 0, .step 1, .step 2] ++
  List.replicate 10 (.step 0) ++ List.replicate 10 (.step 1) ++
  List.replicate 9 (.step 2)

/-- The third operation logs the 29th block with space left, and none for its
next. -/
theorem log_write_space_filled :
    ∃ (s : LogState (Fin 3)) (pool : Pool (operations (Fin 3))),
    initlog (Fin 3) Mkfs.superblock.logstart Mkfs.superblock.nlog
      (fun _ => Block.zero) = some s ∧
    pool.state.history.loggedBlocks.length = 29 ∧
    ¬(operations (Fin 3)).Panics (fun _ cmd cur => cmd.HasSpace cur) pool .tooBigATransaction ∧
    ∀ p blockno data next, pool.threads p = .call (LogCommand.logWrite blockno data) next →
      (pool.state.exec p (.logWrite blockno data) = .panic .tooBigATransaction ↔
        ¬LogCommand.HasSpace pool.state (.logWrite blockno data)) := by
  have found : ((initlog (Fin 3) Mkfs.superblock.logstart Mkfs.superblock.nlog
      (fun _ => Block.zero)).bind fun s =>
        (System.replayTested (fun _ (cmd : LogCommand) cur => decide (cmd.HasSpace cur))
          ((operations (Fin 3)).idle s fun _ => ()) threeOperations).map fun pool =>
        pool.state.history.loggedBlocks.length) = some 29 := by decide +kernel
  rcases Option.bind_eq_some_iff.mp found with ⟨s, booted, rest⟩
  rcases Option.map_eq_some_iff.mp rest with ⟨pool, replayed, listed⟩
  have both := log_write_space booted pool
  refine ⟨s, pool, booted, listed, both.1 ?_, both.2 ?_⟩
  · exact System.Reachable.initial.replayTested (fun _ _ _ _ passes => by simpa using passes)
      _ replayed
  · exact System.Reachable.initial.replayTested (fun _ _ _ _ _ => trivial) _ replayed

/-- The last block of the third operation is refused, though each operation
keeps to the blocks reserved for it. -/
theorem log_write_panics_within_reservation :
    ∃ s pool, initlog (Fin 3) Mkfs.superblock.logstart Mkfs.superblock.nlog
        (fun _ => Block.zero) = some s ∧ (operations (Fin 3)).Reachable (operations (Fin 3)).always
        ((operations (Fin 3)).idle s fun _ => ()) pool ∧
      (operations (Fin 3)).Panics (operations (Fin 3)).always pool .tooBigATransaction := by
  have found : ((initlog (Fin 3) Mkfs.superblock.logstart Mkfs.superblock.nlog
      (fun _ => Block.zero)).bind fun s =>
        (System.replay ((operations (Fin 3)).idle s fun _ => ())
          threeOperations).bind fun pool => System.panicOf pool 2) =
      some .tooBigATransaction := by decide +kernel
  rcases Option.bind_eq_some_iff.mp found with ⟨s, booted, rest⟩
  rcases Option.bind_eq_some_iff.mp rest with ⟨pool, replayed, panics⟩
  exact ⟨s, pool, booted, System.Reachable.initial.replay _ replayed,
    System.panics_of_panicOf panics⟩

/-! ## log_write as a test and an append -/

/-- The open transaction has logged the block already, or fewer than
`log.size - 1` different blocks. -/
def LogCommand.FitsArea (s : LogState Pid) : LogCommand → Prop
  | .logWrite blockno _ | .logWriteAppend blockno _ =>
    blockno ∈ s.history.loggedBlocks ∨
      s.history.loggedBlocks.length < s.log.size - 1
  | _ => True

instance (s : LogState Pid) (cmd : LogCommand) : Decidable (cmd.FitsArea s) :=
  match cmd with
  | .logWrite _ _ | .logWriteAppend _ _ => instDecidableOr
  | .logWriteCheck | .writeLogBlock _ | .installBlock _ | .beginOp | .endOp | .headerCount
  | .writeHead | .clearHead | .endCommit => instDecidableTrue

section

variable [Fintype Pid] [DecidableEq Pid]

omit [DecidableEq Pid] in
theorem lh_fits_append {s : LogState Pid} {ts : Pid → LogToken} {p : Pid} {op : Nat}
    (inv : GroupCommit s ts) (h : ts p = .inOp op) (fits : s.log.lh.length ≤ s.log.size - 1)
    (blockno : Nat) :
    (s.log.logWriteAppend blockno).lh.length ≤ s.log.size - 1 ↔
      blockno ∈ s.history.loggedBlocks ∨
        s.history.loggedBlocks.length < s.log.size - 1 := by
  have same := inv.length_lh_of_inOp h
  have listed := inv.listed
    fun _ _ _ => inv.no_commit_of_not_committing (inv.not_committing_of_inOp h)
  have iff : blockno ∈ s.history.loggedBlocks ↔ blockno ∈ s.log.lh :=
    History.mem_loggedBlocks.trans (listed blockno).symm
  rw [iff]
  by_cases mem : blockno ∈ s.log.lh
  · simp [Log.logWriteAppend, mem, fits]
  · rw [Log.logWriteAppend, if_neg mem, length_append, length_singleton]
    simp only [mem, false_or]
    omega

theorem lh_fits_step {s s' : LogState Pid} {ts : Pid → LogToken} {p : Pid} {cmd : LogCommand}
    {r : cmd.Response} (inv : GroupCommit s ts) (fits : s.log.lh.length ≤ s.log.size - 1)
    (ready : LogToken.Ready cmd (ts p)) (ok : cmd.FitsArea s)
    (ran : s.exec p cmd = .ok (r, s')) : s'.log.lh.length ≤ s'.log.size - 1 := by
  have sameSize : s'.log.rebooted.size = s.log.rebooted.size := congrArg size (exec_rebooted ran)
  rw [show s'.log.size = s.log.size from sameSize]
  cases step_of_exec ran with
  | beginOp begins =>
    rcases beginOp_eq_some begins with ⟨rfl, _⟩
    exact fits
  | logWrite passes | logWriteAppend =>
    rcases ready with ⟨op, h⟩
    exact (lh_fits_append inv h fits _).mpr ok
  | endOp ends =>
    rcases ready with ⟨op, h⟩
    rcases endOp_eq_ok (inv.not_committing_of_inOp h) ends with ⟨rfl, _⟩
    exact fits
  | headerCount => split <;> exact fits
  | clearHead => exact Nat.zero_le _
  | _ => exact fits

/-- Operations that keep the transaction within the log area. -/
def areaDiscipline (Pid : Type) [Fintype Pid] [DecidableEq Pid] :
    LogDiscipline Pid where
  Extra s _ := s.log.lh.length ≤ s.log.size - 1 ∧
    s.log.rebooted = Log.boot Mkfs.superblock.logstart Mkfs.superblock.nlog
  Allowed _ cmd s := cmd.FitsArea s
  Tolerated _ := True
  extra_step := fun inv extra ready allowed ran =>
    ⟨lh_fits_step inv extra.1 ready allowed ran,
      (LogState.exec_rebooted ran).trans extra.2⟩
  panic_tolerated := fun _ _ _ _ _ => trivial

/-- Operations of at most `MAXOPBLOCKS` blocks each, whose calls of `log_write`
test and append in two steps. -/
abbrev splitOperations (Pid : Type) [DecidableEq Pid] :
    System Pid (LogState Pid) LogPanic Unit Operation :=
  logSystem Pid fun operation : Operation =>
    LogProgram.operationSplit operation.writes

/-- The block that the loop of `write_log` writes at position `tail`. -/
def Log.writeLogTarget (log : Log) (tail : Nat) : Nat := log.start + tail + 1

/-- The blocks from the one after the log's header up to the inodes. -/
def Log.InLogBlocks (blockno : Nat) : Prop :=
  Mkfs.superblock.logstart + 1 ≤ blockno ∧
    blockno < Mkfs.superblock.logstart + Mkfs.superblock.nlog ∧
    blockno < Mkfs.superblock.inodestart

theorem writeLogTarget_inLogBlocks {log : Log} {tail : Nat}
    (located : log.rebooted = Log.boot Mkfs.superblock.logstart Mkfs.superblock.nlog)
    (listed : log.lh.length < nBuf) (bound : tail < log.lh.length) :
    Log.InLogBlocks (log.writeLogTarget tail) := by
  have sameStart : log.start = 2 := congrArg Log.start located
  have start : Mkfs.superblock.logstart = 2 := rfl
  have size : Mkfs.superblock.nlog = 30 := rfl
  have inodes : Mkfs.superblock.inodestart = 32 := rfl
  have buffers : nBuf = 30 := rfl
  rw [Log.writeLogTarget, Log.InLogBlocks]
  omega

end

/-- Three operations run side by side until 28 blocks are listed and two of
them have one block left. -/
def nearlyFull : List (System.Event (Fin 3) Operation) :=
  [.start 0 (tenBlocks 100), .start 1 (tenBlocks 200), .start 2 (tenBlocks 300),
    .step 0, .step 1, .step 2] ++
  List.replicate 20 (.step 0) ++ List.replicate 18 (.step 1) ++
  List.replicate 18 (.step 2)

end Xv6
