import Xv6.Log.GroupCommit

/-! # The protocol that operations follow

Operations come to each command of the log with the token that the command
asks for. So what every command preserves holds in every reachable pool. -/

namespace Xv6

open Foundation Protocol LogProgram LogState LogToken Valid

/-- An invariant on top of group commit: which steps are considered, which
panics are not excluded, and that the steps considered keep the invariant. -/
structure LogDiscipline (Pid : Type) [Fintype Pid] [DecidableEq Pid] where
  Extra : LogState Pid → (Pid → LogToken) → Prop
  Allowed : Pid → LogCommand → LogState Pid → Prop
  Tolerated : LogPanic → Prop
  extra_step : GroupCommit s ts → Extra s ts →
    LogToken.Ready cmd (ts p) → Allowed p cmd s →
    LogState.exec p cmd s = .ok (r, after) →
    Extra after (Function.update ts p
      (LogToken.next s cmd r (ts p)))
  panic_tolerated : GroupCommit s ts → Extra s ts →
    LogToken.Ready cmd (ts p) → Allowed p cmd s →
    LogState.exec p cmd s = .panic reason → Tolerated reason

namespace LogDiscipline

variable {Pid : Type} [Fintype Pid] [DecidableEq Pid] (d : LogDiscipline Pid)
  {Operation : Type} (prog : Operation → LogProgram Unit)

def protocol : Protocol (logSystem Pid prog) LogToken where
  Inv s ts := GroupCommit s ts ∧ d.Extra s ts
  Ready := LogToken.Ready
  Allowed := d.Allowed
  Tolerated := d.Tolerated
  Idle _ tok := tok = .idle

variable {d prog} {p : Pid} {tok : LogToken} {cmd : LogCommand}

theorem triple (ready : LogToken.Ready cmd tok) : (d.protocol prog).Triple p tok
    cmd fun r later => ∃ s s', exec p cmd s = .ok (r, s') ∧ later = LogToken.next s cmd r tok := by
  have general := Triple.of_next (d.protocol prog) p (fun s r => LogToken.next s cmd r tok) ready
    (by
      rintro s ts r s' rfl inv ok ran
      exact ⟨inv.1.step ready ran, d.extra_step inv.1 inv.2 ready ok ran⟩)
    (by
      rintro s ts why rfl inv ok panics
      exact d.panic_tolerated inv.1 inv.2 ready ok panics)
  apply general.mono
  rintro r later ⟨s, _, s', _, _, _, ran, eq⟩
  exact ⟨s, s', ran, eq⟩

/-! ## Programs -/

theorem valid_step {post : α → LogToken → Prop} {next : cmd.Response → LogProgram α}
    (ready : LogToken.Ready cmd tok) (rest : ∀ (s : LogState Pid) r s', exec p cmd s = .ok (r, s') →
    (d.protocol prog).Valid p post (next r) (LogToken.next s cmd r tok)) :
    (d.protocol prog).Valid p post (step cmd >>= next) tok := by
  refine call _ (triple ready) ?_
  rintro r later ⟨s, s', ran, rfl⟩
  exact rest s r s' ran

theorem valid_lastStep {post : LogToken → Prop} (ready : LogToken.Ready cmd tok) (rest :
    ∀ (s : LogState Pid) r s', exec p cmd s = .ok (r, s') → post (LogToken.next s cmd r tok)) :
    (d.protocol prog).Valid p (fun _ later => post later) (step cmd) tok := by
  refine call _ (triple ready) ?_
  rintro r later ⟨s, s', ran, rfl⟩
  exact rest s r s' ran

variable {base : Machine} {listed : List Nat}

theorem valid_writeLog (count tail : Nat) (total : tail + count = listed.length) :
    (d.protocol prog).Valid p (fun _ later => later = .commit (.staging listed.length) base listed)
    (writeLog count tail) (.commit (.staging tail) base listed) := by
  induction count generalizing tail with
  | zero =>
    have whole : tail = listed.length := total
    rw [whole]
    exact done rfl
  | succ count ih =>
    refine valid_step ⟨base, listed, rfl, by omega⟩ ?_
    intro s r s' _
    exact ih (tail + 1) (by omega)

theorem valid_installTrans (count tail : Nat) (total : tail + count = listed.length) :
    (d.protocol prog).Valid p
      (fun _ later => later = .commit (.installing listed.length) base listed)
      (installTrans count tail) (.commit (.installing tail) base listed) := by
  induction count generalizing tail with
  | zero =>
    have whole : tail = listed.length := total
    rw [whole]
    exact done rfl
  | succ count ih =>
    refine valid_step ⟨base, listed, rfl, by omega⟩ ?_
    intro s r s' _
    exact ih (tail + 1) (by omega)

theorem valid_commit : (d.protocol prog).Valid p (fun _ later => ∃ base listed,
    later = .commit .finished base listed) commit (.commit .decided base listed) := by
  refine valid_step ⟨base, listed, rfl⟩ ?_
  intro s (count : Nat) s' ran
  have counted : count = s.log.lh.length := by
    cases ran
    rfl
  by_cases empty : count = 0
  · rw [if_neg (by omega), LogToken.next, if_pos empty]
    exact done ⟨_, _, rfl⟩
  rw [if_pos (by omega), LogToken.next, if_neg empty]
  refine bind _ (valid_writeLog count 0 (by omega)) ?_
  rintro _ _ rfl
  refine valid_step ⟨_, _, Or.inl rfl⟩ ?_
  intro _ _ _ _
  refine bind _ (valid_installTrans count 0 (by omega)) ?_
  rintro _ _ rfl
  refine valid_step ⟨_, _, rfl⟩ ?_
  intro _ _ _ _
  refine valid_lastStep ⟨_, _, Or.inr rfl⟩ ?_
  intro _ _ _ _
  exact ⟨_, _, rfl⟩

variable {op : Nat}

theorem valid_endOp :
    (d.protocol prog).Valid p (fun _ later => later = .idle) endOp (.inOp op) := by
  refine valid_step ⟨op, rfl⟩ ?_
  intro s doCommit s' _
  rw [LogToken.next]
  cases doCommit with
  | false => exact done rfl
  | true =>
    refine bind _ valid_commit ?_
    rintro _ _ ⟨base, listed, rfl⟩
    refine valid_lastStep ⟨base, listed, rfl⟩ ?_
    intro _ _ _ _
    rfl

section

variable (writes : List (Nat × Block))
include writes

theorem valid_logWrites :
    (d.protocol prog).Valid p (fun _ later => later = .inOp op) (logWrites writes) (.inOp op) := by
  induction writes with
  | nil => exact done rfl
  | cons write rest ih =>
    rcases write with ⟨blockno, data⟩
    refine valid_step ⟨op, rfl⟩ ?_
    intro s r s' _
    exact ih

theorem valid_logWritesSplit : (d.protocol prog).Valid p (fun _ later =>
    later = .inOp op) (logWritesSplit writes) (.inOp op) := by
  induction writes with
  | nil => exact done rfl
  | cons write rest ih =>
    rcases write with ⟨blockno, data⟩
    refine valid_step ⟨op, rfl⟩ ?_
    intro _ _ _ _
    refine valid_step ⟨op, rfl⟩ ?_
    intro _ _ _ _
    exact ih

theorem valid_operation :
    (d.protocol prog).Valid p (fun _ later => later = .idle) (operation writes) .idle := by
  refine valid_step rfl ?_
  intro s r s' _
  refine bind _ (valid_logWrites writes) ?_
  rintro _ _ rfl
  exact valid_endOp

theorem valid_operationSplit :
    (d.protocol prog).Valid p (fun _ later => later = .idle) (operationSplit writes) .idle := by
  refine valid_step rfl ?_
  intro s r s' _
  refine bind _ (valid_logWritesSplit writes) ?_
  rintro _ _ rfl
  exact valid_endOp

end

variable (d) in
theorem reachable_fits {s : LogState Pid} (valid : ∀ p operation, (d.protocol prog).Valid p
      (fun _ later => later = .idle) (prog operation) .idle)
    (inv : GroupCommit s fun _ => .idle) (extra : d.Extra s fun _ => .idle)
    {pool : Pool (logSystem Pid prog)} (reach : (logSystem Pid prog).Reachable d.Allowed
      ((logSystem Pid prog).idle s fun _ => ()) pool) : ∃ ts, (d.protocol prog).Fits pool ts := by
  have sound : (d.protocol prog).Sound := by
    rintro p operation _ tok rfl
    exact valid p operation
  exact Protocol.reachable_fits sound (Protocol.Fits.idle ⟨inv, extra⟩ fun _ => rfl) reach

end LogDiscipline

/-! ## What a pool shows -/

/-- Commands that only a process with an operation in progress comes to. -/
def LogCommand.inProgress : LogCommand → Bool
  | .logWrite _ _ | .logWriteCheck | .logWriteAppend _ _ | .endOp => true
  | _ => false

/-- The commands of `commit`, and the one with which `end_op` closes it. -/
def LogCommand.inCommit : LogCommand → Bool
  | .headerCount | .writeLogBlock _ | .writeHead | .installBlock _ | .clearHead
  | .endCommit => true
  | _ => false

namespace LogProgram

/-- The process has returned from `begin_op` and not yet given up its operation
in `end_op`. -/
def inProgress : LogProgram Unit → Bool
  | .call cmd _ => cmd.inProgress
  | .done _ => false

/-- The process is between the decision to commit and the end of `end_op`. -/
def inCommit : LogProgram Unit → Bool
  | .call cmd _ => cmd.inCommit
  | .done _ => false

end LogProgram

section

variable {Pid : Type} [Fintype Pid] [DecidableEq Pid]
  {Operation : Type} {prog : Operation → LogProgram Unit}

/-- Operations and commits exclude each other in every way they should. -/
structure Orderly (pool : Pool (logSystem Pid prog)) : Prop where
  outstanding : pool.state.log.outstanding =
    (Finset.univ.filter fun p =>
      LogProgram.inProgress (pool.threads p)).card
  commitAlone : ∀ p, LogProgram.inCommit (pool.threads p) →
    pool.state.log.outstanding = 0 ∧
    pool.state.log.beginOp = none ∧
    (∀ other, ¬LogProgram.inProgress (pool.threads other)) ∧
    ∀ other, LogProgram.inCommit (pool.threads other) → other = p
  committed : ∀ p next,
    pool.threads p = .call LogCommand.headerCount next →
    (∀ update, update ∈ pool.state.history.updates →
      update.op ∈ pool.state.history.ended) ∧
    ∀ blockno, blockno ∈ pool.state.log.lh ↔ pool.state.history.Logged blockno
  returned : ∀ p next,
    pool.threads p = .call LogCommand.endCommit next →
    pool.state.history.durable = pool.state.history.ended
  noPanic : ¬(logSystem Pid prog).Panics (logSystem Pid prog).always pool
    .logCommitting

namespace LogToken

theorem inOpCount_of_ready {tok : LogToken} (ready : Ready cmd tok) :
    tok.inOpCount = if cmd.inProgress then 1 else 0 := by
  cases cmd <;> simp only [Ready] at ready
  case beginOp => rw [ready]; rfl
  case logWrite | logWriteCheck | logWriteAppend | endOp => rcases ready with ⟨op, rfl⟩; rfl
  case writeHead => rcases ready with ⟨base, listed, rfl | rfl⟩ <;> rfl
  case writeLogBlock | installBlock => rcases ready with ⟨base, listed, rfl, _⟩; rfl
  case headerCount | clearHead | endCommit => rcases ready with ⟨base, listed, rfl⟩; rfl

theorem commit_of_ready {tok : LogToken} (ready : Ready cmd tok) (commits : cmd.inCommit) :
    ∃ phase base listed, tok = .commit phase base listed := by
  cases cmd <;> simp only [Ready] at ready
  case beginOp | logWrite | logWriteCheck | logWriteAppend | endOp => cases commits
  case headerCount => rcases ready with ⟨base, listed, rfl⟩; exact ⟨_, _, _, rfl⟩
  case writeLogBlock => rcases ready with ⟨base, listed, rfl, _⟩; exact ⟨_, _, _, rfl⟩
  case writeHead =>
    rcases ready with ⟨base, listed, rfl | rfl⟩ <;> exact ⟨_, _, _, rfl⟩
  case installBlock => rcases ready with ⟨base, listed, rfl, _⟩; exact ⟨_, _, _, rfl⟩
  case clearHead | endCommit => rcases ready with ⟨base, listed, rfl⟩; exact ⟨_, _, _, rfl⟩

end LogToken

variable {d : LogDiscipline Pid} {pool : Pool (logSystem Pid prog)} {ts : Pid → LogToken}

section

variable (fits : (d.protocol prog).Fits pool ts)
include fits

theorem inOpCount_of_fits (p : Pid) : (ts p).inOpCount =
    if inProgress (pool.threads p) then 1 else 0 := by
  cases cur : pool.threads p with
  | done v =>
    have idle : ts p = .idle := fits.idle_of_done cur
    rw [idle]
    rfl
  | call cmd next => exact inOpCount_of_ready (fits.ready cur)

theorem commit_of_fits {p : Pid} (commits : inCommit (pool.threads p)) :
    ∃ phase base listed, ts p = .commit phase base listed := by
  cases cur : pool.threads p with
  | done v =>
    rw [cur] at commits
    cases commits
  | call cmd next =>
    rw [cur] at commits
    exact commit_of_ready (fits.ready cur) commits

theorem orderly_of_fits : Orderly pool := by
  have inv := fits.1.1
  have noneInProgress : ∀ o, pool.state.log.outstanding = 0 → ¬inProgress (pool.threads o) := by
    intro o none progress
    have counted := measure_le_tally inOpCount ts o
    have total := inv.outstanding
    rw [inOpCount_of_fits fits o, if_pos progress] at counted
    omega
  constructor
  case outstanding =>
    rw [inv.outstanding, tally, Finset.card_filter]
    congr 1
    apply Finset.sum_congr rfl
    intro p _
    exact inOpCount_of_fits fits p
  case commitAlone =>
    intro p commits
    rcases commit_of_fits fits commits with ⟨phase, base, listed, h⟩
    have flag := inv.committing_of_token h
    have none := inv.exclusive flag
    refine ⟨none, by simp [Log.beginOp, flag], fun o => noneInProgress o none, ?_⟩
    intro o oCommits
    rcases commit_of_fits fits oCommits with ⟨_, _, _, ho⟩
    exact inv.committing_unique h ho
  case committed =>
    intro p next cur
    rcases fits.ready cur with ⟨base, listed, h⟩
    refine ⟨?_, inv.listed_of_phase h (by simp)⟩
    intro update mem
    exact inv.all_ended (inv.committing_of_token h) (inv.updatesBegun update mem)
  case returned =>
    intro p next cur
    rcases fits.ready cur with ⟨base, listed, h⟩
    exact (inv.phase p _ _ _ h).2
  case noPanic =>
    rintro ⟨p, cmd, next, cur, _, panics⟩
    rcases inv.panic (fits.ready cur) panics with ⟨reason, _⟩ | ⟨reason, _⟩ <;> cases reason

end

end

end Xv6
