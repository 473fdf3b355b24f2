import Xv6.Foundation.Tally
import Xv6.Log.System

/-! # Group commit

Which process holds what while operations run side by side: an operation in
progress, or the commit. The invariant counts both, and ties the blocks listed
in the log to the updates of the operations that are not yet on the disk. -/

namespace Xv6

open Foundation Function List LogState Or

/-- How far the committing process has come. -/
inductive CommitPhase
  | decided
  | staging (tail : Nat)
  | installing (tail : Nat)
  | cleared
  | finished

/-- What a process holds: nothing, an operation in progress, or the commit. A
committing process remembers the machine it started on and the listed blocks. -/
inductive LogToken
  | idle
  | inOp (op : Nat)
  | commit (phase : CommitPhase) (base : Machine) (listed : List Nat)

namespace LogToken

def inOpCount : LogToken → Nat
  | .inOp _ => 1
  | _ => 0

def commitCount : LogToken → Nat
  | .commit _ _ _ => 1
  | _ => 0

/-- The token with which a process comes to each command. -/
def Ready : LogCommand → LogToken → Prop
  | .beginOp, tok => tok = .idle
  | .logWrite _ _, tok | .logWriteCheck, tok | .logWriteAppend _ _, tok
  | .endOp, tok => ∃ op, tok = .inOp op
  | .headerCount, tok => ∃ base listed, tok = .commit .decided base listed
  | .writeLogBlock tail, tok => ∃ base listed,
      tok = .commit (.staging tail) base listed ∧ tail < listed.length
  | .writeHead, tok => ∃ base listed,
      tok = .commit (.staging listed.length) base listed ∨
        tok = .commit .cleared base listed
  | .installBlock tail, tok => ∃ base listed,
      tok = .commit (.installing tail) base listed ∧ tail < listed.length
  | .clearHead, tok => ∃ base listed,
      tok = .commit (.installing listed.length) base listed
  | .endCommit, tok => ∃ base listed, tok = .commit .finished base listed

variable {Pid : Type}

/-- The token with which a process leaves the first half of `end_op`. -/
def afterEndOp (s : LogState Pid) (doCommit : Bool) : LogToken :=
  if doCommit then .commit .decided s.machine s.log.lh else .idle

/-- The token with which a process leaves a command, given the state in which
it executed the command and the token it came with. -/
def next (s : LogState Pid) :
    (cmd : LogCommand) → cmd.Response → LogToken → LogToken
  | .beginOp, _, _ => .inOp s.history.begun
  | .endOp, doCommit, _ => afterEndOp s doCommit
  | .headerCount, count, _ =>
    if count = 0 then .commit .finished s.machine s.log.lh
    else .commit (.staging 0) s.machine s.log.lh
  | .writeLogBlock tail, _, .commit _ base listed =>
    .commit (.staging (tail + 1)) base listed
  | .writeHead, _, .commit .cleared base listed => .commit .finished base listed
  | .writeHead, _, .commit _ base listed => .commit (.installing 0) base listed
  | .installBlock tail, _, .commit _ base listed =>
    .commit (.installing (tail + 1)) base listed
  | .clearHead, _, .commit _ base listed => .commit .cleared base listed
  | .endCommit, _, _ => .idle
  | _, _, tok => tok

@[simp] theorem next_logWrite (s : LogState Pid) (blockno : Nat) (data : Block)
    (r : Unit) (tok : LogToken) :
    next s (.logWrite blockno data) r tok = tok := rfl

@[simp] theorem next_logWriteCheck (s : LogState Pid) (r : Unit)
    (tok : LogToken) : next s .logWriteCheck r tok = tok := rfl

@[simp] theorem next_logWriteAppend (s : LogState Pid) (blockno : Nat)
    (data : Block) (r : Unit) (tok : LogToken) :
    next s (.logWriteAppend blockno data) r tok = tok := rfl

end LogToken

variable {Pid : Type}

/-- What each phase of the commit knows about the log and the record. -/
def CommitPhase.Holds (listed : List Nat) (s : LogState Pid) :
    CommitPhase → Prop
  | .decided => True
  | .staging tail => s.log.lh = listed ∧ tail ≤ listed.length ∧ listed ≠ []
  | .installing tail => s.log.lh = listed ∧ tail ≤ listed.length ∧ listed ≠ []
  | .cleared => s.log.lh = []
  | .finished => s.log.lh = [] ∧ s.history.durable = s.history.ended

/-- The blocks that operations not yet on the disk have logged. -/
def History.Logged (history : History Pid) (blockno : Nat) : Prop :=
  ∃ update, update ∈ history.updates ∧ update.op ∉ history.durable ∧
    update.blockno = blockno

structure GroupCommit [Fintype Pid] (s : LogState Pid)
    (ts : Pid → LogToken) : Prop where
  outstanding : s.log.outstanding = tally LogToken.inOpCount ts
  committing : tally LogToken.commitCount ts =
    if s.log.committing then 1 else 0
  exclusive : s.log.committing = true → s.log.outstanding = 0
  running : ∀ p op, ts p = .inOp op →
    s.history.running p = op
  inProgress : ∀ p op, ts p = .inOp op →
    op < s.history.begun ∧ op ∉ s.history.ended
  separate : ∀ first second op, ts first = .inOp op →
    ts second = .inOp op → first = second
  accounted : ∀ op, op < s.history.begun →
    op ∈ s.history.ended ∨ ∃ p, ts p = .inOp op
  endedBegun : ∀ op, op ∈ s.history.ended → op < s.history.begun
  updatesBegun : ∀ update, update ∈ s.history.updates →
    update.op < s.history.begun
  durableEnded : ∀ op, op ∈ s.history.durable → op ∈ s.history.ended
  nodup : s.log.lh.Nodup
  listed : (∀ p base blocks, ts p ≠ .commit .cleared base blocks) →
    ∀ blockno, blockno ∈ s.log.lh ↔ s.history.Logged blockno
  phase : ∀ p phase base blocks, ts p = .commit phase base blocks →
    phase.Holds blocks s

namespace GroupCommit

variable [Fintype Pid] {s : LogState Pid} {ts : Pid → LogToken}
  {p : Pid} {op : Nat} {base : Machine} {blocks : List Nat}

/-! ## What the tokens say -/

open LogToken (afterEndOp commitCount inOpCount)

variable {phase : CommitPhase}

section

variable (inv : GroupCommit s ts)
include inv

theorem committing_of_token (h : ts p = .commit phase base blocks) : s.log.committing = true := by
  have counted := measure_le_tally commitCount ts p
  rw [h, inv.committing] at counted
  cases flag : s.log.committing with
  | true => rfl
  | false => simp [flag, commitCount] at counted

theorem not_inOp (none : s.log.outstanding = 0) : ts p ≠ .inOp op := by
  intro h
  have counted := measure_le_tally inOpCount ts p
  have total := inv.outstanding
  rw [none] at total
  rw [h, show tally inOpCount ts = 0 by omega] at counted
  simp [inOpCount] at counted

theorem outstanding_pos (h : ts p = .inOp op) : 0 < s.log.outstanding := by
  have counted := measure_le_tally inOpCount ts p
  rw [h] at counted
  have total := inv.outstanding
  simp only [inOpCount] at counted
  omega

theorem not_committing_of_inOp (h : ts p = .inOp op) : s.log.committing = false := by
  cases flag : s.log.committing with
  | false => rfl
  | true =>
    have pos := inv.outstanding_pos h
    have none := inv.exclusive flag
    omega

theorem no_commit_of_not_committing (flag : s.log.committing = false) :
    ts p ≠ .commit phase base blocks := by
  intro h
  rw [inv.committing_of_token h] at flag
  cases flag

theorem all_ended (flag : s.log.committing = true) (begun : op < s.history.begun) :
    op ∈ s.history.ended := by
  rcases inv.accounted op begun with ended | ⟨o, h⟩
  · exact ended
  · exact absurd h (inv.not_inOp (inv.exclusive flag))

end

variable [DecidableEq Pid]

section

variable (inv : GroupCommit s ts)
include inv

theorem committing_unique {o : Pid} {oPhase : CommitPhase} {oBase : Machine} {oBlks : List Nat}
    (h : ts p = .commit phase base blocks) (ho : ts o = .commit oPhase oBase oBlks) : o = p := by
  by_contra ne
  have counted := add_measure_le_tally commitCount ts ne
  rw [h, ho, inv.committing, inv.committing_of_token h] at counted
  simp [commitCount] at counted

theorem listed_of_phase (h : ts p = .commit phase base blocks) (open_ : phase ≠ .cleared)
    (blockno : Nat) : blockno ∈ s.log.lh ↔ s.history.Logged blockno := by
  apply inv.listed
  intro o oBase oBlks ho
  have same := inv.committing_unique h ho
  rw [same, h] at ho
  cases ho
  exact open_ rfl

/-! ## One lemma for each command -/

theorem beginOp {log : Log} (h : ts p = .idle) (begins : s.log.beginOp = some log) : GroupCommit
      { s with
        log := log
        history :=
          { s.history with
            begun := s.history.begun + 1
            running := Function.update s.history.running p s.history.begun } }
      (Function.update ts p (.inOp s.history.begun)) := by
  rcases Log.beginOp_eq_some begins with ⟨rfl, flag, _⟩
  have moved := tally_update inOpCount ts p (.inOp s.history.begun)
  have commitMoved := tally_update_same commitCount ts p (.inOp s.history.begun) (by rw [h]; rfl)
  rw [h] at moved
  simp only [inOpCount] at moved
  have total := inv.outstanding
  constructor
  case outstanding =>
    simp only
    omega
  case committing =>
    rw [commitMoved]
    exact inv.committing
  case exclusive =>
    intro committing
    simp only [flag] at committing
    cases committing
  case running =>
    intro o oOp ho
    by_cases same : o = p
    · subst same
      rw [update_self] at ho
      simpa using ho
    · rw [update_of_ne same] at ho
      simpa [same] using inv.running o oOp ho
  case inProgress =>
    intro o oOp ho
    by_cases same : o = p
    · subst same
      rw [update_self] at ho
      cases ho
      refine ⟨Nat.lt_succ_self _, ?_⟩
      intro ended
      exact lt_irrefl _ (inv.endedBegun _ ended)
    · rw [update_of_ne same] at ho
      have old := inv.inProgress o oOp ho
      exact ⟨Nat.lt_succ_of_lt old.1, old.2⟩
  case separate =>
    intro fst snd oOp fstHolds sndHolds
    by_cases fstSame : fst = p
    · by_cases sndSame : snd = p
      · rw [fstSame, sndSame]
      subst fstSame
      rw [update_self] at fstHolds
      rw [update_of_ne sndSame] at sndHolds
      cases fstHolds
      exact absurd (inv.inProgress snd _ sndHolds).1 (lt_irrefl _)
    · rw [update_of_ne fstSame] at fstHolds
      by_cases sndSame : snd = p
      · subst sndSame
        rw [update_self] at sndHolds
        cases sndHolds
        exact absurd (inv.inProgress fst _ fstHolds).1 (lt_irrefl _)
      · rw [update_of_ne sndSame] at sndHolds
        exact inv.separate fst snd oOp fstHolds sndHolds
  case accounted =>
    intro oOp begun
    by_cases newest : oOp = s.history.begun
    · exact inr ⟨p, by rw [update_self, newest]⟩
    have older : oOp < s.history.begun := by
      simp only at begun
      omega
    rcases inv.accounted oOp older with ended | ⟨o, ho⟩
    · exact inl ended
    refine inr ⟨o, ?_⟩
    have ne : o ≠ p := by
      intro same
      rw [same, h] at ho
      cases ho
    rwa [update_of_ne ne]
  case endedBegun =>
    intro oOp ended
    exact Nat.lt_succ_of_lt (inv.endedBegun oOp ended)
  case updatesBegun =>
    intro update mem
    exact Nat.lt_succ_of_lt (inv.updatesBegun update mem)
  case durableEnded => exact inv.durableEnded
  case nodup => exact inv.nodup
  case listed =>
    intro _
    exact inv.listed fun o _ _ => inv.no_commit_of_not_committing flag
  case phase =>
    intro o phase oBase oBlks ho
    by_cases same : o = p
    · subst same
      rw [update_self] at ho
      cases ho
    · rw [update_of_ne same] at ho
      exact absurd ho (inv.no_commit_of_not_committing flag)

omit [DecidableEq Pid] in
theorem append (h : ts p = .inOp op) (blockno : Nat) (data : Block) :
    GroupCommit (s.append p blockno data) ts := by
  have flag := inv.not_committing_of_inOp h
  have runs := inv.running p op h
  have cur := inv.inProgress p op h
  have notDurable : op ∉ s.history.durable := fun durable => cur.2 (inv.durableEnded op durable)
  have logEqual := s.log.logWriteAppend_eq blockno
  constructor
  case outstanding =>
    rw [LogState.append, logEqual]
    exact inv.outstanding
  case committing =>
    rw [LogState.append, logEqual]
    exact inv.committing
  case exclusive =>
    rw [LogState.append, logEqual]
    exact inv.exclusive
  case running => exact inv.running
  case inProgress => exact inv.inProgress
  case separate => exact inv.separate
  case accounted => exact inv.accounted
  case endedBegun => exact inv.endedBegun
  case updatesBegun =>
    intro update mem
    rcases mem_append.mp mem with old | new
    · exact inv.updatesBegun update old
    · rcases mem_singleton.mp new with rfl
      simpa [runs, LogState.append] using cur.1
  case durableEnded => exact inv.durableEnded
  case nodup => exact Log.nodup_logWriteAppend inv.nodup
  case listed =>
    intro _ o
    have pre := inv.listed (fun o _ _ => inv.no_commit_of_not_committing flag) o
    have logged : (s.append p blockno data).history.Logged o ↔
        s.history.Logged o ∨ o = blockno := by
      constructor
      · rintro ⟨update, mem, fresh, eq⟩
        rcases mem_append.mp mem with old | new
        · exact inl ⟨update, old, fresh, eq⟩
        · rcases mem_singleton.mp new with rfl
          exact inr eq.symm
      · rintro (⟨update, old, fresh, eq⟩ | eq)
        · exact ⟨update, mem_append.mpr (inl old), fresh, eq⟩
        · refine ⟨_, mem_append.mpr (inr (mem_singleton.mpr rfl)), ?_, eq.symm⟩
          rwa [runs]
    rw [logged, ← pre]
    exact Log.mem_logWriteAppend
  case phase =>
    intro o phase oBase oBlks ho
    exact absurd ho (inv.no_commit_of_not_committing flag)

theorem endOp {log : Log} {doCommit : Bool} (h : ts p = .inOp op)
    (ends : s.log.endOp = .ok (doCommit, log)) : GroupCommit { s with
        log := log
        history :=
          { s.history with
            ended := s.history.ended ++ [s.history.running p] } }
      (Function.update ts p (afterEndOp s doCommit)) := by
  have flag := inv.not_committing_of_inOp h
  have runs := inv.running p op h
  have cur := inv.inProgress p op h
  have pos := inv.outstanding_pos h
  rcases Log.endOp_eq_ok flag ends with ⟨rfl, commits⟩
  rw [runs]
  have moved := tally_update inOpCount ts p (afterEndOp s doCommit)
  have commitMoved := tally_update commitCount ts p (afterEndOp s doCommit)
  have total := inv.outstanding
  have commitTotal := inv.committing
  rw [h] at moved commitMoved
  rw [flag] at commitTotal
  have notInOp : ∀ o otherOp, Function.update ts p (afterEndOp s doCommit) o =
        .inOp otherOp → o ≠ p ∧ ts o = .inOp otherOp := by
    intro o otherOp ho
    by_cases same : o = p
    · subst same
      rw [update_self, afterEndOp] at ho
      split at ho <;> cases ho
    · rw [update_of_ne same] at ho
      exact ⟨same, ho⟩
  constructor
  case outstanding =>
    have none : inOpCount (afterEndOp s doCommit) = 0 := by
      rw [afterEndOp]
      split <;> rfl
    rw [none] at moved
    simp only [inOpCount] at moved ⊢
    omega
  case committing =>
    cases doCommit with
    | true | false =>
      simp [afterEndOp, commitCount] at commitMoved commitTotal ⊢
      omega
  case exclusive =>
    intro committing
    have last := commits.mp committing
    simp only
    omega
  case running =>
    intro o otherOp ho
    exact inv.running o otherOp (notInOp o otherOp ho).2
  case inProgress =>
    intro o otherOp ho
    rcases notInOp o otherOp ho with ⟨ne, pre⟩
    have progress := inv.inProgress o otherOp pre
    refine ⟨progress.1, ?_⟩
    intro ended
    rcases mem_append.mp ended with old | new
    · exact progress.2 old
    · rcases mem_singleton.mp new with rfl
      exact ne (inv.separate o p _ pre h)
  case separate =>
    intro first snd otherOp firstHolds sndHolds
    exact inv.separate first snd otherOp (notInOp first otherOp firstHolds).2
      (notInOp snd otherOp sndHolds).2
  case accounted =>
    intro otherOp begun
    rcases inv.accounted otherOp begun with ended | ⟨o, ho⟩
    · exact inl (mem_append.mpr (inl ended))
    by_cases same : o = p
    · rw [same, h] at ho
      cases ho
      exact inl (mem_append.mpr (inr (mem_singleton.mpr rfl)))
    · exact inr ⟨o, by rw [update_of_ne same]; exact ho⟩
  case endedBegun =>
    intro otherOp ended
    rcases mem_append.mp ended with old | new
    · exact inv.endedBegun otherOp old
    · rcases mem_singleton.mp new with rfl
      exact cur.1
  case updatesBegun => exact inv.updatesBegun
  case durableEnded =>
    intro otherOp durable
    exact mem_append.mpr (inl (inv.durableEnded otherOp durable))
  case nodup => exact inv.nodup
  case listed =>
    intro _
    exact inv.listed fun o _ _ => inv.no_commit_of_not_committing flag
  case phase =>
    intro o phase otherBase otherBlocks ho
    by_cases same : o = p
    · subst same
      rw [update_self, afterEndOp] at ho
      split at ho
      · cases ho
        trivial
      · cases ho
    · rw [update_of_ne same] at ho
      exact absurd ho (inv.no_commit_of_not_committing flag)

theorem commitStep {s' : LogState Pid} {later : CommitPhase}
    {laterBase : Machine} {laterBlocks : List Nat} (h : ts p = .commit phase base blocks)
    (sameOutstanding : s'.log.outstanding = s.log.outstanding)
    (sameCommitting : s'.log.committing = s.log.committing) (sameHist : s'.history =
      { s.history with durable := s'.history.durable })
    (durableEnded : ∀ op, op ∈ s'.history.durable → op ∈ s.history.ended)
    (nodup : s'.log.lh.Nodup)
    (listed : later ≠ .cleared → ∀ blockno, blockno ∈ s'.log.lh ↔ s'.history.Logged blockno)
    (laterHolds : later.Holds laterBlocks s') :
    GroupCommit s' (Function.update ts p (.commit later laterBase laterBlocks)) := by
  have inOpSame := tally_update_same inOpCount ts p
    (.commit later laterBase laterBlocks) (by rw [h]; rfl)
  have commitSame := tally_update_same commitCount ts p
    (.commit later laterBase laterBlocks) (by rw [h]; rfl)
  have inOpIff : ∀ o otherOp, update ts p (.commit later laterBase laterBlocks) o =
        .inOp otherOp ↔ ts o = .inOp otherOp := by
    intro o otherOp
    by_cases same : o = p
    · subst same
      simp [h]
    · rw [update_of_ne same]
  have ended : s'.history.ended = s.history.ended := by rw [sameHist]
  have begun : s'.history.begun = s.history.begun := by rw [sameHist]
  have runs : s'.history.running = s.history.running := by rw [sameHist]
  have updates : s'.history.updates = s.history.updates := by rw [sameHist]
  constructor
  case outstanding =>
    rw [sameOutstanding, inOpSame]
    exact inv.outstanding
  case committing =>
    rw [sameCommitting, commitSame]
    exact inv.committing
  case exclusive =>
    rw [sameCommitting, sameOutstanding]
    exact inv.exclusive
  case running =>
    intro o otherOp ho
    rw [runs]
    exact inv.running o otherOp ((inOpIff o otherOp).mp ho)
  case inProgress =>
    intro o otherOp ho
    rw [begun, ended]
    exact inv.inProgress o otherOp ((inOpIff o otherOp).mp ho)
  case separate =>
    intro first snd otherOp firstHolds sndHolds
    exact inv.separate first snd otherOp ((inOpIff first otherOp).mp firstHolds)
      ((inOpIff snd otherOp).mp sndHolds)
  case accounted =>
    intro otherOp old
    rw [begun] at old
    rw [ended]
    rcases inv.accounted otherOp old with done | ⟨o, ho⟩
    · exact inl done
    · exact inr ⟨o, (inOpIff o otherOp).mpr ho⟩
  case endedBegun =>
    rw [ended, begun]
    exact inv.endedBegun
  case updatesBegun =>
    rw [updates, begun]
    exact inv.updatesBegun
  case durableEnded =>
    rwa [ended]
  case nodup => exact nodup
  case listed =>
    intro open_
    apply listed
    rintro rfl
    exact open_ p laterBase laterBlocks (update_self p _ _)
  case phase =>
    intro o otherPhase otherBase otherBlocks ho
    by_cases same : o = p
    · subst same
      rw [update_self] at ho
      cases ho
      exact laterHolds
    · rw [update_of_ne same] at ho
      exact absurd (inv.committing_unique h ho) same

theorem headerCount (h : ts p = .commit .decided base blocks) :
    GroupCommit (if s.log.lh.length = 0 then s.settle else s) (Function.update ts p
        (if s.log.lh.length = 0 then .commit .finished s.machine s.log.lh
          else .commit (.staging 0) s.machine s.log.lh)) := by
  have flag := inv.committing_of_token h
  have listed := inv.listed_of_phase h (by simp)
  by_cases empty : s.log.lh.length = 0
  · rw [if_pos empty, if_pos empty]
    have lhEmpty := length_eq_zero_iff.mp empty
    refine inv.commitStep h rfl rfl rfl (fun _ durable => durable) inv.nodup ?_ ⟨lhEmpty, rfl⟩
    intro _ blockno
    refine ⟨fun mem => ?_, ?_⟩
    · simp [settle, lhEmpty] at mem
    · rintro ⟨update, mem, notEnded, _⟩
      exact absurd (inv.all_ended flag (inv.updatesBegun update mem)) notEnded
  · rw [if_neg empty, if_neg empty]
    have nonempty : s.log.lh ≠ [] := fun eq => empty (length_eq_zero_iff.mpr eq)
    exact inv.commitStep h rfl rfl rfl inv.durableEnded inv.nodup
      (fun _ => listed) ⟨rfl, Nat.zero_le _, nonempty⟩

theorem machineStep {later : CommitPhase}
    (h : ts p = .commit phase base blocks) (open_ : phase ≠ .cleared)
    (m : Machine) (laterHolds : later.Holds blocks s) : GroupCommit { s with machine := m }
      (Function.update ts p (.commit later base blocks)) := by
  refine inv.commitStep h rfl rfl rfl inv.durableEnded inv.nodup
    (fun _ => inv.listed_of_phase h open_) ?_
  cases later <;> exact laterHolds

theorem clearHead (h : ts p = .commit (.installing blocks.length) base blocks) :
    GroupCommit { s with log := { s.log with lh := [] } }
      (Function.update ts p (.commit .cleared base blocks)) :=
  inv.commitStep h rfl rfl rfl inv.durableEnded List.nodup_nil
    (fun notClear => absurd rfl notClear) rfl

theorem erase (h : ts p = .commit .cleared base blocks) (m : Machine) :
    GroupCommit ({ s with machine := m } : LogState Pid).settle
      (Function.update ts p (.commit .finished base blocks)) := by
  have flag := inv.committing_of_token h
  have empty : s.log.lh = [] := inv.phase p _ _ _ h
  refine inv.commitStep h rfl rfl rfl (fun _ durable => durable) inv.nodup ?_ ⟨empty, rfl⟩
  intro _ blockno
  refine ⟨fun mem => ?_, ?_⟩
  · simp [settle, empty] at mem
  · rintro ⟨update, mem, notEnded, _⟩
    exact absurd (inv.all_ended flag (inv.updatesBegun update mem)) notEnded

theorem endCommit (h : ts p = .commit .finished base blocks) :
    GroupCommit { s with log := { s.log with committing := false } }
      (Function.update ts p .idle) := by
  have flag := inv.committing_of_token h
  have listed := inv.listed_of_phase h (by simp)
  have inOpSame := tally_update_same inOpCount ts p .idle (by rw [h]; rfl)
  have moved := tally_update commitCount ts p .idle
  have total := inv.committing
  rw [h] at moved
  rw [flag] at total
  have inOpIff : ∀ o otherOp, Function.update ts p .idle o = .inOp otherOp ↔
        ts o = .inOp otherOp := by
    intro o otherOp
    by_cases same : o = p
    · subst same
      simp [h]
    · rw [update_of_ne same]
  constructor
  case outstanding =>
    rw [inOpSame]
    exact inv.outstanding
  case committing =>
    simp [commitCount] at moved total ⊢
    omega
  case exclusive =>
    rintro ⟨⟩
  case running =>
    intro o otherOp ho
    exact inv.running o otherOp ((inOpIff o otherOp).mp ho)
  case inProgress =>
    intro o otherOp ho
    exact inv.inProgress o otherOp ((inOpIff o otherOp).mp ho)
  case separate =>
    intro first snd otherOp firstHolds sndHolds
    exact inv.separate first snd otherOp ((inOpIff first otherOp).mp firstHolds)
      ((inOpIff snd otherOp).mp sndHolds)
  case accounted =>
    intro otherOp begun
    rcases inv.accounted otherOp begun with ended | ⟨o, ho⟩
    · exact inl ended
    · exact inr ⟨o, (inOpIff o otherOp).mpr ho⟩
  case endedBegun => exact inv.endedBegun
  case updatesBegun => exact inv.updatesBegun
  case durableEnded => exact inv.durableEnded
  case nodup => exact inv.nodup
  case listed =>
    intro _
    exact listed
  case phase =>
    intro o phase otherBase otherBlocks ho
    by_cases same : o = p
    · subst same
      rw [update_self] at ho
      cases ho
    · rw [update_of_ne same] at ho
      exact absurd (inv.committing_unique h ho) same

theorem step {cmd : LogCommand} {r : cmd.Response} {after : LogState Pid}
    (ready : LogToken.Ready cmd (ts p)) (ran : s.exec p cmd = .ok (r, after)) :
    GroupCommit after (Function.update ts p (LogToken.next s cmd r (ts p))) := by
  cases LogState.step_of_exec ran with
  | beginOp begins => exact inv.beginOp ready begins
  | logWrite passes =>
    rcases ready with ⟨op, h⟩
    rw [LogToken.next_logWrite, update_eq_self]
    exact inv.append h _ _
  | logWriteCheck passes =>
    rwa [LogToken.next_logWriteCheck, update_eq_self]
  | logWriteAppend =>
    rcases ready with ⟨op, h⟩
    rw [LogToken.next_logWriteAppend, update_eq_self]
    exact inv.append h _ _
  | endOp ends =>
    rcases ready with ⟨op, h⟩
    exact inv.endOp h ends
  | headerCount =>
    rcases ready with ⟨base, listed, h⟩
    exact inv.headerCount h
  | writeHead nonempty =>
    rcases ready with ⟨base, listed, h | h⟩
    · rw [h]
      have cur := inv.phase p _ _ _ h
      exact inv.machineStep h (by simp) _ ⟨cur.1, Nat.zero_le _, cur.2.2⟩
    · exact absurd (inv.phase p _ _ _ h) fun empty => nonempty (length_eq_zero_iff.mpr empty)
  | eraseHead empty =>
    rcases ready with ⟨base, listed, h | h⟩
    · have cur := inv.phase p _ _ _ h
      rw [cur.1] at empty
      exact absurd (length_eq_zero_iff.mp empty) cur.2.2
    · rw [h]
      exact inv.erase h _
  | writeLogBlock | installBlock =>
    rcases ready with ⟨base, listed, h, bound⟩
    rw [h]
    have cur := inv.phase p _ _ _ h
    exact inv.machineStep h (by simp) _ ⟨cur.1, bound, cur.2.2⟩
  | clearHead =>
    rcases ready with ⟨base, listed, h⟩
    rw [h]
    exact inv.clearHead h
  | endCommit =>
    rcases ready with ⟨base, listed, h⟩
    exact inv.endCommit h

theorem panic {cmd : LogCommand} {why : LogPanic} (ready : LogToken.Ready cmd (ts p))
    (panics : s.exec p cmd = .panic why) :
    (why = .tooBigATransaction ∧
      (logSize ≤ s.log.lh.length ∨ (s.log.size : Int) - 1 ≤ s.log.lh.length) ∧
      ((∃ blockno data, cmd = .logWrite blockno data) ∨ cmd = .logWriteCheck)) ∨
    (why = .bgetNoBuffers ∧ nBuf ≤ s.log.lh.length ∧ ∃ tail, cmd = .writeLogBlock tail) := by
  have checked : ∀ op, ts p = .inOp op → s.log.logWriteCheck = some why →
      why = .tooBigATransaction ∧
        (logSize ≤ s.log.lh.length ∨ (s.log.size : Int) - 1 ≤ s.log.lh.length) := by
    intro op h fails
    have pos := inv.outstanding_pos h
    unfold Log.logWriteCheck at fails
    split at fails
    · rename_i full
      exact ⟨(Option.some.inj fails).symm, full⟩
    split at fails
    · omega
    · cases fails
  cases cmd with
  | logWrite blockno data =>
    rcases ready with ⟨op, h⟩
    cases checks : s.log.logWriteCheck with
    | none => simp [LogState.exec, checks] at panics
    | some hit =>
      simp only [LogState.exec, checks, Outcome.panic.injEq] at panics
      subst panics
      have full := checked op h checks
      exact inl ⟨full.1, full.2, inl ⟨blockno, data, rfl⟩⟩
  | logWriteCheck =>
    rcases ready with ⟨op, h⟩
    cases checks : s.log.logWriteCheck with
    | none => simp [LogState.exec, checks] at panics
    | some hit =>
      simp only [LogState.exec, checks, Outcome.panic.injEq] at panics
      subst panics
      have full := checked op h checks
      exact inl ⟨full.1, full.2, inr rfl⟩
  | endOp =>
    rcases ready with ⟨op, h⟩
    have flag := inv.not_committing_of_inOp h
    have ends : ∃ out, s.log.endOp = .ok out := by
      simp only [Log.endOp, flag]
      split
      · contradiction
      · split <;> exact ⟨_, rfl⟩
    rcases ends with ⟨out, ends⟩
    simp [exec, ends] at panics
  | beginOp =>
    cases begins : s.log.beginOp with
    | none | some log => simp [LogState.exec, begins] at panics
  | logWriteAppend blockno data => cases panics
  | headerCount => cases panics
  | writeLogBlock tail =>
    by_cases pinned : nBuf ≤ s.log.lh.length
    · simp only [exec, if_pos pinned, Outcome.panic.injEq] at panics
      exact inr ⟨panics.symm, pinned, tail, rfl⟩
    · simp [exec, pinned] at panics
  | writeHead => cases panics
  | installBlock tail => cases panics
  | clearHead => cases panics
  | endCommit => cases panics

end

end GroupCommit

end Xv6
