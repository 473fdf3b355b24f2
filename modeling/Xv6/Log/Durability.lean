import Xv6.Log.Crash
import Xv6.Log.Protocol

/-! # What a crash leaves of concurrent operations

While no commit runs, the disk holds the updates of the operations that are
durable. During a commit it is some stage of the commit of all the others. -/

namespace Xv6

open Foundation Function List LogToken Option RedoLog Log LogState

variable {Pid : Type}

/-! ## Contents that a set of operations makes -/

/-- The updates of the operations that `keep` selects, as writes. -/
def writesOf (keep : Nat → Bool) (updates : List Update) : List (Nat × Block) :=
  (updates.filter fun update => keep update.op).map fun update =>
    (update.blockno, update.data)

theorem writesOf_append (keep : Nat → Bool) (first second : List Update) :
    writesOf keep (first ++ second) = writesOf keep first ++ writesOf keep second := by
  simp [writesOf]

theorem writesOf_singleton (keep : Nat → Bool) (update : Update) : writesOf keep [update] =
    if keep update.op then [(update.blockno, update.data)] else [] := by
  cases kept : keep update.op <;> simp [writesOf, kept]

/-- The disk `base` with the updates of the given operations, in the order in
which they were logged. -/
def History.contents (history : History Pid) (base : Disk) (ops : List Nat) :
    Disk :=
  applyWrites (writesOf (fun op => op ∈ ops) history.updates) base

/-- The disk `base` with every update so far. -/
def History.newest (history : History Pid) (base : Disk) : Disk :=
  applyWrites (writesOf (fun _ => true) history.updates) base

theorem applyWrites_writesOf_congr {keep o : Nat → Bool} (updates : List Update)
    {base oBase : Disk} (blockno : Nat) (baseAgree : base blockno = oBase blockno)
    (agree : ∀ update, update ∈ updates → update.blockno = blockno → keep update.op = o update.op) :
    applyWrites (writesOf keep updates) base blockno =
      applyWrites (writesOf o updates) oBase blockno := by
  induction updates generalizing base oBase with
  | nil => exact baseAgree
  | cons update rest ih =>
    have restAgree : ∀ later, later ∈ rest → later.blockno = blockno → keep later.op = o later.op :=
      fun later mem => agree later (mem_cons_of_mem _ mem)
    have stored : ∀ store : Disk, update.blockno ≠ blockno →
        Function.update store update.blockno update.data blockno = store blockno :=
      fun store ne => update_of_ne ne.symm _ _
    by_cases same : update.blockno = blockno
    · have both := agree update (by simp) same
      cases kept : keep update.op with
      | false =>
        rw [kept] at both
        simpa [writesOf, kept, ← both] using ih baseAgree restAgree
      | true =>
        rw [kept] at both
        simp only [writesOf, filter_cons, kept, ← both, if_true, map_cons, applyWrites_cons]
        apply ih _ restAgree
        simp [same]
    · have step : ∀ (choose : Nat → Bool) (store : Disk), ∃ later : Disk,
          later blockno = store blockno ∧
            applyWrites (writesOf choose (update :: rest)) store =
              applyWrites (writesOf choose rest) later := by
        intro choose store
        cases chosen : choose update.op with
        | false => exact ⟨store, rfl, by simp [writesOf, chosen]⟩
        | true => exact ⟨_, stored store same, by simp [writesOf, chosen]⟩
      rcases step keep base with ⟨left, leftSame, leftEqual⟩
      rcases step o oBase with ⟨right, rightSame, rightEqual⟩
      rw [leftEqual, rightEqual]
      exact ih (leftSame.trans (baseAgree.trans rightSame.symm)) restAgree

/-! ## The disk during a run -/

/-- The log is cleared and the rest of the store is `target`. -/
def Log.Settled (log : Log) (target store : Disk) : Prop :=
  decodeHeader (store log.start) = some [] ∧
    ∀ blockno, ¬log.InArea blockno → store blockno = target blockno

variable {log : Log}

theorem Log.settled_iff (sized : 0 < log.size) {target store : Disk} :
    (log.redoLog sized).Settled target store ↔ log.Settled target store := by
  rw [RedoLog.Settled, redoLog_decode, redoLog_header]
  rfl

/-- The log that a rebooted kernel starts with. -/
def Log.rebooted (log : Log) : Log := Log.boot log.start log.size

theorem Log.rebooted_redoes (sized : 0 < log.size) :
    (log.redoLog sized).Redoes log.rebooted.recoverWrites :=
  @recoverWrites_redoes log.rebooted sized

/-- The disk after the writes sent to it since boot. -/
def LogState.onDisk (s : LogState Pid) (disk : Disk) : Disk :=
  applyWrites s.machine.issued disk

theorem LogState.exec_rebooted [DecidableEq Pid] {p : Pid} {cmd : LogCommand} {s s' : LogState Pid}
    {r : cmd.Response} (ran : s.exec p cmd = .ok (r, s')) : s'.log.rebooted = s.log.rebooted := by
  have located : ∀ log : Log, ∀ blockno, (log.logWriteAppend blockno).rebooted = log.rebooted := by
    intro log blockno
    rw [logWriteAppend_eq]
    rfl
  cases step_of_exec ran with
  | beginOp begins =>
    rcases beginOp_eq_some begins with ⟨rfl, _⟩
    rfl
  | logWrite passes | logWriteAppend => exact located _ _
  | endOp ends =>
    simp only [Log.endOp] at ends
    split at ends
    · cases ends
    · split at ends <;> cases ends <;> rfl
  | headerCount => split <;> rfl
  | _ => rfl

/-- The stage that the writes of the commit have come to, if it has written a
block and not finished. -/
def CommitPhase.stage (listed : List Nat) : CommitPhase → Option CommitStage
  | .decided | .staging 0 => none
  | .staging (tail + 1) => some (.staging (tail + 1))
  | .installing tail => some (.installing tail)
  | .cleared => some (.installing listed.length)
  | .finished => none

theorem CommitPhase.stage_staging (listed : List Nat) {tail : Nat} (pos : 0 < tail) :
    (CommitPhase.staging tail).stage listed = some (.staging tail) := by
  cases tail with
  | zero => cases pos
  | succ tail => rfl

/-- The log with the blocks that the commit started with. -/
def Log.listing (log : Log) (listed : List Nat) : Log := { log with lh := listed }

/-- A commit that started on the machine `started` is at `stage`. -/
structure Midway (disk base : Disk) (s : LogState Pid) (started : Machine)
    (listed : List Nat) (stage : CommitStage) : Prop where
  loggable : (s.log.listing listed).Loggable
  has : (s.log.listing listed).HasStage stage
  machine : s.machine = (s.log.listing listed).machineAt started stage
  listed_iff : ∀ blockno, blockno ∈ listed ↔ s.history.Logged blockno
  view : ∀ blockno, ¬s.log.InArea blockno →
    started.view blockno = s.history.newest base blockno
  settled : s.log.Settled (s.history.contents base s.history.durable)
    (applyWrites started.issued disk)

/-- `disk` is the disk before boot and `base` the one that recovery at boot
has made of it. -/
structure OnDisk (disk base : Disk) (s : LogState Pid)
    (ts : Pid → LogToken) : Prop where
  sized : nBuf ≤ s.log.size
  outside : ∀ blockno, blockno ∈ s.log.lh → ¬s.log.InArea blockno
  small : ∀ blockno, blockno ∈ s.log.lh → blockno < 2 ^ 32
  view : ∀ blockno, ¬s.log.InArea blockno →
    s.machine.view blockno = s.history.newest base blockno
  unwritten : ∀ p started listed, ts p = .commit (.staging 0) started listed →
    s.machine = started
  quiet : (∀ p phase started listed,
      ts p = .commit phase started listed → phase.stage listed = none) →
    s.log.Settled (s.history.contents base s.history.durable)
      (s.onDisk disk)
  midway : ∀ p phase started listed stage,
    ts p = .commit phase started listed → phase.stage listed = some stage →
    Midway disk base s started listed stage

/-- A call of `log_write` names a block outside the log by a 32-bit number. -/
def LogCommand.LogsOutside (s : LogState Pid) : LogCommand → Prop
  | .logWrite blockno _ | .logWriteAppend blockno _ =>
    ¬s.log.InArea blockno ∧ blockno < 2 ^ 32
  | _ => True

instance (s : LogState Pid) (cmd : LogCommand) : Decidable (cmd.LogsOutside s) := by
  cases cmd <;> unfold LogCommand.LogsOutside <;> infer_instance

namespace Midway

variable {disk base : Disk} {s : LogState Pid} {started : Machine}
  {listed : List Nat} {stage : CommitStage}

section

variable (midway : Midway disk base s started listed stage)
include midway

theorem current_view (blockno : Nat) (outside : ¬s.log.InArea blockno) :
    s.machine.view blockno = s.history.newest base blockno := by
  rw [midway.machine]
  exact (machineAt_view started midway.loggable.room midway.loggable.outside stage
    midway.has blockno outside).trans (midway.view blockno outside)

theorem installed_eq (ended : ∀ update, update ∈ s.history.updates → update.op ∈ s.history.ended)
    (blockno : Nat) (outside : ¬s.log.InArea blockno) :
    installed (s.history.contents base s.history.durable) started.view listed blockno =
    s.history.contents base s.history.ended blockno := by
  by_cases mem : blockno ∈ listed
  · rw [installed, if_pos mem, midway.view blockno outside]
    apply applyWrites_writesOf_congr _ _ rfl
    intro update updateMember _
    simp [ended update updateMember]
  · rw [installed, if_neg mem]
    apply applyWrites_writesOf_congr _ _ rfl
    intro update updateMember same
    have durable : update.op ∈ s.history.durable := by
      by_contra fresh
      exact mem ((midway.listed_iff blockno).mpr ⟨update, updateMember, fresh, same⟩)
    simp [durable, ended update updateMember]

theorem fits (sized : 0 < s.log.size) : (s.log.redoLog sized).Fits listed :=
  ⟨midway.loggable.limit, Or.inr midway.loggable.room, midway.loggable.small⟩

theorem sized : 0 < s.log.size := by
  have room := midway.loggable.room
  simp only [listing] at room
  omega

theorem settled_redoLog (sized : 0 < s.log.size) : (s.log.redoLog sized).Settled
      (s.history.contents base s.history.durable)
      (applyWrites started.issued disk) := (settled_iff sized).mpr midway.settled

theorem issued
    (sized : 0 < s.log.size) (o : CommitStage) (has : (s.log.listing listed).HasStage o) :
    ((s.log.listing listed).machineAt started o).issued = started.issued ++
      ((s.log.listing listed).commitTrace sized started.view).take
        ((s.log.listing listed).writesAt o) :=
  machineAt_issued _ started midway.loggable.room midway.loggable.outside o has

theorem onDisk_eq (sized : 0 < s.log.size) : s.onDisk disk = applyWrites
      (((s.log.listing listed).commitTrace sized started.view).take
        ((s.log.listing listed).writesAt stage)) (applyWrites started.issued disk) := by
  rw [onDisk, midway.machine, midway.issued sized stage midway.has, applyWrites_append]

section

variable (ended : ∀ update, update ∈ s.history.updates → update.op ∈ s.history.ended)
include ended

theorem settled_erased : s.log.Settled (s.history.contents base s.history.ended)
    (applyWrites ((s.log.listing listed).machineAt started .erased).issued disk) := by
  have sized := midway.sized
  have whole := (midway.settled_redoLog sized).commit_all started.view
    (midway.fits sized) midway.loggable.outside (started.view s.log.start)
    (putHeader (started.view s.log.start) listed)
  rw [midway.issued sized .erased trivial, applyWrites_append, take_of_length_le]
  · exact (settled_iff sized).mp (whole.congr (midway.installed_eq ended))
  · simp [writesAt, commitTrace, commitWrites, listing]

theorem crash (crashes : List Nat) :
    ∃ final, s.log.rebooted.recoverRuns crashes (s.onDisk disk) = some final ∧
      (s.log.Settled (s.history.contents base s.history.durable) final ∨
        s.log.Settled (s.history.contents base s.history.ended) final) := by
  have sized := midway.sized
  rcases (midway.settled_redoLog sized).crash_atomic started.view
    (rebooted_redoes sized) crashes (midway.fits sized)
    midway.loggable.outside (started.view s.log.start)
    (putHeader (started.view s.log.start) listed)
    ((s.log.listing listed).writesAt stage) with ⟨final, run, settled⟩
  refine ⟨final, ?_, ?_⟩
  · rwa [midway.onDisk_eq sized]
  · split at settled
    · exact Or.inr ((settled_iff sized).mp (settled.congr (midway.installed_eq ended)))
    · exact Or.inl ((settled_iff sized).mp settled)

end

end

end Midway

namespace OnDisk

variable {disk base : Disk} {s : LogState Pid} {ts : Pid → LogToken}
  {p : Pid} {started : Machine} {listed : List Nat}

theorem of_quiet (sized : nBuf ≤ s.log.size)
    (outside : ∀ blockno, blockno ∈ s.log.lh → ¬s.log.InArea blockno)
    (small : ∀ blockno, blockno ∈ s.log.lh → blockno < 2 ^ 32)
    (view : ∀ blockno, ¬s.log.InArea blockno →
      s.machine.view blockno = s.history.newest base blockno)
    (unwritten : ∀ p started listed, ts p = .commit (.staging 0) started listed →
      s.machine = started)
    (settled : s.log.Settled (s.history.contents base s.history.durable) (s.onDisk disk))
    (still : ∀ p phase started listed,
      ts p = .commit phase started listed → phase.stage listed = none) :
    OnDisk disk base s ts where
  sized := sized
  outside := outside
  small := small
  view := view
  unwritten := unwritten
  quiet _ := settled
  midway p phase started listed stage h staged := by
    rw [still p phase started listed h] at staged
    cases staged

variable [Fintype Pid]

theorem settled_of_not_committing (inv : GroupCommit s ts)
    (onDisk : OnDisk disk base s ts) (flag : s.log.committing = false) :
    s.log.Settled (s.history.contents base s.history.durable) (s.onDisk disk) :=
  onDisk.quiet fun _ _ _ _ h => absurd h (inv.no_commit_of_not_committing flag)

variable [DecidableEq Pid] {phase : CommitPhase}

section

variable (inv : GroupCommit s ts)
include inv

theorem token_unique {other : Pid} {otherPhase : CommitPhase} {otherStarted : Machine}
    {otherListed : List Nat} (h : ts p = .commit phase started listed)
    (ho : ts other = .commit otherPhase otherStarted otherListed) :
    otherPhase = phase ∧ otherStarted = started ∧ otherListed = listed := by
  have same := inv.committing_unique h ho
  rw [same, h] at ho
  cases ho
  exact ⟨rfl, rfl, rfl⟩

theorem of_midway {stage : CommitStage} (h : ts p = .commit phase started listed)
    (staged : phase.stage listed = some stage) (sized : nBuf ≤ s.log.size)
    (within : ∀ blockno, blockno ∈ s.log.lh → blockno ∈ listed)
    (midway : Midway disk base s started listed stage) : OnDisk disk base s ts where
  sized := sized
  outside blockno mem := midway.loggable.outside blockno (within blockno mem)
  small blockno mem := midway.loggable.small blockno (within blockno mem)
  view := midway.current_view
  unwritten other otherStarted otherListed begun := by
    rcases token_unique inv h begun with ⟨rfl, rfl, rfl⟩
    cases staged
  quiet still := by
    rw [still p phase started listed h] at staged
    cases staged
  midway o otherPhase otherStarted otherListed otherStage ho otherStaged := by
    rcases token_unique inv h ho with ⟨rfl, rfl, rfl⟩
    rw [staged] at otherStaged
    cases otherStaged
    exact midway

theorem still_of_token (h : ts p = .commit phase started listed)
    (still : phase.stage listed = none) (other : Pid) (otherPhase : CommitPhase)
    (otherStarted : Machine) (otherListed : List Nat)
    (ho : ts other = .commit otherPhase otherStarted otherListed) :
    otherPhase.stage otherListed = none := by
  rcases token_unique inv h ho with ⟨rfl, rfl, rfl⟩
  exact still

theorem settled_of_phase (onDisk : OnDisk disk base s ts) (h : ts p = .commit phase started listed)
    (still : phase.stage listed = none) : s.log.Settled (s.history.contents base s.history.durable)
      (s.onDisk disk) := onDisk.quiet (still_of_token inv h still)

/-! ## One lemma for each kind of step -/

omit [DecidableEq Pid] in
theorem append {op : Nat} (onDisk : OnDisk disk base s ts) (h : ts p = .inOp op)
    (blockno : Nat) (data : Block) (outside : ¬s.log.InArea blockno)
    (small : blockno < 2 ^ 32) : OnDisk disk base (s.append p blockno data) ts := by
  have flag := inv.not_committing_of_inOp h
  have logEqual : (s.append p blockno data).log = s.log.listing (s.log.logWriteAppend blockno).lh :=
    s.log.logWriteAppend_eq blockno
  have notDurable : s.history.running p ∉ s.history.durable := by
    rw [inv.running p op h]
    exact fun durable => (inv.inProgress p op h).2 (inv.durableEnded op durable)
  apply of_quiet
  case sized =>
    rw [logEqual]
    exact onDisk.sized
  case outside =>
    rw [logEqual]
    intro other mem
    rcases Log.mem_logWriteAppend.mp mem with old | rfl
    · exact onDisk.outside other old
    · exact outside
  case small =>
    intro other mem
    rcases Log.mem_logWriteAppend.mp mem with old | rfl
    · exact onDisk.small other old
    · exact small
  case unwritten =>
    intro other started listed begun
    exact absurd begun (inv.no_commit_of_not_committing flag)
  case view =>
    rw [logEqual]
    intro o oOutside
    have before := onDisk.view o oOutside
    simp only [LogState.append, Machine.modify, History.newest, writesOf_append,
      applyWrites_append, writesOf_singleton, if_true, applyWrites_cons, applyWrites_nil]
    by_cases same : o = blockno
    · subst same
      simp
    · rwa [update_of_ne same, update_of_ne same]
  case settled =>
    have same : (s.append p blockno data).history.contents base s.history.durable =
        s.history.contents base s.history.durable := by
      simp [LogState.append, History.contents, writesOf_append, writesOf_singleton, notDurable]
    have settled := onDisk.settled_of_not_committing inv flag
    rw [← same] at settled
    rwa [logEqual]
  case still =>
    intro o phase started listed ho
    exact absurd ho (inv.no_commit_of_not_committing flag)

end

omit [Fintype Pid] in
theorem counters {outstanding : Int} {committing : Bool} {begun : Nat}
    {running : Pid → Nat} {ended : List Nat} {tok : LogToken} (onDisk : OnDisk disk base s ts)
    (settled : s.log.Settled (s.history.contents base s.history.durable) (s.onDisk disk))
    (tokenStill : ∀ phase started listed, tok = .commit phase started listed →
      phase = .decided)
    (othersStill : ∀ o phase started listed, o ≠ p → ts o ≠ .commit phase started listed) :
    OnDisk disk base
      { log := { s.log with outstanding := outstanding, committing := committing }
        machine := s.machine
        history :=
          { s.history with begun := begun, running := running, ended := ended } }
      (update ts p tok) := by
  apply of_quiet
  case sized => exact onDisk.sized
  case outside => exact onDisk.outside
  case small => exact onDisk.small
  case view => exact onDisk.view
  case unwritten =>
    intro o started listed h
    by_cases same : o = p
    · subst same
      rw [update_self] at h
      cases tokenStill _ started listed h
    · rw [update_of_ne same] at h
      exact absurd h (othersStill o _ started listed same)
  case settled => exact settled
  case still =>
    intro o phase started listed h
    by_cases same : o = p
    · subst same
      rw [update_self] at h
      rw [tokenStill phase started listed h]
      rfl
    · rw [update_of_ne same] at h
      exact absurd h (othersStill o phase started listed same)

theorem headerCount (inv : GroupCommit s ts) (onDisk : OnDisk disk base s ts)
    (h : ts p = .commit .decided started listed) :
    OnDisk disk base (if s.log.lh.length = 0 then s.settle else s)
      (Function.update ts p (if s.log.lh.length = 0 then .commit .finished s.machine s.log.lh
          else .commit (.staging 0) s.machine s.log.lh)) := by
  have stepped := inv.headerCount h
  have listedIff := inv.listed_of_phase h (by simp)
  have settled := onDisk.settled_of_phase inv h rfl
  by_cases empty : s.log.lh.length = 0
  · simp only [if_pos empty] at stepped ⊢
    refine of_quiet onDisk.sized onDisk.outside onDisk.small onDisk.view ?_
      ⟨settled.1, ?_⟩ ?_
    · intro other began blocks ho
      rcases token_unique stepped (update_self p _ _) ho with ⟨⟨⟩, _⟩
    · intro blockno outside
      refine (settled.2 blockno outside).trans ?_
      apply applyWrites_writesOf_congr _ _ rfl
      intro update mem _
      have ended := inv.all_ended (inv.committing_of_token h)
        (inv.updatesBegun update mem)
      have durable : update.op ∈ s.history.durable := by
        by_contra fresh
        have inLh := (listedIff _).mpr ⟨update, mem, fresh, rfl⟩
        rw [length_eq_zero_iff.mp empty] at inLh
        cases inLh
      simp [settle, durable, ended]
    · exact still_of_token stepped (update_self p _ _) rfl
  · simp only [if_neg empty] at stepped ⊢
    refine of_quiet onDisk.sized onDisk.outside onDisk.small onDisk.view ?_ settled ?_
    · intro other began blocks ho
      rcases token_unique stepped (update_self p _ _) ho with ⟨_, rfl, _⟩
      rfl
    · exact still_of_token stepped (update_self p _ _) rfl

theorem advance {later : CommitPhase} {stage laterStage : CommitStage}
    {lh : List Nat} {m : Machine} (onDisk : OnDisk disk base s ts)
    (h : ts p = .commit phase started listed) (staged : phase.stage listed = some stage)
    (stepped : GroupCommit
      { s with log := { s.log with lh := lh }, machine := m }
      (update ts p (.commit later started listed)))
    (within : ∀ blockno, blockno ∈ lh → blockno ∈ listed)
    (laterStaged : later.stage listed = some laterStage)
    (laterHas : (s.log.listing listed).HasStage laterStage)
    (moved : m = (s.log.listing listed).machineAt started laterStage) :
    OnDisk disk base
      { s with log := { s.log with lh := lh }, machine := m }
      (update ts p (.commit later started listed)) := by
  have midway := onDisk.midway p phase started listed stage h staged
  refine of_midway stepped (update_self p _ _) laterStaged onDisk.sized within ?_
  exact
    { loggable := midway.loggable
      has := laterHas
      machine := moved
      listed_iff := midway.listed_iff
      view := midway.view
      settled := midway.settled }

theorem firstBlock {m : Machine} (inv : GroupCommit s ts) (onDisk : OnDisk disk base s ts)
    (h : ts p = .commit (.staging 0) started s.log.lh) (buffers : s.log.lh.length < nBuf)
    (stepped : GroupCommit { s with machine := m }
      (update ts p (.commit (.staging 1) started s.log.lh)))
    (moved : m = s.log.machineAt started (.staging 1)) :
    OnDisk disk base { s with machine := m }
      (update ts p (.commit (.staging 1) started s.log.lh)) := by
  have sized := onDisk.sized
  have limit : nBuf = logSize := rfl
  have began := onDisk.unwritten p _ _ h
  have nonempty : s.log.lh.length ≠ 0 :=
    length_eq_zero_iff.not.mpr (inv.phase p _ _ _ h).2.2
  refine of_midway stepped (update_self p _ _) rfl onDisk.sized (fun _ mem => mem) ?_
  exact
    { loggable := ⟨by simp only [listing]; omega, by simp only [listing]; omega,
        onDisk.outside, onDisk.small⟩
      has := Nat.one_le_iff_ne_zero.mpr nonempty
      machine := moved
      listed_iff := inv.listed_of_phase h (by simp)
      view := by
        rw [← began]
        exact onDisk.view
      settled := by
        rw [← began]
        exact onDisk.settled_of_phase inv h rfl }

theorem erase (inv : GroupCommit s ts) (onDisk : OnDisk disk base s ts)
    (h : ts p = .commit .cleared started listed) : OnDisk disk base
      ({ s with machine := s.log.writeHead s.machine } : LogState Pid).settle
      (Function.update ts p (.commit .finished started listed)) := by
  have flag := inv.committing_of_token h
  have empty : s.log.lh = [] := inv.phase p _ _ _ h
  have midway := onDisk.midway p _ _ _ _ h rfl
  have ended : ∀ update, update ∈ s.history.updates →
      update.op ∈ s.history.ended := fun update mem =>
    inv.all_ended flag (inv.updatesBegun update mem)
  have logEqual : s.log = { s.log.listing listed with lh := [] } := by
    rw [← empty]
    rfl
  have erased : s.log.writeHead s.machine = (s.log.listing listed).machineAt started .erased := by
    rw [midway.machine, ← machineAt_erased, ← logEqual]
    rfl
  refine of_quiet onDisk.sized onDisk.outside onDisk.small ?_ ?_ ?_ ?_
  · intro blockno outside
    rw [erased]
    exact (machineAt_view started midway.loggable.room midway.loggable.outside
      .erased trivial blockno outside).trans (midway.view blockno outside)
  · intro other began blocks ho
    rcases token_unique (inv.erase h (s.log.writeHead s.machine)) (update_self p _ _) ho with
      ⟨⟨⟩, _⟩
  · rw [erased]
    exact midway.settled_erased ended
  · exact still_of_token (inv.erase h (s.log.writeHead s.machine)) (update_self p _ _) rfl

theorem step {cmd : LogCommand} {r : cmd.Response} {after : LogState Pid} (inv : GroupCommit s ts)
    (onDisk : OnDisk disk base s ts) (ready : LogToken.Ready cmd (ts p))
    (ok : cmd.LogsOutside s) (ran : s.exec p cmd = .ok (r, after)) :
    OnDisk disk base after (update ts p (LogToken.next s cmd r (ts p))) := by
  have stepped := inv.step ready ran
  cases step_of_exec ran with
  | beginOp begins =>
    rcases beginOp_eq_some begins with ⟨rfl, flag, _⟩
    refine onDisk.counters (onDisk.settled_of_not_committing inv flag) ?_ ?_
    · rintro phase started listed ⟨⟩
    · intro o phase started listed _
      exact inv.no_commit_of_not_committing flag
  | logWrite passes =>
    rcases ready with ⟨op, h⟩
    rw [next_logWrite, update_eq_self]
    exact onDisk.append inv h _ _ ok.1 ok.2
  | logWriteCheck passes =>
    rwa [next_logWriteCheck, update_eq_self]
  | logWriteAppend =>
    rcases ready with ⟨op, h⟩
    rw [next_logWriteAppend, update_eq_self]
    exact onDisk.append inv h _ _ ok.1 ok.2
  | @endOp doCommit log ends =>
    rcases ready with ⟨op, h⟩
    have flag := inv.not_committing_of_inOp h
    rcases endOp_eq_ok flag ends with ⟨rfl, _⟩
    refine onDisk.counters (onDisk.settled_of_not_committing inv flag) ?_ ?_
    · intro phase started listed eq
      cases doCommit with
      | false => cases eq
      | true =>
        cases eq
        rfl
    · intro o phase started listed _
      exact inv.no_commit_of_not_committing flag
  | headerCount =>
    rcases ready with ⟨started, listed, h⟩
    exact onDisk.headerCount inv h
  | @writeLogBlock tail buffers =>
    rcases ready with ⟨started, listed, h, bound⟩
    rw [h] at stepped ⊢
    have cur : s.log.lh = listed := (inv.phase p _ _ _ h).1
    subst cur
    have moved := machineAt_staging_succ started tail bound
    rw [← getD_eq_getElem _ 0 bound] at moved
    -- Only the first block finds out that the cache has room for the commit.
    cases tail with
    | zero =>
      refine onDisk.firstBlock inv h buffers stepped ?_
      rw [onDisk.unwritten p _ _ h]
      exact moved
    | succ tail =>
      have midway := onDisk.midway p _ _ _ _ h rfl
      refine onDisk.advance h rfl stepped (fun _ mem => mem) rfl bound ?_
      rw [midway.machine]
      exact moved
  | writeHead nonempty =>
    rcases ready with ⟨started, listed, h | h⟩
    · rw [h] at stepped ⊢
      have cur : s.log.lh = listed := (inv.phase p _ _ _ h).1
      subst cur
      have staged := CommitPhase.stage_staging s.log.lh (Nat.pos_of_ne_zero nonempty)
      have midway := onDisk.midway p _ _ _ _ h staged
      refine onDisk.advance h staged stepped (fun _ mem => mem) rfl (Nat.zero_le _) ?_
      rw [midway.machine]
      exact machineAt_installing_zero started
    · exact absurd (inv.phase p _ _ _ h) fun empty => nonempty (length_eq_zero_iff.mpr empty)
  | eraseHead empty =>
    rcases ready with ⟨started, listed, h | h⟩
    · have cur := inv.phase p _ _ _ h
      rw [cur.1] at empty
      exact absurd (length_eq_zero_iff.mp empty) cur.2.2
    · rw [h]
      exact onDisk.erase inv h
  | @installBlock tail =>
    rcases ready with ⟨started, listed, h, bound⟩
    rw [h] at stepped ⊢
    have midway := onDisk.midway p _ _ _ _ h rfl
    have cur : s.log.lh = listed := (inv.phase p _ _ _ h).1
    subst cur
    refine onDisk.advance h rfl stepped (fun _ mem => mem) rfl bound ?_
    rw [midway.machine, getD_eq_getElem _ _ bound]
    exact machineAt_installing_succ started tail bound
  | clearHead =>
    rcases ready with ⟨started, listed, h⟩
    rw [h] at stepped ⊢
    have midway := onDisk.midway p _ _ _ _ h rfl
    refine onDisk.advance h rfl stepped ?_ rfl le_rfl midway.machine
    rintro blockno ⟨⟩
  | endCommit =>
    rcases ready with ⟨started, listed, h⟩
    refine onDisk.counters (onDisk.settled_of_phase inv h rfl) ?_ ?_
    · rintro phase otherStarted otherListed ⟨⟩
    · intro o phase otherStarted otherListed ne ho
      exact ne (inv.committing_unique h ho)

end OnDisk

/-! ## Boot -/

/-- Every buffer that was changed has been written. -/
def Machine.Synced (disk : Disk) (machine : Machine) : Prop :=
  machine.view = applyWrites machine.issued disk

variable {disk : Disk}

theorem Machine.Synced.store {m : Machine} (synced : m.Synced disk) (blockno : Nat) (data : Block) :
    ((m.modify blockno data).bwrite blockno).Synced disk := by
  simp only [Machine.Synced, bwrite, modify, applyWrites_append,
    applyWrites_cons, applyWrites_nil, update_self]
  rw [← synced]

theorem Log.installTrans_synced (tail : Nat) (lh : List Nat)
    (m : Machine) (synced : m.Synced disk) : (log.installTrans tail lh m).Synced disk := by
  induction lh generalizing tail m with
  | nil => exact synced
  | cons blockno rest ih => exact ih _ _ (synced.store _ _)

section

variable {start size : Nat} {disk : Disk} {s : LogState Pid}

section

variable (booted : initlog Pid start size disk = some s)
include booted

theorem initlog_log : s.log = boot start size := by
  simp only [initlog, Log.recoverFromLog, Log.readHead, Option.map_map, map_eq_some_iff] at booted
  rcases booted with ⟨lh, _, rfl⟩
  rfl

theorem initlog_synced : s.machine.Synced disk := by
  simp only [initlog, Log.recoverFromLog, Log.readHead, Option.map_map, map_eq_some_iff] at booted
  rcases booted with ⟨lh, _, rfl⟩
  have fresh : (Machine.boot disk).Synced disk := rfl
  exact (Log.installTrans_synced 0 lh _ fresh).store _ _

theorem initlog_cleared : decodeHeader (s.machine.view start) = some [] := by
  simp only [initlog, Log.recoverFromLog, Log.readHead, Option.map_map, map_eq_some_iff] at booted
  rcases booted with ⟨lh, _, rfl⟩
  apply decodeHeader_of_headerCount_eq_zero
  have wrote : ∀ (log : Log) (m : Machine), log.start = start → log.lh = [] →
      headerCount ((log.writeHead m).view start) = 0 := by
    rintro log m rfl empty
    simp only [Log.writeHead, Machine.bwrite, Machine.modify, update_self, empty]
    exact headerCount_putHeader _ [] (Nat.zero_le _)
  exact wrote _ _ rfl rfl

theorem initlog_history : s.history = History.boot Pid := by
  simp only [initlog, map_eq_some_iff] at booted
  rcases booted with ⟨_, _, rfl⟩
  rfl

theorem GroupCommit.boot [Fintype Pid] : GroupCommit s fun _ => .idle := by
  have log := initlog_log booted
  have history := initlog_history booted
  constructor <;> simp [log, history, Log.boot, History.boot, tally,
    inOpCount, commitCount, History.Logged]

end

theorem OnDisk.boot (sized : nBuf ≤ size) (booted : initlog Pid start size disk = some s) :
    OnDisk disk s.machine.view s fun _ => .idle := by
  have log := initlog_log booted
  have history := initlog_history booted
  apply of_quiet
  case sized =>
    rw [log]
    exact sized
  case outside | small => simp [log, Log.boot]
  case unwritten => rintro p started listed ⟨⟩
  case view =>
    intro blockno _
    rw [history]
    rfl
  case settled =>
    have same : s.onDisk disk = s.machine.view := (initlog_synced booted).symm
    rw [same, history]
    refine ⟨?_, fun _ _ => rfl⟩
    rw [log]
    exact initlog_cleared booted
  case still =>
    rintro p phase started listed ⟨⟩

end

/-! ## Crashes -/

section

variable [Fintype Pid]

theorem OnDisk.crash {base : Disk} {s : LogState Pid} {ts : Pid → LogToken} (inv : GroupCommit s ts)
    (onDisk : OnDisk disk base s ts) (crashes : List Nat) :
    ∃ final, s.log.rebooted.recoverRuns crashes (s.onDisk disk) = some final ∧
      (s.log.Settled (s.history.contents base s.history.durable) final ∨
        s.log.Settled (s.history.contents base s.history.ended) final) := by
  by_cases midway : ∃ p phase started listed stage,
    ts p = .commit phase started listed ∧ phase.stage listed = some stage
  · rcases midway with ⟨p, phase, started, listed, stage, h, staged⟩
    apply (onDisk.midway p phase started listed stage h staged).crash
    intro update mem
    exact inv.all_ended (inv.committing_of_token h) (inv.updatesBegun update mem)
  · have sized : 0 < s.log.size := Nat.lt_of_lt_of_le (by decide) onDisk.sized
    have settled := onDisk.quiet (by
      intro p phase started listed h
      cases staged : phase.stage listed with
      | none => rfl
      | some stage =>
        exact absurd ⟨p, phase, started, listed, stage, h, staged⟩ midway)
    rcases ((settled_iff sized).mpr settled).recoverRuns
      (rebooted_redoes sized) crashes with ⟨final, run, finalSettled⟩
    exact ⟨final, run, Or.inl ((settled_iff sized).mp finalSettled)⟩

variable [DecidableEq Pid]

/-- After a crash and any number of attempts to recover, the disk holds all
updates of some of the operations that have ended, the durable ones among
them, and no update of any other operation. -/
def SurvivesCrash {Operation : Type} {prog : Operation → LogProgram Unit}
    (start size : Nat) (disk base : Disk)
    (pool : Pool (logSystem Pid prog)) : Prop :=
  ∀ crashes, ∃ final committed,
    (Log.boot start size).recoverRuns crashes (pool.state.onDisk disk) = some final ∧
    (∀ op, op ∈ pool.state.history.durable → op ∈ committed) ∧
    (∀ op, op ∈ committed → op ∈ pool.state.history.ended) ∧
    ∀ blockno, ¬(Log.boot start size).InArea blockno →
      final blockno = pool.state.history.contents base committed blockno

/-- Operations that log blocks outside the log. -/
def outsideDiscipline (Pid : Type) [Fintype Pid] [DecidableEq Pid]
    (start size : Nat) (disk base : Disk) : LogDiscipline Pid where
  Extra s ts :=
    OnDisk disk base s ts ∧ s.log.rebooted = Log.boot start size
  Allowed _ cmd s := cmd.LogsOutside s
  Tolerated reason := reason = .tooBigATransaction ∨ reason = .bgetNoBuffers
  extra_step := fun inv extra ready allowed ran =>
    ⟨extra.1.step inv ready allowed ran,
      (LogState.exec_rebooted ran).trans extra.2⟩
  panic_tolerated := fun inv _ ready _ panics =>
    (inv.panic ready panics).imp And.left And.left

/-- Any operations at all. -/
def anyDiscipline (Pid : Type) [Fintype Pid] [DecidableEq Pid] :
    LogDiscipline Pid where
  Extra _ _ := True
  Allowed _ _ _ := True
  Tolerated reason := reason = .tooBigATransaction ∨ reason = .bgetNoBuffers
  extra_step := fun _ _ _ _ _ => trivial
  panic_tolerated := fun inv _ ready _ panics =>
    (inv.panic ready panics).imp And.left And.left

/-- With nothing in progress, all that has ended is on the disk. -/
def LogState.Settles (s : LogState Pid) : Prop :=
  s.log.outstanding = 0 → s.log.committing = false →
    s.log.lh = [] ∧ s.history.durable = s.history.ended

theorem GroupCommit.settles {s after : LogState Pid} {ts : Pid → LogToken} {p : Pid}
    {cmd : LogCommand} {r : cmd.Response} (inv : GroupCommit s ts)
    (ready : LogToken.Ready cmd (ts p)) (ran : s.exec p cmd = .ok (r, after)) : after.Settles := by
  intro none flag
  have cur := inv.step ready ran
  -- Of all commands only `endCommit` can leave nothing in progress.
  have left : LogToken.next s cmd r (ts p) = .idle := by
    cases h : LogToken.next s cmd r (ts p) with
    | idle => rfl
    | inOp => exact absurd ((update_self ..).trans h) (cur.not_inOp none)
    | commit => cases flag.symm.trans (cur.committing_of_token ((update_self ..).trans h))
  cases step_of_exec ran with
  | endOp ends =>
    rcases ready with ⟨op, h⟩
    rcases endOp_eq_ok (inv.not_committing_of_inOp h) ends with ⟨rfl, last⟩
    have pos := inv.outstanding_pos h
    grind
  | endCommit =>
    rcases ready with ⟨_, _, h⟩
    exact inv.phase _ _ _ _ h
  | _ => grind [LogToken.next, LogToken.Ready]

def settlingDiscipline (Pid : Type) [Fintype Pid] [DecidableEq Pid] :
    LogDiscipline Pid where
  Extra s _ := s.Settles
  Allowed _ _ _ := True
  Tolerated _ := True
  extra_step := fun inv _ ready _ ran => inv.settles ready ran
  panic_tolerated := fun _ _ _ _ _ => trivial

/-- The log never wedges: with no operation outstanding and no commit running
it is empty, all that has ended is on the disk, and `begin_op` does not sleep. -/
theorem log_settles {start size : Nat} {disk : Disk} {s : LogState Pid}
    (booted : initlog Pid start size disk = some s)
    {pool : Pool (logSystem Pid LogProgram.operationSplit)}
    (reach : System.Reachable _ (System.always _) (System.idle _ s fun _ => ()) pool)
    (none : pool.state.log.outstanding = 0) (flag : pool.state.log.committing = false) :
    pool.state.log.lh = [] ∧ pool.state.history.durable = pool.state.history.ended ∧
      pool.state.log.beginOp.isSome := by
  have start : s.log.lh = [] ∧ s.history.durable = s.history.ended := by
    rw [initlog_log booted, initlog_history booted]
    exact ⟨rfl, rfl⟩
  rcases (settlingDiscipline Pid).reachable_fits
    (fun _ => LogDiscipline.valid_operationSplit) (.boot booted) (fun _ _ => start) reach with
    ⟨ts, ⟨_, extra⟩, _⟩
  rcases extra none flag with ⟨empty, durable⟩
  exact ⟨empty, durable, by simp [beginOp, flag, none, empty]⟩

end

/-- Two operations of two blocks and of one. Their first calls of `log_write`
overlap, and the first operation commits for both, up to its first block
installed. -/
def racingOperations : List (System.Event Bool (List (Nat × Block))) :=
  [.start false [(100, Block.zero), (101, Block.zero)], .start true [(200, Block.zero)],
    .step false, .step true, .step false, .step true, .step true, .step false, .step false,
    .step false, .step true] ++
  List.replicate 7 (.step false)

/-- The commit runs to its end. -/
theorem log_settles_racing :
    ∃ (s : LogState Bool) (pool : Pool (logSystem Bool LogProgram.operationSplit)),
    initlog Bool 2 30 (fun _ => Block.zero) = some s ∧
    pool.state.history.ended = [1, 0] ∧ pool.state.log.lh = [] ∧
    pool.state.history.durable = [1, 0] ∧ pool.state.log.beginOp.isSome := by
  have found : ((initlog Bool 2 30 fun _ => Block.zero).bind fun s =>
      (System.replay ((logSystem Bool LogProgram.operationSplit).idle s fun _ => ())
        (racingOperations ++ [.finish false])).map fun pool => (pool.state.history.ended,
          pool.state.log.outstanding, pool.state.log.committing)) =
      some ([1, 0], 0, false) := by decide +kernel
  rcases Option.bind_eq_some_iff.mp found with ⟨s, booted, rest⟩
  rcases Option.map_eq_some_iff.mp rest with ⟨pool, replayed, shown⟩
  simp only [Prod.mk.injEq] at shown
  rcases shown with ⟨ended, none, flag⟩
  rcases log_settles booted (System.Reachable.initial.replay _ replayed) none flag with
    ⟨empty, durable, begins⟩
  exact ⟨s, pool, booted, ended, empty, durable.trans ended, begins⟩

end Xv6
