import Xv6.Pipe.Stream
import Xv6.Proc.SleepProtocol

/-! # The pipe's protocol

What holds of a pipe between the steps of its users, and that `pipewrite`, `piperead`
and `pipeclose` keep it. -/

namespace Xv6

open Foundation Function Protocol
open Context KernelProgram List Or Pipe PipeAction PipeFiles PipeOperation Valid

/-! ## Invariant -/

/-- The conditions that sleepers wait for: something to read or no writer, and room to
write or no reader. -/
def Pipe.Ready (pipe : Pipe) : PipeChan → Prop
  | .nread => pipe.isEmpty = false ∨ pipe.writeopen = false
  | .nwrite => pipe.isFull = false ∨ pipe.readopen = false

/-- The bytes put in are those taken out, followed by those in the buffer. -/
structure PipeData.Stream (data : PipeData) : Prop where
  flow : data.putIn = data.takenOut ++ data.pipe.held
  bound : data.pipe.count ≤ pipeSize

/-- What a thread is doing with the files. -/
inductive PipeRole
  | idle
  | uses (side : PipeEnd)
  | closes (side : PipeEnd)

/-- What a thread knows: its role, and how many bytes it has put in since it last
called `write`. -/
structure PipeUser where
  role : PipeRole
  count : Nat

/-- Sleepers on `&pi->nread` use the read end. -/
def PipeChan.side : PipeChan → PipeEnd
  | .nread => .read
  | .nwrite => .write

section

variable {Pid Hart : Type} [DecidableEq Pid]

structure PipeInv (data : PipeData) (files : PipeFiles Pid)
    (users : Context Pid Hart → PipeUser) : Prop where
  stream : data.Stream
  uses : ∀ p side, (users (.process p)).role = .uses side → p ∈ files.refs side
  closes : ∀ t side, (users t).role = .closes side → files.refs side = []
  closed : ∀ side, data.pipe.isOpen side = false → files.refs side = []
  written : ∀ p, files.written p = (users (.process p)).count

/-- Where the conditions of the channels do not matter, they are not `strict`. -/
def pipeDiscipline (Pid Hart : Type) (strict : Prop) :
    Discipline Pid Hart PipeChan PipeData (PipeFiles Pid) PipeUser where
  Cond chan data := strict ∧ data.pipe.Ready chan
  Extra := PipeInv
  Permits user chan := user.role = .uses chan.side
  Owes _ _ _ _ := True
  early := False

omit [DecidableEq Pid] in
theorem vacant_of_closed {strict : Prop} {data : PipeData} {chan : PipeChan} (closed :
    data.pipe.isOpen chan.side = false) : (pipeDiscipline Pid Hart strict).Vacant chan data := by
  intro files users inv p uses
  have mem := inv.uses p chan.side uses
  rw [inv.closed chan.side closed] at mem
  cases mem

/-- A process that finds itself killed does so while the pipe is empty, or while
nobody waits for bytes. -/
def KilledAlone (p : Pid) (s : Kernel Pid PipeChan PipeData (PipeFiles Pid)) :
    Prop :=
  (s.procs p).killed = true →
    s.data.pipe.isEmpty = true ∨ ∀ q, ¬(s.procs q).Waits .nread

/-- The steps that are considered. -/
def PipeAllowed (strict : Prop) (_ : Context Pid Hart)
    (cmd : KernelCommand (pipeClient Pid Hart) PipeChan)
    (s : Kernel Pid PipeChan PipeData (PipeFiles Pid)) : Prop :=
  strict → ∀ p, cmd = .getKilled p → KilledAlone p s

/-- A `write` that did not fail returned the number of bytes it put in. -/
def PipeKeeps (value : PipeResult) (user : PipeUser) : Prop :=
  ∀ returned, value = .write returned → returned = -1 ∨ returned = user.count

abbrev pipeProtocol (Hart : Type) [DecidableEq Hart] (strict : Prop) (table : List Pid) :
    Protocol (pipeSystem Hart table) (SleepToken Pid PipeChan PipeData PipeUser) :=
  sleepProtocol table _ (pipeDiscipline Pid Hart strict) (PipeAllowed strict) PipeKeeps

variable [DecidableEq Hart] {strict : Prop} {table : List Pid} {p : Pid}
  {tok : SleepToken Pid PipeChan PipeData PipeUser} {data : PipeData} {owed : PipeChan → Prop}

omit [DecidableEq Pid] in
theorem PipeInv.change {files later : PipeFiles Pid} {users : Context Pid Hart → PipeUser}
    {v : PipeData} {user : PipeUser} [DecidableEq Pid] (inv : PipeInv data files users)
    (stream : v.Stream) (closed : ∀ side, v.pipe.isOpen side = false → later.refs side = [])
    (members : ∀ q side, q ≠ p → q ∈ files.refs side → q ∈ later.refs side)
    (none : ∀ side, files.refs side = [] → later.refs side = [])
    (uses : ∀ side, user.role = .uses side → p ∈ later.refs side)
    (closes : ∀ side, user.role = .closes side → later.refs side = [])
    (own : later.written p = user.count) (wrote : ∀ q, q ≠ p → later.written q = files.written q) :
    PipeInv v later (update users (.process p) user) where
  stream := stream
  uses := by
    intro q side role
    by_cases here : q = p
    · rw [here, update_self] at role
      rw [here]
      exact uses side role
    have o : process q ≠ (.process p : Context Pid Hart) := by
      intro same
      exact here (process.inj same)
    rw [update_of_ne o] at role
    exact members q side here (inv.uses q side role)
  closes := by
    intro t side role
    by_cases here : t = .process p
    · rw [here, update_self] at role
      exact closes side role
    · rw [update_of_ne here] at role
      exact none side (inv.closes t side role)
  closed := closed
  written := by
    intro q
    by_cases here : q = p
    · rw [here, update_self, own]
    have o : process q ≠ (.process p : Context Pid Hart) := by
      intro same
      exact here (process.inj same)
    rw [update_of_ne o, wrote q here, inv.written q]

/-! ## Actions -/

theorem triple_action (action : PipeAction) (fresh : PipeChan → Prop)
    (post : action.Result → PipeData → PipeUser → Prop) (owing : tok.Owing data owed)
    (acts : ∀ files (users : Context Pid Hart → PipeUser) out v later,
      users (.process p) = tok.user → PipeInv data files users →
      (pipeClient Pid Hart).act (.process p) action data files = (out, v, later) →
      ∃ user, PipeInv v later (update users (.process p) user) ∧
        (∀ c, strict → v.pipe.Ready c → data.pipe.Ready c ∨ fresh c) ∧ post out v user) :
    (pipeProtocol Hart strict table).Triple (.process p) tok (.access action)
      fun out later => ∃ v, later.Owing v (fun c => owed c ∨ fresh c) ∧
        later.away = tok.away ∧ post out v later.user := by
  apply triple_access owing.view owing.chan owing.entering
  intro files users out v later own inv acted
  obtain ⟨user, kept, met, sat⟩ := acts files users out v later own inv acted
  refine ⟨user, fun c => { q | q ∈ tok.waking c ∨ fresh c }, kept, ?_, ?_, ?_, ?_, ?_⟩
  · intro q c owes
    exact inl owes
  · rintro c ⟨considered, ready⟩
    rcases met c considered ready with old | now
    · exact inl ⟨considered, old⟩
    · exact inr fun _ => inr now
  · intro q c _
    trivial
  · intro o c _ _
    trivial
  · refine ⟨v, { owing with view := rfl, waking := ?_ }, rfl, sat⟩
    rintro c q (old | now)
    · exact inl (owing.waking c q old)
    · exact inr now

section

variable (owing : tok.Owing data owed)
include owing

theorem triple_look {action : PipeAction} (answer : action.Result)
    (looks : ∀ files, (pipeClient Pid Hart).act (.process p) action data files =
      (answer, data, files)) :
    (pipeProtocol Hart strict table).Triple (.process p) tok (.access action)
      fun out later => out = answer ∧ later.Owing data owed ∧
        later.away = tok.away ∧ later.user = tok.user := by
  refine (triple_action action (fun _ => False)
    (fun out v user => out = answer ∧ v = data ∧ user = tok.user) owing ?_).mono ?_
  · intro files users out v later own inv acted
    rw [looks files] at acted
    cases acted
    refine ⟨tok.user, ?_, fun c _ ready => inl ready, rfl, rfl, rfl⟩
    rwa [← own, update_eq_self]
  · rintro out later ⟨_, owes, away, hit, rfl, user⟩
    simp only [or_false] at owes
    exact ⟨hit, owes, away, user⟩

theorem triple_put (room : data.pipe.isFull = false) (ch : UInt8) :
    (pipeProtocol Hart strict table).Triple (.process p) tok (.access (put ch))
      fun _ later => ∃ v, later.Owing v (fun c => owed c ∨ strict ∧ c = .nread) ∧
        later.away = tok.away ∧ v.pipe.isEmpty = false ∧
        later.user = { tok.user with count := tok.user.count + 1 } := by
  apply triple_action (put ch) (fun c => strict ∧ c = .nread)
    (fun _ v user => v.pipe.isEmpty = false ∧
      user = { tok.user with count := tok.user.count + 1 }) owing
  intro files users out v later own inv acted
  cases acted
  have below : data.pipe.count < pipeSize := by
    apply lt_of_le_of_ne inv.stream.bound
    intro full
    rw [isFull_iff.mpr full] at room
    cases room
  have more := count_put below ch
  refine ⟨_, inv.change ?_ ?_ ?_ ?_ ?_ ?_ ?_ ?_, ?_, ?_, rfl⟩
  · constructor
    · change data.putIn ++ [ch] = data.takenOut ++ (data.pipe.put ch).held
      rw [held_put below, inv.stream.flow, append_assoc]
    · change (data.pipe.put ch).count ≤ pipeSize
      omega
  · exact inv.closed
  · intro q side _ mem
    exact mem
  · intro side none
    exact none
  · intro side role
    rw [← own] at role
    exact inv.uses p side role
  · intro side role
    rw [← own] at role
    exact inv.closes (.process p) side role
  · rw [← own, ← inv.written p]
    exact update_self _ _ _
  · intro q o
    exact update_of_ne o _ _
  · intro c considered ready
    cases c with
    | nread => exact inr ⟨considered, rfl⟩
    | nwrite => exact inl (inl room)
  · rw [Bool.eq_false_iff]
    intro empty
    rw [Pipe.isEmpty_iff] at empty
    change (data.pipe.put ch).count = 0 at empty
    omega

theorem triple_take (some : data.pipe.isEmpty = false) :
    (pipeProtocol Hart strict table).Triple (.process p) tok (.access take)
      fun _ later => ∃ v, later.Owing v (fun c => owed c ∨ strict ∧ c = .nwrite) ∧
        later.away = tok.away ∧ later.user = tok.user := by
  apply triple_action .take (fun c => strict ∧ c = .nwrite) (fun _ _ user => user = tok.user) owing
  intro files users out v later own inv acted
  cases acted
  have nonempty : 0 < data.pipe.count := by
    apply Nat.pos_of_ne_zero
    intro none
    rw [isEmpty_iff.mpr none] at some
    cases some
  have fewer := count_take nonempty
  refine ⟨tok.user, ?_, ?_, rfl⟩
  · rw [← own, update_eq_self]
    refine { inv with stream := ⟨?_, ?_⟩, closed := inv.closed }
    · change data.putIn = data.takenOut ++ [data.pipe.take.1] ++ data.pipe.take.2.held
      rw [inv.stream.flow, held_take nonempty, append_assoc, singleton_append]
    · have bound := inv.stream.bound
      change data.pipe.take.2.count ≤ pipeSize
      omega
  · intro c considered ready
    cases c with
    | nread => exact inl (inl some)
    | nwrite => exact inr ⟨considered, rfl⟩

theorem triple_close {side : PipeEnd} (role : tok.user.role = .closes side) :
    (pipeProtocol Hart strict table).Triple (.process p) tok (.access (close side))
      fun _ later => ∃ v, later.Owing v (fun c => owed c ∨ c = side.opposite) ∧
        later.away = tok.away ∧ later.user = tok.user := by
  apply triple_action (.close side) (fun c => c = side.opposite) (fun _ _ user => user = tok.user)
    owing
  intro files users out v later own inv acted
  cases acted
  rw [← own] at role
  refine ⟨tok.user, ?_, ?_, rfl⟩
  · rw [← own, update_eq_self]
    refine { inv with stream := ?_, closed := ?_ }
    · have stream := inv.stream
      cases side <;> exact ⟨stream.flow, stream.bound⟩
    intro o closed
    have gone := inv.closes (.process p) side role
    have old := inv.closed o
    cases side <;> cases o <;> first | exact gone | exact old closed
  · intro c _ ready
    cases side <;> cases c <;> first | exact inr rfl | exact inl ready

end

/-! ## The killed flag -/

/-- What a writer owes: a wakeup to readers, for bytes that are in the buffer. -/
def WriterOwes (strict : Prop) (data : PipeData) (chan : PipeChan) : Prop :=
  strict ∧ chan = .nread ∧ data.pipe.isEmpty = false

theorem triple_getKilled_writer (owing : tok.Owing data (WriterOwes strict data)) :
    (pipeProtocol Hart strict table).Triple (.process p)
    tok (.getKilled p) fun killed later => later.away = tok.away ∧ later.user = tok.user ∧
    later.Owing data (WriterOwes strict data) ∧ (killed = true → later.Holding data) := by
  apply triple_of
  intro s ts r s' own inv ok ran
  cases ran
  subst own
  obtain ⟨_, rfl⟩ := inv.sleepers.view _ data owing.view
  by_cases waits : ∃ q, (s.procs q).Waits .nread
  · refine ⟨ts (.process p), ?_, rfl, rfl, owing, ?_⟩
    · rwa [update_eq_self]
    intro killed
    refine { owing with waking := ?_ }
    intro c q owes
    obtain ⟨considered, _, some⟩ := owing.waking c q owes
    rcases ok considered p rfl killed with empty | nobody
    · rw [some] at empty
      cases empty
    · obtain ⟨sleeper, waiting⟩ := waits
      exact nobody sleeper waiting
  · refine ⟨_, inv.excuse fun q (_ : True) waiting => waits ⟨q, waiting⟩, rfl, rfl,
      { owing with waking := ?_ }, fun _ => { owing with waking := ?_ }⟩
    · intro c q owes
      exact owing.waking c q owes.1
    · intro c q owes
      exact owes.2 (owing.waking c q owes.1).2.1 trivial

/-! ## File descriptors -/

/-- What a process knows after it looked up a file descriptor. -/
def lookedUp (user : PipeUser) (side : PipeEnd) (found : Bool) : PipeUser where
  role := if found then .uses side else .idle
  count :=
    match side with
    | .read => user.count
    | .write => 0

theorem triple_argfd (side : PipeEnd)
    (rests : tok.Resting) : (pipeProtocol Hart strict table).Triple (.process p)
    tok (.operate (argfd side)) fun hit later => later.Resting ∧ later.away = tok.away ∧
    (hit = true → later.user.role = .uses side) ∧ (side = .write → later.user.count = 0) := by
  apply triple_operate rests.chan rests.entering
  intro data files users answer later own _ inv acted
  have wrote : files.written p = tok.user.count := (inv.written p).trans (congrArg _ own)
  have answers : answer = decide (p ∈ files.refs side) := (congrArg Prod.fst acted).symm
  have after : later = (files.argfd p side).2 := (congrArg Prod.snd acted).symm
  have refs : later.refs = files.refs := by
    rw [after]
    cases side <;> rfl
  refine ⟨lookedUp tok.user side answer,
    inv.change inv.stream ?_ ?_ ?_ ?_ ?_ ?_ ?_, fun _ _ _ => trivial, fun _ _ _ _ => trivial,
    { rests with }, rfl, ?_, ?_⟩
  · rw [refs]
    exact inv.closed
  · intro q o _ mem
    rwa [refs]
  · intro o none
    rwa [refs]
  · intro o role
    rw [refs]
    cases answer with
    | false => cases role
    | true =>
      cases role
      exact of_decide_eq_true answers.symm
  · intro o role
    cases answer <;> cases role
  · rw [after]
    cases side with
    | read => exact wrote
    | write => exact update_self _ _ _
  · intro q o
    rw [after]
    cases side with
    | read => rfl
    | write => exact update_of_ne o _ _
  · intro hit
    exact if_pos hit
  · rintro rfl
    rfl

theorem triple_fileclose (side : PipeEnd) (rests : tok.Resting) :
    (pipeProtocol Hart strict table).Triple (.process p) tok (.operate (fileclose side))
      fun last later => later.Resting ∧ later.away = tok.away ∧
        (last = true → later.user.role = .closes side) := by
  apply triple_operate rests.chan rests.entering
  intro data files users answer later own _ inv acted
  change files.fileclose p side = (answer, later) at acted
  have wrote : files.written p = tok.user.count := (inv.written p).trans (congrArg _ own)
  by_cases mem : p ∈ files.refs side
  · rw [PipeFiles.fileclose, if_pos mem] at acted
    cases acted
    refine ⟨⟨if ((files.refs side).erase p).isEmpty then .closes side else .idle, tok.user.count⟩,
      inv.change inv.stream ?_ ?_ ?_ ?_ ?_ wrote ?_, fun _ _ _ => trivial,
      fun _ _ _ _ => trivial, { rests with }, rfl, ?_⟩
    · intro o closed
      exact setRefs_none mem (inv.closed o closed) _
    · intro q o ne uses
      by_cases same : o = side
      · rw [same] at uses
        rw [same, setRefs_self]
        exact (mem_erase_of_ne ne).mpr uses
      · rwa [setRefs_ne _ same]
    · intro o none
      exact setRefs_none mem none _
    · intro o role
      split_ifs at role
    · intro o role
      split_ifs at role with last
      cases role
      rw [setRefs_self]
      exact isEmpty_iff.mp last
    · intro q _
      rfl
    · intro last
      exact if_pos last
  · rw [PipeFiles.fileclose, if_neg mem] at acted
    cases acted
    refine ⟨⟨.idle, tok.user.count⟩, inv.change inv.stream inv.closed (fun _ _ _ uses => uses)
      (fun _ none => none) ?_ ?_ wrote (fun _ _ => rfl), fun _ _ _ => trivial,
      fun _ _ _ _ => trivial, { rests with }, rfl, ?_⟩
    · rintro o ⟨⟩
    · rintro o ⟨⟩
    · rintro ⟨⟩

theorem triple_filedup (side : PipeEnd)
    (child : Pid) (rests : tok.Resting) : (pipeProtocol Hart strict table).Triple (.process p)
    tok (.operate (filedup side child)) fun _ later => later.Resting ∧ later.away = tok.away := by
  apply triple_operate rests.chan rests.entering
  intro data files users answer later own _ inv acted
  cases acted
  refine ⟨tok.user, ?_, fun _ _ _ => trivial, fun _ _ _ _ => trivial, { rests with }, rfl⟩
  rw [← own, update_eq_self]
  by_cases mem : p ∈ files.refs side
  · rw [PipeFiles.filedup, if_pos mem]
    have more (q : Pid) (o : PipeEnd) (uses : q ∈ files.refs o) :
        q ∈ (files.setRefs side (child :: files.refs side)).refs o := by
      by_cases same : o = side
      · rw [same] at uses ⊢
        rw [setRefs_self]
        exact mem_cons_of_mem child uses
      · rwa [setRefs_ne _ same]
    exact
      { inv with
        uses := fun q o role => more q o (inv.uses q o role)
        closes := fun t o role =>
          setRefs_none mem (inv.closes t o role) _
        closed := fun o closed => setRefs_none mem (inv.closed o closed) _
        written := inv.written }
  · rwa [PipeFiles.filedup, if_neg mem]

theorem triple_kfree (rests : tok.Resting) : (pipeProtocol Hart strict table).Triple
    (.process p) tok (.operate kfree) fun _ later => later.Resting ∧ later.away = tok.away := by
  apply triple_operate rests.chan rests.entering
  intro data files users answer later own _ inv acted
  cases acted
  refine ⟨tok.user, ?_, fun _ _ _ => trivial, fun _ _ _ _ => trivial, { rests with }, rfl⟩
  rw [← own, update_eq_self]
  exact { inv with }

/-! ## Functions -/

theorem valid_pipeclose {side : PipeEnd} (full : ∀ q, q ∈ table) (resting : tok.Resting)
    (role : tok.user.role = .closes side) : (pipeProtocol Hart strict table).Valid (.process p)
    (fun _ later => later.Resting ∧ later.away = tok.away) (pipeclose p table side) tok := by
  refine bind _ (valid_acquire resting.entering) ?_
  rintro _ _ ⟨data, rfl⟩
  refine command_bind (triple_close (resting.acquired data) role) ?_
  rintro _ closing ⟨v, owing, closingAway, _⟩
  refine bind _ (valid_wakeup_holding full owing fun c owed => ?_) ?_
  · rcases owed with no | yes
    · exact no.elim
    · exact yes
  rintro _ woken ⟨holding, wokenAway, _⟩
  refine command_bind (triple_look holding _ fun _ => rfl) ?_
  rintro (readopen : Bool) first ⟨_, holding, fstAway, _⟩
  refine command_bind (triple_look holding _ fun _ => rfl) ?_
  rintro (writeopen : Bool) second ⟨_, holding, sndAway, _⟩
  have released : (pipeProtocol Hart strict table).Valid (.process p)
      (fun _ later => later.Resting ∧ later.away = tok.away) release second := by
    refine (valid_release_resting holding).mono ?_
    rintro _ later ⟨rested, away, _⟩
    exact ⟨rested, away.trans (sndAway.trans (fstAway.trans (wokenAway.trans closingAway)))⟩
  by_cases both : readopen = false ∧ writeopen = false
  · rw [if_pos both]
    refine bind _ released ?_
    rintro _ later ⟨rested, away⟩
    refine (triple_kfree rested).mono ?_
    rintro _ freed ⟨still, same⟩
    exact ⟨still, same.trans away⟩
  · rwa [if_neg both]

/-- What `pipewrite` returns. -/
def WriteResult (value : Int) (later : SleepToken Pid PipeChan PipeData PipeUser) :
    Prop :=
  later.Resting ∧ later.away = false ∧ (value = -1 ∨ value = later.user.count)

variable {i : Nat}

theorem valid_finish (full : ∀ q, q ∈ table) (owing : tok.Owing data (WriterOwes strict data))
    (here : tok.away = false) (count : tok.user.count = i) : (pipeProtocol Hart strict table).Valid
    (.process p) WriteResult (pipewriteLoop.finish p table i) tok := by
  refine bind _ (valid_wakeup_holding full owing fun c owes => owes.2.1) ?_
  rintro _ woken ⟨holding, wokenAway, wokenUser⟩
  refine bind _ (valid_release_resting holding) ?_
  rintro _ later ⟨rested, away, user⟩
  refine ⟨rested, away.trans (wokenAway.trans here), inr ?_⟩
  rw [user, wokenUser, count]

theorem valid_giveUp (owing : tok.Owing data owed) (here : tok.away = false)
    (settled : ∀ c, owed c → (pipeDiscipline Pid Hart strict).Vacant c data) :
    (pipeProtocol Hart strict table).Valid (.process p) WriteResult (do
        release
        return -1) tok := by
  refine bind _ (valid_release owing.lk owing.view owing.entering ?_) ?_
  · intro c q owes
    exact settled c (owing.waking c q owes)
  · rintro _ _ rfl
    exact ⟨owing.released, here, inl rfl⟩

theorem valid_waitForRoom {rest : KernelProgram.PipeProgram Pid Hart Int}
    (complete : ∀ q, q ∈ table) (owing : tok.Owing data (WriterOwes strict data))
    (here : tok.away = false) (user : tok.user = ⟨.uses .write, i⟩)
    (full : data.pipe.isFull = true) (opened : data.pipe.readopen = true)
    (goesOn : ∀ later v, later.Holding v → later.away = false → later.user = ⟨.uses .write, i⟩ →
      (pipeProtocol Hart strict table).Valid (.process p) WriteResult rest later) :
    (pipeProtocol Hart strict table).Valid (.process p) WriteResult (do
        wakeup (.process p) .nread table
        sleep p .nwrite
        rest) tok := by
  refine bind _ (valid_wakeup_holding complete owing fun c owes => owes.2.1) ?_
  rintro _ woken ⟨holding, wokenAway, wokenUser⟩
  have permits : (pipeDiscipline Pid Hart strict).Permits woken.user .nwrite := by
    rw [wokenUser, user]
    rfl
  refine bind _ (valid_sleep rfl holding (wokenAway.trans here) permits ?_) ?_
  · rintro ⟨_, room | closed⟩
    · rw [full] at room
      cases room
    · rw [opened] at closed
      cases closed
  · rintro _ _ ⟨later, rfl⟩
    exact goesOn _ later (holding.viewed later) (wokenAway.trans here) (wokenUser.trans user)

variable {n : Int}

theorem valid_pipewriteLoop {source : Nat → Option UInt8} (fuel : Nat) (complete : ∀ q, q ∈ table)
    (owing : tok.Owing data (WriterOwes strict data)) (here : tok.away = false)
    (user : tok.user = ⟨.uses .write, i⟩) : (pipeProtocol Hart strict table).Valid
    (.process p) WriteResult (pipewriteLoop p table source n fuel i) tok := by
  induction fuel generalizing tok data i with
  | zero => exact triple_halt
  | succ fuel ih =>
    rw [pipewriteLoop]
    by_cases more : i < n
    case neg =>
      rw [if_neg more]
      exact valid_finish complete owing here (congrArg PipeUser.count user)
    rw [if_pos more]
    refine command_bind (triple_look owing _ fun _ => rfl) ?_
    rintro (readopen : Bool) looked ⟨isOpen, owing, lookedAway, lookedUser⟩
    rcases Bool.eq_false_or_eq_true readopen with opened | closed
    case inr =>
      rw [if_pos closed]
      apply valid_giveUp owing (lookedAway.trans here)
      rintro c ⟨_, rfl, _⟩
      exact vacant_of_closed (isOpen.symm.trans closed)
    rw [if_neg (by rw [opened]; decide)]
    refine command_bind (triple_getKilled_writer owing) ?_
    rintro (killed : Bool) tested ⟨testedAway, testedUser, owing, alone⟩
    cases killed with
    | true =>
      exact valid_giveUp (alone rfl) (testedAway.trans (lookedAway.trans here)) fun _ no => no.elim
    | false =>
      refine command_bind (triple_look owing _ fun _ => rfl) ?_
      rintro (full : Bool) measured ⟨isFull, owing, measuredAway, measuredUser⟩
      have here := measuredAway.trans (testedAway.trans (lookedAway.trans here))
      have user := measuredUser.trans (testedUser.trans (lookedUser.trans user))
      cases full with
      | true =>
        refine valid_waitForRoom complete owing here user isFull.symm (isOpen.symm.trans opened) ?_
        intro woken v holding wokenHere wokenUser
        exact ih (holding.weaken fun _ no => no.elim) wokenHere wokenUser
      | false =>
        cases hit : source i with
        | none => exact valid_finish complete owing here (congrArg PipeUser.count user)
        | some ch =>
          refine command_bind (triple_put owing isFull.symm ch) ?_
          rintro _ later ⟨v, owing, laterAway, some, laterUser⟩
          refine ih (owing.weaken ?_) (laterAway.trans here) ?_
          · rintro c (⟨considered, reads, _⟩ | ⟨considered, reads⟩)
            · exact ⟨considered, reads, some⟩
            · exact ⟨considered, reads, some⟩
          · rw [laterUser, user]

theorem valid_pipewrite {source : Nat → Option UInt8} (fuel : Nat)
    (full : ∀ q, q ∈ table) (rests : tok.Resting) (here : tok.away = false)
    (user : tok.user = ⟨.uses .write, 0⟩) :
    (pipeProtocol Hart strict table).Valid (.process p) WriteResult
    (pipewrite p table source n fuel) tok := by
  refine bind _ (valid_acquire rests.entering) ?_
  rintro _ _ ⟨data, rfl⟩
  have owing := (rests.acquired data).weaken fun c no => (no.elim : WriterOwes strict data c)
  exact valid_pipewriteLoop fuel full owing here user

/-- What a reader owes: a wakeup to writers. -/
def ReaderOwes (strict : Prop) (chan : PipeChan) : Prop :=
  strict ∧ chan = .nwrite

variable {writable : Nat → Bool}

theorem valid_pipereadCopy (rounds : Nat) (owing : tok.Owing data (ReaderOwes strict)) :
    (pipeProtocol Hart strict table).Valid (.process p)
      (fun _ later => ∃ v, later.Owing v (ReaderOwes strict) ∧ later.away = tok.away)
      (pipereadCopy writable rounds i) tok := by
  induction rounds generalizing tok data i with
  | zero => exact ⟨data, owing, rfl⟩
  | succ rounds ih =>
    refine command_bind (triple_look owing _ fun _ => rfl) ?_
    rintro (empty : Bool) looked ⟨isEmpty, owing, lookedAway, _⟩
    cases empty with
    | true => exact ⟨data, owing, lookedAway⟩
    | false =>
      refine command_bind (triple_take owing isEmpty.symm) ?_
      rintro _ taken ⟨v, owing, takenAway, _⟩
      have still : taken.Owing v (ReaderOwes strict) :=
        owing.weaken fun c either => either.elim id id
      have away := takenAway.trans lookedAway
      cases copied : writable i with
      | false =>
        rw [if_neg Bool.false_ne_true]
        exact ⟨v, still, away⟩
      | true =>
        rw [if_pos rfl]
        refine (ih still).mono ?_
        rintro _ later ⟨last, owes, laterAway⟩
        exact ⟨last, owes, laterAway.trans away⟩

theorem valid_pipereadLoop (fuel : Nat) (full : ∀ q, q ∈ table)
    (holding : tok.Holding data) (here : tok.away = false) (role : tok.user.role = .uses .read) :
    (pipeProtocol Hart strict table).Valid (.process p) (fun _ later =>
    later.Resting ∧ later.away = false) (pipereadLoop p table writable n fuel) tok := by
  induction fuel generalizing tok data with
  | zero => exact triple_halt
  | succ fuel ih =>
    refine command_bind (triple_look holding _ fun _ => rfl) ?_
    rintro (empty : Bool) looked ⟨isEmpty, holding, lookedAway, lookedUser⟩
    refine command_bind (triple_look holding _ fun _ => rfl) ?_
    rintro (writeopen : Bool) tested ⟨isOpen, holding, testedAway, testedUser⟩
    have here := testedAway.trans (lookedAway.trans here)
    have user := testedUser.trans lookedUser
    by_cases waits : empty = true ∧ writeopen = true
    · rw [if_pos waits]
      refine command_bind triple_getKilled ?_
      rintro (killed : Bool) _ rfl
      cases killed with
      | true =>
        refine bind _ (valid_release_resting holding) ?_
        rintro _ later ⟨rested, laterAway, _⟩
        exact ⟨rested, laterAway.trans here⟩
      | false =>
        have permits : (pipeDiscipline Pid Hart strict).Permits _ .nread :=
          (congrArg PipeUser.role user).trans role
        refine bind _ (valid_sleep rfl holding here permits ?_) ?_
        · rintro ⟨_, some | closed⟩
          · rw [← isEmpty, waits.1] at some
            cases some
          · exact Bool.false_ne_true (closed.symm.trans (isOpen.symm.trans waits.2))
        · rintro _ _ ⟨later, rfl⟩
          exact ih (holding.viewed later) here permits
    · rw [if_neg waits]
      refine bind _ (valid_pipereadCopy n.toNat (holding.weaken fun _ no => no.elim)) ?_
      rintro i copied ⟨v, owing, copiedAway⟩
      refine bind _ (valid_wakeup_holding full owing fun c owes => owes.2) ?_
      rintro _ woken ⟨holding, wokenAway, _⟩
      refine bind _ (valid_release_resting holding) ?_
      rintro _ later ⟨rested, laterAway, _⟩
      exact ⟨rested, laterAway.trans (wokenAway.trans (copiedAway.trans here))⟩

theorem valid_piperead (fuel : Nat) (full : ∀ q, q ∈ table)
    (rests : tok.Resting) (here : tok.away = false) (role : tok.user.role = .uses .read) :
    (pipeProtocol Hart strict table).Valid (.process p) (fun _ later =>
    later.Resting ∧ later.away = false) (piperead p table writable n fuel) tok := by
  refine bind _ (valid_acquire rests.entering) ?_
  rintro _ _ ⟨data, rfl⟩
  exact valid_pipereadLoop fuel full (rests.acquired data) here role

/-! ## System calls -/

theorem pipe_sound (strict : Prop) (full : ∀ q, q ∈ table) : ClientSound
    table (pipeProgram table) (pipeDiscipline Pid Hart strict) (PipeAllowed strict) PipeKeeps := by
  intro t call v tok rests here keeps
  cases t with
  | scheduler hart => exact ⟨rests, rfl, keeps⟩
  | process p =>
    have here := here p rfl
    cases call with
    | write source n fuel =>
      refine command_bind (triple_argfd .write rests) ?_
      rintro (hit : Bool) looked ⟨rested, lookedAway, uses, count⟩
      cases hit with
      | false =>
        refine ⟨rested, lookedAway, ?_⟩
        rintro ret ⟨⟩
        exact inl rfl
      | true =>
        have user : looked.user = ⟨.uses .write, 0⟩ := by rw [← uses rfl, ← count rfl]
        refine bind _ (valid_pipewrite fuel full rested (lookedAway.trans here) user) ?_
        rintro out later ⟨rested, laterHere, counts⟩
        refine ⟨rested, laterHere.trans here.symm, ?_⟩
        rintro ret ⟨⟩
        exact counts
    | read writable n fuel =>
      refine command_bind (triple_argfd .read rests) ?_
      rintro (hit : Bool) looked ⟨rested, lookedAway, uses, _⟩
      cases hit with
      | false => exact ⟨rested, lookedAway, fun ret no => by cases no⟩
      | true =>
        refine bind _ (valid_piperead fuel full rested (lookedAway.trans here) (uses rfl)) ?_
        rintro out later ⟨rested, laterHere⟩
        exact ⟨rested, laterHere.trans here.symm, fun ret no => by cases no⟩
    | close side =>
      refine command_bind (triple_fileclose side rests) ?_
      rintro (last : Bool) dropped ⟨rested, droppedAway, closes⟩
      cases last with
      | false => exact ⟨rested, droppedAway, fun ret no => by cases no⟩
      | true =>
        refine bind _ (valid_pipeclose full rested (closes rfl)) ?_
        rintro _ later ⟨rested, laterAway⟩
        exact ⟨rested, laterAway.trans droppedAway, fun ret no => by cases no⟩
    | share side child =>
      refine command_bind (triple_filedup side child rests) ?_
      rintro _ later ⟨rested, away⟩
      exact ⟨rested, away, fun ret no => by cases no⟩

end

end Xv6
