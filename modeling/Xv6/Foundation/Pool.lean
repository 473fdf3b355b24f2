import Xv6.Foundation.Program

/-! # Thread pools

Threads start calls one after another and take turns, one command at a time.
A protocol gives every thread a token that says what it holds; the invariant
relates the shared state to the tokens of all threads. When every command
re-establishes the invariant at the cost of the executing thread's own token
only, the invariant holds in every reachable pool. -/

namespace Foundation

open Function System

/-- Shared state together with the calls that idle threads may start. -/
structure System (Thread State Panic Local Call : Type) extends
    Shared Thread State Panic where
  body : Thread → Call → Local → Program Command Response Local

/-- The shared state and what remains of each thread's current call. -/
structure Pool (system : System Thread State Panic Local Call) where
  state : State
  threads : Thread → Program system.Command system.Response Local

namespace System

variable {Thread State Panic Local Call : Type} [DecidableEq Thread]
  (system : System Thread State Panic Local Call)

/-- The pool in which no call has started. -/
def idle (s : State) (locals : Thread → Local) : Pool system where
  state := s
  threads t := .done (locals t)

/-- Pools reachable by steps that are all allowed. -/
inductive Reachable (Allowed : Thread → system.Command → State → Prop)
    (initial : Pool system) : Pool system → Prop
  | initial : Reachable Allowed initial initial
  | start {pool : Pool system} {t : Thread} {value : Local} (call : Call) :
      Reachable Allowed initial pool →
      pool.threads t = .done value →
      Reachable Allowed initial
        { pool with
          threads := update pool.threads t
            (system.body t call value) }
  | step {pool : Pool system} {t : Thread} {cmd : system.Command}
      {next : system.Response cmd → Program system.Command system.Response Local}
      {r : system.Response cmd} {after : State} :
      Reachable Allowed initial pool →
      pool.threads t = .call cmd next →
      Allowed t cmd pool.state →
      system.exec t cmd pool.state = .ok (r, after) →
      Reachable Allowed initial
        { state := after
          threads := update pool.threads t (next r) }

/-- Some thread's next command is allowed and panics. -/
def Panics (Allowed : Thread → system.Command → State → Prop)
    (pool : Pool system) (reason : Panic) : Prop :=
  ∃ t cmd next, pool.threads t = .call cmd next ∧
    Allowed t cmd pool.state ∧
    system.exec t cmd pool.state = .panic reason

/-- Every step is allowed. -/
def always : Thread → system.Command → State → Prop := fun _ _ _ => True

variable {system} {Allowed : Thread → system.Command → State → Prop} {initial pool : Pool system}

theorem Reachable.mono {Wider : Thread → system.Command → State → Prop}
    (wider : ∀ t cmd s, Allowed t cmd s → Wider t cmd s)
    (reach : system.Reachable Allowed initial pool) : system.Reachable Wider initial pool := by
  induction reach with
  | initial => exact .initial
  | start call _ isDone ih => exact .start call ih isDone
  | step _ isCall ok did ih =>
    exact .step ih isCall (wider _ _ _ ok) did

variable {t : Thread} {value : Local}

/-- Running what remains of one thread's call to its end is a way to reach. -/
theorem Reachable.run {prog : Program system.Command system.Response Local} {after : State}
    (reach : system.Reachable system.always initial pool) (cur : pool.threads t = prog)
    (ran : prog.run system.toShared t pool.state = .ok (value, after)) :
    system.Reachable system.always initial
      { state := after
        threads := update pool.threads t (.done value) } := by
  induction prog generalizing pool with
  | done out =>
    cases ran
    have same : update pool.threads t (.done value) = pool.threads := by
      rw [← cur]
      exact update_eq_self t pool.threads
    rwa [same]
  | call cmd next ih =>
    rw [Program.run] at ran
    cases did : system.exec t cmd pool.state with
    | blocked | panic why => simp [did] at ran
    | ok out =>
      rcases out with ⟨r, mid⟩
      rw [did] at ran
      have stepped := Reachable.step reach cur trivial did
      have finished := ih r stepped
        (update_self t _ _) ran
      rwa [update_idem] at finished

/-! ### Replaying a schedule -/

/-- A scheduling decision: an idle thread starts a call, a thread takes one
step, or a thread runs to the end of its call alone. -/
inductive Event (Thread Call : Type) where
  | start (t : Thread) (call : Call)
  | step (t : Thread)
  | finish (t : Thread)

/-- The pool after one decision, if it can be carried out. -/
def perform (pool : Pool system) : Event Thread Call → Option (Pool system)
  | .start t call =>
    match pool.threads t with
    | .done value => some
        { pool with
          threads := update pool.threads t
            (system.body t call value) }
    | .call _ _ => none
  | .step t =>
    match pool.threads t with
    | .done _ => none
    | .call cmd next =>
      match system.exec t cmd pool.state with
      | .ok (r, after) => some
          { state := after
            threads := update pool.threads t (next r) }
      | _ => none
  | .finish t =>
    match (pool.threads t).run system.toShared t pool.state with
    | .ok (value, after) => some
        { state := after
          threads := update pool.threads t (.done value) }
    | _ => none

/-- The panic that a thread's next command ends in, if it does. -/
def panicOf (pool : Pool system) (t : Thread) : Option Panic :=
  match pool.threads t with
  | .done _ => none
  | .call cmd _ =>
    match system.exec t cmd pool.state with
    | .panic reason => some reason
    | _ => none

/-- The value that an idle thread keeps. -/
def valueOf (pool : Pool system) (t : Thread) : Option Local :=
  match pool.threads t with
  | .done value => some value
  | .call _ _ => none

omit [DecidableEq Thread] in
theorem done_of_valueOf (hit : valueOf pool t = some value) : pool.threads t = .done value := by
  cases cur : pool.threads t with
  | done out =>
    simp only [valueOf, cur, Option.some.injEq] at hit
    rw [hit]
  | call cmd next => simp [valueOf, cur] at hit

omit [DecidableEq Thread] in
theorem panics_of_panicOf {why : Panic} (hit : panicOf pool t = some why) :
    system.Panics system.always pool why := by
  cases cur : pool.threads t with
  | done value => simp [panicOf, cur] at hit
  | call cmd next =>
    cases did : system.exec t cmd pool.state with
    | ok out | blocked => simp [panicOf, cur, did] at hit
    | panic actual =>
      simp only [panicOf, cur, did, Option.some.injEq] at hit
      subst hit
      exact ⟨t, cmd, next, cur, trivial, did⟩

/-- The pool after a whole schedule. -/
def replay (pool : Pool system) : List (Event Thread Call) → Option (Pool system)
  | [] => some pool
  | event :: rest => (perform pool event).bind fun later => replay later rest

/-- A call starts, or a step passes a test of the command and the state. -/
def permitted (test : Thread → system.Command → State → Bool) (pool : Pool system) :
    Event Thread Call → Bool
  | .start _ _ => true
  | .step t =>
    match pool.threads t with
    | .done _ => true
    | .call cmd _ => test t cmd pool.state
  | .finish _ => false

variable {later : Pool system}

theorem Reachable.perform_permitted (test : Thread → system.Command → State → Bool)
    (passes : ∀ t cmd, test t cmd pool.state = true → Allowed t cmd pool.state)
    (reach : system.Reachable Allowed initial pool) {event : Event Thread Call}
    (permits : permitted test pool event = true)
    (performed : perform pool event = some later) : system.Reachable Allowed initial later := by
  cases event with
  | start t call =>
    cases cur : pool.threads t with
    | call cmd next => simp [perform, cur] at performed
    | done value =>
      simp only [perform, cur, Option.some.injEq] at performed
      subst performed
      exact .start call reach cur
  | step t =>
    cases cur : pool.threads t with
    | done value => simp [perform, cur] at performed
    | call cmd next =>
      simp only [permitted, cur] at permits
      cases did : system.exec t cmd pool.state with
      | blocked | panic why => simp [perform, cur, did] at performed
      | ok out =>
        simp only [perform, cur, did, Option.some.injEq] at performed
        subst performed
        exact .step reach cur (passes _ _ permits) did
  | finish t => cases permits

theorem Reachable.perform (reach : system.Reachable system.always initial pool)
    (event : Event Thread Call) (did : perform pool event = some later) :
    system.Reachable system.always initial later := by
  cases event with
  | start t call =>
    exact reach.perform_permitted (fun _ _ _ => true) (fun _ _ _ => trivial) rfl did
  | step t =>
    have permits : permitted (fun _ _ _ => true) pool (.step t : Event Thread Call) = true := by
      rw [permitted]
      split <;> rfl
    exact reach.perform_permitted _ (fun _ _ _ => trivial) permits did
  | finish t =>
    cases ran : (pool.threads t).run system.toShared t pool.state with
    | blocked | panic why => simp [System.perform, ran] at did
    | ok out =>
      simp only [System.perform, ran, Option.some.injEq] at did
      subst did
      exact reach.run rfl ran

theorem Reachable.replay
    (reach : system.Reachable system.always initial pool) (events : List (Event Thread Call))
    (replayed : replay pool events = some later) :
    system.Reachable system.always initial later := by
  induction events generalizing pool with
  | nil =>
    cases replayed
    exact reach
  | cons event rest ih =>
    rcases Option.bind_eq_some_iff.mp replayed with ⟨mid, did, replayed⟩
    exact ih (reach.perform event did) replayed

/-- What a replayed schedule shows is so in a pool that is reached. -/
theorem exists_of_replay {α : Type} {events : List (Event Thread Call)} {facts : Pool system → α}
    {value : α} (shown : (system.replay initial events).map facts = some value) :
    ∃ pool, system.Reachable system.always initial pool ∧ facts pool = value := by
  obtain ⟨pool, replayed, isValue⟩ := Option.map_eq_some_iff.mp shown
  exact ⟨pool, Reachable.initial.replay events replayed, isValue⟩

/-- The pool after a schedule of single steps that all pass a test. -/
def replayTested (test : Thread → system.Command → State → Bool) (pool : Pool system) :
    List (Event Thread Call) → Option (Pool system)
  | [] => some pool
  | event :: rest =>
    if permitted test pool event then
      (perform pool event).bind fun later => replayTested test later rest
    else none

theorem Reachable.replayTested {test : Thread → system.Command → State → Bool}
    (passes : ∀ pool, system.Reachable Allowed initial pool →
      ∀ t cmd, test t cmd pool.state = true → Allowed t cmd pool.state)
    (reach : system.Reachable Allowed initial pool) (events : List (Event Thread Call))
    (replayed : replayTested test pool events = some later) :
    system.Reachable Allowed initial later := by
  induction events generalizing pool with
  | nil =>
    cases replayed
    exact reach
  | cons event rest ih =>
    by_cases permits : permitted test pool event = true
    · rw [replayTested, if_pos permits] at replayed
      rcases Option.bind_eq_some_iff.mp replayed with ⟨mid, did, replayed⟩
      exact ih (reach.perform_permitted test (passes _ reach) permits did) replayed
    · rw [replayTested, if_neg permits] at replayed
      cases replayed

end System

/-! ## Protocols -/

/-- The invariant of a system and the discipline that keeps it. `Ready` says
which commands a thread may come to with which token, `Allowed` which steps
are considered at all, `Tolerated` which panics are not excluded, and `Idle`
which token a thread holds between calls. -/
structure Protocol (system : System Thread State Panic Local Call)
    (Token : Type) where
  Inv : State → (Thread → Token) → Prop
  Ready : system.Command → Token → Prop
  Allowed : Thread → system.Command → State → Prop
  Tolerated : Panic → Prop
  Idle : Local → Token → Prop

namespace Protocol

variable {Thread State Panic Local Call Token : Type} [DecidableEq Thread]
  {system : System Thread State Panic Local Call} (protocol : Protocol system Token)

/-- One command, executed by a thread that holds `token`, keeps the invariant
and leaves the thread with a response and a token as `post` says. -/
def Triple (t : Thread) (tok : Token) (cmd : system.Command)
    (post : system.Response cmd → Token → Prop) : Prop :=
  protocol.Ready cmd tok ∧
  ∀ s ts, ts t = tok → protocol.Inv s ts →
    protocol.Allowed t cmd s →
    match system.exec t cmd s with
    | .ok out => ∃ later,
        protocol.Inv out.2 (update ts t later) ∧
          post out.1 later
    | .blocked => True
    | .panic reason => protocol.Tolerated reason

/-- The same for a whole program. -/
def Valid (t : Thread) (post : α → Token → Prop) :
    Program system.Command system.Response α → Token → Prop
  | .done value, tok => post value tok
  | .call cmd next, tok =>
    protocol.Triple t tok cmd fun r later =>
      Valid t post (next r) later

/-- Every call, started by an idle thread, is valid. -/
def Sound : Prop :=
  ∀ t call value tok, protocol.Idle value tok →
    protocol.Valid t protocol.Idle (system.body t call value) tok

variable {protocol} {t : Thread} {tok : Token} {cmd : system.Command}

/-- A triple from what the command's outcomes are. -/
theorem Triple.of_outcomes {post : system.Response cmd → Token → Prop}
    (ready : protocol.Ready cmd tok) (keeps : ∀ s ts r s', ts t = tok →
      protocol.Inv s ts → protocol.Allowed t cmd s → system.exec t cmd s = .ok (r, s') →
      ∃ later, protocol.Inv s' (update ts t later) ∧ post r later)
    (tolerates : ∀ s ts why, ts t = tok → protocol.Inv s ts → protocol.Allowed t cmd s →
      system.exec t cmd s = .panic why → protocol.Tolerated why) :
    protocol.Triple t tok cmd post := by
  refine ⟨ready, ?_⟩
  intro s ts h inv allowed
  cases did : system.exec t cmd s with
  | blocked => trivial
  | panic why => exact tolerates s ts why h inv allowed did
  | ok out => exact keeps s ts out.1 out.2 h inv allowed did

variable (protocol t) in
/-- The usual way to a triple: the token after the command is a function of the
state before it and of the response. -/
theorem Triple.of_next (next : State → system.Response cmd → Token) (ready : protocol.Ready cmd tok)
    (keeps : ∀ s ts r s', ts t = tok → protocol.Inv s ts → protocol.Allowed t cmd s →
      system.exec t cmd s = .ok (r, s') → protocol.Inv s' (update ts t (next s r)))
    (tolerates : ∀ s ts why, ts t = tok → protocol.Inv s ts → protocol.Allowed t cmd s →
      system.exec t cmd s = .panic why → protocol.Tolerated why) :
    protocol.Triple t tok cmd fun r later => ∃ s ts s', ts t = tok ∧ protocol.Inv s ts ∧
        protocol.Allowed t cmd s ∧ system.exec t cmd s = .ok (r, s') ∧ later = next s r :=
  .of_outcomes ready (fun s ts r s' h inv allowed did =>
    ⟨next s r, keeps s ts r s' h inv allowed did, s, ts, s', h, inv, allowed, did, rfl⟩) tolerates

/-- The thread may take on another token before the command, unless the command is
blocked. -/
theorem Triple.of_token {post : system.Response cmd → Token → Prop} (ready : protocol.Ready cmd tok)
    (takes : ∀ s ts, ts t = tok → protocol.Inv s ts → protocol.Allowed t cmd s →
      system.exec t cmd s = .blocked ∨ ∃ mid, protocol.Inv s (update ts t mid) ∧
          protocol.Triple t mid cmd post) : protocol.Triple t tok cmd post := by
  refine ⟨ready, ?_⟩
  intro s ts h inv allowed
  rcases takes s ts h inv allowed with blocked | ⟨mid, kept, triple⟩
  · rw [blocked]
    trivial
  have res := triple.2 s _ (update_self _ _ _) kept allowed
  cases did : system.exec t cmd s with
  | blocked => trivial
  | panic why => rwa [did] at res
  | ok out =>
    rw [did] at res
    rcases res with ⟨later, keptAfter, sat⟩
    rw [update_idem] at keptAfter
    exact ⟨later, keptAfter, sat⟩

theorem Triple.mono {post wider : system.Response cmd → Token → Prop}
    (triple : protocol.Triple t tok cmd post) (implies : ∀ r later, post r later → wider r later) :
    protocol.Triple t tok cmd wider := by
  refine ⟨triple.1, ?_⟩
  intro s ts h inv allowed
  have res := triple.2 s ts h inv allowed
  cases did : system.exec t cmd s with
  | blocked => trivial
  | panic why => rwa [did] at res
  | ok out =>
    rw [did] at res
    rcases res with ⟨later, kept, sat⟩
    exact ⟨later, kept, implies _ _ sat⟩

theorem Valid.done {post : α → Token → Prop} {value : α} (sat : post value tok) :
    protocol.Valid t post (.done value) tok := sat

theorem Valid.call {post : α → Token → Prop}
    {next : system.Response cmd → Program system.Command system.Response α}
    (mid : system.Response cmd → Token → Prop) (triple : protocol.Triple t tok cmd mid)
    (rest : ∀ r later, mid r later → protocol.Valid t post (next r) later) :
    protocol.Valid t post (.call cmd next) tok := triple.mono rest

/-- One command, followed by the rest of a program. -/
theorem Valid.command_bind {post : α → Token → Prop} {mid : system.Response cmd → Token → Prop}
    {next : system.Response cmd → Program system.Command system.Response α}
    (triple : protocol.Triple t tok cmd mid) (rest : ∀ r later, mid r later →
      protocol.Valid t post (next r) later) :
    protocol.Valid t post (Program.command cmd >>= next) tok := triple.mono rest

theorem Valid.mono {post wider : α → Token → Prop} {prog : Program system.Command system.Response α}
    (valid : protocol.Valid t post prog tok) (implies :
    ∀ value later, post value later → wider value later) : protocol.Valid t wider prog tok := by
  induction prog generalizing tok with
  | done value => exact implies value tok valid
  | call cmd next ih =>
    exact Triple.mono valid fun r later h => ih r h

theorem Valid.bind {post : β → Token → Prop} {first : Program system.Command system.Response α}
    {snd : α → Program system.Command system.Response β} (mid : α → Token → Prop)
    (valid : protocol.Valid t mid first tok) (rest : ∀ value later, mid value later →
    protocol.Valid t post (snd value) later) : protocol.Valid t post (first >>= snd) tok := by
  induction first generalizing tok with
  | done value => exact rest value tok valid
  | call cmd next ih =>
    exact Triple.mono valid fun r later h => ih r h

/-! ## Soundness -/

/-- The tokens of a pool fit its state and what remains of its threads. -/
def Fits (protocol : Protocol system Token) (pool : Pool system)
    (ts : Thread → Token) : Prop :=
  protocol.Inv pool.state ts ∧
    ∀ t, protocol.Valid t protocol.Idle (pool.threads t) (ts t)

variable {ts : Thread → Token}

theorem Fits.idle {s : State} {locals : Thread → Local} (inv : protocol.Inv s ts)
    (idle : ∀ t, protocol.Idle (locals t) (ts t)) : protocol.Fits (system.idle s locals) ts :=
  ⟨inv, idle⟩

theorem reachable_fits (sound : protocol.Sound) (fits : protocol.Fits initial ts)
    (reach : system.Reachable protocol.Allowed initial pool) : ∃ cur, protocol.Fits pool cur := by
  induction reach with
  | initial => exact ⟨ts, fits⟩
  | @start pool t value call _ isDone ih =>
    rcases ih with ⟨cur, inv, valid⟩
    refine ⟨cur, inv, ?_⟩
    intro o
    by_cases same : o = t
    · subst same
      have idle := valid o
      rw [isDone] at idle
      simpa using sound o call value (cur o) idle
    · simpa [same] using valid o
  | @step pool t cmd next r after _ isCall ok did ih =>
    rcases ih with ⟨cur, inv, valid⟩
    have ready := valid t
    rw [isCall] at ready
    have res := ready.2 pool.state cur rfl inv ok
    rw [did] at res
    rcases res with ⟨later, kept, restVal⟩
    refine ⟨update cur t later, kept, ?_⟩
    intro o
    by_cases same : o = t
    · subst same
      simpa using restVal
    · simpa [same] using valid o

/-- A panic that is not tolerated is not reached. -/
theorem Fits.tolerated (fits : protocol.Fits pool ts) {why : Panic}
    (panics : system.Panics protocol.Allowed pool why) : protocol.Tolerated why := by
  rcases panics with ⟨t, cmd, next, isCall, ok, did⟩
  have ready := fits.2 t
  rw [isCall] at ready
  have res := ready.2 pool.state ts rfl fits.1 ok
  rwa [did] at res

/-- A thread about to execute a command holds a token it is ready with. -/
theorem Fits.ready (fits : protocol.Fits pool ts)
    {next : system.Response cmd → Program system.Command system.Response Local}
    (isCall : pool.threads t = .call cmd next) : protocol.Ready cmd (ts t) := by
  have valid := fits.2 t
  rw [isCall] at valid
  exact valid.1

/-- A thread between calls holds an idle token. -/
theorem Fits.idle_of_done (fits : protocol.Fits pool ts) (isDone : pool.threads t = .done value) :
    protocol.Idle value (ts t) := by
  have valid := fits.2 t
  rwa [isDone] at valid

end Protocol

end Foundation
