import Xv6.Proc.SleepProtocol

/-! # No lost wakeup

Any condition on data that a spin lock protects. Processes test it while they hold
the lock and call `sleep` as long as it is false; processes and interrupt handlers
change the data while they hold the lock and call `wakeup`, before they release the
lock or after. Meanwhile the channel's processes may be woken for no reason, killed
and preempted, and processes sleep on other channels too. -/

namespace Xv6

open Foundation Function Protocol KernelProgram Valid

/-! ## Waiting for a condition -/

inductive ConditionAction (Data : Type)
  | test
  | consume (change : Data → Data)
  | update (change : Data → Data)

@[reducible] def ConditionAction.Result {Data : Type} : ConditionAction Data → Type
  | .test => Bool
  | _ => Unit

section

variable {Pid Hart Chan Data : Type} [DecidableEq Pid] [DecidableEq Hart]

/-- A record of the run says which threads are between an update and the end of
the loop of `wakeup` that follows it. The operation is that end. -/
def conditionClient (Pid Hart : Type) [DecidableEq Pid] [DecidableEq Hart]
    {Data : Type} (cond : Data → Bool) :
    Client (Context Pid Hart) Data (Context Pid Hart → Bool) where
  Action := ConditionAction Data
  Result := ConditionAction.Result
  act
    | _, .test, data, waking => (cond data, data, waking)
    | _, .consume change, data, waking => ((), change data, waking)
    | t, .update change, data, waking =>
      ((), change data, Function.update waking t true)
  Operation := Unit
  Answer _ := Unit
  operate t _ waking := ((), Function.update waking t false)

namespace KernelProgram

variable {cond : Data → Bool}

def test : KernelProgram (conditionClient Pid Hart cond) Chan Bool :=
  access (conditionClient Pid Hart cond) .test

def consume (change : Data → Data) :
    KernelProgram (conditionClient Pid Hart cond) Chan Unit :=
  access (conditionClient Pid Hart cond) (.consume change)

def update (change : Data → Data) :
    KernelProgram (conditionClient Pid Hart cond) Chan Unit :=
  access (conditionClient Pid Hart cond) (.update change)

def woken : KernelProgram (conditionClient Pid Hart cond) Chan Unit :=
  operate (conditionClient Pid Hart cond) ()

/-- A process that holds the lock waits for the condition, and changes the data
when it finds it true. -/
def await (p : Pid) (chan : Chan) (change : Data → Data) :
    Nat → KernelProgram (conditionClient Pid Hart cond) Chan Unit
  | 0 => step .halt
  | fuel + 1 => do
      let met ← test
      if met then
        consume change
        release
      else
        sleep p chan
        await p chan change fuel

def signal [DecidableEq Chan] (t : Context Pid Hart) (chan : Chan)
    (table : List Pid) (change : Data → Data) (early : Bool) :
    KernelProgram (conditionClient Pid Hart cond) Chan Unit := do
  acquire t
  update change
  if early then
    release
    wakeup t chan table
    woken
  else
    wakeup t chan table
    woken
    release

end KernelProgram

/-- A process waits on the channel of the condition, or on another one; a thread
makes a change and calls `wakeup`, or calls `wakeup` and changes nothing. -/
inductive ConditionCall (chan : Chan) (Data : Type)
  | await (change : Data → Data) (fuel : Nat)
  | signal (change : Data → Data) (early : Bool)
  | pause (other : Chan) (ne : other ≠ chan)
  | wakeup (other : Chan)

/-- Interrupt handlers do not sleep. -/
def conditionProgram [DecidableEq Chan] (cond : Data → Bool) (chan : Chan)
    (table : List Pid) (t : Context Pid Hart) :
    ConditionCall chan Data → Unit → KernelProgram (conditionClient Pid Hart cond) Chan Unit
  | .await change fuel, _ =>
    match t with
    | .process p => do
        KernelProgram.acquire t
        KernelProgram.await p chan change fuel
    | .scheduler _ => pure ()
  | .signal change early, _ => KernelProgram.signal t chan table change early
  | .pause other _, _ =>
    match t with
    | .process p => do
        KernelProgram.acquire t
        KernelProgram.sleep p other
        KernelProgram.release
    | .scheduler _ => pure ()
  | .wakeup other, _ => KernelProgram.wakeup t other table

/-- All threads of a kernel in which the condition is waited for. -/
abbrev conditionSystem (Hart : Type) [DecidableEq Hart] [DecidableEq Chan] (cond : Data → Bool)
    (chan : Chan) (table : List Pid) :=
  kernelSystem (conditionClient Pid Hart cond) Chan table (conditionProgram cond chan table)

/-- No thread has begun, and no thread is a waker. -/
def conditionStart (Hart : Type) [DecidableEq Hart] [DecidableEq Chan] (cond : Data → Bool)
    (chan : Chan) (table : List Pid) (data : Data) :
    Pool (conditionSystem Hart cond chan table) :=
  kernelStart _ _ _ _ data (fun _ => false) fun _ => ()

/-! ## The discipline -/

/-- Only the one channel has a condition. Whoever owes a wakeup is recorded. -/
def conditionDiscipline (Pid Hart : Type) (cond : Data → Bool) (chan : Chan) :
    Discipline Pid Hart Chan Data (Context Pid Hart → Bool) Unit where
  Cond other data := other = chan ∧ cond data = true
  Extra _ _ _ := True
  Permits _ _ := True
  Owes _ waking t _ := waking t = true
  early := True

section

variable [DecidableEq Chan] {cond : Data → Bool} {chan : Chan} {table : List Pid}
  {t : Context Pid Hart} {tok : SleepToken Pid Chan Data Unit}

/-- The protocol of the programs above. -/
abbrev conditionProtocol (Hart : Type) [DecidableEq Hart] (cond : Data → Bool) (chan : Chan)
    (table : List Pid) :
    Protocol (conditionSystem Hart cond chan table) (SleepToken Pid Chan Data Unit) :=
  sleepProtocol table _ (conditionDiscipline Pid Hart cond chan)
    (conditionSystem Hart cond chan table).always fun _ _ => True

variable {data : Data}

theorem triple_test (holding : tok.Holding data) : (conditionProtocol Hart cond chan table).Triple
    t tok (.access .test) fun met later => met = cond data ∧ later = tok := by
  apply triple_access holding.view holding.chan holding.entering
  rintro aux users _ _ _ _ _ ⟨⟩
  refine ⟨tok.user, tok.waking, trivial, ?_, ?_, ?_, ?_, rfl, ?_⟩
  · intro p c owed
    exact owed
  · intro c met
    exact Or.inl met
  · intro p c owed
    exact absurd owed (holding.waking c p)
  · intro o c _ owes
    exact owes
  · rw [← holding.view]

variable {change : Data → Data}

theorem triple_consume (holding : tok.Holding data) (met : cond data = true) :
    (conditionProtocol Hart cond chan table).Triple t tok (.access (.consume change))
      fun _ later => later = { tok with view := some (change data) } := by
  apply triple_access holding.view holding.chan holding.entering
  rintro aux users _ _ _ _ _ ⟨⟩
  refine ⟨tok.user, tok.waking, trivial, ?_, ?_, ?_, ?_, rfl⟩
  · intro p c owed
    exact owed
  · rintro c ⟨here, _⟩
    exact Or.inl ⟨here, met⟩
  · intro p c owed
    exact absurd owed (holding.waking c p)
  · intro o c _ owes
    exact owes

theorem triple_update (holding : tok.Holding data) :
    (conditionProtocol Hart cond chan table).Triple t tok (.access (.update change))
      fun _ later => later = { tok with
          view := some (change data), waking := fun c => { _p | c = chan } } := by
  apply triple_access holding.view holding.chan holding.entering
  rintro aux users _ _ _ _ _ ⟨⟩
  refine ⟨tok.user, fun c => { _p | c = chan }, trivial, ?_, ?_, ?_, ?_, rfl⟩
  · intro p c owed
    exact absurd owed (holding.waking c p)
  · rintro c ⟨here, _⟩
    exact Or.inr fun _ => here
  · intro p c _
    exact update_self _ _ _
  · intro o c ne owes
    exact (update_of_ne ne _ _).trans owes

theorem triple_woken (noChan : tok.chan = none) (awake : tok.entering = none)
    (nothing : ∀ c p, p ∉ tok.waking c) : (conditionProtocol Hart cond chan table).Triple
    t tok (.operate ()) fun _ later => later = tok := by
  apply triple_operate noChan awake
  rintro data aux users _ _ _ _ _ ⟨⟩
  refine ⟨tok.user, trivial, ?_, ?_, rfl⟩
  · intro p c owed
    exact absurd owed (nothing c p)
  · intro o c ne owes
    exact (update_of_ne ne _ _).trans owes

theorem valid_await {p : Pid} (fuel : Nat) (self : t = .process p) (holding : tok.Holding data)
    (here : tok.away = false) : (conditionProtocol Hart cond chan table).Valid t (fun _ later =>
    later.Resting ∧ later.away = false) (await p chan change fuel) tok := by
  induction fuel generalizing tok data with
  | zero => exact triple_halt
  | succ fuel ih =>
    refine command_bind (triple_test holding) ?_
    rintro met _ ⟨rfl, rfl⟩
    by_cases met : cond data = true
    · rw [if_pos met]
      refine command_bind (triple_consume holding met) ?_
      rintro _ _ rfl
      refine (valid_release_resting (holding.viewed (change data))).mono ?_
      rintro _ _ ⟨rested, same, _⟩
      exact ⟨rested, same.trans here⟩
    · rw [if_neg met]
      refine bind _ (valid_sleep self holding here trivial fun unmet => met unmet.2) ?_
      rintro _ _ ⟨later, rfl⟩
      exact ih (holding.viewed later) here

theorem valid_signal {early : Bool} (full : ∀ p, p ∈ table)
    (rests : tok.Resting) : (conditionProtocol Hart cond chan table).Valid t (fun _ later =>
    later.Resting ∧ later.away = tok.away) (signal t chan table change early) tok := by
  refine bind _ (valid_acquire rests.entering) ?_
  rintro _ _ ⟨data, rfl⟩
  have holding := rests.acquired data
  refine command_bind (triple_update holding) ?_
  rintro _ _ rfl
  cases early with
  | true =>
    refine bind _ (valid_release_early holding.lk rfl holding.entering trivial) ?_
    rintro _ _ rfl
    refine bind _ (valid_wakeup_all full rests.plock rests.entering fun _ _ owed => owed) ?_
    rintro _ _ rfl
    refine Triple.mono (triple_woken ?_ ?_ fun _ p => Set.notMem_empty p) ?_
    · exact rests.chan
    · exact rests.entering
    · rintro _ _ rfl
      exact ⟨holding.released, rfl⟩
  | false =>
    refine bind _ (valid_wakeup_all full rests.plock rests.entering fun _ _ owed => owed) ?_
    rintro _ _ rfl
    refine command_bind (triple_woken rests.chan rests.entering fun _ p => Set.notMem_empty p) ?_
    rintro _ _ rfl
    refine mono (valid_release_resting ⟨rfl, rfl, rests.plock, rests.chan,
      rests.entering, fun _ p => Set.notMem_empty p⟩) ?_
    rintro _ _ ⟨rested, same, _⟩
    exact ⟨rested, same⟩

theorem valid_pause {p : Pid} {o : Chan} (ne : o ≠ chan)
    (self : t = .process p) (rests : tok.Resting) (here : tok.away = false) :
    (conditionProtocol Hart cond chan table).Valid t
      (fun _ later => later.Resting ∧ later.away = false) (do
        acquire t
        sleep p o
        release) tok := by
  refine bind _ (valid_acquire rests.entering) ?_
  rintro _ _ ⟨data, rfl⟩
  have holding := rests.acquired data
  refine bind _ (valid_sleep self holding here trivial fun met => ne met.1) ?_
  rintro _ _ ⟨later, rfl⟩
  refine (valid_release_resting (holding.viewed later)).mono ?_
  rintro _ _ ⟨rested, same, _⟩
  exact ⟨rested, same.trans here⟩

theorem condition_sound (full : ∀ p, p ∈ table) :
    ClientSound table (conditionProgram cond chan table) (conditionDiscipline Pid Hart cond chan)
    (conditionSystem Hart cond chan table).always fun _ _ => True := by
  intro t call v tok rests here _
  cases call with
  | await change fuel =>
    cases t with
    | scheduler hart => exact ⟨rests, rfl, trivial⟩
    | process p =>
      refine bind _ (valid_acquire rests.entering) ?_
      rintro _ _ ⟨data, rfl⟩
      refine (valid_await fuel rfl (rests.acquired data) (here p rfl)).mono ?_
      rintro _ later ⟨rested, away⟩
      exact ⟨rested, away.trans (here p rfl).symm, trivial⟩
  | signal change early =>
    refine (valid_signal full rests).mono ?_
    rintro _ later ⟨rested, away⟩
    exact ⟨rested, away, trivial⟩
  | pause o ne =>
    cases t with
    | scheduler hart => exact ⟨rests, rfl, trivial⟩
    | process p =>
      refine (valid_pause ne rfl rests (here p rfl)).mono ?_
      rintro _ later ⟨rested, away⟩
      exact ⟨rested, away.trans (here p rfl).symm, trivial⟩
  | wakeup o =>
    refine (valid_wakeup_all full rests.plock rests.entering ?_).mono ?_
    · intro c p owed
      exact absurd owed (rests.waking c p)
    · rintro _ _ rfl
      exact ⟨{ rests with waking := fun _ p => Set.notMem_empty p }, rfl, trivial⟩

/-! ## No lost wakeup -/

/-- Whenever the condition is true and no thread is between an update and the end
of its `wakeup`, no process sleeps on the channel, whether the lock is free or not. -/
theorem no_lost_wakeup (complete : ∀ p, p ∈ table) {data : Data}
    {pool : Pool (conditionSystem Hart cond chan table)}
    (reach : (conditionSystem Hart cond chan table).Reachable
      (conditionSystem Hart cond chan table).always (conditionStart Hart cond chan table data) pool)
    (met : cond pool.state.data = true) (noWaker : ∀ t, pool.state.aux t = false) (p : Pid) :
    ¬((pool.state.procs p).state = .sleeping ∧ (pool.state.procs p).chan = some chan) := by
  obtain ⟨ts, inv, _⟩ := reachable_sleepInv (condition_sound complete) (fun _ => ()) trivial
    (fun _ => trivial) reach
  intro asleep
  apply inv.not_waits ⟨rfl, met⟩ ?_ p (Or.inr asleep)
  intro t q owed
  have waker := (inv.sleepers.owes t chan q owed).2
  exact Bool.false_ne_true ((noWaker t).symm.trans waker)

end

end

inductive SleeperAndWaker
  | sleeper
  | waker
deriving DecidableEq

/-- The sleeper finds the condition false and sleeps; the waker makes it true. -/
def sleeperIsWoken :
    List (System.Event (Context SleeperAndWaker Unit)
      (KernelCall (ConditionCall () Bool) SleeperAndWaker)) :=
  .start (.scheduler ()) .scheduler :: List.replicate 4 (.step (.scheduler ())) ++
  .start (.process .sleeper) (.client (.await (fun _ => false) 2)) ::
    List.replicate 11 (.step (.process .sleeper)) ++
  List.replicate 6 (.step (.scheduler ())) ++
  [.start (.process .waker) (.client (.signal (fun _ => true) false)), .finish (.process .waker)]

theorem no_lost_wakeup_sleeperIsWoken :
    ∃ pool, (conditionSystem Unit id () [SleeperAndWaker.sleeper, .waker]).Reachable
      (conditionSystem Unit id () [SleeperAndWaker.sleeper, .waker]).always
      (conditionStart Unit id () [SleeperAndWaker.sleeper, .waker] false) pool ∧
      pool.state.data = true ∧ (∀ t, pool.state.aux t = false) ∧
      ∀ p, ¬((pool.state.procs p).state = .sleeping ∧ (pool.state.procs p).chan = some ()) := by
  have run : (System.replay
      (conditionStart Unit id () [SleeperAndWaker.sleeper, .waker] false) sleeperIsWoken).map
      (fun pool => (pool.state.data, pool.state.aux (.process .sleeper),
        pool.state.aux (.process .waker), pool.state.aux (.scheduler ()))) =
      some (true, false, false, false) := by
    decide +kernel
  obtain ⟨pool, reach, facts⟩ := System.exists_of_replay run
  simp only [Prod.mk.injEq] at facts
  obtain ⟨met, sleeper, waker, hart⟩ := facts
  have noWaker (t : Context SleeperAndWaker Unit) : pool.state.aux t = false := by
    rcases t with p | _
    · cases p
      · exact sleeper
      · exact waker
    · exact hart
  have complete (p : SleeperAndWaker) : p ∈ [SleeperAndWaker.sleeper, .waker] := by
    cases p <;> decide
  exact ⟨pool, reach, met, noWaker, no_lost_wakeup complete reach met noWaker⟩

end Xv6
