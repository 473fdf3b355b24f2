import Xv6.Proc.SleepSteps

/-! # Rules for sleep and wakeup

The invariant as a protocol: a triple for each command, and from these what the
functions of `proc.c` do to the token of the thread that calls them. -/

namespace Xv6

open Foundation Function Protocol KernelProgram Outcome Valid Set
open Kernel (exec)

/-- The token of a thread between calls. -/
structure SleepToken.Resting {Pid Chan Data User : Type}
    (tok : SleepToken Pid Chan Data User) : Prop where
  lk : tok.lk = false
  view : tok.view = none
  plock : tok.plock = none
  chan : tok.chan = none
  entering : tok.entering = none
  waking : ∀ chan p, p ∉ tok.waking chan

/-- The token of a thread that holds `lk`, and owes wakeups on some channels only. -/
structure SleepToken.Owing {Pid Chan Data User : Type}
    (tok : SleepToken Pid Chan Data User) (data : Data) (owed : Chan → Prop) : Prop where
  lk : tok.lk = true
  view : tok.view = some data
  plock : tok.plock = none
  chan : tok.chan = none
  entering : tok.entering = none
  waking : ∀ chan p, p ∈ tok.waking chan → owed chan

/-- The token of a thread that holds `lk` and owes nothing. -/
abbrev SleepToken.Holding {Pid Chan Data User : Type}
    (tok : SleepToken Pid Chan Data User) (data : Data) : Prop :=
  tok.Owing data fun _ => False

namespace SleepToken

variable {Pid Chan Data User : Type} {tok : SleepToken Pid Chan Data User}
  {data : Data} {owed : Chan → Prop}

theorem Owing.weaken {wider : Chan → Prop} (owing : tok.Owing data owed)
    (implies : ∀ c, owed c → wider c) : tok.Owing data wider :=
  { owing with waking := fun c p owes => implies c (owing.waking c p owes) }

theorem Resting.acquired (rests : tok.Resting) (data : Data) :
    SleepToken.Holding { tok with lk := true, view := some data } data :=
  { rests with lk := rfl, view := rfl }

theorem Owing.viewed (owing : tok.Owing data owed)
    (v : Data) : SleepToken.Owing { tok with view := some v } v owed :=
  { owing with view := rfl }

theorem Owing.released (owing : tok.Owing data owed) :
    ({ tok with lk := false, view := none, waking := fun _ => ∅ } :
      SleepToken Pid Chan Data User).Resting :=
  { owing with
    lk := rfl
    view := rfl
    waking := fun _ p => notMem_empty p }

theorem of_noff (free : tok.noff = 0) : tok.lk = false ∧ tok.plock = none ∧ tok.away = false := by
  rcases tok with ⟨lk, view, plock, away, chan, enters, waking, user⟩
  cases lk <;> cases plock <;> cases away <;> simp_all [noff]

theorem restore (plock : tok.plock = none) (here : tok.away = false) (awake : tok.entering = none) :
    { tok with plock := none, away := false, entering := none } = tok := by
  rw [← plock, ← here, ← awake]

theorem excuse_none (tok : SleepToken Pid Chan Data User) (chan : Chan) :
    tok.excuse chan (· ∈ []) = tok := by
  simp [excuse]

variable {p : Pid} {chan : Chan}

theorem excuse_cons {rest : List Pid} (plock : tok.plock = none) :
    SleepToken.excuse { SleepToken.excuse { tok with plock := some p } chan (· = p) with
      plock := none } chan (· ∈ rest) = tok.excuse chan (· ∈ p :: rest) := by
  have visits (q : Pid) (c : Chan) :
      (q ∈ tok.waking c ∧ (c = chan → ¬q = p)) ∧ (c = chan → q ∉ rest) ↔
        q ∈ tok.waking c ∧ (c = chan → q ∉ p :: rest) := by
    rw [List.mem_cons, not_or, and_assoc, ← forall_and]
  simp only [excuse, mem_ofPred_eq, visits, plock]

variable {list : List Pid}

theorem excuse_all (full : ∀ p, p ∈ list) (only : ∀ c p, p ∈ tok.waking c → c = chan) :
    tok.excuse chan (· ∈ list) = { tok with waking := fun _ => ∅ } := by
  have none (c : Chan) : { p | p ∈ tok.waking c ∧ (c = chan → p ∉ list) } = ∅ := by
    rw [eq_empty_iff_forall_notMem]
    intro p owed
    exact owed.2 (only c p owed.1) (full p)
  simp only [excuse, none]

end SleepToken

section

variable {Pid Hart Chan Data Aux User Call Value : Type} [DecidableEq Pid] [DecidableEq Hart]
  {client : Client (Context Pid Hart) Data Aux}

/-- The steps that are considered are `Allowed`; `Keeps` relates what a thread
keeps between calls to what the client's code knows. -/
def sleepProtocol (table : List Pid)
    (prog : Context Pid Hart → Call → Value → KernelProgram client Chan Value)
    (d : Discipline Pid Hart Chan Data Aux User)
    (Allowed : Context Pid Hart → KernelCommand client Chan →
      Kernel Pid Chan Data Aux → Prop)
    (Keeps : Value → User → Prop) :
    Protocol (kernelSystem client Chan table prog) (SleepToken Pid Chan Data User) where
  Inv := SleepInv d
  Ready _ _ := True
  Allowed := Allowed
  Tolerated _ := True
  Idle kept tok := tok.Resting ∧ tok.away = !kept.born ∧ Keeps kept.value tok.user

variable {table : List Pid}
  {prog : Context Pid Hart → Call → Value → KernelProgram client Chan Value}
  {d : Discipline Pid Hart Chan Data Aux User}
  {Allowed : Context Pid Hart → KernelCommand client Chan →
  Kernel Pid Chan Data Aux → Prop} {Keeps : Value → User → Prop}
  {t : Context Pid Hart} {tok : SleepToken Pid Chan Data User}

/-! ## Commands -/

theorem triple_of {cmd : KernelCommand client Chan}
    {post : cmd.Response → SleepToken Pid Chan Data User → Prop}
    (keeps : ∀ s ts r s', ts t = tok → SleepInv d s ts → Allowed t cmd s →
      exec t cmd s = .ok (r, s') → ∃ later, SleepInv d s' (update ts t later) ∧
        post r later) : (sleepProtocol table prog d Allowed Keeps).Triple t tok cmd post :=
  Triple.of_outcomes trivial keeps fun _ _ _ _ _ _ _ => trivial

theorem triple_acquireLk : (sleepProtocol table prog d Allowed Keeps).Triple t tok .acquire
      fun _ later => ∃ data, later = { tok with lk := true, view := some data } := by
  apply triple_of
  intro s ts r s' h inv _ ran
  cases free : s.lk with
  | true => simp [exec, free] at ran
  | false =>
    simp only [exec, free, Bool.false_eq_true, if_false, ok.injEq] at ran
    cases ran
    subst h
    exact ⟨_, inv.acquire free, s.data, rfl⟩

theorem triple_releaseLk {enters : Option Chan} (waking : Chan → Set Pid)
    (h : tok.lk = true) (known : tok.view = some data)
    (sleeps : ∀ c, enters = some c → ¬d.Cond c data ∧
      d.Permits tok.user c ∧ ∀ p, t = .process p → tok.plock = some p)
    (kept : ∀ p c, p ∈ tok.waking c → p ∈ waking c ∨ d.Vacant c data)
    (fewer : ∀ p c, p ∈ waking c → p ∈ tok.waking c ∧ d.early) :
    (sleepProtocol table prog d Allowed Keeps).Triple t tok (.release enters) fun _ later =>
        later = { tok with lk := false, view := none, entering := enters, waking := waking } := by
  apply triple_of
  intro s ts r s' own inv _ ran
  cases ran
  subst own
  exact ⟨_, inv.release h known sleeps kept fewer, rfl⟩

theorem triple_acquireProc (old : tok.plock = none) (awake : tok.entering = none) :
    (sleepProtocol table prog d Allowed Keeps).Triple t tok
      (.acquireProc p) fun _ later => later = { tok with plock := some p } := by
  apply triple_of
  intro s ts r s' own inv _ ran
  cases free : (s.procs p).lock with
  | true => simp [exec, free] at ran
  | false =>
    simp only [exec, free, Bool.false_eq_true, if_false, ok.injEq] at ran
    cases ran
    subst own
    exact ⟨_, inv.acquireProc free old awake, rfl⟩

theorem triple_releaseProc (h : tok.plock = some p) (awake : tok.entering = none) :
    (sleepProtocol table prog d Allowed Keeps).Triple t tok
      (.releaseProc p) fun _ later => later = { tok with plock := none } := by
  apply triple_of
  intro s ts r s' own inv _ ran
  cases ran
  subst own
  exact ⟨_, inv.releaseProc h awake, rfl⟩

theorem triple_silent {cmd : KernelCommand client Chan} (keeps :
    ∀ s ts r s', ts t = tok → SleepInv d s ts → exec t cmd s = .ok (r, s') → SleepInv d s' ts) :
    (sleepProtocol table prog d Allowed Keeps).Triple t tok cmd fun _ later => later = tok := by
  apply triple_of
  intro s ts r s' own inv _ ran
  refine ⟨tok, ?_, rfl⟩
  rw [← own, update_eq_self]
  exact keeps s ts r s' own inv ran

theorem triple_getProc : (sleepProtocol table prog d Allowed Keeps).Triple
    t tok (.getProc p) fun _ later => later = tok := by
  apply triple_silent
  intro s ts r s' _ inv ran
  cases ran
  exact inv

theorem triple_getProc_visit (chan : Chan) (h : tok.plock = some p)
    (awake : tok.entering = none) : (sleepProtocol table prog d Allowed Keeps).Triple
    t tok (.getProc p) fun proc later => proc = (.sleeping, some chan) ∧
    later = tok ∨ proc ≠ (.sleeping, some chan) ∧ later = tok.excuse chan (· = p) := by
  apply triple_of
  intro s ts r s' own inv _ ran
  cases ran
  subst own
  by_cases asleep : ((s.procs p).state, (s.procs p).chan) = (.sleeping, some chan)
  · refine ⟨ts t, ?_, Or.inl ⟨asleep, rfl⟩⟩
    rwa [update_eq_self]
  refine ⟨_, inv.excuse ?_, Or.inr ⟨asleep, rfl⟩⟩
  rintro q rfl (enters | ⟨s, chan⟩)
  · rw [inv.entering_of_plock h awake] at enters
    cases enters
  · exact asleep (Prod.ext s chan)

theorem triple_setState {v : ProcState} (awake : v ≠ .sleeping) :
    (sleepProtocol table prog d Allowed Keeps).Triple t tok
    (.setState p v) fun _ later => later = tok := by
  apply triple_silent
  intro s ts r s' _ inv ran
  cases ran
  exact inv.setState p awake

theorem triple_wake (chan : Chan) (h : tok.plock = some p)
    (awake : tok.entering = none) : (sleepProtocol table prog d Allowed Keeps).Triple
    t tok (.setState p .runnable) fun _ later => later = tok.excuse chan (· = p) := by
  apply triple_of
  intro s ts r s' own inv _ ran
  cases ran
  subst own
  have o : ProcState.runnable ≠ .sleeping := by decide
  have woken := inv.setState p o
  refine ⟨_, woken.excuse ?_, rfl⟩
  rintro q rfl waits
  rw [Kernel.modify_self] at waits
  rcases waits with enters | ⟨asleep, _⟩
  · rw [inv.entering_of_plock h awake] at enters
    cases enters
  · cases asleep

theorem triple_setSleeping {c : Chan} (self : t = .process p) (chan : tok.chan = some c)
    (enters : tok.entering = some c) : (sleepProtocol table prog d Allowed Keeps).Triple
    t tok (.setState p .sleeping) fun _ later => later = tok := by
  apply triple_silent
  intro s ts r s' own inv ran
  cases ran
  subst own self
  exact inv.setSleeping chan enters

theorem triple_setChan {v : Option Chan} (self : t = .process p)
    (goes : ∀ c, v = some c → tok.entering = some c) :
    (sleepProtocol table prog d Allowed Keeps).Triple t tok
      (.setChan p v) fun _ later => later = { tok with chan := v } := by
  apply triple_of
  intro s ts r s' own inv _ ran
  cases ran
  subst own
  exact ⟨_, inv.setChan self goes, rfl⟩

theorem triple_setKilled : (sleepProtocol table prog d Allowed Keeps).Triple
    t tok (.setKilled p) fun _ later => later = tok := by
  apply triple_silent
  intro s ts r s' _ inv ran
  cases ran
  exact inv.modify rfl rfl rfl rfl rfl fun _ waits => waits

theorem triple_getKilled : (sleepProtocol table prog d Allowed Keeps).Triple
    t tok (.getKilled p) fun _ later => later = tok := by
  apply triple_silent
  intro s ts r s' _ inv ran
  cases ran
  exact inv

theorem triple_tick : (sleepProtocol table prog d Allowed Keeps).Triple
    t tok (.tick p) fun _ later => later = tok := by
  apply triple_silent
  intro s ts r s' _ inv ran
  cases ran
  exact inv.modify rfl rfl rfl rfl rfl fun _ waits => waits

theorem triple_interrupt (self : t = .process p) : (sleepProtocol table prog d Allowed Keeps).Triple
    t tok (.interrupt p) fun pending later => later = tok ∧ (pending = true → tok.noff = 0) := by
  apply triple_of
  intro s ts r s' own inv _ ran
  refine ⟨tok, ?_⟩
  rw [← own, update_eq_self]
  by_cases pending : ((s.procs p).timer && (s.procs p).noff = 0) = true
  · simp only [exec, pending, if_true, ok.injEq] at ran
    cases ran
    refine ⟨inv.modify rfl rfl rfl rfl rfl fun _ waits => waits, rfl, fun _ => ?_⟩
    rw [self, ← inv.locks.noff p]
    exact of_decide_eq_true (Bool.and_eq_true_iff.mp pending).2
  · simp only [exec, pending] at ran
    cases ran
    exact ⟨inv, rfl, fun no => absurd no Bool.false_ne_true⟩

theorem triple_sched (self : t = .process p) (h : tok.plock = some p) (here : tok.away = false) :
    (sleepProtocol table prog d Allowed Keeps).Triple t tok (.sched p)
      fun _ later => later = { tok with plock := none, away := true, entering := none } := by
  apply triple_of
  rintro s ts r s' rfl inv _ ran
  simp only [exec] at ran
  split_ifs at ran
  cases ran
  exact ⟨_, inv.sched self h here, rfl⟩

theorem triple_resume (old : tok.plock = none) (away : tok.away = true)
    (awake : tok.entering = none) :
    (sleepProtocol table prog d Allowed Keeps).Triple t tok (.resume p)
      fun _ later => later = { tok with plock := some p, away := false } := by
  apply triple_of
  rintro s ts r s' rfl inv _ ran
  simp only [exec] at ran
  split_ifs at ran with moving
  cases ran
  have transit : (s.procs p).swtch ≠ .settled := by
    rw [moving]
    decide
  exact ⟨_, inv.enter transit old away awake, rfl⟩

theorem triple_switched (old : tok.plock = none) (away : tok.away = true)
    (awake : tok.entering = none) :
    (sleepProtocol table prog d Allowed Keeps).Triple t tok (.switched p)
      fun _ later => later = { tok with plock := some p, away := false } := by
  apply triple_of
  rintro s ts r s' rfl inv _ ran
  simp only [exec] at ran
  split_ifs at ran with moving
  cases ran
  have transit : (s.procs p).swtch ≠ .settled := by
    rw [moving]
    decide
  exact ⟨_, inv.enter transit old away awake, rfl⟩

theorem triple_swtch (h : tok.plock = some p)
    (awake : tok.entering = none) (here : tok.away = false) :
    (sleepProtocol table prog d Allowed Keeps).Triple t tok (.swtch p)
      fun _ later => later = { tok with plock := none, away := true } := by
  apply triple_of
  intro s ts r s' own inv _ ran
  cases ran
  subst own
  exact ⟨_, inv.swtch h awake here, rfl⟩

theorem triple_halt {post : Unit → SleepToken Pid Chan Data User → Prop} :
    (sleepProtocol table prog d Allowed Keeps).Triple t tok .halt post := by
  apply triple_of
  rintro s ts r s' _ _ _ ⟨⟩

theorem triple_access {action : client.Action}
    {post : client.Result action → SleepToken Pid Chan Data User → Prop}
    (known : tok.view = some data) (noChan : tok.chan = none) (awake : tok.entering = none)
    (acts : ∀ aux users out v later, users t = tok.user → d.Extra data aux users →
      client.act t action data aux = (out, v, later) → ∃ user waking,
        d.Extra v later (update users t user) ∧ (∀ p c, p ∈ tok.waking c → p ∈ waking c) ∧
        (∀ c, d.Cond c v → d.Cond c data ∨ ∀ p, p ∈ waking c) ∧
        (∀ p c, p ∈ waking c → d.Owes v later t c) ∧ (∀ o c, o ≠ t → d.Owes data aux o c →
          d.Owes v later o c) ∧
        post out { tok with view := some v, waking := waking, user := user }) :
    (sleepProtocol table prog d Allowed Keeps).Triple t tok (.access action) post := by
  apply triple_of
  rintro s ts r s' rfl inv _ ran
  obtain ⟨h, rfl⟩ := inv.sleepers.view t data known
  rcases acted : client.act t action s.data s.aux with ⟨out, v, later⟩
  simp only [exec, acted, Outcome.ok.injEq] at ran
  cases ran
  obtain ⟨user, waking, extra, more, met, owes, others, sat⟩ := acts _ _ _ _ _ rfl inv.extra acted
  refine ⟨_, inv.access known extra ?_ more met owes others, sat⟩
  intro c either
  rw [noChan, awake] at either
  rcases either with no | no <;> cases no

theorem triple_operate {operation : client.Operation}
    {post : client.Answer operation → SleepToken Pid Chan Data User → Prop}
    (noChan : tok.chan = none) (awake : tok.entering = none)
    (acts : ∀ data aux users answer later, users t = tok.user →
      (∀ v, tok.view = some v → v = data) → d.Extra data aux users →
      client.operate t operation aux = (answer, later) →
      ∃ user, d.Extra data later (update users t user) ∧
        (∀ p c, p ∈ tok.waking c → d.Owes data later t c) ∧ (∀ o c, o ≠ t → d.Owes data aux o c →
          d.Owes data later o c) ∧ post answer { tok with user := user }) :
    (sleepProtocol table prog d Allowed Keeps).Triple t tok (.operate operation) post := by
  apply triple_of
  rintro s ts r s' rfl inv _ ran
  rcases acted : client.operate t operation s.aux with ⟨answer, later⟩
  simp only [exec, acted, ok.injEq] at ran
  cases ran
  have seen (v : Data) (known : (ts t).view = some v) : v = s.data :=
    (inv.sleepers.view t v known).2
  obtain ⟨user, extra, owes, others, sat⟩ := acts _ _ _ _ _ rfl seen inv.extra acted
  refine ⟨_, inv.operate extra ?_ owes others, sat⟩
  intro c either
  rw [noChan, awake] at either
  rcases either with no | no <;> cases no

/-! ## Functions -/

theorem valid_yield (self : t = .process p) (free : tok.noff = 0) (awake : tok.entering = none) :
    (sleepProtocol table prog d Allowed Keeps).Valid t (fun _ later =>
    later = tok) (yield p) tok := by
  obtain ⟨_, plock, here⟩ := SleepToken.of_noff free
  refine command_bind (triple_acquireProc plock awake) ?_
  rintro _ _ rfl
  refine command_bind (triple_setState (by decide)) ?_
  rintro _ _ rfl
  refine command_bind (triple_sched self rfl here) ?_
  rintro _ _ rfl
  refine command_bind (triple_resume rfl rfl rfl) ?_
  rintro _ _ rfl
  refine (triple_releaseProc rfl rfl).mono ?_
  rintro _ _ rfl
  exact SleepToken.restore plock here awake

theorem valid_kerneltrap (awake : tok.entering = none) :
    (sleepProtocol table prog d Allowed Keeps).Valid t
    (fun _ later => later = tok) (kerneltrap t) tok := by
  cases t with
  | scheduler hart => exact rfl
  | process p =>
    refine command_bind (triple_interrupt rfl) ?_
    rintro pending _ ⟨rfl, free⟩
    cases pending with
    | false => exact rfl
    | true => exact valid_yield rfl (free rfl) awake

theorem valid_acquire (awake : tok.entering = none) :
    (sleepProtocol table prog d Allowed Keeps).Valid t
      (fun _ later => ∃ data, later = { tok with lk := true, view := some data })
      (acquire t) tok := by
  refine bind _ (valid_kerneltrap awake) ?_
  rintro _ _ rfl
  exact triple_acquireLk

theorem valid_release (h : tok.lk = true) (known : tok.view = some data)
    (awake : tok.entering = none) (settled : ∀ chan p, p ∈ tok.waking chan → d.Vacant chan data) :
    (sleepProtocol table prog d Allowed Keeps).Valid t (fun _ later => later =
        { tok with lk := false, view := none, waking := fun _ => ∅ })
      KernelProgram.release tok := by
  refine (triple_releaseLk (fun _ => ∅) h known ?_ ?_ ?_).mono ?_
  · rintro c ⟨⟩
  · intro p c owed
    exact Or.inr (settled c p owed)
  · intro p c owed
    exact absurd owed (Set.notMem_empty p)
  · intro _ _ same
    rwa [← awake] at same

theorem valid_release_resting (holding : tok.Holding data) :
    (sleepProtocol table prog d Allowed Keeps).Valid t (fun _ later =>
    later.Resting ∧ later.away = tok.away ∧ later.user = tok.user) KernelProgram.release tok := by
  refine (valid_release holding.lk holding.view holding.entering ?_).mono ?_
  · intro c p owed
    exact absurd owed (holding.waking c p)
  · rintro _ _ rfl
    exact ⟨holding.released, rfl, rfl⟩

theorem valid_release_early (h : tok.lk = true)
    (known : tok.view = some data) (awake : tok.entering = none) (early : d.early) :
    (sleepProtocol table prog d Allowed Keeps).Valid t
      (fun _ later => later = { tok with lk := false, view := none })
      KernelProgram.release tok := by
  refine (triple_releaseLk tok.waking h known ?_ ?_ ?_).mono ?_
  · rintro c ⟨⟩
  · intro p c owed
    exact Or.inl owed
  · intro p c owed
    exact ⟨owed, early⟩
  · intro _ _ same
    rwa [← awake] at same

theorem valid_acquireProc (old : tok.plock = none) (awake : tok.entering = none) :
    (sleepProtocol table prog d Allowed Keeps).Valid t
      (fun _ later => later = { tok with plock := some p })
      (acquireProc t p) tok := by
  refine bind _ (valid_kerneltrap awake) ?_
  rintro _ _ rfl
  exact triple_acquireProc old awake

theorem valid_sleep (self : t = .process p) (holding : tok.Holding data) (here : tok.away = false)
    (permits : d.Permits tok.user chan) (unmet : ¬d.Cond chan data) :
    (sleepProtocol table prog d Allowed Keeps).Valid t
      (fun _ later => ∃ data, later = { tok with view := some data })
      (KernelProgram.sleep p chan) tok := by
  obtain ⟨h, known, plock, noChan, awake, nothing⟩ := holding
  rw [KernelProgram.sleep, ← self]
  refine Valid.bind _ (valid_acquireProc plock awake) ?_
  rintro _ _ rfl
  have asleep : (sleepProtocol table prog d Allowed Keeps).Triple t
      { tok with plock := some p } (.release (some chan)) fun _ later => later =
        { tok with
          plock := some p, lk := false, view := none, entering := some chan } := by
    refine triple_releaseLk tok.waking h known ?_ ?_ ?_
    · rintro c goes
      cases goes
      refine ⟨unmet, permits, ?_⟩
      intro q o
      rw [self] at o
      cases o
      rfl
    · intro q c owed
      exact Or.inl owed
    · intro q c owed
      exact absurd owed (nothing c q)
  refine Valid.command_bind asleep ?_
  rintro _ _ rfl
  refine Valid.command_bind (triple_setChan self fun c goes => goes) ?_
  rintro _ _ rfl
  refine Valid.command_bind (triple_setSleeping self rfl rfl) ?_
  rintro _ _ rfl
  refine Valid.command_bind (triple_sched self rfl here) ?_
  rintro _ _ rfl
  refine Valid.command_bind (triple_resume rfl rfl rfl) ?_
  rintro _ _ rfl
  refine Valid.command_bind
    (triple_setChan self fun c goes => (Option.some_ne_none c goes.symm).elim) ?_
  rintro _ _ rfl
  refine Valid.command_bind (triple_releaseProc rfl rfl) ?_
  rintro _ _ rfl
  refine (valid_acquire rfl).mono ?_
  rintro _ _ ⟨later, rfl⟩
  refine ⟨later, ?_⟩
  rcases tok with ⟨_, _, _, _, _, _, _, _⟩
  simp_all

theorem valid_wakeup [DecidableEq Chan] (list : List Pid)
    (plock : tok.plock = none) (awake : tok.entering = none) :
    (sleepProtocol table prog d Allowed Keeps).Valid t
      (fun _ later => later = tok.excuse chan (· ∈ list))
      (KernelProgram.wakeup t chan list) tok := by
  induction list generalizing tok with
  | nil => exact (tok.excuse_none chan).symm
  | cons p rest ih =>
    have visited : (sleepProtocol table prog d Allowed Keeps).Valid t
        (fun _ later => later = tok.excuse chan (· ∈ p :: rest))
        (do
          KernelProgram.step (.releaseProc p)
          KernelProgram.wakeup t chan rest)
        (SleepToken.excuse { tok with plock := some p } chan (· = p)) := by
      refine Valid.command_bind (triple_releaseProc rfl awake) ?_
      rintro _ _ rfl
      refine Valid.mono (ih ?_ ?_) ?_
      · rfl
      · exact awake
      · rintro _ _ rfl
        exact SleepToken.excuse_cons plock
    refine Valid.bind _ (valid_acquireProc plock awake) ?_
    rintro _ _ rfl
    refine Valid.command_bind (triple_getProc_visit chan rfl awake) ?_
    rintro (proc : ProcState × Option Chan) _ (⟨rfl, rfl⟩ | ⟨o, rfl⟩)
    · dsimp only
      rw [if_pos rfl]
      refine Valid.command_bind (triple_wake chan rfl awake) ?_
      rintro _ _ rfl
      exact visited
    · have ne : proc ≠ (.sleeping, some chan) := o
      dsimp only
      rwa [if_neg ne]

theorem valid_wakeup_all [DecidableEq Chan]
    (full : ∀ p, p ∈ list) (plock : tok.plock = none) (awake : tok.entering = none)
    (only : ∀ c p, p ∈ tok.waking c → c = chan) : (sleepProtocol table prog d Allowed Keeps).Valid t
      (fun _ later => later = { tok with waking := fun _ => ∅ })
      (KernelProgram.wakeup t chan list) tok := by
  refine (valid_wakeup list plock awake).mono ?_
  rintro _ _ rfl
  exact SleepToken.excuse_all full only

theorem valid_wakeup_holding [DecidableEq Chan]
    (full : ∀ p, p ∈ list) (owing : tok.Owing data owed) (only : ∀ c, owed c → c = chan) :
    (sleepProtocol table prog d Allowed Keeps).Valid t (fun _ later => later.Holding data ∧
    later.away = tok.away ∧ later.user = tok.user) (KernelProgram.wakeup t chan list) tok := by
  refine (valid_wakeup_all full owing.plock owing.entering
    fun c p owes => only c (owing.waking c p owes)).mono ?_
  rintro _ _ rfl
  exact ⟨{ owing with waking := fun _ p => Set.notMem_empty p }, rfl, rfl⟩

theorem valid_kill (pid : Pid) (list : List Pid) (plock : tok.plock = none)
    (awake : tok.entering = none) : (sleepProtocol table prog d Allowed Keeps).Valid
    t (fun _ later => later = tok) (kill t pid list) tok := by
  induction list with
  | nil => exact rfl
  | cons p rest ih =>
    have released : (sleepProtocol table prog d Allowed Keeps).Triple t
        { tok with plock := some p } (.releaseProc p) fun _ later => later = tok := by
      refine Triple.mono (triple_releaseProc rfl ?_) ?_
      · exact awake
      · rintro _ _ rfl
        rw [← plock]
    refine bind _ (valid_acquireProc plock awake) ?_
    rintro _ _ rfl
    by_cases hit : p = pid
    · rw [if_pos hit]
      refine command_bind triple_setKilled ?_
      rintro _ _ rfl
      refine command_bind triple_getProc ?_
      rintro (proc : ProcState × Option Chan) _ rfl
      dsimp only
      by_cases asleep : proc.1 = .sleeping
      · rw [if_pos asleep]
        refine command_bind (triple_setState (by decide)) ?_
        rintro _ _ rfl
        exact released
      · rwa [if_neg asleep]
    · rw [if_neg hit]
      refine command_bind released ?_
      rintro _ _ rfl
      exact ih

theorem valid_scheduler (list : List Pid) (plock : tok.plock = none)
    (here : tok.away = false) (awake : tok.entering = none) :
    (sleepProtocol table prog d Allowed Keeps).Valid t
      (fun _ later => later = tok) (scheduler list) tok := by
  induction list with
  | nil => exact rfl
  | cons p rest ih =>
    have released : (sleepProtocol table prog d Allowed Keeps).Valid t (fun _ later => later = tok)
        (do
          step (.releaseProc p)
          scheduler rest)
        { tok with plock := some p } := by
      refine command_bind (triple_releaseProc rfl awake) ?_
      rintro _ _ rfl
      rwa [← plock]
    refine command_bind (triple_acquireProc plock awake) ?_
    rintro _ _ rfl
    refine command_bind triple_getProc ?_
    rintro (proc : ProcState × Option Chan) _ rfl
    dsimp only
    by_cases ready : proc.1 = .runnable
    · rw [if_pos ready]
      refine command_bind (triple_setState (by decide)) ?_
      rintro _ _ rfl
      refine command_bind (triple_swtch rfl awake here) ?_
      rintro _ _ rfl
      refine command_bind (triple_switched rfl rfl awake) ?_
      rintro _ _ rfl
      dsimp only
      rwa [← here]
    · rwa [if_neg ready]

theorem valid_forkret (plock : tok.plock = none) (away : tok.away = true)
    (awake : tok.entering = none) : (sleepProtocol table prog d Allowed Keeps).Valid t
      (fun _ later => later = { tok with away := false }) (forkret p) tok := by
  refine command_bind (triple_resume plock away awake) ?_
  rintro _ _ rfl
  refine Triple.mono (triple_releaseProc rfl ?_) ?_
  · exact awake
  · rintro _ _ rfl
    exact plock ▸ rfl

/-! ## Whole runs -/

/-- What is to be shown of a client's code: a call of it starts and ends at rest. -/
def ClientSound (table : List Pid)
    (prog : Context Pid Hart → Call → Value → KernelProgram client Chan Value)
    (d : Discipline Pid Hart Chan Data Aux User)
    (Allowed : Context Pid Hart → KernelCommand client Chan →
      Kernel Pid Chan Data Aux → Prop)
    (Keeps : Value → User → Prop) : Prop :=
  ∀ t call value (tok : SleepToken Pid Chan Data User), tok.Resting →
    (∀ p, t = .process p → tok.away = false) → Keeps value tok.user →
    (sleepProtocol table prog d Allowed Keeps).Valid t
      (fun value later => later.Resting ∧ later.away = tok.away ∧ Keeps value later.user)
      (prog t call value) tok

theorem valid_body (sound : ClientSound table prog d Allowed Keeps)
    (call : KernelCall Call Pid) {v : Value} (rests : tok.Resting)
    (here : tok.away = false) (keeps : Keeps v tok.user) :
    (sleepProtocol table prog d Allowed Keeps).Valid (.process p)
      (sleepProtocol table prog d Allowed Keeps).Idle
      ((kernelSystem client Chan table prog).body (.process p) call ⟨true, v⟩) tok := by
  cases call with
  | client call =>
    refine bind _ (sound _ call v tok rests (fun _ _ => here) keeps) ?_
    rintro later cur ⟨rested, same, kept⟩
    exact ⟨rested, same.trans here, kept⟩
  | kill pid =>
    refine bind _ (valid_kill pid table rests.plock rests.entering) ?_
    rintro _ _ rfl
    exact ⟨rests, here, keeps⟩
  | scheduler | tick q => exact ⟨rests, here, keeps⟩

omit [DecidableEq Hart] in
theorem body_unborn (p : Pid) (call : KernelCall Call Pid)
    (v : Value) : (kernelSystem client Chan table prog).body (.process p) call ⟨false, v⟩ = forkret
    p >>= fun _ => (kernelSystem client Chan table prog).body (.process p) call ⟨true, v⟩ := by
  cases call <;> rfl

theorem sleepProtocol_sound (sound : ClientSound table prog d Allowed Keeps) :
    (sleepProtocol table prog d Allowed Keeps).Sound := by
  rintro t call ⟨born, v⟩ tok ⟨rests, away, keeps⟩
  cases t with
  | scheduler hart =>
    cases call with
    | client call =>
      refine bind _ (sound _ call v tok rests (fun p no => by cases no) keeps) ?_
      rintro later cur ⟨rested, same, kept⟩
      exact ⟨rested, same.trans away, kept⟩
    | kill pid => exact ⟨rests, away, keeps⟩
    | scheduler =>
      cases born with
      | false => exact ⟨rests, away, keeps⟩
      | true =>
        refine bind _ (valid_scheduler table rests.plock away rests.entering) ?_
        rintro _ _ rfl
        exact ⟨rests, away, keeps⟩
    | tick p =>
      refine command_bind triple_tick ?_
      rintro _ _ rfl
      exact ⟨rests, away, keeps⟩
  | process p =>
    cases born with
    | true => exact valid_body sound call rests away keeps
    | false =>
      rw [body_unborn]
      refine bind _ (valid_forkret rests.plock away rests.entering) ?_
      rintro _ _ rfl
      exact valid_body sound call { rests with } rfl keeps

/-- The token of a thread before anything has happened. -/
def SleepToken.start (users : Context Pid Hart → User) (t : Context Pid Hart) :
    SleepToken Pid Chan Data User where
  lk := false
  view := none
  plock := none
  away :=
    match t with
    | .process _ => true
    | .scheduler _ => false
  chan := none
  entering := none
  waking _ := ∅
  user := users t

omit [DecidableEq Hart] in
theorem SleepInv.start {aux : Aux} {users : Context Pid Hart → User}
    (extra : d.Extra data aux users) :
    SleepInv d (Kernel.start data aux) (SleepToken.start users) where
  locks :=
    { lk := Exclusive.unheld fun _ => rfl
      plock := fun _ => Exclusive.unheld fun _ => rfl
      transit := fun _ moving => absurd rfl moving
      noff := fun _ => rfl }
  sleepers :=
    { view := fun _ _ known => by cases known
      chan := fun _ => rfl
      entering := fun _ => rfl
      locked := fun _ _ enters => by cases enters
      permits := fun _ _ either => by rcases either with no | no <;> cases no
      attended := fun _ _ waits => by rcases waits with no | ⟨no, _⟩ <;> cases no
      owes := fun _ _ p owed => absurd owed (notMem_empty p) }
  extra := extra

theorem reachable_sleepInv (sound : ClientSound table prog d Allowed Keeps) {aux : Aux}
    (users : Context Pid Hart → User)
    {values : Context Pid Hart → Value} (extra : d.Extra data aux users)
    (keeps : ∀ t, Keeps (values t) (users t)) {pool : Pool (kernelSystem client Chan table prog)}
    (reach : (kernelSystem client Chan table prog).Reachable Allowed
    (kernelStart client Chan table prog data aux values) pool) :
    ∃ ts, (sleepProtocol table prog d Allowed Keeps).Fits pool ts := by
  refine Protocol.reachable_fits (sleepProtocol_sound sound)
    (Protocol.Fits.idle (SleepInv.start extra) ?_) reach
  intro t
  refine ⟨⟨rfl, rfl, rfl, rfl, rfl, fun _ p => Set.notMem_empty p⟩, ?_, keeps t⟩
  cases t <;> rfl

end

end Xv6
