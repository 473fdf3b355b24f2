import Xv6.Proc.SleepInvariant

/-! # The steps of sleep and wakeup

The whole invariant, and what each command does to it and to the token of the
thread that executes it. -/

namespace Xv6

open Foundation Function Kernel Or ProcEntry

structure SleepInv {Pid Hart Chan Data Aux User : Type} [DecidableEq Pid]
    (d : Discipline Pid Hart Chan Data Aux User)
    (s : Kernel Pid Chan Data Aux)
    (ts : Context Pid Hart → SleepToken Pid Chan Data User) : Prop where
  locks : KernelLocks s ts
  sleepers : Sleepers d s ts
  extra : d.Extra s.data s.aux fun t => (ts t).user

namespace Discipline

variable {Pid Hart Chan Data Aux User : Type}

/-- Nobody can wait on a channel while the data are these. -/
def Vacant (d : Discipline Pid Hart Chan Data Aux User) (chan : Chan)
    (data : Data) : Prop :=
  ∀ aux users, d.Extra data aux users →
    ∀ p, ¬d.Permits (users (.process p)) chan

end Discipline

/-! ## Steps -/

namespace SleepInv

variable {Pid Hart Chan Data Aux User : Type} [DecidableEq Pid] [DecidableEq Hart]
  {d : Discipline Pid Hart Chan Data Aux User} {s later : Kernel Pid Chan Data Aux}
  {ts : Context Pid Hart → SleepToken Pid Chan Data User}
  {t : Context Pid Hart} {tok : SleepToken Pid Chan Data User}

theorem users_same (same : tok.user = (ts t).user) :
    (fun o => (update ts t tok o).user) = fun o => (ts o).user := by
  funext o
  by_cases here : o = t
  · rw [here, update_self, same]
  · rw [update_of_ne here]

theorem of_parts (inv : SleepInv d s ts)
    (data : later.data = s.data) (aux : later.aux = s.aux) (user : tok.user = (ts t).user)
    (locks : KernelLocks later (update ts t tok)) (sleepers : Sleepers d later (update ts t tok)) :
    SleepInv d later (update ts t tok) where
  locks := locks
  sleepers := sleepers
  extra := by
    rw [data, aux, users_same user]
    exact inv.extra

omit [DecidableEq Hart] in
theorem silent (inv : SleepInv d s ts) (lk : later.lk = s.lk)
    (data : later.data = s.data) (aux : later.aux = s.aux)
    (lock : ∀ p, (later.procs p).lock = (s.procs p).lock)
    (swtch : ∀ p, (later.procs p).swtch = (s.procs p).swtch)
    (noff : ∀ p, (later.procs p).noff = (s.procs p).noff)
    (chan : ∀ p, (later.procs p).chan = (s.procs p).chan)
    (enters : ∀ p, (later.procs p).entering = (s.procs p).entering)
    (waits : ∀ p c, (later.procs p).Waits c → (s.procs p).Waits c) : SleepInv d later ts where
  locks := inv.locks.congr lk lock swtch noff
  sleepers :=
    { inv.sleepers with
      view := by
        rw [data]
        exact inv.sleepers.view
      chan := by
        intro p
        rw [chan p]
        exact inv.sleepers.chan p
      entering := by
        intro p
        rw [enters p]
        exact inv.sleepers.entering p
      attended := by
        intro p c waiting
        rw [data]
        exact inv.sleepers.attended p c (waits p c waiting)
      owes := by
        rw [data, aux]
        exact inv.sleepers.owes }
  extra := by
    rw [data, aux]
    exact inv.extra

variable {p : Pid}

omit [DecidableEq Hart] in
theorem entering_of_plock (inv : SleepInv d s ts)
    (h : (ts t).plock = some p) (awake : (ts t).entering = none) : (s.procs p).entering = none := by
  rw [inv.sleepers.entering p]
  cases enters : (ts (.process p)).entering with
  | none => rfl
  | some chan =>
    have own := inv.sleepers.locked p chan enters
    have same := inv.locks.holder h own
    rw [same, awake] at enters
    cases enters

theorem acquire (inv : SleepInv d s ts) (free : s.lk = false) :
    SleepInv d { s.pushOff t with lk := true } (update ts t
        { ts t with lk := true, view := some s.data }) := by
  have chan := s.countOff_keeps ProcEntry.chan (· + 1) t fun _ _ => rfl
  have entering := s.countOff_keeps ProcEntry.entering (· + 1) t fun _ _ => rfl
  have waits := s.countOff_keeps ProcEntry.Waits (· + 1) t fun _ _ => rfl
  apply inv.of_parts
  · exact countOff_data _ _
  · exact countOff_aux _ _
  · rfl
  · exact inv.locks.acquire free rfl rfl rfl
  apply inv.sleepers.transition
  · exact countOff_data _ _
  · exact countOff_aux _ _
  · intro v known
    exact ⟨rfl, (Option.some.inj known).symm⟩
  · exact inv.sleepers.chan.keep chan rfl
  · exact inv.sleepers.entering.keep entering rfl
  · intro p c here enters
    rw [here] at enters ⊢
    exact inv.sleepers.locked p c enters
  · intro p c here either
    rw [here] at either ⊢
    exact inv.sleepers.permits p c either
  · intro p c waiting
    exact inl (waits p ▸ waiting : (s.procs p).Waits c)
  · intro p c owed
    exact inl owed
  · intro p c owed
    exact ⟨owed, inl rfl⟩

variable {waking : Chan → Set Pid}

section

variable (inv : SleepInv d s ts)
include inv

theorem release {data : Data} {entering : Option Chan}
    (h : (ts t).lk = true) (known : (ts t).view = some data)
    (sleeps : ∀ c, entering = some c → ¬d.Cond c data ∧ d.Permits (ts t).user c ∧
      ∀ p, t = .process p → (ts t).plock = some p)
    (kept : ∀ p c, p ∈ (ts t).waking c → p ∈ waking c ∨ d.Vacant c data)
    (fewer : ∀ p c, p ∈ waking c → p ∈ (ts t).waking c ∧ d.early) :
    SleepInv d { (s.popOff t).setEntering entering t with lk := false } (update ts t
        { ts t with
          lk := false, view := none, entering := entering, waking := waking }) := by
  obtain ⟨-, rfl⟩ := inv.sleepers.view t data known
  have sameData : ((s.popOff t).setEntering entering t).data = s.data :=
    (setEntering_data _ _).trans (countOff_data _ _)
  have sameAux : ((s.popOff t).setEntering entering t).aux = s.aux :=
    (setEntering_aux _ _).trans (countOff_aux _ _)
  have chan (p : Pid) : (((s.popOff t).setEntering entering t).procs p).chan = (s.procs p).chan :=
    (setEntering_keeps _ ProcEntry.chan entering t (fun _ => rfl) p).trans
      (s.countOff_keeps ProcEntry.chan (· - 1) t (fun _ _ => rfl) p)
  have enters : Mirrors ProcEntry.entering SleepToken.entering
      ((s.popOff t).setEntering entering t).procs (update ts t
        { ts t with
          lk := false, view := none, entering := entering, waking := waking }) := by
    apply inv.sleepers.entering.change
    · intro p ne
      rw [setEntering_ne _ ne, popOff, countOff_ne _ ne]
    · intro p here
      rw [setEntering_self _ here]
  -- A process that waits afterwards waited before, or is the one that goes to sleep.
  have waits (p : Pid) (c : Chan)
      (waiting : (((s.popOff t).setEntering entering t).procs p).Waits c) :
      (s.procs p).Waits c ∨ t = .process p ∧ entering = some c := by
    by_cases here : .process p = t
    · rw [setEntering_self _ here.symm, popOff, countOff_self _ here.symm] at waiting
      rcases waiting with enters | asleep
      · exact inr ⟨here.symm, enters⟩
      · exact inl (inr asleep)
    · rw [setEntering_ne _ here, popOff, countOff_ne _ here] at waiting
      exact inl waiting
  apply inv.of_parts
  · exact sameData
  · exact sameAux
  · rfl
  · have released : KernelLocks { s.popOff t with lk := false } (update ts t
          { ts t with
            lk := false, view := none, entering := entering, waking := waking }) :=
      inv.locks.release h rfl rfl rfl
    apply released.congr
    · rfl
    · exact setEntering_keeps _ lock entering t fun _ => rfl
    · exact setEntering_keeps _ swtch entering t fun _ => rfl
    · exact setEntering_keeps _ noff entering t fun _ => rfl
  · apply inv.sleepers.transition
    · exact sameData
    · exact sameAux
    · rintro v ⟨⟩
    · exact inv.sleepers.chan.keep chan rfl
    · exact enters
    · intro p c here entersNow
      exact (sleeps c entersNow).2.2 p here
    · rintro p c here (asleep | entersNow)
      · rw [here] at asleep ⊢
        exact inv.sleepers.permits p c (inl asleep)
      · exact (sleeps c entersNow).2.1
    · intro p c waiting
      rcases waits p c waiting with old | ⟨_, entersNow⟩
      · exact inl old
      · exact inr (sleeps c entersNow).1
    · intro p c owed
      rcases kept p c owed with still | vacant
      · exact inl still
      right
      intro waiting
      apply vacant s.aux _ inv.extra p
      rcases waits p c waiting with old | ⟨here, entersNow⟩
      · exact inv.sleepers.permitted old
      · rw [← here]
        exact (sleeps c entersNow).2.1
    · intro p c owed
      exact ⟨(fewer p c owed).1, inr (fewer p c owed).2⟩

theorem of_locks (locks : KernelLocks later (update ts t tok))
    (data : later.data = s.data) (aux : later.aux = s.aux)
    (chan : ∀ p, (later.procs p).chan = (s.procs p).chan)
    (entering : ∀ p, (later.procs p).entering = (s.procs p).entering)
    (waits : ∀ p, (later.procs p).Waits = (s.procs p).Waits) (awake : (ts t).entering = none)
    (same : tok = { ts t with plock := tok.plock, away := tok.away }) :
    SleepInv d later (update ts t tok) := by
  apply inv.of_parts data aux
  · rw [same]
  · exact locks
  apply inv.sleepers.quiet data aux chan entering
  · intro p c waiting
    exact waits p ▸ waiting
  · intro p c here enters
    rw [same, awake] at enters
    cases enters
  · exact same

theorem acquireProc
    (free : (s.procs p).lock = false) (old : (ts t).plock = none) (awake : (ts t).entering = none) :
    SleepInv d ((s.modify p fun proc => { proc with lock := true }).pushOff t)
      (update ts t { ts t with plock := some p }) := by
  apply inv.of_locks
  · exact inv.locks.acquireProc free old rfl rfl rfl
  · exact countOff_data _ _
  · exact countOff_aux _ _
  · intro q
    exact (countOff_keeps _ chan _ t (fun _ _ => rfl) q).trans (s.modify_keeps chan rfl q)
  · intro q
    exact (countOff_keeps _ entering _ t (fun _ _ => rfl) q).trans (s.modify_keeps entering rfl q)
  · intro q
    exact (countOff_keeps _ ProcEntry.Waits _ t (fun _ _ => rfl) q).trans
      (s.modify_keeps ProcEntry.Waits rfl q)
  · exact awake
  · rfl

theorem releaseProc (h : (ts t).plock = some p) (awake : (ts t).entering = none) : SleepInv d
      ((s.modify p fun proc => { proc with lock := false }).popOff t)
      (update ts t { ts t with plock := none }) := by
  apply inv.of_locks
  · exact inv.locks.releaseProc h rfl rfl rfl
  · exact countOff_data _ _
  · exact countOff_aux _ _
  · intro q
    exact (countOff_keeps _ chan _ t (fun _ _ => rfl) q).trans (s.modify_keeps chan rfl q)
  · intro q
    exact (countOff_keeps _ entering _ t (fun _ _ => rfl) q).trans (s.modify_keeps entering rfl q)
  · intro q
    exact (countOff_keeps _ ProcEntry.Waits _ t (fun _ _ => rfl) q).trans
      (s.modify_keeps ProcEntry.Waits rfl q)
  · exact awake
  · rfl

theorem swtch
    (h : (ts t).plock = some p) (awake : (ts t).entering = none) (here : (ts t).away = false) :
    SleepInv d (s.modify p fun proc => { proc with swtch := .toProcess })
      (update ts t { ts t with plock := none, away := true }) := by
  apply inv.of_locks
  · exact inv.locks.leave h rfl rfl rfl rfl here rfl
  · rfl
  · rfl
  · exact s.modify_keeps chan rfl
  · exact s.modify_keeps entering rfl
  · exact s.modify_keeps ProcEntry.Waits rfl
  · exact awake
  · rfl

theorem enter (moving : (s.procs p).swtch ≠ .settled) (old : (ts t).plock = none)
    (away : (ts t).away = true) (awake : (ts t).entering = none) :
    SleepInv d (s.modify p fun proc => { proc with swtch := .settled }) (update ts t
        { ts t with plock := some p, away := false }) := by
  apply inv.of_locks
  · exact inv.locks.enter moving old rfl rfl away rfl
  · rfl
  · rfl
  · exact s.modify_keeps chan rfl
  · exact s.modify_keeps entering rfl
  · exact s.modify_keeps ProcEntry.Waits rfl
  · exact awake
  · rfl

theorem sched (self : t = .process p) (h : (ts t).plock = some p) (here : (ts t).away = false) :
    SleepInv d (s.modify p fun proc => { proc with swtch := .toScheduler, entering := none })
      (update ts t
        { ts t with plock := none, away := true, entering := none }) := by
  apply inv.of_parts
  · rfl
  · rfl
  · rfl
  · exact inv.locks.leave h rfl rfl rfl rfl here rfl
  apply inv.sleepers.transition
  · rfl
  · rfl
  · intro v known
    exact inv.sleepers.view t v known
  · exact inv.sleepers.chan.keep (s.modify_keeps chan rfl) rfl
  · apply inv.sleepers.entering.change
    · intro q ne
      have o : q ≠ p := fun same => ne (self.symm ▸ congrArg Context.process same)
      rw [modify_ne o]
    intro q at_q
    rw [self] at at_q
    cases at_q
    rw [modify_self]
  · rintro q c _ ⟨⟩
  · rintro q c at_q (asleep | enters)
    · rw [at_q] at asleep ⊢
      exact inv.sleepers.permits q c (inl asleep)
    · cases enters
  · intro q c waits
    by_cases same : q = p
    · rw [same, modify_self] at waits
      rw [same]
      rcases waits with enters | asleep
      · cases enters
      · exact inl (inr asleep)
    · rw [modify_ne same] at waits
      exact inl waits
  · intro q c owed
    exact inl owed
  · intro q c owed
    exact ⟨owed, (inv.sleepers.owes t c q owed).1⟩

theorem setChan {v : Option Chan} (self : t = .process p)
    (goes : ∀ c, v = some c → (ts t).entering = some c) :
    SleepInv d (s.modify p fun proc => { proc with chan := v })
      (update ts t { ts t with chan := v }) := by
  apply inv.of_parts
  · rfl
  · rfl
  · rfl
  · have kept : KernelLocks s (update ts t { ts t with chan := v }) :=
      inv.locks.token_same rfl rfl rfl
    apply kept.congr
    · rfl
    · exact s.modify_keeps lock rfl
    · exact s.modify_keeps ProcEntry.swtch rfl
    · exact s.modify_keeps noff rfl
  · apply inv.sleepers.transition
    · rfl
    · rfl
    · intro data known
      exact inv.sleepers.view t data known
    · apply inv.sleepers.chan.change
      · intro q ne
        have o : q ≠ p := fun same => ne (self.symm ▸ congrArg Context.process same)
        rw [modify_ne o]
      intro q at_q
      rw [self] at at_q
      cases at_q
      rw [modify_self]
    · exact inv.sleepers.entering.keep (s.modify_keeps entering rfl) rfl
    · intro q c at_q enters
      rw [at_q] at enters ⊢
      exact inv.sleepers.locked q c enters
    · intro q c at_q either
      have enters : (ts t).entering = some c := by
        rcases either with asleep | enters
        · exact goes c asleep
        · exact enters
      rw [at_q] at enters ⊢
      exact inv.sleepers.permits q c (inr enters)
    · intro q c waits
      left
      by_cases same : q = p
      · rw [same, modify_self] at waits
        rw [same]
        rcases waits with enters | ⟨_, asleep⟩
        · exact inl enters
        have enters := goes c asleep
        rw [self] at enters
        exact inl ((inv.sleepers.entering p).trans enters)
      · rwa [modify_ne same] at waits
    · intro q c owed
      exact inl owed
    · intro q c owed
      exact ⟨owed, (inv.sleepers.owes t c q owed).1⟩

section

omit [DecidableEq Hart]

theorem modify {change : ProcEntry Chan → ProcEntry Chan}
    (lock : (change (s.procs p)).lock = (s.procs p).lock)
    (swtch : (change (s.procs p)).swtch = (s.procs p).swtch)
    (noff : (change (s.procs p)).noff = (s.procs p).noff)
    (chan : (change (s.procs p)).chan = (s.procs p).chan)
    (enters : (change (s.procs p)).entering = (s.procs p).entering)
    (waits : ∀ c, (change (s.procs p)).Waits c → (s.procs p).Waits c) :
    SleepInv d (s.modify p change) ts := by
  apply inv.silent
  · rfl
  · rfl
  · rfl
  · exact s.modify_keeps ProcEntry.lock lock
  · exact s.modify_keeps ProcEntry.swtch swtch
  · exact s.modify_keeps ProcEntry.noff noff
  · exact s.modify_keeps ProcEntry.chan chan
  · exact s.modify_keeps entering enters
  intro q c waiting
  by_cases same : q = p
  · rw [same, modify_self] at waiting
    rw [same]
    exact waits c waiting
  · rwa [modify_ne same] at waiting

theorem setState (p : Pid) {v : ProcState} (awake : v ≠ .sleeping) :
    SleepInv d (s.modify p fun proc => { proc with state := v }) ts := by
  refine inv.modify rfl rfl rfl rfl rfl ?_
  rintro c (enters | ⟨asleep, _⟩)
  · exact inl enters
  · exact absurd asleep awake

theorem setSleeping {c : Chan}
    (chan : (ts (.process p)).chan = some c) (entering : (ts (.process p)).entering = some c) :
    SleepInv d (s.modify p fun proc => { proc with state := .sleeping }) ts := by
  refine inv.modify rfl rfl rfl rfl rfl ?_
  rintro o (enters | ⟨_, asleep⟩)
  · exact inl enters
  · have same := (inv.sleepers.chan p).symm.trans asleep
    rw [chan] at same
    cases same
    exact inl ((inv.sleepers.entering p).trans entering)

end

theorem excuse {chan : Chan} {visited : Pid → Prop} (awake : ∀ p, visited p →
    ¬(s.procs p).Waits chan) : SleepInv d s (update ts t ((ts t).excuse chan visited)) := by
  apply inv.of_parts
  · rfl
  · rfl
  · rfl
  · exact inv.locks.token_same rfl rfl rfl
  apply inv.sleepers.transition
  · rfl
  · rfl
  · intro v known
    exact inv.sleepers.view t v known
  · exact inv.sleepers.chan.keep (fun _ => rfl) rfl
  · exact inv.sleepers.entering.keep (fun _ => rfl) rfl
  · intro q c at_q enters
    rw [at_q] at enters ⊢
    exact inv.sleepers.locked q c enters
  · intro q c at_q either
    rw [at_q] at either ⊢
    exact inv.sleepers.permits q c either
  · intro q c waits
    exact inl waits
  · intro q c owed
    by_cases done : c = chan ∧ visited q
    · exact inr (done.1 ▸ awake q done.2)
    · exact inl ⟨owed, fun same visited => done ⟨same, visited⟩⟩
  · intro q c owed
    exact ⟨owed.1, (inv.sleepers.owes t c q owed.1).1⟩

end

variable {aux : Aux} {user : User}

section

variable (inv : SleepInv d s ts)
include inv

theorem client_step {v : Data} {view : Option Data}
    (seen : ∀ data, view = some data → (ts t).lk = true ∧ data = v)
    (othersSeen : ∀ o data, o ≠ t → (ts o).view = some data → data = v)
    (extra : d.Extra v aux (update (fun o => (ts o).user) t user))
    (permits : ∀ c, (ts t).chan = some c ∨ (ts t).entering = some c → d.Permits user c)
    (more : ∀ p c, p ∈ (ts t).waking c → p ∈ waking c)
    (met : ∀ c, d.Cond c v → d.Cond c s.data ∨ ∀ p, p ∈ waking c)
    (owes : ∀ p c, p ∈ waking c → ((ts t).lk = true ∨ d.early) ∧ d.Owes v aux t c)
    (others : ∀ o c, o ≠ t → d.Owes s.data s.aux o c → d.Owes v aux o c) :
    SleepInv d { s with data := v, aux := aux } (update ts t
        { ts t with view := view, waking := waking, user := user }) where
  locks := by
    have kept : KernelLocks s (update ts t
        { ts t with view := view, waking := waking, user := user }) :=
      inv.locks.token_same rfl rfl rfl
    exact kept.congr rfl (fun _ => rfl) (fun _ => rfl) (fun _ => rfl)
  sleepers :=
    { view := by
        intro o data known
        by_cases here : o = t
        · rw [here, update_self] at known ⊢
          exact seen data known
        · rw [update_of_ne here] at known ⊢
          exact ⟨(inv.sleepers.view o data known).1, othersSeen o data here known⟩
      chan := inv.sleepers.chan.keep (fun _ => rfl) rfl
      entering := inv.sleepers.entering.keep (fun _ => rfl) rfl
      locked := by
        intro p c enters
        by_cases here : .process p = t
        · rw [here, update_self] at enters ⊢
          rw [← here] at enters ⊢
          exact inv.sleepers.locked p c enters
        · rw [update_of_ne here] at enters ⊢
          exact inv.sleepers.locked p c enters
      permits := by
        intro p c either
        by_cases here : .process p = t
        · rw [here, update_self] at either ⊢
          exact permits c either
        · rw [update_of_ne here] at either ⊢
          exact inv.sleepers.permits p c either
      attended := by
        intro p c waits
        by_cases s' : d.Cond c v
        · right
          rcases met c s' with old | all
          · rcases inv.sleepers.attended p c waits with unmet | ⟨o, owed⟩
            · exact absurd old unmet
            by_cases here : o = t
            · rw [here] at owed
              exact ⟨t, by rw [update_self]; exact more p c owed⟩
            · exact ⟨o, by rwa [update_of_ne here]⟩
          · exact ⟨t, by rw [update_self]; exact all p⟩
        · exact inl s'
      owes := by
        intro o c p owed
        by_cases here : o = t
        · rw [here, update_self] at owed ⊢
          exact owes p c owed
        rw [update_of_ne here] at owed ⊢
        obtain ⟨late, old⟩ := inv.sleepers.owes o c p owed
        exact ⟨late, others o c here old⟩ }
  extra := by
    have users : (fun o => (update ts t
        { ts t with view := view, waking := waking, user := user } o).user) =
          update (fun o => (ts o).user) t user := by
      funext o
      by_cases here : o = t
      · rw [here, update_self, update_self]
      · rw [update_of_ne here, update_of_ne here]
    rwa [users]

theorem access {data v : Data} (known : (ts t).view = some data) (extra : d.Extra v aux
      (update (fun o => (ts o).user) t user))
    (permits : ∀ c, (ts t).chan = some c ∨ (ts t).entering = some c → d.Permits user c)
    (more : ∀ p c, p ∈ (ts t).waking c → p ∈ waking c)
    (met : ∀ c, d.Cond c v → d.Cond c data ∨ ∀ p, p ∈ waking c)
    (owes : ∀ p c, p ∈ waking c → d.Owes v aux t c) (others : ∀ o c, o ≠ t → d.Owes data s.aux o c →
      d.Owes v aux o c) : SleepInv d { s with data := v, aux := aux }
      (update ts t
        { ts t with view := some v, waking := waking, user := user }) := by
  obtain ⟨h, rfl⟩ := inv.sleepers.view t data known
  apply inv.client_step
  · intro data seen
    exact ⟨h, (Option.some.inj seen).symm⟩
  · intro o data ne seen
    have both := (inv.sleepers.view o data seen).1
    exact absurd (inv.locks.lk.alone o t both h) ne
  · exact extra
  · exact permits
  · exact more
  · exact met
  · intro p c owed
    exact ⟨inl h, owes p c owed⟩
  · exact others

theorem operate (extra : d.Extra s.data aux (update (fun o => (ts o).user) t user))
    (permits : ∀ c, (ts t).chan = some c ∨ (ts t).entering = some c → d.Permits user c)
    (owes : ∀ p c, p ∈ (ts t).waking c → d.Owes s.data aux t c)
    (others : ∀ o c, o ≠ t → d.Owes s.data s.aux o c → d.Owes s.data aux o c) :
    SleepInv d { s with aux := aux } (update ts t { ts t with user := user }) := by
  apply inv.client_step
  · intro data seen
    exact inv.sleepers.view t data seen
  · intro o data _ seen
    exact (inv.sleepers.view o data seen).2
  · exact extra
  · exact permits
  · intro p c owed
    exact owed
  · intro c met
    exact inl met
  · intro p c owed
    exact ⟨(inv.sleepers.owes t c p owed).1, owes p c owed⟩
  · exact others

omit [DecidableEq Hart] in
theorem not_waits {chan : Chan} (met : d.Cond chan s.data)
    (none : ∀ t p, p ∉ (ts t).waking chan) (p : Pid) : ¬(s.procs p).Waits chan := by
  intro waits
  rcases inv.sleepers.attended p chan waits with unmet | ⟨t, owed⟩
  · exact unmet met
  · exact none t p owed

end

end SleepInv

end Xv6
