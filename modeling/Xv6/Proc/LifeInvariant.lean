import Xv6.Proc.Lifecycle

/-! # What holds of the process table

The holder of a process's lock has a view of the process: its fields as they are,
and what a scan of the table has found out. The invariant ties views, harts and the
states of processes together, and parents to their children. -/

namespace Xv6

open Foundation Function

variable {Slot Hart : Type} [DecidableEq Slot]

/-! ## Tokens -/

/-- A process that is neither free nor dead. -/
def ProcStatus.Alive (s : ProcStatus) : Prop :=
  s ≠ .unused ∧ s ≠ .zombie

/-- `chan == p` and `SLEEPING`: the process sleeps in `wait`. -/
def ProcInfo.Waiting (proc : ProcInfo Slot) (p : Slot) : Prop :=
  proc.state = .sleeping ∧ proc.chan = some (.proc p)

/-- What the holder of a process's lock knows. While a process scans the table with
its own lock held, `clean` are the slots that it has found not to be dead children of
its own, `orphaned` those that it has found not to be its children, and `child` is a
child that it has found and not looked at. -/
structure View (Slot : Type) where
  info : ProcInfo Slot
  clean : List Slot
  orphaned : List Slot
  child : Option Slot

/-- The process that a scheduler has chosen, before and after it has switched. -/
inductive Seat (Slot : Type)
  | none
  | seated (p : Slot)
  | away (p : Slot)
deriving DecidableEq

/-- What a thread holds. A process is `resuming` from when it has switched away until
it releases the lock that the scheduler has left it; `original` is the parent that
`exit` has read. -/
structure LifeToken (Slot : Type) where
  views : Slot → Option (View Slot)
  seat : Seat Slot
  resuming : Bool
  original : Option Slot

namespace LifeToken

/-- The token of a thread that holds nothing. -/
def idle (resuming : Bool) : LifeToken Slot where
  views _ := none
  seat := .none
  resuming := resuming
  original := none

def see (tok : LifeToken Slot) (p : Slot) (view : View Slot) : LifeToken Slot :=
  { tok with views := update tok.views p (some view) }

def forget (tok : LifeToken Slot) (p : Slot) : LifeToken Slot :=
  { tok with views := update tok.views p none }

@[simp] theorem see_self (tok : LifeToken Slot) (p : Slot) (view : View Slot) :
    (tok.see p view).views p = some view := update_self _ _ _

theorem see_ne (tok : LifeToken Slot) {p q : Slot} (ne : q ≠ p) (view : View Slot) :
    (tok.see p view).views q = tok.views q := update_of_ne ne _ _

@[simp] theorem forget_self (tok : LifeToken Slot) (p : Slot) : (tok.forget p).views p = none :=
  update_self _ _ _

theorem forget_ne (tok : LifeToken Slot) {p q : Slot} (ne : q ≠ p) :
    (tok.forget p).views q = tok.views q := update_of_ne ne _ _

end LifeToken

/-! ## The invariant -/

/-- Harts, schedulers and the states of processes. -/
structure Harts (table : ProcTable Slot Hart) (ts : Context Slot Hart → LifeToken Slot) :
    Prop where
  onHart : ∀ p h, table.cpu p = some h → table.scheduling h = false ∧ table.cpus h = some p
  unseated : ∀ h, (ts (.scheduler h)).seat = .none → table.cpus h = none
  seated : ∀ h p, (ts (.scheduler h)).seat = .seated p →
    table.cpus h = some p ∧ table.cpu p = none ∧ (ts (.scheduler h)).views p ≠ none
  away : ∀ h p, (ts (.scheduler h)).seat = .away p → table.cpus h = some p ∧
    (table.cpu p = some h ∨
      table.cpu p = none ∧ table.scheduling h = true ∧ table.lock p = some h)
  running : ∀ p, (table.procs p).state = .running → table.cpu p = none →
    ∃ h, (ts (.scheduler h)).seat = .seated p
  onCpu : ∀ p h, table.cpu p = some h →
    (table.procs p).state = .running ∨ (ts (.process p)).views p ≠ none
  resume : ∀ p h, table.cpu p = some h → (ts (.process p)).resuming = true →
    table.lock p = some h ∧ (table.procs p).state = .running

/-- Every view is what the slot holds, and the lock is with the thread's hart. -/
def Seen (table : ProcTable Slot Hart) (ts : Context Slot Hart → LifeToken Slot) : Prop :=
  ∀ t p view, (ts t).views p = some view →
    table.procs p = view.info ∧ ∃ h, table.hart t = some h ∧ table.lock p = some h

/-- Parents and children. A free slot has a parent only while `fork` fills it. -/
structure Family (init : Slot) (procs : Slot → ProcInfo Slot)
    (ts : Context Slot Hart → LifeToken Slot) : Prop where
  parent : ∀ p q, (procs p).parent = some q → (procs q).state.Alive
  child : ∀ p, p ≠ init → (procs p).state ≠ .unused → (procs p).parent ≠ none
  init : (procs init).state.Alive
  free : ∀ p q, (procs p).state = .unused → (procs p).parent = some q →
    (ts (.process q)).views p ≠ none

/-- No dead child of a process that sleeps in `wait`. -/
def Attentive (init : Slot) (procs : Slot → ProcInfo Slot) : Prop :=
  ∀ p, p ≠ init → (procs p).Waiting p → ∀ q, (procs q).parent = some p →
    (procs q).state ≠ .zombie

/-- What a process has found out in a scan under its own lock. -/
structure Scanned (init : Slot) (procs : Slot → ProcInfo Slot) (p : Slot) (view : View Slot) :
    Prop where
  clean : p ≠ init → ∀ q ∈ view.clean, (procs q).parent = some p → (procs q).state ≠ .zombie
  orphaned : p ≠ init → ∀ q ∈ view.orphaned, (procs q).parent ≠ some p
  child : ∀ q, view.child = some q → (procs q).parent = some p

/-- The parent that `exit` has read is still the parent, unless it was `initproc`'s
turn. -/
def Originals (init : Slot) (procs : Slot → ProcInfo Slot)
    (ts : Context Slot Hart → LifeToken Slot) : Prop :=
  ∀ p q, (ts (.process p)).original = some q → (procs p).state.Alive ∧
    ((procs p).parent = some q ∨ (procs p).parent = some init)

/-- The deaths in a slot, in order, are those that were reaped and the one that was
not; and `wait` reaps children, and returns and stores what it finds. -/
structure Accounted (procs : Slot → ProcInfo Slot) (deaths : List (Death Slot))
    (reaps : List (Reap Slot)) : Prop where
  deaths : ∀ p, deaths.filter (·.slot = p) =
    (reaps.map Reap.death).filter (·.slot = p) ++
      if (procs p).state = .zombie then [(procs p).death p] else []
  reaps : ∀ reap ∈ reaps, reap.parent = some reap.waiter ∧
    reap.result.returned = reap.death.pid ∧
    reap.result.stored = if reap.result.asked then some reap.death.xstate else none

/-- Free slots are not marked as killed. -/
def Unmarked (procs : Slot → ProcInfo Slot) : Prop :=
  ∀ p, (procs p).state = .unused → (procs p).killed = false

/-- The invariant; `flagged` says whether `kill` only reaches processes that exist. -/
structure LifeInv (init : Slot) (flagged : Prop) (table : ProcTable Slot Hart)
    (ts : Context Slot Hart → LifeToken Slot) : Prop where
  harts : Harts table ts
  seen : Seen table ts
  family : Family init table.procs ts
  attentive : Attentive init table.procs
  scanned : ∀ p view, (ts (.process p)).views p = some view →
    Scanned init table.procs p view
  originals : Originals init table.procs ts
  accounted : Accounted table.procs table.deaths table.reaps
  unmarked : flagged → Unmarked table.procs

/-! ## One thread's token changes -/

section

variable [DecidableEq Hart]

theorem LifeToken.update_field {α : Type} (ts : Context Slot Hart → LifeToken Slot)
    (t : Context Slot Hart) {later : LifeToken Slot} (field : LifeToken Slot → α)
    (same : field later = field (ts t)) (other : Context Slot Hart) :
    field (update ts t later other) = field (ts other) := by
  by_cases here : other = t
  · rw [here, update_self, same]
  · rw [update_of_ne here]

end

/-! ## Harts and views -/

section

variable {init : Slot} {flagged : Prop} {table after : ProcTable Slot Hart}
  {ts : Context Slot Hart → LifeToken Slot} {t other : Context Slot Hart}
  {tok later : LifeToken Slot} {p q : Slot} {h : Hart} {view : View Slot}

omit [DecidableEq Slot] in
theorem Harts.hart_inj (harts : Harts table ts) (fst : table.hart t = some h)
    (snd : table.hart other = some h) : t = other := by
  have apart : ∀ {p : Slot} {g : Hart}, table.hart (.process p) = some h →
      table.hart (.scheduler g) = some h → False := by
    intro p g onHart scheduling
    have busy := (harts.onHart p h onHart).1
    simp only [ProcTable.hart] at scheduling
    split at scheduling
    · next free =>
      cases scheduling
      rw [busy] at free
      cases free
    · cases scheduling
  cases t with
  | process p =>
    cases other with
    | process q =>
      have one := (harts.onHart p h fst).2
      have two := (harts.onHart q h snd).2
      rw [one] at two
      cases two
      rfl
    | scheduler g => exact (apart fst snd).elim
  | scheduler g =>
    cases other with
    | process q => exact (apart snd fst).elim
    | scheduler k =>
      simp only [ProcTable.hart] at fst snd
      split at fst
      · split at snd
        · cases fst
          cases snd
          rfl
        · cases snd
      · cases fst

section

variable (inv : LifeInv init flagged table ts)
include inv

section

variable (sees : (ts t).views p = some view)
include sees

theorem LifeInv.view_eq : table.procs p = view.info := (inv.seen t p view sees).1

theorem LifeInv.lock_eq (onHart : table.hart t = some h) : table.lock p = some h := by
  obtain ⟨_, g, isHart, locked⟩ := inv.seen t p view sees
  rw [onHart] at isHart
  cases isHart
  exact locked

theorem LifeInv.view_unique {oView : View Slot}
    (oSees : (ts other).views p = some oView) : t = other := by
  obtain ⟨_, h, onHart, locked⟩ := inv.seen t p view sees
  obtain ⟨_, g, oOnHart, oLk⟩ := inv.seen other p oView oSees
  rw [locked] at oLk
  cases oLk
  exact inv.harts.hart_inj onHart oOnHart

end

theorem LifeInv.view_none (unlocked : table.lock p = none) (t : Context Slot Hart) :
    (ts t).views p = none := by
  by_contra sees
  obtain ⟨view, sees⟩ := Option.ne_none_iff_exists'.mp sees
  obtain ⟨_, h, _, locked⟩ := inv.seen t p view sees
  rw [unlocked] at locked
  cases locked

theorem LifeInv.running_iff (unlocked : table.lock p = none) :
    (table.procs p).state = .running ↔ ∃ h, table.cpu p = some h := by
  constructor
  · intro running
    cases onHart : table.cpu p with
    | some h => exact ⟨h, rfl⟩
    | none =>
      obtain ⟨g, seated⟩ := inv.harts.running p running onHart
      exact absurd (inv.view_none unlocked (.scheduler g)) (inv.harts.seated g p seated).2.2
  · intro onHart
    obtain ⟨h, onHart⟩ := onHart
    rcases inv.harts.onCpu p h onHart with running | sees
    · exact running
    · exact absurd (inv.view_none unlocked _) sees

theorem LifeInv.off_of_view (sees : (ts t).views p = some view) (other : t ≠ .process p)
    (still : view.info.state ≠ .running) : table.cpu p = none := by
  cases onHart : table.cpu p with
  | none => rfl
  | some h =>
    rcases inv.harts.onCpu p h onHart with running | own
    · rw [inv.view_eq sees] at running
      exact absurd running still
    · obtain ⟨_, own⟩ := Option.ne_none_iff_exists'.mp own
      exact absurd (inv.view_unique sees own) other

end

end

/-! ## One slot changes -/

/-- What a thread that has a view of a slot may make of it. -/
structure Write (init : Slot) (flagged : Prop) (table : ProcTable Slot Hart)
    (t : Context Slot Hart) (tok later : LifeToken Slot) (p : Slot)
    (before : ProcInfo Slot) (info : ProcInfo Slot) : Prop where
  sees : ∃ view, tok.views p = some view ∧ view.info = before
  seesAfter : ∃ view, later.views p = some view ∧ view.info = info
  others : ∀ q, q ≠ p → (later.views q).map View.info = (tok.views q).map View.info
  seat : later.seat = tok.seat
  resuming : later.resuming = tok.resuming
  awake : t = .process p → tok.resuming = false
  original : later.original = tok.original ∨ later.original = none
  own : t = .process p ∨ (before.state = .running → info.state = .running)
  running : info.state = .running → before.state = .running ∨
    ∃ h, t = .scheduler h ∧ tok.seat = .seated p
  parent : ∀ q, info.parent = some q → before.parent = some q ∨ q = init ∨
    t = .process q ∧ q ≠ p ∧ (table.procs q).state.Alive ∧ tok.views q = none
  children : ∀ q, before.parent = some q → info.parent = some q ∨ t = .process q
  survives : before.state.Alive → info.state.Alive ∨
    p ≠ init ∧ later.original = none ∧ t = .process p ∧
      ∀ q, (table.procs q).parent ≠ some p
  kin : before.state.Alive → info.parent = before.parent ∨ info.parent = some init
  free : info.state = .unused → ∀ q, info.parent = some q → t = .process q
  named : p ≠ init → info.state ≠ .unused → info.parent ≠ none
  zombie : ∀ q, info.state = .zombie → info.parent = some q → q ≠ init →
    before.state = .zombie ∧ before.parent = some q ∨
    t ≠ .process q ∧ q ≠ p ∧ ∃ view, tok.views q = some view ∧ ¬view.info.Waiting q
  waits : p ≠ init → info.Waiting p → ∀ q, q ≠ p → (table.procs q).parent = some p →
    (table.procs q).state ≠ .zombie
  scanned : ∀ q view, t = .process q → later.views q = some view →
    Scanned init (update table.procs p info) q view
  unmarked : flagged → info.state = .unused → info.killed = false

section

variable [DecidableEq Hart] {init : Slot} {flagged : Prop} {table after : ProcTable Slot Hart}
  {ts : Context Slot Hart → LifeToken Slot} {t other : Context Slot Hart}
  {later : LifeToken Slot} {p q : Slot} {h : Hart} {before info : ProcInfo Slot}

section

variable (write : Write init flagged table t (ts t) later p before info)
include write

theorem Write.seen_iff (other : Context Slot Hart) (q : Slot) :
    (update ts t later other).views q = none ↔ (ts other).views q = none := by
  by_cases here : other = t
  · rw [here, update_self]
    by_cases same : q = p
    · obtain ⟨view, sees, _⟩ := write.sees
      obtain ⟨view', sees', _⟩ := write.seesAfter
      rw [same, sees, sees']
      simp
    · have infos := write.others q same
      cases left : later.views q <;> cases right : (ts t).views q <;>
        simp [left, right] at infos ⊢
  · rw [update_of_ne here]

section

variable (inv : LifeInv init flagged table ts)
include inv

theorem Write.harts (procs : after.procs = update table.procs p info) (cpu : after.cpu = table.cpu)
    (cpus : after.cpus = table.cpus) (scheduling : after.scheduling = table.scheduling)
    (lock : after.lock = table.lock) : Harts after (update ts t later) := by
  have seats := LifeToken.update_field ts t LifeToken.seat write.seat
  have resumes := LifeToken.update_field ts t LifeToken.resuming write.resuming
  obtain ⟨view, sees, isBefore⟩ := write.sees
  have cur := inv.view_eq sees
  rw [isBefore] at cur
  constructor
  · rw [cpu, cpus, scheduling]
    exact inv.harts.onHart
  · intro h
    rw [seats, cpus]
    exact inv.harts.unseated h
  · intro h q
    rw [seats, cpus, cpu, Ne, write.seen_iff]
    exact inv.harts.seated h q
  · intro h q
    rw [seats, cpus, cpu, scheduling, lock]
    exact inv.harts.away h q
  · intro q running off
    simp only [seats]
    rw [cpu] at off
    by_cases here : q = p
    · rw [procs, here, update_self] at running
      rcases write.running running with before | ⟨h, isThr, seated⟩
      · apply inv.harts.running q _ off
        rwa [here, cur]
      · exact ⟨h, by rw [← isThr, seated, here]⟩
    · apply inv.harts.running q _ off
      rwa [procs, update_of_ne here] at running
  · intro q h onHart
    rw [cpu] at onHart
    rw [Ne, write.seen_iff]
    by_cases here : q = p
    · rw [procs, here, update_self]
      rcases write.own with own | runs
      · right
        rw [← own, sees]
        simp
      rcases inv.harts.onCpu q h onHart with running | own
      · rw [here, cur] at running
        exact .inl (runs running)
      · rw [← here]
        exact .inr own
    · rw [procs, update_of_ne here]
      exact inv.harts.onCpu q h onHart
  · intro q h onHart resuming
    rw [cpu] at onHart
    rw [resumes] at resuming
    obtain ⟨locked, running⟩ := inv.harts.resume q h onHart resuming
    rw [lock]
    refine ⟨locked, ?_⟩
    by_cases here : q = p
    · -- The lock is with the hart of the writer, which is then the process itself.
      obtain ⟨_, g, isHart, held⟩ := inv.seen t p view sees
      rw [here, held] at locked
      cases locked
      have same := inv.harts.hart_inj (show table.hart (.process q) = some h from onHart) isHart
      rw [same, write.awake (here ▸ same.symm)] at resuming
      cases resuming
    · rwa [procs, update_of_ne here]

theorem Write.seen (procs : after.procs = update table.procs p info)
    (cpu : after.cpu = table.cpu) (scheduling : after.scheduling = table.scheduling)
    (lock : after.lock = table.lock) : Seen after (update ts t later) := by
  intro other q view' sees'
  have harts : after.hart other = table.hart other := by
    cases other with
    | process q => simp only [ProcTable.hart, cpu]
    | scheduler g => simp only [ProcTable.hart, scheduling]
  rw [harts, lock, procs]
  obtain ⟨view, sees, _⟩ := write.sees
  by_cases here : other = t
  · rw [here, update_self] at sees'
    by_cases same : q = p
    · obtain ⟨view'', sees'', isInfo⟩ := write.seesAfter
      rw [same, sees''] at sees'
      cases sees'
      obtain ⟨_, rest⟩ := inv.seen t p view sees
      rw [same, update_self, isInfo, here]
      exact ⟨rfl, rest⟩
    · have infos := write.others q same
      rw [sees'] at infos
      cases old : (ts t).views q with
      | none => simp [old] at infos
      | some view'' =>
        obtain ⟨eq, rest⟩ := inv.seen t q view'' old
        rw [old, Option.map_some, Option.map_some, Option.some.injEq] at infos
        rw [update_of_ne same, infos, here]
        exact ⟨eq, rest⟩
  · rw [update_of_ne here] at sees'
    have ne : q ≠ p := by
      rintro rfl
      exact here (inv.view_unique sees' sees)
    rw [update_of_ne ne]
    exact inv.seen other q view' sees'

theorem Write.family : Family init (update table.procs p info) (update ts t later) := by
  obtain ⟨view, sees, isBefore⟩ := write.sees
  have cur := inv.view_eq sees
  rw [isBefore] at cur
  -- A slot that was alive is so after the step, or it has no children.
  have survive : ∀ q, (table.procs q).state.Alive → (update table.procs p info q).state.Alive ∨
        q ≠ init ∧ q = p ∧ t = .process p ∧ ∀ r, (table.procs r).parent ≠ some q := by
    intro q alive
    by_cases here : q = p
    · rw [here, update_self]
      rw [here, cur] at alive
      rcases write.survives alive with stays | ⟨notInit, _, own, none⟩
      · exact .inl stays
      · exact .inr ⟨notInit, rfl, own, none⟩
    · rw [update_of_ne here]
      exact .inl alive
  constructor
  · intro q r par
    by_cases here : q = p
    · rw [here, update_self] at par
      rcases write.parent r par with old | isInit | ⟨own, ne, alive, _⟩
      · have alive := inv.family.parent p r (by rw [cur]; exact old)
        rcases survive r alive with stays | ⟨_, _, _, none⟩
        · exact stays
        · exact absurd (by rw [cur]; exact old) (none p)
      · rw [isInit]
        rcases survive init inv.family.init with stays | ⟨notInit, _⟩
        · exact stays
        · exact absurd rfl notInit
      · rwa [update_of_ne ne]
    · rw [update_of_ne here] at par
      rcases survive r (inv.family.parent q r par) with stays | ⟨_, _, _, none⟩
      · exact stays
      · exact absurd par (none q)
  · intro q notInit used
    by_cases here : q = p
    · rw [here, update_self] at used ⊢
      exact write.named (here ▸ notInit) used
    · rw [update_of_ne here] at used ⊢
      exact inv.family.child q notInit used
  · rcases survive init inv.family.init with stays | ⟨notInit, _⟩
    · exact stays
    · exact absurd rfl notInit
  · intro q r unused par
    rw [Ne, write.seen_iff]
    by_cases here : q = p
    · rw [here, update_self] at unused par
      rw [here, ← write.free unused r par, sees]
      simp
    · rw [update_of_ne here] at unused par
      exact inv.family.free q r unused par

omit [DecidableEq Hart] in
theorem Write.attentive : Attentive init (update table.procs p info) := by
  obtain ⟨view, sees, isBefore⟩ := write.sees
  have cur := inv.view_eq sees
  rw [isBefore] at cur
  intro q notInit waiting r par dead
  by_cases here : q = p
  · rw [here, update_self] at waiting
    by_cases same : r = p
    · rw [same, update_self, waiting.1] at dead
      cases dead
    · rw [update_of_ne same] at par dead
      exact write.waits (here ▸ notInit) waiting r same (here ▸ par) dead
  · rw [update_of_ne here] at waiting
    by_cases same : r = p
    · rw [same, update_self] at par dead
      rcases write.zombie q dead par notInit with ⟨old, oldPar⟩ | ⟨_, _, view', sees', not⟩
      · exact inv.attentive q notInit waiting p (by rw [cur]; exact oldPar) (by rw [cur]; exact old)
      · rw [inv.view_eq sees'] at waiting
        exact not waiting
    · rw [update_of_ne same] at par dead
      exact inv.attentive q notInit waiting r par dead

theorem Write.scans (q : Slot) (view' : View Slot)
    (sees' : (update ts t later (.process q)).views q = some view') :
    Scanned init (update table.procs p info) q view' := by
  obtain ⟨view, sees, isBefore⟩ := write.sees
  have cur := inv.view_eq sees
  rw [isBefore] at cur
  by_cases here : .process q = t
  · rw [here, update_self] at sees'
    exact write.scanned q view' here.symm sees'
  rw [update_of_ne here] at sees'
  have ne : t ≠ .process q := fun eq => here eq.symm
  have scanned := inv.scanned q view' sees'
  constructor
  · intro notInit r mem par dead
    by_cases same : r = p
    · rw [same, update_self] at par dead
      rcases write.zombie q dead par notInit with ⟨old, oldPar⟩ | ⟨_, _, w, isSeen, _⟩
      · exact scanned.clean notInit p (same ▸ mem) (by rw [cur]; exact oldPar)
          (by rw [cur]; exact old)
      · exact ne (inv.view_unique isSeen sees')
    · rw [update_of_ne same] at par dead
      exact scanned.clean notInit r mem par dead
  · intro notInit r mem par
    by_cases same : r = p
    · rw [same, update_self] at par
      rcases write.parent q par with old | isInit | ⟨own, _⟩
      · exact scanned.orphaned notInit p (same ▸ mem) (by rw [cur]; exact old)
      · exact notInit isInit
      · exact ne own
    · rw [update_of_ne same] at par
      exact scanned.orphaned notInit r mem par
  · intro r isChild
    have par := scanned.child r isChild
    by_cases same : r = p
    · rw [same, update_self]
      rw [same, cur] at par
      rcases write.children q par with stays | own
      · exact stays
      · exact absurd own ne
    · rwa [update_of_ne same]

theorem Write.originals : Originals init (update table.procs p info) (update ts t later) := by
  obtain ⟨view, sees, isBefore⟩ := write.sees
  have cur := inv.view_eq sees
  rw [isBefore] at cur
  intro q r orig
  have old : (ts (.process q)).original = some r := by
    by_cases here : .process q = t
    · rw [here, update_self] at orig
      rcases write.original with same | gone
      · rw [here, ← same, orig]
      · rw [gone] at orig
        cases orig
    · rwa [update_of_ne here] at orig
  obtain ⟨alive, par⟩ := inv.originals q r old
  by_cases same : q = p
  · rw [same, cur] at alive par
    rw [same, update_self]
    refine ⟨?_, ?_⟩
    · rcases write.survives alive with stays | ⟨_, gone, own, _⟩
      · exact stays
      · rw [same, ← own, update_self, gone] at orig
        cases orig
    · rcases write.kin alive with stays | isInit
      · rwa [stays]
      · exact .inr isInit
  · rw [update_of_ne same]
    exact ⟨alive, par⟩

end

end

omit [DecidableEq Hart] in
theorem Scanned.update {view : View Slot} {procs : Slot → ProcInfo Slot}
    (scanned : Scanned init procs q view) (samePar : info.parent = (procs p).parent)
    (sameZombie : info.state = .zombie → (procs p).state = .zombie) :
    Scanned init (update procs p info) q view where
  clean := by
    intro notInit r mem par dead
    by_cases same : r = p
    · rw [same, update_self] at par dead
      exact scanned.clean notInit p (same ▸ mem) (samePar ▸ par) (sameZombie dead)
    · rw [update_of_ne same] at par dead
      exact scanned.clean notInit r mem par dead
  orphaned := by
    intro notInit r mem par
    by_cases same : r = p
    · rw [same, update_self] at par
      exact scanned.orphaned notInit p (same ▸ mem) (samePar ▸ par)
    · rw [update_of_ne same] at par
      exact scanned.orphaned notInit r mem par
  child := by
    intro r isChild
    by_cases same : r = p
    · rw [same, update_self, samePar]
      exact scanned.child p (same ▸ isChild)
    · rw [update_of_ne same]
      exact scanned.child r isChild

section

variable (inv : LifeInv init flagged table ts)
include inv

omit [DecidableEq Hart] in
theorem Write.plain {view view' : View Slot}
    (sees : (ts t).views p = some view) (awake : t = .process p → (ts t).resuming = false)
    (own : t = .process p ∨ (view.info.state = .running → view'.info.state = .running))
    (running : view'.info.state = .running → view.info.state = .running ∨
      ∃ h, t = .scheduler h ∧ (ts t).seat = .seated p)
    (parent : view'.info.parent = view.info.parent)
    (alive : view.info.state.Alive → view'.info.state.Alive)
    (zombie : view'.info.state = .zombie → view.info.state = .zombie)
    (free : view'.info.state = .unused → view.info.state = .unused)
    (named : view.info.state = .unused → view'.info.state = .unused ∨ view'.info.parent ≠ none)
    (waits : p ≠ init → view'.info.Waiting p → ∀ q, q ≠ p → (table.procs q).parent = some p →
      (table.procs q).state ≠ .zombie) (scanned : t = .process p →
      Scanned init (update table.procs p view'.info) p view')
    (unmarked : flagged → view'.info.state = .unused → view'.info.killed = false) :
    Write init flagged table t (ts t) ((ts t).see p view') p view.info view'.info where
  sees := ⟨view, sees, rfl⟩
  seesAfter := ⟨_, LifeToken.see_self _ _ _, rfl⟩
  others q ne := by rw [LifeToken.see_ne _ ne]
  seat := rfl
  resuming := rfl
  awake := awake
  original := .inl rfl
  own := own
  running := running
  parent q isParent := .inl (parent ▸ isParent)
  children q isParent := .inl (parent.trans isParent)
  survives isAlive := .inl (alive isAlive)
  kin _ := .inl parent
  free := by
    intro unused q isParent
    rw [parent] at isParent
    have held := inv.family.free p q (by rw [inv.view_eq sees]; exact free unused)
      (by rw [inv.view_eq sees]; exact isParent)
    obtain ⟨_, held⟩ := Option.ne_none_iff_exists'.mp held
    exact inv.view_unique sees held
  named := by
    intro notInit used
    by_cases unused : view.info.state = .unused
    · rcases named unused with stays | has
      · exact absurd stays used
      · exact has
    · rw [parent, ← inv.view_eq sees]
      exact inv.family.child p notInit (by rw [inv.view_eq sees]; exact unused)
  zombie q dead isParent _ := .inl ⟨zombie dead, parent ▸ isParent⟩
  waits := waits
  scanned := by
    intro q view'' isThread sees'
    have cur := inv.view_eq sees
    by_cases same : q = p
    · rw [same, LifeToken.see_self, Option.some.injEq] at sees'
      rw [← sees', same]
      exact scanned (same ▸ isThread)
    rw [LifeToken.see_ne _ same] at sees'
    exact (inv.scanned q view'' (by rw [← isThread]; exact sees')).update
      (by rw [cur, parent]) (by rw [cur]; exact zombie)
  unmarked := unmarked

omit [DecidableEq Hart] in
theorem Write.mild {view : View Slot}
    (sees : (ts t).views p = some view) (awake : t = .process p → (ts t).resuming = false)
    (own : t = .process p ∨ (view.info.state = .running → info.state = .running))
    (running : info.state = .running → view.info.state = .running ∨
      ∃ h, t = .scheduler h ∧ (ts t).seat = .seated p)
    (par : info.parent = view.info.parent) (alive : view.info.state.Alive → info.state.Alive)
    (zombie : info.state = .zombie → view.info.state = .zombie)
    (free : info.state = .unused → view.info.state = .unused)
    (named : view.info.state = .unused → info.state = .unused ∨ info.parent ≠ none)
    (waits : p ≠ init → info.Waiting p → ∀ q, q ≠ p → (table.procs q).parent = some p →
      (table.procs q).state ≠ .zombie)
    (unmarked : flagged → info.state = .unused → info.killed = false) :
    Write init flagged table t (ts t)
      ((ts t).see p { view with info := info }) p view.info info := by
  apply Write.plain inv sees awake own running par alive zombie free named waits _ unmarked
  intro isThr
  have scanned := inv.scanned p view (by rw [← isThr]; exact sees)
  have cur := inv.view_eq sees
  exact Scanned.update ⟨scanned.clean, scanned.orphaned, scanned.child⟩
    (by rw [cur, par]) (by rw [cur]; exact zombie)

theorem LifeInv.reframe (procs : after.procs = table.procs) (deaths : after.deaths = table.deaths)
    (reaps : after.reaps = table.reaps) (harts : Harts after (update ts t later))
    (seen : Seen after (update ts t later))
    (free : ∀ p q, t = .process q → (table.procs p).state = .unused →
      (table.procs p).parent = some q → later.views p ≠ none)
    (scanned : ∀ p view, t = .process p → later.views p = some view →
      Scanned init table.procs p view) (orig : later.original = (ts t).original) :
    LifeInv init flagged after (update ts t later) where
  harts := harts
  seen := seen
  family := by
    rw [procs]
    refine ⟨inv.family.parent, inv.family.child, inv.family.init, ?_⟩
    intro p q unused par
    by_cases here : .process q = t
    · rw [here, update_self]
      exact free p q here.symm unused par
    · rw [update_of_ne here]
      exact inv.family.free p q unused par
  attentive := procs ▸ inv.attentive
  scanned := by
    intro p view sees
    rw [procs]
    by_cases here : .process p = t
    · rw [here, update_self] at sees
      exact scanned p view here.symm sees
    · rw [update_of_ne here] at sees
      exact inv.scanned p view sees
  originals := by
    intro p q isOrig
    rw [LifeToken.update_field ts t LifeToken.original orig] at isOrig
    rw [procs]
    exact inv.originals p q isOrig
  accounted := by
    rw [procs, deaths, reaps]
    exact inv.accounted
  unmarked := procs ▸ inv.unmarked

theorem LifeInv.write (write : Write init flagged table t (ts t) later p before info)
    (procs : after.procs = update table.procs p info)
    (cpu : after.cpu = table.cpu) (cpus : after.cpus = table.cpus)
    (scheduling : after.scheduling = table.scheduling) (lock : after.lock = table.lock)
    (accounted : Accounted after.procs after.deaths after.reaps) :
    LifeInv init flagged after (update ts t later) where
  harts := write.harts inv procs cpu cpus scheduling lock
  seen := write.seen inv procs cpu scheduling lock
  family := procs ▸ write.family inv
  attentive := procs ▸ write.attentive inv
  scanned := by
    intro q view' sees'
    rw [procs]
    exact write.scans inv q view' sees'
  originals := procs ▸ write.originals inv
  accounted := accounted
  unmarked := by
    intro isFlagged q unused
    rw [procs] at unused ⊢
    by_cases same : q = p
    · rw [same, update_self] at unused ⊢
      exact write.unmarked isFlagged unused
    · rw [update_of_ne same] at unused ⊢
      exact inv.unmarked isFlagged q unused

end

end

theorem Accounted.update {procs : Slot → ProcInfo Slot} {deaths : List (Death Slot)}
    {reaps : List (Reap Slot)} (accounted : Accounted procs deaths reaps) {p : Slot}
    {info : ProcInfo Slot} (dead : info.state = .zombie ↔ (procs p).state = .zombie)
    (same : info.state = .zombie → info.death p = (procs p).death p) :
    Accounted (update procs p info) deaths reaps where
  deaths := by
    intro q
    rw [accounted.deaths q]
    by_cases here : q = p
    · rw [here, update_self]
      by_cases isDead : info.state = .zombie
      · rw [if_pos isDead, if_pos (dead.mp isDead), same isDead]
      · rw [if_neg isDead, if_neg fun old => isDead (dead.mpr old)]
    · rw [update_of_ne here]
  reaps := accounted.reaps

end Xv6
