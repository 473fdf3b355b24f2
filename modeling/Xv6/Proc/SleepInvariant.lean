import Mathlib.Data.Set.Basic
import Xv6.Foundation.Ownership
import Xv6.Proc.Sleep

/-! # What holds between sleepers and wakers

Every process that waits on a channel, or has released `lk` in order to, was right
to do so when it tested the condition: the condition is still false, or some
thread has changed it since and will still come to this process in its call of
`wakeup`. -/

namespace Xv6

open Foundation Function
open Bool (toNat_false toNat_true)
open Option (isSome_none isSome_some)

/-! ## Tokens -/

/-- What a thread holds and knows: the two kinds of locks, the data as it is while
the thread holds `lk`, whether it has switched away, the fields `chan` and
`entering` of its process, the processes it owes a visit for each channel, and
what the client's code knows. -/
structure SleepToken (Pid Chan Data User : Type) where
  lk : Bool
  view : Option Data
  plock : Option Pid
  away : Bool
  chan : Option Chan
  entering : Option Chan
  waking : Chan → Set Pid
  user : User

/-- The number of locks a thread holds, or will find locked when it runs again. -/
def SleepToken.noff {Pid Chan Data User : Type}
    (tok : SleepToken Pid Chan Data User) : Nat :=
  tok.lk.toNat + tok.plock.isSome.toNat + tok.away.toNat

/-- The token of a thread that no longer owes some processes a visit. -/
def SleepToken.excuse {Pid Chan Data User : Type}
    (tok : SleepToken Pid Chan Data User) (chan : Chan) (visited : Pid → Prop) :
    SleepToken Pid Chan Data User :=
  { tok with waking := fun c => { p | p ∈ tok.waking c ∧ (c = chan → ¬visited p) } }

/-- The process is on its way to sleep on a channel, or sleeps. -/
def ProcEntry.Waits {Chan : Type} (proc : ProcEntry Chan) (chan : Chan) : Prop :=
  proc.entering = some chan ∨ proc.state = .sleeping ∧ proc.chan = some chan

/-- What the client's code promises: the condition of each channel, an invariant
of its own, which threads may wait on a channel, which threads may owe a wakeup,
and whether they may still owe it without holding `lk`. -/
structure Discipline (Pid Hart Chan Data Aux User : Type) where
  Cond : Chan → Data → Prop
  Extra : Data → Aux → (Context Pid Hart → User) → Prop
  Permits : User → Chan → Prop
  Owes : Data → Aux → Context Pid Hart → Chan → Prop
  early : Prop

/-! ## Fields of processes and of tokens -/

section

variable {Pid Hart Chan Data Aux : Type} [DecidableEq Pid] {s : Kernel Pid Chan Data Aux}

namespace Kernel

@[simp] theorem modify_self (p : Pid) (change : ProcEntry Chan → ProcEntry Chan) :
    (s.modify p change).procs p = change (s.procs p) := update_self _ _ _

variable {p : Pid}

theorem modify_ne {q : Pid} (ne : q ≠ p) (change : ProcEntry Chan → ProcEntry Chan) :
    (s.modify p change).procs q = s.procs q := update_of_ne ne _ _

@[simp] theorem modify_lk (p : Pid) (change : ProcEntry Chan → ProcEntry Chan) :
    (s.modify p change).lk = s.lk := rfl

theorem modify_keeps (s : Kernel Pid Chan Data Aux) (field : ProcEntry Chan → β) {change :
    ProcEntry Chan → ProcEntry Chan} (same : field (change (s.procs p)) = field (s.procs p))
    (q : Pid) : field ((s.modify p change).procs q) = field (s.procs q) := by
  by_cases here : q = p
  · rw [here, modify_self, same]
  · rw [modify_ne here]

@[simp] theorem countOff_data (count : Nat → Nat) (t : Context Pid Hart) :
    (s.countOff count t).data = s.data := by
  cases t <;> rfl

@[simp] theorem countOff_aux (count : Nat → Nat) (t : Context Pid Hart) :
    (s.countOff count t).aux = s.aux := by
  cases t <;> rfl

@[simp] theorem countOff_lk (count : Nat → Nat) (t : Context Pid Hart) :
    (s.countOff count t).lk = s.lk := by
  cases t <;> rfl

theorem countOff_keeps (s : Kernel Pid Chan Data Aux) (field : ProcEntry Chan → β)
    (count : Nat → Nat) (t : Context Pid Hart)
    (same : ∀ proc noff, field { proc with noff := noff } = field proc) (q : Pid) :
    field ((s.countOff count t).procs q) = field (s.procs q) := by
  cases t with
  | process p =>
    rw [countOff]
    apply modify_keeps
    exact same _ _
  | scheduler hart => rfl

variable {t : Context Pid Hart}

theorem countOff_self (count : Nat → Nat) (here : t = .process p) : (s.countOff count t).procs p =
      { s.procs p with noff := count (s.procs p).noff } := by
  rw [here, countOff, modify_self]

theorem countOff_ne (count : Nat → Nat) (ne : .process p ≠ t) :
    (s.countOff count t).procs p = s.procs p := by
  cases t with
  | process q =>
    have o : p ≠ q := fun same => ne (congrArg Context.process same)
    rw [countOff, modify_ne o]
  | scheduler hart => rfl

@[simp] theorem setEntering_data (enters : Option Chan) (t : Context Pid Hart) :
    (s.setEntering enters t).data = s.data := by
  cases t <;> rfl

@[simp] theorem setEntering_aux (enters : Option Chan) (t : Context Pid Hart) :
    (s.setEntering enters t).aux = s.aux := by
  cases t <;> rfl

theorem setEntering_keeps (s : Kernel Pid Chan Data Aux) (field : ProcEntry Chan → β)
    (enters : Option Chan) (t : Context Pid Hart)
    (same : ∀ proc, field { proc with entering := enters } = field proc) (q : Pid) :
    field ((s.setEntering enters t).procs q) = field (s.procs q) := by
  cases t with
  | process p =>
    rw [setEntering]
    apply modify_keeps
    exact same _
  | scheduler hart => rfl

theorem setEntering_self (enters : Option Chan) (here : t = .process p) :
    (s.setEntering enters t).procs p =
      { s.procs p with entering := enters } := by
  rw [here, setEntering, modify_self]

theorem setEntering_ne (enters : Option Chan) (ne : .process p ≠ t) :
    (s.setEntering enters t).procs p = s.procs p := by
  cases t with
  | process q =>
    have o : p ≠ q := fun same => ne (congrArg Context.process same)
    rw [setEntering, modify_ne o]
  | scheduler hart => rfl

end Kernel

end

/-- A field of every process is known to the thread of the process. -/
def Mirrors {Pid Hart Chan Token : Type} (field : ProcEntry Chan → α) (known : Token → α)
    (procs : Pid → ProcEntry Chan) (ts : Context Pid Hart → Token) : Prop :=
  ∀ p, field (procs p) = known (ts (.process p))

namespace Mirrors

variable {Pid Hart Chan Token : Type} {field : ProcEntry Chan → α} {known : Token → α}
  {procs later : Pid → ProcEntry Chan} {ts : Context Pid Hart → Token}
  [DecidableEq Pid] [DecidableEq Hart] {tok : Token}

theorem keep (mirrors : Mirrors field known procs ts)
    (same : ∀ p, field (later p) = field (procs p)) (kept : known tok = known (ts t)) :
    Mirrors field known later (update ts t tok) := by
  intro p
  rw [same p, mirrors p]
  by_cases here : .process p = t
  · rw [here, update_self, kept]
  · rw [update_of_ne here]

theorem change (mirrors : Mirrors field known procs ts)
    (same : ∀ p, .process p ≠ t → field (later p) = field (procs p)) (own : ∀ p, t = .process p →
    field (later p) = known tok) : Mirrors field known later (update ts t tok) := by
  intro p
  by_cases here : .process p = t
  · rw [here, update_self, own p here.symm]
  · rw [update_of_ne here, same p here, mirrors p]

end Mirrors

/-! ## Locks -/

/-- Every lock is held by the thread whose token says so. The lock of a process
that is being switched to or from is locked, and nobody's. -/
structure KernelLocks {Pid Hart Chan Data Aux User : Type} [DecidableEq Pid]
    (s : Kernel Pid Chan Data Aux)
    (ts : Context Pid Hart → SleepToken Pid Chan Data User) : Prop where
  lk : Exclusive s.lk SleepToken.lk ts
  plock : ∀ p, Exclusive (s.procs p).lock (fun tok => decide (tok.plock = some p)) ts
  transit : ∀ p, (s.procs p).swtch ≠ .settled →
    (s.procs p).lock = true ∧ ∀ t, (ts t).plock ≠ some p
  noff : Mirrors ProcEntry.noff SleepToken.noff s.procs ts

namespace KernelLocks

variable {Pid Hart Chan Data Aux User : Type} [DecidableEq Pid] [DecidableEq Hart]
  {s later : Kernel Pid Chan Data Aux} {ts : Context Pid Hart → SleepToken Pid Chan Data User}
  {t : Context Pid Hart} {tok : SleepToken Pid Chan Data User}

omit [DecidableEq Hart] in
theorem holder (locks : KernelLocks s ts) {o : Context Pid Hart}
    (h : (ts t).plock = some p) (ho : (ts o).plock = some p) : o = t :=
  (locks.plock p).alone o t (decide_eq_true ho) (decide_eq_true h)

omit [DecidableEq Hart] in
theorem congr (locks : KernelLocks s ts) (lk : later.lk = s.lk)
    (lock : ∀ p, (later.procs p).lock = (s.procs p).lock)
    (swtch : ∀ p, (later.procs p).swtch = (s.procs p).swtch)
    (noff : ∀ p, (later.procs p).noff = (s.procs p).noff) : KernelLocks later ts where
  lk := by
    rw [lk]
    exact locks.lk
  plock := by
    intro p
    rw [lock p]
    exact locks.plock p
  transit := by
    intro p moving
    rw [lock p]
    rw [swtch p] at moving
    exact locks.transit p moving
  noff := by
    intro p
    rw [noff p]
    exact locks.noff p

theorem token_same (locks : KernelLocks s ts)
    (tokenLk : tok.lk = (ts t).lk) (plock : tok.plock = (ts t).plock)
    (away : tok.away = (ts t).away) : KernelLocks s (update ts t tok) where
  lk := locks.lk.keep tokenLk
  plock := by
    intro p
    apply (locks.plock p).keep
    rw [plock]
  transit := by
    intro p moving
    obtain ⟨locked, none⟩ := locks.transit p moving
    refine ⟨locked, ?_⟩
    intro o
    by_cases here : o = t
    · rw [here, update_self, plock]
      exact none t
    · rw [update_of_ne here]
      exact none o
  noff := by
    apply locks.noff.keep (fun _ => rfl)
    rw [SleepToken.noff, SleepToken.noff, tokenLk, plock, away]

variable {count : Nat → Nat}

section

variable (locks : KernelLocks s ts)
include locks

theorem noff_count
    (same : ∀ p, (later.procs p).noff = (s.procs p).noff) (counts : tok.noff = count (ts t).noff) :
    Mirrors ProcEntry.noff SleepToken.noff (later.countOff count t).procs (update ts t tok) := by
  apply locks.noff.change
  · intro p ne
    rw [Kernel.countOff_ne count ne, same p]
  · intro p here
    rw [Kernel.countOff_self count here, counts, here, ← locks.noff p, ← same p]

theorem lk_only {held : Bool}
    (lk : Exclusive held SleepToken.lk (update ts t tok)) (plock : tok.plock = (ts t).plock)
    (counts : tok.noff = count (ts t).noff) : KernelLocks { s.countOff count t with lk := held }
      (update ts t tok) := by
  have lock (p : Pid) : ((s.countOff count t).procs p).lock = (s.procs p).lock :=
    s.countOff_keeps ProcEntry.lock count t (fun _ _ => rfl) p
  have swtch (p : Pid) : ((s.countOff count t).procs p).swtch = (s.procs p).swtch :=
    s.countOff_keeps ProcEntry.swtch count t (fun _ _ => rfl) p
  constructor
  · exact lk
  · intro p
    change Exclusive ((s.countOff count t).procs p).lock _ _
    rw [lock p]
    apply (locks.plock p).keep
    rw [plock]
  · intro p moving
    change ((s.countOff count t).procs p).swtch ≠ .settled at moving
    rw [swtch p] at moving
    obtain ⟨locked, none⟩ := locks.transit p moving
    refine ⟨(lock p).trans locked, ?_⟩
    intro o
    by_cases here : o = t
    · rw [here, update_self, plock]
      exact none t
    · rw [update_of_ne here]
      exact none o
  · exact locks.noff_count (fun _ => rfl) counts

theorem acquire (free : s.lk = false)
    (h : tok.lk = true) (plock : tok.plock = (ts t).plock) (away : tok.away = (ts t).away) :
    KernelLocks { s.pushOff t with lk := true } (update ts t tok) := by
  have none := locks.lk
  rw [free] at none
  apply locks.lk_only none.acquire plock
  rw [SleepToken.noff, SleepToken.noff, h, plock, away, none.none_of_free t]
  simp only [toNat_true, toNat_false]
  omega

theorem release (h : (ts t).lk = true)
    (gone : tok.lk = false) (plock : tok.plock = (ts t).plock) (away : tok.away = (ts t).away) :
    KernelLocks { s.popOff t with lk := false } (update ts t tok) := by
  apply locks.lk_only (locks.lk.release h gone) plock
  rw [SleepToken.noff, SleepToken.noff, h, plock, away, gone]
  simp only [toNat_true, toNat_false]
  omega

theorem plock_only (p : Pid) (lk : later.lk = s.lk) (tokenLk : tok.lk = (ts t).lk)
    (lock : ∀ q, q ≠ p → (later.procs q).lock = (s.procs q).lock)
    (swtch : ∀ q, q ≠ p → (later.procs q).swtch = (s.procs q).swtch)
    (plock : ∀ q, q ≠ p → (tok.plock = some q ↔ (ts t).plock = some q))
    (own : Exclusive (later.procs p).lock (fun tok => decide (tok.plock = some p))
      (update ts t tok)) (transit : (later.procs p).swtch ≠ .settled → (later.procs p).lock = true ∧
      ∀ o, (update ts t tok o).plock ≠ some p)
    (noff : Mirrors ProcEntry.noff SleepToken.noff later.procs (update ts t tok)) :
    KernelLocks later (update ts t tok) where
  lk := by
    rw [lk]
    exact locks.lk.keep tokenLk
  plock := by
    intro q
    by_cases here : q = p
    · rwa [here]
    rw [lock q here]
    apply (locks.plock q).keep
    simp only [plock q here]
  transit := by
    intro q moving
    by_cases here : q = p
    · rw [here] at moving ⊢
      exact transit moving
    rw [swtch q here] at moving
    obtain ⟨locked, none⟩ := locks.transit q moving
    refine ⟨(lock q here).trans locked, ?_⟩
    intro o
    by_cases self : o = t
    · rw [self, update_self, Ne, plock q here]
      exact none t
    · rw [update_of_ne self]
      exact none o
  noff := noff

theorem plock_count {held : Bool} (tokenLk : tok.lk = (ts t).lk)
    (plock : ∀ q, q ≠ p → (tok.plock = some q ↔ (ts t).plock = some q))
    (own : Exclusive held (fun tok => decide (tok.plock = some p)) (update ts t tok))
    (settled : (s.procs p).swtch = .settled) (counts : tok.noff = count (ts t).noff) :
    KernelLocks ((s.modify p fun proc => { proc with lock := held }).countOff count t)
      (update ts t tok) := by
  have lockAfter (q : Pid) :
      (((s.modify p fun proc => { proc with lock := held }).countOff count t).procs
        q).lock = ((s.modify p fun proc => { proc with lock := held }).procs q).lock :=
    Kernel.countOff_keeps _ ProcEntry.lock count t (fun _ _ => rfl) q
  have swtchAfter (q : Pid) :
      (((s.modify p fun proc => { proc with lock := held }).countOff count t).procs
        q).swtch = (s.procs q).swtch :=
    (Kernel.countOff_keeps _ ProcEntry.swtch count t (fun _ _ => rfl) q).trans
      (s.modify_keeps ProcEntry.swtch rfl q)
  apply locks.plock_only p
  · rw [Kernel.countOff_lk, Kernel.modify_lk]
  · exact tokenLk
  · intro q ne
    rw [lockAfter, Kernel.modify_ne ne]
  · intro q _
    exact swtchAfter q
  · exact plock
  · rwa [lockAfter, Kernel.modify_self]
  · intro moving
    rw [swtchAfter, settled] at moving
    exact absurd rfl moving
  · exact locks.noff_count (s.modify_keeps ProcEntry.noff rfl) counts

theorem acquireProc (free : (s.procs p).lock = false) (old : (ts t).plock = none)
    (h : tok.plock = some p) (tokenLk : tok.lk = (ts t).lk) (away : tok.away = (ts t).away) :
    KernelLocks ((s.modify p fun proc => { proc with lock := true }).pushOff t)
      (update ts t tok) := by
  have settled : (s.procs p).swtch = .settled := by
    by_contra moving
    have locked := (locks.transit p moving).1
    rw [free] at locked
    cases locked
  have own := locks.plock p
  rw [free] at own
  refine locks.plock_count tokenLk ?_ own.acquire settled ?_
  · intro q ne
    rw [h, old]
    constructor
    · intro same
      exact absurd (Option.some.inj same).symm ne
    · rintro ⟨⟩
  · rw [SleepToken.noff, SleepToken.noff, tokenLk, away, h, old]
    simp only [isSome_some, isSome_none, toNat_true, toNat_false]
    omega

end

omit [DecidableEq Pid] [DecidableEq Hart] in
theorem given_up (h : (ts t).plock = some p) (gone : tok.plock = none) :
    ∀ q, q ≠ p → (tok.plock = some q ↔ (ts t).plock = some q) := by
  intro q ne
  rw [h, gone]
  constructor
  · rintro ⟨⟩
  · intro same
    exact absurd (Option.some.inj same).symm ne

theorem releaseProc (locks : KernelLocks s ts) (h : (ts t).plock = some p) (gone : tok.plock = none)
    (tokenLk : tok.lk = (ts t).lk) (away : tok.away = (ts t).away) :
    KernelLocks ((s.modify p fun proc => { proc with lock := false }).popOff t)
      (update ts t tok) := by
  have settled : (s.procs p).swtch = .settled := by
    by_contra moving
    exact (locks.transit p moving).2 t h
  refine locks.plock_count tokenLk (given_up h gone) ?_ settled ?_
  · exact (locks.plock p).release (decide_eq_true h) (decide_eq_false (by simp [gone]))
  · rw [SleepToken.noff, SleepToken.noff, tokenLk, away, h, gone]
    simp only [isSome_some, isSome_none, toNat_true, toNat_false]
    omega

theorem leave (locks : KernelLocks s ts) {change : ProcEntry Chan → ProcEntry Chan}
    (h : (ts t).plock = some p) (lock : (change (s.procs p)).lock = (s.procs p).lock)
    (noff : (change (s.procs p)).noff = (s.procs p).noff)
    (gone : tok.plock = none) (tokenLk : tok.lk = (ts t).lk) (here : (ts t).away = false)
    (away : tok.away = true) : KernelLocks (s.modify p change) (update ts t tok) := by
  have locked : (s.procs p).lock = true := (locks.plock p).held t (decide_eq_true h)
  have nobody (o : Context Pid Hart) : (update ts t tok o).plock ≠ some p := by
    by_cases self : o = t
    · rw [self, update_self, gone]
      exact (Option.some_ne_none _).symm
    · rw [update_of_ne self]
      exact fun both => self (locks.holder h both)
  apply locks.plock_only p
  · rfl
  · exact tokenLk
  · intro q ne
    rw [Kernel.modify_ne ne]
  · intro q ne
    rw [Kernel.modify_ne ne]
  · exact given_up h gone
  · exact Exclusive.unheld fun o => decide_eq_false (nobody o)
  · intro _
    rw [Kernel.modify_self, lock]
    exact ⟨locked, nobody⟩
  · apply locks.noff.keep (s.modify_keeps ProcEntry.noff noff)
    rw [SleepToken.noff, SleepToken.noff, tokenLk, h, gone, here, away]
    simp only [isSome_some, isSome_none, toNat_true, toNat_false]

theorem enter (locks : KernelLocks s ts)
    (moving : (s.procs p).swtch ≠ .settled) (old : (ts t).plock = none)
    (h : tok.plock = some p) (tokenLk : tok.lk = (ts t).lk)
    (away : (ts t).away = true) (here : tok.away = false) :
    KernelLocks (s.modify p fun proc => { proc with swtch := .settled }) (update ts t tok) := by
  obtain ⟨locked, nobody⟩ := locks.transit p moving
  apply locks.plock_only p
  · rfl
  · exact tokenLk
  · intro q ne
    rw [Kernel.modify_ne ne]
  · intro q ne
    rw [Kernel.modify_ne ne]
  · intro q ne
    rw [h, old]
    constructor
    · intro same
      exact absurd (Option.some.inj same).symm ne
    · rintro ⟨⟩
  · rw [Kernel.modify_self]
    change Exclusive (s.procs p).lock _ _
    rw [locked]
    exact Exclusive.take fun o => decide_eq_false (nobody o)
  · intro still
    rw [Kernel.modify_self] at still
    exact absurd rfl still
  · apply locks.noff.keep (s.modify_keeps ProcEntry.noff rfl)
    rw [SleepToken.noff, SleepToken.noff, tokenLk, h, old, here, away]
    simp only [isSome_some, isSome_none, toNat_true, toNat_false]

end KernelLocks

/-! ## Sleepers -/

section

variable {Pid Hart Chan Data Aux User : Type}

structure Sleepers (d : Discipline Pid Hart Chan Data Aux User)
    (s : Kernel Pid Chan Data Aux)
    (ts : Context Pid Hart → SleepToken Pid Chan Data User) : Prop where
  view : ∀ t data, (ts t).view = some data →
    (ts t).lk = true ∧ data = s.data
  chan : Mirrors ProcEntry.chan SleepToken.chan s.procs ts
  entering : Mirrors ProcEntry.entering SleepToken.entering s.procs ts
  locked : ∀ p chan, (ts (.process p)).entering = some chan →
    (ts (.process p)).plock = some p
  permits : ∀ p chan, (ts (.process p)).chan = some chan ∨
    (ts (.process p)).entering = some chan →
      d.Permits (ts (.process p)).user chan
  attended : ∀ p chan, (s.procs p).Waits chan →
    ¬d.Cond chan s.data ∨ ∃ t, p ∈ (ts t).waking chan
  owes : ∀ t chan p, p ∈ (ts t).waking chan →
    ((ts t).lk = true ∨ d.early) ∧
      d.Owes s.data s.aux t chan

namespace Sleepers

variable {d : Discipline Pid Hart Chan Data Aux User} {s later : Kernel Pid Chan Data Aux}
  {ts : Context Pid Hart → SleepToken Pid Chan Data User}
  {t : Context Pid Hart} {tok : SleepToken Pid Chan Data User}

theorem permitted (sleepers : Sleepers d s ts) {chan : Chan} (waits : (s.procs p).Waits chan) :
    d.Permits (ts (.process p)).user chan := by
  apply sleepers.permits p chan
  rcases waits with enters | ⟨_, asleep⟩
  · exact Or.inr ((sleepers.entering p).symm.trans enters)
  · exact Or.inl ((sleepers.chan p).symm.trans asleep)

variable [DecidableEq Pid] [DecidableEq Hart]

theorem transition (sleepers : Sleepers d s ts)
    (data : later.data = s.data) (aux : later.aux = s.aux)
    (view : ∀ v, tok.view = some v → tok.lk = true ∧ v = s.data)
    (chan : Mirrors ProcEntry.chan SleepToken.chan later.procs (update ts t tok))
    (entering : Mirrors ProcEntry.entering SleepToken.entering later.procs (update ts t tok))
    (locked : ∀ p c, t = .process p → tok.entering = some c → tok.plock = some p)
    (permits : ∀ p c, t = .process p → tok.chan = some c ∨ tok.entering = some c →
      d.Permits tok.user c) (waits : ∀ p c, (later.procs p).Waits c →
      (s.procs p).Waits c ∨ ¬d.Cond c s.data) (kept : ∀ p c, p ∈ (ts t).waking c →
      p ∈ tok.waking c ∨ ¬(later.procs p).Waits c) (fewer : ∀ p c, p ∈ tok.waking c →
      p ∈ (ts t).waking c ∧ (tok.lk = true ∨ d.early)) : Sleepers d later (update ts t tok) where
  view := by
    intro o v known
    rw [data]
    by_cases here : o = t
    · rw [here, update_self] at known ⊢
      exact view v known
    · rw [update_of_ne here] at known ⊢
      exact sleepers.view o v known
  chan := chan
  entering := entering
  locked := by
    intro p c enters
    by_cases here : .process p = t
    · rw [here, update_self] at enters ⊢
      exact locked p c here.symm enters
    · rw [update_of_ne here] at enters ⊢
      exact sleepers.locked p c enters
  permits := by
    intro p c either
    by_cases here : .process p = t
    · rw [here, update_self] at either ⊢
      exact permits p c here.symm either
    · rw [update_of_ne here] at either ⊢
      exact sleepers.permits p c either
  attended := by
    intro p c waiting
    rw [data]
    rcases waits p c waiting with old | unmet
    · rcases sleepers.attended p c old with unmet | ⟨o, owed⟩
      · exact Or.inl unmet
      by_cases here : o = t
      · rw [here] at owed
        rcases kept p c owed with still | none
        · exact Or.inr ⟨t, by rwa [update_self]⟩
        · exact absurd waiting none
      · exact Or.inr ⟨o, by rwa [update_of_ne here]⟩
    · exact Or.inl unmet
  owes := by
    intro o c p owed
    rw [data, aux]
    by_cases here : o = t
    · rw [here, update_self] at owed ⊢
      obtain ⟨old, late⟩ := fewer p c owed
      exact ⟨late, (sleepers.owes t c p old).2⟩
    · rw [update_of_ne here] at owed ⊢
      exact sleepers.owes o c p owed

theorem quiet (sleepers : Sleepers d s ts) (data : later.data = s.data) (aux : later.aux = s.aux)
    (chan : ∀ p, (later.procs p).chan = (s.procs p).chan)
    (enters : ∀ p, (later.procs p).entering = (s.procs p).entering)
    (waits : ∀ p c, (later.procs p).Waits c → (s.procs p).Waits c)
    (locked : ∀ p c, t = .process p → tok.entering = some c → tok.plock = some p)
    (same : tok = { ts t with plock := tok.plock, away := tok.away }) :
    Sleepers d later (update ts t tok) := by
  have sameView : tok.view = (ts t).view := by rw [same]
  have sameLk : tok.lk = (ts t).lk := by rw [same]
  have sameChan : tok.chan = (ts t).chan := by rw [same]
  have sameEnters : tok.entering = (ts t).entering := by rw [same]
  have sameWaking : tok.waking = (ts t).waking := by rw [same]
  have sameUser : tok.user = (ts t).user := by rw [same]
  apply sleepers.transition data aux
  · intro v known
    rw [sameView] at known
    rw [sameLk]
    exact sleepers.view t v known
  · exact sleepers.chan.keep chan sameChan
  · exact sleepers.entering.keep enters sameEnters
  · exact locked
  · intro p c here either
    rw [sameChan, sameEnters, here] at either
    rw [sameUser, here]
    exact sleepers.permits p c either
  · intro p c waiting
    exact Or.inl (waits p c waiting)
  · intro p c owed
    rw [sameWaking]
    exact Or.inl owed
  · intro p c owed
    rw [sameWaking] at owed
    rw [sameLk]
    exact ⟨owed, (sleepers.owes t c p owed).1⟩

end Sleepers

end

end Xv6
