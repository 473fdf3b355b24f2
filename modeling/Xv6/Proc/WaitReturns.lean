import Xv6.Proc.LifeSteps

/-! # What `wait` returns

A call of `wait` that has freed a process returns the number that it recorded, with the
recorded status in memory, and one that has freed none returns -1. -/

namespace Xv6

open Foundation Function LifeProgram Program ProcTable

variable {Slot Hart α β : Type}

/-- What a process has freed since it last called `wait`, and the status in its memory. -/
structure Report (Slot : Type) where
  reap : Option (Reap Slot)
  memory : Option (BitVec 32)

def ProcTable.report (table : ProcTable Slot Hart) (p : Slot) : Report Slot :=
  ⟨table.waited p, table.memory p⟩

/-- What has been waited for is on record. -/
def Recorded (table : ProcTable Slot Hart) : Prop :=
  ∀ p reap, table.waited p = some reap → reap ∈ table.reaps ∧ reap.waiter = p

namespace Report

/-- `wait` has returned a value. -/
def Tells (report : Report Slot) (asked : Bool) (value : BitVec 32) : Prop :=
  match report.reap with
  | none => value = -1
  | some reap => value = reap.result.returned ∧ reap.result.asked = asked ∧
      (asked = true → report.memory = reap.result.stored)

/-- What a command makes of the report of the process that executes it. -/
def Follows (report later : Report Slot) : LifeCommand Slot → Prop
  | .enterWait => later = ⟨none, report.memory⟩
  | .copyout status => later = ⟨report.reap, some status⟩
  | .freeproc _ (some out) => ∃ reap, later = ⟨some reap, report.memory⟩ ∧ reap.result = out
  | _ => later = report

/-- However a program goes on, its value fits the report at its end. -/
def Fits (post : α → Report Slot → Prop) : LifeProgram Slot α → Report Slot → Prop
  | .done value, report => post value report
  | .call cmd next, report => ∀ resp later, report.Follows later cmd → Fits post (next resp) later

variable {report : Report Slot} {p q : Slot}

theorem Fits.bind {post : β → Report Slot → Prop} {mid : α → Report Slot → Prop}
    {first : LifeProgram Slot α} {second : α → LifeProgram Slot β} (fits : Fits mid first report)
    (rest : ∀ value later, mid value later → Fits post (second value) later) :
    Fits post (first >>= second) report := by
  induction first generalizing report with
  | done value => exact rest value report fits
  | call cmd next ih => exact fun resp later follows => ih resp (fits resp later follows)

theorem Fits.step {cmd : LifeCommand Slot} {next : cmd.Response → LifeProgram Slot α}
    {post : α → Report Slot → Prop}
    (rest : ∀ resp later, report.Follows later cmd → Fits post (next resp) later) :
    Fits post (LifeProgram.step cmd >>= next) report := rest

theorem fits_any (prog : LifeProgram Slot α) : Fits (fun _ _ => True) prog report := by
  induction prog generalizing report with
  | done value => trivial
  | call cmd next ih => exact fun resp _ _ => ih resp

/-! ## Commands -/

section

variable [DecidableEq Slot] [DecidableEq Hart] {t : Context Slot Hart} {h : Hart}
  {cmd : LifeCommand Slot} {table after : ProcTable Slot Hart} {resp : cmd.Response}

theorem execOn_follows (ran : execOn (.process p) h cmd table = .ok (resp, after)) :
    (table.report p).Follows (after.report p) cmd := by
  cases cmd with
  | enterWait | copyout status =>
    cases ran
    simp [Follows, ProcTable.report, own]
  | freeproc q out =>
    rw [execOn] at ran
    split at ran
    · cases ran
      cases out with
      | none => rfl
      | some out =>
        refine ⟨⟨(table.procs q).death q, (table.procs q).parent, p, out⟩, ?_, rfl⟩
        simp [ProcTable.report, free, reaping, ProcTable.modify]
    · cases ran
  | acquire q | release q | holding q | wake q | sched q | swtch q =>
    rw [execOn] at ran
    repeat' split at ran
    all_goals cases ran
    all_goals rfl
  | panic why | halt => cases ran
  | _ =>
    cases ran
    rfl

/-- Other threads leave the report of a process as it is, and what is on record stays. -/
theorem execOn_others (ran : execOn t h cmd table = .ok (resp, after)) :
    (∀ q, t ≠ .process q → after.report q = table.report q) ∧
      (Recorded table → Recorded after) := by
  have own_of_ne : ∀ {γ : Type} {value : γ} {all : Slot → γ} {q : Slot}, t ≠ .process q →
      own t value all q = all q := by
    intro γ value all q other
    cases t with
    | process p => exact update_of_ne (fun same => other (congrArg _ same.symm)) _ _
    | scheduler g => rfl
  cases cmd with
  | enterWait =>
    cases ran
    refine ⟨fun q other => congrArg (mk · _) (own_of_ne other), fun recorded q reap found => ?_⟩
    change own t none table.waited q = some reap at found
    by_cases here : t = .process q
    · rw [here, own, update_self] at found
      cases found
    · rw [own_of_ne here] at found
      exact recorded q reap found
  | copyout status =>
    cases ran
    exact ⟨fun q other => congrArg (mk _) (own_of_ne other), id⟩
  | freeproc p out =>
    rw [execOn] at ran
    split at ran
    · cases ran
      refine ⟨fun q other => congrArg (mk · _) ?_, fun recorded q reap found => ?_⟩
      · rcases t with r | g <;> rcases out with - | out
        · rfl
        · have ne : r ≠ q := fun same => other (congrArg _ same)
          simp [free, reaping, ne]
        · rfl
        · rfl
      · rcases Option.or_eq_some_iff.mp found with new | ⟨_, old⟩
        · refine ⟨List.mem_append_right _ (List.mem_of_find?_eq_some new), ?_⟩
          simpa using List.find?_some new
        · exact (recorded q reap old).imp_left (List.mem_append_left _)
    · cases ran
  | acquire q | release q | holding q | wake q | sched q | swtch q =>
    rw [execOn] at ran
    repeat' split at ran
    all_goals cases ran
    all_goals exact ⟨fun _ _ => rfl, id⟩
  | panic why | halt => cases ran
  | _ =>
    cases ran
    exact ⟨fun _ _ => rfl, id⟩

end

/-! ## `wait` -/

/-- What a scan comes to. -/
def Told (report : Report Slot) (asked : Bool) : Scan → Report Slot → Prop
  | .kids _, later => later = report
  | .finished value, later => later.Tells asked value

theorem fits_copyStatus (addr : Bool) (status : BitVec 32) :
    Fits (fun _ later => addr = true → later.memory = some status) (copyStatus addr status)
      report := by
  cases addr with
  | false => exact fun asked => by cases asked
  | true =>
    rintro _ _ rfl _
    rfl

section

variable (unused : report.reap = none)
include unused

theorem tells_of_unused (asked : Bool) : report.Tells asked (-1) := by
  rw [Tells, unused]

theorem fits_waitScan [DecidableEq Slot] (addr writable havekids : Bool) (list : List Slot) :
    Fits (report.Told addr) (waitScan p addr writable havekids list) report := by
  induction list generalizing havekids with
  | nil => exact rfl
  | cons np rest ih =>
    refine .step ?_
    rintro (parent : Option Slot) _ rfl
    split
    · rintro _ _ rfl
      refine .step ?_
      rintro (proc : ProcInfo Slot) _ rfl
      split
      · split
        · rintro _ _ rfl _ _ rfl
          exact tells_of_unused unused addr
        · refine (fits_copyStatus addr proc.xstate).bind ?_
          rintro _ mid stored _ _ ⟨reap, rfl, result⟩ _ _ rfl _ _ rfl
          refine ⟨by rw [result], by rw [result], fun asked => ?_⟩
          rw [result, stored asked, if_pos asked]
      · rintro _ _ rfl
        exact ih true
    · exact ih havekids

theorem fits_waitLoop [DecidableEq Slot] (table : List Slot) (addr writable : Bool) (fuel : Nat) :
    Fits (fun value later => later.Tells addr value) (waitLoop table p addr writable fuel)
      report := by
  induction fuel with
  | zero =>
    rintro _ _ rfl
    exact tells_of_unused unused addr
  | succ fuel ih =>
    refine (fits_waitScan unused addr writable false table).bind ?_
    intro scan later told
    cases scan with
    | finished value => exact told
    | kids havekids =>
      obtain rfl : later = report := told
      refine .step ?_
      rintro (proc : ProcInfo Slot) _ rfl
      split
      · rintro _ _ rfl
        exact tells_of_unused unused addr
      · rintro _ _ rfl _ _ rfl _ _ rfl _ _ rfl
        exact ih

end

/-- What a process keeps after a call of `wait` fits its report. -/
def Idle (kept : LifeLocal) (report : Report Slot) : Prop :=
  ∀ asked, kept.waited = some asked → report.Tells asked kept.value

variable [DecidableEq Slot]

theorem fits_lifeProgram (table : List Slot) (init : Slot) (value : BitVec 32)
    (call : LifeCall Slot) : Fits Idle
      (lifeProgram (.process p : Context Slot Hart) table init p value call) report := by
  cases call with
  | wait addr writable fuel =>
    rintro _ _ rfl
    have waits : Fits (fun value later => later.Tells addr value)
        (wait (.process p : Context Slot Hart) table p addr writable fuel)
        ⟨none, report.memory⟩ := by
      rintro (pending : Bool) _ rfl
      cases pending with
      | false =>
        rintro _ _ rfl
        exact fits_waitLoop rfl table addr writable fuel
      | true =>
        rintro _ _ rfl _ _ rfl _ _ rfl _ _ rfl _ _ rfl
        exact fits_waitLoop rfl table addr writable fuel
    refine waits.bind ?_
    rintro value later tells _ ⟨⟩
    exact tells
  | scheduler | tick q =>
    rintro _ ⟨⟩
  | _ =>
    refine (fits_any _).bind ?_
    rintro _ _ _ _ ⟨⟩

theorem fits_update [DecidableEq Hart] {t : Context Slot Hart} {prog : LifeProgram Slot LifeLocal}
    {threads : Context Slot Hart → LifeProgram Slot LifeLocal}
    (mine : t = .process p → Fits Idle prog report)
    (others : t ≠ .process p → Fits Idle (threads (.process p)) report) :
    Fits Idle (update threads t prog (.process p)) report := by
  by_cases here : t = .process p
  · rw [here, update_self]
    exact mine here
  · rw [update_of_ne (Ne.symm here)]
    exact others here

/-- After a call of `wait` its value and the memory are what the record says. -/
theorem wait_tells [DecidableEq Hart] {slots : List Slot} {init : Slot}
    {pool : Pool (lifeSystem Hart slots init)}
    (reach : (lifeSystem Hart slots init).Reachable (System.always _)
      (lifeStart Hart slots init) pool) : Recorded pool.state ∧
    ∀ p, Fits Idle (pool.threads (.process p)) (pool.state.report p) := by
  induction reach with
  | initial =>
    refine ⟨?_, ?_⟩
    · rintro p reap ⟨⟩
    · rintro p asked ⟨⟩
  | @start pool t kept call _ isDone ih =>
    refine ⟨ih.1, fun p => fits_update ?_ fun _ => ih.2 p⟩
    rintro rfl
    change Fits Idle (lifeBody slots init (.process p : Context Slot Hart) call kept) _
    rw [lifeBody]
    split
    · exact fits_lifeProgram slots init kept.value call
    · rintro _ _ rfl
      exact fits_lifeProgram slots init kept.value call
  | @step pool t cmd next resp after _ isCall _ did ih =>
    obtain ⟨h, _, ran⟩ := exec_ok did
    obtain ⟨others, recorded⟩ := execOn_others ran
    refine ⟨recorded ih.1, fun p => fits_update ?_ fun there => others p there ▸ ih.2 p⟩
    rintro rfl
    have fits := ih.2 p
    rw [isCall] at fits
    exact fits resp _ (execOn_follows ran)

end Report

end Xv6
