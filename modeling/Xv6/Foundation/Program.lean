import Mathlib.Logic.Function.Basic

/-! # Programs over shared state

A thread runs a program: a tree of atomic commands on a state that all threads
share, each followed by what the thread does with the command's response. A
command may block, and then the thread is tried again later, or it may panic,
and then the whole system stops. -/

namespace Foundation

/-- What executing one atomic command comes to. -/
inductive Outcome (Panic α : Type) where
  | ok (value : α)
  | blocked
  | panic (reason : Panic)
deriving DecidableEq

/-- The atomic commands that threads may execute on the shared state. -/
structure Shared (Thread State Panic : Type) where
  Command : Type
  Response : Command → Type
  exec : Thread → (command : Command) → State →
    Outcome Panic (Response command × State)

/-- A program that returns an `α`. -/
inductive Program (Command : Type) (Response : Command → Type) (α : Type) where
  | done (value : α)
  | call (command : Command) (next : Response command → Program Command Response α)

namespace Program

variable {Command : Type} {Response : Command → Type}

protected def bind (first : Program Command Response α)
    (second : α → Program Command Response β) : Program Command Response β :=
  match first with
  | .done value => second value
  | .call command next => .call command fun r => (next r).bind second

instance : Monad (Program Command Response) where
  pure := .done
  bind := Program.bind

/-- The program of one command. -/
def command (command : Command) : Program Command Response (Response command) :=
  .call command .done

@[simp] theorem pure_eq (value : α) : (pure value : Program Command Response α) = .done value := rfl

@[simp] theorem done_bind (value : α) (second : α → Program Command Response β) :
    (Program.done value >>= second) = second value := rfl

@[simp] theorem call_bind (cmd : Command) (next : Response cmd → Program Command Response α)
    (second : α → Program Command Response β) :
    (Program.call cmd next >>= second) = .call cmd fun r => next r >>= second := rfl

@[simp] theorem command_bind (cmd : Command) (second : Response cmd → Program Command Response β) :
    (Program.command cmd >>= second) = .call cmd second := rfl

/-- Run a program to its end with no other thread in between. -/
def run {Thread State Panic : Type} (shared : Shared Thread State Panic)
    (t : Thread) : Program shared.Command shared.Response α → State →
    Outcome Panic (α × State)
  | .done value, s => .ok (value, s)
  | .call command next, s =>
    match shared.exec t command s with
    | .ok (r, after) => run shared t (next r) after
    | .blocked => .blocked
    | .panic reason => .panic reason

section

variable {Thread State Panic : Type} {shared : Shared Thread State Panic} {t : Thread}
  {first : Program shared.Command shared.Response α}
  {second : α → Program shared.Command shared.Response β} {s after : State} {value : β}

theorem run_bind (first : Program shared.Command shared.Response α)
    (second : α → Program shared.Command shared.Response β) (s : State) :
    (first >>= second).run shared t s = match first.run shared t s with
      | .ok (out, middle) => (second out).run shared t middle
      | .blocked => .blocked
      | .panic why => .panic why := by
  induction first generalizing s with
  | done out => rfl
  | call cmd next ih =>
    rw [call_bind, run, run]
    cases shared.exec t cmd s with
    | ok res => exact ih res.1 res.2
    | blocked | panic why => rfl

/-- What a run of two programs comes to, by what the first one comes to. -/
theorem run_bind_of_ok {out : α} {middle : State} (ran : first.run shared t s = .ok (out, middle)) :
    (first >>= second).run shared t s = (second out).run shared t middle := by
  rw [run_bind, ran]

theorem run_bind_of_panic {why : Panic} (panics : first.run shared t s = .panic why) :
    (first >>= second).run shared t s = .panic why := by
  rw [run_bind, panics]

theorem run_command_bind_of_panic {cmd : shared.Command} {why : Panic}
    {next : shared.Response cmd → Program shared.Command shared.Response β}
    (panics : shared.exec t cmd s = .panic why) :
    (Program.command cmd >>= next).run shared t s = .panic why := by
  rw [command_bind, run, panics]

theorem run_command_bind_of_ok {cmd : shared.Command} {r : shared.Response cmd}
    {next : shared.Response cmd → Program shared.Command shared.Response β}
    (did : shared.exec t cmd s = .ok (r, after)) :
    (Program.command cmd >>= next).run shared t s = (next r).run shared t after := by
  rw [command_bind, run, did]

/-- A run of two programs, one after the other, is a run of each. -/
theorem run_bind_ok (ran : (first >>= second).run shared t s = .ok (value, after)) : ∃ out mid,
    first.run shared t s = .ok (out, mid) ∧ (second out).run shared t mid = .ok (value, after) := by
  rw [run_bind] at ran
  cases ranFst : first.run shared t s with
  | ok res =>
    rw [ranFst] at ran
    exact ⟨res.1, res.2, rfl, ran⟩
  | blocked | panic why => simp [ranFst] at ran

theorem run_command_ok {cmd : shared.Command} {r : shared.Response cmd}
    (ran : (Program.command cmd).run shared t s = .ok (r, after)) :
    shared.exec t cmd s = .ok (r, after) := by
  rw [Program.command, run] at ran
  cases did : shared.exec t cmd s with
  | blocked | panic why => simp [did] at ran
  | ok res =>
    rw [did] at ran
    cases ran
    rfl

theorem run_command_bind_ok {cmd : shared.Command}
    {next : shared.Response cmd → Program shared.Command shared.Response β}
    (ran : (Program.command cmd >>= next).run shared t s = .ok (value, after)) : ∃ r mid,
    shared.exec t cmd s = .ok (r, mid) ∧ (next r).run shared t mid = .ok (value, after) := by
  obtain ⟨r, mid, ranFst, ranNext⟩ := run_bind_ok ran
  exact ⟨r, mid, run_command_ok ranFst, ranNext⟩

end

end Program

end Foundation
