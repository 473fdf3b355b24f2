import Xv6.Foundation.Pool

/-! # Sleep and wakeup

`sleep`, `wakeup`, `sched`, `yield`, `scheduler` and `kill` of `proc.c`, together
with a spin lock `lk` and the data that it protects. Locks are mutual exclusion:
`acquire` waits until the lock is free. A context switch takes two steps, one in
each of the two contexts; the process's lock stays locked between them, and the
context that goes on is the one that releases it. -/

namespace Xv6

open Foundation

/-! ## State -/

/-- `enum procstate`, for processes that exist and have not exited. -/
inductive ProcState
  | sleeping
  | runnable
  | running
deriving DecidableEq

/-- Whether the hart is on its way between the scheduler and the process. -/
inductive Switch
  | settled
  | toProcess
  | toScheduler
deriving DecidableEq

/-- `struct proc`, as far as it takes part in scheduling. The number `noff` of
`push_off`s and the pending timer interrupt are those of the hart that runs the
process. The field `entering` is a record of the run: the channel of a call of
`sleep` that has released `lk` and has not switched yet. -/
structure ProcEntry (Chan : Type) where
  lock : Bool
  state : ProcState
  chan : Option Chan
  killed : Bool
  noff : Nat
  timer : Bool
  swtch : Switch
  entering : Option Chan

/-- The processes, the lock `lk`, the data that it protects, and what other
operations work on. -/
structure Kernel (Pid Chan Data Aux : Type) where
  lk : Bool
  data : Data
  aux : Aux
  procs : Pid → ProcEntry Chan

/-- A kernel thread: that of a process, or the scheduler of a hart. -/
inductive Context (Pid Hart : Type)
  | process (p : Pid)
  | scheduler (hart : Hart)
deriving DecidableEq

/-- What the code that uses `lk` does: actions on the data while it holds the
lock, and operations that do not need the lock. -/
structure Client (Thread Data Aux : Type) where
  Action : Type
  Result : Action → Type
  act : Thread → (action : Action) → Data → Aux → Result action × Data × Aux
  Operation : Type
  Answer : Operation → Type
  operate : Thread → (operation : Operation) → Aux → Answer operation × Aux

/-- The panics of `sched`. -/
inductive SchedPanic
  | schedLock
  | schedLocks
  | schedRunning
deriving DecidableEq

/-! ## Commands -/

section

variable {Pid Hart Chan Data Aux : Type}

/-- The argument of `release` says whether it is `sleep` that releases `lk`. -/
inductive KernelCommand (client : Client (Context Pid Hart) Data Aux) (Chan : Type)
  | acquire
  | release (entering : Option Chan)
  | access (action : client.Action)
  | operate (operation : client.Operation)
  | acquireProc (p : Pid)
  | releaseProc (p : Pid)
  | getProc (p : Pid)
  | setState (p : Pid) (s : ProcState)
  | setChan (p : Pid) (chan : Option Chan)
  | setKilled (p : Pid)
  | getKilled (p : Pid)
  | sched (p : Pid)
  | resume (p : Pid)
  | swtch (p : Pid)
  | switched (p : Pid)
  | interrupt (p : Pid)
  | tick (p : Pid)
  | halt

@[reducible] def KernelCommand.Response {client : Client (Context Pid Hart) Data Aux} :
    KernelCommand client Chan → Type
  | .access action => client.Result action
  | .operate operation => client.Answer operation
  | .getProc _ => ProcState × Option Chan
  | .getKilled _ => Bool
  | .interrupt _ => Bool
  | _ => Unit

namespace Kernel

variable [DecidableEq Pid]

/-- Change one process. -/
def modify (s : Kernel Pid Chan Data Aux) (p : Pid)
    (change : ProcEntry Chan → ProcEntry Chan) : Kernel Pid Chan Data Aux :=
  { s with procs := Function.update s.procs p (change (s.procs p)) }

/-- `push_off` and `pop_off` of a thread. -/
def countOff (s : Kernel Pid Chan Data Aux) (count : Nat → Nat) :
    Context Pid Hart → Kernel Pid Chan Data Aux
  | .process p => s.modify p fun proc => { proc with noff := count proc.noff }
  | .scheduler _ => s

def pushOff (s : Kernel Pid Chan Data Aux) (t : Context Pid Hart) :
    Kernel Pid Chan Data Aux :=
  s.countOff (· + 1) t

def popOff (s : Kernel Pid Chan Data Aux) (t : Context Pid Hart) :
    Kernel Pid Chan Data Aux :=
  s.countOff (· - 1) t

def setEntering (s : Kernel Pid Chan Data Aux) (entering : Option Chan) :
    Context Pid Hart → Kernel Pid Chan Data Aux
  | .process p => s.modify p fun proc => { proc with entering := entering }
  | .scheduler _ => s

def exec {client : Client (Context Pid Hart) Data Aux} (t : Context Pid Hart) :
    (cmd : KernelCommand client Chan) → Kernel Pid Chan Data Aux →
      Outcome SchedPanic (cmd.Response × Kernel Pid Chan Data Aux)
  | .acquire, s =>
    if s.lk then .blocked
    else .ok ((), { s.pushOff t with lk := true })
  | .release entering, s =>
    .ok ((), { (s.popOff t).setEntering entering t with lk := false })
  | .access action, s =>
    let (out, data, aux) := client.act t action s.data s.aux
    .ok (out, { s with data := data, aux := aux })
  | .operate operation, s =>
    let (answer, aux) := client.operate t operation s.aux
    .ok (answer, { s with aux := aux })
  | .acquireProc p, s =>
    if (s.procs p).lock then .blocked
    else .ok ((), (s.modify p fun proc => { proc with lock := true }).pushOff t)
  | .releaseProc p, s =>
    .ok ((), (s.modify p fun proc => { proc with lock := false }).popOff t)
  | .getProc p, s => .ok (((s.procs p).state, (s.procs p).chan), s)
  | .setState p value, s => .ok ((), s.modify p fun proc => { proc with state := value })
  | .setChan p value, s => .ok ((), s.modify p fun proc => { proc with chan := value })
  | .setKilled p, s => .ok ((), s.modify p fun proc => { proc with killed := true })
  | .getKilled p, s => .ok ((s.procs p).killed, s)
  | .sched p, s =>
    if (s.procs p).lock = false then .panic .schedLock
    else if (s.procs p).noff ≠ 1 then .panic .schedLocks
    else if (s.procs p).state = .running then .panic .schedRunning
    else .ok ((), s.modify p fun proc =>
      { proc with swtch := .toScheduler, entering := none })
  | .resume p, s =>
    if (s.procs p).swtch = .toProcess then
      .ok ((), s.modify p fun proc => { proc with swtch := .settled })
    else .blocked
  | .swtch p, s => .ok ((), s.modify p fun proc => { proc with swtch := .toProcess })
  | .switched p, s =>
    if (s.procs p).swtch = .toScheduler then
      .ok ((), s.modify p fun proc => { proc with swtch := .settled })
    else .blocked
  -- Interrupts are on when no lock is held.
  | .interrupt p, s =>
    if (s.procs p).timer && (s.procs p).noff = 0 then
      .ok (true, s.modify p fun proc => { proc with timer := false })
    else .ok (false, s)
  | .tick p, s => .ok ((), s.modify p fun proc => { proc with timer := true })
  | .halt, _ => .blocked

/-- Every process can be dispatched for the first time: it is where `fork` left
it, with the count that the scheduler's `acquire` of its lock will make. -/
def start (data : Data) (aux : Aux) : Kernel Pid Chan Data Aux where
  lk := false
  data := data
  aux := aux
  procs _ :=
    { lock := false
      state := .runnable
      chan := none
      killed := false
      noff := 1
      timer := false
      swtch := .settled
      entering := none }

end Kernel

end

/-! ## Programs -/

section

variable {Pid Hart Chan Data Aux : Type}

abbrev KernelProgram (client : Client (Context Pid Hart) Data Aux) (Chan α : Type) :=
  Program (KernelCommand client Chan) KernelCommand.Response α

variable {client : Client (Context Pid Hart) Data Aux}

namespace KernelProgram

def step (cmd : KernelCommand client Chan) :
    KernelProgram client Chan cmd.Response :=
  Program.command cmd

def access (client : Client (Context Pid Hart) Data Aux) (action : client.Action) :
    KernelProgram client Chan (client.Result action) :=
  step (.access action)

def operate (client : Client (Context Pid Hart) Data Aux) (operation : client.Operation) :
    KernelProgram client Chan (client.Answer operation) :=
  step (.operate operation)

/-- `yield`, called with interrupts off. -/
def yield (p : Pid) : KernelProgram client Chan Unit := do
  step (.acquireProc p)
  step (.setState p .runnable)
  step (.sched p)
  step (.resume p)
  step (.releaseProc p)

/-- What a timer interrupt does to a process that runs in the kernel. -/
def kerneltrap : Context Pid Hart → KernelProgram client Chan Unit
  | .process p => do
      let pending : Bool ← step (.interrupt p)
      if pending then yield p
  | .scheduler _ => pure ()

/-- `acquire(lk)`; an interrupt may come before. -/
def acquire (t : Context Pid Hart) : KernelProgram client Chan Unit := do
  kerneltrap t
  step .acquire

def release : KernelProgram client Chan Unit :=
  step (.release none)

/-- `acquire(&p->lock)`; an interrupt may come before. -/
def acquireProc (t : Context Pid Hart) (p : Pid) :
    KernelProgram client Chan Unit := do
  kerneltrap t
  step (.acquireProc p)

/-- `sleep(chan, lk)`, where `lk` is not the lock of the process. -/
def sleep (p : Pid) (chan : Chan) : KernelProgram client Chan Unit := do
  acquireProc (.process p) p
  step (.release (some chan))
  step (.setChan p (some chan))
  step (.setState p .sleeping)
  step (.sched p)
  step (.resume p)
  step (.setChan p none)
  step (.releaseProc p)
  acquire (.process p)

/-- `wakeup(chan)`, for the processes that its loop has not visited. -/
def wakeup [DecidableEq Chan] (t : Context Pid Hart) (chan : Chan) :
    List Pid → KernelProgram client Chan Unit
  | [] => pure ()
  | p :: rest => do
      acquireProc t p
      let proc : ProcState × Option Chan ← step (.getProc p)
      if proc = (.sleeping, some chan) then step (.setState p .runnable)
      step (.releaseProc p)
      wakeup t chan rest

/-- `kill(pid)`, for the processes that its loop has not visited. Processes stand
for their pids. -/
def kill [DecidableEq Pid] (t : Context Pid Hart) (pid : Pid) :
    List Pid → KernelProgram client Chan Int
  | [] => return -1
  | p :: rest => do
      acquireProc t p
      if p = pid then
        step (.setKilled p)
        let proc : ProcState × Option Chan ← step (.getProc p)
        if proc.1 = .sleeping then step (.setState p .runnable)
        step (.releaseProc p)
        return 0
      else
        step (.releaseProc p)
        kill t pid rest

/-- One round of `scheduler`, from some process on. -/
def scheduler : List Pid → KernelProgram client Chan Unit
  | [] => pure ()
  | p :: rest => do
      step (.acquireProc p)
      let proc : ProcState × Option Chan ← step (.getProc p)
      if proc.1 = .runnable then
        step (.setState p .running)
        step (.swtch p)
        step (.switched p)
      step (.releaseProc p)
      scheduler rest

/-- A process's first steps. -/
def forkret (p : Pid) : KernelProgram client Chan Unit := do
  step (.resume p)
  step (.releaseProc p)

end KernelProgram

/-! ## The system -/

/-- A thread calls the code that uses `lk`, or `kill`; a hart goes once through
the process table, or gets a timer interrupt. -/
inductive KernelCall (Call Pid : Type)
  | client (call : Call)
  | kill (pid : Pid)
  | scheduler
  | tick (p : Pid)

/-- What a thread keeps between calls: whether it has run before, as the harts
have from the start, and what its last call came to. -/
structure KernelLocal (Value : Type) where
  born : Bool
  value : Value

/-- Threads that call the programs of a client. The process table is a list. -/
def kernelSystem [DecidableEq Pid] {Call Value : Type}
    (client : Client (Context Pid Hart) Data Aux) (Chan : Type)
    (table : List Pid)
    (prog : Context Pid Hart → Call → Value → KernelProgram client Chan Value) :
    System (Context Pid Hart) (Kernel Pid Chan Data Aux) SchedPanic
      (KernelLocal Value) (KernelCall Call Pid) where
  Command := KernelCommand client Chan
  Response := KernelCommand.Response
  exec := Kernel.exec
  body
    | .process p, call, kept => do
        if kept.born = false then KernelProgram.forkret p
        match call with
        | .client call => do
            let value ← prog (.process p) call kept.value
            return { born := true, value := value }
        | .kill pid => do
            let _ ← KernelProgram.kill (.process p) pid table
            return { kept with born := true }
        | _ => return { kept with born := true }
    | .scheduler hart, call, kept => do
        match call with
        | .client call => do
            let value ← prog (.scheduler hart) call kept.value
            return { kept with value := value }
        | .scheduler => do
            if kept.born then KernelProgram.scheduler table
            return kept
        | .tick p => do
            KernelProgram.step (.tick p)
            return kept
        | .kill _ => return kept

/-- What threads keep before anything has happened. -/
def KernelLocal.start {Value : Type} (values : Context Pid Hart → Value)
    (t : Context Pid Hart) : KernelLocal Value where
  born :=
    match t with
    | .process _ => false
    | .scheduler _ => true
  value := values t

/-- The pool in which nothing has happened yet. -/
def kernelStart [DecidableEq Pid] {Call Value : Type}
    (client : Client (Context Pid Hart) Data Aux) (Chan : Type)
    (table : List Pid)
    (prog : Context Pid Hart → Call → Value → KernelProgram client Chan Value)
    (data : Data) (aux : Aux) (values : Context Pid Hart → Value) :
    Pool (kernelSystem client Chan table prog) :=
  System.idle _ (Kernel.start data aux) (KernelLocal.start values)

end

end Xv6
