import Xv6.Proc.Sleep

/-! # The life of a process

The process table of `proc.c`: `allocproc`, `fork`, `exit`, `wait` and `kill`, with
`sleep`, `wakeup`, `yield`, `sched` and `scheduler` as far as they move a process
between states. A lock names the hart that holds it, as `lk->cpu` does. A thread
takes steps only while its registers are on a hart: `swtch` moves a hart from one
thread to another, and the lock of the process stays with the hart. Locks other than
those of processes, and so the count of locks that `sched` looks at, are left out.

A slot of the table is the thread of all processes that live in it one after
another: after `exit` the thread is where `forkret` starts the next one. -/

namespace Xv6

open Foundation Function

/-! ## State -/

/-- `enum procstate`. -/
inductive ProcStatus
  | unused
  | sleeping
  | runnable
  | running
  | zombie
deriving DecidableEq

/-- What a process sleeps on: the address of a `struct proc`, or another one. -/
inductive WaitChan (Slot : Type)
  | proc (p : Slot)
  | other (address : Nat)
deriving DecidableEq

/-- `struct proc`, as far as the life of a process goes. -/
structure ProcInfo (Slot : Type) where
  state : ProcStatus
  pid : BitVec 32
  parent : Option Slot
  chan : Option (WaitChan Slot)
  killed : Bool
  xstate : BitVec 32
deriving DecidableEq

/-- What `freeproc` leaves. -/
def ProcInfo.freed {Slot : Type} : ProcInfo Slot where
  state := .unused
  pid := 0
  parent := none
  chan := none
  killed := false
  xstate := 0

/-- A process has become a zombie. -/
structure Death (Slot : Type) where
  slot : Slot
  pid : BitVec 32
  xstate : BitVec 32
deriving DecidableEq

/-- What is to be known of a dead process. -/
def ProcInfo.death {Slot : Type} (proc : ProcInfo Slot) (p : Slot) : Death Slot where
  slot := p
  pid := proc.pid
  xstate := proc.xstate

/-- What comes of a call of `wait`: whether it was given an address, what it returns,
and what it has stored there. -/
structure WaitResult where
  asked : Bool
  returned : BitVec 32
  stored : Option (BitVec 32)
deriving DecidableEq

/-- A call of `wait` has freed a process: what the slot held at that time, who
waited, and what comes of the call. -/
structure Reap (Slot : Type) where
  death : Death Slot
  parent : Option Slot
  waiter : Slot
  result : WaitResult
deriving DecidableEq

/-- The process table, its locks and the harts. `cpu` is the hart that a process's
registers are on, and nothing when they are saved in `p->context`; `scheduling` says
whether a hart runs its scheduler, and `cpus` is `c->proc`. `memory` is the `int` of a
process that `wait` is given the address of. The last three fields are a record of the
run; `waited` is what a process has freed since it last called `wait`. -/
structure ProcTable (Slot Hart : Type) where
  procs : Slot → ProcInfo Slot
  lock : Slot → Option Hart
  cpu : Slot → Option Hart
  scheduling : Hart → Bool
  cpus : Hart → Option Slot
  timer : Slot → Bool
  nextpid : BitVec 32
  memory : Slot → Option (BitVec 32)
  deaths : List (Death Slot)
  reaps : List (Reap Slot)
  waited : Slot → Option (Reap Slot)

/-- The panics of the source, and four faults that it does not look for: the use of
a null parent, a process made runnable before its registers are saved, a slot freed
while a hart is on its kernel stack, and two harts on one kernel stack. -/
inductive LifePanic
  | acquire
  | release
  | schedLock
  | schedRunning
  | wakeup1
  | initExiting
  | nullParent
  | notSaved
  | stackInUse
  | twoHarts
deriving DecidableEq

/-! ## Commands -/

/-- `setState` is what a process does to its own state, `wake` and `launch` make
another process runnable, and `holding` is the check of `wakeup1`. The argument of
`freeproc` is given when `wait` calls it, `enterWait` begins its record, and `copyout` is
its call of that function when it succeeds. -/
inductive LifeCommand (Slot : Type)
  | acquire (p : Slot)
  | release (p : Slot)
  | holding (p : Slot)
  | getProc (p : Slot)
  | getParent (p : Slot)
  | setState (p : Slot) (s : ProcStatus)
  | wake (p : Slot)
  | launch (p : Slot)
  | setChan (p : Slot) (chan : Option (WaitChan Slot))
  | setKilled (p : Slot)
  | setPid (p : Slot) (pid : BitVec 32)
  | setParent (p parent : Slot)
  | setXstate (p : Slot) (status : BitVec 32)
  | zombie (p : Slot)
  | enterWait
  | copyout (status : BitVec 32)
  | freeproc (p : Slot) (out : Option WaitResult)
  | allocpid
  | sched (p : Slot)
  | dispatch (p : Slot)
  | swtch (p : Slot)
  | undispatch
  | interrupt (p : Slot)
  | tick (p : Slot)
  | panic (reason : LifePanic)
  | halt

@[reducible] def LifeCommand.Response {Slot : Type} : LifeCommand Slot → Type
  | .getProc _ => ProcInfo Slot
  | .getParent _ => Option Slot
  | .allocpid => BitVec 32
  | .interrupt _ => Bool
  | _ => Unit

namespace ProcTable

variable {Slot Hart : Type} [DecidableEq Slot] [DecidableEq Hart]

/-- The hart that a thread is on. -/
def hart (table : ProcTable Slot Hart) : Context Slot Hart → Option Hart
  | .process p => table.cpu p
  | .scheduler h => if table.scheduling h then some h else none

/-- Change one slot. -/
def modify (table : ProcTable Slot Hart) (p : Slot)
    (change : ProcInfo Slot → ProcInfo Slot) : ProcTable Slot Hart :=
  { table with procs := update table.procs p (change (table.procs p)) }

def setLock (table : ProcTable Slot Hart) (p : Slot) (holder : Option Hart) :
    ProcTable Slot Hart :=
  { table with lock := update table.lock p holder }

omit [DecidableEq Hart] in
theorem setLock_ne (table : ProcTable Slot Hart) {p q : Slot} (ne : q ≠ p)
    (holder : Option Hart) : (table.setLock p holder).lock q = table.lock q := update_of_ne ne _ _

/-- A hart goes over to a process. -/
def enter (table : ProcTable Slot Hart) (h : Hart) (p : Slot) : ProcTable Slot Hart :=
  { table with
    cpu := update table.cpu p (some h)
    scheduling := update table.scheduling h false }

/-- A hart comes back from a process. -/
def leave (table : ProcTable Slot Hart) (h : Hart) (p : Slot) : ProcTable Slot Hart :=
  { table with
    cpu := update table.cpu p none
    scheduling := update table.scheduling h true }

def setCpus (table : ProcTable Slot Hart) (h : Hart) (p : Option Slot) :
    ProcTable Slot Hart :=
  { table with cpus := update table.cpus h p }

/-- A process becomes a zombie. -/
def die (table : ProcTable Slot Hart) (p : Slot) : ProcTable Slot Hart :=
  { table.modify p fun proc => { proc with state := .zombie } with
    deaths := table.deaths ++ [(table.procs p).death p] }

/-- What `freeproc` records when `wait` calls it. -/
def reaping (table : ProcTable Slot Hart) (t : Context Slot Hart) (p : Slot) :
    Option WaitResult → List (Reap Slot)
  | none => []
  | some out =>
    match t with
    | .process waiter =>
      [{ death := (table.procs p).death p
         parent := (table.procs p).parent
         waiter := waiter
         result := out }]
    | .scheduler _ => []

/-- `freeproc`. -/
def free (table : ProcTable Slot Hart) (t : Context Slot Hart) (p : Slot)
    (out : Option WaitResult) : ProcTable Slot Hart :=
  { table.modify p fun _ => .freed with
    reaps := table.reaps ++ table.reaping t p out
    waited := fun q => ((table.reaping t p out).find? (·.waiter = q)).or (table.waited q) }

/-- Change what is kept of a thread that is a process. -/
def own {α : Type} (t : Context Slot Hart) (value : α) (all : Slot → α) : Slot → α :=
  match t with
  | .process p => update all p value
  | .scheduler _ => all

/-- One step of a thread that is on a hart. -/
def execOn (t : Context Slot Hart) (h : Hart) :
    (cmd : LifeCommand Slot) → ProcTable Slot Hart →
      Outcome LifePanic (cmd.Response × ProcTable Slot Hart)
  | .acquire p, table =>
    match table.lock p with
    | none => .ok ((), table.setLock p (some h))
    | some holder => if holder = h then .panic .acquire else .blocked
  | .release p, table =>
    if table.lock p = some h then .ok ((), table.setLock p none) else .panic .release
  | .holding p, table => if table.lock p = some h then .ok ((), table) else .panic .wakeup1
  | .getProc p, table => .ok (table.procs p, table)
  | .getParent p, table => .ok ((table.procs p).parent, table)
  | .setState p s, table => .ok ((), table.modify p fun proc => { proc with state := s })
  | .wake p, table =>
    if table.cpu p = none then
      .ok ((), table.modify p fun proc => { proc with state := .runnable })
    else .panic .notSaved
  | .launch p, table => .ok ((), table.modify p fun proc => { proc with state := .runnable })
  | .setChan p chan, table => .ok ((), table.modify p fun proc => { proc with chan := chan })
  | .setKilled p, table => .ok ((), table.modify p fun proc => { proc with killed := true })
  | .setPid p pid, table => .ok ((), table.modify p fun proc => { proc with pid := pid })
  | .setParent p parent, table =>
    .ok ((), table.modify p fun proc => { proc with parent := some parent })
  | .setXstate p status, table =>
    .ok ((), table.modify p fun proc => { proc with xstate := status })
  | .zombie p, table => .ok ((), table.die p)
  | .enterWait, table => .ok ((), { table with waited := own t none table.waited })
  | .copyout status, table =>
    .ok ((), { table with memory := own t (some status) table.memory })
  | .freeproc p out, table =>
    if table.cpu p = none then .ok ((), table.free t p out)
    else .panic .stackInUse
  | .allocpid, table => .ok (table.nextpid, { table with nextpid := table.nextpid + 1 })
  | .sched p, table =>
    if table.lock p ≠ some h then .panic .schedLock
    else if (table.procs p).state = .running then .panic .schedRunning
    else .ok ((), table.leave h p)
  | .dispatch p, table =>
    .ok ((), (table.modify p fun proc => { proc with state := .running }).setCpus h (some p))
  | .swtch p, table =>
    if table.cpu p = none then .ok ((), table.enter h p) else .panic .twoHarts
  | .undispatch, table => .ok ((), table.setCpus h none)
  | .interrupt p, table =>
    .ok (table.timer p, { table with timer := update table.timer p false })
  | .tick p, table => .ok ((), { table with timer := update table.timer p true })
  | .panic reason, _ => .panic reason
  | .halt, _ => .blocked

def exec (t : Context Slot Hart) (cmd : LifeCommand Slot)
    (table : ProcTable Slot Hart) :
    Outcome LifePanic (cmd.Response × ProcTable Slot Hart) :=
  match table.hart t with
  | none => .blocked
  | some h => execOn t h cmd table

/-- The table that `userinit` leaves. -/
def start (init : Slot) : ProcTable Slot Hart where
  procs p := if p = init then { ProcInfo.freed with state := .runnable, pid := 1 } else .freed
  lock _ := none
  cpu _ := none
  scheduling _ := true
  cpus _ := none
  timer _ := false
  nextpid := 2
  memory _ := none
  deaths := []
  reaps := []
  waited _ := none

end ProcTable

/-! ## Programs -/

abbrev LifeProgram (Slot α : Type) :=
  Program (LifeCommand Slot) LifeCommand.Response α

namespace LifeProgram

variable {Slot Hart : Type} [DecidableEq Slot]

def step (cmd : LifeCommand Slot) : LifeProgram Slot cmd.Response :=
  Program.command cmd

def getProc (p : Slot) : LifeProgram Slot (ProcInfo Slot) :=
  step (.getProc p)

def getParent (p : Slot) : LifeProgram Slot (Option Slot) :=
  step (.getParent p)

def yield (p : Slot) : LifeProgram Slot Unit := do
  step (.acquire p)
  step (.setState p .runnable)
  step (.sched p)
  step (.release p)

/-- What a timer interrupt does to a process that runs in the kernel. -/
def kerneltrap : Context Slot Hart → LifeProgram Slot Unit
  | .process p => do
      let pending : Bool ← step (.interrupt p)
      if pending then yield p
  | .scheduler _ => pure ()

/-- `acquire(&p->lock)` by a thread that holds no lock; an interrupt may come
before. -/
def acquire (t : Context Slot Hart) (p : Slot) : LifeProgram Slot Unit := do
  kerneltrap t
  step (.acquire p)

/-- `sleep(chan, lk)`, where `lk` is not the lock of the process. -/
def sleep (p : Slot) (address : Nat) : LifeProgram Slot Unit := do
  step (.acquire p)
  step (.setChan p (some (.other address)))
  step (.setState p .sleeping)
  step (.sched p)
  step (.setChan p none)
  step (.release p)

/-- `wakeup(chan)`, for the slots that its loop has not visited. -/
def wakeup (t : Context Slot Hart) (address : Nat) : List Slot → LifeProgram Slot Unit
  | [] => pure ()
  | p :: rest => do
      acquire t p
      let proc ← getProc p
      if proc.state = .sleeping ∧ proc.chan = some (.other address) then step (.wake p)
      step (.release p)
      wakeup t address rest

def wakeup1 (p : Slot) : LifeProgram Slot Unit := do
  step (.holding p)
  let proc ← getProc p
  if proc.chan = some (.proc p) ∧ proc.state = .sleeping then step (.wake p)

/-- `kill(pid)`, for the slots that its loop has not visited. -/
def kill (t : Context Slot Hart) (pid : BitVec 32) :
    List Slot → LifeProgram Slot (BitVec 32)
  | [] => return -1
  | p :: rest => do
      acquire t p
      let proc ← getProc p
      if proc.pid = pid then
        step (.setKilled p)
        if proc.state = .sleeping then step (.wake p)
        step (.release p)
        return 0
      else
        step (.release p)
        kill t pid rest

/-- `allocproc`, for the slots that its loop has not visited. The flags say whether
there is memory for the trapframe and for the page table. -/
def allocproc (t : Context Slot Hart) (trapframe pagetable : Bool) :
    List Slot → LifeProgram Slot (Option Slot)
  | [] => return none
  | p :: rest => do
      acquire t p
      let proc ← getProc p
      if proc.state = .unused then
        let pid : BitVec 32 ← step .allocpid
        step (.setPid p pid)
        if trapframe = false then
          step (.release p)
          return none
        else if pagetable = false then
          step (.freeproc p none)
          step (.release p)
          return none
        else return some p
      else
        step (.release p)
        allocproc t trapframe pagetable rest

/-- What memory a call of `fork` finds: for the trapframe, for the page table, and
for the copy of the parent's memory. -/
structure ForkMemory where
  trapframe : Bool
  pagetable : Bool
  uvmcopy : Bool
deriving DecidableEq

def fork (t : Context Slot Hart) (table : List Slot) (p : Slot) (memory : ForkMemory) :
    LifeProgram Slot (BitVec 32) := do
  let found ← allocproc t memory.trapframe memory.pagetable table
  match found with
  | none => return -1
  | some np =>
    if memory.uvmcopy = false then do
      step (.freeproc np none)
      step (.release np)
      return -1
    else do
      step (.setParent np p)
      let proc ← getProc np
      step (.launch np)
      step (.release np)
      return proc.pid

/-- `reparent(p)`, for the slots that its loop has not visited. -/
def reparent (init p : Slot) : List Slot → LifeProgram Slot Unit
  | [] => pure ()
  | pp :: rest => do
      let parent ← getParent pp
      if parent = some p then do
        step (.acquire pp)
        step (.setParent pp init)
        step (.release pp)
        reparent init p rest
      else reparent init p rest

/-- `exit`, from where it locks the parent. -/
def exitTo (t : Context Slot Hart) (table : List Slot) (init p original : Slot)
    (status : BitVec 32) : LifeProgram Slot Unit := do
  acquire t original
  step (.acquire p)
  reparent init p table
  wakeup1 original
  step (.setXstate p status)
  step (.zombie p)
  step (.release original)
  step (.sched p)

/-- `exit(status)`; the closing of files is left out. -/
def exit (t : Context Slot Hart) (table : List Slot) (init p : Slot)
    (status : BitVec 32) : LifeProgram Slot Unit :=
  if p = init then step (.panic .initExiting)
  else do
    acquire t init
    wakeup1 init
    step (.release init)
    acquire t p
    let proc ← getProc p
    step (.release p)
    match proc.parent with
    | none => step (.panic .nullParent)
    | some original => exitTo t table init p original status

/-- What a scan of the table by `wait` comes to. -/
inductive Scan
  | kids (havekids : Bool)
  | finished (value : BitVec 32)
deriving DecidableEq

/-- `copyout` where it succeeds, if there is an address. -/
def copyStatus (addr : Bool) (status : BitVec 32) : LifeProgram Slot Unit :=
  if addr then step (.copyout status) else pure ()

/-- The scan of `wait`, for the slots that its loop has not visited: whether `addr` is
not 0, and whether `copyout` can write there. -/
def waitScan (p : Slot) (addr writable : Bool) : Bool → List Slot → LifeProgram Slot Scan
  | havekids, [] => return .kids havekids
  | havekids, np :: rest => do
      let parent ← getParent np
      if parent = some p then do
        step (.acquire np)
        let proc ← getProc np
        if proc.state = .zombie then
          if addr = true ∧ writable = false then do
            step (.release np)
            step (.release p)
            return .finished (-1)
          else do
            copyStatus addr proc.xstate
            step (.freeproc np (some
              { asked := addr
                returned := proc.pid
                stored := if addr then some proc.xstate else none }))
            step (.release np)
            step (.release p)
            return .finished proc.pid
        else do
          step (.release np)
          waitScan p addr writable true rest
      else waitScan p addr writable havekids rest

/-- The loop of `wait`, from where it holds `p->lock`. -/
def waitLoop (table : List Slot) (p : Slot) (addr writable : Bool) :
    Nat → LifeProgram Slot (BitVec 32)
  | 0 => do
      step .halt
      return -1
  | fuel + 1 => do
      let scan ← waitScan p addr writable false table
      match scan with
      | .finished value => return value
      | .kids havekids =>
        let proc ← getProc p
        if havekids = false ∨ proc.killed = true then do
          step (.release p)
          return -1
        else do
          step (.setChan p (some (.proc p)))
          step (.setState p .sleeping)
          step (.sched p)
          step (.setChan p none)
          waitLoop table p addr writable fuel

def wait (t : Context Slot Hart) (table : List Slot) (p : Slot) (addr writable : Bool)
    (fuel : Nat) : LifeProgram Slot (BitVec 32) := do
  acquire t p
  waitLoop table p addr writable fuel

/-- One round of `scheduler`, from some slot on. -/
def scheduler : List Slot → LifeProgram Slot Unit
  | [] => pure ()
  | p :: rest => do
      step (.acquire p)
      let proc ← getProc p
      if proc.state = .runnable then do
        step (.dispatch p)
        step (.swtch p)
        step .undispatch
        step (.release p)
        scheduler rest
      else do
        step (.release p)
        scheduler rest

/-- A process's first step: the scheduler has left it holding `p->lock`. -/
def forkret (p : Slot) : LifeProgram Slot Unit :=
  step (.release p)

end LifeProgram

/-! ## The system -/

/-- System calls and interrupts of a process, and rounds and interrupts of a hart. -/
inductive LifeCall (Slot : Type)
  | fork (memory : LifeProgram.ForkMemory)
  | exit (status : BitVec 32)
  | wait (addr writable : Bool) (fuel : Nat)
  | kill (pid : BitVec 32)
  | yield
  | sleep (address : Nat)
  | wakeup (address : Nat)
  | scheduler
  | tick (p : Slot)

/-- What a thread keeps between calls: whether the process in the slot has run, what its
last call returned, and, if that was `wait`, whether it was given an address. -/
structure LifeLocal where
  born : Bool
  value : BitVec 32
  waited : Option Bool
deriving DecidableEq

section

variable {Slot Hart : Type} [DecidableEq Slot] [DecidableEq Hart]

open LifeProgram in
/-- What a process does that has run before. -/
def lifeProgram (t : Context Slot Hart) (table : List Slot) (init p : Slot)
    (value : BitVec 32) : LifeCall Slot → LifeProgram Slot LifeLocal
  | .fork memory => do
      let pid ← fork t table p memory
      return ⟨true, pid, none⟩
  | .exit status => do
      exit t table init p status
      return ⟨false, 0, none⟩
  | .wait addr writable fuel => do
      step .enterWait
      let pid ← wait t table p addr writable fuel
      return ⟨true, pid, some addr⟩
  | .kill pid => do
      let out ← kill t pid table
      return ⟨true, out, none⟩
  | .yield => do
      yield p
      return ⟨true, value, none⟩
  | .sleep address => do
      sleep p address
      return ⟨true, value, none⟩
  | .wakeup address => do
      wakeup t address table
      return ⟨true, value, none⟩
  | .scheduler | .tick _ => return ⟨true, value, none⟩

open LifeProgram in
def lifeBody (table : List Slot) (init : Slot) :
    Context Slot Hart → LifeCall Slot → LifeLocal → LifeProgram Slot LifeLocal
  | .process p, call, kept =>
    if kept.born then lifeProgram (.process p : Context Slot Hart) table init p kept.value call
    else do
      forkret p
      lifeProgram (.process p : Context Slot Hart) table init p kept.value call
  | .scheduler _, .scheduler, kept => do
      scheduler table
      return kept
  | .scheduler h, .wakeup address, kept => do
      wakeup (.scheduler h : Context Slot Hart) address table
      return kept
  | .scheduler _, .tick p, kept => do
      step (.tick p)
      return kept
  | .scheduler _, _, kept => return kept

/-- The process table is a list of slots; `init` is the slot of `initproc`. -/
def lifeSystem (Hart : Type) [DecidableEq Hart] (table : List Slot) (init : Slot) :
    System (Context Slot Hart) (ProcTable Slot Hart) LifePanic LifeLocal (LifeCall Slot) where
  Command := LifeCommand Slot
  Response := LifeCommand.Response
  exec := ProcTable.exec
  body := lifeBody table init

/-- The first process has been made and has not run. -/
def lifeStart (Hart : Type) [DecidableEq Hart] (table : List Slot) (init : Slot) :
    Pool (lifeSystem Hart table init) :=
  System.idle _ (ProcTable.start init) fun _ => ⟨false, 0, none⟩

end

end Xv6
