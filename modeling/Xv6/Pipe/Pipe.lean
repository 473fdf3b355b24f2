import Xv6.Proc.Sleep

/-! # Pipes

`pipe.c` for one pipe, used by any number of processes through the files of its two
ends, with the parts of `file.c` that count the references to these files. -/

namespace Xv6

open Foundation Function

/-! ## The pipe -/

/-- `PIPESIZE`. -/
def pipeSize : Nat := 512

inductive PipeEnd
  | read
  | write
deriving DecidableEq

/-- `&pi->nread` and `&pi->nwrite`. -/
inductive PipeChan
  | nread
  | nwrite
deriving DecidableEq

/-- The channel that `pipeclose` wakes up when it closes an end. -/
def PipeEnd.opposite : PipeEnd → PipeChan
  | .read => .nwrite
  | .write => .nread

/-- `struct pipe`, without its lock. -/
structure Pipe where
  data : Nat → UInt8
  nread : UInt32
  nwrite : UInt32
  readopen : Bool
  writeopen : Bool

namespace Pipe

def isEmpty (pipe : Pipe) : Bool :=
  pipe.nread = pipe.nwrite

def isFull (pipe : Pipe) : Bool :=
  pipe.nwrite = pipe.nread + pipeSize.toUInt32

/-- `pi->data[pi->nwrite++ % PIPESIZE] = ch`. -/
def put (pipe : Pipe) (ch : UInt8) : Pipe :=
  { pipe with
    data := update pipe.data (pipe.nwrite.toNat % pipeSize) ch
    nwrite := pipe.nwrite + 1 }

/-- `pi->data[pi->nread++ % PIPESIZE]`. -/
def take (pipe : Pipe) : UInt8 × Pipe :=
  (pipe.data (pipe.nread.toNat % pipeSize), { pipe with nread := pipe.nread + 1 })

def isOpen (pipe : Pipe) : PipeEnd → Bool
  | .read => pipe.readopen
  | .write => pipe.writeopen

def close (pipe : Pipe) : PipeEnd → Pipe
  | .read => { pipe with readopen := false }
  | .write => { pipe with writeopen := false }

/-- As `pipealloc` leaves it. -/
def alloc (data : Nat → UInt8) : Pipe where
  data := data
  nread := 0
  nwrite := 0
  readopen := true
  writeopen := true

end Pipe

/-- The pipe, and as a record of the run the bytes that were put into its buffer and
those that were taken out, first ones first. -/
structure PipeData where
  pipe : Pipe
  putIn : List UInt8
  takenOut : List UInt8

/-- For each end the process of every file descriptor that refers to its file, so that
the length of the list is the file's `ref`; how often the pipe was freed; and as a
record of the run how many bytes each process has put into the buffer since it last
called `write`. -/
structure PipeFiles (Pid : Type) where
  refs : PipeEnd → List Pid
  freed : Nat
  written : Pid → Nat

/-! ## Actions and operations -/

inductive PipeAction
  | isOpen (side : PipeEnd)
  | isEmpty
  | isFull
  | put (ch : UInt8)
  | take
  | close (side : PipeEnd)

@[reducible] def PipeAction.Result : PipeAction → Type
  | .put _ => Unit
  | .take => UInt8
  | .close _ => Unit
  | _ => Bool

/-- What processes do with their file descriptors, and `kfree`. -/
inductive PipeOperation (Pid : Type)
  | argfd (side : PipeEnd)
  | fileclose (side : PipeEnd)
  | filedup (side : PipeEnd) (child : Pid)
  | kfree

@[reducible] def PipeOperation.Answer {Pid : Type} : PipeOperation Pid → Type
  | .argfd _ => Bool
  | .fileclose _ => Bool
  | _ => Unit

namespace PipeFiles

variable {Pid : Type}

def setRefs (files : PipeFiles Pid) (side : PipeEnd) (refs : List Pid) :
    PipeFiles Pid :=
  { files with refs := update files.refs side refs }

@[simp] theorem setRefs_self (files : PipeFiles Pid) (side : PipeEnd) (refs : List Pid) :
    (files.setRefs side refs).refs side = refs := update_self _ _ _

theorem setRefs_ne (files : PipeFiles Pid) {side o : PipeEnd} (ne : o ≠ side)
    (refs : List Pid) : (files.setRefs side refs).refs o = files.refs o := update_of_ne ne _ _

theorem setRefs_none {files : PipeFiles Pid} {p : Pid} {side o : PipeEnd}
    (mem : p ∈ files.refs side) (none : files.refs o = []) (refs : List Pid) :
    (files.setRefs side refs).refs o = [] := by
  have ne : o ≠ side := by
    rintro rfl
    rw [none] at mem
    cases mem
  rw [setRefs_ne files ne, none]

variable [DecidableEq Pid]

def setWritten (files : PipeFiles Pid) (p : Pid) (count : Nat) : PipeFiles Pid :=
  { files with written := update files.written p count }

/-- A process looks up a file descriptor; a `write` starts with that of the write end. -/
def argfd (files : PipeFiles Pid) (p : Pid) (side : PipeEnd) :
    Bool × PipeFiles Pid :=
  (decide (p ∈ files.refs side),
    match side with
    | .read => files
    | .write => files.setWritten p 0)

/-- A process drops a file descriptor, if it has one; the answer is whether it was
the last reference to the file. -/
def fileclose (files : PipeFiles Pid) (p : Pid) (side : PipeEnd) :
    Bool × PipeFiles Pid :=
  if p ∈ files.refs side then
    (((files.refs side).erase p).isEmpty, files.setRefs side ((files.refs side).erase p))
  else (false, files)

/-- A process shares a file descriptor it has, with another process or with itself. -/
def filedup (files : PipeFiles Pid) (p : Pid) (side : PipeEnd) (child : Pid) :
    PipeFiles Pid :=
  if p ∈ files.refs side then files.setRefs side (child :: files.refs side) else files

end PipeFiles

/-- The pipe's own lock is `lk`. -/
def pipeClient (Pid Hart : Type) [DecidableEq Pid] :
    Client (Context Pid Hart) PipeData (PipeFiles Pid) where
  Action := PipeAction
  Result := PipeAction.Result
  act
    | _, .isOpen side, data, files => (data.pipe.isOpen side, data, files)
    | _, .isEmpty, data, files => (data.pipe.isEmpty, data, files)
    | _, .isFull, data, files => (data.pipe.isFull, data, files)
    | .process p, .put ch, data, files =>
      ((), { data with pipe := data.pipe.put ch, putIn := data.putIn ++ [ch] },
        files.setWritten p (files.written p + 1))
    | .scheduler _, .put _, data, files => ((), data, files)
    | _, .take, data, files =>
      (data.pipe.take.1,
        { data with pipe := data.pipe.take.2, takenOut := data.takenOut ++ [data.pipe.take.1] },
        files)
    | _, .close side, data, files => ((), { data with pipe := data.pipe.close side }, files)
  Operation := PipeOperation Pid
  Answer := PipeOperation.Answer
  operate
    | .process p, .argfd side, files => files.argfd p side
    | .process p, .fileclose side, files => files.fileclose p side
    | .process p, .filedup side child, files => ((), files.filedup p side child)
    | .scheduler _, .argfd _, files => (false, files)
    | .scheduler _, .fileclose _, files => (false, files)
    | .scheduler _, .filedup _ _, files => ((), files)
    | _, .kfree, files => ((), { files with freed := files.freed + 1 })

/-! ## Programs -/

namespace KernelProgram

variable {Pid Hart : Type} [DecidableEq Pid]

/-- Programs that use the pipe. -/
abbrev PipeProgram (Pid Hart : Type) [DecidableEq Pid] (α : Type) :=
  KernelProgram (pipeClient Pid Hart) PipeChan α

def isOpen (side : PipeEnd) : PipeProgram Pid Hart Bool :=
  access (pipeClient Pid Hart) (.isOpen side)

def isEmpty : PipeProgram Pid Hart Bool :=
  access (pipeClient Pid Hart) .isEmpty

def isFull : PipeProgram Pid Hart Bool :=
  access (pipeClient Pid Hart) .isFull

def put (ch : UInt8) : PipeProgram Pid Hart Unit :=
  access (pipeClient Pid Hart) (.put ch)

def take : PipeProgram Pid Hart UInt8 :=
  access (pipeClient Pid Hart) .take

def close (side : PipeEnd) : PipeProgram Pid Hart Unit :=
  access (pipeClient Pid Hart) (.close side)

def kfree : PipeProgram Pid Hart Unit :=
  operate (pipeClient Pid Hart) .kfree

def pipeclose (p : Pid) (table : List Pid) (side : PipeEnd) :
    PipeProgram Pid Hart Unit := do
  acquire (.process p)
  close side
  wakeup (.process p) side.opposite table
  let readopen ← isOpen .read
  let writeopen ← isOpen .write
  if readopen = false ∧ writeopen = false then
    release
    kfree
  else release

/-- The loop of `pipewrite`. The bytes are those that `copyin` finds; it fails where
there is none. -/
def pipewriteLoop (p : Pid) (table : List Pid) (source : Nat → Option UInt8)
    (n : Int) : Nat → Nat → PipeProgram Pid Hart Int
  | 0, _ => do
      step .halt
      return 0
  | fuel + 1, i =>
    if i < n then do
      let readopen ← isOpen .read
      if readopen = false then
        release
        return -1
      else
        let killed : Bool ← step (.getKilled p)
        if killed then
          release
          return -1
        else
          let full ← isFull
          if full then
            wakeup (.process p) .nread table
            sleep p .nwrite
            pipewriteLoop p table source n fuel i
          else
            match source i with
            | none => finish i
            | some ch => do
                put ch
                pipewriteLoop p table source n fuel (i + 1)
    else finish i
where
  finish (i : Nat) : PipeProgram Pid Hart Int := do
    wakeup (.process p) .nread table
    release
    return i

def pipewrite (p : Pid) (table : List Pid) (source : Nat → Option UInt8)
    (n : Int) (fuel : Nat) : PipeProgram Pid Hart Int := do
  acquire (.process p)
  pipewriteLoop p table source n fuel 0

/-- The copying loop of `piperead`, with the number of rounds left. `copyout` may fail
after the byte has left the buffer. -/
def pipereadCopy (writable : Nat → Bool) : Nat → Nat → PipeProgram Pid Hart Nat
  | 0, i => return i
  | rounds + 1, i => do
      let empty ← isEmpty
      if empty then return i
      else
        let _ ← take
        if writable i then pipereadCopy writable rounds (i + 1) else return i

/-- `piperead`, from where it holds the lock. -/
def pipereadLoop (p : Pid) (table : List Pid) (writable : Nat → Bool) (n : Int) :
    Nat → PipeProgram Pid Hart Int
  | 0 => do
      step .halt
      return 0
  | fuel + 1 => do
      let empty ← isEmpty
      let writeopen ← isOpen .write
      if empty ∧ writeopen then
        let killed : Bool ← step (.getKilled p)
        if killed then
          release
          return -1
        else
          sleep p .nread
          pipereadLoop p table writable n fuel
      else
        let i ← pipereadCopy writable n.toNat 0
        wakeup (.process p) .nwrite table
        release
        return i

def piperead (p : Pid) (table : List Pid) (writable : Nat → Bool) (n : Int)
    (fuel : Nat) : PipeProgram Pid Hart Int := do
  acquire (.process p)
  pipereadLoop p table writable n fuel

def argfd (side : PipeEnd) : PipeProgram Pid Hart Bool :=
  operate (pipeClient Pid Hart) (.argfd side)

/-- The part of `fileclose` under the file table's lock. -/
def dropRef (side : PipeEnd) : PipeProgram Pid Hart Bool :=
  operate (pipeClient Pid Hart) (.fileclose side)

def fileclose (p : Pid) (table : List Pid) (side : PipeEnd) :
    PipeProgram Pid Hart Unit := do
  let last ← dropRef side
  if last then pipeclose p table side

def filedup (side : PipeEnd) (child : Pid) : PipeProgram Pid Hart Unit :=
  operate (pipeClient Pid Hart) (.filedup side child)

end KernelProgram

/-! ## The system -/

/-- The system calls on the two files. -/
inductive PipeCall (Pid : Type)
  | write (source : Nat → Option UInt8) (n : Int) (fuel : Nat)
  | read (writable : Nat → Bool) (n : Int) (fuel : Nat)
  | close (side : PipeEnd)
  | share (side : PipeEnd) (child : Pid)

/-- What a process's last system call returned, as far as it counts. -/
inductive PipeResult
  | nothing
  | write (value : Int)
  | read (value : Int)
deriving DecidableEq

section

variable {Pid Hart : Type} [DecidableEq Pid]

def pipeProgram (table : List Pid) :
    Context Pid Hart → PipeCall Pid → PipeResult →
      KernelProgram.PipeProgram Pid Hart PipeResult
  | .process p, .write source n fuel, _ => do
      let found ← KernelProgram.argfd .write
      if found then
        let value ← KernelProgram.pipewrite p table source n fuel
        return .write value
      else return .write (-1)
  | .process p, .read writable n fuel, _ => do
      let found ← KernelProgram.argfd .read
      if found then
        let value ← KernelProgram.piperead p table writable n fuel
        return .read value
      else return .read (-1)
  | .process p, .close side, _ => do
      KernelProgram.fileclose p table side
      return .nothing
  | .process _, .share side child, _ => do
      KernelProgram.filedup side child
      return .nothing
  | .scheduler _, _, value => return value

abbrev pipeSystem (Hart : Type) (table : List Pid) :=
  kernelSystem (pipeClient Pid Hart) PipeChan table (pipeProgram table)

/-- A new pipe whose files some processes refer to. -/
def pipeStart (Hart : Type) (table : List Pid) (data : Nat → UInt8)
    (refs : PipeEnd → List Pid) : Pool (pipeSystem Hart table) :=
  kernelStart _ _ _ _ { pipe := .alloc data, putIn := [], takenOut := [] }
    { refs := refs, freed := 0, written := fun _ => 0 } fun _ => .nothing

end

end Xv6
