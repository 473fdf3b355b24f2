import Mathlib.Data.Fintype.Basic
import Mathlib.Data.List.FinRange
import Mathlib.Logic.Function.Basic
import Xv6.Foundation.Lifetimes
import Xv6.Sysfile.Calls

/-! # The file table

The open files of `file.c` and the descriptor tables of the processes, with the calls that
change them. What a file stands for, an end of a pipe or an inode, is set up and let go of
through the file table, and a log records both. -/

namespace Xv6.Ftable

open Foundation Function
open FsProgram (oRdonly oWronly oRdwr oCreate nDev)

/-- `NFILE`, open files per system. -/
def nFile : Nat := 100

/-- `NOFILE`, open files per process. -/
def nOfile : Nat := 16

abbrev FileIndex := Fin nFile

abbrev Descriptor := Fin nOfile

inductive FileType
  | none
  | pipe
  | inode
  | device
deriving DecidableEq

/-- `struct file`. `pipe` is the address of the pipe's page, and `ip` of the inode. -/
structure File where
  ref : Nat
  type : FileType
  readable : Bool
  writable : Bool
  pipe : Nat
  ip : Nat
  major : Int

/-- The part of `struct pipe` that says which ends are open. -/
structure PipeEnds where
  readopen : Bool
  writeopen : Bool
deriving DecidableEq

/-- What is set up and let go of. -/
inductive Resource
  | pipeEnd (page : Nat) (writable : Bool)
  | inode (ip : Nat)
  | page
deriving DecidableEq

/-- What has a lifetime: a file, from when it is set up to the call of `pipeclose` or `iput`,
and the page of a pipe, from `kalloc` to `kfree`. -/
inductive Holder
  | file (f : FileIndex)
  | page (page : Nat)
deriving DecidableEq

structure FileState (Pid : Type) where
  files : FileIndex → File
  ofile : Pid × Descriptor → Option FileIndex
  pipes : Nat → Option PipeEnds
  used : Pid → Bool
  log : List (HoldingEvent Holder Resource)

/-- The inode that `create` or `namei` returns. -/
structure OpenInode where
  ip : Nat
  type : InodeType
  major : Int

/-- Why the kernel stops. -/
inductive FileFault
  | filedup
  | fileclose
  | freedPipe
deriving DecidableEq

namespace FileState

variable {Pid : Type} [DecidableEq Pid]

def setFile (f : FileIndex) (file : File) (s : FileState Pid) : FileState Pid :=
  { s with files := update s.files f file }

def setOfile (p : Pid) (fd : Descriptor) (f : Option FileIndex)
    (s : FileState Pid) : FileState Pid :=
  { s with ofile := update s.ofile (p, fd) f }

def record (event : HoldingEvent Holder Resource) (s : FileState Pid) :
    FileState Pid :=
  { s with log := s.log ++ [event] }

/-! ## file.c and pipe.c -/

def filealloc (s : FileState Pid) : Option (FileIndex × FileState Pid) :=
  match (List.finRange nFile).find? fun f => (s.files f).ref = 0 with
  | some f => some (f, s.setFile f { s.files f with ref := 1 })
  | none => none

def filedup (f : FileIndex) (s : FileState Pid) :
    Except FileFault (FileState Pid) :=
  if (s.files f).ref < 1 then .error .filedup
  else .ok (s.setFile f { s.files f with ref := (s.files f).ref + 1 })

/-- The page is freed when both ends are closed. -/
def pipeclose (page : Nat) (writable : Bool) (s : FileState Pid) :
    Except FileFault (FileState Pid) :=
  match s.pipes page with
  | none => .error .freedPipe
  | some ends =>
    let ends := if writable then { ends with writeopen := false }
      else { ends with readopen := false }
    if ends.readopen = false ∧ ends.writeopen = false then
      .ok ({ s with pipes := update s.pipes page none }.record
        (.ends (.page page) .page))
    else .ok { s with pipes := update s.pipes page (some ends) }

def fileclose (f : FileIndex) (s : FileState Pid) :
    Except FileFault (FileState Pid) :=
  let ff := s.files f
  if ff.ref < 1 then .error .fileclose
  else if ff.ref - 1 > 0 then .ok (s.setFile f { ff with ref := ff.ref - 1 })
  else
    let s := s.setFile f { ff with ref := 0, type := .none }
    match ff.type with
    | .none => .ok s
    | .pipe => (s.record (.ends (.file f) (.pipeEnd ff.pipe ff.writable))).pipeclose
        ff.pipe ff.writable
    | .inode => .ok (s.record (.ends (.file f) (.inode ff.ip)))
    | .device => .ok (s.record (.ends (.file f) (.inode ff.ip)))

/-- Close what is not null. -/
def closeAll : List FileIndex → FileState Pid → Except FileFault (FileState Pid)
  | [], s => .ok s
  | f :: fs, s => do
      let s ← s.fileclose f
      s.closeAll fs

/-- Both files get an end of the pipe in the fresh page. -/
def setPipe (f0 f1 : FileIndex) (page : Nat) (s : FileState Pid) :
    FileState Pid :=
  let s := { s with
    pipes := update s.pipes page (some ⟨true, true⟩) }.record
      (.begins (.page page) .page)
  let s := (s.setFile f0 { s.files f0 with
    type := .pipe, readable := true, writable := false, pipe := page }).record
      (.begins (.file f0) (.pipeEnd page false))
  (s.setFile f1 { s.files f1 with
    type := .pipe, readable := false, writable := true, pipe := page }).record
      (.begins (.file f1) (.pipeEnd page true))

/-- `page` is what `kalloc` returns, which is a page that is not in use. -/
def pipealloc (page : Option Nat) (s : FileState Pid) :
    Except FileFault (Option (FileIndex × FileIndex) × FileState Pid) :=
  match s.filealloc with
  | none => .ok (none, s)
  | some (f0, s) =>
    match s.filealloc with
    | none => do
        let s ← s.closeAll [f0]
        .ok (none, s)
    | some (f1, s) =>
      match page with
      | none => do
          let s ← s.closeAll [f0, f1]
          .ok (none, s)
      | some page => .ok (some (f0, f1), s.setPipe f0 f1 page)

/-! ## sysfile.c and proc.c -/

/-- The file at the descriptor `fd`. -/
def argfd (p : Pid) (fd : Int) (s : FileState Pid) :
    Option (Descriptor × FileIndex) :=
  if h : 0 ≤ fd ∧ fd.toNat < nOfile then
    (s.ofile (p, ⟨fd.toNat, h.2⟩)).map fun f => (⟨fd.toNat, h.2⟩, f)
  else none

def fdalloc (p : Pid) (f : FileIndex) (s : FileState Pid) :
    Option (Descriptor × FileState Pid) :=
  match (List.finRange nOfile).find? fun fd => (s.ofile (p, fd)).isNone with
  | some fd => some (fd, s.setOfile p fd (some f))
  | none => none

def sysDup (p : Pid) (fd : Int) (s : FileState Pid) :
    Except FileFault (Int × FileState Pid) :=
  match s.argfd p fd with
  | none => .ok (-1, s)
  | some (_, f) =>
    match s.fdalloc p f with
    | none => .ok (-1, s)
    | some (fd, s) => do
        let s ← s.filedup f
        .ok (fd, s)

def sysClose (p : Pid) (fd : Int) (s : FileState Pid) :
    Except FileFault (Int × FileState Pid) :=
  match s.argfd p fd with
  | none => .ok (-1, s)
  | some (fd, f) => do
      let s ← (s.setOfile p fd none).fileclose f
      .ok (0, s)

/-- `found` is what `create` or `namei` gives, and null also when the path cannot be read. -/
def sysOpen (p : Pid) (found : Option OpenInode) (omode : Nat)
    (s : FileState Pid) : Except FileFault (Int × FileState Pid) :=
  match found with
  | none => .ok (-1, s)
  | some inode =>
    if omode &&& oCreate = 0 ∧ inode.type = .dir ∧ omode ≠ oRdonly then .ok (-1, s)
    else if inode.type = .device ∧ (inode.major < 0 ∨ inode.major ≥ nDev) then
      .ok (-1, s)
    else
      match s.filealloc with
      | none => .ok (-1, s)
      | some (f, s) =>
        match s.fdalloc p f with
        | none => do
            let s ← s.fileclose f
            .ok (-1, s)
        | some (fd, s) =>
          .ok (fd, (s.setFile f { s.files f with
            type := if inode.type = .device then .device else .inode
            major := if inode.type = .device then inode.major
              else (s.files f).major
            ip := inode.ip
            readable := omode &&& oWronly = 0
            writable := omode &&& oWronly ≠ 0 ∨ omode &&& oRdwr ≠ 0 }).record
              (.begins (.file f) (.inode inode.ip)))

/-- `copied` says whether both calls of `copyout` succeed. -/
def sysPipe (p : Pid) (page : Option Nat) (copied : Bool) (s : FileState Pid) :
    Except FileFault (Int × FileState Pid) := do
  let (files, s) ← s.pipealloc page
  match files with
  | none => .ok (-1, s)
  | some (rf, wf) =>
    match s.fdalloc p rf with
    | none => do
        let s ← s.closeAll [rf, wf]
        .ok (-1, s)
    | some (fd0, s) =>
      match s.fdalloc p wf with
      | none => do
          let s ← (s.setOfile p fd0 none).closeAll [rf, wf]
          .ok (-1, s)
      | some (fd1, s) =>
        if copied then .ok (0, s)
        else do
          let s ← ((s.setOfile p fd0 none).setOfile p fd1 none).closeAll [rf, wf]
          .ok (-1, s)

/-- The loop of `fork` over the descriptors. -/
def forkLoop (p np : Pid) : List Descriptor → FileState Pid →
    Except FileFault (FileState Pid)
  | [], s => .ok s
  | fd :: fds, s =>
    match s.ofile (p, fd) with
    | none => forkLoop p np fds s
    | some f => do
        let s ← s.filedup f
        forkLoop p np fds (s.setOfile np fd (some f))

/-- `np` is the process that `allocproc` finds, and `copied` says whether `uvmcopy`
succeeds. -/
def fork (p np : Pid) (copied : Bool) (s : FileState Pid) :
    Except FileFault (Int × FileState Pid) :=
  if s.used np ∨ ¬copied then .ok (-1, s)
  else do
    let s ← forkLoop p np (List.finRange nOfile)
      { s with used := update s.used np true }
    .ok (0, s)

/-- The loop of `exit` over the descriptors. -/
def exitLoop (p : Pid) : List Descriptor → FileState Pid →
    Except FileFault (FileState Pid)
  | [], s => .ok s
  | fd :: fds, s =>
    match s.ofile (p, fd) with
    | none => exitLoop p fds s
    | some f => do
        let s ← s.fileclose f
        exitLoop p fds (s.setOfile p fd none)

def exit (p : Pid) (s : FileState Pid) :
    Except FileFault (Int × FileState Pid) := do
  let s ← exitLoop p (List.finRange nOfile) s
  .ok (0, { s with used := update s.used p false })

/-! ## Runs -/

end FileState

/-- A call of the process `p`, with what it gets from the rest of the kernel. -/
inductive FileCall (Pid : Type)
  | openFile (p : Pid) (found : Option OpenInode) (omode : Nat)
  | pipe (p : Pid) (page : Option Nat) (copied : Bool)
  | dup (p : Pid) (fd : Int)
  | close (p : Pid) (fd : Int)
  | fork (p np : Pid) (copied : Bool)
  | exit (p : Pid)

namespace FileState

variable {Pid : Type} [DecidableEq Pid]

def exec (call : FileCall Pid) (s : FileState Pid) :
    Except FileFault (Int × FileState Pid) :=
  match call with
  | .openFile p found omode => s.sysOpen p found omode
  | .pipe p page copied => s.sysPipe p page copied
  | .dup p fd => s.sysDup p fd
  | .close p fd => s.sysClose p fd
  | .fork p np copied => s.fork p np copied
  | .exit p => s.exit p

/-- The calls that can be made: the caller exists, and `kalloc` hands out a page that is
not in use. -/
def Possible (s : FileState Pid) : FileCall Pid → Prop
  | .openFile p _ _ => s.used p = true
  | .pipe p page _ => s.used p = true ∧ ∀ number, page = some number →
      s.pipes number = none
  | .dup p _ => s.used p = true
  | .close p _ => s.used p = true
  | .fork p _ _ => s.used p = true
  | .exit p => s.used p = true

/-- No files, and the processes `used`. -/
def boot (used : Pid → Bool) : FileState Pid where
  files _ := ⟨0, .none, false, false, 0, 0, 0⟩
  ofile _ := none
  pipes _ := none
  used := used
  log := []

/-- The states between the calls. -/
inductive Reached (used : Pid → Bool) : FileState Pid → Prop
  | boot : Reached used (boot used)
  | call {s after : FileState Pid} {value : Int} (call : FileCall Pid)
      (reached : Reached used s) (possible : s.Possible call)
      (ran : s.exec call = .ok (value, after)) : Reached used after

end FileState

end Xv6.Ftable
