import Mathlib.Data.Fintype.Card
import Xv6.Layout
import Xv6.Sysfile.Icache

/-! # The namespace calls of `sysfile.c`

`namex`, `create` and the system calls that change or walk the directory tree,
as programs over the inode cache. `begin_op` and `end_op` only order the calls
and are left out, so that more interleavings are considered than the log
admits. -/

namespace Xv6

open Foundation

abbrev FsProgram (α : Type) := Program FsCommand FsCommand.Response α

namespace FsProgram

def step (cmd : FsCommand) : FsProgram cmd.Response :=
  Program.command cmd

def fail (reason : FsPanic) : FsProgram α :=
  .call (.panic reason) nofun

/-! ## fs.c -/

def iput (ip : Inum) : FsProgram Unit := do
  let freed : Bool ← step (.iputFree ip)
  if freed then step (.iputDrop ip)
  else pure ()

def iunlockput (ip : Inum) : FsProgram Unit := do
  step (.iunlock ip)
  iput ip

def iallocFrom (type : InodeType) : List Inum → FsProgram Inum
  | [] => fail .iallocNoInodes
  | inum :: rest => do
      let marked : Bool ← step (.iallocMark inum type)
      if marked then do
        step (.iget inum)
        pure inum
      else iallocFrom type rest

def ialloc (ninodes : Nat) (type : InodeType) : FsProgram Inum :=
  iallocFrom type (List.range' 1 (ninodes - 1))

/-- Look for an entry in the locked directory `dp`. -/
def dirlookup (dp : Inum) (name : Name) : FsProgram (Option (Inum × Nat)) := do
  let dir : Dinode ← step (.read dp)
  if dir.type = .dir then
    match dir.lookup name with
    | none => pure none
    | some (inum, slot) => do
        step (.iget inum)
        pure (some (inum, slot))
  else fail .dirlookupNotDir

/-- Write a new entry into the locked directory `dp`. -/
def dirlink (dp : Inum) (name : Name) (inum : Inum) : FsProgram Bool := do
  let found ← dirlookup dp name
  match found with
  | some (ip, _) => do
      iput ip
      pure false
  | none => do
      let dir : Dinode ← step (.read dp)
      let written : Bool ← step (.writei dp dir.emptySlot (.make name inum))
      if written then pure true
      else fail .dirlink

/-- The loop of `namex`. -/
def namexFrom (nameiparent : Bool) : Inum → List Name →
    FsProgram (Option (Inum × Name))
  | ip, [] =>
    if nameiparent then do
      iput ip
      pure none
    else pure (some (ip, []))
  | ip, name :: rest => do
      step (.ilock ip)
      let inode : Dinode ← step (.read ip)
      if inode.type = .dir then
        if nameiparent && rest.isEmpty then do
          step (.iunlock ip)
          pure (some (ip, name))
        else do
          let next ← dirlookup ip name
          match next with
          | none => do
              iunlockput ip
              pure none
          | some (next, _) => do
              iunlockput ip
              namexFrom nameiparent next rest
      else do
        iunlockput ip
        pure none

def namex (cwd : Inum) (path : Path) (nameiparent : Bool) :
    FsProgram (Option (Inum × Name)) :=
  if path.head? = some slash then do
    step (.iget rootIno)
    namexFrom nameiparent rootIno (elements path)
  else do
    step (.idup cwd)
    namexFrom nameiparent cwd (elements path)

def namei (cwd : Inum) (path : Path) : FsProgram (Option Inum) := do
  let found ← namex cwd path false
  pure (found.map Prod.fst)

def nameiparent (cwd : Inum) (path : Path) : FsProgram (Option (Inum × Name)) :=
  namex cwd path true

/-! ## sysfile.c -/

/-- The branch `bad` of `sys_link`: take the link count back. -/
def unlinkOld (ip : Inum) : FsProgram Unit := do
  step (.ilock ip)
  step (.decNlink ip none)
  iunlockput ip

def sysLink (cwd : Inum) (old new : Path) : FsProgram Int := do
  let found ← namei cwd old
  match found with
  | none => pure (-1)
  | some ip => do
      step (.ilock ip)
      let inode : Dinode ← step (.read ip)
      if inode.type = .dir then do
        iunlockput ip
        pure (-1)
      else do
        step (.incNlink ip)
        step (.iunlock ip)
        let parent ← nameiparent cwd new
        match parent with
        | none => do
            unlinkOld ip
            pure (-1)
        | some (dp, name) => do
            step (.ilock dp)
            let linked ← dirlink dp name ip
            if linked then do
              iunlockput dp
              iput ip
              pure 0
            else do
              iunlockput dp
              unlinkOld ip
              pure (-1)

/-- What `sys_unlink` does with the entry it has found: both inodes are locked
and may be unlinked. -/
def unlinkEntry (dp ip : Inum) (slot : Nat) : FsProgram Unit := do
  let written : Bool ← step (.writei dp slot .empty)
  if written then do
    let inode : Dinode ← step (.read ip)
    if inode.type = .dir then step (.decNlink dp (some ip))
    else pure ()
    iunlockput dp
    step (.decNlink ip none)
    iunlockput ip
  else fail .unlinkWritei

def sysUnlink (cwd : Inum) (path : Path) : FsProgram Int := do
  let parent ← nameiparent cwd path
  match parent with
  | none => pure (-1)
  | some (dp, name) => do
      step (.ilock dp)
      if namecmp name dot || namecmp name dotdot then do
        iunlockput dp
        pure (-1)
      else do
        let found ← dirlookup dp name
        match found with
        | none => do
            iunlockput dp
            pure (-1)
        | some (ip, slot) => do
            step (.ilock ip)
            let inode : Dinode ← step (.read ip)
            if inode.nlink.toInt < 1 then fail .unlinkNlink
            else if inode.type = .dir ∧ inode.isdirempty = false then do
              iunlockput ip
              iunlockput dp
              pure (-1)
            else do
              unlinkEntry dp ip slot
              pure 0

/-- The entries `.` and `..` of a new directory. -/
def createDots (ip dp : Inum) : FsProgram Unit := do
  let here ← dirlink ip dot ip
  if here then do
    let up ← dirlink ip dotdot dp
    if up then pure ()
    else fail .createDots
  else fail .createDots

/-- What `create` does when the name is not in the locked directory `dp`. -/
def createNew (ninodes : Nat) (dp : Inum) (name : Name) (type : InodeType)
    (major : BitVec 16) : FsProgram (Option Inum) := do
  let ip ← ialloc ninodes type
  step (.ilock ip)
  step (.initInode ip major)
  if type = .dir then do
    step (.incNlink dp)
    createDots ip dp
  else pure ()
  let linked ← dirlink dp name ip
  if linked then do
    iunlockput dp
    pure (some ip)
  else fail .createDirlink

/-- Returns the inode locked. -/
def create (ninodes : Nat) (cwd : Inum) (path : Path) (type : InodeType)
    (major : BitVec 16) : FsProgram (Option Inum) := do
  let parent ← nameiparent cwd path
  match parent with
  | none => pure none
  | some (dp, name) => do
      step (.ilock dp)
      let found ← dirlookup dp name
      match found with
      | some (ip, _) => do
          iunlockput dp
          step (.ilock ip)
          let inode : Dinode ← step (.read ip)
          if type = .file ∧ (inode.type = .file ∨ inode.type = .device) then
            pure (some ip)
          else do
            iunlockput ip
            pure none
      | none => createNew ninodes dp name type major

def oRdonly : Nat := 0x000

def oWronly : Nat := 0x001

def oRdwr : Nat := 0x002

def oCreate : Nat := 0x200

def oTrunc : Nat := 0x400

/-- Maximum major device number. -/
def nDev : Nat := 10

/-- The inode that `sys_open` goes on with, locked. -/
def openInode (ninodes : Nat) (cwd : Inum) (path : Path) (omode : Nat) :
    FsProgram (Option Inum) :=
  if omode &&& oCreate ≠ 0 then create ninodes cwd path .file 0
  else do
    let found ← namei cwd path
    match found with
    | none => pure none
    | some ip => do
        step (.ilock ip)
        let inode : Dinode ← step (.read ip)
        if inode.type = .dir ∧ omode ≠ oRdonly then do
          iunlockput ip
          pure none
        else pure (some ip)

/-- Returns the inode that the new file refers to, or nothing for -1. `available` says
whether `filealloc` and `fdalloc` find a free place. -/
def sysOpen (ninodes : Nat) (cwd : Inum) (path : Path) (omode : Nat)
    (available : Bool) : FsProgram (Option Inum) := do
  let found ← openInode ninodes cwd path omode
  match found with
  | none => pure none
  | some ip => do
      let inode : Dinode ← step (.read ip)
      if inode.type = .device ∧ (inode.major.toInt < 0 ∨ nDev ≤ inode.major.toInt) then do
        iunlockput ip
        pure none
      else if available then do
        if omode &&& oTrunc ≠ 0 ∧ inode.type = .file then step (.itrunc ip)
        else pure ()
        step (.iunlock ip)
        pure (some ip)
      else do
        iunlockput ip
        pure none

/-- `sys_mkdir` and `sys_mknod`. -/
def sysMake (ninodes : Nat) (cwd : Inum) (path : Path) (type : InodeType)
    (major : BitVec 16) : FsProgram Int := do
  let found ← create ninodes cwd path type major
  match found with
  | none => pure (-1)
  | some ip => do
      iunlockput ip
      pure 0

def sysMkdir (ninodes : Nat) (cwd : Inum) (path : Path) : FsProgram Int :=
  sysMake ninodes cwd path .dir 0

def sysMknod (ninodes : Nat) (cwd : Inum) (path : Path) (major : BitVec 16) :
    FsProgram Int :=
  sysMake ninodes cwd path .device major

/-- Returns the new current directory of the process, or nothing for -1. -/
def sysChdir (cwd : Inum) (path : Path) : FsProgram (Option Inum) := do
  let found ← namei cwd path
  match found with
  | none => pure none
  | some ip => do
      step (.ilock ip)
      let inode : Dinode ← step (.read ip)
      if inode.type = .dir then do
        step (.iunlock ip)
        iput cwd
        pure (some ip)
      else do
        iunlockput ip
        pure none

/-- The loop of `exit` over the open files. -/
def closeAll : List Inum → FsProgram Unit
  | [] => pure ()
  | ip :: rest => do
      iput ip
      closeAll rest

end FsProgram

/-! ## Processes -/

/-- The current directory of a process, until it exits, and the inodes of its
open files. -/
structure Proc where
  cwd : Option Inum
  ofile : List Inum
deriving DecidableEq

inductive FsCall
  | open_ (path : Path) (omode : Nat) (available : Bool)
  | mkdir (path : Path)
  | mknod (path : Path) (major : BitVec 16)
  | link (old new : Path)
  | unlink (path : Path)
  | chdir (path : Path)
  | close (fd : Nat)
  | exit

open FsProgram in
/-- What a process with a current directory does. -/
def FsCall.run (ninodes : Nat) (cwd : Inum) (ofile : List Inum) :
    FsCall → FsProgram Proc
  | .open_ path omode available => do
      let opened ← sysOpen ninodes cwd path omode available
      pure ⟨some cwd, ofile ++ opened.toList⟩
  | .mkdir path => do
      let _ ← sysMkdir ninodes cwd path
      pure ⟨some cwd, ofile⟩
  | .mknod path major => do
      let _ ← sysMknod ninodes cwd path major
      pure ⟨some cwd, ofile⟩
  | .link old new => do
      let _ ← sysLink cwd old new
      pure ⟨some cwd, ofile⟩
  | .unlink path => do
      let _ ← sysUnlink cwd path
      pure ⟨some cwd, ofile⟩
  | .chdir path => do
      let after ← sysChdir cwd path
      pure ⟨some (after.getD cwd), ofile⟩
  | .close fd =>
    match ofile[fd]? with
    | none => pure ⟨some cwd, ofile⟩
    | some ip => do
        iput ip
        pure ⟨some cwd, ofile.eraseIdx fd⟩
  | .exit => do
      closeAll ofile
      iput cwd
      pure ⟨none, []⟩

def FsCall.body (ninodes : Nat) (call : FsCall) (proc : Proc) : FsProgram Proc :=
  match proc.cwd with
  | none => pure proc
  | some cwd => call.run ninodes cwd proc.ofile

def fsSystem (Pid : Type) [DecidableEq Pid] (ninodes : Nat) :
    System Pid (FsState Pid) FsPanic Proc FsCall where
  Command := FsCommand
  Response := FsCommand.Response
  exec := FsState.exec ninodes
  body _ call proc := call.body ninodes proc

abbrev fsShared [DecidableEq Pid] (ninodes : Nat) := (fsSystem Pid ninodes).toShared

/-- The state in which the first processes find an image: all of them have the
root as their current directory. What the files hold does not matter here. -/
def FsState.boot (Pid : Type) [Fintype Pid] (image : Inum → Dinode) :
    FsState Pid where
  disk := image
  data _ := []
  inode _ := .blank .free
  valid _ := false
  ref inum := if inum = rootIno then Fintype.card Pid else 0
  lock _ := none
  removed _ := false

/-- The process that has just been given the root. -/
def Proc.boot : Proc := ⟨some rootIno, []⟩

end Xv6
