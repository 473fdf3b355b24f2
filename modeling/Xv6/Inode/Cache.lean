import Xv6.Foundation.Pool
import Xv6.Inode.Fields
import Xv6.Sysfile.Icache

/-! # The entries of the inode cache

`iget`, `idup`, `ilock`, `iunlock`, `iput`, `ialloc` and `iupdate` of `fs.c` at the level
of cache entries, with every change of a field apart from the `iupdate` that follows it.
`disk` is the inode area as the buffer cache shows it. -/

namespace Xv6

open Foundation Function

/-- Position of an entry in `icache.inode`. -/
abbrev InodeSlot := Fin nInode

/-- `struct inode`. The references are as many as file table entries, processes and calls
hold, which an `int` can count. -/
structure InodeEntry (Pid : Type) where
  dev : Nat
  inum : Nat
  ref : Nat
  lock : Option Pid
  valid : Bool
  fields : InodeFields

structure InodeState (Pid : Type) where
  entry : InodeSlot → InodeEntry Pid
  disk : Nat → Nat → InodeFields

inductive InodePanic
  | igetNoInodes
  | ilock
  | ilockNoType
  | iunlock
  | iallocNoInodes
  | bmap
deriving DecidableEq, Repr

namespace InodeState

variable {Pid : Type}

/-- The entry in use for an inode. -/
def lookup (s : InodeState Pid) (dev inum : Nat) : Option InodeSlot :=
  (List.finRange nInode).find? fun slot =>
    0 < (s.entry slot).ref ∧ (s.entry slot).dev = dev ∧ (s.entry slot).inum = inum

/-- The first entry that is not in use. -/
def unused (s : InodeState Pid) : Option InodeSlot :=
  (List.finRange nInode).find? fun slot => (s.entry slot).ref = 0

def setEntry (s : InodeState Pid) (slot : InodeSlot) (entry : InodeEntry Pid) :
    InodeState Pid :=
  { s with entry := Function.update s.entry slot entry }

@[simp] theorem setEntry_entry (s : InodeState Pid) (slot : InodeSlot) (entry : InodeEntry Pid) :
    (s.setEntry slot entry).entry = Function.update s.entry slot entry := rfl

@[simp] theorem setEntry_disk (s : InodeState Pid) (slot : InodeSlot)
    (entry : InodeEntry Pid) : (s.setEntry slot entry).disk = s.disk := rfl

/-- The inode on disk that an entry stands for. -/
def stored (s : InodeState Pid) (slot : InodeSlot) : InodeFields :=
  s.disk (s.entry slot).dev (s.entry slot).inum

def setDisk (s : InodeState Pid) (dev inum : Nat) (fields : InodeFields) :
    InodeState Pid :=
  { s with
    disk := Function.update s.disk dev (Function.update (s.disk dev) inum fields) }

theorem setDisk_disk_self (s : InodeState Pid) (dev inum : Nat)
    (fields : InodeFields) : (s.setDisk dev inum fields).disk dev inum = fields := by
  simp [setDisk]

theorem setDisk_disk_of_ne (s : InodeState Pid) {dev inum dev' inum' : Nat}
    (fields : InodeFields) (o : ¬(dev' = dev ∧ inum' = inum)) :
    (s.setDisk dev inum fields).disk dev' inum' = s.disk dev' inum' := by
  rw [setDisk]
  dsimp only
  by_cases sameDev : dev' = dev
  · subst sameDev
    rw [update_self, update_of_ne fun sameInum => o ⟨rfl, sameInum⟩]
  · rw [update_of_ne sameDev]

end InodeState

/-! ## Atomic steps -/

/-- `acquire` is the first part of `ilock`, `load` the second. `change` is a change of
fields that the holder of the lock makes in memory; `none` is the panic of `bmap`.
`iputLock` is `iput` up to where it releases `icache.lock` for the first time and
`iputDrop` its last critical section. -/
inductive InodeCommand
  | iget (dev inum : Nat)
  | idup (slot : InodeSlot)
  | acquire (slot : InodeSlot)
  | valid (slot : InodeSlot)
  | load (slot : InodeSlot)
  | read (slot : InodeSlot)
  | change (slot : InodeSlot) (update : InodeFields → Option InodeFields)
  | iupdate (slot : InodeSlot)
  | iunlock (slot : InodeSlot)
  | iputLock (slot : InodeSlot)
  | invalidate (slot : InodeSlot)
  | releasesleep (slot : InodeSlot)
  | iputDrop (slot : InodeSlot)
  | iallocMark (dev inum : Nat) (type : InodeType)
  | panic (reason : InodePanic)

@[reducible] def InodeCommand.Response : InodeCommand → Type
  | .iget _ _ => InodeSlot
  | .valid _ => Bool
  | .load _ => InodeFields
  | .read _ => InodeFields
  | .iputLock _ => Bool
  | .iallocMark _ _ _ => Bool
  | .panic _ => Empty
  | _ => Unit

namespace InodeState

variable {Pid : Type} [DecidableEq Pid]

def exec (p : Pid) : (cmd : InodeCommand) → InodeState Pid →
    Outcome InodePanic (cmd.Response × InodeState Pid)
  | .iget dev inum, s =>
    match s.lookup dev inum with
    | some slot =>
      .ok (slot, s.setEntry slot
        { s.entry slot with ref := (s.entry slot).ref + 1 })
    | none =>
      match s.unused with
      | none => .panic .igetNoInodes
      | some slot =>
        .ok (slot, s.setEntry slot
          { s.entry slot with dev := dev, inum := inum, ref := 1, valid := false })
  | .idup slot, s =>
    .ok ((), s.setEntry slot
      { s.entry slot with ref := (s.entry slot).ref + 1 })
  | .acquire slot, s =>
    if (s.entry slot).ref < 1 then .panic .ilock
    else
      match (s.entry slot).lock with
      | some _ => .blocked
      | none => .ok ((), s.setEntry slot { s.entry slot with lock := some p })
  | .valid slot, s => .ok ((s.entry slot).valid, s)
  | .load slot, s =>
    .ok (s.stored slot, s.setEntry slot
      { s.entry slot with fields := s.stored slot, valid := true })
  | .read slot, s => .ok ((s.entry slot).fields, s)
  | .change slot update, s =>
    match update (s.entry slot).fields with
    | none => .panic .bmap
    | some fields => .ok ((), s.setEntry slot { s.entry slot with fields := fields })
  | .iupdate slot, s =>
    .ok ((), s.setDisk (s.entry slot).dev (s.entry slot).inum
      (s.entry slot).fields)
  | .iunlock slot, s =>
    if (s.entry slot).lock = some p ∧ 1 ≤ (s.entry slot).ref then
      .ok ((), s.setEntry slot { s.entry slot with lock := none })
    else .panic .iunlock
  | .iputLock slot, s =>
    if (s.entry slot).ref = 1 ∧ (s.entry slot).valid = true ∧
        (s.entry slot).fields.nlink = 0 then
      match (s.entry slot).lock with
      | some _ => .blocked
      | none =>
        .ok (true, s.setEntry slot { s.entry slot with lock := some p })
    else
      .ok (false, s.setEntry slot
        { s.entry slot with ref := (s.entry slot).ref - 1 })
  | .invalidate slot, s =>
    .ok ((), s.setEntry slot { s.entry slot with valid := false })
  | .releasesleep slot, s =>
    .ok ((), s.setEntry slot { s.entry slot with lock := none })
  | .iputDrop slot, s =>
    .ok ((), s.setEntry slot
      { s.entry slot with ref := (s.entry slot).ref - 1 })
  | .iallocMark dev inum type, s =>
    if (s.disk dev inum).type = .free then
      .ok (true, s.setDisk dev inum (.blank type))
    else .ok (false, s)
  | .panic reason, _ => .panic reason

end InodeState

/-! ## fs.c -/

abbrev InodeProgram (α : Type) := Program InodeCommand InodeCommand.Response α

namespace InodeProgram

def step (cmd : InodeCommand) : InodeProgram cmd.Response :=
  Program.command cmd

def fail (reason : InodePanic) : InodeProgram α :=
  .call (.panic reason) nofun

def ilock (slot : InodeSlot) : InodeProgram Unit := do
  step (.acquire slot)
  let valid : Bool ← step (.valid slot)
  if valid then pure ()
  else do
    let fields : InodeFields ← step (.load slot)
    if fields.type = .free then fail .ilockNoType
    else pure ()

def itrunc (slot : InodeSlot) : InodeProgram Unit := do
  step (.change slot fun fields => some fields.truncate)
  step (.iupdate slot)

def iput (slot : InodeSlot) : InodeProgram Unit := do
  let frees : Bool ← step (.iputLock slot)
  if frees then do
    itrunc slot
    step (.change slot fun fields => some { fields with type := .free })
    step (.iupdate slot)
    step (.invalidate slot)
    step (.releasesleep slot)
    step (.iputDrop slot)
  else pure ()

def iallocFrom (dev : Nat) (type : InodeType) : List Nat → InodeProgram InodeSlot
  | [] => fail .iallocNoInodes
  | inum :: rest => do
      let marked : Bool ← step (.iallocMark dev inum type)
      if marked then step (.iget dev inum)
      else iallocFrom dev type rest

def ialloc (ninodes dev : Nat) (type : InodeType) : InodeProgram InodeSlot :=
  iallocFrom dev type (List.range' 1 (ninodes - 1))

def readi (slot : InodeSlot) (off n : BitVec 32) (turns : InodeFields.Turns) :
    InodeProgram Unit :=
  step (.change slot fun fields => fields.readi off n turns)

def writei (slot : InodeSlot) (off n : BitVec 32) (turns : InodeFields.Turns) :
    InodeProgram Unit := do
  let fields : InodeFields ← step (.read slot)
  if fields.Writable off n then do
    step (.change slot fun fields =>
      if fields.Writable off n then fields.writei off n turns else some fields)
    step (.iupdate slot)
  else pure ()

/-- A change of fields by a system call, written back at once. -/
def assign (slot : InodeSlot) (update : InodeFields → InodeFields) : InodeProgram Unit := do
  step (.change slot fun fields => some (update fields))
  step (.iupdate slot)

end InodeProgram

/-! ## Processes -/

/-- The references a process has, and the entries that it has locked. -/
structure InodeHolder where
  refs : List InodeSlot
  locked : List InodeSlot
deriving DecidableEq

/-- What processes do with inodes. An operation names a reference or a lock of the process
by its position. `make` is what `create` does to a new inode. -/
inductive InodeCall
  | iget (dev inum : Nat)
  | ialloc (dev : Nat) (type : { type : InodeType // type ≠ .free })
  | idup (index : Nat)
  | ilock (index : Nat)
  | iunlock (index : Nat)
  | iput (index : Nat)
  | readi (index : Nat) (off n : BitVec 32) (turns : InodeFields.Turns)
  | writei (index : Nat) (off n : BitVec 32) (turns : InodeFields.Turns)
  | itrunc (index : Nat)
  | make (index : Nat) (major minor : BitVec 16)
  | incNlink (index : Nat)
  | decNlink (index : Nat)

def InodeCall.body (ninodes : Nat) (holder : InodeHolder) :
    InodeCall → InodeProgram InodeHolder
  | .iget dev inum => do
      let slot : InodeSlot ← InodeProgram.step (.iget dev inum)
      pure { holder with refs := slot :: holder.refs }
  | .ialloc dev type => do
      let slot ← InodeProgram.ialloc ninodes dev type.val
      pure { holder with refs := slot :: holder.refs }
  | .idup index =>
    match holder.refs[index]? with
    | none => pure holder
    | some slot => do
        InodeProgram.step (.idup slot)
        pure { holder with refs := slot :: holder.refs }
  | .ilock index =>
    match holder.refs[index]? with
    | none => pure holder
    | some slot => do
        InodeProgram.ilock slot
        pure { refs := holder.refs.eraseIdx index, locked := slot :: holder.locked }
  | .iunlock index =>
    match holder.locked[index]? with
    | none => pure holder
    | some slot => do
        InodeProgram.step (.iunlock slot)
        pure { refs := slot :: holder.refs, locked := holder.locked.eraseIdx index }
  | .iput index =>
    match holder.refs[index]? with
    | none => pure holder
    | some slot => do
        InodeProgram.iput slot
        pure { holder with refs := holder.refs.eraseIdx index }
  | .readi index off n turns =>
    onLocked index fun slot => InodeProgram.readi slot off n turns
  | .writei index off n turns =>
    onLocked index fun slot => InodeProgram.writei slot off n turns
  | .itrunc index => onLocked index InodeProgram.itrunc
  | .make index major minor => onLocked index fun slot =>
    InodeProgram.assign slot fun fields =>
      { fields with major := major, minor := minor, nlink := 1 }
  | .incNlink index => onLocked index fun slot =>
    InodeProgram.assign slot fun fields => { fields with nlink := fields.nlink + 1 }
  | .decNlink index => onLocked index fun slot =>
    InodeProgram.assign slot fun fields => { fields with nlink := fields.nlink - 1 }
where
  onLocked (index : Nat) (operation : InodeSlot → InodeProgram Unit) :
      InodeProgram InodeHolder :=
    match holder.locked[index]? with
    | none => pure holder
    | some slot => do
        operation slot
        pure holder

def inodeSystem (Pid : Type) [DecidableEq Pid] (ninodes : Nat) :
    System Pid (InodeState Pid) InodePanic InodeHolder InodeCall where
  Command := InodeCommand
  Response := InodeCommand.Response
  exec := InodeState.exec
  body _ call holder := call.body ninodes holder

/-- The cache after `iinit`, over the inodes of an image. -/
def InodeState.iinit (Pid : Type) (image : Nat → Nat → InodeFields) :
    InodeState Pid where
  entry _ := ⟨0, 0, 0, none, false, .blank .free⟩
  disk := image

def inodeBoot (Pid : Type) [DecidableEq Pid] (ninodes : Nat)
    (image : Nat → Nat → InodeFields) : Pool (inodeSystem Pid ninodes) :=
  (inodeSystem Pid ninodes).idle (.iinit Pid image) fun _ => ⟨[], []⟩

end Xv6
