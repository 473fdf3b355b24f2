import Mathlib.Data.Fintype.Basic
import Mathlib.Data.List.FinRange
import Mathlib.Data.List.Nodup
import Xv6.Foundation.Pool
import Xv6.Foundation.Writes
import Xv6.Param

/-! # The buffer cache of `bio.c`

A fixed number of buffers on a list sorted by how recently they were used. The
buffers' identities and reference counts change under `bcache.lock`; their
contents change under a sleep lock of their own. -/

namespace Xv6

open Foundation Function

/-- Position of a buffer in `bcache.buf`. -/
abbrev BufIndex := Fin nBuf

/-- The list that starts at `bcache.head`, most recently used buffer first. Every
buffer is on it once. -/
structure LruList where
  list : List BufIndex
  nodup : list.Nodup
  complete : ∀ b, b ∈ list

namespace LruList

/-- `binit` puts each buffer in front of the ones before it. -/
def initial : LruList where
  list := (List.finRange nBuf).reverse
  nodup := List.nodup_reverse.mpr (List.nodup_finRange nBuf)
  complete b := List.mem_reverse.mpr (List.mem_finRange b)

/-- Unlink a buffer and link it behind the head. -/
def touch (lru : LruList) (b : BufIndex) : LruList where
  list := b :: lru.list.erase b
  nodup := List.nodup_cons.mpr ⟨lru.nodup.not_mem_erase, lru.nodup.erase b⟩
  complete other := by
    by_cases same : other = b
    · simp [same]
    · exact List.mem_cons_of_mem _ ((List.mem_erase_of_ne same).mpr (lru.complete other))

end LruList

/-- `bcache`, with one function for each field of `struct buf`. The sleep lock of
a buffer is given by the process that holds it. -/
structure Bcache (Pid : Type) where
  valid : BufIndex → Bool
  dev : BufIndex → Nat
  blockno : BufIndex → Nat
  lock : BufIndex → Option Pid
  refcnt : BufIndex → Nat
  data : BufIndex → Block
  lru : LruList

/-- A `uint` one larger. -/
def increment (count : Nat) : Nat := (count + 1) % 2 ^ 32

/-- A `uint` one smaller. -/
def decrement (count : Nat) : Nat := (count + 2 ^ 32 - 1) % 2 ^ 32

namespace Bcache

variable {Pid : Type}

/-- The first loop of `bget`, over the list from its head. -/
def lookup (bcache : Bcache Pid) (dev blockno : Nat) : Option BufIndex :=
  bcache.lru.list.find? fun b => bcache.dev b = dev ∧ bcache.blockno b = blockno

/-- The second loop of `bget`, over the list from its end. -/
def unused (bcache : Bcache Pid) : Option BufIndex :=
  bcache.lru.list.reverse.find? fun b => bcache.refcnt b = 0

/-- Give a buffer to another block. -/
def recycle (bcache : Bcache Pid) (b : BufIndex) (dev blockno : Nat) :
    Bcache Pid :=
  { bcache with
    dev := update bcache.dev b dev
    blockno := update bcache.blockno b blockno
    valid := update bcache.valid b false
    refcnt := update bcache.refcnt b 1 }

def bpin (bcache : Bcache Pid) (b : BufIndex) : Bcache Pid :=
  { bcache with
    refcnt := update bcache.refcnt b (increment (bcache.refcnt b)) }

def bunpin (bcache : Bcache Pid) (b : BufIndex) : Bcache Pid :=
  { bcache with
    refcnt := update bcache.refcnt b (decrement (bcache.refcnt b)) }

/-- The part of `bget` under `bcache.lock`; `none` is the panic. A buffer that is
found gets one more reference, as in `bpin`. -/
def bget (bcache : Bcache Pid) (dev blockno : Nat) :
    Option (BufIndex × Bcache Pid) :=
  match bcache.lookup dev blockno with
  | some b => some (b, bcache.bpin b)
  | none => bcache.unused.map fun b => (b, bcache.recycle b dev blockno)

/-- The part of `brelse` under `bcache.lock`. -/
def unref (bcache : Bcache Pid) (b : BufIndex) : Bcache Pid :=
  let released := bcache.bunpin b
  if released.refcnt b = 0 then { released with lru := released.lru.touch b }
  else released

end Bcache

/-! ## The state that processes share -/

/-- A record of the run that no code reads: the contents that holders stored,
oldest first, which buffers were changed since they were last written, and how
many calls of `bpin` are not yet undone. -/
structure BioHistory where
  stores : List (Nat × Block)
  dirty : BufIndex → Bool
  pins : BufIndex → Nat

structure BioState (Pid : Type) where
  bcache : Bcache Pid
  disk : Disk
  history : BioHistory

/-- The cache after `binit`, which leaves the buffers all zero. -/
def binit (Pid : Type) (disk : Disk) : BioState Pid where
  bcache :=
    { valid := fun _ => false
      dev := fun _ => 0
      blockno := fun _ => 0
      lock := fun _ => none
      refcnt := fun _ => 0
      data := fun _ => Block.zero
      lru := LruList.initial }
  disk := disk
  history := { stores := [], dirty := fun _ => false, pins := fun _ => 0 }

inductive BioPanic
  | noBuffers
  | bwrite
  | brelse
deriving DecidableEq, Repr

inductive BioCommand
  | bget (blockno : Nat)
  | acquiresleep (b : BufIndex)
  | testValid (b : BufIndex)
  | diskRead (b : BufIndex)
  | setValid (b : BufIndex)
  | store (b : BufIndex) (data : Block)
  | bwrite (b : BufIndex)
  | releasesleep (b : BufIndex)
  | unref (b : BufIndex)
  | bpin (b : BufIndex)
  | bunpin (b : BufIndex)

@[reducible] def BioCommand.Response : BioCommand → Type
  | .bget _ => BufIndex
  | .testValid _ => Bool
  | _ => Unit

namespace BioState

variable {Pid : Type} [DecidableEq Pid]

def exec (p : Pid) : (cmd : BioCommand) → BioState Pid →
    Outcome BioPanic (cmd.Response × BioState Pid)
  | .bget blockno, s =>
    match s.bcache.bget rootDev blockno with
    | none => .panic .noBuffers
    | some (b, bcache) => .ok (b, { s with bcache := bcache })
  | .acquiresleep b, s =>
    match s.bcache.lock b with
    | some _ => .blocked
    | none => .ok ((),
        { s with
          bcache :=
            { s.bcache with
              lock := update s.bcache.lock b (some p) } })
  | .testValid b, s => .ok (s.bcache.valid b, s)
  | .diskRead b, s => .ok ((),
      { s with
        bcache :=
          { s.bcache with
            data := update s.bcache.data b
              (s.disk (s.bcache.blockno b)) } })
  | .setValid b, s => .ok ((),
      { s with
        bcache :=
          { s.bcache with valid := update s.bcache.valid b true } })
  | .store b data, s => .ok ((),
      { s with
        bcache :=
          { s.bcache with data := update s.bcache.data b data }
        history :=
          { s.history with
            stores := s.history.stores ++ [(s.bcache.blockno b, data)]
            dirty := update s.history.dirty b true } })
  | .bwrite b, s =>
    if s.bcache.lock b = some p then .ok ((),
      { s with
        disk := update s.disk (s.bcache.blockno b)
          (s.bcache.data b)
        history :=
          { s.history with
            dirty := update s.history.dirty b false } })
    else .panic .bwrite
  | .releasesleep b, s =>
    if s.bcache.lock b = some p then .ok ((),
      { s with
        bcache :=
          { s.bcache with lock := update s.bcache.lock b none } })
    else .panic .brelse
  | .unref b, s => .ok ((), { s with bcache := s.bcache.unref b })
  | .bpin b, s => .ok ((),
      { s with
        bcache := s.bcache.bpin b
        history :=
          { s.history with
            pins := update s.history.pins b
              (s.history.pins b + 1) } })
  | .bunpin b, s => .ok ((),
      { s with
        bcache := s.bcache.bunpin b
        history :=
          { s.history with
            pins := update s.history.pins b
              (s.history.pins b - 1) } })

end BioState

/-! ## What processes run -/

abbrev BioProgram (α : Type) := Program BioCommand BioCommand.Response α

namespace BioProgram

def step (cmd : BioCommand) : BioProgram cmd.Response :=
  Program.command cmd

def bread (blockno : Nat) : BioProgram BufIndex := do
  let b : BufIndex ← step (.bget blockno)
  step (.acquiresleep b)
  let valid : Bool ← step (.testValid b)
  if valid then pure b
  else
    step (.diskRead b)
    step (.setValid b)
    pure b

def brelse (b : BufIndex) : BioProgram Unit := do
  step (.releasesleep b)
  step (.unref b)

end BioProgram

/-- The calls that a process makes, and the change of a buffer's data. -/
inductive BioCall
  | bread (blockno : Nat)
  | store (b : BufIndex) (data : Block)
  | bwrite (b : BufIndex)
  | brelse (b : BufIndex)
  | bpin (b : BufIndex)
  | bunpin (b : BufIndex)

/-- The buffers that a process got from `bread` and has not released, each with
the block it asked for. -/
abbrev Holdings := BufIndex → Option Nat

def BioCall.body : BioCall → Holdings → BioProgram Holdings
  | .bread blockno, held => do
      let b : BufIndex ← BioProgram.bread blockno
      pure (update held b (some blockno))
  | .store b data, held => do
      BioProgram.step (.store b data)
      pure held
  | .bwrite b, held => do
      BioProgram.step (.bwrite b)
      pure held
  | .brelse b, held => do
      BioProgram.brelse b
      pure (update held b none)
  | .bpin b, held => do
      BioProgram.step (.bpin b)
      pure held
  | .bunpin b, held => do
      BioProgram.step (.bunpin b)
      pure held

def bioSystem (Pid : Type) [DecidableEq Pid] :
    System Pid (BioState Pid) BioPanic Holdings BioCall where
  Command := BioCommand
  Response := BioCommand.Response
  exec := BioState.exec
  body _ call held := call.body held

end Xv6
