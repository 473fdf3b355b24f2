import Xv6.Inode.Fields
import Xv6.Layout

/-! # The blocks of files

`balloc`, `bfree`, `bmap`, `itrunc`, `readi` and `writei` of `fs.c` over the free bit map,
the inodes and the contents of blocks. One operation is done after another, so that the
copy of an inode in memory and the one on disk need not be told apart. -/

namespace Xv6

open Foundation Function

inductive BlockPanic
  | balloc
  | bfree
  | bmap
  | iallocNoInodes
  | ilockNoType
deriving DecidableEq, Repr

/-- The bit map, the contents of blocks as the buffer cache shows them, and the inodes. -/
structure BlockState where
  bitmap : Nat → Bool
  data : Nat → Block
  inode : Nat → InodeFields

/-- The slot of `addrs` that holds the indirect block. -/
def indirectSlot : Fin (nDirect + 1) := Fin.last nDirect

namespace BlockState

def setInode (s : BlockState) (ip : Nat) (fields : InodeFields) : BlockState :=
  { s with inode := update s.inode ip fields }

def setAddr (s : BlockState) (ip : Nat) (slot : Fin (nDirect + 1)) (block : Nat) :
    BlockState :=
  s.setInode ip
    { s.inode ip with addrs := update (s.inode ip).addrs slot block }

def setData (s : BlockState) (block : Nat) (content : Block) : BlockState :=
  { s with data := update s.data block content }

/-- A zeroed block that was not in use. -/
def balloc (sb : Superblock) (s : BlockState) : Except BlockPanic (Nat × BlockState) :=
  match (List.range sb.size).find? fun block => !s.bitmap block with
  | none => .error .balloc
  | some block =>
    .ok (block,
      { s.setData block .zero with bitmap := update s.bitmap block true })

def bfree (block : Nat) (s : BlockState) : Except BlockPanic BlockState :=
  if s.bitmap block then
    .ok { s with bitmap := update s.bitmap block false }
  else .error .bfree

/-- The block in a slot of `addrs`, which is allocated if there is none. -/
def addrAt (sb : Superblock) (ip : Nat) (slot : Fin (nDirect + 1)) (s : BlockState) :
    Except BlockPanic (Nat × BlockState) :=
  if (s.inode ip).addrs slot = 0 then do
    let (block, s) ← s.balloc sb
    .ok (block, s.setAddr ip slot block)
  else .ok ((s.inode ip).addrs slot, s)

/-- The block in an entry of an indirect block, which is allocated if there is none. -/
def entryAt (sb : Superblock) (indirect index : Nat) (s : BlockState) :
    Except BlockPanic (Nat × BlockState) :=
  if (s.data indirect).word index = 0 then do
    let (block, s) ← s.balloc sb
    .ok (block, s.setData indirect ((s.data indirect).setWord index block))
  else .ok ((s.data indirect).word index, s)

/-- The address of block `bn` of a file. -/
def bmap (sb : Superblock) (ip bn : Nat) (s : BlockState) :
    Except BlockPanic (Nat × BlockState) :=
  if direct : bn < nDirect then s.addrAt sb ip ⟨bn, Nat.lt_succ_of_lt direct⟩
  else if bn - nDirect < nIndirect then do
    let (indirect, s) ← s.addrAt sb ip indirectSlot
    s.entryAt sb indirect (bn - nDirect)
  else .error .bmap

/-! ## Reading and writing -/

/-- What a copy from user memory comes to: the bytes that arrive, and whether it
succeeds. -/
structure Copy where
  bytes : List UInt8
  ok : Bool

/-- The loop of `writei`, with `left` bytes to go after `tot`. -/
def writeLoop (sb : Superblock) (ip : Nat) (copyin : (tot m : Nat) → Copy) :
    (fuel off tot left : Nat) → BlockState → Except BlockPanic (Nat × Nat × BlockState)
  | 0, off, tot, _, s => .ok (off, tot, s)
  | fuel + 1, off, tot, left, s =>
    if left = 0 then .ok (off, tot, s)
    else do
      let (block, s) ← s.bmap sb ip (off / bSize)
      let m := min left (bSize - off % bSize)
      let copy := copyin tot m
      let s := s.setData block
        ((s.data block).patch (off % bSize) (copy.bytes.take m))
      if copy.ok then writeLoop sb ip copyin fuel (off + m) (tot + m) (left - m) s
      else .ok (off, tot, s)

/-- `writei`, which returns -1 or the number of bytes written. The panic of `log_write` is left
out: it does not come with the writes of up to `3 * BSIZE` bytes that callers make in a
transaction with room for them. -/
def writei (sb : Superblock) (ip : Nat) (off n : BitVec 32) (copyin : (tot m : Nat) → Copy)
    (s : BlockState) : Except BlockPanic (Int × BlockState) :=
  if (s.inode ip).Writable off n then do
    let (reached, tot, s) ← writeLoop sb ip copyin n.toNat off.toNat 0 n.toNat s
    if (s.inode ip).size < reached then
      .ok (tot, s.setInode ip { s.inode ip with size := reached })
    else .ok (tot, s)
  else .ok (-1, s)

/-- The loop of `readi`: what has been copied out, or nothing when a copy fails. -/
def readLoop (sb : Superblock) (ip : Nat) (copyout : (tot m : Nat) → Bool) :
    (fuel off left : Nat) → List UInt8 → BlockState →
    Except BlockPanic (Option (List UInt8) × BlockState)
  | 0, _, _, bytes, s => .ok (some bytes, s)
  | fuel + 1, off, left, bytes, s =>
    if left = 0 then .ok (some bytes, s)
    else do
      let (block, s) ← s.bmap sb ip (off / bSize)
      let m := min left (bSize - off % bSize)
      if copyout bytes.length m then
        readLoop sb ip copyout fuel (off + m) (left - m)
          (bytes ++ (s.data block).slice (off % bSize) m) s
      else .ok (none, s)

/-- `readi`; nothing is the return value -1. -/
def readi (sb : Superblock) (ip : Nat) (off n : BitVec 32)
    (copyout : (tot m : Nat) → Bool) (s : BlockState) :
    Except BlockPanic (Option (List UInt8) × BlockState) :=
  let count := (s.inode ip).readRange off n
  readLoop sb ip copyout count off.toNat count [] s

/-! ## Truncating and freeing -/

/-- The first loop of `itrunc`, over slots of `addrs`. -/
def truncDirect (ip : Nat) : List (Fin (nDirect + 1)) → BlockState →
    Except BlockPanic BlockState
  | [], s => .ok s
  | slot :: rest, s =>
    if (s.inode ip).addrs slot = 0 then truncDirect ip rest s
    else do
      let state' ← s.bfree ((s.inode ip).addrs slot)
      truncDirect ip rest (state'.setAddr ip slot 0)

/-- The second loop of `itrunc`, over the entries of the indirect block. -/
def truncEntries (indirect : Nat) : List Nat → BlockState → Except BlockPanic BlockState
  | [], s => .ok s
  | index :: rest, s =>
    if (s.data indirect).word index = 0 then truncEntries indirect rest s
    else do
      let s ← s.bfree ((s.data indirect).word index)
      truncEntries indirect rest s

/-- The part of `itrunc` for the indirect block. -/
def truncIndirect (ip : Nat) (s : BlockState) : Except BlockPanic BlockState :=
  let indirect := (s.inode ip).addrs indirectSlot
  if indirect = 0 then .ok s
  else do
    let s ← truncEntries indirect (List.range nIndirect) s
    let s ← s.bfree indirect
    .ok (s.setAddr ip indirectSlot 0)

/-- The slots below `NDIRECT`. -/
def directSlots : List (Fin (nDirect + 1)) :=
  (List.finRange nDirect).map Fin.castSucc

def itrunc (ip : Nat) (s : BlockState) : Except BlockPanic BlockState := do
  let s ← truncDirect ip directSlots s
  let s ← truncIndirect ip s
  .ok (s.setInode ip { s.inode ip with size := 0 })

/-- What `iput` does to an inode without links that it holds the last reference to. -/
def ifree (ip : Nat) (s : BlockState) : Except BlockPanic BlockState := do
  let s ← itrunc ip s
  .ok (s.setInode ip { s.inode ip with type := .free })

def ialloc (sb : Superblock) (type : InodeType) (s : BlockState) :
    Except BlockPanic (Nat × BlockState) :=
  match (List.range' 1 (sb.ninodes - 1)).find? fun ip => (s.inode ip).type = .free with
  | none => .error .iallocNoInodes
  | some ip => .ok (ip, s.setInode ip (.blank type))

end BlockState

/-! ## Sequences of operations -/

/-- What the system calls do to the blocks of files. A call is a sequence of these;
`create`, `link` and `unlink` write entries of directories with `writei`. -/
inductive BlockOp
  | writei (ip : Nat) (off n : BitVec 32) (copyin : (tot m : Nat) → BlockState.Copy)
  | readi (ip : Nat) (off n : BitVec 32) (copyout : (tot m : Nat) → Bool)
  | itrunc (ip : Nat)
  | ifree (ip : Nat)
  | ialloc (type : { type : InodeType // type ≠ .free })
  | assign (ip : Nat) (major minor nlink : BitVec 16)

namespace BlockOp

/-- The inode that an operation works on has been locked. -/
def locked (ip : Nat) (s : BlockState) (run : Except BlockPanic BlockState) :
    Except BlockPanic BlockState :=
  if (s.inode ip).type = .free then .error .ilockNoType else run

def run (sb : Superblock) (op : BlockOp) (s : BlockState) :
    Except BlockPanic BlockState :=
  match op with
  | .writei ip off n copyin =>
    locked ip s ((s.writei sb ip off n copyin).map Prod.snd)
  | .readi ip off n copyout =>
    locked ip s ((s.readi sb ip off n copyout).map Prod.snd)
  | .itrunc ip => locked ip s (s.itrunc ip)
  | .ifree ip => locked ip s (s.ifree ip)
  | .ialloc type => (s.ialloc sb type.val).map Prod.snd
  | .assign ip major minor nlink =>
    locked ip s (.ok (s.setInode ip
      { s.inode ip with major := major, minor := minor, nlink := nlink }))

def runAll (sb : Superblock) : List BlockOp → BlockState → Except BlockPanic BlockState
  | [], s => .ok s
  | op :: rest, s => do
      let s ← op.run sb s
      runAll sb rest s

end BlockOp

end Xv6
