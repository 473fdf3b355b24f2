import Xv6.Foundation.Pool
import Xv6.Sysfile.Directory

/-! # The inode cache as processes share it

The inodes on disk, their copies in the inode cache of `fs.c`, and what a
process does to them in one atomic step: under `icache.lock`, under the lock of
the buffer that holds the inode, or under the inode's own sleep lock. A step
that changes fields of a locked inode includes the `iupdate` that follows the
change in the source, so that a valid copy is the inode on disk.

The cache is keyed by inode number: an entry is in use when its reference count
is positive. -/

namespace Xv6

open Foundation Function

/-- The most inodes that the cache holds. -/
def nInode : Nat := 50

/-- The inodes on disk, the bytes of files, and `icache`, with one function for each
field of `struct inode`. `removed` is history: the directories that `unlink` has taken
out of their parent. -/
structure FsState (Pid : Type) where
  disk : Inum → Dinode
  data : Inum → List UInt8
  inode : Inum → Dinode
  valid : Inum → Bool
  ref : Inum → Nat
  lock : Inum → Option Pid
  removed : Inum → Bool

inductive FsPanic
  | igetNoInodes
  | ilock
  | ilockNoType
  | iunlock
  | iallocNoInodes
  | dirlookupNotDir
  | dirlink
  | unlinkNlink
  | unlinkWritei
  | createDots
  | createDirlink
deriving DecidableEq, Repr

/-- The atomic steps. `iputFree` is the first half of `iput`, up to where
`icache.lock` is taken again, and `iputDrop` the second. `iallocMark` is one turn
of the loop of `ialloc`. `read` looks at a locked inode, `writei` writes one
entry of a locked directory, and `itrunc` discards the bytes of a locked file. -/
inductive FsCommand
  | iget (inum : Inum)
  | idup (inum : Inum)
  | ilock (inum : Inum)
  | read (inum : Inum)
  | iunlock (inum : Inum)
  | iputFree (inum : Inum)
  | iputDrop (inum : Inum)
  | iallocMark (inum : Inum) (type : InodeType)
  | initInode (inum : Inum) (major : BitVec 16)
  | incNlink (inum : Inum)
  | decNlink (inum : Inum) (removes : Option Inum)
  | writei (inum : Inum) (slot : Nat) (entry : Dirent)
  | itrunc (inum : Inum)
  | panic (reason : FsPanic)

@[reducible] def FsCommand.Response : FsCommand → Type
  | .read _ => Dinode
  | .iputFree _ => Bool
  | .iallocMark _ _ => Bool
  | .writei _ _ _ => Bool
  | .panic _ => Empty
  | _ => Unit

namespace FsState

variable {Pid : Type}

/-- How many entries of the cache are in use. -/
def cached (ninodes : Nat) (s : FsState Pid) : Nat :=
  (List.range ninodes).countP fun inum => 0 < s.ref inum

/-- Change a locked inode and write it back. -/
def store (s : FsState Pid) (inum : Inum) (dinode : Dinode) :
    FsState Pid :=
  { s with
    disk := update s.disk inum dinode
    inode := update s.inode inum dinode }

@[simp] theorem store_disk (s : FsState Pid) (inum : Inum) (dinode : Dinode) :
    (s.store inum dinode).disk = update s.disk inum dinode := rfl

@[simp] theorem store_removed (s : FsState Pid) (inum : Inum) (dinode : Dinode) :
    (s.store inum dinode).removed = s.removed := rfl

/-- `iput` frees an inode that has no links and no other references. -/
def Frees (s : FsState Pid) (inum : Inum) : Prop :=
  s.ref inum = 1 ∧ s.valid inum = true ∧ (s.inode inum).nlink = 0

instance (s : FsState Pid) (inum : Inum) : Decidable (s.Frees inum) :=
  inferInstanceAs (Decidable (_ ∧ _ ∧ _))

/-- The inode after `itrunc(ip)` and `ip->type = 0`. -/
def freed (s : FsState Pid) (inum : Inum) : Dinode :=
  { s.inode inum with type := .free, entries := [] }

variable [DecidableEq Pid]

def exec (ninodes : Nat) (p : Pid) : (cmd : FsCommand) →
    FsState Pid → Outcome FsPanic (cmd.Response × FsState Pid)
  | .iget inum, s =>
    if 0 < s.ref inum then
      .ok ((),
        { s with
          ref := update s.ref inum (s.ref inum + 1) })
    else if s.cached ninodes < nInode then
      .ok ((),
        { s with
          ref := update s.ref inum 1
          valid := update s.valid inum false })
    else .panic .igetNoInodes
  | .idup inum, s =>
    .ok ((),
      { s with
        ref := update s.ref inum (s.ref inum + 1) })
  | .ilock inum, s =>
    if s.ref inum < 1 then .panic .ilock
    else
      match s.lock inum with
      | some _ => .blocked
      | none =>
        if s.valid inum then
          .ok ((),
            { s with
              lock := update s.lock inum (some p) })
        else if (s.disk inum).type = .free then .panic .ilockNoType
        else
          .ok ((),
            { s with
              lock := update s.lock inum (some p)
              inode := update s.inode inum (s.disk inum)
              valid := update s.valid inum true })
  | .read inum, s => .ok (s.inode inum, s)
  | .iunlock inum, s =>
    if s.lock inum = some p ∧ 1 ≤ s.ref inum then
      .ok ((), { s with lock := update s.lock inum none })
    else .panic .iunlock
  | .iputFree inum, s =>
    if s.Frees inum then
      match s.lock inum with
      | some _ => .blocked
      | none =>
        .ok (true,
          { s.store inum (s.freed inum) with
            data := update s.data inum []
            valid := update s.valid inum false })
    else
      .ok (false,
        { s with
          ref := update s.ref inum (s.ref inum - 1) })
  | .iputDrop inum, s =>
    .ok ((),
      { s with
        ref := update s.ref inum (s.ref inum - 1) })
  | .iallocMark inum type, s =>
    if (s.disk inum).type = .free then
      .ok (true,
        { s with
          disk := update s.disk inum (.blank type)
          data := update s.data inum []
          removed := update s.removed inum false })
    else .ok (false, s)
  | .initInode inum major, s =>
    .ok ((), s.store inum { s.inode inum with major := major, nlink := 1 })
  | .incNlink inum, s =>
    .ok ((), s.store inum
      { s.inode inum with nlink := (s.inode inum).nlink + 1 })
  | .decNlink inum removes, s =>
    .ok ((),
      { s.store inum
          { s.inode inum with nlink := (s.inode inum).nlink - 1 } with
        removed :=
          match removes with
          | none => s.removed
          | some child => update s.removed child true })
  | .writei inum slot entry, s =>
    if slot ≤ (s.inode inum).entries.length ∧ slot < maxEntries then
      .ok (true, s.store inum ((s.inode inum).setEntry slot entry))
    else .ok (false, s)
  | .itrunc inum, s =>
    .ok ((), { s with data := update s.data inum [] })
  | .panic reason, _ => .panic reason

/-! ## What a step comes to -/

variable (ninodes : Nat) (p : Pid) {s after : FsState Pid} {inum : Inum} {r : Unit}

theorem exec_iget_ok (ran : exec ninodes p (.iget inum) s = .ok (r, after)) :
    after.disk = s.disk ∧ after.removed = s.removed ∧
    after.inode = s.inode ∧ after.lock = s.lock ∧ after.ref = update s.ref inum (s.ref inum + 1) ∧
    (after.valid = s.valid ∨ s.ref inum = 0 ∧ after.valid = update s.valid inum false) := by
  rw [exec] at ran
  split at ran
  · cases ran
    exact ⟨rfl, rfl, rfl, rfl, rfl, .inl rfl⟩
  next unreferenced =>
  have none : s.ref inum = 0 := by omega
  split at ran
  · cases ran
    exact ⟨rfl, rfl, rfl, rfl, by simp [none], .inr ⟨none, rfl⟩⟩
  · simp at ran

variable {reason : FsPanic}

theorem exec_iget_panic (ran : exec ninodes p (.iget inum) s = .panic reason) :
    reason = .igetNoInodes := by
  rw [exec] at ran
  split at ran
  · simp at ran
  split at ran
  · simp at ran
  · cases ran
    rfl

theorem exec_ilock_ok (ran : exec ninodes p (.ilock inum) s = .ok (r, after)) : s.lock inum = none ∧
    after.lock = update s.lock inum (some p) ∧ after.disk = s.disk ∧ after.removed = s.removed ∧
    after.ref = s.ref ∧ (s.valid inum = true ∧ after.valid = s.valid ∧ after.inode = s.inode ∨
    after.valid = update s.valid inum true ∧ after.inode = update s.inode inum (s.disk inum)) := by
  rw [exec] at ran
  split at ran
  · simp at ran
  split at ran
  · simp at ran
  next unlocked =>
  split at ran
  · next isVal =>
    cases ran
    exact ⟨unlocked, rfl, rfl, rfl, rfl, .inl ⟨isVal, rfl, rfl⟩⟩
  split at ran
  · simp at ran
  · cases ran
    exact ⟨unlocked, rfl, rfl, rfl, rfl, .inr ⟨rfl, rfl⟩⟩

theorem exec_ilock_panic (ran : exec ninodes p (.ilock inum) s = .panic reason) :
    reason = .ilock ∨ (s.disk inum).type = .free := by
  rw [exec] at ran
  split at ran
  · cases ran
    exact .inl rfl
  split at ran
  · simp at ran
  split at ran
  · simp at ran
  split at ran
  · next isFree => exact .inr isFree
  · simp at ran

theorem exec_iunlock_ok (ran : exec ninodes p (.iunlock inum) s = .ok (r, after)) :
    after = { s with lock := update s.lock inum none } := by
  rw [exec] at ran
  split at ran
  · cases ran
    rfl
  · simp at ran

theorem exec_iunlock_panic (ran : exec ninodes p (.iunlock inum) s = .panic reason) :
    reason = .iunlock := by
  rw [exec] at ran
  split at ran
  · simp at ran
  · cases ran
    rfl

theorem exec_iputFree_ok {r : Bool} (ran : exec ninodes p (.iputFree inum) s = .ok (r, after)) :
    r = true ∧ s.Frees inum ∧ after = { s.store inum (s.freed inum) with
          data := update s.data inum []
          valid := update s.valid inum false } ∨ r = false ∧ ¬ s.Frees inum ∧ after = { s with
          ref := update s.ref inum (s.ref inum - 1) } := by
  rw [exec] at ran
  split at ran
  · next frees =>
    split at ran
    · simp at ran
    · cases ran
      exact .inl ⟨rfl, frees, rfl⟩
  · next stays =>
    cases ran
    exact .inr ⟨rfl, stays, rfl⟩

theorem exec_iputFree_panic : exec ninodes p (.iputFree inum) s ≠ .panic reason := by
  rw [exec]
  split
  · split <;> simp
  · simp

theorem exec_iallocMark_ok {type : InodeType} {r : Bool}
    (ran : exec ninodes p (.iallocMark inum type) s = .ok (r, after)) :
    r = true ∧ (s.disk inum).type = .free ∧ after = { s with
          disk := update s.disk inum (.blank type)
          data := update s.data inum []
          removed := update s.removed inum false } ∨ r = false ∧ after = s := by
  rw [exec] at ran
  split at ran
  · next isFree =>
    cases ran
    exact .inl ⟨rfl, isFree, rfl⟩
  · cases ran
    exact .inr ⟨rfl, rfl⟩

theorem exec_iallocMark_panic {type : InodeType} :
    exec ninodes p (.iallocMark inum type) s ≠ .panic reason := by
  rw [exec]
  split <;> simp

theorem exec_writei_ok {slot : Nat} {entry : Dirent} {r : Bool}
    (ran : exec ninodes p (.writei inum slot entry) s = .ok (r, after)) :
    r = true ∧ slot ≤ (s.inode inum).entries.length ∧
    after = s.store inum ((s.inode inum).setEntry slot entry) ∨ r = false ∧ after = s := by
  rw [exec] at ran
  split at ran
  · next fits =>
    cases ran
    exact .inl ⟨rfl, fits.1, rfl⟩
  · cases ran
    exact .inr ⟨rfl, rfl⟩

theorem exec_writei_panic {slot : Nat} {entry : Dirent} :
    exec ninodes p (.writei inum slot entry) s ≠ .panic reason := by
  rw [exec]
  split <;> simp

end FsState

end Xv6
