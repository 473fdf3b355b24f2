import Xv6.Foundation.Ledger
import Xv6.Sysfile.Calls
import Xv6.Sysfile.Tree

/-! # What processes hold of inodes

References, locks, and links that are counted before or after the entries that
stand for them. The invariant relates them to the inode cache and to the
directory tree. -/

namespace Xv6

open Foundation

/-- What the holder of an inode's lock has begun with it. -/
inductive Hold
  /-- Nothing. -/
  | whole
  /-- The inode comes from `ialloc` and has no link count yet. -/
  | blank
  /-- A new directory, counted once, without both of its dots. -/
  | making
  /-- A directory, counted once more than it is named. -/
  | unnamed
  /-- A directory that has been removed, with its last link still counted. -/
  | orphan
  /-- A directory that has counted the `..` of a directory to come. -/
  | expecting
  /-- A directory without the entry for a directory whose `..` names it. -/
  | child (inum : Inum)
deriving DecidableEq

namespace Hold

@[simp] def pending : Hold → Nat
  | .making | .unnamed | .orphan | .expecting => 1
  | .whole | .blank | .child _ => 0

@[simp] def nameless : Hold → Nat
  | .making | .unnamed => 1
  | .whole | .blank | .orphan | .expecting | .child _ => 0

@[simp] def unformed : Hold → Nat
  | .blank | .making => 1
  | .whole | .unnamed | .orphan | .expecting | .child _ => 0

end Hold

inductive FsResource (Pid : Type)
  /-- A reference to an inode. -/
  | ref (inum : Inum)
  /-- The reference that `iput` gives up after it has freed the inode. -/
  | dropping (inum : Inum)
  /-- A link that is counted and that no entry stands for; not of a directory. -/
  | link (inum : Inum)
  /-- An inode that `ialloc` has marked and does not refer to yet. -/
  | marked (inum : Inum) (type : InodeType)
  /-- The reference that `ialloc` returns. -/
  | newborn (inum : Inum) (type : InodeType)
  /-- The lock of an inode and the reference it was taken through. -/
  | locked (process : Pid) (inum : Inum) (dinode : Dinode) (hold : Hold)

abbrev FsHeld (Pid : Type) := Multiset (FsResource Pid)

namespace FsResource

variable {Pid : Type}

@[simp] def inum : FsResource Pid → Inum
  | .ref inum | .dropping inum | .link inum | .marked inum _ | .newborn inum _
  | .locked _ inum _ _ => inum

@[simp] def references : FsResource Pid → Nat
  | .ref _ | .dropping _ | .newborn _ _ | .locked _ _ _ _ => 1
  | .link _ | .marked _ _ => 0

@[simp] def owners : FsResource Pid → Nat
  | .ref _ | .marked _ _ | .newborn _ _ | .locked _ _ _ _ => 1
  | .dropping _ | .link _ => 0

@[simp] def fresh : FsResource Pid → Nat
  | .marked _ _ | .newborn _ _ => 1
  | .ref _ | .dropping _ | .link _ | .locked _ _ _ _ => 0

@[simp] def locks : FsResource Pid → Nat
  | .locked _ _ _ _ => 1
  | .ref _ | .dropping _ | .link _ | .marked _ _ | .newborn _ _ => 0

@[simp] def pending : FsResource Pid → Nat
  | .link _ => 1
  | .locked _ _ _ hold => hold.pending
  | .ref _ | .dropping _ | .marked _ _ | .newborn _ _ => 0

@[simp] def nameless : FsResource Pid → Nat
  | .locked _ _ _ hold => hold.nameless
  | .ref _ | .dropping _ | .link _ | .marked _ _ | .newborn _ _ => 0

@[simp] def unformed : FsResource Pid → Nat
  | .marked _ _ | .newborn _ _ => 1
  | .locked _ _ _ hold => hold.unformed
  | .ref _ | .dropping _ | .link _ => 0

@[simp] def drops : FsResource Pid → Nat
  | .dropping _ => 1
  | .ref _ | .link _ | .marked _ _ | .newborn _ _ | .locked _ _ _ _ => 0

/-- The lock of a directory that counts on a directory to come. -/
@[simp] def expects : FsResource Pid → Nat
  | .locked _ _ _ .expecting => 1
  | _ => 0

/-- The lock of a directory without the entry for a given directory. -/
@[simp] def misses (child : Inum) : FsResource Pid → Nat
  | .locked _ _ _ (.child inum) => if inum = child then 1 else 0
  | _ => 0

/-- What a resource says of the state. -/
def Fits (s : FsState Pid) : FsResource Pid → Prop
  | .ref inum => (s.disk inum).type ≠ .free
  | .dropping _ => True
  | .link inum => (s.disk inum).type ≠ .free ∧ (s.disk inum).type ≠ .dir
  | .marked inum type | .newborn inum type =>
    s.disk inum = .blank type ∧ type ≠ .free
  | .locked process inum dinode _ =>
    s.lock inum = some process ∧ s.valid inum = true ∧
      s.disk inum = dinode ∧ dinode.type ≠ .free

end FsResource

/-! ## Amounts -/

/-- What the resources about one inode amount to. -/
def amount (measure : FsResource Pid → Nat)
    (held : Multiset (FsResource Pid)) (inum : Inum) : Nat :=
  weigh (fun res => if res.inum = inum then measure res else 0) held

section

variable {Pid : Type} (measure : FsResource Pid → Nat)

@[simp] theorem amount_zero (inum : Inum) : amount measure 0 inum = 0 := rfl

@[simp] theorem amount_add (left right : FsHeld Pid) (inum : Inum) :
    amount measure (left + right) inum = amount measure left inum + amount measure right inum :=
  weigh_add _ left right

@[simp] theorem amount_cons (res : FsResource Pid) (held : FsHeld Pid) (inum : Inum) :
    amount measure (res ::ₘ held) inum = amount measure {res} inum + amount measure held inum := by
  rw [← amount_add, Multiset.singleton_add]

theorem amount_singleton (res : FsResource Pid) (inum : Inum) : amount measure {res} inum =
      if res.inum = inum then measure res else 0 := weigh_singleton _ res

@[simp] theorem amount_ref (i inum : Inum) :
    amount measure {.ref i} inum = if i = inum then measure (.ref i) else 0 :=
  amount_singleton measure _ inum

@[simp] theorem amount_dropping (i inum : Inum) :
    amount measure {.dropping i} inum = if i = inum then measure (.dropping i) else 0 :=
  amount_singleton measure _ inum

@[simp] theorem amount_link (i inum : Inum) :
    amount measure {.link i} inum = if i = inum then measure (.link i) else 0 :=
  amount_singleton measure _ inum

@[simp] theorem amount_marked (i inum : Inum) (type : InodeType) :
    amount measure {.marked i type} inum =
      if i = inum then measure (.marked i type) else 0 := amount_singleton measure _ inum

@[simp] theorem amount_newborn (i inum : Inum) (type : InodeType) :
    amount measure {.newborn i type} inum =
      if i = inum then measure (.newborn i type) else 0 := amount_singleton measure _ inum

@[simp] theorem amount_locked (p : Pid) (i inum : Inum) (d : Dinode) (hold : Hold) :
    amount measure {.locked p i d hold} inum =
      if i = inum then measure (.locked p i d hold) else 0 := amount_singleton measure _ inum

theorem le_amount {held : FsHeld Pid} {res : FsResource Pid} (mem : res ∈ held) :
    measure res ≤ amount measure held res.inum := by
  have bound := le_weigh (fun o => if o.inum = res.inum then measure o else 0) mem
  rwa [if_pos rfl] at bound

variable {measure}

theorem exists_of_amount_pos {held : FsHeld Pid} {inum : Inum}
    (pos : 0 < amount measure held inum) : ∃ res ∈ held, res.inum = inum ∧ 0 < measure res := by
  rcases exists_of_weigh_pos pos with ⟨res, mem, h⟩
  split at h
  · next same => exact ⟨res, mem, same, h⟩
  · omega

theorem amount_le_amount {smaller : FsResource Pid → Nat} (le : ∀ res, smaller res ≤ measure res)
    (held : FsHeld Pid) (inum : Inum) : amount smaller held inum ≤ amount measure held inum := by
  induction held using Multiset.induction_on with
  | empty => exact le_rfl
  | cons res rest ih =>
    rw [← Multiset.singleton_add, amount_add, amount_add, amount_singleton, amount_singleton]
    have here := le res
    split <;> omega

end

/-! ## The invariant -/

section

variable {Pid : Type}

/-- What the calls in progress have begun, given the links that were leaked. -/
def debts (held : Multiset (FsResource Pid)) (leaked : Inum → Nat) : Debts where
  pending := amount FsResource.pending held
  nameless := amount FsResource.nameless held
  unformed := amount FsResource.unformed held
  leaked := leaked

section

variable (held : FsHeld Pid) (leaked : Inum → Nat)

@[simp] theorem debts_pending : (debts held leaked).pending = amount FsResource.pending held := rfl

@[simp] theorem debts_nameless :
    (debts held leaked).nameless = amount FsResource.nameless held := rfl

@[simp] theorem debts_unformed :
    (debts held leaked).unformed = amount FsResource.unformed held := rfl

@[simp] theorem debts_leaked : (debts held leaked).leaked = leaked := rfl

end

/-- Reference counts and locks agree with what is held. -/
structure Books (s : FsState Pid) (held : Multiset (FsResource Pid)) :
    Prop where
  refs : ∀ i, s.ref i = amount FsResource.references held i
  once : ∀ i, amount FsResource.locks held i ≤ 1
  unlocked : ∀ i, amount FsResource.locks held i = 0 → s.lock i = none
  valid : ∀ i, s.valid i = true →
    s.inode i = s.disk i ∧ (s.disk i).type ≠ .free
  alone : ∀ i, 0 < amount FsResource.unformed held i →
    amount FsResource.owners held i = 1
  fits : ∀ res ∈ held, res.Fits s
  children : ∀ i child, 0 < amount (FsResource.misses child) held i →
    (s.disk child).parent? = some i ∧ s.removed child = false ∧
      0 < amount FsResource.nameless held child

/-- When no entry is added to a directory without links: link counts are exact,
removed directories are empty, every other directory is named in its parent, and
what has no links is referred to. -/
structure Exact (ninodes : Nat) (s : FsState Pid)
    (held : Multiset (FsResource Pid)) : Prop where
  gone : ∀ i, (s.disk i).type = .dir → s.removed i = true →
    upCount ninodes s.disk s.removed i = 0 ∧ (s.disk i).isdirempty = true
  listed : ∀ i parent, (s.disk i).type = .dir → s.removed i = false →
    i ≠ rootIno → (s.disk i).parent? = some parent →
    0 < (s.disk parent).names i ∨ 0 < amount (FsResource.misses i) held parent
  expecting : ∀ i, 0 < amount FsResource.expects held i → s.removed i = false
  referenced : ∀ i, (s.disk i).type ≠ .free → (s.disk i).nlink = 0 →
    0 < amount FsResource.owners held i ∧
      (s.valid i = true ∨ 0 < amount FsResource.fresh held i)
  dropped : ∀ i, 0 < amount FsResource.drops held i → (s.disk i).type = .free

/-- The invariant, with or without exact counting. -/
structure Consistent (ninodes : Nat) (counting : Prop) (s : FsState Pid)
    (held : Multiset (FsResource Pid)) : Prop where
  books : Books s held
  tree : ∃ leaked, Tree ninodes s.disk s.removed (debts held leaked) ∧
    (counting → leaked = 0)
  exact : counting → Exact ninodes s held

end

/-! ## The steps that are considered -/

/-- `iput` does not free the parent of another directory. -/
def FsCommand.KeepsParents (cmd : FsCommand) (s : FsState Pid) : Prop :=
  ∀ i, cmd = .iputFree i → s.Frees i →
    ∀ j, j ≠ i → (s.disk j).parent? ≠ some i

/-- No link count is increased beyond a bound. -/
def FsCommand.LinksUpTo (bound : Nat) (cmd : FsCommand) (s : FsState Pid) :
    Prop :=
  ∀ i, cmd = .incNlink i → (s.inode i).nlink.toNat < bound

/-- No directory without links is given an entry, or a `..` that names it. -/
def FsCommand.AddsToLinked (cmd : FsCommand) (s : FsState Pid) : Prop :=
  (∀ i, cmd = .incNlink i → (s.inode i).type = .dir →
    (s.inode i).nlink ≠ 0) ∧
  ∀ i slot entry, cmd = .writei i slot entry → entry.inum ≠ 0 →
    (s.inode i).nlink ≠ 0

/-- `ialloc` does not take an inode that the `iput` that freed it still refers
to. -/
def FsCommand.TakesUnreferenced (cmd : FsCommand) (s : FsState Pid) :
    Prop :=
  ∀ i type, cmd = .iallocMark i type → (s.disk i).type = .free →
    s.ref i = 0

section

variable (Pid : Type) [DecidableEq Pid]

/-- The ledger of the namespace calls. Every panic but that of an inode without
a type is tolerated. -/
def fsLedger (ninodes : Nat) (counting : Prop) :
    Ledger (fsSystem Pid ninodes) (FsResource Pid) where
  Inv := Consistent ninodes counting
  Allowed _ cmd s :=
    cmd.KeepsParents s ∧ cmd.LinksUpTo (2 ^ 16 - 1) s ∧
      (counting → cmd.AddsToLinked s ∧ cmd.TakesUnreferenced s)
  Tolerated reason := reason ≠ .ilockNoType
  idle proc := ((proc.cwd.toList ++ proc.ofile).map .ref : List (FsResource Pid))

end

abbrev FsExecutes [DecidableEq Pid] (ninodes : Nat) (counting : Prop) :=
  (fsLedger Pid ninodes counting).Executes

end Xv6
