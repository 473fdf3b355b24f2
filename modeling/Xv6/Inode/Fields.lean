import Mathlib.Logic.Function.Basic
import Xv6.Param
import Xv6.Sysfile.Directory

/-! # The fields of an inode

What `bmap`, `readi`, `writei` and `itrunc` do to the fields of `struct inode` that live
on disk. The blocks that an indirect block lists belong to that block, not to the inode,
and are left out here. -/

namespace Xv6

open Function

/-- Block numbers in an inode. -/
def nDirect : Nat := 12

/-- Block numbers in an indirect block. -/
def nIndirect : Nat := bSize / 4

/-- The most blocks of a file. -/
def maxFile : Nat := nDirect + nIndirect

/-- The fields that `struct inode` and `struct dinode` share. -/
structure InodeFields where
  type : InodeType
  major : BitVec 16
  minor : BitVec 16
  nlink : BitVec 16
  size : Nat
  addrs : Fin (nDirect + 1) → Nat

namespace InodeFields

/-- What `ialloc` leaves of a free inode. -/
def blank (type : InodeType) : InodeFields := ⟨type, 0, 0, 0, 0, fun _ => 0⟩

/-- The slot of `addrs` through which a block of the file is found. -/
def addrSlot (bn : Nat) : Fin (nDirect + 1) :=
  if direct : bn < nDirect then ⟨bn, Nat.lt_succ_of_lt direct⟩ else Fin.last nDirect

/-- A block that is not in use; `balloc` never returns block 0. -/
abbrev FreshBlock := { block : Nat // block ≠ 0 }

/-- What `bmap` does to the inode when `balloc` returns `fresh`; `none` is the panic. -/
def bmap (fields : InodeFields) (bn : Nat) (fresh : FreshBlock) : Option InodeFields :=
  if maxFile ≤ bn then none
  else if fields.addrs (addrSlot bn) = 0 then
    some { fields with addrs := update fields.addrs (addrSlot bn) fresh.val }
  else some fields

/-- What `balloc` returns and whether the copy succeeds, for each turn of a loop. -/
structure Turns where
  fresh : Nat → FreshBlock
  copies : Nat → Bool

/-- The loop of `readi` and `writei` from a turn on, with `left` bytes to go: the inode
and the offset it ends with. -/
def copyLoop (turns : Turns) : (fuel turn : Nat) → InodeFields → (off left : Nat) →
    Option (InodeFields × Nat)
  | 0, _, fields, off, _ => some (fields, off)
  | fuel + 1, turn, fields, off, left =>
    if left = 0 then some (fields, off)
    else
      match fields.bmap (off / bSize) (turns.fresh turn) with
      | none => none
      | some mapped =>
        let m := min left (bSize - off % bSize)
        if turns.copies turn then
          copyLoop turns fuel (turn + 1) mapped (off + m) (left - m)
        else some (mapped, off)

/-- The checks of `readi`, with the number of bytes to copy. -/
def readRange (fields : InodeFields) (off n : BitVec 32) : Nat :=
  if fields.size < off.toNat ∨ off + n < off then 0
  else if fields.size < (off + n).toNat then fields.size - off.toNat
  else n.toNat

/-- What `readi` leaves of the inode. -/
def readi (fields : InodeFields) (off n : BitVec 32) (turns : Turns) : Option InodeFields :=
  (copyLoop turns (fields.readRange off n) 0 fields off.toNat
    (fields.readRange off n)).map Prod.fst

/-- The checks of `writei`. -/
def Writable (fields : InodeFields) (off n : BitVec 32) : Prop :=
  ¬(fields.size < off.toNat ∨ off + n < off) ∧ (off + n).toNat ≤ maxFile * bSize

instance (fields : InodeFields) (off n : BitVec 32) : Decidable (fields.Writable off n) :=
  inferInstanceAs (Decidable (_ ∧ _))

/-- What `writei` makes of the inode after its checks, before `iupdate`. -/
def writei (fields : InodeFields) (off n : BitVec 32) (turns : Turns) :
    Option InodeFields :=
  (copyLoop turns n.toNat 0 fields off.toNat n.toNat).map fun out =>
    if out.1.size < out.2 then { out.1 with size := out.2 } else out.1

/-- What `itrunc` makes of the inode before `iupdate`. -/
def truncate (fields : InodeFields) : InodeFields :=
  { fields with size := 0, addrs := fun _ => 0 }

/-! ## Files without holes -/

/-- Every block below the size can be found without allocating in the inode. -/
def HoleFree (fields : InodeFields) : Prop :=
  ∀ bn, bn * bSize < fields.size → fields.addrs (addrSlot bn) ≠ 0

theorem holeFree_of_size {fields : InodeFields} (empty : fields.size = 0) : fields.HoleFree := by
  intro bn below
  omega

variable {turns : Turns} {fuel turn off left : Nat} {fields mapped : InodeFields}

theorem bmap_spec {bn : Nat} {fresh : FreshBlock} (mapping : fields.bmap bn fresh = some mapped) :
    mapped.type = fields.type ∧ mapped.size = fields.size ∧
    mapped.addrs (addrSlot bn) ≠ 0 ∧ ∀ slot, fields.addrs slot ≠ 0 → mapped.addrs slot ≠ 0 := by
  rw [bmap] at mapping
  split at mapping
  · cases mapping
  split at mapping
  · cases mapping
    refine ⟨rfl, rfl, ?_, ?_⟩
    · dsimp only
      rw [update_self]
      exact fresh.property
    intro slot has
    dsimp only
    by_cases same : slot = addrSlot bn
    · rw [same, update_self]
      exact fresh.property
    · rwa [update_of_ne same]
  · next has =>
    cases mapping
    exact ⟨rfl, rfl, has, fun _ has => has⟩

theorem bmap_of_present {bn : Nat} {fresh : FreshBlock} (has : fields.addrs (addrSlot bn) ≠ 0)
    (mapping : fields.bmap bn fresh = some mapped) : mapped = fields := by
  rw [bmap, if_neg has] at mapping
  split at mapping
  · cases mapping
  · cases mapping
    rfl

theorem copyLoop_spec {out : InodeFields × Nat}
    (ran : copyLoop turns fuel turn fields off left = some out) : out.1.type = fields.type ∧
    out.1.size = fields.size ∧ (∀ slot, fields.addrs slot ≠ 0 → out.1.addrs slot ≠ 0) ∧
    ∀ bn, off / bSize ≤ bn → bn * bSize < out.2 → off < out.2 → out.1.addrs (addrSlot bn) ≠ 0 := by
  induction fuel generalizing turn fields off left with
  | zero =>
    cases ran
    exact ⟨rfl, rfl, fun _ has => has, fun _ _ _ forward => by omega⟩
  | succ fuel ih =>
    rw [copyLoop] at ran
    split at ran
    · cases ran
      exact ⟨rfl, rfl, fun _ has => has, fun _ _ _ forward => by omega⟩
    split at ran
    · cases ran
    next mapped mapping =>
    rcases bmap_spec mapping with ⟨type, size, here, keeps⟩
    dsimp only at ran
    split at ran
    · rcases ih ran with ⟨typeRest, sizeRest, keepsRest, rest⟩
      refine ⟨typeRest.trans type, sizeRest.trans size,
        fun slot has => keepsRest slot (keeps slot has), ?_⟩
      intro bn from_ below forward
      by_cases first : bn = off / bSize
      · rw [first]
        exact keepsRest _ here
      -- The next turn starts in a later block.
      rw [bSize_eq] at from_ below first
      have later : off / 1024 + 1 ≤ bn := by omega
      have progress : off + min left (1024 - off % 1024) ≤ (off / 1024 + 1) * 1024 := by omega
      apply rest bn
      · rw [bSize_eq]
        omega
      · rwa [bSize_eq]
      · rw [bSize_eq]
        omega
    · cases ran
      exact ⟨type, size, keeps, fun _ _ _ forward => by omega⟩

theorem copyLoop_of_mapped {out : InodeFields × Nat}
    (mapped : ∀ bn, bn * bSize < off + left → fields.addrs (addrSlot bn) ≠ 0)
    (ran : copyLoop turns fuel turn fields off left = some out) : out.1 = fields := by
  induction fuel generalizing turn off left with
  | zero =>
    cases ran
    rfl
  | succ fuel ih =>
    rw [copyLoop] at ran
    split at ran
    · cases ran
      rfl
    next more =>
    have has : fields.addrs (addrSlot (off / bSize)) ≠ 0 := by
      apply mapped
      rw [bSize_eq]
      omega
    split at ran
    · cases ran
    next same mapping =>
    rw [bmap_of_present has mapping] at ran
    dsimp only at ran
    split at ran
    · apply ih _ ran
      intro bn below
      apply mapped
      omega
    · cases ran
      rfl

theorem HoleFree.readi {off n : BitVec 32} {after : InodeFields} (holeFree : fields.HoleFree)
    (ran : fields.readi off n turns = some after) : after = fields := by
  rw [InodeFields.readi, Option.map_eq_some_iff] at ran
  rcases ran with ⟨out, ran, isAfter⟩
  rw [← isAfter]
  by_cases none : fields.readRange off n = 0
  · rw [none] at ran
    cases ran
    rfl
  apply copyLoop_of_mapped _ ran
  intro bn below
  apply holeFree
  have isIn : off.toNat + fields.readRange off n ≤ fields.size := by
    rw [readRange] at none ⊢
    split
    · next outside =>
      rw [if_pos outside] at none
      exact absurd rfl none
    next isIn =>
    rw [not_or] at isIn
    split
    · omega
    next fits =>
    have noWrap : (off + n).toNat = off.toNat + n.toNat := by
      have sum := BitVec.toNat_add off n
      have ordered : ¬ (off + n).toNat < off.toNat := isIn.2
      have boundOff := off.isLt
      have boundN := n.isLt
      omega
    omega
  omega

theorem HoleFree.writei {off n : BitVec 32} {after : InodeFields} (holeFree : fields.HoleFree)
    (wrb : fields.Writable off n) (ran : fields.writei off n turns = some after) :
    after.HoleFree ∧ after.type = fields.type := by
  rw [InodeFields.writei, Option.map_eq_some_iff] at ran
  rcases ran with ⟨⟨loop, got⟩, ran, isAfter⟩
  rcases copyLoop_spec ran with ⟨type, size, keeps, cover⟩
  dsimp only at type size keeps cover isAfter
  have start : off.toNat ≤ fields.size := by
    have isIn := (not_or.mp wrb.1).1
    omega
  split at isAfter
  · next grows =>
    subst isAfter
    refine ⟨?_, type⟩
    intro bn below
    dsimp only at below ⊢
    by_cases old : bn * bSize < fields.size
    · exact keeps _ (holeFree bn old)
    rw [bSize_eq] at old below cover
    apply cover bn
    · omega
    · exact below
    · omega
  · subst isAfter
    refine ⟨?_, type⟩
    intro bn below
    rw [size] at below
    exact keeps _ (holeFree bn below)

end InodeFields

end Xv6
