import Xv6.Blocks.Blocks
import Xv6.Foundation.Allocation

/-! # Who owns a block

Every block of the data area is free or belongs to one place: a slot of an inode or an
entry of an indirect block. -/

namespace Xv6

open Foundation Function List

/-! ## Panics -/

/-- What holds of the result, if there is one. The panic `freeing free block` is
excluded. -/
def Safe (post : α → Prop) : Except BlockPanic α → Prop
  | .ok value => post value
  | .error reason => reason ≠ .bfree

theorem Safe.bind {out : Except BlockPanic α} {next : α → Except BlockPanic β}
    {mid : α → Prop} {post : β → Prop} (safe : Safe mid out)
    (rest : ∀ v, mid v → Safe post (next v)) : Safe post (out >>= next) := by
  cases out with
  | ok v => exact rest v safe
  | error why => exact safe

theorem Safe.mono {out : Except BlockPanic α} {post wider : α → Prop}
    (safe : Safe post out) (implies : ∀ v, post v → wider v) : Safe wider out := by
  cases out with
  | ok v => exact implies v safe
  | error why => exact safe

theorem Safe.and {out : Except BlockPanic α} {post o : α → Prop}
    (left : Safe post out) (right : Safe o out) : Safe (fun v => post v ∧ o v) out := by
  cases out with
  | error panic => exact left
  | ok v => exact ⟨left, right⟩

theorem Safe.map {out : Except BlockPanic α} {f : α → β} {post : β → Prop}
    (safe : Safe (fun v => post (f v)) out) : Safe post (out.map f) := by
  cases out with
  | ok v | error why => exact safe

/-! ## Places -/

/-- Where a block number can stand. -/
inductive BlockPlace
  | addr (inum : Nat) (slot : Fin (nDirect + 1))
  | entry (inum index : Nat)
deriving DecidableEq

/-- The place for block `bn` of a file. -/
def BlockPlace.leaf (inum bn : Nat) : BlockPlace :=
  if direct : bn < nDirect then .addr inum ⟨bn, Nat.lt_succ_of_lt direct⟩
  else .entry inum (bn - nDirect)

theorem BlockPlace.leaf_ne_indirect {inum bn o : Nat} :
    BlockPlace.leaf inum bn ≠ .addr o indirectSlot := by
  intro eq
  rw [leaf] at eq
  split at eq
  · next direct =>
    simp only [addr.injEq] at eq
    have v := congrArg Fin.val eq.2
    simp only [indirectSlot, Fin.val_last] at v
    omega
  · cases eq

theorem BlockPlace.entry_ne_addr {inum ix o : Nat} {slot : Fin (nDirect + 1)} :
    BlockPlace.entry inum ix ≠ .addr o slot := by
  rintro ⟨⟩

namespace BlockState

/-- The block number at a place of an allocated inode, 0 if there is none. -/
def refs (s : BlockState) : BlockPlace → Nat
  | .addr inum slot =>
    if (s.inode inum).type = .free then 0 else (s.inode inum).addrs slot
  | .entry inum index =>
    if (s.inode inum).type = .free ∨ (s.inode inum).addrs indirectSlot = 0 ∨
        nIndirect ≤ index then 0
    else (s.data ((s.inode inum).addrs indirectSlot)).word index

variable {s after : BlockState} {ip : Nat} {slot : Fin (nDirect + 1)} {block : Nat}

theorem refs_addr (live : (s.inode ip).type ≠ .free) :
    s.refs (.addr ip slot) = (s.inode ip).addrs slot := if_neg live

theorem refs_congr (inode : after.inode = s.inode)
    (data : ∀ i, (s.inode i).type ≠ .free → (s.inode i).addrs indirectSlot ≠ 0 →
    after.data ((s.inode i).addrs indirectSlot) = s.data ((s.inode i).addrs indirectSlot)) :
    after.refs = s.refs := by
  funext place
  cases place with
  | addr inum slot => rw [refs, refs, inode]
  | entry inum ix =>
    rw [refs, refs, inode]
    split
    · rfl
    next h =>
    rw [not_or, not_or] at h
    rw [data inum h.1 h.2.1]

theorem refs_setData {content : Block} (o : ∀ i, s.refs (.addr i indirectSlot) ≠ 0 →
    s.refs (.addr i indirectSlot) ≠ block) : (s.setData block content).refs = s.refs := by
  refine refs_congr rfl ?_
  intro i live has
  have ne := o i
  rw [refs_addr live] at ne
  rw [setData]
  dsimp only
  rw [update_of_ne (ne has)]

theorem inode_setAddr_of_ne {i : Nat} (o : i ≠ ip) :
    (s.setAddr ip slot block).inode i = s.inode i := update_of_ne o _ _

theorem inode_setAddr_self : (s.setAddr ip slot block).inode ip =
      { s.inode ip with addrs := update (s.inode ip).addrs slot block } := update_self _ _ _

@[simp] theorem type_setAddr (i : Nat) :
    ((s.setAddr ip slot block).inode i).type = (s.inode i).type := by
  by_cases same : i = ip
  · subst same
    rw [inode_setAddr_self]
  · rw [inode_setAddr_of_ne same]

@[simp] theorem size_setAddr (i : Nat) :
    ((s.setAddr ip slot block).inode i).size = (s.inode i).size := by
  by_cases same : i = ip
  · subst same
    rw [inode_setAddr_self]
  · rw [inode_setAddr_of_ne same]

theorem refs_setAddr (live : (s.inode ip).type ≠ .free) (empty : slot = indirectSlot →
    (s.inode ip).addrs indirectSlot = 0 ∧ ∀ ix, ix < nIndirect → (s.data block).word ix = 0) :
    (s.setAddr ip slot block).refs = update s.refs (.addr ip slot) block := by
  funext place
  cases place with
  | addr i o =>
    by_cases same : i = ip
    · subst same
      have stillLive : ((s.setAddr i slot block).inode i).type ≠ .free := by rwa [type_setAddr]
      rw [refs_addr stillLive, inode_setAddr_self]
      dsimp only
      by_cases here : o = slot
      · rw [here, update_self, update_self]
      rw [update_of_ne here, update_of_ne, refs_addr live]
      intro eq
      cases eq
      exact here rfl
    · rw [update_of_ne, refs, refs, inode_setAddr_of_ne same]
      intro eq
      cases eq
      exact same rfl
  | entry i ix =>
    rw [update_of_ne BlockPlace.entry_ne_addr]
    by_cases same : i = ip
    · subst same
      by_cases isIndirect : slot = indirectSlot
      · have old : s.refs (.entry i ix) = 0 := if_pos (.inr (.inl (empty isIndirect).1))
        rw [old, refs]
        split
        · rfl
        next h =>
        rw [not_or, not_or, inode_setAddr_self, isIndirect] at h
        rw [inode_setAddr_self, isIndirect]
        dsimp only at h ⊢
        rw [update_self]
        exact (empty isIndirect).2 ix (by omega)
      · have kept : ((s.setAddr i slot block).inode i).addrs indirectSlot =
            (s.inode i).addrs indirectSlot := by
          rw [inode_setAddr_self]
          exact update_of_ne (Ne.symm isIndirect) _ _
        simp only [refs, kept, type_setAddr]
        rfl
    · rw [refs, refs, inode_setAddr_of_ne same]
      rfl

theorem refs_setWord {ind ix : Nat} (live : (s.inode ip).type ≠ .free)
    (isInd : (s.inode ip).addrs indirectSlot = ind) (has : ind ≠ 0) (isIn : ix < nIndirect)
    (small : block < 2 ^ 32) (alone : ∀ i, i ≠ ip → s.refs (.addr i indirectSlot) ≠ ind) :
    (s.setData ind ((s.data ind).setWord ix block)).refs = update s.refs (.entry ip ix) block := by
  have fits : 4 * ix + 4 ≤ bSize := by
    rw [nIndirect, bSize_eq] at isIn
    rw [bSize_eq]
    omega
  funext place
  cases place with
  | addr i slot =>
    rw [update_of_ne BlockPlace.entry_ne_addr.symm]
    rfl
  | entry i o =>
    by_cases same : i = ip
    · subst same
      by_cases here : o = ix
      · subst here
        have open_ : ¬((s.inode i).type = .free ∨
            (s.inode i).addrs indirectSlot = 0 ∨ nIndirect ≤ o) := by
          rw [isInd]
          rintro (isFree | isZero | outside)
          · exact live isFree
          · exact has isZero
          · omega
        rw [update_self, refs, setData]
        dsimp only
        rw [if_neg open_, isInd, update_self,
          Block.word_setWord_self _ _ _ fits, Nat.mod_eq_of_lt small]
      · rw [update_of_ne (by intro eq; cases eq; exact here rfl), refs, refs, setData]
        dsimp only
        split
        · rfl
        · rw [isInd, update_self, Block.word_setWord_of_ne _ _ _ _ here]
    · rw [update_of_ne (by intro eq; cases eq; exact same rfl), refs, refs, setData]
      dsimp only
      split
      · rfl
      next h =>
      rw [not_or, not_or] at h
      have ne := alone i same
      rw [refs_addr h.1] at ne
      rw [update_of_ne ne]

end BlockState

/-! ## Exact bit maps -/

/-- The blocks before the data area. -/
def Superblock.nmeta (sb : Superblock) : Nat := sb.size - sb.nblocks

/-- A bit is set for the blocks of the file system itself and for those that have a
place. -/
def BlockState.Exact (sb : Superblock) (s : BlockState) : Prop :=
  Allocated sb.nmeta sb.size s.refs s.bitmap

/-- The inodes keep their type and size and the blocks that they have. -/
structure Extends (s after : BlockState) : Prop where
  type : ∀ i, (after.inode i).type = (s.inode i).type
  size : ∀ i, (after.inode i).size = (s.inode i).size
  refs : ∀ place, s.refs place ≠ 0 → after.refs place = s.refs place

theorem Extends.refl (s : BlockState) : Extends s s := ⟨fun _ => rfl, fun _ => rfl, fun _ _ => rfl⟩

theorem Extends.trans {fst snd third : BlockState} (left : Extends fst snd)
    (right : Extends snd third) : Extends fst third where
  type i := (right.type i).trans (left.type i)
  size i := (right.size i).trans (left.size i)
  refs place has := by
    have kept := left.refs place has
    rw [right.refs place (kept ▸ has), kept]

theorem Extends.of_take {s after : BlockState} {place : BlockPlace} {block : Nat}
    (type : ∀ i, (after.inode i).type = (s.inode i).type)
    (size : ∀ i, (after.inode i).size = (s.inode i).size)
    (refs : after.refs = update s.refs place block)
    (empty : s.refs place = 0) : Extends s after where
  type := type
  size := size
  refs o has := by
    have ne : o ≠ place := by
      intro same
      exact has (same ▸ empty)
    rw [refs, update_of_ne ne]

namespace BlockState

variable {sb : Superblock} {s : BlockState} {ip : Nat} {slot : Fin (nDirect + 1)}

theorem balloc_spec (sb : Superblock) (s : BlockState) :
    Safe (fun out => ∃ block, block < sb.size ∧ s.bitmap block = false ∧ out = (block,
        { s.setData block .zero with bitmap := update s.bitmap block true })) (s.balloc sb) := by
  rw [balloc]
  split
  · rintro ⟨⟩
  next block hit =>
  have h := List.find?_some hit
  have isIn := mem_range.mp (mem_of_find?_eq_some hit)
  exact ⟨block, isIn, by simpa using h, rfl⟩

theorem Exact.refs_taken (exact : s.Exact sb) {block : Nat} (isIn : block < sb.size)
    (unused : s.bitmap block = false) (bitmap : Nat → Bool) :
    ({ s.setData block .zero with bitmap := bitmap } : BlockState).refs = s.refs :=
  refs_setData fun i _ => exact.ne_of_unused isIn unused (.addr i indirectSlot)

theorem word_zero (ix : Nat) : Block.word .zero ix = 0 := by
  have zeros : ∀ count, littleEndian ((List.range count).map fun offset =>
      Buffer.byte (Block.zero : Block) (4 * ix + offset)) = 0 := by
    intro count
    have isZero : ∀ offset, Buffer.byte (Block.zero : Block) (4 * ix + offset) = 0 := by
      intro offset
      rw [Buffer.byte]
      split <;> rfl
    simp only [isZero]
    rw [map_const']
    induction (range count).length with
    | zero => rfl
    | succ count ih =>
      rw [replicate_succ, littleEndian, ih]
      rfl
  exact zeros 4

theorem addrAt_spec (exact : s.Exact sb)
    (live : (s.inode ip).type ≠ .free) : Safe (fun out => out.2.Exact sb ∧
    Extends s out.2 ∧ out.2.refs (.addr ip slot) = out.1 ∧ out.1 ≠ 0) (s.addrAt sb ip slot) := by
  rw [addrAt]
  split
  · next empty =>
    apply (balloc_spec sb s).bind
    rintro _ ⟨block, isIn, unused, rfl⟩
    have none : s.refs (.addr ip slot) = 0 := by rw [refs_addr live, empty]
    let taken : BlockState :=
      { s.setData block .zero with bitmap := update s.bitmap block true }
    have same : taken.refs = s.refs := exact.refs_taken isIn unused _
    have refs : (taken.setAddr ip slot block).refs = update s.refs (.addr ip slot) block := by
      have liveTaken : (taken.inode ip).type ≠ .free := live
      rw [← same]
      apply refs_setAddr liveTaken
      intro isIndirect
      refine ⟨isIndirect ▸ empty, ?_⟩
      intro ix _
      have zeroed : taken.data block = .zero := update_self _ _ _
      rw [zeroed, word_zero]
    have pos : block ≠ 0 := by
      have reserved := exact.reserved_le_of_unused isIn unused
      have first := exact.positive
      omega
    refine ⟨?_, ?_, ?_, pos⟩
    · change Allocated _ _ (taken.setAddr ip slot block).refs _
      rw [refs]
      exact exact.take isIn unused none
    · exact Extends.of_take (fun i => type_setAddr i) (fun i => size_setAddr i) refs none
    · change (taken.setAddr ip slot block).refs _ = _
      rw [refs, update_self]
  · next has => exact ⟨exact, .refl s, refs_addr live, has⟩

theorem entryAt_spec {indirect ix : Nat} (small : sb.size ≤ 2 ^ 32)
    (exact : s.Exact sb) (live : (s.inode ip).type ≠ .free)
    (isIndirect : s.refs (.addr ip indirectSlot) = indirect) (has : indirect ≠ 0)
    (isIn : ix < nIndirect) : Safe (fun out => out.2.Exact sb ∧ Extends s out.2 ∧
    out.2.refs (.entry ip ix) = out.1 ∧ out.1 ≠ 0) (s.entryAt sb indirect ix) := by
  have addr : (s.inode ip).addrs indirectSlot = indirect := by rw [← isIndirect, refs_addr live]
  have here : s.refs (.entry ip ix) = (s.data indirect).word ix := by
    have open_ : ¬((s.inode ip).type = .free ∨
        (s.inode ip).addrs indirectSlot = 0 ∨ nIndirect ≤ ix) := by
      rw [addr]
      rintro (isFree | isZero | outside)
      · exact live isFree
      · exact has isZero
      · omega
    rw [refs, if_neg open_, addr]
  rw [entryAt]
  split
  · next empty =>
    apply (balloc_spec sb s).bind
    rintro _ ⟨block, below, unused, rfl⟩
    let taken : BlockState :=
      { s.setData block .zero with bitmap := update s.bitmap block true }
    have same : taken.refs = s.refs := exact.refs_taken below unused _
    have refs : (taken.setData indirect ((taken.data indirect).setWord ix block)).refs =
        update s.refs (.entry ip ix) block := by
      have liveTaken : (taken.inode ip).type ≠ .free := live
      rw [← same]
      apply refs_setWord liveTaken addr has isIn (by omega)
      intro i o eq
      rw [same] at eq
      have unique := exact.once (.addr ip indirectSlot) (.addr i indirectSlot)
        (by rw [isIndirect]; exact has) (by rw [isIndirect, eq])
      cases unique
      exact o rfl
    have pos : block ≠ 0 := by
      have reserved := exact.reserved_le_of_unused below unused
      have first := exact.positive
      omega
    refine ⟨?_, ?_, ?_, pos⟩
    · change Allocated _ _ (taken.setData indirect ((taken.data indirect).setWord ix block)).refs _
      rw [refs]
      exact exact.take below unused (here.trans empty)
    · exact Extends.of_take (fun _ => rfl) (fun _ => rfl) refs (here.trans empty)
    · change (taken.setData indirect ((taken.data indirect).setWord ix block)).refs _ = _
      rw [refs, update_self]
  · next some => exact ⟨exact, .refl s, here, some⟩

theorem bmap_spec {bn : Nat} (small : sb.size ≤ 2 ^ 32)
    (exact : s.Exact sb) (live : (s.inode ip).type ≠ .free) : Safe (fun out => out.2.Exact sb ∧
    Extends s out.2 ∧ out.2.refs (.leaf ip bn) = out.1 ∧ out.1 ≠ 0) (s.bmap sb ip bn) := by
  rw [bmap, BlockPlace.leaf]
  split
  · exact addrAt_spec exact live
  split
  · next isIn =>
    apply (addrAt_spec exact live).bind
    rintro ⟨ind, mid⟩ ⟨exactMid, grown, isInd, has⟩
    have liveMid : (mid.inode ip).type ≠ .free := by rwa [grown.type]
    apply (entryAt_spec small exactMid liveMid isInd has isIn).mono
    rintro out ⟨exactAfter, grownAfter, isEntry, ne⟩
    exact ⟨exactAfter, grown.trans grownAfter, isEntry, ne⟩
  · rintro ⟨⟩

theorem Exact.refs_setData_leaf (exact : s.Exact sb) {bn block : Nat} (isLeaf :
    s.refs (.leaf ip bn) = block) (content : Block) : (s.setData block content).refs = s.refs := by
  apply refs_setData
  intro i ne0 eq
  have unique := exact.once (.addr i indirectSlot) (.leaf ip bn) ne0 (eq.trans isLeaf.symm)
  exact BlockPlace.leaf_ne_indirect unique.symm

theorem Exact.setData_leaf (exact : s.Exact sb) {bn block : Nat}
    (isLeaf : s.refs (.leaf ip bn) = block) (content : Block) :
    (s.setData block content).Exact sb ∧ Extends s (s.setData block content) := by
  have same := exact.refs_setData_leaf isLeaf content
  refine ⟨?_, fun _ => rfl, fun _ => rfl, fun _ _ => by rw [same]⟩
  rwa [Exact, same]

end BlockState

end Xv6
