import Mathlib.Data.List.FinRange
import Xv6.Blocks.Ownership

/-! # Files keep their blocks

The operations on files keep the bit map exact and leave no holes in files. -/

namespace Xv6

open Foundation Function BlockOp BlockPlace List

/-- Every block of an allocated file below its size has an address. -/
def BlockState.NoHoles (s : BlockState) : Prop :=
  ∀ i, (s.inode i).type ≠ .free → ∀ bn, bn * bSize < (s.inode i).size →
    s.refs (.leaf i bn) ≠ 0

namespace BlockState

variable {sb : Superblock} {s after : BlockState} {ip : Nat}

theorem NoHoles.extends (noHoles : s.NoHoles) (grown : Extends s after) : after.NoHoles := by
  intro i live bn below
  rw [grown.type] at live
  rw [grown.size] at below
  have has := noHoles i live bn below
  rwa [grown.refs _ has]

/-! ## Writing -/

variable {fuel off left : Nat}

theorem writeLoop_spec {copyin : (tot m : Nat) → Copy} (small : sb.size ≤ 2 ^ 32)
    {tot : Nat} (exact : s.Exact sb) (live : (s.inode ip).type ≠ .free) :
    Safe (fun out => out.2.2.Exact sb ∧ Extends s out.2.2 ∧
      ∀ bn, off / bSize ≤ bn → bn * bSize < out.1 → off < out.1 → out.2.2.refs (.leaf ip bn) ≠ 0)
      (writeLoop sb ip copyin fuel off tot left s) := by
  induction fuel generalizing off tot left s with
  | zero => exact ⟨exact, .refl s, fun _ _ _ forward => absurd forward (lt_irrefl off)⟩
  | succ fuel ih =>
    rw [writeLoop]
    split
    · exact ⟨exact, .refl s, fun _ _ _ forward => absurd forward (lt_irrefl off)⟩
    apply (bmap_spec small exact live).bind
    intro out h
    rcases out with ⟨block, mapped⟩
    rcases h with ⟨exactMapped, grown, isLeaf, has⟩
    dsimp only at exactMapped grown isLeaf has ⊢
    generalize (mapped.data block).patch _ _ = content
    rcases exactMapped.setData_leaf isLeaf content with ⟨exactWrote, wrote⟩
    have total := grown.trans wrote
    split
    · have liveWrote : ((mapped.setData block content).inode ip).type ≠ .free := by rwa [total.type]
      apply (ih exactWrote liveWrote).mono
      rintro out ⟨exactLast, rest, cover⟩
      refine ⟨exactLast, total.trans rest, ?_⟩
      intro bn from_ below forward
      by_cases fst : bn = off / bSize
      · have here : (mapped.setData block content).refs (.leaf ip bn) ≠ 0 := by
          rwa [fst, wrote.refs _ (isLeaf ▸ has), isLeaf]
        rwa [rest.refs _ here]
      -- The next turn starts in a later block.
      rw [bSize_eq] at from_ below fst
      have progress : off + min left (1024 - off % 1024) ≤ (off / 1024 + 1) * 1024 := by omega
      apply cover bn
      · rw [bSize_eq]
        omega
      · rwa [bSize_eq]
      · rw [bSize_eq]
        omega
    · exact ⟨exactWrote, total, fun _ _ _ forward => absurd forward (lt_irrefl off)⟩

variable {fields : InodeFields}

theorem refs_setInode (type : fields.type = (s.inode ip).type)
    (addrs : fields.addrs = (s.inode ip).addrs) : (s.setInode ip fields).refs = s.refs := by
  have same : ∀ i, ((s.setInode ip fields).inode i).type = (s.inode i).type ∧
      ((s.setInode ip fields).inode i).addrs = (s.inode i).addrs := by
    intro i
    by_cases here : i = ip
    · rw [here, setInode]
      dsimp only
      rw [update_self]
      exact ⟨type, addrs⟩
    · rw [setInode]
      dsimp only
      rw [update_of_ne here]
      exact ⟨rfl, rfl⟩
  funext place
  cases place with
  | addr i slot => simp only [refs, (same i).1, (same i).2]
  | entry i ix =>
    simp only [refs, (same i).1, (same i).2]
    rfl

theorem inode_setInode_self : (s.setInode ip fields).inode ip = fields := update_self _ _ _

theorem inode_setInode_of_ne {i : Nat} (o : i ≠ ip) : (s.setInode ip fields).inode i = s.inode i :=
  update_of_ne o _ _

/-- What an operation keeps. -/
def Keeps (sb : Superblock) (s after : BlockState) : Prop :=
  after.Exact sb ∧ (s.NoHoles → after.NoHoles)

theorem Keeps.of_extends (exact : after.Exact sb) (grown : Extends s after) : Keeps sb s after :=
  ⟨exact, fun noHoles => noHoles.extends grown⟩

theorem writei_spec {off n : BitVec 32} {copyin : (tot m : Nat) → Copy}
    (small : sb.size ≤ 2 ^ 32) (exact : s.Exact sb) (live : (s.inode ip).type ≠ .free) :
    Safe (fun out => Keeps sb s out.2) (s.writei sb ip off n copyin) := by
  rw [writei]
  split
  · next wrb =>
    have start : off.toNat ≤ (s.inode ip).size := by
      have isIn := (not_or.mp wrb.1).1
      omega
    apply (writeLoop_spec small exact live).bind
    intro out h
    rcases out with ⟨reached, tot, wrote⟩
    rcases h with ⟨exactWrote, grown, covered⟩
    dsimp only at exactWrote grown covered ⊢
    split
    · next grows =>
      let last := wrote.setInode ip { wrote.inode ip with size := reached }
      have same : last.refs = wrote.refs := refs_setInode rfl rfl
      refine ⟨?_, ?_⟩
      · change Allocated _ _ last.refs _
        rwa [same]
      intro noHoles i liveLast bn below
      change last.refs _ ≠ 0
      rw [same]
      have kept := noHoles.extends grown
      by_cases here : i = ip
      · subst here
        have size : (last.inode i).size = reached := congrArg InodeFields.size inode_setInode_self
        change bn * bSize < (last.inode i).size at below
        rw [size] at below
        by_cases old : bn * bSize < (wrote.inode i).size
        · have liveWrote : (wrote.inode i).type ≠ .free := by rwa [grown.type]
          exact kept i liveWrote bn old
        rw [grown.size] at old grows
        rw [bSize_eq] at old below covered
        apply covered bn
        · omega
        · exact below
        · omega
      · have sameInode : last.inode i = wrote.inode i := inode_setInode_of_ne here
        change (last.inode i).type ≠ .free at liveLast
        change bn * bSize < (last.inode i).size at below
        rw [sameInode] at liveLast below
        exact kept i liveLast bn below
    · exact .of_extends exactWrote grown
  · exact .of_extends exact (.refl s)

/-! ## Reading -/

theorem readLoop_spec {copyout : (tot m : Nat) → Bool} (small : sb.size ≤ 2 ^ 32)
    {bytes : List UInt8} (exact : s.Exact sb) (live : (s.inode ip).type ≠ .free) :
    Safe (fun out => out.2.Exact sb ∧ Extends s out.2)
    (readLoop sb ip copyout fuel off left bytes s) := by
  induction fuel generalizing off left bytes s with
  | zero => exact ⟨exact, .refl s⟩
  | succ fuel ih =>
    rw [readLoop]
    split
    · exact ⟨exact, .refl s⟩
    apply (bmap_spec small exact live).bind
    intro out h
    rcases out with ⟨block, mapped⟩
    rcases h with ⟨exactMapped, grown, _, _⟩
    dsimp only at exactMapped grown ⊢
    split
    · have liveMapped : (mapped.inode ip).type ≠ .free := by rwa [grown.type]
      apply (ih exactMapped liveMapped).mono
      intro out h
      exact ⟨h.1, grown.trans h.2⟩
    · exact ⟨exactMapped, grown⟩

theorem bmap_of_present {bn : Nat} (live : (s.inode ip).type ≠ .free)
    (has : s.refs (.leaf ip bn) ≠ 0) : s.bmap sb ip bn = .ok (s.refs (.leaf ip bn), s) := by
  rw [leaf] at has ⊢
  rw [bmap]
  split
  · next direct =>
    rw [dif_pos direct, refs_addr live] at has
    rw [refs_addr live, addrAt, if_neg has]
  next notDirect =>
  rw [dif_neg notDirect, refs] at has
  rw [refs]
  split at has
  · exact absurd rfl has
  next open_ =>
  rw [if_neg open_]
  rw [not_or, not_or] at open_
  rw [if_pos (by omega), addrAt, if_neg open_.2.1]
  change entryAt _ _ _ _ = _
  rw [entryAt, if_neg has]

theorem readLoop_of_mapped {copyout : (tot m : Nat) → Bool}
    {bytes : List UInt8} (live : (s.inode ip).type ≠ .free)
    (mapped : ∀ bn, bn * bSize < off + left → s.refs (.leaf ip bn) ≠ 0) :
    ∃ read, readLoop sb ip copyout fuel off left bytes s = .ok (read, s) := by
  induction fuel generalizing off left bytes with
  | zero => exact ⟨some bytes, rfl⟩
  | succ fuel ih =>
    rw [readLoop]
    split
    · exact ⟨some bytes, rfl⟩
    have has : s.refs (.leaf ip (off / bSize)) ≠ 0 := by
      apply mapped
      rw [bSize_eq]
      omega
    rw [bmap_of_present live has]
    dsimp only [bind, Except.bind]
    split
    · apply ih
      intro bn below
      apply mapped
      omega
    · exact ⟨none, rfl⟩

theorem readRange_le {off n : BitVec 32} (some : fields.readRange off n ≠ 0) :
    off.toNat + fields.readRange off n ≤ fields.size := by
  rw [InodeFields.readRange] at some ⊢
  split
  · next outside =>
    rw [if_pos outside] at some
    exact absurd rfl some
  next isIn =>
  rw [not_or] at isIn
  split
  · omega
  have sum := BitVec.toNat_add off n
  have ordered : ¬ (off + n).toNat < off.toNat := isIn.2
  have boundOff := off.isLt
  have boundN := n.isLt
  omega

theorem NoHoles.readi (noHoles : s.NoHoles) (live : (s.inode ip).type ≠ .free) (off n : BitVec 32)
    (copyout : (tot m : Nat) → Bool) : ∃ read, s.readi sb ip off n copyout = .ok (read, s) := by
  by_cases none : (s.inode ip).readRange off n = 0
  · rw [BlockState.readi, none]
    exact ⟨some [], rfl⟩
  apply readLoop_of_mapped live
  intro bn below
  apply noHoles ip live bn
  have isIn := readRange_le none
  omega

/-! ## Truncating -/

theorem bfree_of_used {block : Nat} (used : s.bitmap block = true) : s.bfree block =
      .ok { s with bitmap := update s.bitmap block false } := if_pos used

/-- What truncating an inode leaves alone. -/
structure Truncates (ip : Nat) (s after : BlockState) : Prop where
  data : after.data = s.data
  others : ∀ i, i ≠ ip → after.inode i = s.inode i
  type : (after.inode ip).type = (s.inode ip).type
  size : (after.inode ip).size = (s.inode ip).size

theorem Truncates.refl (ip : Nat) (s : BlockState) : Truncates ip s s :=
  ⟨rfl, fun _ _ => rfl, rfl, rfl⟩

theorem Truncates.trans {fst snd third : BlockState} (left : Truncates ip fst snd)
    (right : Truncates ip snd third) : Truncates ip fst third where
  data := right.data.trans left.data
  others i o := (right.others i o).trans (left.others i o)
  type := right.type.trans left.type
  size := right.size.trans left.size

variable {slot : Fin (nDirect + 1)}

theorem Truncates.setAddr {block : Nat} {bitmap : Nat → Bool} :
    Truncates ip s (({ s with bitmap := bitmap } : BlockState).setAddr ip slot block) where
  data := rfl
  others _ o := inode_setAddr_of_ne o
  type := type_setAddr ip
  size := size_setAddr ip

theorem truncDirect_spec {slots : List (Fin (nDirect + 1))} (exact : s.Exact sb)
    (live : (s.inode ip).type ≠ .free) (direct : ∀ slot ∈ slots, slot ≠ indirectSlot) :
    Safe (fun after => after.Exact sb ∧ Truncates ip s after ∧
      (∀ slot ∈ slots, (after.inode ip).addrs slot = 0) ∧
      ∀ slot, (s.inode ip).addrs slot = 0 → (after.inode ip).addrs slot = 0)
      (truncDirect ip slots s) := by
  induction slots generalizing s with
  | nil => exact ⟨exact, .refl ip s, by simp, fun _ zero => zero⟩
  | cons slot rest ih =>
    have directRest : ∀ slot ∈ rest, slot ≠ indirectSlot :=
      fun o mem => direct o (mem_cons_of_mem _ mem)
    rw [truncDirect]
    split
    · next zero =>
      apply (ih exact live directRest).mono
      intro after h
      rcases h with ⟨exactAfter, truncates, zeros, keeps⟩
      refine ⟨exactAfter, truncates, ?_, keeps⟩
      intro o mem
      rcases mem_cons.mp mem with here | inRest
      · rw [here]
        exact keeps slot zero
      · exact zeros o inRest
    · next has =>
      have isRef : s.refs (.addr ip slot) = (s.inode ip).addrs slot := refs_addr live
      have used := exact.used_of_ref (isRef ▸ has)
      rw [isRef] at used
      rw [bfree_of_used used]
      change Safe _ (truncDirect ip rest _)
      let freed : BlockState :=
        { s with
          bitmap := update s.bitmap ((s.inode ip).addrs slot) false }
      have refs : (freed.setAddr ip slot 0).refs = update s.refs (.addr ip slot) 0 := by
        have liveFreed : (freed.inode ip).type ≠ .free := live
        apply refs_setAddr liveFreed
        intro isIndirect
        exact absurd isIndirect (direct slot (by simp))
      have exactFreed : (freed.setAddr ip slot 0).Exact sb := by
        have released := exact.release (isRef ▸ has)
        rw [isRef] at released
        rwa [Exact, refs]
      have liveFreed : ((freed.setAddr ip slot 0).inode ip).type ≠ .free := by rwa [type_setAddr]
      apply (ih exactFreed liveFreed directRest).mono
      rintro after ⟨exactAfter, truncates, zeros, keeps⟩
      have cleared : ((freed.setAddr ip slot 0).inode ip).addrs slot = 0 := by
        rw [inode_setAddr_self]
        exact update_self _ _ _
      refine ⟨exactAfter, Truncates.setAddr.trans truncates, ?_, ?_⟩
      · intro o mem
        rcases mem_cons.mp mem with here | inRest
        · rw [here]
          exact keeps slot cleared
        · exact zeros o inRest
      · intro o zero
        apply keeps
        by_cases here : o = slot
        · rwa [here]
        rw [inode_setAddr_self]
        dsimp only
        rwa [update_of_ne here]

/-- Places without those of some entries of one inode. -/
def without (refs : BlockPlace → Nat) (ip : Nat) (indexes : List Nat) (place : BlockPlace) :
    Nat :=
  match place with
  | .addr inum slot => refs (.addr inum slot)
  | .entry inum index => if inum = ip ∧ index ∈ indexes then 0 else refs (.entry inum index)

theorem truncEntries_spec {refs : BlockPlace → Nat} {ind : Nat} {indexes : List Nat}
    (alive : Allocated sb.nmeta sb.size refs s.bitmap) (nodup : indexes.Nodup)
    (entries : ∀ ix ∈ indexes, refs (.entry ip ix) = (s.data ind).word ix) :
    Safe (fun after => after.data = s.data ∧ after.inode = s.inode ∧
      Allocated sb.nmeta sb.size (without refs ip indexes) after.bitmap)
      (truncEntries ind indexes s) := by
  induction indexes generalizing refs s with
  | nil =>
    have same : without refs ip [] = refs := by
      funext place
      cases place with
      | addr inum slot => rfl
      | entry inum ix => simp [without]
    rw [truncEntries, Safe, same]
    exact ⟨rfl, rfl, alive⟩
  | cons ix rest ih =>
    have here := entries ix (by simp)
    have notLater := (nodup_cons.mp nodup).1
    rw [truncEntries]
    split
    · next zero =>
      have same : without refs ip (ix :: rest) = without refs ip rest := by
        funext place
        cases place with
        | addr inum slot => rfl
        | entry inum o =>
          rw [without, without]
          by_cases isHere : inum = ip ∧ o = ix
          · rw [isHere.1, isHere.2, if_pos ⟨rfl, by simp⟩, if_neg (by simp [notLater]), here, zero]
          have same : (inum = ip ∧ o ∈ ix :: rest) ↔ (inum = ip ∧ o ∈ rest) := by
            simp only [mem_cons]
            grind
          simp only [same]
      rw [same]
      exact ih alive (nodup_cons.mp nodup).2 fun o mem => entries o (mem_cons_of_mem _ mem)
    · next has =>
      rw [← here] at has ⊢
      rw [bfree_of_used (alive.used_of_ref has)]
      change Safe _ (truncEntries ind rest _)
      have same : without refs ip (ix :: rest) =
          without (update refs (.entry ip ix) 0) ip rest := by
        funext place
        cases place with
        | addr inum slot =>
          rw [without, without, update_of_ne entry_ne_addr.symm]
        | entry inum o =>
          rw [without, without]
          by_cases isHere : inum = ip ∧ o = ix
          · rw [isHere.1, isHere.2, if_pos ⟨rfl, by simp⟩, if_neg (by simp [notLater]), update_self]
          have same : (inum = ip ∧ o ∈ ix :: rest) ↔ (inum = ip ∧ o ∈ rest) := by
            simp only [mem_cons]
            grind
          simp only [same]
          rw [update_of_ne]
          intro eq
          cases eq
          exact isHere ⟨rfl, rfl⟩
      rw [same]
      have released := alive.release has
      apply (ih released (nodup_cons.mp nodup).2 ?_).mono
      · intro after h
        exact h
      intro o mem
      have ne : o ≠ ix := by
        intro eq
        exact notLater (eq ▸ mem)
      rw [update_of_ne (by intro eq; cases eq; exact ne rfl)]
      exact entries o (mem_cons_of_mem _ mem)

theorem truncIndirect_spec (exact : s.Exact sb) (live : (s.inode ip).type ≠ .free) :
    Safe (fun after => after.Exact sb ∧ Truncates ip s after ∧
      (after.inode ip).addrs indirectSlot = 0 ∧
      ∀ slot, (s.inode ip).addrs slot = 0 → (after.inode ip).addrs slot = 0)
      (s.truncIndirect ip) := by
  rw [truncIndirect]
  split
  · next zero => exact ⟨exact, .refl ip s, zero, fun _ zero => zero⟩
  next has =>
  have entries : ∀ ix ∈ range nIndirect, s.refs (.entry ip ix) =
      (s.data ((s.inode ip).addrs indirectSlot)).word ix := by
    intro ix mem
    have isIn := mem_range.mp mem
    rw [refs, if_neg]
    rintro (isFree | isZero | outside)
    · exact live isFree
    · exact has isZero
    · omega
  apply (truncEntries_spec exact nodup_range entries).bind
  rintro emptied ⟨data, inode, alive⟩
  have isRef : without s.refs ip (range nIndirect) (.addr ip indirectSlot) =
    (s.inode ip).addrs indirectSlot := refs_addr live
  have used := alive.used_of_ref (isRef ▸ has)
  rw [isRef] at used
  rw [bfree_of_used used]
  let freed : BlockState :=
    { emptied with
      bitmap := update emptied.bitmap ((s.inode ip).addrs indirectSlot) false }
  change Safe _ (Except.ok (freed.setAddr ip indirectSlot 0))
  have cleared : ((freed.setAddr ip indirectSlot 0).inode ip).addrs indirectSlot = 0 := by
    rw [inode_setAddr_self]
    dsimp only
    rw [update_self]
  have others : ∀ i, i ≠ ip → (freed.setAddr ip indirectSlot 0).inode i = s.inode i := by
    intro i o
    rw [inode_setAddr_of_ne o]
    exact congrFun inode i
  have kept : ∀ slot, slot ≠ indirectSlot →
      ((freed.setAddr ip indirectSlot 0).inode ip).addrs slot = (s.inode ip).addrs slot := by
    intro slot o
    rw [inode_setAddr_self]
    dsimp only
    rw [update_of_ne o]
    exact congrArg (fun inodes : Nat → InodeFields => (inodes ip).addrs slot) inode
  have liveFreed : ((freed.setAddr ip indirectSlot 0).inode ip).type ≠ .free := by
    rw [type_setAddr]
    change (emptied.inode ip).type ≠ .free
    rwa [inode]
  have refs : (freed.setAddr ip indirectSlot 0).refs = update
      (without s.refs ip (range nIndirect)) (.addr ip indirectSlot) 0 := by
    funext place
    cases place with
    | addr i slot =>
      by_cases same : i = ip
      · subst same
        rw [refs_addr liveFreed]
        by_cases here : slot = indirectSlot
        · rw [here, update_self, cleared]
        rw [update_of_ne, without, refs_addr live, kept slot here]
        intro eq
        cases eq
        exact here rfl
      · rw [update_of_ne, without, BlockState.refs, BlockState.refs, others i same]
        intro eq
        cases eq
        exact same rfl
    | entry i ix =>
      rw [update_of_ne entry_ne_addr, without]
      by_cases same : i = ip
      · subst same
        have gone : (freed.setAddr i indirectSlot 0).refs (.entry i ix) = 0 :=
          if_pos (.inr (.inl cleared))
        rw [gone]
        split
        · rfl
        next outside =>
        have beyond : nIndirect ≤ ix := by
          by_contra isIn
          exact outside ⟨rfl, mem_range.mpr (by omega)⟩
        exact (if_pos (.inr (.inr beyond))).symm
      · rw [if_neg fun both => same both.1, BlockState.refs, BlockState.refs, others i same]
        have sameData : (freed.setAddr ip indirectSlot 0).data = s.data := data
        rw [sameData]
  refine ⟨?_, ?_, cleared, ?_⟩
  · have released := alive.release (isRef ▸ has)
    rw [isRef] at released
    rwa [Exact, refs]
  · refine ⟨data, others, ?_, ?_⟩
    · rw [type_setAddr]
      exact congrArg (fun inodes : Nat → InodeFields => (inodes ip).type) inode
    · rw [size_setAddr]
      exact congrArg (fun inodes : Nat → InodeFields => (inodes ip).size) inode
  · intro slot zero
    by_cases here : slot = indirectSlot
    · rwa [here]
    · rwa [kept slot here]

theorem mem_directSlots (direct : slot ≠ indirectSlot) : slot ∈ directSlots := by
  have below : slot.val < nDirect := by
    have bound := slot.isLt
    have ne : slot.val ≠ nDirect := fun same => direct (Fin.ext same)
    omega
  exact mem_map.mpr ⟨⟨slot.val, below⟩, mem_finRange _, rfl⟩

theorem directSlots_ne (mem : slot ∈ directSlots) : slot ≠ indirectSlot := by
  rcases mem_map.mp mem with ⟨ix, _, eq⟩
  intro isInd
  have v := congrArg Fin.val (eq.trans isInd)
  have bound := ix.isLt
  simp only [Fin.val_castSucc, indirectSlot, Fin.val_last] at v
  omega

theorem itrunc_spec (exact : s.Exact sb) (live : (s.inode ip).type ≠ .free) :
    Safe (fun after => after.Exact sb ∧ after.data = s.data ∧
      (∀ i, i ≠ ip → after.inode i = s.inode i) ∧
      (after.inode ip).type = (s.inode ip).type ∧ (after.inode ip).size = 0 ∧
      ∀ slot, (after.inode ip).addrs slot = 0) (s.itrunc ip) := by
  apply (truncDirect_spec exact live fun _ => directSlots_ne).bind
  intro first h
  rcases h with ⟨exactFirst, truncated, zeros, _⟩
  have liveFirst : (first.inode ip).type ≠ .free := by rwa [truncated.type]
  apply (truncIndirect_spec exactFirst liveFirst).bind
  rintro second ⟨exactSecond, rest, zero, keeps⟩
  have total := truncated.trans rest
  let last := second.setInode ip { second.inode ip with size := 0 }
  have here : last.inode ip = { second.inode ip with size := 0 } := inode_setInode_self
  have same : last.refs = second.refs := refs_setInode rfl rfl
  change Safe _ (Except.ok last)
  refine ⟨?_, total.data, ?_, ?_, ?_, ?_⟩
  · rwa [Exact, same]
  · intro i o
    rw [← total.others i o]
    exact inode_setInode_of_ne o
  · rw [here]
    exact total.type
  · rw [here]
  intro slot
  rw [here]
  by_cases isIndirect : slot = indirectSlot
  · rwa [isIndirect]
  · exact keeps slot (zeros slot (mem_directSlots isIndirect))

theorem refs_of_same {i : Nat} (inode : after.inode i = s.inode i)
    (data : after.data = s.data) (bn : Nat) : after.refs (.leaf i bn) = s.refs (.leaf i bn) := by
  rw [leaf]
  split
  · rw [refs, refs, inode]
  · rw [refs, refs, inode, data]

theorem Keeps.of_emptied (ip : Nat) (exact : after.Exact sb) (data : after.data = s.data)
    (others : ∀ i, i ≠ ip → after.inode i = s.inode i)
    (empty : (after.inode ip).size = 0) : Keeps sb s after := by
  refine ⟨exact, ?_⟩
  intro noHoles i live bn below
  by_cases here : i = ip
  · rw [here, empty] at below
    omega
  rw [others i here] at live below
  rw [refs_of_same (others i here) data]
  exact noHoles i live bn below

theorem refs_setInode_empty (old : (s.inode ip).type = .free ∨ ∀ slot, (s.inode ip).addrs slot = 0)
    (empty : fields.type = .free ∨ ∀ slot, fields.addrs slot = 0) :
    (s.setInode ip fields).refs = s.refs := by
  have none : ∀ (any : BlockState), ((any.inode ip).type = .free ∨
      ∀ slot, (any.inode ip).addrs slot = 0) →
      (∀ slot, any.refs (.addr ip slot) = 0) ∧ ∀ ix, any.refs (.entry ip ix) = 0 := by
    intro any cases
    rcases cases with isFree | zeros
    · exact ⟨fun _ => if_pos isFree, fun _ => if_pos (.inl isFree)⟩
    constructor
    · intro slot
      rw [refs]
      split
      · rfl
      · exact zeros slot
    · intro ix
      exact if_pos (.inr (.inl (zeros indirectSlot)))
  have zeroBefore := none s old
  have zeroAfter := none (s.setInode ip fields) (by rw [inode_setInode_self]; exact empty)
  funext place
  cases place with
  | addr i slot =>
    by_cases here : i = ip
    · rw [here, zeroBefore.1, zeroAfter.1]
    · rw [refs, refs, inode_setInode_of_ne here]
  | entry i ix =>
    by_cases here : i = ip
    · rw [here, zeroBefore.2, zeroAfter.2]
    · rw [refs, refs, inode_setInode_of_ne here]
      rfl

theorem ifree_spec (exact : s.Exact sb) (live : (s.inode ip).type ≠ .free) :
    Safe (Keeps sb s) (s.ifree ip) := by
  apply (itrunc_spec exact live).bind
  rintro emptied ⟨exactEmptied, data, others, _, size, zeros⟩
  let last := emptied.setInode ip { emptied.inode ip with type := .free }
  have same : last.refs = emptied.refs := refs_setInode_empty (.inr zeros) (.inl rfl)
  have here : last.inode ip = { emptied.inode ip with type := .free } := inode_setInode_self
  change Safe _ (Except.ok last)
  refine Keeps.of_emptied ip ?_ data ?_ ?_
  · rwa [Exact, same]
  · intro i o
    rw [← others i o]
    exact inode_setInode_of_ne o
  · rwa [here]

theorem ialloc_spec {type : InodeType} (exact : s.Exact sb) :
    Safe (fun out => Keeps sb s out.2) (s.ialloc sb type) := by
  rw [ialloc]
  split
  · rintro ⟨⟩
  next ip hit =>
  have isFree : (s.inode ip).type = .free := by
    have h := find?_some hit
    simpa using h
  let last := s.setInode ip (.blank type)
  have same : last.refs = s.refs := refs_setInode_empty (.inl isFree) (.inr fun _ => rfl)
  refine Keeps.of_emptied ip ?_ rfl ?_ ?_
  · rw [Exact]
    change Allocated _ _ last.refs _
    rwa [same]
  · intro i o
    exact inode_setInode_of_ne o
  · exact congrArg InodeFields.size inode_setInode_self

theorem assign_spec (s : BlockState) (ip : Nat) (major minor nlink : BitVec 16) : (s.setInode ip
      { s.inode ip with major := major, minor := minor, nlink := nlink }).refs = s.refs ∧
    Extends s (s.setInode ip
      { s.inode ip with major := major, minor := minor, nlink := nlink }) := by
  have same : (s.setInode ip
    { s.inode ip with major := major, minor := minor, nlink := nlink }).refs =
      s.refs := refs_setInode rfl rfl
  refine ⟨same, ?_, ?_, fun _ _ => by rw [same]⟩
  · intro i
    by_cases here : i = ip
    · rw [here, inode_setInode_self]
    · rw [inode_setInode_of_ne here]
  · intro i
    by_cases here : i = ip
    · rw [here, inode_setInode_self]
    · rw [inode_setInode_of_ne here]

end BlockState

/-! ## Sequences of operations -/

section

open BlockState

variable {sb : Superblock} {s after : BlockState}

theorem BlockOp.run_spec (small : sb.size ≤ 2 ^ 32) (exact : s.Exact sb) (op : BlockOp) :
    Safe (Keeps sb s) (op.run sb s) := by
  have onLk : ∀ {ip : Nat} {run : Except BlockPanic BlockState},
      ((s.inode ip).type ≠ .free → Safe (Keeps sb s) run) →
      Safe (Keeps sb s) (locked ip s run) := by
    intro ip run safe
    rw [locked]
    split
    · rintro ⟨⟩
    · next live => exact safe live
  cases op with
  | writei ip off n copyin =>
    exact onLk fun live => Safe.map (writei_spec small exact live)
  | readi ip off n copyout =>
    apply onLk
    intro live
    apply Safe.map
    apply (readLoop_spec small exact live).mono
    intro out h
    exact .of_extends h.1 h.2
  | itrunc ip =>
    apply onLk
    intro live
    apply (itrunc_spec exact live).mono
    intro emptied h
    exact .of_emptied ip h.1 h.2.1 h.2.2.1 h.2.2.2.2.1
  | ifree ip => exact onLk fun live => ifree_spec exact live
  | ialloc type => exact Safe.map (ialloc_spec exact)
  | assign ip major minor nlink =>
    apply onLk
    intro live
    rcases assign_spec s ip major minor nlink with ⟨same, grown⟩
    refine .of_extends ?_ grown
    change Allocated _ _ (BlockState.refs _) _
    rwa [same]

theorem BlockOp.runAll_spec (small : sb.size ≤ 2 ^ 32) (exact : s.Exact sb)
    (ops : List BlockOp) : Safe (Keeps sb s) (runAll sb ops s) := by
  induction ops generalizing s with
  | nil => exact ⟨exact, fun noHoles => noHoles⟩
  | cons op rest ih =>
    apply (op.run_spec small exact).bind
    intro mid kept
    apply (ih kept.1).mono
    intro after keptRest
    exact ⟨keptRest.1, fun noHoles => keptRest.2 (kept.2 noHoles)⟩

theorem BlockOp.runAll_keeps (small : sb.size ≤ 2 ^ 32) (exact : s.Exact sb)
    {ops : List BlockOp} (ran : runAll sb ops s = .ok after) : Keeps sb s after := by
  have safe := runAll_spec small exact ops
  rwa [ran] at safe

/-- Whatever is done to files, no block is in two places, the bit map is exact, and no
free block is freed. -/
theorem blocks_have_one_owner (small : sb.size ≤ 2 ^ 32) (exact : s.Exact sb) (ops : List BlockOp) :
    BlockOp.runAll sb ops s ≠ .error .bfree ∧ ∀ after, BlockOp.runAll sb ops s = .ok after →
      (∀ place other, after.refs place ≠ 0 → after.refs place = after.refs other → place = other) ∧
      ∀ block, block < sb.size →
        (after.bitmap block = true ↔ block < sb.nmeta ∨ ∃ place, after.refs place = block) := by
  constructor
  · intro failed
    have safe := BlockOp.runAll_spec small exact ops
    rw [failed] at safe
    exact safe rfl
  · intro after ran
    have kept := BlockOp.runAll_keeps small exact ran
    exact ⟨kept.1.once, kept.1.used_iff⟩

/-- Reading never allocates: `bmap` finds every block below the size of a file, and `readi`
leaves everything as it is. -/
theorem reading_never_allocates (small : sb.size ≤ 2 ^ 32) (exact : s.Exact sb)
    (noHoles : s.NoHoles) (ops : List BlockOp) (ran : BlockOp.runAll sb ops s = .ok after) :
    after.NoHoles ∧ ∀ ip, (after.inode ip).type ≠ .free →
      (∀ bn, bn * bSize < (after.inode ip).size →
        ∃ block, block ≠ 0 ∧ after.bmap sb ip bn = .ok (block, after)) ∧
      ∀ off n copyout, ∃ read, after.readi sb ip off n copyout = .ok (read, after) := by
  have kept : after.NoHoles := (BlockOp.runAll_keeps small exact ran).2 noHoles
  refine ⟨kept, ?_⟩
  intro ip live
  constructor
  · intro bn below
    have present := kept ip live bn below
    exact ⟨after.refs (.leaf ip bn), present, bmap_of_present live present⟩
  · intro off n copyout
    exact kept.readi live off n copyout

/-! ## A fresh disk -/

/-- A disk on which `mkfs` has marked its own blocks only. -/
def freshDisk : BlockState where
  bitmap block := decide (block < Mkfs.superblock.nmeta)
  data _ := .zero
  inode _ := .blank .free

theorem freshDisk_refs (place : BlockPlace) : freshDisk.refs place = 0 := by
  cases place with
  | addr inum slot => rfl
  | entry inum ix =>
    rw [BlockState.refs, if_pos]
    exact Or.inl rfl

theorem freshDisk_exact {sb : Superblock} (same : sb.nmeta = Mkfs.superblock.nmeta) :
    freshDisk.Exact sb where
  positive := by
    rw [same]
    decide
  range place has := absurd (freshDisk_refs place) has
  once place _ has := absurd (freshDisk_refs place) has
  used_iff block _ := by
    rw [freshDisk, same]
    dsimp only
    rw [decide_eq_true_iff]
    constructor
    · intro resv
      exact .inl resv
    rintro (resv | ⟨place, eq⟩)
    · exact resv
    · rw [← eq]
      exact (freshDisk_refs place).symm ▸ (by decide)

theorem file_ne_free : InodeType.file ≠ .free := by decide

/-- A new file is written from its start. -/
def writesFile : List BlockOp :=
  [.ialloc ⟨.file, file_ne_free⟩, .writei 1 0 5 fun _ m => ⟨List.replicate m 7, true⟩]

theorem writesFile_ok : ∃ after, runAll Mkfs.superblock writesFile freshDisk = .ok after ∧
    after.bitmap 46 = true ∧ (after.inode 1).type = .file := by
  have eval : (match runAll Mkfs.superblock writesFile freshDisk with
      | .ok after => after.bitmap 46 && (after.inode 1).type == .file
      | .error _ => false) = true := by
    decide +kernel
  cases ran : runAll Mkfs.superblock writesFile freshDisk with
  | error panic =>
    rw [ran] at eval
    cases eval
  | ok after =>
    rw [ran] at eval
    have both := Bool.and_eq_true_iff.mp eval
    exact ⟨after, rfl, both.1, eq_of_beq both.2⟩

theorem blocks_have_one_owner_fresh : ∃ after,
    BlockOp.runAll Mkfs.superblock writesFile freshDisk = .ok after ∧
    after.bitmap 46 = true ∧ (46 < Mkfs.superblock.nmeta ∨ ∃ place, after.refs place = 46) := by
  rcases writesFile_ok with ⟨after, ran, set, _⟩
  have holds := (blocks_have_one_owner (by decide) (freshDisk_exact rfl) writesFile).2 after ran
  exact ⟨after, ran, set, (holds.2 46 (by decide)).mp set⟩

theorem reading_never_allocates_fresh : ∃ after,
    BlockOp.runAll Mkfs.superblock writesFile freshDisk = .ok after ∧
    ∃ read, after.readi Mkfs.superblock 1 0 5 (fun _ _ => true) = .ok (read, after) := by
  rcases writesFile_ok with ⟨after, ran, _, isFile⟩
  have noHoles : freshDisk.NoHoles := fun i live => absurd rfl live
  have holds := reading_never_allocates (by decide) (freshDisk_exact rfl) noHoles writesFile ran
  exact ⟨after, ran, (holds.2 1 (by rw [isFile]; decide)).2 0 5 _⟩

end

end Xv6
