import Xv6.Foundation.Splice
import Xv6.Blocks.Files

/-! # The content of files

What `readi` and `writei` do to the blocks of a file is what reading and overwriting do to
an array of bytes. -/

namespace Xv6

open Foundation Function BlockPlace
open List (range)

namespace BlockState

/-- The byte of a file at a position. -/
def content (s : BlockState) (i pos : Nat) : UInt8 :=
  Buffer.byte (s.data (s.refs (.leaf i (pos / bSize)))) (pos % bSize)

/-- The bytes of a file. -/
def file (s : BlockState) (i : Nat) : List UInt8 :=
  (List.range (s.inode i).size).map (s.content i)

/-- An allocated inode has blocks up to its size. -/
structure Covered (s : BlockState) (i : Nat) : Prop where
  live : (s.inode i).type ≠ .free
  present : ∀ bn, bn * bSize < (s.inode i).size → s.refs (.leaf i bn) ≠ 0

/-- A copy from memory that succeeds. -/
def copyOf (source : Nat → UInt8) (tot m : Nat) : Copy :=
  ⟨(List.range m).map fun offset => source (tot + offset), true⟩

/-! ## What can stop a call -/

/-- Nothing but `balloc` and `bfree` panics. -/
def OnlyAlloc {α : Type} (out : Except BlockPanic α) : Prop :=
  ∀ panic, out = .error panic → panic = .balloc ∨ panic = .bfree

variable {sb : Superblock} {s after : BlockState} {ip : Nat}

theorem OnlyAlloc.ok {α : Type} (v : α) : OnlyAlloc (.ok v) := by rintro panic ⟨⟩

theorem OnlyAlloc.bind {α β : Type} {out : Except BlockPanic α} {next : α → Except BlockPanic β}
    (fst : OnlyAlloc out) (rest : ∀ v, OnlyAlloc (next v)) : OnlyAlloc (out >>= next) := by
  cases out with
  | error panic =>
    intro o eq
    cases eq
    exact fst panic rfl
  | ok v => exact rest v

theorem OnlyAlloc.balloc : OnlyAlloc (s.balloc sb) := by
  rw [BlockState.balloc]
  split
  · intro panic eq
    cases eq
    exact .inl rfl
  · exact .ok _

variable {block : Nat}

theorem OnlyAlloc.bfree : OnlyAlloc (s.bfree block) := by
  rw [BlockState.bfree]
  split
  · exact .ok _
  intro panic eq
  cases eq
  exact .inr rfl

theorem OnlyAlloc.addrAt {slot : Fin (nDirect + 1)} : OnlyAlloc (s.addrAt sb ip slot) := by
  rw [BlockState.addrAt]
  split
  · exact balloc.bind fun _ => .ok _
  · exact .ok _

variable {indirect : Nat}

theorem OnlyAlloc.entryAt {ix : Nat} : OnlyAlloc (s.entryAt sb indirect ix) := by
  rw [BlockState.entryAt]
  split
  · exact balloc.bind fun _ => .ok _
  · exact .ok _

variable {bn : Nat}

theorem OnlyAlloc.bmap (isIn : bn < maxFile) : OnlyAlloc (s.bmap sb ip bn) := by
  rw [BlockState.bmap]
  split
  · exact .addrAt
  rw [maxFile] at isIn
  rw [if_pos (by omega)]
  exact addrAt.bind fun _ => .entryAt

variable {fuel off left : Nat}

theorem OnlyAlloc.writeLoop {copyin : (tot m : Nat) → Copy} {tot : Nat} (isIn :
    off + left ≤ maxFile * bSize) : OnlyAlloc (s.writeLoop sb ip copyin fuel off tot left) := by
  induction fuel generalizing off tot left s with
  | zero => exact .ok _
  | succ fuel ih =>
    rw [writeLoop]
    split
    · exact .ok _
    next more =>
    have fst : off / bSize < maxFile := by
      rw [bSize_eq] at isIn ⊢
      omega
    apply (bmap fst).bind
    intro out
    dsimp only
    split
    · apply ih
      omega
    · exact .ok _

variable {n : BitVec 32}

theorem writable_iff {fields : InodeFields} {off : BitVec 32} : fields.Writable off n ↔ off.toNat ≤
    fields.size ∧ off.toNat + n.toNat < 2 ^ 32 ∧ off.toNat + n.toNat ≤ maxFile * bSize := by
  have sum := BitVec.toNat_add off n
  have boundOff := off.isLt
  have boundN := n.isLt
  have wraps : off + n < off ↔ (off + n).toNat < off.toNat := BitVec.lt_def
  have small : maxFile * bSize < 2 ^ 32 := by decide
  rw [InodeFields.Writable, wraps]
  omega

theorem OnlyAlloc.writei {copyin : (tot m : Nat) → Copy} {off : BitVec 32} :
    OnlyAlloc (s.writei sb ip off n copyin) := by
  rw [BlockState.writei]
  split
  · next wrb =>
    apply (writeLoop (writable_iff.mp wrb).2.2).bind
    intro out
    dsimp only
    split
    · exact .ok _
    · exact .ok _
  · exact .ok _

theorem OnlyAlloc.truncDirect {slots : List (Fin (nDirect + 1))} :
    OnlyAlloc (s.truncDirect ip slots) := by
  induction slots generalizing s with
  | nil => exact .ok _
  | cons slot rest ih =>
    rw [truncDirect]
    split
    · exact ih
    · exact bfree.bind fun _ => ih

theorem OnlyAlloc.truncEntries {indices : List Nat} :
    OnlyAlloc (s.truncEntries indirect indices) := by
  induction indices generalizing s with
  | nil => exact .ok _
  | cons ix rest ih =>
    rw [truncEntries]
    split
    · exact ih
    · exact bfree.bind fun _ => ih

theorem OnlyAlloc.itrunc : OnlyAlloc (s.itrunc ip) := by
  apply truncDirect.bind
  intro direct
  apply bind
  · rw [truncIndirect]
    split
    · exact .ok _
    apply truncEntries.bind
    intro emptied
    exact bfree.bind fun _ => .ok _
  · intro _
    exact .ok _

/-! ## Allocating leaves files alone -/

/-- The blocks of files keep their bytes. -/
def SameLeaves (s after : BlockState) : Prop :=
  ∀ i bn, s.refs (.leaf i bn) ≠ 0 →
    after.data (s.refs (.leaf i bn)) = s.data (s.refs (.leaf i bn))

theorem SameLeaves.refl (s : BlockState) : SameLeaves s s := fun _ _ _ => rfl

variable {i : Nat}

theorem SameLeaves.content (same : SameLeaves s after) (grown : Extends s after) {pos : Nat}
    (has : s.refs (.leaf i (pos / bSize)) ≠ 0) : after.content i pos = s.content i pos := by
  rw [BlockState.content, grown.refs _ has, same _ _ has]
  rfl

theorem addrAt_leaves {slot : Fin (nDirect + 1)} (exact : s.Exact sb) :
    Safe (fun out => SameLeaves s out.2) (s.addrAt sb ip slot) := by
  rw [addrAt]
  split
  · apply (balloc_spec sb s).bind
    rintro out ⟨block, isIn, unused, isRes⟩
    rw [isRes]
    intro i bn _
    exact update_of_ne (exact.ne_of_unused isIn unused _) _ _
  · exact .refl s

theorem entryAt_leaves {ix : Nat} (exact : s.Exact sb)
    (isInd : s.refs (.addr ip indirectSlot) = indirect) :
    Safe (fun out => SameLeaves s out.2) (s.entryAt sb indirect ix) := by
  rw [entryAt]
  split
  · apply (balloc_spec sb s).bind
    rintro out ⟨block, isIn, unused, isRes⟩
    rw [isRes]
    intro i bn has
    have ne : s.refs (.leaf i bn) ≠ indirect := by
      intro eq
      exact BlockPlace.leaf_ne_indirect (exact.once _ _ has (eq.trans isInd.symm))
    change update _ indirect _ (s.refs (.leaf i bn)) = _
    rw [update_of_ne ne]
    exact update_of_ne (exact.ne_of_unused isIn unused _) _ _
  · exact .refl s

theorem bmap_leaves (exact : s.Exact sb) (live : (s.inode ip).type ≠ .free) :
    Safe (fun out => SameLeaves s out.2) (s.bmap sb ip bn) := by
  rw [bmap]
  split
  · exact addrAt_leaves exact
  split
  · apply ((addrAt_spec exact live).and (addrAt_leaves exact)).bind
    intro out h
    rcases out with ⟨indirect, mid⟩
    rcases h with ⟨⟨exactMid, grown, isInd, _⟩, same⟩
    dsimp only at exactMid grown isInd same ⊢
    apply (entryAt_leaves exactMid isInd).mono
    intro out sameAfter i bn has
    have kept := grown.refs _ has
    have last := sameAfter i bn (kept ▸ has)
    rw [kept] at last
    rw [last, same i bn has]
  · rintro ⟨⟩

/-! ## Writing -/

theorem leaf_injective {j o : Nat}
    (eq : BlockPlace.leaf i bn = BlockPlace.leaf j o) : i = j ∧ bn = o := by
  rw [leaf, leaf] at eq
  split at eq <;> split at eq
  · simp only [addr.injEq, Fin.mk.injEq] at eq
    exact eq
  · cases eq
  · cases eq
  · simp only [entry.injEq] at eq
    omega

theorem content_patch (exact : s.Exact sb) {bytes : List UInt8}
    (isLeaf : s.refs (.leaf ip (off / bSize)) = block) (has : block ≠ 0)
    (fits : off % bSize + bytes.length ≤ bSize) (i pos : Nat) :
    (s.setData block ((s.data block).patch (off % bSize) bytes)).content i pos =
      if i = ip ∧ off ≤ pos ∧ pos < off + bytes.length then
        bytes.getD (pos - off) 0
      else s.content i pos := by
  have inBlk : pos % bSize < bSize := Nat.mod_lt _ (by decide)
  rw [content, exact.refs_setData_leaf isLeaf]
  by_cases here : i = ip ∧ pos / bSize = off / bSize
  · have data : (s.setData block ((s.data block).patch (off % bSize) bytes)).data block =
      (s.data block).patch (off % bSize) bytes := update_self _ _ _
    rw [here.1, here.2, isLeaf, data, Buffer.byte_patch _ _ _ _ inBlk, content, here.2, isLeaf]
    have same := here.2
    have condition : (off % bSize ≤ pos % bSize ∧ pos % bSize < off % bSize + bytes.length) ↔
        ip = ip ∧ off ≤ pos ∧ pos < off + bytes.length := by
      rw [bSize_eq] at same fits ⊢
      omega
    have distance : off % bSize ≤ pos % bSize → pos % bSize - off % bSize = pos - off := by
      rw [bSize_eq] at same ⊢
      omega
    by_cases isIn : off % bSize ≤ pos % bSize ∧ pos % bSize < off % bSize + bytes.length
    · rw [if_pos isIn, if_pos (condition.mp isIn), distance isIn.1]
    · rw [if_neg isIn, if_neg fun h => isIn (condition.mpr h)]
  · have o : s.refs (.leaf i (pos / bSize)) ≠ block := by
      intro eq
      have unique := exact.once (.leaf ip (off / bSize)) (.leaf i (pos / bSize))
        (by rw [isLeaf]; exact has) (isLeaf.trans eq.symm)
      have parts := leaf_injective unique
      exact here ⟨parts.1.symm, parts.2.symm⟩
    have data : (s.setData block ((s.data block).patch (off % bSize) bytes)).data
        (s.refs (.leaf i (pos / bSize))) = s.data (s.refs (.leaf i (pos / bSize))) :=
      update_of_ne o _ _
    rw [data, if_neg]
    · rfl
    intro isIn
    apply here
    refine ⟨isIn.1, ?_⟩
    rw [bSize_eq] at fits ⊢
    omega

/-- Of the first `total` bytes of `source` a copy gets those below `limit`. Behind it the
copy fails, and what it has copied by then is kept or not. -/
structure Supplies (source : Nat → UInt8) (total limit : Nat) (keep : Bool)
    (copyin : (tot m : Nat) → Copy) : Prop where
  whole : ∀ tot m, tot + m ≤ limit → copyin tot m = copyOf source tot m
  part : ∀ tot m, tot ≤ limit → limit < tot + m → tot + m ≤ total →
    copyin tot m = ⟨(copyOf source tot (if keep then limit - tot else 0)).bytes, false⟩

/-- The bytes in blocks that are copied as a whole, of `left` bytes from `off` on of which
`avail` can be copied. -/
def wholeBlocks (off left avail : Nat) : Nat :=
  if left ≤ avail then left else (off + avail) / bSize * bSize - off

/-- The bytes that the copies store, the last of which may fail. -/
def storedBytes (keep : Bool) (off left avail : Nat) : Nat :=
  if keep then min left avail else wholeBlocks off left avail

theorem wholeBlocks_le (keep : Bool) (off left avail : Nat) :
    wholeBlocks off left avail ≤ storedBytes keep off left avail := by
  rw [storedBytes, wholeBlocks, bSize_eq]
  split <;> split <;> omega

theorem content_copy (exact : s.Exact sb) (source : Nat → UInt8)
    (tot m : Nat) (isLeaf : s.refs (.leaf ip (off / bSize)) = block) (has : block ≠ 0)
    (fits : off % bSize + m ≤ bSize) (i pos : Nat) :
    (s.setData block ((s.data block).patch (off % bSize)
      (copyOf source tot m).bytes)).content i pos =
      if i = ip ∧ off ≤ pos ∧ pos < off + m then source (tot + (pos - off))
      else s.content i pos := by
  have length : (copyOf source tot m).bytes.length = m := by simp [copyOf]
  rw [content_patch exact isLeaf has (by rw [length]; exact fits), length]
  by_cases isIn : i = ip ∧ off ≤ pos ∧ pos < off + m
  · rw [if_pos isIn, if_pos isIn, List.getD_eq_getElem _ _ (by rw [length]; omega)]
    simp [copyOf]
  · rw [if_neg isIn, if_neg isIn]

variable {source : Nat → UInt8}

theorem writeLoop_supplied {total limit : Nat} {keep : Bool}
    {copyin : (tot m : Nat) → Copy} (supplies : Supplies source total limit keep copyin)
    (small : sb.size ≤ 2 ^ 32) {tot : Nat} (exact : s.Exact sb)
    (live : (s.inode ip).type ≠ .free) (enough : left ≤ fuel) (within : tot ≤ limit)
    (all : tot + left ≤ total) : Safe (fun out => out.1 = off + wholeBlocks off left (limit - tot) ∧
      out.2.1 = tot + wholeBlocks off left (limit - tot) ∧ (∀ pos, off ≤ pos →
        pos < off + storedBytes keep off left (limit - tot) →
        out.2.2.content ip pos = source (tot + (pos - off))) ∧
      ∀ i pos, s.refs (.leaf i (pos / bSize)) ≠ 0 →
        i ≠ ip ∨ pos < off ∨ off + storedBytes keep off left (limit - tot) ≤ pos →
        out.2.2.content i pos = s.content i pos) (writeLoop sb ip copyin fuel off tot left s) := by
  have nothing : ∀ off avail, wholeBlocks off 0 avail = 0 ∧ storedBytes keep off 0 avail = 0 := by
    intro off avail
    have zero : wholeBlocks off 0 avail = 0 := if_pos (Nat.zero_le avail)
    rw [storedBytes, zero]
    simp
  have finished : ∀ off tot (s : BlockState), (off, tot, s).1 = off + 0 ∧
      (off, tot, s).2.1 = tot + 0 ∧ (∀ pos, off ≤ pos → pos < off + 0 →
        s.content ip pos = source (tot + (pos - off))) ∧
      ∀ i pos, s.refs (.leaf i (pos / bSize)) ≠ 0 → i ≠ ip ∨ pos < off ∨ off + 0 ≤ pos →
        s.content i pos = s.content i pos :=
    fun off tot s => ⟨rfl, rfl, fun pos from_ below => absurd below (by omega), fun _ _ _ _ => rfl⟩
  induction fuel generalizing off tot left s with
  | zero =>
    have done : left = 0 := by omega
    subst done
    rw [(nothing off _).1, (nothing off _).2]
    exact finished off tot s
  | succ fuel ih =>
    rw [writeLoop]
    split
    · next done =>
      subst done
      rw [(nothing off _).1, (nothing off _).2]
      exact finished off tot s
    · next more =>
      apply ((bmap_spec small exact live).and (bmap_leaves exact live)).bind
      intro out h
      rcases out with ⟨block, mapped⟩
      rcases h with ⟨⟨exactMapped, grown, isLeaf, has⟩, same⟩
      dsimp only at exactMapped grown isLeaf has same ⊢
      generalize isM : min left (bSize - off % bSize) = m
      have inBlk : off % bSize < bSize := Nat.mod_lt _ (by decide)
      have positive : 0 < m := by omega
      by_cases reaches : tot + m ≤ limit
      · have bytes : (copyin tot m).bytes.take m = (copyOf source tot m).bytes := by
          rw [supplies.whole tot m reaches]
          exact List.take_of_length_le (by simp [copyOf])
        have ok : (copyin tot m).ok = true := by
          rw [supplies.whole tot m reaches]
          rfl
        rw [bytes, if_pos ok]
        have patched := content_copy exactMapped source tot m isLeaf has (by omega)
        rcases exactMapped.setData_leaf isLeaf ((mapped.data block).patch (off % bSize)
          (copyOf source tot m).bytes) with ⟨exactWritten, written⟩
        revert patched exactWritten written
        generalize mapped.setData block _ = last
        intro patched exactWritten written
        have grownLast := grown.trans written
        have liveLast : (last.inode ip).type ≠ .free := by rwa [grownLast.type]
        have avail : limit - (tot + m) = limit - tot - m := by omega
        have whole : wholeBlocks off left (limit - tot) =
            m + wholeBlocks (off + m) (left - m) (limit - (tot + m)) := by
          rw [wholeBlocks, wholeBlocks]
          rw [bSize_eq] at isM ⊢
          split <;> split <;> omega
        have stored : storedBytes keep off left (limit - tot) =
            m + storedBytes keep (off + m) (left - m) (limit - (tot + m)) := by
          rw [storedBytes, storedBytes, whole]
          split <;> omega
        rw [whole, stored]
        apply (ih exactWritten liveLast (by omega) reaches (by omega)).mono
        rintro out ⟨got, count, isIn, outside⟩
        refine ⟨by omega, by omega, ?_, ?_⟩
        · intro pos from_ below
          by_cases later : off + m ≤ pos
          · rw [isIn pos later (by omega)]
            congr 1
            omega
          -- This turn writes the byte, into a block that is there afterwards.
          have sameBlk : pos / bSize = off / bSize := by
            rw [bSize_eq] at isM ⊢
            omega
          have there : last.refs (.leaf ip (pos / bSize)) ≠ 0 := by
            rwa [sameBlk, written.refs _ (isLeaf ▸ has), isLeaf]
          rw [outside ip pos there (by omega), patched, if_pos ⟨rfl, from_, by omega⟩]
        · intro i pos mappedBefore apart
          have there : last.refs (.leaf i (pos / bSize)) ≠ 0 := by
            rwa [grownLast.refs _ mappedBefore]
          rw [outside i pos there (by omega), patched, if_neg (by omega),
            same.content grown mappedBefore]
      · -- The copy fails inside this block.
        have isPart := supplies.part tot m within (by omega) (by omega)
        have whole : wholeBlocks off left (limit - tot) = 0 := by
          rw [wholeBlocks, if_neg (by omega)]
          rw [bSize_eq] at isM ⊢
          omega
        generalize isCount : (if keep = true then limit - tot else 0) = count at isPart
        have stored : storedBytes keep off left (limit - tot) = count := by
          rw [storedBytes, whole, ← isCount]
          split <;> omega
        have few : count < m := by
          rw [← isCount]
          split <;> omega
        have bytes : (copyin tot m).bytes.take m = (copyOf source tot count).bytes := by
          rw [isPart]
          exact List.take_of_length_le (by simp [copyOf]; omega)
        have failed : ¬(copyin tot m).ok = true := by
          rw [isPart]
          simp
        rw [bytes, if_neg failed, whole, stored]
        have patched := content_copy exactMapped source tot count isLeaf has (by omega)
        refine ⟨rfl, rfl, ?_, ?_⟩
        · intro pos from_ below
          exact (patched ip pos).trans (if_pos ⟨rfl, from_, below⟩)
        · intro i pos mappedBefore apart
          refine (patched i pos).trans ?_
          rw [if_neg (by omega), same.content grown mappedBefore]

theorem Supplies.copyOf (source : Nat → UInt8) (total : Nat) :
    Supplies source total total true (copyOf source) where
  whole _ _ _ := rfl
  part _ _ _ behind all := absurd all (by omega)

end BlockState

/-! ## Arrays of bytes -/

namespace FileBytes

/-- What `writei` is for: the bytes from `off` on are overwritten. -/
def write (file : List UInt8) (off n : BitVec 32) (source : Nat → UInt8) : Int × List UInt8 :=
  if off.toNat ≤ file.length ∧ off.toNat + n.toNat < 2 ^ 32 ∧
      off.toNat + n.toNat ≤ maxFile * bSize then
    (n.toNat, splice file off.toNat ((List.range n.toNat).map source))
  else (-1, file)

/-- What `readi` is for: the bytes from `off` on are returned. -/
def read (file : List UInt8) (off n : BitVec 32) : List UInt8 :=
  if file.length < off.toNat ∨ 2 ^ 32 ≤ off.toNat + n.toNat then []
  else (file.drop off.toNat).take n.toNat

end FileBytes

namespace BlockState

variable {sb : Superblock} {s after : BlockState} {ip : Nat}

@[simp] theorem length_file (s : BlockState) (i : Nat) : (s.file i).length = (s.inode i).size := by
  simp [file]

/-- The files that were covered still are, and have the given bytes. -/
def Becomes (sb : Superblock) (s after : BlockState) (files : Nat → List UInt8) : Prop :=
  after.Exact sb ∧ ∀ i, s.Covered i → after.Covered i ∧ after.file i = files i

theorem Covered.present_of_lt {pos : Nat} (cover : s.Covered i) (below : pos < (s.inode i).size) :
    s.refs (.leaf i (pos / bSize)) ≠ 0 := by
  apply cover.present
  rw [bSize_eq]
  omega

theorem file_congr (size : (after.inode i).size = (s.inode i).size) (content : ∀ pos,
    pos < (s.inode i).size → after.content i pos = s.content i pos) : after.file i = s.file i := by
  rw [file, file, size]
  apply List.map_congr_left
  intro pos mem
  exact content pos (List.mem_range.mp mem)

theorem writei_supplied {off : BitVec 32} {limit : Nat} {keep : Bool}
    {copyin : (tot m : Nat) → Copy} (supplies : Supplies source n.toNat limit keep copyin)
    (small : sb.size ≤ 2 ^ 32) (exact : s.Exact sb) (covered : s.Covered ip)
    (writable : (s.inode ip).Writable off n) :
    Safe (fun out => out.1 = (wholeBlocks off.toNat n.toNat limit : Int) ∧
      Becomes sb s out.2 (update s.file ip ((range (max (s.inode ip).size
          (off.toNat + wholeBlocks off.toNat n.toNat limit))).map
          (overlay (s.content ip) off.toNat (storedBytes keep off.toNat n.toNat limit) source))))
      (s.writei sb ip off n copyin) := by
  rw [writei, if_pos writable]
  have start := (writable_iff.mp writable).1
  have all : 0 + n.toNat ≤ n.toNat := by omega
  apply ((writeLoop_spec small exact covered.live).and (writeLoop_supplied supplies small exact
    covered.live (Nat.le_refl _) (Nat.zero_le limit) all)).bind
  intro out h
  rcases out with ⟨reached, tot, written⟩
  rcases h with ⟨⟨exactWritten, grown, mapped⟩, isReached, isTot, isIn, outside⟩
  dsimp only at exactWritten grown mapped isReached isTot isIn outside ⊢
  rw [zero_add, Nat.sub_zero] at isTot
  rw [Nat.sub_zero] at isReached isIn outside
  have fewer := wholeBlocks_le keep off.toNat n.toNat limit
  generalize wholeBlocks off.toNat n.toNat limit = whole at isReached isTot fewer ⊢
  generalize storedBytes keep off.toNat n.toNat limit = stored at isIn outside fewer ⊢
  -- Both branches only differ in the size that the inode had.
  have finish : ∀ last : BlockState, last.refs = written.refs → last.data = written.data →
      last.bitmap = written.bitmap → (∀ i, (last.inode i).type = (written.inode i).type) →
      (∀ i, i ≠ ip → (last.inode i).size = (written.inode i).size) →
      (last.inode ip).size = max (s.inode ip).size (off.toNat + whole) →
      Becomes sb s last (update s.file ip ((range (max (s.inode ip).size (off.toNat + whole))).map
          (overlay (s.content ip) off.toNat stored source))) := by
    intro last refs data bitmap type size sizeHere
    have content : ∀ i pos, last.content i pos = written.content i pos := by
      intro i pos
      rw [content, content, refs, data]
    refine ⟨?_, ?_⟩
    · rwa [Exact, refs, bitmap]
    intro i coveredI
    have live : (last.inode i).type ≠ .free := by
      rw [type, grown.type]
      exact coveredI.live
    have kept : ∀ bn, bn * bSize < (s.inode i).size → last.refs (.leaf i bn) ≠ 0 := by
      intro bn below
      rw [refs, grown.refs _ (coveredI.present bn below)]
      exact coveredI.present bn below
    by_cases here : i = ip
    · subst here
      refine ⟨⟨live, ?_⟩, ?_⟩
      · intro bn below
        by_cases old : bn * bSize < (s.inode i).size
        · exact kept bn old
        rw [sizeHere] at below
        rw [refs]
        rw [bSize_eq] at old below mapped
        apply mapped bn
        · omega
        · omega
        · omega
      · rw [update_self, file, sizeHere]
        apply List.map_congr_left
        intro pos mem
        have below := List.mem_range.mp mem
        rw [content, overlay]
        split
        · next stores =>
          rw [isIn pos stores.1 stores.2, zero_add]
        · next apart =>
          exact outside i pos (coveredI.present_of_lt (by omega)) (by omega)
    · refine ⟨⟨live, ?_⟩, ?_⟩
      · intro bn below
        rw [size i here, grown.size] at below
        exact kept bn below
      rw [update_of_ne here]
      apply file_congr (by rw [size i here, grown.size])
      intro pos below
      rw [content]
      exact outside i pos (coveredI.present_of_lt below) (.inl here)
  split
  · next grows =>
    refine ⟨by rw [isTot], finish _ (refs_setInode rfl rfl) rfl rfl ?_ ?_ ?_⟩
    · intro i
      by_cases here : i = ip
      · rw [here, inode_setInode_self]
      · rw [inode_setInode_of_ne here]
    · intro i here
      rw [inode_setInode_of_ne here]
    · rw [inode_setInode_self]
      rw [grown.size] at grows
      dsimp only
      omega
  · next fits =>
    refine ⟨by rw [isTot], finish _ rfl rfl rfl (fun _ => rfl) (fun _ _ => rfl) ?_⟩
    rw [grown.size] at fits ⊢
    omega

theorem writei_content {off : BitVec 32} (small : sb.size ≤ 2 ^ 32)
    (exact : s.Exact sb) (covered : s.Covered ip) :
    Safe (fun out => out.1 = (FileBytes.write (s.file ip) off n source).1 ∧ Becomes sb s out.2
        (update s.file ip (FileBytes.write (s.file ip) off n source).2))
      (s.writei sb ip off n (copyOf source)) := by
  rw [FileBytes.write, length_file]
  by_cases writable : (s.inode ip).Writable off n
  · rw [if_pos (writable_iff.mp writable)]
    have written := writei_supplied (.copyOf source n.toNat) small exact covered writable
    have whole : wholeBlocks off.toNat n.toNat n.toNat = n.toNat := if_pos le_rfl
    have stored : storedBytes true off.toNat n.toNat n.toNat = n.toNat := by
      rw [storedBytes, if_pos rfl, min_self]
    rwa [whole, stored, map_range_overlay (writable_iff.mp writable).1] at written
  · rw [writei, if_neg writable, if_neg fun h => writable (writable_iff.mpr h)]
    refine ⟨rfl, exact, ?_⟩
    intro i coveredI
    rw [update_eq_self]
    exact ⟨coveredI, rfl⟩

/-! ## Reading -/

theorem slice_content {m : Nat} (fits : off % bSize + m ≤ bSize) :
    (s.data (s.refs (.leaf ip (off / bSize)))).slice (off % bSize) m =
    (range m).map fun offset => s.content ip (off + offset) := by
  apply List.map_congr_left
  intro offset mem
  have below := List.mem_range.mp mem
  have block : (off + offset) / bSize = off / bSize := by
    rw [bSize_eq] at fits ⊢
    omega
  have pos : (off + offset) % bSize = off % bSize + offset := by
    rw [bSize_eq] at fits ⊢
    omega
  rw [content, block, pos]

theorem readLoop_content {bytes : List UInt8}
    (live : (s.inode ip).type ≠ .free) (enough : left ≤ fuel)
    (mapped : ∀ pos, off ≤ pos → pos < off + left → s.refs (.leaf ip (pos / bSize)) ≠ 0) :
    readLoop sb ip (fun _ _ => true) fuel off left bytes s =
    .ok (some (bytes ++ (range left).map fun offset => s.content ip (off + offset)), s) := by
  induction fuel generalizing off left bytes with
  | zero =>
    have done : left = 0 := by omega
    subst done
    rw [readLoop, List.range_zero, List.map_nil, List.append_nil]
  | succ fuel ih =>
    rw [readLoop]
    split
    · next done =>
      rw [done, List.range_zero, List.map_nil, List.append_nil]
    next more =>
    have inBlk : off % bSize < bSize := Nat.mod_lt _ (by decide)
    rw [bmap_of_present live (mapped off (Nat.le_refl off) (by omega))]
    dsimp only [bind, Except.bind]
    generalize isM : min left (bSize - off % bSize) = m
    rw [if_pos rfl, slice_content (by omega), ih (by omega)]
    · have split : left = m + (left - m) := by omega
      rw [List.append_assoc]
      congr 4
      conv_rhs => rw [split, List.range_add, List.map_append, List.map_map]
      congr 1
      apply List.map_congr_left
      intro offset _
      rw [comp_apply, add_assoc]
    · intro pos from_ below
      exact mapped pos (by omega) (by omega)

theorem readi_content (cover : s.Covered ip) (off n : BitVec 32) :
    s.readi sb ip off n (fun _ _ => true) = .ok (some (FileBytes.read (s.file ip) off n), s) := by
  have count : (range ((s.inode ip).readRange off n)).map
      (fun offset => s.content ip (off.toNat + offset)) = FileBytes.read (s.file ip) off n := by
    have sum := BitVec.toNat_add off n
    have boundOff := off.isLt
    have boundN := n.isLt
    have wraps : off + n < off ↔ (off + n).toNat < off.toNat := BitVec.lt_def
    have same : ((s.inode ip).size < off.toNat ∨ off + n < off) ↔
        (s.inode ip).size < off.toNat ∨ 2 ^ 32 ≤ off.toNat + n.toNat := by
      rw [wraps]
      omega
    rw [InodeFields.readRange, FileBytes.read, length_file]
    by_cases outside : (s.inode ip).size < off.toNat ∨ off + n < off
    · rw [if_pos outside, if_pos (same.mp outside)]
      rfl
    have isIn : ¬((s.inode ip).size < off.toNat ∨ 2 ^ 32 ≤ off.toNat + n.toNat) :=
      fun h => outside (same.mpr h)
    rw [if_neg outside, if_neg isIn]
    apply List.ext_getElem
    · rw [List.length_map, List.length_range, List.length_take, List.length_drop, length_file]
      split <;> omega
    · intro pos _ _
      simp [file]
  rw [readi, readLoop_content cover.live le_rfl, List.nil_append, count]
  intro pos from_ below
  by_cases none : (s.inode ip).readRange off n = 0
  · omega
  apply cover.present_of_lt
  have isIn := readRange_le none
  omega

/-! ## Truncating -/

theorem itrunc_content (exact : s.Exact sb) (live : (s.inode ip).type ≠ .free) :
    Safe (fun after => Becomes sb s after (update s.file ip [])) (s.itrunc ip) := by
  apply (itrunc_spec exact live).mono
  rintro after ⟨exactAfter, data, others, type, size, _⟩
  refine ⟨exactAfter, ?_⟩
  intro i cover
  by_cases here : i = ip
  · subst here
    refine ⟨⟨by rw [type]; exact live, ?_⟩, ?_⟩
    · intro bn below
      rw [size] at below
      omega
    · rw [update_self, file, size]
      rfl
  · have refs : ∀ bn, after.refs (.leaf i bn) = s.refs (.leaf i bn) := by
      intro bn
      rw [BlockPlace.leaf]
      split
      · rw [BlockState.refs, BlockState.refs, others i here]
      · rw [BlockState.refs, BlockState.refs, others i here, data]
    refine ⟨⟨by rw [others i here]; exact cover.live, ?_⟩, ?_⟩
    · intro bn below
      rw [others i here] at below
      rw [refs]
      exact cover.present bn below
    · rw [update_of_ne here]
      apply file_congr (by rw [others i here])
      intro pos _
      rw [content, content, refs, data]

/-! ## `filewrite` -/

/-- The most bytes that `filewrite` writes in one transaction. -/
def maxWrite : Nat := (maxOpBlocks - 1 - 1 - 2) / 2 * bSize

/-- The loop of `filewrite` on an inode, which has written `i` of `n` bytes. -/
def filewriteLoop (sb : Superblock) (ip : Nat) (n : Int) (source : Nat → UInt8) :
    (fuel i : Nat) → (off : BitVec 32) → BlockState →
    Except BlockPanic (Nat × BitVec 32 × BlockState)
  | 0, i, off, s => .ok (i, off, s)
  | fuel + 1, i, off, s =>
    if i < n then do
      let n1 := min (n - i).toNat maxWrite
      let (r, s) ← s.writei sb ip off (.ofNat 32 n1) (copyOf fun k => source (i + k))
      let off := if 0 < r then off + .ofNat 32 r.toNat else off
      if r ≠ n1 then .ok (i, off, s)
      else filewriteLoop sb ip n source fuel (i + n1) off s
    else .ok (i, off, s)

/-- `filewrite` on an inode, with the offset of the open file. -/
def filewrite (sb : Superblock) (ip : Nat) (n : Int) (source : Nat → UInt8) (off : BitVec 32)
    (s : BlockState) : Except BlockPanic (Int × BitVec 32 × BlockState) := do
  let (i, off, s) ← filewriteLoop sb ip n source n.toNat 0 off s
  .ok (if i = n then n else -1, off, s)

theorem Becomes.refl (exact : s.Exact sb) {n : Nat} {start : Nat} (done : i = n) :
    Becomes sb s s (update s.file ip (splice (s.file ip) start ((range (n - i)).map source))) := by
  rw [done, Nat.sub_self, List.range_zero, List.map_nil, splice_nil, update_eq_self]
  exact ⟨exact, fun _ cover => ⟨cover, rfl⟩⟩

theorem filewriteLoop_content {n : Nat} (small : sb.size ≤ 2 ^ 32) {off : BitVec 32}
    (exact : s.Exact sb) (cover : s.Covered ip) (begun : i ≤ n) :
    Safe (fun out => out.1 = n → Becomes sb s out.2.2
      (update s.file ip (splice (s.file ip) off.toNat
        ((List.range (n - i)).map fun k => source (i + k)))))
      (filewriteLoop sb ip n source fuel i off s) := by
  induction fuel generalizing i off s with
  | zero => exact .refl exact
  | succ fuel ih =>
    rw [filewriteLoop]
    split
    · next more =>
      have unfinished : i < n := by omega
      dsimp only
      generalize isN1 : min ((n : Int) - i).toNat maxWrite = n1
      have bound : maxWrite = 3072 := rfl
      have few : (BitVec.ofNat 32 n1).toNat = n1 := by
        rw [BitVec.toNat_ofNat]
        omega
      apply (writei_content small exact cover).bind
      intro out h
      rcases out with ⟨r, wrote⟩
      rcases h with ⟨isR, exactWrote, becomes⟩
      dsimp only at isR exactWrote becomes ⊢
      rw [FileBytes.write, few, length_file] at isR becomes
      split at isR
      · next wrb =>
        rw [if_pos wrb] at becomes
        dsimp only at isR becomes
        have pos : 0 < r := by omega
        rw [if_neg (by omega), if_pos pos]
        have next : (off + BitVec.ofNat 32 r.toNat).toNat = off.toNat + n1 := by
          rw [BitVec.toNat_add, BitVec.toNat_ofNat]
          omega
        have here := becomes ip cover
        rw [update_self] at here
        have range : (List.range (n - i)).map (fun k => source (i + k)) =
            (List.range n1).map (fun k => source (i + k)) ++
              (List.range (n - (i + n1))).map fun k => source (i + n1 + k) := by
          have parts : n - i = n1 + (n - (i + n1)) := by omega
          rw [parts, List.range_add, List.map_append, List.map_map]
          simp only [Function.comp_def, add_assoc]
        have length : ((List.range n1).map fun k => source (i + k)).length = n1 := by simp
        apply (ih exactWrote here.1 (by omega)).mono
        intro out h done
        rcases h done with ⟨exactLast, rest⟩
        refine ⟨exactLast, ?_⟩
        intro j coverJ
        have fst := becomes j coverJ
        have snd := rest j fst.1
        refine ⟨snd.1, ?_⟩
        rw [snd.2]
        by_cases isIp : j = ip
        · rw [isIp, update_self, update_self, here.2, next, range,
            ← splice_splice (by rw [length_file]; exact wrb.1), length]
        · rw [update_of_ne isIp, fst.2, update_of_ne isIp, update_of_ne isIp]
      · next refused =>
        rw [if_pos (by omega)]
        intro done
        dsimp only at done
        omega
    · exact .refl exact

theorem filewrite_content {n : Nat}
    {off got : BitVec 32} (small : sb.size ≤ 2 ^ 32) (exact : s.Exact sb) (cover : s.Covered ip)
    (succ : s.filewrite sb ip n source off = .ok ((n : Int), got, after)) : Becomes
    sb s after (update s.file ip (splice (s.file ip) off.toNat ((range n).map source))) := by
  have loop : Safe _ (filewriteLoop sb ip n source n 0 off s) :=
    filewriteLoop_content small exact cover (Nat.zero_le n)
  rw [filewrite, Int.toNat_natCast] at succ
  cases ran : filewriteLoop sb ip n source n 0 off s with
  | error panic =>
    rw [ran] at succ
    cases succ
  | ok out =>
    rcases out with ⟨i, last, wrote⟩
    rw [ran] at succ loop
    change Except.ok (if (i : Int) = n then (n : Int) else -1, last, wrote) = _ at succ
    simp only [Except.ok.injEq, Prod.mk.injEq] at succ
    rcases succ with ⟨ret, _, isAfter⟩
    have done : i = n := by
      by_contra unfinished
      rw [if_neg (by omega)] at ret
      omega
    have becomes := loop done
    simp only [Nat.sub_zero, zero_add] at becomes
    rwa [← isAfter]

end BlockState

/-! ## Sequences of calls -/

/-- Calls on inodes, with copies that succeed. A call of `writei` is for at most the
`3 * BSIZE` bytes that `filewrite` writes in one transaction, for whose blocks
`log_write` has room. -/
inductive FileOp
  | writei (ip : Nat) (off n : BitVec 32) (source : Nat → UInt8) (chunk : n.toNat ≤ 3 * bSize)
  | readi (ip : Nat) (off n : BitVec 32)
  | itrunc (ip : Nat)

/-- What a call returns. -/
inductive FileReply
  | wrote (count : Int)
  | read (bytes : Option (List UInt8))
  | truncated

namespace FileOp

def inum : FileOp → Nat
  | .writei ip _ _ _ _ => ip
  | .readi ip _ _ => ip
  | .itrunc ip => ip

def run (sb : Superblock) (op : FileOp) (s : BlockState) :
    Except BlockPanic (FileReply × BlockState) :=
  match op with
  | .writei ip off n source _ =>
    (s.writei sb ip off n (BlockState.copyOf source)).map fun out =>
      (.wrote out.1, out.2)
  | .readi ip off n =>
    (s.readi sb ip off n fun _ _ => true).map fun out => (.read out.1, out.2)
  | .itrunc ip => (s.itrunc ip).map fun after => (.truncated, after)

def runAll (sb : Superblock) : List FileOp → BlockState →
    Except BlockPanic (List FileReply × BlockState)
  | [], s => .ok ([], s)
  | op :: rest, s => do
      let (reply, s) ← op.run sb s
      let (replies, s) ← runAll sb rest s
      .ok (reply :: replies, s)

/-- What a call is for, on arrays of bytes. -/
def apply (op : FileOp) (files : Nat → List UInt8) : FileReply × (Nat → List UInt8) :=
  match op with
  | .writei ip off n source _ =>
    let written := FileBytes.write (files ip) off n source
    (.wrote written.1, update files ip written.2)
  | .readi ip off n => (.read (some (FileBytes.read (files ip) off n)), files)
  | .itrunc ip => (.truncated, update files ip [])

def applyAll : List FileOp → (Nat → List UInt8) → List FileReply × (Nat → List UInt8)
  | [], files => ([], files)
  | op :: rest, files =>
    let (reply, files) := op.apply files
    let (replies, files) := applyAll rest files
    (reply :: replies, files)

theorem apply_congr (op : FileOp) {files o : Nat → List UInt8} (here : files op.inum = o op.inum) :
    (op.apply files).1 = (op.apply o).1 ∧
    ∀ i, files i = o i → (op.apply files).2 i = (op.apply o).2 i := by
  cases op with
  | writei ip off n source chunk =>
    change files ip = o ip at here
    rw [apply, apply, here]
    refine ⟨rfl, ?_⟩
    intro i same
    simp only [update_apply, same]
  | readi ip off n =>
    change files ip = o ip at here
    rw [apply, apply, here]
    exact ⟨rfl, fun _ same => same⟩
  | itrunc ip =>
    refine ⟨rfl, ?_⟩
    intro i same
    simp only [apply, update_apply, same]

end FileOp

/-- What holds of the result, unless the disk is full. -/
def Finishes (post : α → Prop) : Except BlockPanic α → Prop
  | .ok value => post value
  | .error panic => panic = .balloc

theorem Safe.finishes {out : Except BlockPanic α} {post : α → Prop} (safe : Safe post out)
    (only : BlockState.OnlyAlloc out) : Finishes post out := by
  cases out with
  | ok v => exact safe
  | error panic =>
    rcases only panic rfl with full | freed
    · exact full
    · exact absurd freed safe

theorem Finishes.bind {out : Except BlockPanic α} {next : α → Except BlockPanic β}
    {mid : α → Prop} {post : β → Prop} (fst : Finishes mid out)
    (rest : ∀ v, mid v → Finishes post (next v)) : Finishes post (out >>= next) := by
  cases out with
  | ok v => exact rest v fst
  | error panic => exact fst

theorem Finishes.map {out : Except BlockPanic α} {f : α → β} {post : β → Prop}
    (finishes : Finishes (fun v => post (f v)) out) : Finishes post (out.map f) := by
  cases out with
  | ok v | error panic => exact finishes

section

open BlockState

variable {sb : Superblock} {s : BlockState}

theorem FileOp.run_finishes (small : sb.size ≤ 2 ^ 32)
    (exact : s.Exact sb) (op : FileOp) (cover : s.Covered op.inum) : Finishes (fun out =>
    out.1 = (op.apply s.file).1 ∧ Becomes sb s out.2 (op.apply s.file).2) (op.run sb s) := by
  cases op with
  | writei ip off n source chunk =>
    apply Finishes.map
    apply Safe.finishes _ .writei
    apply (writei_content small exact cover).mono
    intro out h
    exact ⟨congrArg FileReply.wrote h.1, h.2⟩
  | readi ip off n =>
    have read : s.readi sb ip off n (fun _ _ => true) = _ := readi_content cover off n
    rw [run, read]
    exact ⟨rfl, exact, fun _ cover => ⟨cover, rfl⟩⟩
  | itrunc ip =>
    apply Finishes.map
    apply Safe.finishes _ .itrunc
    apply (itrunc_content exact cover.live).mono
    intro after becomes
    exact ⟨rfl, becomes⟩

theorem FileOp.runAll_finishes (small : sb.size ≤ 2 ^ 32)
    (exact : s.Exact sb) (ops : List FileOp) {known : Nat → Prop} {files : Nat → List UInt8}
    (mine : ∀ op ∈ ops, known op.inum) (agree : ∀ i, known i → s.Covered i ∧ s.file i = files i) :
    Finishes (fun out => out.1 = (applyAll ops files).1 ∧ out.2.Exact sb ∧ ∀ i,
    known i → out.2.Covered i ∧ out.2.file i = (applyAll ops files).2 i) (runAll sb ops s) := by
  induction ops generalizing s files with
  | nil => exact ⟨rfl, exact, agree⟩
  | cons op rest ih =>
    have here := agree _ (mine op List.mem_cons_self)
    have same := op.apply_congr here.2
    apply (op.run_finishes small exact here.1).bind
    intro out h
    rcases out with ⟨reply, mid⟩
    rcases h with ⟨isReply, exactMid, becomes⟩
    dsimp only at isReply exactMid becomes ⊢
    have agreeMid : ∀ i, known i → mid.Covered i ∧ mid.file i = (op.apply files).2 i := by
      intro i isKnown
      have old := agree i isKnown
      have after := becomes i old.1
      exact ⟨after.1, after.2.trans (same.2 i old.2)⟩
    apply (ih exactMid (fun later mem => mine later (List.mem_cons_of_mem _ mem)) agreeMid).bind
    intro out h
    rcases out with ⟨replies, last⟩
    rcases h with ⟨areReplies, exactLast, agreeLast⟩
    refine ⟨?_, exactLast, agreeLast⟩
    rw [applyAll]
    exact congrArg₂ List.cons (isReply.trans same.1) areReplies

def tinyDisk : Superblock :=
  { Mkfs.superblock with size := Mkfs.superblock.nmeta + 1, nblocks := 1 }

/-- One file takes the block, then another one is created. -/
def fillsDisk : List BlockOp := writesFile ++ [.ialloc ⟨.file, file_ne_free⟩]

/-- The end of a file is overwritten and read back. -/
def overwritesEnd : List FileOp := [.writei 1 4 2 (fun _ => 9) (by decide), .readi 1 3 9]

end

end Xv6
