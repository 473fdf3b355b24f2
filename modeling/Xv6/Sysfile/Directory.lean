import Mathlib.Data.List.Basic
import Xv6.Param

/-! # Paths, directories and inodes

What the pathname and directory code of `fs.c` computes: how a path splits into
elements, and how the entries of a directory are searched and filled. An inode
carries the entries of a directory as a list of slots; the data of other files
is not looked at here. -/

namespace Xv6

open List

/-- Root i-number. -/
def rootIno : Nat := 1

/-- Bytes in the name of a directory entry. -/
def dirSiz : Nat := 14

/-- The number of an inode on the one disk. -/
abbrev Inum := Nat

/-- A file name: its bytes up to a zero byte. -/
abbrev Name := List UInt8

def dot : Name := [46]

def dotdot : Name := [46, 46]

/-- `namecmp(s, t) == 0`. -/
def namecmp (s t : Name) : Bool := s.take dirSiz == t.take dirSiz

/-! ## Paths -/

/-- The bytes of a path, without the closing zero. -/
abbrev Path := List UInt8

def slash : UInt8 := 47

/-- The next element of a path, cut to `DIRSIZ` bytes, and the path after it. -/
def skipelem (path : Path) : Option (Name × Path) :=
  match path.dropWhile (· == slash) with
  | [] => none
  | byte :: bytes =>
    some (((byte :: bytes).takeWhile (· != slash)).take dirSiz,
      ((byte :: bytes).dropWhile (· != slash)).dropWhile (· == slash))

def elementsWithin : Nat → Path → List Name
  | 0, _ => []
  | fuel + 1, path =>
    match skipelem path with
    | none => []
    | some (name, rest) => name :: elementsWithin fuel rest

/-- The elements that calling `skipelem` until it returns 0 gives. -/
def elements (path : Path) : List Name := elementsWithin path.length path

variable {name : Name}

theorem skipelem_length {path rest : Path}
    (hit : skipelem path = some (name, rest)) : rest.length < path.length := by
  rw [skipelem] at hit
  cases stripped : path.dropWhile (· == slash) with
  | nil => simp [stripped] at hit
  | cons byte bytes =>
    rw [stripped] at hit
    simp only [Option.some.injEq, Prod.mk.injEq] at hit
    have notSlash : (byte != slash) = true := by
      have fst := head?_dropWhile_not (· == slash) path
      rw [stripped] at fst
      simpa using fst
    have shorter : (byte :: bytes).length ≤ path.length := by
      rw [← stripped]
      exact (dropWhile_suffix _).length_le
    have consumed : ((byte :: bytes).dropWhile (· != slash)).length ≤ bytes.length := by
      rw [dropWhile_cons, if_pos notSlash]
      exact (dropWhile_suffix _).length_le
    have trimmed : rest.length ≤ ((byte :: bytes).dropWhile (· != slash)).length := by
      rw [← hit.2]
      exact (dropWhile_suffix _).length_le
    simp only [length_cons] at shorter
    omega

theorem elementsWithin_of_le {fuel : Nat} {path : Path}
    (enough : path.length ≤ fuel) : elementsWithin fuel path = elements path := by
  induction fuel using Nat.strongRecOn generalizing path with
  | ind fuel ih =>
    cases fuel with
    | zero =>
      have empty : path = [] := eq_nil_of_length_eq_zero (by omega)
      subst empty
      rfl
    | succ fuel =>
      cases size : path.length with
      | zero =>
        have empty : path = [] := eq_nil_of_length_eq_zero size
        subst empty
        rfl
      | succ length =>
        rw [elements, size, elementsWithin, elementsWithin]
        cases found : skipelem path with
        | none => rfl
        | some out =>
          rcases out with ⟨name, rest⟩
          have shorter := skipelem_length found
          simp only
          rw [ih fuel (by omega) (by omega), ih length (by omega) (by omega)]

theorem elements_eq (path : Path) : elements path = match skipelem path with
      | none => []
      | some (name, rest) => name :: elements rest := by
  cases size : path.length with
  | zero =>
    have empty : path = [] := eq_nil_of_length_eq_zero size
    subst empty
    rfl
  | succ length =>
    rw [elements, size, elementsWithin]
    cases found : skipelem path with
    | none => rfl
    | some out =>
      have shorter := skipelem_length found
      simp only
      rw [elementsWithin_of_le (by omega)]

/-! ## Directories -/

/-- `struct dirent`. An entry with inode number 0 is empty. -/
structure Dirent where
  inum : Inum
  name : Name
deriving DecidableEq, Repr

/-- What `memset(&de, 0, sizeof(de))` leaves. -/
def Dirent.empty : Dirent := ⟨0, []⟩

/-- The entry that `dirlink` writes: the number cut to 16 bits, the name to
`DIRSIZ` bytes. -/
def Dirent.make (name : Name) (inum : Inum) : Dirent :=
  ⟨inum % 2 ^ 16, name.take dirSiz⟩

theorem namecmp_make (name o : Name) (inum : Inum) :
    namecmp (Dirent.make name inum).name o = namecmp name o := by
  rw [namecmp, namecmp, Dirent.make, take_take, min_self]

/-- The type of an inode on disk; an inode of type 0 is free. -/
inductive InodeType
  | free
  | dir
  | file
  | device
deriving DecidableEq, Repr

variable {slot : Nat}

/-- Reading a list after an element was written at an index of it or at its end. -/
theorem getElem?_setOrAppend {α : Type} {list : List α}
    (isIn : slot ≤ list.length) (v : α) (ix : Nat) :
    (if slot < list.length then list.set slot v else list ++ [v])[ix]? =
    if ix = slot then some v else list[ix]? := by
  by_cases short : slot < list.length
  · simp only [if_pos short, getElem?_set]
    by_cases same : ix = slot
    · simp [same]
    · rw [if_neg (Ne.symm same), if_neg same]
  · have atEnd : slot = list.length := by omega
    subst atEnd
    rw [if_neg (by omega)]
    rcases Nat.lt_trichotomy ix list.length with old | same | after
    · rw [getElem?_append_left old, if_neg (by omega)]
    · subst same
      simp
    · rw [getElem?_eq_none (by simp; omega), if_neg (by omega), getElem?_eq_none (by omega)]

/-- The fields of an inode that live on disk, with the slots of a directory's
content in the place of its size and block addresses. -/
structure Dinode where
  type : InodeType
  major : BitVec 16
  nlink : BitVec 16
  entries : List Dirent
deriving DecidableEq, Repr

/-- The most entries that `MAXFILE` blocks hold. -/
def maxEntries : Nat := (12 + bSize / 4) * (bSize / 16)

namespace Dinode

/-- What `ialloc` leaves of a free inode. -/
def blank (type : InodeType) : Dinode := ⟨type, 0, 0, []⟩

/-- The first entry with this name, and its slot. -/
def lookup (dinode : Dinode) (name : Name) : Option (Inum × Nat) :=
  (dinode.entries.zipIdx.find? fun slot =>
    slot.1.inum != 0 && namecmp name slot.1.name).map fun slot => (slot.1.inum, slot.2)

/-- The slot that `dirlink` writes: the first empty one, or one past the end. -/
def emptySlot (dinode : Dinode) : Nat :=
  dinode.entries.findIdx fun entry => entry.inum == 0

/-- Is the directory empty except for `.` and `..`? -/
def isdirempty (dinode : Dinode) : Bool :=
  (dinode.entries.drop 2).all fun entry => entry.inum == 0

/-- The content after an entry was written at a slot of it or at its end. -/
def setEntry (dinode : Dinode) (slot : Nat) (entry : Dirent) : Dinode :=
  { dinode with
    entries :=
      if slot < dinode.entries.length then dinode.entries.set slot entry
      else dinode.entries ++ [entry] }

variable {dinode : Dinode} {inum : Inum}

theorem lookup_eq_some (hit : dinode.lookup name = some (inum, slot)) :
    ∃ entry, dinode.entries[slot]? = some entry ∧
    entry.inum = inum ∧ inum ≠ 0 ∧ namecmp name entry.name = true := by
  rw [lookup, Option.map_eq_some_iff] at hit
  rcases hit with ⟨⟨entry, ix⟩, search, eq⟩
  simp only [Prod.mk.injEq] at eq
  rcases eq with ⟨rfl, rfl⟩
  have h := find?_some search
  simp only [Bool.and_eq_true, bne_iff_ne, ne_eq] at h
  have mem := mem_of_find?_eq_some search
  exact ⟨entry, mem_zipIdx_iff_getElem?.mp mem, rfl, h.1, h.2⟩

theorem emptySlot_spec {entry : Dirent}
    (has : dinode.entries[dinode.emptySlot]? = some entry) : entry.inum = 0 := by
  rcases List.getElem?_eq_some_iff.mp has with ⟨isIn, eq⟩
  have h := @findIdx_getElem _ (fun entry : Dirent => entry.inum == 0) dinode.entries isIn
  rw [← eq]
  exact eq_of_beq h

theorem isdirempty_iff (dinode : Dinode) : dinode.isdirempty = true ↔
    ∀ slot entry, 2 ≤ slot → dinode.entries[slot]? = some entry → entry.inum = 0 := by
  rw [isdirempty, all_eq_true]
  constructor
  · intro h slot entry beyond has
    have mem : entry ∈ dinode.entries.drop 2 := by
      apply mem_of_getElem? (i := slot - 2)
      rw [getElem?_drop]
      rwa [show 2 + (slot - 2) = slot by omega]
    exact eq_of_beq (h entry mem)
  · intro h entry mem
    rcases getElem?_of_mem mem with ⟨ix, has⟩
    rw [getElem?_drop] at has
    exact beq_iff_eq.mpr (h _ entry (by omega) has)

theorem getElem?_setEntry (isIn : slot ≤ dinode.entries.length) (entry : Dirent) (ix : Nat) :
    (dinode.setEntry slot entry).entries[ix]? =
      if ix = slot then some entry else dinode.entries[ix]? := getElem?_setOrAppend isIn entry ix

/-! ### What a directory names -/

/-- How many entries other than `.` and `..` name an inode. -/
def names (dinode : Dinode) (inum : Inum) : Nat :=
  (dinode.entries.drop 2).countP fun entry => entry.inum == inum

/-- The inode that `..` names. -/
def parent? (dinode : Dinode) : Option Inum :=
  dinode.entries[1]?.map Dirent.inum

theorem names_pos_iff (dinode : Dinode) (inum : Inum) : 0 < dinode.names inum ↔
    ∃ slot entry, 2 ≤ slot ∧ dinode.entries[slot]? = some entry ∧ entry.inum = inum := by
  rw [names, countP_pos_iff]
  constructor
  · intro hit
    rcases hit with ⟨entry, mem, eq⟩
    rcases getElem?_of_mem mem with ⟨ix, has⟩
    rw [getElem?_drop] at has
    exact ⟨2 + ix, entry, by omega, has, eq_of_beq eq⟩
  · rintro ⟨slot, entry, beyond, has, eq⟩
    refine ⟨entry, ?_, beq_iff_eq.mpr eq⟩
    apply mem_of_getElem? (i := slot - 2)
    rw [getElem?_drop]
    rwa [show 2 + (slot - 2) = slot by omega]

theorem names_of_isdirempty (empty : dinode.isdirempty = true)
    (ne : inum ≠ 0) : dinode.names inum = 0 := by
  by_contra named
  rcases (dinode.names_pos_iff inum).mp (Nat.pos_of_ne_zero named) with
    ⟨slot, entry, beyond, has, eq⟩
  exact ne (eq ▸ dinode.isdirempty_iff.mp empty slot entry beyond has)

theorem names_setEntry (beyond : 2 ≤ slot)
    (isIn : slot ≤ dinode.entries.length) (entry : Dirent) (inum : Inum) :
    (dinode.setEntry slot entry).names inum +
        (if dinode.entries[slot]?.map Dirent.inum = some inum then 1 else 0) =
      dinode.names inum + if entry.inum = inum then 1 else 0 := by
  rw [setEntry, names, names]
  by_cases short : slot < dinode.entries.length
  · have bound : slot - 2 < (dinode.entries.drop 2).length := by
      rw [length_drop]
      omega
    have has : (dinode.entries.drop 2)[slot - 2] = dinode.entries[slot] := by
      rw [getElem_drop]
      congr 1
      omega
    have atMost : (if (dinode.entries[slot].inum == inum) = true then 1 else 0) ≤
        (dinode.entries.drop 2).countP fun entry => entry.inum == inum := by
      split
      · next h =>
        apply countP_pos_iff.mpr
        exact ⟨_, getElem_mem bound, by rw [has]; exact h⟩
      · exact Nat.zero_le _
    simp only [if_pos short]
    rw [drop_set, if_neg (by omega), countP_set bound, has]
    rw [getElem?_eq_getElem short]
    simp only [beq_iff_eq, Option.map_some, Option.some.injEq] at atMost ⊢
    omega
  · have atEnd : slot = dinode.entries.length := by omega
    subst atEnd
    simp only [if_neg short]
    rw [drop_append_of_le_length beyond, countP_append]
    simp [countP_singleton]

theorem parent?_setEntry (beyond : 2 ≤ slot) (isIn : slot ≤ dinode.entries.length)
    (entry : Dirent) : (dinode.setEntry slot entry).parent? = dinode.parent? := by
  rw [parent?, parent?, getElem?_setEntry isIn, if_neg (by omega)]

/-! ### Directories with both dots -/

/-- The first two slots of a directory are `.` and `..`. -/
def Formed (inum : Inum) (dinode : Dinode) : Prop :=
  dinode.entries[0]? = some ⟨inum, dot⟩ ∧
    ∃ parent, parent ≠ 0 ∧ dinode.entries[1]? = some ⟨parent, dotdot⟩

section

variable (formed : Formed inum dinode)
include formed

theorem Formed.setEntry (beyond : 2 ≤ slot) (isIn : slot ≤ dinode.entries.length)
    (entry : Dirent) : Formed inum (dinode.setEntry slot entry) := by
  rwa [Formed, getElem?_setEntry isIn, getElem?_setEntry isIn, if_neg (by omega), if_neg (by omega)]

theorem Formed.two_le_emptySlot (ne : inum ≠ 0) : 2 ≤ dinode.emptySlot := by
  rcases formed with ⟨fst, par, parNonzero, snd⟩
  by_contra small
  have cases : dinode.emptySlot = 0 ∨ dinode.emptySlot = 1 := by omega
  rcases cases with eq | eq
  · exact ne (emptySlot_spec (eq ▸ fst))
  · exact parNonzero (emptySlot_spec (eq ▸ snd))

theorem Formed.namecmp_of_missing (ne0 : inum ≠ 0) (lost : dinode.lookup name = none)
    (target : Inum) : namecmp (Dirent.make name target).name dot = false := by
  rw [lookup, Option.map_eq_none_iff, find?_eq_none] at lost
  have mem : ((⟨inum, dot⟩ : Dirent), 0) ∈ dinode.entries.zipIdx :=
    mem_zipIdx_iff_getElem?.mpr formed.1
  have ne := lost _ mem
  rw [namecmp_make]
  simpa [ne0] using ne

theorem Formed.two_le_of_lookup (notDot : namecmp name dot = false)
    (notDotdot : namecmp name dotdot = false) {hit : Inum}
    (lookedUp : dinode.lookup name = some (hit, slot)) : 2 ≤ slot := by
  rcases lookup_eq_some lookedUp with ⟨entry, has, _, _, matched⟩
  rcases formed with ⟨fst, par, _, snd⟩
  by_contra small
  have cases : slot = 0 ∨ slot = 1 := by omega
  rcases cases with eq | eq
  · subst eq
    rw [fst, Option.some.injEq] at has
    subst has
    exact Bool.noConfusion (notDot.symm.trans matched)
  · subst eq
    rw [snd, Option.some.injEq] at has
    subst has
    exact Bool.noConfusion (notDotdot.symm.trans matched)

end

end Dinode

end Xv6
