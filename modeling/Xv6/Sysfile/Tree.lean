import Mathlib.Algebra.BigOperators.Group.Finset.Basic
import Mathlib.Algebra.Order.BigOperators.Group.Finset
import Xv6.Foundation.Tally
import Xv6.Sysfile.Directory

/-! # The directory tree and its link counts

What the inodes on disk look like between two steps of the processes that
change them: which inodes the entries of directories name, how the `..` of a
directory agrees with the entry that names the directory, and how link counts
compare with names. Calls change entries and counts one at a time, so what they
have begun and not finished is part of the comparison. -/

open scoped BigOperators

namespace Xv6

open Foundation Function Dinode Dirent Finset

/-! ## Counting names -/

/-- How many entries other than `.` and `..` name an inode. -/
def nameCount (ninodes : Nat) (disk : Inum → Dinode) (inum : Inum) : Nat :=
  ∑ dir ∈ Finset.range ninodes, (disk dir).names inum

/-- How many directories that have not been removed have an inode as their
parent. -/
def upCount (ninodes : Nat) (disk : Inum → Dinode) (removed : Inum → Bool)
    (inum : Inum) : Nat :=
  ∑ dir ∈ Finset.range ninodes,
    if removed dir = false ∧ (disk dir).parent? = some inum then 1 else 0

section

variable {ninodes : Nat} {disk : Inum → Dinode} {removed : Inum → Bool} {dir : Inum}

variable (disk) in
theorem nameCount_update (isIn : dir < ninodes)
    (dinode : Dinode) (inum : Inum) : nameCount ninodes (update disk dir dinode)
    inum + (disk dir).names inum = nameCount ninodes disk inum + dinode.names inum := by
  have changed := sum_range_change (fun d => (disk d).names inum)
    (fun d => (update disk dir dinode d).names inum) isIn
    (by
      intro o ne
      simp [ne])
  simpa [nameCount] using changed

theorem nameCount_congr {later : Inum → Dinode}
    (same : ∀ dir, (later dir).entries = (disk dir).entries) :
    nameCount ninodes later = nameCount ninodes disk := by
  funext inum
  simp [nameCount, names, same]

variable (disk removed) in
theorem upCount_change (later : Inum → Dinode) (laterGone : Inum → Bool) (isIn : dir < ninodes)
    (samePar : ∀ o, o ≠ dir → (later o).parent? = (disk o).parent?)
    (sameGone : ∀ o, o ≠ dir → laterGone o = removed o) (inum : Inum) :
    upCount ninodes later laterGone inum +
        (if removed dir = false ∧ (disk dir).parent? = some inum then 1 else 0) =
      upCount ninodes disk removed inum +
        if laterGone dir = false ∧ (later dir).parent? = some inum then 1 else 0 := by
  have changed := sum_range_change
    (fun d => if removed d = false ∧ (disk d).parent? = some inum then 1 else 0)
    (fun d => if laterGone d = false ∧ (later d).parent? = some inum then 1 else 0)
    isIn
    (by
      intro o ne
      simp only [samePar o ne, sameGone o ne])
  exact changed

theorem upCount_congr {later : Inum → Dinode}
    (same : ∀ dir, (later dir).parent? = (disk dir).parent?) :
    upCount ninodes later removed = upCount ninodes disk removed := by
  funext inum
  simp [upCount, same]

variable (disk) in
theorem names_le_nameCount (isIn : dir < ninodes) (inum : Inum) :
    (disk dir).names inum ≤ nameCount ninodes disk inum :=
  single_le_sum (f := fun d => (disk d).names inum) (fun _ _ => Nat.zero_le _) (mem_range.mpr isIn)

theorem upCount_pos (isIn : dir < ninodes) (stays : removed dir = false) {inum : Inum}
    (par : (disk dir).parent? = some inum) : 0 < upCount ninodes disk removed inum := by
  have counted := single_le_sum
    (f := fun d => if removed d = false ∧ (disk d).parent? = some inum then 1 else 0)
    (fun _ _ => Nat.zero_le _) (mem_range.mpr isIn)
  rwa [if_pos ⟨stays, par⟩] at counted

end

/-! ## The tree -/

/-- What the calls in progress have begun and not finished. `pending` counts the
links that no entry stands for, `nameless` is 1 for a directory that has no name
yet or no longer, `unformed` for an inode that is being made. `leaked` counts the
links whose entries went away with a directory that was freed. -/
structure Debts where
  pending : Inum → Nat
  nameless : Inum → Nat
  unformed : Inum → Nat
  leaked : Inum → Nat

structure Tree (ninodes : Nat) (disk : Inum → Dinode) (removed : Inum → Bool)
    (debts : Debts) : Prop where
  range : ∀ i : Nat, (disk i).type ≠ .free → 0 < i ∧ i < ninodes
  contents : ∀ i, (disk i).type ≠ .dir → (disk i).entries = []
  formed : ∀ i, (disk i).type = .dir → debts.unformed i = 0 → (disk i).Formed i
  self : ∀ i (entry : Dirent), (disk i).entries[0]? = some entry → entry.inum = i
  named : ∀ i (slot : Nat) (entry : Dirent), (disk i).entries[slot]? = some entry → entry.inum ≠ 0 →
    (disk entry.inum).type ≠ .free
  subdir : ∀ i (slot : Nat) (entry : Dirent), 2 ≤ slot → (disk i).entries[slot]? = some entry →
    (disk entry.inum).type = .dir →
    (disk entry.inum).parent? = some i ∧ removed entry.inum = false
  once : ∀ i, (disk i).type = .dir → nameCount ninodes disk i + debts.nameless i ≤ 1
  root : (disk rootIno).type = .dir ∧ (disk rootIno).parent? = some rootIno ∧
    removed rootIno = false
  rootName : nameCount ninodes disk rootIno = 0 ∧ debts.nameless rootIno = 0 ∧
    debts.unformed rootIno = 0
  links : ∀ i, (disk i).type ≠ .free →
    nameCount ninodes disk i + upCount ninodes disk removed i + debts.pending i +
      debts.leaked i = (disk i).nlink.toNat
  young : ∀ i, 0 < debts.unformed i → removed i = false
  hidden : ∀ i (slot : Nat) (entry : Dirent), (disk i).entries[slot]? = some entry →
    entry.inum ≠ 0 → entry.inum ≠ i → debts.unformed entry.inum = 0
  plain : ∀ i (slot : Nat) (entry : Dirent), 0 < slot →
    (disk i).entries[slot]? = some entry → entry.inum ≠ 0 → namecmp entry.name dot = false

namespace Tree

variable {ninodes : Nat} {disk : Inum → Dinode} {removed : Inum → Bool} {debts later : Debts}
  {i : Inum} {dinode : Dinode}

variable (disk) in
theorem update_same {α : Type} (field : Dinode → α) (same : field dinode = field (disk i))
    (j : Inum) : field (update disk i dinode j) = field (disk j) := by
  by_cases eq : j = i
  · subst eq
    rw [update_self, same]
  · rw [update_of_ne eq]

variable {entry : Dirent}

section

variable (tree : Tree ninodes disk removed debts)
include tree

theorem nameCount_pos {i slot : Nat} (beyond : 2 ≤ slot)
    (has : (disk i).entries[slot]? = some entry) : 0 < nameCount ninodes disk entry.inum := by
  have isDir : (disk i).type = .dir := by
    by_contra notDir
    rw [tree.contents i notDir] at has
    simp at has
  have isIn := (tree.range i (by simp [isDir])).2
  have counted := names_le_nameCount disk isIn entry.inum
  have pos := ((disk i).names_pos_iff entry.inum).mpr ⟨slot, entry, beyond, has, rfl⟩
  omega

theorem nameCount_of_removed (isDir : (disk i).type = .dir) (gone : removed i = true) :
    nameCount ninodes disk i = 0 := by
  rw [nameCount, sum_eq_zero]
  intro dir _
  by_contra named
  rcases ((disk dir).names_pos_iff i).mp (Nat.pos_of_ne_zero named) with
    ⟨slot, entry, beyond, has, eq⟩
  have stays := (tree.subdir dir slot entry beyond has (eq ▸ isDir)).2
  rw [eq, gone] at stays
  simp at stays

theorem root_linked : 0 < (disk rootIno).nlink.toNat := by
  rcases tree.root with ⟨isDir, par, stays⟩
  have alive : (disk rootIno).type ≠ .free := by simp [isDir]
  have linked := tree.links rootIno alive
  have up := upCount_pos (tree.range rootIno alive).2 stays par
  omega

theorem setNlink
    (sameType : dinode.type = (disk i).type) (sameEnts : dinode.entries = (disk i).entries)
    (moved : later.pending i + (disk i).nlink.toNat = debts.pending i + dinode.nlink.toNat)
    (pendElse : ∀ j, j ≠ i → later.pending j = debts.pending j)
    (nameless : later.nameless = debts.nameless) (unformed : later.unformed = debts.unformed)
    (leaked : later.leaked = debts.leaked) : Tree ninodes (update disk i dinode) removed later := by
  have types := update_same disk type sameType
  have entries := update_same disk Dinode.entries sameEnts
  have pars : ∀ j, (update disk i dinode j).parent? = (disk j).parent? := by
    intro j
    simp [parent?, entries]
  have names : nameCount ninodes _ = nameCount ninodes disk := nameCount_congr entries
  have ups : upCount ninodes _ removed = upCount ninodes disk removed := upCount_congr pars
  constructor
  case links =>
    intro j alive
    rw [types] at alive
    have old := tree.links j alive
    rw [names, ups, leaked]
    by_cases same : j = i
    · subst same
      rw [update_self]
      omega
    · rwa [pendElse j same, update_of_ne same]
  all_goals
    simp only [Dinode.Formed, types, entries, pars, names, nameless, unformed]
  case range => exact tree.range
  case contents => exact tree.contents
  case formed => exact tree.formed
  case self => exact tree.self
  case named => exact tree.named
  case subdir => exact tree.subdir
  case once => exact tree.once
  case root => exact tree.root
  case rootName => exact tree.rootName
  case young => exact tree.young
  case hidden => exact tree.hidden
  case plain => exact tree.plain

theorem initInode {type : InodeType} (blank : disk i = .blank type)
    (alive : type ≠ .free) (sameType : dinode.type = type)
    (empty : dinode.entries = []) (one : dinode.nlink = 1)
    (pending : ∀ j, later.pending j = debts.pending j + if j = i then 1 else 0)
    (namelessHere : later.nameless i ≤ 1)
    (namelessElse : ∀ j, j ≠ i → later.nameless j = debts.nameless j)
    (unformedLe : ∀ j, later.unformed j ≤ debts.unformed j)
    (unformedElse : ∀ j, j ≠ i ∨ type = .dir → later.unformed j = debts.unformed j)
    (leaked : later.leaked = debts.leaked) : Tree ninodes (update disk i dinode) removed later := by
  have types := update_same disk Dinode.type (by rw [sameType, blank]; rfl)
  have entries := update_same disk Dinode.entries (by rw [empty, blank]; rfl)
  have pars : ∀ j, (update disk i dinode j).parent? = (disk j).parent? := by
    intro j
    simp [parent?, entries]
  have names : nameCount ninodes _ = nameCount ninodes disk := nameCount_congr entries
  have ups : upCount ninodes _ removed = upCount ninodes disk removed := upCount_congr pars
  have cut : nameCount ninodes disk i + upCount ninodes disk removed i +
      debts.pending i + debts.leaked i = 0 := by
    rw [tree.links i (by rw [blank]; exact alive), blank]
    rfl
  have notRoot : i ≠ rootIno := by
    intro eq
    have par := tree.root.2.1
    rw [← eq, blank] at par
    simp [parent?, Dinode.blank] at par
  constructor
  case formed =>
    intro j isDir formed
    rw [types] at isDir
    have same : later.unformed j = debts.unformed j := by
      apply unformedElse
      by_cases here : j = i
      · right
        rwa [here, blank] at isDir
      · exact .inl here
    have old := tree.formed j isDir (same ▸ formed)
    simpa only [Dinode.Formed, entries] using old
  case once =>
    intro j isDir
    rw [types] at isDir
    have old := tree.once j isDir
    rw [names]
    by_cases here : j = i
    · subst here
      omega
    · rwa [namelessElse j here]
  case rootName =>
    rw [names, namelessElse rootIno notRoot.symm, unformedElse rootIno (.inl notRoot.symm)]
    exact tree.rootName
  case links =>
    intro j alive
    rw [types] at alive
    have old := tree.links j alive
    rw [names, ups, leaked, pending]
    by_cases here : j = i
    · subst here
      rw [update_self, one, if_pos rfl]
      change _ = 1
      omega
    · rwa [if_neg here, update_of_ne here]
  case young =>
    intro j unformed
    have bound := unformedLe j
    exact tree.young j (by omega)
  case hidden =>
    intro j ix hit h ne o
    rw [entries] at h
    have old := tree.hidden j ix hit h ne o
    have bound := unformedLe hit.inum
    omega
  all_goals simp only [types, entries, pars]
  case range => exact tree.range
  case contents => exact tree.contents
  case self => exact tree.self
  case named => exact tree.named
  case subdir => exact tree.subdir
  case root => exact tree.root
  case plain => exact tree.plain

theorem setEntry {dp slot : Nat} (onDisk : disk dp = dinode)
    (isDir : dinode.type = .dir) (beyond : 2 ≤ slot) (isIn : slot ≤ dinode.entries.length)
    (notDot : entry.inum ≠ 0 → namecmp entry.name dot = false)
    (target : entry.inum ≠ 0 → (disk entry.inum).type ≠ .free)
    (targetFormed : entry.inum ≠ 0 → debts.unformed entry.inum = 0)
    (child : (disk entry.inum).type = .dir →
      (disk entry.inum).parent? = some dp ∧ removed entry.inum = false)
    (notRoot : entry.inum ≠ rootIno)
    (pending : ∀ j, j ≠ 0 → later.pending j + (if entry.inum = j then 1 else 0) = debts.pending j +
        if dinode.entries[slot]?.map inum = some j then 1 else 0)
    (nameless : ∀ j, (disk j).type = .dir → later.nameless j + (if entry.inum = j then 1 else 0) ≤
        debts.nameless j + if dinode.entries[slot]?.map inum = some j then 1 else 0)
    (unformed : later.unformed = debts.unformed) (leaked : later.leaked = debts.leaked) :
    Tree ninodes (update disk dp (dinode.setEntry slot entry)) removed later := by
  subst onDisk
  let disk' := update disk dp ((disk dp).setEntry slot entry)
  change Tree ninodes disk' removed later
  have types : ∀ j, (disk' j).type = (disk j).type := update_same disk type rfl
  have nlinks : ∀ j, (disk' j).nlink = (disk j).nlink := update_same disk nlink rfl
  have pars : ∀ j, (disk' j).parent? = (disk j).parent? :=
    update_same disk parent? (parent?_setEntry beyond isIn entry)
  have ups : upCount ninodes disk' removed = upCount ninodes disk removed := upCount_congr pars
  have names : ∀ j, nameCount ninodes disk' j +
        (if (disk dp).entries[slot]?.map inum = some j then 1 else 0) =
      nameCount ninodes disk j + if entry.inum = j then 1 else 0 := by
    intro j
    have changed := nameCount_update disk
      (tree.range dp (by simp [isDir])).2 ((disk dp).setEntry slot entry) j
    have here := names_setEntry beyond isIn entry j
    change nameCount ninodes disk' j + _ = _ at changed
    omega
  have has : ∀ {j ix : Nat} {found : Dirent}, (disk' j).entries[ix]? = some found →
      (j = dp ∧ ix = slot ∧ found = entry) ∨ (disk j).entries[ix]? = some found := by
    intro j ix found h
    by_cases here : j = dp
    · subst here
      simp only [disk', update_self, getElem?_setEntry isIn] at h
      split at h
      · next same =>
        exact .inl ⟨rfl, same, (Option.some.inj h).symm⟩
      · exact .inr h
    · simp only [disk', update_of_ne here] at h
      exact .inr h
  constructor
  case range =>
    simp only [types]
    exact tree.range
  case contents =>
    intro j notDir
    rw [types] at notDir
    have o : j ≠ dp := by
      intro eq
      exact notDir (eq ▸ isDir)
    simp only [disk', update_of_ne o]
    exact tree.contents j notDir
  case formed =>
    intro j jDir formed
    rw [types] at jDir
    rw [unformed] at formed
    have old := tree.formed j jDir formed
    by_cases here : j = dp
    · subst here
      simp only [disk', update_self]
      exact old.setEntry beyond isIn entry
    · simpa only [disk', update_of_ne here] using old
  case self =>
    intro j found h
    rcases has h with ⟨_, zero, _⟩ | old
    · omega
    · exact tree.self j found old
  case named =>
    intro j ix found h ne
    rw [types]
    rcases has h with ⟨_, _, eq⟩ | old
    · subst eq
      exact target ne
    · exact tree.named j ix found old ne
  case subdir =>
    intro j ix found far h childDir
    rw [types] at childDir
    rw [pars]
    rcases has h with ⟨atDp, _, eq⟩ | old
    · subst eq atDp
      exact child childDir
    · exact tree.subdir j ix found far old childDir
  case once =>
    intro j jDir
    rw [types] at jDir
    have old := tree.once j jDir
    have counted := names j
    have ok := nameless j jDir
    omega
  case root =>
    rw [types, pars]
    exact tree.root
  case rootName =>
    have old := tree.rootName
    have counted := names rootIno
    have ok := nameless rootIno tree.root.1
    rw [if_neg notRoot] at counted ok
    have unnamed : ¬ (disk dp).entries[slot]?.map inum = some rootIno := by
      intro h
      rcases Option.map_eq_some_iff.mp h with ⟨found, atSlot, isRoot⟩
      have pos := tree.nameCount_pos beyond atSlot
      rw [isRoot] at pos
      omega
    rw [if_neg unnamed] at counted ok
    rw [unformed]
    omega
  case links =>
    intro j alive
    rw [types] at alive
    rw [nlinks, ups, leaked]
    have ne := (tree.range j alive).1
    have old := tree.links j alive
    have counted := names j
    have balanced := pending j (ne_of_gt ne)
    omega
  case young =>
    rw [unformed]
    exact tree.young
  case hidden =>
    intro j ix found h ne o
    rw [unformed]
    rcases has h with ⟨_, _, eq⟩ | old
    · subst eq
      exact targetFormed ne
    · exact tree.hidden j ix found old ne o
  case plain =>
    intro j ix found far h ne
    rcases has h with ⟨_, _, eq⟩ | old
    · subst eq
      exact notDot ne
    · exact tree.plain j ix found far old ne

theorem removeChild {dp ip : Inum} (sameType : dinode.type = (disk dp).type) (sameEnts :
    dinode.entries = (disk dp).entries) (less : dinode.nlink.toNat + 1 = (disk dp).nlink.toNat)
    (isDir : (disk ip).type = .dir) (par : (disk ip).parent? = some dp) (stays : removed ip = false)
    (isNameless : debts.nameless ip = 1) (isFormed : debts.unformed ip = 0)
    (pending : later.pending = debts.pending) (nameless : ∀ j, later.nameless j ≤ debts.nameless j)
    (unformed : later.unformed = debts.unformed) (leaked : later.leaked = debts.leaked) :
    Tree ninodes (update disk dp dinode) (update removed ip true) later := by
  have types := update_same disk type sameType
  have entries := update_same disk Dinode.entries sameEnts
  have pars : ∀ j, (update disk dp dinode j).parent? = (disk j).parent? := by
    intro j
    simp [parent?, entries]
  have names : nameCount ninodes _ = nameCount ninodes disk := nameCount_congr entries
  have ups : ∀ j, upCount ninodes (update disk dp dinode)
        (update removed ip true) j + (if dp = j then 1 else 0) =
      upCount ninodes disk removed j := by
    intro j
    have changed := upCount_change disk removed (update disk dp dinode) (update removed ip true)
      (tree.range ip (by simp [isDir])).2 (fun o _ => pars o)
      (fun o ne => update_of_ne ne _ _) j
    simpa [stays, par] using changed
  have unnamed : nameCount ninodes disk ip = 0 := by
    have bound := tree.once ip isDir
    omega
  have notRoot : rootIno ≠ ip := by
    intro eq
    have none := tree.rootName.2.1
    rw [eq] at none
    omega
  constructor
  case subdir =>
    intro j ix hit far h childDir
    rw [entries] at h
    rw [types] at childDir
    rw [pars]
    have old := tree.subdir j ix hit far h childDir
    have o : hit.inum ≠ ip := by
      intro eq
      have pos := tree.nameCount_pos far h
      rw [eq] at pos
      omega
    rwa [update_of_ne o]
  case once =>
    intro j jDir
    rw [types] at jDir
    have old := tree.once j jDir
    have bound := nameless j
    rw [names]
    omega
  case root =>
    rw [types, pars, update_of_ne notRoot]
    exact tree.root
  case rootName =>
    have old := tree.rootName
    have bound := nameless rootIno
    rw [names, unformed]
    omega
  case links =>
    intro j alive
    rw [types] at alive
    have old := tree.links j alive
    have counted := ups j
    rw [names, pending, leaked]
    by_cases here : j = dp
    · subst here
      rw [update_self]
      rw [if_pos rfl] at counted
      omega
    · rw [update_of_ne here]
      rw [if_neg (Ne.symm here)] at counted
      omega
  case young =>
    intro j growing
    rw [unformed] at growing
    have o : j ≠ ip := by
      intro eq
      rw [eq] at growing
      omega
    rw [update_of_ne o]
    exact tree.young j growing
  all_goals simp only [Dinode.Formed, types, entries, unformed]
  case hidden => exact tree.hidden
  case range => exact tree.range
  case contents => exact tree.contents
  case formed => exact tree.formed
  case self => exact tree.self
  case named => exact tree.named
  case plain => exact tree.plain

theorem writeDot (onDisk : disk i = dinode) (isDir : dinode.type = .dir)
    (empty : dinode.entries = []) (growing : 0 < debts.unformed i) (isSelf : entry.inum = i) :
    Tree ninodes (update disk i (dinode.setEntry 0 entry)) removed debts := by
  subst onDisk
  let disk' := update disk i ((disk i).setEntry 0 entry)
  change Tree ninodes disk' removed debts
  have types : ∀ j, (disk' j).type = (disk j).type := update_same disk Dinode.type rfl
  have nlinks : ∀ j, (disk' j).nlink = (disk j).nlink := update_same disk Dinode.nlink rfl
  have pars : ∀ j, (disk' j).parent? = (disk j).parent? :=
    update_same disk Dinode.parent? (by simp [Dinode.parent?, Dinode.setEntry, empty])
  have ups : upCount ninodes disk' removed = upCount ninodes disk removed := upCount_congr pars
  have names : nameCount ninodes disk' = nameCount ninodes disk := by
    funext j
    have same : ∀ dir, (disk' dir).names j = (disk dir).names j :=
      update_same disk (Dinode.names · j) (by simp [Dinode.names, Dinode.setEntry, empty])
    simp [nameCount, same]
  have has : ∀ {j ix : Nat} {found : Dirent}, (disk' j).entries[ix]? = some found →
      (j = i ∧ ix = 0 ∧ found = entry) ∨ (disk j).entries[ix]? = some found := by
    intro j ix found h
    by_cases here : j = i
    · subst here
      simp only [disk', update_self, Dinode.setEntry, empty] at h
      cases ix with
      | zero => exact .inl ⟨rfl, rfl, (by simpa using h : entry = found).symm⟩
      | succ ix => simp at h
    · simp only [disk', update_of_ne here] at h
      exact .inr h
  constructor
  case contents =>
    intro j notDir
    rw [types] at notDir
    have o : j ≠ i := by
      intro eq
      exact notDir (eq ▸ isDir)
    simp only [disk', update_of_ne o]
    exact tree.contents j notDir
  case formed =>
    intro j jDir formed
    rw [types] at jDir
    have o : j ≠ i := by
      intro eq
      rw [eq] at formed
      omega
    simpa only [disk', update_of_ne o] using tree.formed j jDir formed
  case self =>
    intro j found h
    rcases has h with ⟨atI, _, eq⟩ | old
    · rw [eq, atI, isSelf]
    · exact tree.self j found old
  case named =>
    intro j ix found h ne
    rw [types]
    rcases has h with ⟨_, _, eq⟩ | old
    · rw [eq, isSelf, isDir]
      simp
    · exact tree.named j ix found old ne
  case subdir =>
    intro j ix found far h childDir
    rw [types] at childDir
    rw [pars]
    rcases has h with ⟨_, zero, _⟩ | old
    · omega
    · exact tree.subdir j ix found far old childDir
  case young => exact tree.young
  case hidden =>
    intro j ix found h ne o
    rcases has h with ⟨atI, _, eq⟩ | old
    · exact absurd (by rw [eq, isSelf, atI]) o
    · exact tree.hidden j ix found old ne o
  case plain =>
    intro j ix found far h ne
    rcases has h with ⟨_, zero, _⟩ | old
    · omega
    · exact tree.plain j ix found far old ne
  all_goals simp only [types, nlinks, pars, names, ups]
  case range => exact tree.range
  case once => exact tree.once
  case root => exact tree.root
  case rootName => exact tree.rootName
  case links => exact tree.links

theorem writeDotdot {dp : Inum} (onDisk : disk i = dinode) {first : Dirent}
    (isDir : dinode.type = .dir) (dots : dinode.entries = [first]) (isDot : first = ⟨i, dot⟩)
    (isDotdot : entry = ⟨dp, dotdot⟩) (growing : 0 < debts.unformed i)
    (target : (disk dp).type ≠ .free) (targetFormed : debts.unformed dp = 0)
    (pending : ∀ j, later.pending j + (if dp = j then 1 else 0) = debts.pending j)
    (nameless : later.nameless = debts.nameless)
    (unformed : ∀ j, j ≠ i → later.unformed j = debts.unformed j)
    (fewer : ∀ j, later.unformed j ≤ debts.unformed j) (leaked : later.leaked = debts.leaked) :
    Tree ninodes (update disk i (dinode.setEntry 1 entry)) removed later := by
  subst onDisk
  let disk' := update disk i ((disk i).setEntry 1 entry)
  change Tree ninodes disk' removed later
  have types : ∀ j, (disk' j).type = (disk j).type := update_same disk Dinode.type rfl
  have nlinks : ∀ j, (disk' j).nlink = (disk j).nlink := update_same disk Dinode.nlink rfl
  have parBefore : (disk i).parent? = none := by simp [Dinode.parent?, dots]
  have parAfter : (disk' i).parent? = some dp := by
    simp [disk', Dinode.parent?, Dinode.setEntry, dots, isDotdot]
  have parElse : ∀ j, j ≠ i → (disk' j).parent? = (disk j).parent? := by
    intro j o
    simp only [disk', update_of_ne o]
  have notRoot : rootIno ≠ i := by
    intro eq
    have parent := tree.root.2.1
    rw [eq, parBefore] at parent
    simp at parent
  have ups : ∀ j, upCount ninodes disk' removed j =
      upCount ninodes disk removed j + if dp = j then 1 else 0 := by
    intro j
    have changed := upCount_change disk removed disk' removed
      (tree.range i (by simp [isDir])).2 parElse (fun _ _ => rfl) j
    simpa [parBefore, parAfter, tree.young i growing] using changed
  have names : nameCount ninodes disk' = nameCount ninodes disk := by
    funext j
    have same : ∀ dir, (disk' dir).names j = (disk dir).names j :=
      update_same disk (Dinode.names · j) (by simp [Dinode.names, Dinode.setEntry, dots])
    simp [nameCount, same]
  have contents : (disk' i).entries = [first, entry] := by simp [disk', Dinode.setEntry, dots]
  have has : ∀ {j ix : Nat} {found : Dirent}, (disk' j).entries[ix]? = some found →
      (j = i ∧ ix = 1 ∧ found = entry) ∨ (disk j).entries[ix]? = some found := by
    intro j ix found h
    by_cases here : j = i
    · subst here
      rw [contents] at h
      rcases ix with _ | _ | ix
      · simpa [dots] using h
      · exact .inl ⟨rfl, rfl, (by simpa using h : entry = found).symm⟩
      · simp at h
    · simp only [disk', update_of_ne here] at h
      exact .inr h
  constructor
  case contents =>
    intro j notDir
    rw [types] at notDir
    have o : j ≠ i := by
      intro eq
      exact notDir (eq ▸ isDir)
    simp only [disk', update_of_ne o]
    exact tree.contents j notDir
  case formed =>
    intro j jDir formed
    rw [types] at jDir
    by_cases here : j = i
    · subst here
      have ne := (tree.range dp target).1
      rw [Dinode.Formed, contents, isDot, isDotdot]
      exact ⟨rfl, dp, ne_of_gt ne, rfl⟩
    · rw [unformed j here] at formed
      simpa only [disk', update_of_ne here] using tree.formed j jDir formed
  case self =>
    intro j found h
    rcases has h with ⟨_, one, _⟩ | old
    · omega
    · exact tree.self j found old
  case named =>
    intro j ix found h ne
    rw [types]
    rcases has h with ⟨_, _, eq⟩ | old
    · rwa [eq, isDotdot]
    · exact tree.named j ix found old ne
  case subdir =>
    intro j ix found far h childDir
    rw [types] at childDir
    rcases has h with ⟨_, one, _⟩ | old
    · omega
    have kept := tree.subdir j ix found far old childDir
    have o : found.inum ≠ i := by
      intro eq
      rw [eq, parBefore] at kept
      simp at kept
    rwa [parElse _ o]
  case root =>
    rw [types, parElse _ notRoot]
    exact tree.root
  case links =>
    intro j alive
    rw [types] at alive
    have old := tree.links j alive
    have balanced := pending j
    rw [names, ups, nlinks, leaked]
    omega
  case young =>
    intro j grows
    have bound := fewer j
    exact tree.young j (by omega)
  case hidden =>
    intro j ix found h ne o
    apply Nat.eq_zero_of_le_zero
    apply le_trans (fewer found.inum)
    rcases has h with ⟨_, _, eq⟩ | old
    · rw [eq, isDotdot]
      exact le_of_eq targetFormed
    · exact le_of_eq (tree.hidden j ix found old ne o)
  case plain =>
    intro j ix found far h ne
    rcases has h with ⟨_, _, eq⟩ | old
    · rw [eq, isDotdot]
      rfl
    · exact tree.plain j ix found far old ne
  case rootName =>
    rw [names, nameless, unformed rootIno notRoot]
    exact tree.rootName
  all_goals simp only [types, names, nameless]
  case range => exact tree.range
  case once => exact tree.once

theorem mark {type : InodeType} (isFree : (disk i).type = .free) (pos : 0 < i) (isIn : i < ninodes)
    (pending : later.pending = debts.pending) (pendHere : debts.pending i = 0)
    (nameless : later.nameless = debts.nameless) (namelessHere : debts.nameless i = 0)
    (unformed : ∀ j, later.unformed j = debts.unformed j + if j = i then 1 else 0)
    (leaked : ∀ j, j ≠ i → later.leaked j = debts.leaked j) (leakedHere : later.leaked i = 0) :
    Tree ninodes (update disk i (.blank type)) (update removed i false) later := by
  have empty : (disk i).entries = [] := tree.contents i (by simp [isFree])
  have typeHere : (update disk i (.blank type) i).type = type := by
    rw [update_self]
    rfl
  have typeElse : ∀ j, j ≠ i → (update disk i (.blank type) j).type = (disk j).type := by
    intro j o
    rw [update_of_ne o]
  have entries := update_same disk Dinode.entries
    (show (blank type).entries = (disk i).entries by rw [empty]; rfl)
  have pars : ∀ j, (update disk i (.blank type) j).parent? = (disk j).parent? := by
    intro j
    simp [parent?, entries]
  have names : nameCount ninodes _ = nameCount ninodes disk := nameCount_congr entries
  have ups : ∀ j, upCount ninodes (update disk i (.blank type))
      (update removed i false) j = upCount ninodes disk removed j := by
    intro j
    have old : (disk i).parent? = none := by simp [parent?, empty]
    have changed := upCount_change disk removed (update disk i (.blank type))
      (update removed i false) isIn (fun o _ => pars o)
      (fun o ne => update_of_ne ne _ _) j
    rw [pars, old] at changed
    simpa using changed
  have notRoot : rootIno ≠ i := by
    intro eq
    have isDir := tree.root.1
    rw [eq, isFree] at isDir
    simp at isDir
  -- No entry names a free inode.
  have unnamed : ∀ (j : Inum) (ix : Nat) (hit : Dirent),
      (disk j).entries[ix]? = some hit → hit.inum ≠ i := by
    intro j ix hit h eq
    have ne0 : hit.inum ≠ 0 := eq ▸ ne_of_gt pos
    exact tree.named j ix hit h ne0 (eq ▸ isFree)
  have noNames : nameCount ninodes disk i = 0 := by
    rw [nameCount, sum_eq_zero]
    intro dir _
    by_contra named
    rcases ((disk dir).names_pos_iff i).mp (by omega) with ⟨slot, entry, _, has, eq⟩
    exact unnamed dir slot entry has eq
  have noUps : upCount ninodes disk removed i = 0 := by
    rw [upCount, sum_eq_zero]
    intro dir _
    rw [if_neg]
    intro named
    rcases Option.map_eq_some_iff.mp named.2 with ⟨entry, has, eq⟩
    exact unnamed dir 1 entry has eq
  constructor
  case range =>
    intro j isAlloc
    by_cases here : j = i
    · rw [here]
      exact ⟨pos, isIn⟩
    · rw [typeElse j here] at isAlloc
      exact tree.range j isAlloc
  case contents =>
    intro j notDir
    rw [entries]
    by_cases here : j = i
    · rw [here, empty]
    · rw [typeElse j here] at notDir
      exact tree.contents j notDir
  case formed =>
    intro j isDir formed
    rw [unformed] at formed
    have o : j ≠ i := by
      intro eq
      rw [if_pos eq] at formed
      omega
    rw [if_neg o, add_zero] at formed
    rw [typeElse j o] at isDir
    rw [update_of_ne o]
    exact tree.formed j isDir formed
  case self =>
    intro j hit h
    rw [entries] at h
    exact tree.self j hit h
  case named =>
    intro j ix hit h ne0
    rw [entries] at h
    rw [typeElse _ (unnamed j ix hit h)]
    exact tree.named j ix hit h ne0
  case subdir =>
    intro j ix hit far h childDir
    rw [entries] at h
    have o := unnamed j ix hit h
    rw [typeElse _ o] at childDir
    rw [pars, update_of_ne o]
    exact tree.subdir j ix hit far h childDir
  case once =>
    intro j isDir
    rw [names, nameless]
    by_cases here : j = i
    · subst here
      omega
    · rw [typeElse j here] at isDir
      exact tree.once j isDir
  case root =>
    rw [typeElse _ notRoot, pars, update_of_ne notRoot]
    exact tree.root
  case rootName =>
    rw [names, nameless, unformed, if_neg notRoot]
    exact tree.rootName
  case links =>
    intro j isAlloc
    rw [names, ups, pending]
    by_cases here : j = i
    · subst here
      rw [update_self, leakedHere, noNames, noUps, pendHere]
      rfl
    rw [typeElse j here] at isAlloc
    rw [update_of_ne here, leaked j here]
    exact tree.links j isAlloc
  case young =>
    intro j growing
    by_cases here : j = i
    · rw [here, update_self]
    rw [unformed, if_neg here, add_zero] at growing
    rw [update_of_ne here]
    exact tree.young j growing
  case hidden =>
    intro j ix hit h ne0 o
    rw [entries] at h
    rw [unformed, if_neg (unnamed j ix hit h)]
    exact tree.hidden j ix hit h ne0 o
  case plain =>
    intro j ix hit far h
    rw [entries] at h
    exact tree.plain j ix hit far h

theorem free (alive : (disk i).type ≠ .free) (unlinked : (disk i).nlink = 0)
    (alone : ∀ j, j ≠ i → (disk j).parent? ≠ some i)
    (isFree : dinode.type = .free) (empty : dinode.entries = [])
    (pending : later.pending = debts.pending) (nameless : later.nameless = debts.nameless)
    (unformed : later.unformed = debts.unformed) (leaked : ∀ j, (disk j).type ≠ .free →
      later.leaked j = debts.leaked j + (disk i).names j +
        if removed i = false ∧ (disk i).parent? = some j then 1 else 0) :
    Tree ninodes (update disk i dinode) removed later := by
  have isIn := (tree.range i alive).2
  have typeElse : ∀ j, j ≠ i → (update disk i dinode j).type = (disk j).type := by
    intro j o
    rw [update_of_ne o]
  have typeHere : (update disk i dinode i).type = .free := by rw [update_self, isFree]
  have has : ∀ {j ix : Nat} {found : Dirent}, (update disk i dinode j).entries[ix]? = some found →
      j ≠ i ∧ (disk j).entries[ix]? = some found := by
    intro j ix found h
    by_cases here : j = i
    · rw [here, update_self, empty] at h
      simp at h
    · rw [update_of_ne here] at h
      exact ⟨here, h⟩
  have accounted := tree.links i alive
  rw [unlinked] at accounted
  change _ = 0 at accounted
  have names : ∀ j, nameCount ninodes (update disk i dinode) j +
      (disk i).names j = nameCount ninodes disk j := by
    intro j
    have changed := nameCount_update disk isIn dinode j
    simpa [Dinode.names, empty] using changed
  have ups : ∀ j, upCount ninodes (update disk i dinode) removed j +
        (if removed i = false ∧ (disk i).parent? = some j then 1 else 0) =
      upCount ninodes disk removed j := by
    intro j
    have changed := upCount_change disk removed (update disk i dinode) removed
      isIn (fun o ne => by rw [update_of_ne ne])
      (fun _ _ => rfl) j
    simpa [parent?, empty] using changed
  have notRoot : rootIno ≠ i := by
    intro eq
    have linked := tree.root_linked
    rw [eq, unlinked] at linked
    simp at linked
  -- The names of a freed inode are its own two dots.
  have unnamed : ∀ {j ix : Nat} {found : Dirent}, j ≠ i →
      (disk j).entries[ix]? = some found → found.inum ≠ i := by
    intro j ix found o h eq
    rcases ix with _ | _ | ix
    · exact o (by rw [← eq, tree.self j found h])
    · apply alone j o
      rw [parent?, h, Option.map_some, eq]
    have pos := tree.nameCount_pos (by omega) h
    rw [eq] at pos
    omega
  constructor
  case range =>
    intro j isAlloc
    have o : j ≠ i := by
      intro eq
      exact isAlloc (eq ▸ typeHere)
    rw [typeElse j o] at isAlloc
    exact tree.range j isAlloc
  case contents =>
    intro j notDir
    by_cases here : j = i
    · rw [here, update_self, empty]
    rw [typeElse j here] at notDir
    rw [update_of_ne here]
    exact tree.contents j notDir
  case formed =>
    intro j isDir formed
    have o : j ≠ i := by
      intro eq
      rw [eq, typeHere] at isDir
      simp at isDir
    rw [typeElse j o] at isDir
    rw [update_of_ne o]
    exact tree.formed j isDir (unformed ▸ formed)
  case self =>
    intro j found h
    exact tree.self j found (has h).2
  case named =>
    intro j ix found h ne0
    rcases has h with ⟨o, old⟩
    rw [typeElse _ (unnamed o old)]
    exact tree.named j ix found old ne0
  case subdir =>
    intro j ix found far h childDir
    rcases has h with ⟨o, old⟩
    have ne := unnamed o old
    rw [typeElse _ ne] at childDir
    rw [update_of_ne ne]
    exact tree.subdir j ix found far old childDir
  case once =>
    intro j isDir
    have o : j ≠ i := by
      intro eq
      rw [eq, typeHere] at isDir
      simp at isDir
    rw [typeElse j o] at isDir
    have old := tree.once j isDir
    have counted := names j
    rw [nameless]
    omega
  case root =>
    rw [update_of_ne notRoot]
    exact tree.root
  case rootName =>
    have old := tree.rootName
    have counted := names rootIno
    rw [nameless, unformed]
    omega
  case links =>
    intro j isAlloc
    have o : j ≠ i := by
      intro eq
      exact isAlloc (eq ▸ typeHere)
    rw [typeElse j o] at isAlloc
    have old := tree.links j isAlloc
    have nameChange := names j
    have upChange := ups j
    rw [pending, leaked j isAlloc, update_of_ne o]
    omega
  case young =>
    rw [unformed]
    exact tree.young
  case hidden =>
    intro j ix found h ne0 o
    rw [unformed]
    exact tree.hidden j ix found (has h).2 ne0 o
  case plain =>
    intro j ix found far h
    exact tree.plain j ix found far (has h).2

end

end Tree

end Xv6
