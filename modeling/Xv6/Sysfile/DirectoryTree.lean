import Mathlib.Logic.Relation
import Xv6.Sysfile.Names

/-! # The tree of directories

The directories that can be reached from the root form a tree, and the names in each of
them are different, as long as `iput` frees no parent of another directory. -/

namespace Xv6

open Foundation Dinode List Relation.TransGen

/-! ## Trees -/

/-- A slot of a directory names a directory by a name other than the two dots. -/
def NamesDir (disk : Inum → Dinode) (dir : Inum) (slot : Nat) (child : Inum) : Prop :=
  (disk dir).type = .dir ∧ (disk child).type = .dir ∧ child ≠ 0 ∧
    ∃ name, (disk dir).entries[slot]? = some ⟨child, name⟩ ∧ namecmp name dot = false ∧
      namecmp name dotdot = false

def Holds (disk : Inum → Dinode) (dir child : Inum) : Prop :=
  ∃ slot, NamesDir disk dir slot child

/-- The directories reachable from the root by names other than the two dots. -/
def FromRoot (disk : Inum → Dinode) (dir : Inum) : Prop :=
  Relation.ReflTransGen (Holds disk) rootIno dir

/-- The first two entries are the two dots. -/
def HasDots (disk : Inum → Dinode) (dir parent : Inum) : Prop :=
  (disk dir).entries[0]? = some ⟨dir, dot⟩ ∧ (disk dir).entries[1]? = some ⟨parent, dotdot⟩

/-- What makes the reachable directories a tree. -/
structure DirectoryTree (disk : Inum → Dinode) : Prop where
  root : HasDots disk rootIno rootIno
  rootNameless : ∀ dir slot, FromRoot disk dir → ¬ NamesDir disk dir slot rootIno
  namedOnce : ∀ i, FromRoot disk i → i ≠ rootIno → ∃ dir slot,
    (FromRoot disk dir ∧ NamesDir disk dir slot i ∧ HasDots disk i dir) ∧
    ∀ dir' slot', FromRoot disk dir' → NamesDir disk dir' slot' i → dir' = dir ∧ slot' = slot
  acyclic : ∀ i, FromRoot disk i → ¬ Relation.TransGen (Holds disk) i i
  distinct : ∀ i, FromRoot disk i → (disk i).DistinctNames

section

variable {ninodes : Nat} {disk : Inum → Dinode} {removed : Inum → Bool} {debts : Debts}
  {dir child i : Inum} {slot slot' : Nat}

theorem NamesDir.two_le (names : NamesDir disk dir slot child)
    (formed : (disk dir).Formed dir) : 2 ≤ slot := by
  rcases names with ⟨_, _, _, name, has, notDot, notDotdot⟩
  rcases formed with ⟨first, parent, _, second⟩
  by_contra small
  have cases : slot = 0 ∨ slot = 1 := by omega
  rcases cases with isFirst | isSecond
  · rw [isFirst, first] at has
    cases has
    exact absurd notDot (by decide)
  rw [isSecond, second] at has
  cases has
  exact absurd notDotdot (by decide)

theorem HasDots.of_formed {parent : Inum} (formed : (disk dir).Formed dir)
    (up : (disk dir).parent? = some parent) : HasDots disk dir parent := by
  rcases formed with ⟨first, o, _, second⟩
  rw [parent?, second] at up
  cases up
  exact ⟨first, second⟩

namespace Tree

section

variable (tree : Tree ninodes disk removed debts)
include tree

theorem parent_of_names (formed : (disk dir).Formed dir) (names : NamesDir disk dir slot child) :
    (disk child).parent? = some dir := by
  have beyond := names.two_le formed
  rcases names with ⟨_, childDir, _, name, has, _⟩
  exact (tree.subdir dir slot ⟨child, name⟩ beyond has childDir).1

theorem not_names_root (formed : (disk dir).Formed dir) : ¬ NamesDir disk dir slot rootIno := by
  intro names
  have beyond := names.two_le formed
  rcases names with ⟨_, _, _, name, has, _⟩
  have counted := tree.nameCount_pos beyond has
  have none := tree.rootName.1
  simp only at counted
  omega

theorem formed_of_fromRoot
    (got : FromRoot disk i) : (disk i).Formed i ∧ ∀ slot, ¬ NamesDir disk i slot i := by
  induction got with
  | refl =>
    have formed := tree.formed rootIno tree.root.1 tree.rootName.2.2
    exact ⟨formed, fun _ => tree.not_names_root formed⟩
  | @tail dir child _ h ih =>
    rcases h with ⟨slot, names⟩
    rcases ih with ⟨formed, notSelf⟩
    have apart : child ≠ dir := by
      intro same
      exact notSelf slot (same ▸ names)
    have par := tree.parent_of_names formed names
    rcases names with ⟨_, childDir, ne, name, has, _⟩
    have childFormed := tree.formed child childDir (tree.hidden dir slot ⟨child, name⟩ has ne apart)
    refine ⟨childFormed, ?_⟩
    intro slot names
    have self := tree.parent_of_names childFormed names
    rw [par, Option.some.injEq] at self
    exact apart self.symm

theorem slot_unique (formed : (disk dir).Formed dir) (names : NamesDir disk dir slot i)
    (others : NamesDir disk dir slot' i) : slot' = slot := by
  have beyond := names.two_le formed
  have beyond' := others.two_le formed
  rcases names with ⟨isDir, childDir, ne0, name, has, _⟩
  rcases others with ⟨_, _, _, name', present', _⟩
  by_contra ne
  have isIn := (List.getElem?_eq_some_iff.mp has).1
  -- With one of the two entries cleared the other one still counts.
  have cleared := names_setEntry beyond (le_of_lt isIn) .empty i
  have remains : 0 < ((disk dir).setEntry slot .empty).names i := by
    rw [names_pos_iff]
    refine ⟨slot', ⟨i, name'⟩, beyond', ?_, rfl⟩
    rwa [getElem?_setEntry (le_of_lt isIn), if_neg ne]
  have counted := names_le_nameCount disk (tree.range dir (by simp [isDir])).2 i
  have once := tree.once i childDir
  have unnamed : Dirent.empty.inum ≠ i := Ne.symm ne0
  rw [has, Option.map_some, if_neg unnamed, if_pos rfl] at cleared
  omega

theorem acyclic_of_fromRoot (got : FromRoot disk i) : ¬ Relation.TransGen (Holds disk) i i := by
  have lastStep : ∀ {start goal}, FromRoot disk start →
      Relation.TransGen (Holds disk) start goal → ∃ dir,
        Relation.ReflTransGen (Holds disk) start dir ∧ FromRoot disk dir ∧ Holds disk dir goal := by
    intro start goal got cycle
    rcases tail'_iff.mp cycle with ⟨dir, way, h⟩
    exact ⟨dir, way, Relation.ReflTransGen.trans got way, h⟩
  induction got with
  | refl =>
    intro cycle
    rcases lastStep .refl cycle with ⟨dir, _, got, slot, names⟩
    exact tree.not_names_root (tree.formed_of_fromRoot got).1 names
  | @tail parent child gotPar h ih =>
    intro cycle
    have gotChild : FromRoot disk child := Relation.ReflTransGen.tail gotPar h
    rcases lastStep gotChild cycle with ⟨dir, way, got, _, names⟩
    have up := tree.parent_of_names (tree.formed_of_fromRoot got).1 names
    rcases h with ⟨slot, h⟩
    rw [tree.parent_of_names (tree.formed_of_fromRoot gotPar).1 h, Option.some.injEq] at up
    subst up
    exact ih (head' ⟨slot, h⟩ way)

theorem directoryTree (distinct : ∀ i, (disk i).DistinctNames) : DirectoryTree disk where
  root := .of_formed (tree.formed_of_fromRoot .refl).1 tree.root.2.1
  rootNameless dir slot reached := tree.not_names_root (tree.formed_of_fromRoot reached).1
  namedOnce i reached notRoot := by
    rcases Relation.ReflTransGen.cases_tail reached with isRoot | ⟨dir, reachedDir, slot, names⟩
    · exact absurd isRoot notRoot
    have formed := (tree.formed_of_fromRoot reachedDir).1
    have parent := tree.parent_of_names formed names
    have dots := HasDots.of_formed (tree.formed_of_fromRoot reached).1 parent
    refine ⟨dir, slot, ⟨reachedDir, names, dots⟩, ?_⟩
    intro dir' slot' reached' names'
    have parent' := tree.parent_of_names (tree.formed_of_fromRoot reached').1 names'
    rw [parent, Option.some.injEq] at parent'
    subst parent'
    exact ⟨rfl, tree.slot_unique formed names names'⟩
  acyclic _ := tree.acyclic_of_fromRoot
  distinct i _ := distinct i

end

end Tree

end

/-! ## The image -/

namespace Mkfs

/-- The files have names that differ from each other and from the two dots in their first
`DIRSIZ` bytes. -/
def DifferentNames (files : List Path) : Prop :=
  (dot :: dotdot :: files.map shortname).Pairwise fun name other => namecmp name other = false

instance (files : List Path) : Decidable (DifferentNames files) :=
  inferInstanceAs (Decidable (List.Pairwise _ _))

variable {files : List Path}

theorem name_of_rootEntries {slot : Nat} {entry : Dirent}
    (has : (rootEntries files)[slot]? = some entry) (used : entry.inum ≠ 0) : ∃ name,
    (dot :: dotdot :: files.map shortname)[slot]? = some name ∧ entry.name = name.take dirSiz := by
  rcases rootEntries_eq files with ⟨padding, eq⟩
  rw [eq] at has
  match slot with
  | 0 =>
    cases has
    exact ⟨dot, rfl, rfl⟩
  | 1 =>
    cases has
    exact ⟨dotdot, rfl, rfl⟩
  | slot + 2 =>
    rw [getElem?_cons_succ, getElem?_cons_succ, getElem?_append] at has
    split at has
    · rw [getElem?_fileEntries, Option.map_eq_some_iff] at has
      rcases has with ⟨path, isPath, made⟩
      refine ⟨shortname path, ?_, ?_⟩
      · rw [getElem?_cons_succ, getElem?_cons_succ, getElem?_map, isPath]
        rfl
      · rw [← made]
        rfl
    · have isEmpty := eq_of_mem_replicate (mem_of_getElem? has)
      rw [isEmpty] at used
      exact absurd rfl used

theorem image_distinct (ne : DifferentNames files) (i : Inum) : (image files i).DistinctNames := by
  by_cases isRoot : i = rootIno
  · subst isRoot
    intro slot slot' entry entry' has present' used used' same
    rcases name_of_rootEntries has used with ⟨name, atSlot, cut⟩
    rcases name_of_rootEntries present' used' with ⟨name', atSlot', cut'⟩
    rw [cut, cut', namecmp, take_take, take_take, min_self] at same
    rcases List.getElem?_eq_some_iff.mp atSlot with ⟨isIn, isName⟩
    rcases List.getElem?_eq_some_iff.mp atSlot' with ⟨inside', isName'⟩
    have apart := pairwise_iff_getElem.mp ne
    rcases Nat.lt_trichotomy slot slot' with old | eq | after
    · have differ := apart slot slot' isIn inside' old
      rw [isName, isName', namecmp, same] at differ
      cases differ
    · exact eq
    have differ := apart slot' slot inside' isIn after
    rw [isName, isName', namecmp, beq_eq_false_iff_ne] at differ
    exact absurd (eq_of_beq same).symm differ
  · exact distinctNames_nil (image_entries_of_ne isRoot)

theorem DifferentNames.noDot (ne : DifferentNames files) :
    ∀ path ∈ files, namecmp (shortname path) dot = false := by
  intro path mem
  have apart := (pairwise_cons.mp ne).1 (shortname path) (mem_cons_of_mem _ (mem_map_of_mem mem))
  rw [namecmp, beq_eq_false_iff_ne] at apart ⊢
  exact Ne.symm apart

end Mkfs

/-! ## Runs -/

section

variable {Pid : Type} [Fintype Pid] [DecidableEq Pid]

theorem directories_form_tree {files : List Path} (fits : files.length + 2 ≤ Mkfs.nInodes)
    (ne : Mkfs.DifferentNames files) {pool : Pool (fsSystem Pid Mkfs.nInodes)}
    (reach : (fsSystem Pid Mkfs.nInodes).Reachable KeepsTree
      (fsBoot Pid Mkfs.nInodes (Mkfs.image files)) pool) : DirectoryTree pool.state.disk := by
  have allowed : ∀ (p : Pid) cmd (s : FsState Pid), KeepsTree p cmd s →
      (fsLedger Pid Mkfs.nInodes False).Allowed p cmd s :=
    fun p cmd s keeps => ⟨keeps.1, keeps.2, False.elim⟩
  have consistent := Mkfs.image_consistent fits ne.noDot
  rcases consistent.reachable (by decide) False (reach.mono allowed) with ⟨held, inv, _⟩
  rcases inv.tree with ⟨leaked, tree, _⟩
  apply tree.directoryTree
  exact consistent.reachable_distinct (by decide) (Mkfs.image_distinct ne) (reach.mono allowed)

/-- Two files that `mkfs` is called with. -/
def sampleFiles : List Path := [[117, 115, 101, 114, 47, 95, 115, 104], [82, 69, 65, 68]]

theorem directories_form_tree_shared : ∃ pool : Pool (fsSystem Bool Mkfs.nInodes),
    (fsSystem Bool Mkfs.nInodes).Reachable KeepsTree
      (fsBoot Bool Mkfs.nInodes (Mkfs.image sampleFiles)) pool ∧
    (pool.state.disk 4).type = .dir ∧ (pool.state.disk 5).type = .free ∧
    DirectoryTree pool.state.disk := by
  have outcome : ((System.replayTested (keepsLinks Mkfs.nInodes)
      (fsBoot Bool Mkfs.nInodes (Mkfs.image sampleFiles))
      (sharedDirectory sampleFiles.length)).map fun pool =>
        ((pool.state.disk 4).type, (pool.state.disk 5).type)) = some (.dir, .free) := by
    decide +kernel
  rcases Option.map_eq_some_iff.mp outcome with ⟨pool, replayed, facts⟩
  simp only [Prod.mk.injEq] at facts
  have ne : Mkfs.DifferentNames sampleFiles := by decide
  have reach := (Mkfs.image_consistent (by decide) ne.noDot).replay (by decide) _ replayed
  exact ⟨pool, reach, facts.1, facts.2, directories_form_tree (by decide) ne reach⟩

/-- The first process is in `a/b` and removes it and its parent `a`, which is freed. The
second one is making the directory `c` and has taken the inode of `a` for it. Before it
locks the inode the first one creates `../f`, so that the dots come after that entry. -/
def createsBeforeDots : List (System.Event Bool FsCall) :=
  [.start false (.mkdir [97]), .finish false,
   .start false (.mkdir [97, 47, 98]), .finish false,
   .start false (.chdir [97, 47, 98]), .finish false,
   .start false (.unlink [47, 97, 47, 98]), .finish false,
   .start false (.unlink [47, 97]), .finish false,
   .start true (.mkdir [99])] ++
  List.replicate 9 (.step true) ++
  [.start false (.open_ [46, 46, 47, 102] FsProgram.oCreate true), .finish false, .finish true]

theorem directory_without_dots : Mkfs.DifferentNames [] ∧
    ∃ pool, (fsSystem Bool Mkfs.nInodes).Reachable (fsSystem Bool Mkfs.nInodes).always
        (fsBoot Bool Mkfs.nInodes (Mkfs.image [])) pool ∧
      FromRoot pool.state.disk 2 ∧ (pool.state.disk 2).entries[0]? = some ⟨4, [102]⟩ ∧
      ¬ DirectoryTree pool.state.disk := by
  have outcome : ((System.replay (fsBoot Bool Mkfs.nInodes (Mkfs.image []))
      createsBeforeDots).map fun pool =>
        ((pool.state.disk 1).type, (pool.state.disk 1).entries[2]?,
          (pool.state.disk 2).type, (pool.state.disk 2).entries[0]?)) =
      some (.dir, some ⟨2, [99]⟩, .dir, some ⟨4, [102]⟩) := by
    decide +kernel
  rcases System.exists_of_replay outcome with ⟨pool, reach, facts⟩
  simp only [Prod.mk.injEq] at facts
  rcases facts with ⟨rootDir, named, isDir, first⟩
  have reached : FromRoot pool.state.disk 2 :=
    .single ⟨2, rootDir, isDir, by decide, [99], named, by decide, by decide⟩
  refine ⟨by decide, pool, reach, reached, first, ?_⟩
  intro tree
  rcases tree.namedOnce 2 reached (by decide) with ⟨dir, slot, ⟨_, _, dots⟩, _⟩
  rw [HasDots, first] at dots
  exact absurd dots.1 (by decide)

end

end Xv6
