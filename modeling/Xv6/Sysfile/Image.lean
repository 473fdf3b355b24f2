import Xv6.Sysfile.Contracts

/-! # Images

What a consistent file system looks like before the first call, and the image
that `mkfs` builds. -/

open scoped BigOperators

namespace Xv6

open Foundation Finset List

/-- The directory tree of an image that no process uses. Every directory has its
two dots and one name, in the directory that its `..` names, and every link is
counted. -/
structure ConsistentImage (ninodes : Nat) (image : Inum → Dinode) : Prop where
  range : ∀ i : Nat, (image i).type ≠ .free → 0 < i ∧ i < ninodes
  contents : ∀ i, (image i).type ≠ .dir → (image i).entries = []
  formed : ∀ i, (image i).type = .dir → (image i).Formed i
  plain : ∀ i (slot : Nat) (entry : Dirent), 0 < slot →
    (image i).entries[slot]? = some entry → entry.inum ≠ 0 → namecmp entry.name dot = false
  named : ∀ i (slot : Nat) (entry : Dirent), (image i).entries[slot]? = some entry →
    entry.inum ≠ 0 → (image entry.inum).type ≠ .free
  root : (image rootIno).type = .dir ∧ (image rootIno).parent? = some rootIno ∧
    nameCount ninodes image rootIno = 0
  subdir : ∀ i (slot : Nat) (entry : Dirent), 2 ≤ slot →
    (image i).entries[slot]? = some entry → (image entry.inum).type = .dir →
    (image entry.inum).parent? = some i
  once : ∀ i, (image i).type = .dir → nameCount ninodes image i ≤ 1
  listed : ∀ i parent, (image i).type = .dir → i ≠ rootIno →
    (image i).parent? = some parent → 0 < (image parent).names i
  links : ∀ i, (image i).type ≠ .free →
    nameCount ninodes image i + upCount ninodes image (fun _ => false) i =
      (image i).nlink.toNat
  linked : ∀ i, (image i).type ≠ .free → (image i).nlink ≠ 0

/-! ## Booting -/

section

variable {Pid : Type} [Fintype Pid] [DecidableEq Pid] {ninodes : Nat} {image : Inum → Dinode}

theorem amount_boot (cnt : Prop) (measure : FsResource Pid → Nat) (i : Inum) :
    amount measure (∑ _ : Pid, (fsLedger Pid ninodes cnt).idle .boot) i =
    if rootIno = i then Fintype.card Pid * measure (.ref rootIno) else 0 := by
  have single : (fsLedger Pid ninodes cnt).idle .boot = {.ref rootIno} := rfl
  have sum : ∀ procs : Finset Pid, amount measure (∑ _ ∈ procs, {FsResource.ref rootIno}) i =
        if rootIno = i then procs.card * measure (.ref rootIno) else 0 := by
    intro procs
    induction procs using Finset.induction_on with
    | empty => simp
    | insert p rest fresh ih =>
      rw [sum_insert fresh, amount_add, ih, card_insert_of_notMem fresh, amount_ref]
      split
      · rw [add_mul, one_mul, add_comm]
      · rfl
  rw [single, sum, card_univ]

theorem ConsistentImage.boot (consistent : ConsistentImage ninodes image) (cnt : Prop) : Consistent
    ninodes cnt (FsState.boot Pid image) (∑ _ : Pid, (fsLedger Pid ninodes cnt).idle .boot) := by
  have nothing : ∀ (measure : FsResource Pid → Nat) (i : Inum), measure (.ref rootIno) = 0 →
      amount measure (∑ _ : Pid, (fsLedger Pid ninodes cnt).idle .boot) i = 0 := by
    intro measure i none
    rw [amount_boot, none]
    simp
  constructor
  case books =>
    constructor
    case refs =>
      intro i
      rw [amount_boot]
      simp [FsState.boot, eq_comm]
    case once =>
      intro i
      rw [nothing _ i rfl]
      omega
    case unlocked => exact fun _ _ => rfl
    case valid =>
      rintro i ⟨⟩
    case alone =>
      intro i growing
      rw [nothing _ i rfl] at growing
      omega
    case fits =>
      intro res mem
      rcases Multiset.mem_sum.mp mem with ⟨_, _, isRef⟩
      rw [show res = .ref rootIno from Multiset.mem_singleton.mp isRef, FsResource.Fits]
      simp [FsState.boot, consistent.root.1]
    case children =>
      intro i child isLost
      rw [nothing _ i rfl] at isLost
      omega
  case tree =>
    refine ⟨0, ?_, fun _ => rfl⟩
    constructor
    case range => exact consistent.range
    case contents => exact consistent.contents
    case formed => exact fun i isDir _ => consistent.formed i isDir
    case self =>
      intro i entry has
      by_cases isDir : (image i).type = .dir
      · have first := (consistent.formed i isDir).1
        have eq := Option.some.inj (first.symm.trans has)
        rw [← eq]
      have empty : (FsState.boot Pid image).disk i = image i := rfl
      rw [empty, consistent.contents i isDir] at has
      simp at has
    case named => exact consistent.named
    case subdir =>
      intro i slot entry beyond has isDir
      exact ⟨consistent.subdir i slot entry beyond has isDir, rfl⟩
    case once =>
      intro i isDir
      rw [debts_nameless, nothing _ i rfl]
      exact consistent.once i isDir
    case root => exact ⟨consistent.root.1, consistent.root.2.1, rfl⟩
    case rootName =>
      rw [debts_nameless, debts_unformed, nothing _ _ rfl, nothing _ _ rfl]
      exact ⟨consistent.root.2.2, rfl, rfl⟩
    case links =>
      intro i alive
      rw [debts_pending, debts_leaked, nothing _ i rfl]
      exact consistent.links i alive
    case young => exact fun _ _ => rfl
    case hidden =>
      intro i slot entry has ne o
      rw [debts_unformed, nothing _ _ rfl]
    case plain => exact consistent.plain
  case exact =>
    intro isCnt
    constructor
    case gone =>
      rintro i isDir ⟨⟩
    case listed =>
      intro i par isDir _ notRoot up
      exact .inl (consistent.listed i par isDir notRoot up)
    case expecting =>
      intro i expects
      rw [nothing _ i rfl] at expects
      omega
    case referenced =>
      intro i alive cut
      exact absurd cut (consistent.linked i alive)
    case dropped =>
      intro i dropping
      rw [nothing _ i rfl] at dropping
      omega

end

/-! ## mkfs -/

namespace Mkfs

/-- The bytes of `user/`. -/
def userDir : Path := [117, 115, 101, 114, 47]

/-- The name of a file in the image: without `user/` and without a leading `_`. -/
def shortname (path : Path) : Name :=
  let base := if path.take 5 = userDir then path.drop 5 else path
  if base.head? = some 95 then base.tail else base

/-- The entries of the files, in inodes that are allocated one after another. -/
def fileEntries : Inum → List Path → List Dirent
  | _, [] => []
  | freeinode, path :: rest =>
    .make (shortname path) freeinode :: fileEntries (freeinode + 1) rest

/-- How many entries make the size of the root a multiple of `BSIZE`, as the last
step of `mkfs` computes it. -/
def rootSlots (count : Nat) : Nat := (count * 16 / bSize + 1) * bSize / 16

/-- The root directory. The rest of its last block is empty. -/
def rootEntries (files : List Path) : List Dirent :=
  let entries := ⟨rootIno, dot⟩ :: ⟨rootIno, dotdot⟩ :: fileEntries (rootIno + 1) files
  entries ++ List.replicate (rootSlots entries.length - entries.length) .empty

/-- The inodes of the image that holds `files`. -/
def image (files : List Path) (inum : Inum) : Dinode :=
  if inum = rootIno then ⟨.dir, 0, 1, rootEntries files⟩
  else if rootIno < inum ∧ inum ≤ rootIno + files.length then ⟨.file, 0, 1, []⟩
  else .blank .free

section

variable {files : List Path}

theorem getElem?_fileEntries (start : Inum) (files : List Path) (ix : Nat) :
    (fileEntries start files)[ix]? =
    files[ix]?.map fun path => .make (shortname path) (start + ix) := by
  induction files generalizing start ix with
  | nil => rfl
  | cons path rest ih =>
    cases ix with
    | zero => rfl
    | succ ix =>
      rw [fileEntries, getElem?_cons_succ, ih, getElem?_cons_succ, add_assoc, add_comm 1 ix]

theorem countP_fileEntries (start : Nat) (files : List Path)
    (small : start + files.length ≤ 2 ^ 16) (inum : Nat) :
    (fileEntries start files).countP (fun entry => entry.inum == inum) =
    if start ≤ inum ∧ inum < start + files.length then 1 else 0 := by
  induction files generalizing start with
  | nil => simp [fileEntries]
  | cons path rest ih =>
    rw [length_cons] at small ⊢
    have isInum : (Dirent.make (shortname path) start).inum = start := Nat.mod_eq_of_lt (by omega)
    rw [fileEntries, countP_cons, ih (start + 1) (by omega), isInum]
    by_cases here : start = inum
    · subst here
      simp
    have same : (start + 1 ≤ inum ∧ inum < start + 1 + rest.length) ↔
      (start ≤ inum ∧ inum < start + (rest.length + 1)) := by omega
    have notCounted : ¬ (start == inum) = true := by simpa using here
    rw [if_neg notCounted, add_zero]
    simp only [same]

theorem rootEntries_eq (files : List Path) :
    ∃ padding, rootEntries files = ⟨rootIno, dot⟩ :: ⟨rootIno, dotdot⟩ ::
      (fileEntries (rootIno + 1) files ++ replicate padding .empty) := ⟨_, rfl⟩

theorem getElem?_rootEntries {slot : Nat} {entry : Dirent} (small : files.length + 2 ≤ 2 ^ 16)
    (beyond : 2 ≤ slot) (has : (rootEntries files)[slot]? = some entry) :
    entry = .empty ∨ ∃ path ∈ files, ∃ inum : Nat, entry = .make (shortname path) inum ∧
    entry.inum = inum ∧ rootIno < inum ∧ inum ≤ rootIno + files.length := by
  rcases rootEntries_eq files with ⟨padding, eq⟩
  rw [eq, ← Nat.sub_add_cancel beyond, List.getElem?_cons_succ, List.getElem?_cons_succ] at has
  rcases mem_append.mp (mem_of_getElem? has) with isFile | isPadding
  · right
    rcases getElem?_of_mem isFile with ⟨ix, atIndex⟩
    rw [getElem?_fileEntries, Option.map_eq_some_iff] at atIndex
    rcases atIndex with ⟨path, isPath, made⟩
    have isIn := (List.getElem?_eq_some_iff.mp isPath).1
    have below : rootIno + 1 + ix < 2 ^ 16 := by
      rw [rootIno]
      omega
    refine ⟨path, mem_of_getElem? isPath, rootIno + 1 + ix, made.symm, ?_, ?_, ?_⟩
    · rw [← made]
      exact Nat.mod_eq_of_lt below
    · omega
    · omega
  · exact .inl (eq_of_mem_replicate isPadding)

theorem names_image_root (small : files.length + 2 ≤ 2 ^ 16) {inum : Nat} (ne : inum ≠ 0) :
    (image files rootIno).names inum =
    if rootIno < inum ∧ inum ≤ rootIno + files.length then 1 else 0 := by
  rcases rootEntries_eq files with ⟨padding, eq⟩
  have unnamed : (replicate padding Dirent.empty).countP (fun entry => entry.inum == inum) = 0 := by
    simp [countP_replicate, Dirent.empty, Ne.symm ne]
  have same : (rootIno + 1 ≤ inum ∧ inum < rootIno + 1 + files.length) ↔
    (rootIno < inum ∧ inum ≤ rootIno + files.length) := by omega
  rw [image, if_pos rfl, Dinode.names, eq]
  change (fileEntries (rootIno + 1) files ++ _).countP _ = _
  rw [countP_append, unnamed, countP_fileEntries _ _ (by rw [rootIno]; omega)]
  simp only [same, add_zero]

theorem image_entries_of_ne {inum : Inum} (o : inum ≠ rootIno) :
    (image files inum).entries = [] := by
  rw [image, if_neg o]
  split <;> rfl

theorem image_type_dir {inum : Inum} (isDir : (image files inum).type = .dir) : inum = rootIno := by
  by_contra o
  rw [image, if_neg o] at isDir
  split at isDir <;> cases isDir

theorem image_type_file {inum : Inum} (isIn : rootIno < inum ∧ inum ≤ rootIno + files.length) :
    image files inum = ⟨.file, 0, 1, []⟩ := by
  rw [image, if_neg (ne_of_gt isIn.1), if_pos isIn]

theorem nameCount_image (fits : files.length + 2 ≤ nInodes) {inum : Nat} (ne : inum ≠ 0) :
    nameCount nInodes (image files) inum =
    if rootIno < inum ∧ inum ≤ rootIno + files.length then 1 else 0 := by
  have small : files.length + 2 ≤ 2 ^ 16 := by
    rw [nInodes] at fits
    omega
  rw [nameCount, sum_eq_single rootIno, names_image_root small ne]
  · intro dir _ o
    rw [Dinode.names, image_entries_of_ne o]
    rfl
  · intro outside
    exact absurd (by decide : rootIno ∈ Finset.range nInodes) outside

theorem upCount_image (files : List Path) (inum : Inum) :
    upCount nInodes (image files) (fun _ => false) inum = if rootIno = inum then 1 else 0 := by
  rw [upCount, sum_eq_single rootIno]
  · have par : (image files rootIno).parent? = some rootIno := rfl
    simp [par]
  · intro dir _ o
    simp [Dinode.parent?, image_entries_of_ne o]
  · intro outside
    exact absurd (by decide : rootIno ∈ Finset.range nInodes) outside

theorem image_consistent (fits : files.length + 2 ≤ nInodes) (noDot : ∀ path ∈ files,
    namecmp (shortname path) dot = false) : ConsistentImage nInodes (image files) := by
  have small : files.length + 2 ≤ 2 ^ 16 := by
    rw [nInodes] at fits
    omega
  have onlyRoot : ∀ {i slot : Nat} {entry : Dirent}, (image files i).entries[slot]? = some entry →
      i = rootIno ∧ (rootEntries files)[slot]? = some entry := by
    intro i slot entry has
    have here : i = rootIno := by
      by_contra o
      rw [image_entries_of_ne o] at has
      simp at has
    subst here
    exact ⟨rfl, has⟩
  have cases : ∀ i : Nat, (image files i).type ≠ .free → i = rootIno ∨
      (rootIno < i ∧ i ≤ rootIno + files.length) := by
    intro i alive
    by_contra neither
    rw [not_or] at neither
    rw [image, if_neg neither.1, if_neg neither.2] at alive
    exact alive rfl
  constructor
  case range =>
    intro i alive
    rw [nInodes] at fits ⊢
    rw [rootIno] at cases
    rcases cases i alive with isRoot | isFile
    · omega
    · omega
  case contents =>
    intro i notDir
    apply image_entries_of_ne
    rintro rfl
    exact notDir rfl
  case formed =>
    intro i isDir
    rw [image_type_dir isDir]
    exact ⟨rfl, rootIno, by decide, rfl⟩
  case plain =>
    intro i slot entry pos has ne
    rcases onlyRoot has with ⟨_, inRoot⟩
    by_cases beyond : 2 ≤ slot
    · rcases getElem?_rootEntries small beyond inRoot with isEmpty | ⟨path, mem, _, made, _⟩
      · exact absurd (by rw [isEmpty]; rfl) ne
      · rw [made, namecmp_make]
        exact noDot path mem
    · have isDotdot : slot = 1 := by omega
      subst isDotdot
      cases inRoot
      rfl
  case named =>
    intro i slot entry has ne
    rcases onlyRoot has with ⟨_, inRoot⟩
    by_cases beyond : 2 ≤ slot
    · rcases getElem?_rootEntries small beyond inRoot with
        isEmpty | ⟨path, _, inum, _, isInum, isIn⟩
      · exact absurd (by rw [isEmpty]; rfl) ne
      · rw [isInum, image_type_file isIn]
        simp
    · have isDots : slot = 0 ∨ slot = 1 := by omega
      rcases isDots with isDot | isDotdot
      · subst isDot
        cases inRoot
        simp [image]
      subst isDotdot
      cases inRoot
      simp [image]
  case root => exact ⟨rfl, rfl, by rw [nameCount_image fits (by decide)]; rfl⟩
  case subdir =>
    intro i slot entry beyond has isDir
    rcases onlyRoot has with ⟨_, inRoot⟩
    have isRoot := image_type_dir isDir
    rcases getElem?_rootEntries small beyond inRoot with
      isEmpty | ⟨path, _, inum, _, isInum, isIn⟩
    · rw [isEmpty] at isRoot
      exact absurd isRoot (by decide)
    · exact absurd (isInum.symm.trans isRoot) (ne_of_gt isIn.1)
  case once =>
    intro i isDir
    rw [image_type_dir isDir, nameCount_image fits (by decide)]
    split <;> omega
  case listed =>
    intro i par isDir notRoot
    exact absurd (image_type_dir isDir) notRoot
  case links =>
    intro i alive
    rcases cases i alive with isRoot | isFile
    · subst isRoot
      rw [nameCount_image fits (by decide), upCount_image, if_neg (by omega), if_pos rfl]
      rfl
    have ne : i ≠ 0 := Nat.ne_of_gt (Nat.lt_of_le_of_lt (Nat.zero_le _) isFile.1)
    rw [nameCount_image fits ne, upCount_image, if_pos isFile,
      if_neg (Nat.ne_of_lt isFile.1), image_type_file isFile]
    rfl
  case linked =>
    intro i alive
    rcases cases i alive with isRoot | isFile
    · subst isRoot
      simp [image]
    · rw [image_type_file isFile]
      simp

end

end Mkfs

end Xv6
