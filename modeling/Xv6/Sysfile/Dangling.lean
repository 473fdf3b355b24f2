import Xv6.Sysfile.Image

/-! # Dangling entries

An entry of an allocated directory names an allocated inode, as long as `iput`
does not free a directory that the `..` of another one still names. -/

namespace Xv6

open Foundation Function

variable {Pid : Type} {ninodes : Nat}

/-- Every entry of an allocated directory names an allocated inode. -/
def FsState.NoDangling (s : FsState Pid) : Prop :=
  ∀ i (slot : Nat) (entry : Dirent), (s.disk i).type = .dir →
    (s.disk i).entries[slot]? = some entry → entry.inum ≠ 0 →
    (s.disk entry.inum).type ≠ .free

/-- The steps that keep the tree together: `iput` frees no parent of another
directory, and no link count of 16 bits overflows. -/
def KeepsTree (_ : Pid) (cmd : FsCommand) (s : FsState Pid) : Prop :=
  cmd.KeepsParents s ∧ cmd.LinksUpTo (2 ^ 16 - 1) s

theorem keepsParents_of_noDangling {cnt : Prop} {s s' : FsState Pid}
    {held : FsHeld Pid} {i : Inum}
    (inv : Consistent ninodes cnt s held) (frees : s.Frees i)
    (disk : s'.disk = update s.disk i (s.freed i))
    (noDangling : s'.NoDangling) : FsCommand.KeepsParents (.iputFree i) s := by
  intro freed isFreed _ j o par
  cases isFreed
  rcases inv.tree with ⟨leaked, tree, _⟩
  have alive := (inv.books.valid i frees.2.1).2
  have isDir : (s.disk j).type = .dir := by
    by_contra notDir
    simp [Dinode.parent?, tree.contents j notDir] at par
  rcases Option.map_eq_some_iff.mp par with ⟨entry, has, eq⟩
  have stays : s'.disk j = s.disk j := by rw [disk, update_of_ne o]
  have ne : entry.inum ≠ 0 := eq ▸ ne_of_gt (tree.range i alive).1
  have survives := noDangling j 1 entry (by rw [stays, isDir]) (by rw [stays, has]) ne
  rw [eq, disk, update_self] at survives
  exact survives rfl

variable [DecidableEq Pid]

theorem keepsTree_of_panic {p : Pid} {cmd : FsCommand} {s : FsState Pid}
    {why : FsPanic} (panics : FsState.exec ninodes p cmd s = .panic why) : KeepsTree p cmd s := by
  constructor
  · rintro i rfl
    exact absurd panics (FsState.exec_iputFree_panic ninodes p)
  · rintro i rfl
    simp [FsState.exec] at panics

variable [Fintype Pid]

/-- The processes find an image and have not made a call yet. -/
def fsBoot (Pid : Type) [Fintype Pid] [DecidableEq Pid] (ninodes : Nat)
    (image : Inum → Dinode) : Pool (fsSystem Pid ninodes) :=
  (fsSystem Pid ninodes).idle (.boot Pid image) fun _ => .boot

theorem ConsistentImage.reachable (small : ninodes ≤ 2 ^ 16) {image : Inum → Dinode}
    (consistent : ConsistentImage ninodes image) (cnt : Prop)
    {pool : Pool (fsSystem Pid ninodes)} (reach : (fsSystem Pid ninodes).Reachable
      (fsLedger Pid ninodes cnt).Allowed (fsBoot Pid ninodes image) pool) :
    ∃ held : Pid → FsHeld Pid, Consistent ninodes cnt pool.state (∑ p, held p) ∧
      (∀ p proc, pool.threads p = .done proc → held p = (fsLedger Pid ninodes cnt).idle proc) ∧
      ∀ why, (fsSystem Pid ninodes).Panics
        (fsLedger Pid ninodes cnt).Allowed pool why → why ≠ .ilockNoType :=
  (Follows.sound (fsLedger Pid ninodes cnt) small).reachable (consistent.boot cnt) reach

theorem noDangling_iff_keepsParents (small : ninodes ≤ 2 ^ 16) {image : Inum → Dinode}
    (consistent : ConsistentImage ninodes image) {pool : Pool (fsSystem Pid ninodes)}
    (reach : (fsSystem Pid ninodes).Reachable KeepsTree (fsBoot Pid ninodes image) pool) :
    pool.state.NoDangling ∧ ¬ (fsSystem Pid ninodes).Panics (fsSystem Pid ninodes).always pool
      .ilockNoType ∧ ∀ p i next r after, pool.threads p = .call (.iputFree i) next →
      pool.state.Frees i → FsState.exec ninodes p (.iputFree i) pool.state = .ok (r, after) →
      (after.NoDangling ↔ FsCommand.KeepsParents (.iputFree i) pool.state) := by
  have allowed : ∀ (p : Pid) cmd (s : FsState Pid),
      KeepsTree p cmd s → (fsLedger Pid ninodes False).Allowed p cmd s :=
    fun p cmd s keeps => ⟨keeps.1, keeps.2, False.elim⟩
  have holds : ∀ {later : Pool (fsSystem Pid ninodes)},
      (fsSystem Pid ninodes).Reachable KeepsTree (fsBoot Pid ninodes image) later →
      later.state.NoDangling := by
    intro later isReachable
    rcases consistent.reachable small False (isReachable.mono allowed) with ⟨held, inv, _⟩
    rcases inv.tree with ⟨leaked, tree, _⟩
    intro i slot entry _
    exact tree.named i slot entry
  rcases consistent.reachable small False (reach.mono allowed) with ⟨held, inv, _, safe⟩
  refine ⟨holds reach, ?_, ?_⟩
  · rintro ⟨p, cmd, next, isCall, _, panicked⟩
    exact safe .ilockNoType ⟨p, cmd, next, isCall,
      allowed p cmd _ (keepsTree_of_panic panicked), panicked⟩ rfl
  intro p i next r after isCall frees ran
  constructor
  · intro noDangling
    rcases FsState.exec_iputFree_ok ninodes p ran with
      ⟨_, _, eq⟩ | ⟨_, stays, _⟩
    · exact keepsParents_of_noDangling inv frees (by rw [eq]; rfl) noDangling
    · exact absurd frees stays
  · intro keeps
    have noIncrement : FsCommand.LinksUpTo (2 ^ 16 - 1) (.iputFree i) pool.state := by rintro j ⟨⟩
    exact holds (reach.step isCall ⟨keeps, noIncrement⟩ ran)

/-! ## A run of two processes -/

/-- A test of the steps of a run, which looks for parents among the inodes of the
disk only. -/
def keepsLinks (ninodes : Nat) (_ : Pid) : FsCommand → FsState Pid → Bool
  | .iputFree i, s =>
    decide (s.Frees i → ∀ j, j < ninodes → j ≠ i → (s.disk j).parent? ≠ some i)
  | .incNlink i, s =>
    decide ((s.inode i).nlink.toNat < 32767 ∧
      ((s.inode i).type = .dir → (s.inode i).nlink ≠ 0))
  | .writei i _ entry, s => decide (entry.inum ≠ 0 → (s.inode i).nlink ≠ 0)
  | .iallocMark i _, s => decide ((s.disk i).type = .free → s.ref i = 0)
  | _, _ => true

omit [DecidableEq Pid] [Fintype Pid] in
theorem keepsParents_of_keepsLinks {cnt : Prop} {s : FsState Pid} {held : FsHeld Pid}
    (inv : Consistent ninodes cnt s held) {p : Pid} {cmd : FsCommand}
    (passes : keepsLinks ninodes p cmd s = true) : cmd.KeepsParents s := by
  rintro i rfl frees j ne par
  rcases inv.tree with ⟨leaked, tree, _⟩
  have isDir : (s.disk j).type = .dir := by
    by_contra notDir
    simp [Dinode.parent?, tree.contents j notDir] at par
  have inRange := (tree.range j (by simp [isDir])).2
  exact of_decide_eq_true passes frees j inRange ne par

omit [DecidableEq Pid] [Fintype Pid] in
theorem linksUpTo_of_keepsLinks {s : FsState Pid} {p : Pid} {cmd : FsCommand}
    (passes : keepsLinks ninodes p cmd s = true) : cmd.LinksUpTo 32767 s := by
  rintro i rfl
  exact (of_decide_eq_true passes).1

theorem ConsistentImage.replay (small : ninodes ≤ 2 ^ 16) {image : Inum → Dinode}
    (consistent : ConsistentImage ninodes image) {pool : Pool (fsSystem Pid ninodes)}
    (events : List (System.Event Pid FsCall))
    (replayed : System.replayTested (keepsLinks ninodes) (fsBoot Pid ninodes image) events =
      some pool) :
    (fsSystem Pid ninodes).Reachable KeepsTree (fsBoot Pid ninodes image) pool := by
  refine System.Reachable.initial.replayTested ?_ _ replayed
  intro cur reach p cmd passes
  rcases consistent.reachable small False
    (reach.mono fun _ _ _ keeps => ⟨keeps.1, keeps.2, False.elim⟩) with ⟨held, inv, _⟩
  refine ⟨keepsParents_of_keepsLinks inv passes, ?_⟩
  intro i increments
  exact lt_trans (linksUpTo_of_keepsLinks passes i increments) (by decide)

/-- One process makes `a` and `a/f`, removes the file and closes it, which frees
it. The other makes `b` in `a` and moves there; `a/b` is removed and freed when
it leaves. In the end the first has `a/g` open and the second is in `a`, where it
went while the first was in `open`. The inodes of `files` files come first. -/
def sharedDirectory (files : Nat) : List (System.Event Bool FsCall) :=
  let call (p : Bool) (call : FsCall) (count : Nat) : List (System.Event Bool FsCall) :=
    .start p call :: List.replicate count (.step p)
  call false (.mkdir [97]) (25 + files) ++
  call false (.open_ [97, 47, 102] FsProgram.oCreate true) (25 + files) ++
  call true (.chdir [97]) 11 ++ call false (.unlink [97, 47, 102]) 22 ++ call false (.close 0) 2 ++
  call true (.mkdir [98]) (26 + files) ++ call true (.chdir [98]) 11 ++
  call false (.unlink [97, 47, 98]) 23 ++
  call false (.open_ [97, 47, 103] FsProgram.oCreate true) 6 ++
  call true (.chdir [47, 97]) 4 ++ List.replicate (20 + files) (.step false) ++
  List.replicate 8 (.step true)

theorem noDangling_iff_keepsParents_shared : ∃ pool : Pool (fsSystem Bool Mkfs.nInodes),
    (fsSystem Bool Mkfs.nInodes).Reachable KeepsTree
      (fsBoot Bool Mkfs.nInodes (Mkfs.image [])) pool ∧
    (pool.state.disk 2).type = .dir ∧ (pool.state.disk 3).type = .free ∧
    (pool.state.disk 4).type = .file ∧ pool.state.NoDangling ∧
    ¬(fsSystem Bool Mkfs.nInodes).Panics (fsSystem Bool Mkfs.nInodes).always pool
      .ilockNoType := by
  have outcome : ((System.replayTested (keepsLinks Mkfs.nInodes)
      (fsBoot Bool Mkfs.nInodes (Mkfs.image [])) (sharedDirectory 0)).map fun pool =>
        ((pool.state.disk 2).type, (pool.state.disk 3).type, (pool.state.disk 4).type)) =
      some (.dir, .free, .file) := by decide +kernel
  rcases Option.map_eq_some_iff.mp outcome with ⟨pool, replayed, facts⟩
  simp only [Prod.mk.injEq] at facts
  have consistent : ConsistentImage Mkfs.nInodes (Mkfs.image []) :=
    Mkfs.image_consistent (by decide) (by simp)
  have reach := consistent.replay (by decide) _ replayed
  have holds := noDangling_iff_keepsParents (by decide) consistent reach
  exact ⟨pool, reach, facts.1, facts.2.1, facts.2.2, holds.1, holds.2.1⟩

/-- The calls of a process that is alone, one after another. -/
def callsAlone (calls : List FsCall) : List (System.Event (Fin 1) FsCall) :=
  calls.flatMap fun call => [.start 0 call, .finish 0]

/-- A process moves into `a/b` and removes first `a/b` and then `a`, whose inode is
free from then on, though the `..` of the process's directory names it. Then the
process goes to `..`. -/
def removesParent : List (System.Event (Fin 1) FsCall) :=
  callsAlone [.mkdir [97], .mkdir [97, 47, 98], .chdir [97, 47, 98],
    .unlink [47, 97, 47, 98], .unlink [47, 97]] ++
  [.start 0 (.chdir dotdot)] ++ List.replicate 7 (.step 0)

theorem removed_parent_dangles : ConsistentImage Mkfs.nInodes (Mkfs.image []) ∧
    ∃ pool, (fsSystem (Fin 1) Mkfs.nInodes).Reachable (fsSystem (Fin 1) Mkfs.nInodes).always
        (fsBoot (Fin 1) Mkfs.nInodes (Mkfs.image [])) pool ∧ ¬ pool.state.NoDangling ∧
      (fsSystem (Fin 1) Mkfs.nInodes).Panics (fsSystem (Fin 1) Mkfs.nInodes).always pool
        .ilockNoType := by
  refine ⟨Mkfs.image_consistent (by decide) (by simp), ?_⟩
  have outcome : (System.replay (fsBoot (Fin 1) Mkfs.nInodes (Mkfs.image []))
      removesParent).bind (fun pool =>
        if (pool.state.disk 3).type = .dir ∧
            (pool.state.disk 3).entries[1]? = some ⟨2, dotdot⟩ ∧ (pool.state.disk 2).type = .free
        then System.panicOf pool 0 else none) = some .ilockNoType := by
    decide +kernel
  rcases Option.bind_eq_some_iff.mp outcome with ⟨pool, replayed, found⟩
  split at found
  · next facts =>
    rcases facts with ⟨isDir, present, isFree⟩
    refine ⟨pool, System.Reachable.initial.replay _ replayed, ?_, System.panics_of_panicOf found⟩
    intro noDangling
    exact noDangling 3 1 ⟨2, dotdot⟩ isDir present (by simp) isFree
  · cases found

end Xv6
