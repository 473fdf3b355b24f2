import Xv6.Sysfile.Dangling

/-! # Link counts

Between calls the link count of an inode is the number of entries that name it,
and an inode is allocated just as long as it is named or referred to. -/

open scoped BigOperators

namespace Xv6

open Foundation Dinode List

/-- How many entries other than `.` name an inode. -/
def Dinode.links (dinode : Dinode) (inum : Inum) : Nat :=
  dinode.entries.countP fun entry =>
    entry.inum != 0 && entry.inum == inum && !namecmp entry.name dot

/-- How many entries other than `.` name an inode in directories that have links
themselves. -/
def FsState.linkCount (ninodes : Nat) (s : FsState Pid) (inum : Inum) : Nat :=
  ∑ dir ∈ Finset.range ninodes,
    if (s.disk dir).type = .dir ∧ 0 < (s.disk dir).nlink.toNat then
      (s.disk dir).links inum
    else 0

/-- The steps under which links are counted exactly: no count passes 32767, no
directory without links is given an entry, `iput` frees no parent of another
directory, and `ialloc` takes no inode that is still referred to. -/
def KeepsCounts (_ : Pid) (cmd : FsCommand) (s : FsState Pid) : Prop :=
  cmd.LinksUpTo 32767 s ∧ cmd.AddsToLinked s ∧
    cmd.KeepsParents s ∧ cmd.TakesUnreferenced s

theorem Dinode.links_eq {dinode : Dinode} {inum dir : Inum} (formed : dinode.Formed dir)
    (plain : ∀ (slot : Nat) (entry : Dirent), 0 < slot →
      dinode.entries[slot]? = some entry → entry.inum ≠ 0 → namecmp entry.name dot = false)
    (ne : inum ≠ 0) : dinode.links inum =
      dinode.names inum + if dinode.parent? = some inum then 1 else 0 := by
  rcases formed with ⟨fst, par, parNonzero, snd⟩
  match entries : dinode.entries with
  | [] => simp [entries] at fst
  | [_] => simp [entries] at snd
  | one :: two :: rest =>
    rw [entries] at fst snd
    cases fst
    cases snd
    have behind : rest.countP (fun entry =>
          entry.inum != 0 && entry.inum == inum && !namecmp entry.name dot) =
        rest.countP fun entry => entry.inum == inum := by
      apply countP_congr
      intro entry mem
      rcases getElem?_of_mem mem with ⟨ix, atIndex⟩
      constructor
      · intro h
        simp only [Bool.and_eq_true] at h
        exact h.1.2
      intro isInum
      have named := eq_of_beq isInum
      have notDot := plain (ix + 2) entry (by omega) (by rw [entries]; exact atIndex) (named ▸ ne)
      simp [named, ne, notDot]
    have isDot : namecmp dot dot = true := by decide
    have notDot : namecmp dotdot dot = false := by decide
    rw [links, names, parent?, entries, countP_cons, countP_cons, behind]
    simp [isDot, notDot, parNonzero]

variable {Pid : Type} {ninodes : Nat} {s : FsState Pid} {held : FsHeld Pid}

/-- Between calls processes hold references only. -/
def Quiet (held : Multiset (FsResource Pid)) : Prop :=
  ∀ res ∈ held, ∃ inum, res = .ref inum

theorem Quiet.amount_eq (quiet : Quiet held) {measure : FsResource Pid → Nat}
    (none : ∀ inum, measure (.ref inum) = 0) (inum : Inum) : amount measure held inum = 0 := by
  by_contra pos
  rcases exists_of_amount_pos (Nat.pos_of_ne_zero pos) with ⟨res, mem, _, counts⟩
  rcases quiet res mem with ⟨o, eq⟩
  rw [eq, none] at counts
  omega

theorem Consistent.linked_iff_stays (inv : Consistent ninodes True s held) (quiet : Quiet held) {i :
    Inum} (isDir : (s.disk i).type = .dir) : 0 < (s.disk i).nlink.toNat ↔ s.removed i = false := by
  rcases inv.tree with ⟨leaked, tree, noLeak⟩
  have exact := inv.exact trivial
  have linked := tree.links i (by simp [isDir])
  rw [debts_pending, debts_leaked, quiet.amount_eq (fun _ => rfl), noLeak trivial] at linked
  constructor
  · intro pos
    by_contra notStays
    have gone : s.removed i = true := by simpa using notStays
    have noNames := tree.nameCount_of_removed isDir gone
    have noChildren := (exact.gone i isDir gone).1
    simp only [Pi.zero_apply] at linked
    omega
  · intro stays
    by_cases isRoot : i = rootIno
    · rw [isRoot]
      exact tree.root_linked
    have formed := tree.formed i isDir (quiet.amount_eq (fun _ => rfl) i)
    rcases formed.2 with ⟨parent, _, second⟩
    have up : (s.disk i).parent? = some parent := by simp [parent?, second]
    rcases exact.listed i parent isDir stays isRoot up with named | missing
    · rcases ((s.disk parent).names_pos_iff i).mp named with
        ⟨slot, entry, beyond, has, eq⟩
      have counted := tree.nameCount_pos beyond has
      rw [eq] at counted
      omega
    · rw [quiet.amount_eq (fun _ => rfl)] at missing
      omega

theorem Consistent.linkCount_eq (inv : Consistent ninodes True s held)
    (quiet : Quiet held) {i : Inum} (ne : i ≠ 0) :
    s.linkCount ninodes i = nameCount ninodes s.disk i + upCount ninodes s.disk s.removed i := by
  rcases inv.tree with ⟨leaked, tree, _⟩
  rw [FsState.linkCount, nameCount, upCount, ← Finset.sum_add_distrib]
  apply Finset.sum_congr rfl
  intro dir _
  by_cases isDir : (s.disk dir).type = .dir
  · have linked := inv.linked_iff_stays quiet isDir
    cases stays : s.removed dir with
    | false =>
      have formed := tree.formed dir isDir (quiet.amount_eq (fun _ => rfl) dir)
      rw [if_pos ⟨isDir, linked.mpr stays⟩, links_eq formed (tree.plain dir) ne]
      simp
    | true =>
      have empty := ((inv.exact trivial).gone dir isDir stays).2
      rw [if_neg (by simp [linked, stays]), names_of_isdirempty empty ne]
      simp
  · have noEnts := tree.contents dir isDir
    simp [isDir, names, parent?, noEnts]

theorem Consistent.allocated_of_linkCount {cnt : Prop} (inv : Consistent ninodes cnt s held)
    {i : Inum} (named : 0 < s.linkCount ninodes i) : (s.disk i).type ≠ .free := by
  rcases inv.tree with ⟨leaked, tree, _⟩
  rcases Finset.exists_ne_zero_of_sum_ne_zero (ne_of_gt named) with ⟨dir, _, counts⟩
  have listed : (s.disk dir).links i ≠ 0 := by
    intro none
    simp [none] at counts
  rcases countP_pos_iff.mp (Nat.pos_of_ne_zero listed) with ⟨entry, mem, h⟩
  simp only [Bool.and_eq_true, bne_iff_ne, ne_eq, beq_iff_eq] at h
  rcases getElem?_of_mem mem with ⟨slot, has⟩
  rw [← h.1.2]
  exact tree.named dir slot entry has h.1.1

theorem amount_refs (measure : FsResource Pid → Nat) (refs : List Inum) (i : Inum) :
    amount measure (refs.map .ref : List (FsResource Pid)) i = refs.count i * measure (.ref i) := by
  induction refs with
  | nil => simp
  | cons ip refs ih =>
    rw [map_cons, ← Multiset.cons_coe, amount_cons, ih, amount_ref, count_cons, add_mul, add_comm]
    split <;> simp_all

theorem amount_sum [Fintype Pid] (measure : FsResource Pid → Nat) (held : Pid → FsHeld Pid)
    (i : Inum) : amount measure (∑ p, held p) i = ∑ p, amount measure (held p) i :=
  map_sum (⟨⟨(amount measure · i), rfl⟩, (amount_add measure · · i)⟩ : FsHeld Pid →+ Nat) held _

variable [DecidableEq Pid]

theorem mem_idle {cnt : Prop} {proc : Proc} {res : FsResource Pid} :
    res ∈ (fsLedger Pid ninodes cnt).idle proc ↔
    ∃ i, res = .ref i ∧ (proc.cwd = some i ∨ i ∈ proc.ofile) := by
  change res ∈ ((proc.cwd.toList ++ proc.ofile).map .ref : List (FsResource Pid)) ↔ _
  simp only [mem_map, mem_append, Option.mem_toList]
  constructor
  · intro h
    rcases h with ⟨i, kept, eq⟩
    exact ⟨i, eq.symm, kept⟩
  · rintro ⟨i, eq, kept⟩
    exact ⟨i, kept, eq.symm⟩

variable [Fintype Pid]

/-- What a process refers to is allocated, whatever calls others are in. Between calls no
inode is locked, and `ref` counts the references of the processes. -/
theorem inode_references (small : ninodes ≤ 2 ^ 16) {image : Inum → Dinode}
    (consistent : ConsistentImage ninodes image) {pool : Pool (fsSystem Pid ninodes)}
    (reach : (fsSystem Pid ninodes).Reachable KeepsTree (fsBoot Pid ninodes image) pool) :
    (∀ p proc i, pool.threads p = .done proc → proc.cwd = some i ∨ i ∈ proc.ofile →
      (pool.state.disk i).type ≠ .free) ∧
    ∀ procs : Pid → Proc, (∀ p, pool.threads p = .done (procs p)) → ∀ i, pool.state.lock i = none ∧
      pool.state.ref i = ∑ p, ((procs p).cwd.toList ++ (procs p).ofile).count i := by
  rcases consistent.reachable small False (reach.mono fun _ _ _ keeps => ⟨keeps.1, keeps.2, nofun⟩)
    with ⟨held, inv, idle, _⟩
  constructor
  · intro p proc i isDone kept
    apply inv.books.fits (.ref i)
    rw [Multiset.mem_sum]
    refine ⟨p, Finset.mem_univ p, ?_⟩
    rw [idle p proc isDone]
    exact mem_idle.mpr ⟨i, rfl, kept⟩
  intro procs quiet i
  have total (measure : FsResource Pid → Nat) : amount measure (∑ p, held p) i =
      ∑ p, ((procs p).cwd.toList ++ (procs p).ofile).count i * measure (.ref i) := by
    rw [amount_sum]
    apply Finset.sum_congr rfl
    intro p _
    rw [idle p _ (quiet p)]
    exact amount_refs measure _ i
  refine ⟨inv.books.unlocked i ?_, ?_⟩
  · simp [total]
  · simp [inv.books.refs, total]

theorem inode_references_shared : ∃ pool : Pool (fsSystem Bool Mkfs.nInodes),
    pool.threads false = .done ⟨some 1, [4]⟩ ∧ pool.threads true = .done ⟨some 2, []⟩ ∧
    (pool.state.disk 4).type ≠ .free ∧ pool.state.ref 1 = 1 ∧ pool.state.ref 3 = 0 ∧
    pool.state.ref 4 = 1 ∧ pool.state.lock 4 = none := by
  have outcome : ((System.replayTested (keepsLinks Mkfs.nInodes)
      (fsBoot Bool Mkfs.nInodes (Mkfs.image [])) (sharedDirectory 0)).map fun pool =>
        (System.valueOf pool false, System.valueOf pool true)) =
      some (some ⟨some 1, [4]⟩, some ⟨some 2, []⟩) := by decide +kernel
  rcases Option.map_eq_some_iff.mp outcome with ⟨pool, replayed, facts⟩
  simp only [Prod.mk.injEq] at facts
  have first := System.done_of_valueOf facts.1
  have second := System.done_of_valueOf facts.2
  have consistent : ConsistentImage Mkfs.nInodes (Mkfs.image []) :=
    Mkfs.image_consistent (by decide) (by simp)
  have holds := inode_references (by decide) consistent
    (consistent.replay (by decide) _ replayed)
  have counted := holds.2 (fun p => if p then ⟨some 2, []⟩ else ⟨some 1, [4]⟩)
    (Bool.forall_bool.mpr ⟨first, second⟩)
  exact ⟨pool, first, second, holds.1 false _ 4 first (by simp), (counted 1).2, (counted 3).2,
    (counted 4).2, (counted 4).1⟩

omit [DecidableEq Pid] [Fintype Pid] in
theorem keepsCounts_of_keepsLinks {cnt : Prop} {s : FsState Pid} {held : FsHeld Pid}
    (inv : Consistent ninodes cnt s held) {p : Pid} {cmd : FsCommand}
    (passes : keepsLinks ninodes p cmd s = true) : KeepsCounts p cmd s := by
  refine ⟨linksUpTo_of_keepsLinks passes, ⟨?_, ?_⟩, keepsParents_of_keepsLinks inv passes, ?_⟩
  · rintro i rfl
    exact (of_decide_eq_true passes).2
  · rintro i slot entry rfl
    exact of_decide_eq_true passes
  · rintro i type rfl
    exact of_decide_eq_true passes

omit [Fintype Pid] in
theorem allowed_of_keepsCounts (p : Pid) (cmd : FsCommand) (s : FsState Pid)
    (keeps : KeepsCounts p cmd s) : (fsLedger Pid ninodes True).Allowed p cmd s := by
  refine ⟨keeps.2.2.1, ?_, fun _ => ⟨keeps.2.1, keeps.2.2.2⟩⟩
  intro i increments
  exact lt_trans (keeps.1 i increments) (by decide)

section

variable {cnt : Prop} {pool : Pool (fsSystem Pid ninodes)} {held : Pid → FsHeld Pid}
  (quiet : ∀ p, ∃ proc, pool.threads p = .done proc)
  (idle : ∀ p proc, pool.threads p = .done proc → held p = (fsLedger Pid ninodes cnt).idle proc)
include quiet idle

/-- Between calls the processes hold what they have open and where they are. -/
theorem mem_held (res : FsResource Pid) : res ∈ ∑ p, held p ↔
    ∃ p proc i, pool.threads p = .done proc ∧ res = .ref i ∧
      (proc.cwd = some i ∨ i ∈ proc.ofile) := by
  rw [Multiset.mem_sum]
  constructor
  · intro mem
    rcases mem with ⟨p, _, mem⟩
    rcases quiet p with ⟨proc, isDone⟩
    rw [idle p proc isDone] at mem
    rcases mem_idle.mp mem with ⟨i, eq, kept⟩
    exact ⟨p, proc, i, isDone, eq, kept⟩
  · rintro ⟨p, proc, i, isDone, eq, kept⟩
    refine ⟨p, Finset.mem_univ p, ?_⟩
    rw [idle p proc isDone]
    exact mem_idle.mpr ⟨i, eq, kept⟩

theorem quiet_sum : Quiet (∑ p, held p) := by
  intro res mem
  rcases (mem_held quiet idle res).mp mem with ⟨_, _, i, _, eq, _⟩
  exact ⟨i, eq⟩

end

theorem link_counts_exact {files : List Path} (fits : files.length + 2 ≤ Mkfs.nInodes)
    (noDot : ∀ path ∈ files, namecmp (Mkfs.shortname path) dot = false)
    {pool : Pool (fsSystem Pid Mkfs.nInodes)}
    (reach : (fsSystem Pid Mkfs.nInodes).Reachable KeepsCounts
      (fsBoot Pid Mkfs.nInodes (Mkfs.image files)) pool)
    (quiet : ∀ p, ∃ proc, pool.threads p = .done proc) :
    (∀ i, (pool.state.disk i).type ≠ .free → 0 < (pool.state.disk i).nlink.toNat →
      (pool.state.disk i).nlink.toNat = pool.state.linkCount Mkfs.nInodes i) ∧
    ∀ i, (pool.state.disk i).type ≠ .free ↔ 0 < pool.state.linkCount Mkfs.nInodes i ∨
        ∃ p proc, pool.threads p = .done proc ∧ (proc.cwd = some i ∨ i ∈ proc.ofile) := by
  rcases (Mkfs.image_consistent fits noDot).reachable (by decide) True
    (reach.mono allowed_of_keepsCounts) with ⟨held, inv, idle, _⟩
  have keeps := mem_held quiet idle
  have isQuiet := quiet_sum quiet idle
  have counted : ∀ i, (pool.state.disk i).type ≠ .free →
      (pool.state.disk i).nlink.toNat = pool.state.linkCount Mkfs.nInodes i := by
    intro i alive
    rcases inv.tree with ⟨leaked, tree, noLeak⟩
    have linked := tree.links i alive
    have nonzero := ne_of_gt (tree.range i alive).1
    rw [debts_pending, debts_leaked, isQuiet.amount_eq (fun _ => rfl), noLeak trivial] at linked
    rw [inv.linkCount_eq isQuiet nonzero, ← linked, Pi.zero_apply, add_zero, add_zero]
  refine ⟨fun i alive _ => counted i alive, ?_⟩
  intro i
  constructor
  · intro alive
    by_cases linked : (pool.state.disk i).nlink = 0
    · right
      have owned := ((inv.exact trivial).referenced i alive linked).1
      rcases exists_of_amount_pos owned with ⟨res, mem, about, _⟩
      rcases (keeps res).mp mem with ⟨p, proc, j, isDone, eq, kept⟩
      rw [eq] at about
      cases about
      exact ⟨p, proc, isDone, kept⟩
    · left
      rw [← counted i alive]
      exact Nat.pos_of_ne_zero fun zero => linked (BitVec.eq_of_toNat_eq zero)
  · rintro (named | ⟨p, proc, isDone, kept⟩)
    · exact inv.allocated_of_linkCount named
    · exact inv.books.fits (.ref i) ((keeps _).mpr ⟨p, proc, i, isDone, rfl, kept⟩)

theorem keepsCounts_replay {pool : Pool (fsSystem Pid Mkfs.nInodes)}
    (events : List (System.Event Pid FsCall))
    (replayed : System.replayTested (keepsLinks Mkfs.nInodes)
      (fsBoot Pid Mkfs.nInodes (Mkfs.image [])) events = some pool) :
    (fsSystem Pid Mkfs.nInodes).Reachable KeepsCounts
      (fsBoot Pid Mkfs.nInodes (Mkfs.image [])) pool := by
  refine System.Reachable.initial.replayTested ?_ _ replayed
  intro cur reach p cmd passes
  rcases (Mkfs.image_consistent (by decide) (by simp)).reachable (by decide) True
    (reach.mono allowed_of_keepsCounts) with ⟨held, inv, _⟩
  exact keepsCounts_of_keepsLinks inv passes

theorem link_counts_exact_shared : ∃ pool : Pool (fsSystem Bool Mkfs.nInodes),
    (fsSystem Bool Mkfs.nInodes).Reachable KeepsCounts
      (fsBoot Bool Mkfs.nInodes (Mkfs.image [])) pool ∧
    (∀ p, ∃ proc, pool.threads p = .done proc) ∧
    (pool.state.disk 1).nlink = 2 ∧ pool.state.linkCount Mkfs.nInodes 1 = 2 ∧
    (pool.state.disk 3).type = .free := by
  have outcome : ((System.replayTested (keepsLinks Mkfs.nInodes)
      (fsBoot Bool Mkfs.nInodes (Mkfs.image [])) (sharedDirectory 0)).map fun pool =>
        (System.valueOf pool false, System.valueOf pool true, (pool.state.disk 1).type,
          (pool.state.disk 1).nlink, (pool.state.disk 3).type)) =
      some (some ⟨some 1, [4]⟩, some ⟨some 2, []⟩, .dir, 2, .free) := by decide +kernel
  rcases Option.map_eq_some_iff.mp outcome with ⟨pool, replayed, facts⟩
  simp only [Prod.mk.injEq] at facts
  rcases facts with ⟨first, second, isDir, linked, isFree⟩
  have reach := keepsCounts_replay _ replayed
  have quiet : ∀ p, ∃ proc, pool.threads p = .done proc := Bool.forall_bool.mpr
    ⟨⟨_, System.done_of_valueOf first⟩, ⟨_, System.done_of_valueOf second⟩⟩
  have exact := (link_counts_exact (by decide) (by simp) reach quiet).1 1 (by simp [isDir])
    (by simp [linked])
  rw [linked] at exact
  exact ⟨pool, reach, quiet, linked, exact.symm, isFree⟩

/-- A process creates a file in its current directory, which has been removed. -/
def createsInRemoved : List (System.Event (Fin 1) FsCall) :=
  callsAlone [.mkdir [100], .chdir [100], .unlink [47, 100],
    .open_ [120] FsProgram.oCreate true]

/-- One process closes an unlinked file and is stopped in `iput` after it has freed
the inode. Another creates, closes and unlinks a file in that inode, which it
does not free because of the first one's reference. -/
def reusesReferenced : List (System.Event (Fin 2) FsCall) :=
  [.start 0 (.open_ [120] FsProgram.oCreate true), .finish 0,
   .start 0 (.unlink [120]), .finish 0,
   .start 0 (.close 0), .step 0,
   .start 1 (.open_ [121] FsProgram.oCreate true), .finish 1,
   .start 1 (.close 0), .finish 1,
   .start 1 (.unlink [121]), .finish 1,
   .finish 0]

theorem link_counts_differ : (∃ pool, (fsSystem (Fin 1) Mkfs.nInodes).Reachable
        (fsSystem (Fin 1) Mkfs.nInodes).always (fsBoot (Fin 1) Mkfs.nInodes (Mkfs.image [])) pool ∧
      (∀ p, ∃ proc, pool.threads p = .done proc) ∧
      (pool.state.disk 3).type = .file ∧ (pool.state.disk 3).nlink = 1 ∧
      pool.state.linkCount Mkfs.nInodes 3 = 0) ∧ ∃ pool, (fsSystem (Fin 2) Mkfs.nInodes).Reachable
        (fsSystem (Fin 2) Mkfs.nInodes).always (fsBoot (Fin 2) Mkfs.nInodes (Mkfs.image [])) pool ∧
      (∀ p, pool.threads p = .done .boot) ∧
      (pool.state.disk 2).type = .file ∧ pool.state.linkCount Mkfs.nInodes 2 = 0 := by
  constructor
  · have outcome : ((System.replay (fsBoot (Fin 1) Mkfs.nInodes (Mkfs.image []))
        createsInRemoved).map fun pool =>
          (System.valueOf pool 0, (pool.state.disk 3).type, (pool.state.disk 3).nlink,
            pool.state.linkCount Mkfs.nInodes 3)) = some (some ⟨some 2, [3]⟩, .file, 1, 0) := by
      decide +kernel
    rcases System.exists_of_replay outcome with ⟨pool, reach, facts⟩
    simp only [Prod.mk.injEq] at facts
    refine ⟨pool, reach, ?_, facts.2⟩
    intro p
    rw [Subsingleton.elim p 0]
    exact ⟨_, System.done_of_valueOf facts.1⟩
  · have outcome : ((System.replay (fsBoot (Fin 2) Mkfs.nInodes (Mkfs.image []))
        reusesReferenced).map fun pool =>
          (System.valueOf pool 0, System.valueOf pool 1, (pool.state.disk 2).type,
            pool.state.linkCount Mkfs.nInodes 2)) = some (some .boot, some .boot, .file, 0) := by
      decide +kernel
    rcases System.exists_of_replay outcome with ⟨pool, reach, facts⟩
    simp only [Prod.mk.injEq] at facts
    refine ⟨pool, reach, ?_, facts.2.2⟩
    intro p
    match p with
    | 0 => exact System.done_of_valueOf facts.1
    | 1 => exact System.done_of_valueOf facts.2.1

end Xv6
