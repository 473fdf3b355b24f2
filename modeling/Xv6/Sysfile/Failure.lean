import Xv6.Sysfile.LinkCount

/-! # Calls that return -1

A call that runs alone and fails leaves the disk as it was, except that `open` creates
a file before it looks for a free descriptor. Path resolution is compared with a lookup
in the inodes on disk; on the way the calls only take and give up references and
locks. -/

namespace Xv6

open Foundation FsProgram Function FsState List Program

variable {Pid : Type} [DecidableEq Pid] {ninodes : Nat}

/-! ## States between calls -/

/-- What holds when no call is in progress: cached copies are what the disk holds, and
an inode that nothing links to is referred to. -/
structure Settled (s : FsState Pid) : Prop where
  coherent : ∀ i, 0 < s.ref i → s.valid i = true →
    s.inode i = s.disk i ∧ (s.disk i).type ≠ .free
  kept : ∀ i, (s.disk i).type ≠ .free → (s.disk i).nlink = 0 → 0 < s.ref i

/-- The state differs from `base` in what one process holds: references to the inodes
in `extra` and the locks of those in `locked`. -/
structure Near (p : Pid) (base s : FsState Pid) (extra locked : List Inum) :
    Prop where
  disk : s.disk = base.disk
  data : s.data = base.data
  ref : ∀ i, s.ref i = base.ref i + extra.count i
  lock : ∀ i, i ∉ locked → s.lock i = base.lock i
  held : ∀ i ∈ locked, base.lock i = none ∧ s.lock i = some p ∧ s.valid i = true ∧
    0 < s.ref i
  nodup : locked.Nodup
  coherent : ∀ i, 0 < s.ref i → s.valid i = true →
    s.inode i = s.disk i ∧ (s.disk i).type ≠ .free

section

variable {p : Pid} {base s after : FsState Pid} {extra locked : List Inum} {i : Inum}

/-- The program comes to its end with this value and this state. -/
abbrev FsProgram.Returns (ninodes : Nat) (p : Pid) (s : FsState Pid) (prog : FsProgram α)
    (out : α × FsState Pid) : Prop := prog.run (fsSystem Pid ninodes).toShared p s = .ok out

theorem FsProgram.run_step {cmd : FsCommand} {next : cmd.Response → FsProgram α} {v : α}
    (ran : Returns ninodes p s (step cmd >>= next) (v, after)) :
    ∃ r mid, exec ninodes p cmd s = .ok (r, mid) ∧ Returns ninodes p mid (next r) (v, after) :=
  run_command_bind_ok ran

omit [DecidableEq Pid] in
theorem Near.start (settled : Settled s) (p : Pid) : Near p s s [] [] where
  disk := rfl
  data := rfl
  ref _ := rfl
  lock _ _ := rfl
  held := by simp
  nodup := nodup_nil
  coherent := settled.coherent

section

variable (near : Near p base s extra locked)
include near

section

omit [DecidableEq Pid]

theorem Near.perm {o : List Inum} (perm : extra.Perm o) : Near p base s o locked :=
  { near with ref := fun i => by rw [near.ref, perm.count_eq] }

theorem Near.inode_eq (isLk : i ∈ locked) :
    s.inode i = base.disk i ∧ (base.disk i).type ≠ .free := by
  obtain ⟨_, _, isVal, refd⟩ := near.held i isLk
  rw [← near.disk]
  exact near.coherent i refd isVal

theorem Near.gain (i : Inum) (valid : Inum → Bool)
    (same : ∀ j, 0 < s.ref j → valid j = s.valid j) (unused : s.ref i = 0 → valid i = false) :
    Near p base
      { s with ref := update s.ref i (s.ref i + 1), valid := valid }
      (i :: extra) locked := by
  have refs : ∀ j, update s.ref i (s.ref i + 1) j = base.ref j + (i :: extra).count j := by
    intro j
    by_cases here : j = i
    · rw [here, update_self, near.ref, count_cons_self]
      omega
    · rw [update_of_ne here, near.ref, count_cons_of_ne (Ne.symm here)]
  refine ⟨near.disk, near.data, refs, near.lock, ?_, near.nodup, ?_⟩
  · intro j isLk
    obtain ⟨wasFree, mine, isVal, refd⟩ := near.held j isLk
    refine ⟨wasFree, mine, ?_, ?_⟩
    · exact (same j refd).trans isVal
    dsimp only
    rw [refs]
    rw [near.ref] at refd
    exact Nat.lt_of_lt_of_le refd (Nat.add_le_add_left count_le_count_cons _)
  · intro j refd isVal
    dsimp only at refd isVal ⊢
    by_cases old : 0 < s.ref j
    · rw [same j old] at isVal
      exact near.coherent j old isVal
    have here : j = i := by
      by_contra o
      rw [update_of_ne o] at refd
      exact old refd
    rw [here] at isVal old
    rw [unused (by omega)] at isVal
    cases isVal

end

theorem Near.iget (did : exec ninodes p (.iget i) s = .ok ((), after)) :
    Near p base after (i :: extra) locked := by
  rw [exec] at did
  split at did
  · next refd =>
    cases did
    exact near.gain i s.valid (fun _ _ => rfl) fun unused => by omega
  next unreferred =>
  have unused : s.ref i = 0 := by omega
  split at did
  · cases did
    have same : ∀ j, 0 < s.ref j → update s.valid i false j = s.valid j := by
      intro j refd
      have o : j ≠ i := by
        rintro rfl
        omega
      rw [update_of_ne o]
    have gained := near.gain i _ same fun _ => update_self _ _ _
    rwa [unused] at gained
  · cases did

theorem Near.idup (refd : 0 < s.ref i) (did : exec ninodes p (.idup i) s = .ok ((), after)) :
    Near p base after (i :: extra) locked := by
  cases did
  exact near.gain i s.valid (fun _ _ => rfl) fun unused => by omega

theorem Near.ilock (did : exec ninodes p (.ilock i) s = .ok ((), after)) :
    Near p base after extra (i :: locked) := by
  rw [exec] at did
  split at did
  · cases did
  next refd =>
  split at did
  · cases did
  next unlocked =>
  have o : i ∉ locked := by
    intro isLk
    rw [(near.held i isLk).2.1] at unlocked
    cases unlocked
  have wasFree : base.lock i = none := by rw [← near.lock i o, unlocked]
  have locks : ∀ j, j ∉ i :: locked → update s.lock i (some p) j = base.lock j := by
    intro j notLk
    rw [mem_cons, not_or] at notLk
    rw [update_of_ne notLk.1, near.lock j notLk.2]
  have mine : ∀ j ∈ i :: locked, base.lock j = none ∧
      update s.lock i (some p) j = some p ∧ 0 < s.ref j := by
    intro j isLk
    rcases mem_cons.mp isLk with here | old
    · rw [here, update_self]
      exact ⟨wasFree, rfl, by omega⟩
    have ne : j ≠ i := by
      rintro rfl
      exact o old
    obtain ⟨free, held, _, refd⟩ := near.held j old
    rw [update_of_ne ne]
    exact ⟨free, held, refd⟩
  have nodup : (i :: locked).Nodup := nodup_cons.mpr ⟨o, near.nodup⟩
  split at did
  · next isVal =>
    cases did
    refine ⟨near.disk, near.data, near.ref, locks, ?_, nodup, near.coherent⟩
    intro j isLk
    obtain ⟨free, held, refd⟩ := mine j isLk
    refine ⟨free, held, ?_, refd⟩
    rcases mem_cons.mp isLk with here | old
    · rwa [here]
    · exact (near.held j old).2.2.1
  · split at did
    · cases did
    next alive =>
    cases did
    refine ⟨near.disk, near.data, near.ref, locks, ?_, nodup, ?_⟩
    · intro j isLk
      obtain ⟨free, held, refd⟩ := mine j isLk
      refine ⟨free, held, ?_, refd⟩
      by_cases here : j = i
      · rw [here]
        exact update_self _ _ _
      rcases mem_cons.mp isLk with same | old
      · exact absurd same here
      · exact (update_of_ne here _ _).trans (near.held j old).2.2.1
    · intro j refd isVal
      dsimp only at isVal ⊢
      by_cases here : j = i
      · rw [here, update_self]
        exact ⟨rfl, alive⟩
      · rw [update_of_ne here] at isVal ⊢
        exact near.coherent j refd isVal

end

theorem Near.iunlock (near : Near p base s extra (i :: locked))
    (did : exec ninodes p (.iunlock i) s = .ok ((), after)) : Near p base after extra locked := by
  obtain ⟨o, nodup⟩ := nodup_cons.mp near.nodup
  rw [exec_iunlock_ok ninodes p did]
  refine ⟨near.disk, near.data, near.ref, ?_, ?_, nodup, near.coherent⟩
  · intro j notLk
    dsimp only
    by_cases here : j = i
    · rw [here, update_self, (near.held i mem_cons_self).1]
    · rw [update_of_ne here]
      exact near.lock j (by simp [here, notLk])
  · intro j isLk
    have ne : j ≠ i := by
      rintro rfl
      exact o isLk
    obtain ⟨free, held, rest⟩ := near.held j (mem_cons_of_mem i isLk)
    exact ⟨free, (update_of_ne ne _ _).trans held, rest⟩

omit [DecidableEq Pid] in
theorem Near.not_frees (settled : Settled base) (near : Near p base s (i :: extra) locked) :
    ¬s.Frees i := by
  rintro ⟨once, isVal, cut⟩
  obtain ⟨same, alive⟩ := near.coherent i (by omega) isVal
  rw [same, near.disk] at cut
  rw [near.disk] at alive
  have refd := settled.kept i alive cut
  rw [near.ref, count_cons_self] at once
  omega

variable {out : Unit}

theorem Near.iput (settled : Settled base) (near : Near p base s (i :: extra) locked)
    (remains : i ∈ locked → 0 < base.ref i + extra.count i)
    (ran : Returns ninodes p s (iput i) (out, after)) : Near p base after extra locked := by
  obtain ⟨freed, mid, did, ran⟩ := run_step ran
  rcases exec_iputFree_ok ninodes p did with
    ⟨_, frees, _⟩ | ⟨isFalse, _, changed⟩
  · exact absurd frees (near.not_frees settled)
  subst isFalse changed
  cases ran
  have refs : ∀ j, update s.ref i (s.ref i - 1) j = base.ref j + extra.count j := by
    intro j
    by_cases here : j = i
    · rw [here, update_self, near.ref, count_cons_self]
      omega
    · rw [update_of_ne here, near.ref, count_cons_of_ne (Ne.symm here)]
  refine ⟨near.disk, near.data, refs, near.lock, ?_, near.nodup, ?_⟩
  · intro j isLk
    obtain ⟨free, held, isVal, refd⟩ := near.held j isLk
    refine ⟨free, held, isVal, ?_⟩
    dsimp only
    by_cases here : j = i
    · rw [refs, here]
      exact remains (here ▸ isLk)
    · rwa [update_of_ne here]
  · intro j refd isVal
    apply near.coherent j _ isVal
    dsimp only at refd
    rw [refs] at refd
    rw [near.ref]
    exact Nat.lt_of_lt_of_le refd (Nat.add_le_add_left count_le_count_cons _)

theorem Near.iunlockput (settled : Settled base) (near : Near p base s (i :: extra) (i :: locked))
    (ran : Returns ninodes p s (iunlockput i) (out, after)) : Near p base after extra locked := by
  obtain ⟨_, mid, did, ran⟩ := run_step ran
  exact (near.iunlock did).iput settled (fun isLk => absurd isLk (nodup_cons.mp near.nodup).1) ran

/-! ## Paths -/

/-- The inode that a path leads to, or the directory of its last element and that
element. -/
def resolve (disk : Inum → Dinode) (nameiparent : Bool) : Inum → List Name →
    Option (Inum × Name)
  | ip, [] => if nameiparent then none else some (ip, [])
  | ip, name :: rest =>
    if (disk ip).type = .dir then
      if nameiparent && rest.isEmpty then some (ip, name)
      else
        match (disk ip).lookup name with
        | none => none
        | some (next, _) => resolve disk nameiparent next rest
    else none

/-- Where `namex` begins. -/
def resolvePath (disk : Inum → Dinode) (cwd : Inum) (path : Path) (nameiparent : Bool) :
    Option (Inum × Name) :=
  resolve disk nameiparent (if path.head? = some slash then rootIno else cwd) (elements path)

variable {dp : Inum} {name : Name}

theorem Near.dirlookup {found : Option (Inum × Nat)} (near : Near p base s extra locked)
    (isLk : dp ∈ locked) (ran : Returns ninodes p s (dirlookup dp name) (found, after)) :
    (base.disk dp).type = .dir ∧ found = (base.disk dp).lookup name ∧
    Near p base after ((found.map Prod.fst).toList ++ extra) locked := by
  obtain ⟨dir, mid, did, ran⟩ := run_step ran
  cases did
  rw [(near.inode_eq isLk).1] at ran
  split at ran
  · next isDir =>
    refine ⟨isDir, ?_⟩
    split at ran
    · next lost =>
      cases ran
      exact ⟨lost.symm, near⟩
    next inum slot has =>
    obtain ⟨_, mid, did, ran⟩ := run_step ran
    cases ran
    exact ⟨has.symm, near.iget did⟩
  · cases ran

variable {ip : Inum}

theorem Near.namexFrom (settled : Settled base) {par : Bool}
    {names : List Name} {found : Option (Inum × Name)} (near : Near p base s (ip :: extra) [])
    (ran : Returns ninodes p s (namexFrom par ip names) (found, after)) : found = resolve
    base.disk par ip names ∧ Near p base after ((found.map Prod.fst).toList ++ extra) [] := by
  induction names generalizing ip s with
  | nil =>
    rw [namexFrom] at ran
    rw [resolve]
    split at ran
    · next isPar =>
      obtain ⟨_, mid, ranPut, ran⟩ := run_bind_ok ran
      cases ran
      exact ⟨(if_pos isPar).symm, near.iput settled (by simp) ranPut⟩
    · next notPar =>
      cases ran
      exact ⟨(if_neg notPar).symm, near⟩
  | cons name rest ih =>
    obtain ⟨_, locked, did, ran⟩ := run_step ran
    have nearLk := near.ilock did
    obtain ⟨inode, _, did, ran⟩ := run_step ran
    cases did
    rw [(nearLk.inode_eq (by simp)).1] at ran
    rw [resolve]
    split at ran
    · next isDir =>
      rw [if_pos isDir]
      split at ran
      · next last =>
        obtain ⟨_, mid, did, ran⟩ := run_step ran
        cases ran
        rw [if_pos last]
        exact ⟨rfl, nearLk.iunlock did⟩
      · next more =>
        rw [if_neg more]
        obtain ⟨next, mid, ranLookup, ran⟩ := run_bind_ok ran
        obtain ⟨_, isFound, nearFound⟩ := nearLk.dirlookup (by simp) ranLookup
        rw [← isFound]
        cases next with
        | none =>
          obtain ⟨_, mid, ranPut, ran⟩ := run_bind_ok ran
          cases ran
          exact ⟨rfl, nearFound.iunlockput settled ranPut⟩
        | some next =>
          obtain ⟨_, mid, ranPut, ran⟩ := run_bind_ok ran
          have nearNext := (nearFound.perm (List.Perm.swap ip next.1 extra)).iunlockput
            settled ranPut
          exact ih nearNext ran
    · next notDir =>
      rw [if_neg notDir]
      obtain ⟨_, mid, ranPut, ran⟩ := run_bind_ok ran
      cases ran
      exact ⟨rfl, nearLk.iunlockput settled ranPut⟩

theorem Near.namex (settled : Settled base) {par : Bool} {cwd : Inum} {path : Path}
    {found : Option (Inum × Name)} (near : Near p base s extra []) (refd : 0 < s.ref cwd)
    (ran : Returns ninodes p s (namex cwd path par) (found, after)) : found = resolvePath
    base.disk cwd path par ∧ Near p base after ((found.map Prod.fst).toList ++ extra) [] := by
  rw [FsProgram.namex] at ran
  rw [resolvePath]
  split at ran
  · next absolute =>
    obtain ⟨_, mid, did, ran⟩ := run_step ran
    rw [if_pos absolute]
    exact (near.iget did).namexFrom settled ran
  · next relative =>
    obtain ⟨_, mid, did, ran⟩ := run_step ran
    rw [if_neg relative]
    exact (near.idup refd did).namexFrom settled ran

variable {found : Option Inum}

theorem Near.namei (settled : Settled base) {cwd : Inum} {path : Path}
    (near : Near p base s extra []) (refd : 0 < s.ref cwd)
    (ran : Returns ninodes p s (namei cwd path) (found, after)) :
    Near p base after (found.toList ++ extra) [] := by
  obtain ⟨out, mid, ranPath, ran⟩ := run_bind_ok ran
  cases ran
  exact (near.namex settled refd ranPath).2

/-! ## Calls that fail -/

variable {cwd : Inum} {path : Path}

theorem Near.sysChdir (settled : Settled base) (near : Near p base s [] []) (refd : 0 < s.ref cwd)
    (ran : Returns ninodes p s (sysChdir cwd path) (none, after)) : Near p base after [] [] := by
  obtain ⟨found, mid, ranPath, ran⟩ := run_bind_ok ran
  have nearFound := near.namei settled refd ranPath
  cases found with
  | none =>
    cases ran
    exact nearFound
  | some ip =>
    obtain ⟨_, locked, did, ran⟩ := run_step ran
    have nearLk := nearFound.ilock did
    obtain ⟨inode, _, did, ran⟩ := run_step ran
    cases did
    split at ran
    · obtain ⟨_, _, _, ran⟩ := run_step ran
      obtain ⟨_, _, _, ran⟩ := run_bind_ok ran
      cases ran
    obtain ⟨_, mid, ranPut, ran⟩ := run_bind_ok ran
    cases ran
    exact nearLk.iunlockput settled ranPut

theorem Near.sysUnlink (settled : Settled base) (near : Near p base s [] []) (refd : 0 < s.ref cwd)
    (ran : Returns ninodes p s (sysUnlink cwd path) (-1, after)) : Near p base after [] [] := by
  obtain ⟨found, mid, ranPath, ran⟩ := run_bind_ok ran
  obtain ⟨_, nearFound⟩ := near.namex settled refd ranPath
  cases found with
  | none =>
    cases ran
    exact nearFound
  | some found =>
    obtain ⟨dp, name⟩ := found
    obtain ⟨_, locked, did, ran⟩ := run_step ran
    have nearLk := nearFound.ilock did
    split at ran
    · obtain ⟨_, mid, ranPut, ran⟩ := run_bind_ok ran
      cases ran
      exact nearLk.iunlockput settled ranPut
    obtain ⟨entry, mid, ranLookup, ran⟩ := run_bind_ok ran
    obtain ⟨_, _, nearEntry⟩ := nearLk.dirlookup (by simp) ranLookup
    cases entry with
    | none =>
      obtain ⟨_, mid, ranPut, ran⟩ := run_bind_ok ran
      cases ran
      exact nearEntry.iunlockput settled ranPut
    | some entry =>
      obtain ⟨ip, slot⟩ := entry
      obtain ⟨_, both, did, ran⟩ := run_step ran
      have nearBoth := nearEntry.ilock did
      obtain ⟨inode, _, did, ran⟩ := run_step ran
      cases did
      split at ran
      · cases ran
      split at ran
      · obtain ⟨_, mid, ranPut, ran⟩ := run_bind_ok ran
        obtain ⟨_, last, ranPutLast, ran⟩ := run_bind_ok ran
        cases ran
        exact (nearBoth.iunlockput settled ranPut).iunlockput settled ranPutLast
      · obtain ⟨_, _, _, ran⟩ := run_bind_ok ran
        cases ran

/-- The name at the end of a path is not in the directory that the path leads to. -/
def Absent (disk : Inum → Dinode) (cwd : Inum) (path : Path) : Prop :=
  ∃ dp name, resolvePath disk cwd path true = some (dp, name) ∧ (disk dp).lookup name = none

variable {type : InodeType} {major : BitVec 16}

theorem Near.create (settled : Settled base) (near : Near p base s [] []) (refd : 0 < s.ref cwd)
    (ran : Returns ninodes p s (create ninodes cwd path type major) (found, after)) :
    ¬Absent base.disk cwd path ∧ found = none ∧ Near p base after [] [] ∨
    ¬Absent base.disk cwd path ∧ (∃ ip, found = some ip ∧ Near p base after [ip] [ip]) ∨
    ∃ dp name mid, resolvePath base.disk cwd path true = some (dp, name) ∧
    (base.disk dp).lookup name = none ∧ (base.disk dp).type = .dir ∧ Near p base mid [dp] [dp] ∧
    Returns ninodes p mid (createNew ninodes dp name type major) (found, after) := by
  obtain ⟨par, mid, ranPath, ran⟩ := run_bind_ok ran
  obtain ⟨isPar, nearFound⟩ := near.namex settled refd ranPath
  cases par with
  | none =>
    cases ran
    refine .inl ⟨?_, rfl, nearFound⟩
    rintro ⟨dp, name, res, _⟩
    rw [← isPar] at res
    cases res
  | some par =>
    obtain ⟨dp, name⟩ := par
    obtain ⟨_, locked, did, ran⟩ := run_step ran
    have nearLk := nearFound.ilock did
    obtain ⟨entry, mid, ranLookup, ran⟩ := run_bind_ok ran
    obtain ⟨isDir, isFound, nearEntry⟩ := nearLk.dirlookup (by simp) ranLookup
    cases entry with
    | none =>
      exact .inr (.inr ⟨dp, name, mid, isPar.symm, isFound.symm, isDir, nearEntry, ran⟩)
    | some entry =>
      have has : ¬Absent base.disk cwd path := by
        rintro ⟨dp', name', res, lost⟩
        rw [← isPar] at res
        cases res
        rw [lost] at isFound
        cases isFound
      obtain ⟨ip, slot⟩ := entry
      obtain ⟨_, unlocked, ranPut, ran⟩ := run_bind_ok ran
      have nearIp := (nearEntry.perm (List.Perm.swap dp ip [])).iunlockput settled ranPut
      obtain ⟨_, lkIp, did, ran⟩ := run_step ran
      have nearLkIp := nearIp.ilock did
      obtain ⟨inode, _, did, ran⟩ := run_step ran
      cases did
      split at ran
      · cases ran
        exact .inr (.inl ⟨has, ip, rfl, nearLkIp⟩)
      obtain ⟨_, last, ranPut, ran⟩ := run_bind_ok ran
      cases ran
      exact .inl ⟨has, rfl, nearLkIp.iunlockput settled ranPut⟩

theorem createNew_ne_none
    (ran : Returns ninodes p s (createNew ninodes dp name type major) (found, after)) :
    found ≠ none := by
  obtain ⟨ip, _, _, ran⟩ := run_bind_ok ran
  obtain ⟨_, _, _, ran⟩ := run_step ran
  obtain ⟨_, _, _, ran⟩ := run_step ran
  have linked : ∀ s : FsState Pid, Returns ninodes p s (do
        let linked ← dirlink dp name ip
        if linked then do
          iunlockput dp
          pure (some ip)
        else fail .createDirlink) (found, after) → found ≠ none := by
    intro s ran
    obtain ⟨linked, _, _, ran⟩ := run_bind_ok ran
    split at ran
    · obtain ⟨_, _, _, ran⟩ := run_bind_ok ran
      cases ran
      simp
    · cases ran
  dsimp only at ran
  split at ran
  · obtain ⟨_, _, _, ran⟩ := run_step ran
    obtain ⟨_, _, _, ran⟩ := run_bind_ok ran
    exact linked _ ran
  · exact linked _ ran

theorem Near.sysMake (settled : Settled base) (near : Near p base s [] []) (refd : 0 < s.ref cwd)
    (ran : Returns ninodes p s (sysMake ninodes cwd path type major) (-1, after)) :
    Near p base after [] [] := by
  obtain ⟨found, mid, ranCreate, ran⟩ := run_bind_ok ran
  cases found with
  | none =>
    cases ran
    rcases near.create settled refd ranCreate with
      ⟨_, _, nearAfter⟩ | ⟨_, ip, isSome, _⟩ | ⟨_, _, _, _, _, _, _, ranNew⟩
    · exact nearAfter
    · cases isSome
    · exact absurd rfl (createNew_ne_none ranNew)
  | some ip =>
    obtain ⟨_, _, _, ran⟩ := run_bind_ok ran
    cases ran

/-! ## `link` -/

theorem Near.dirlink_false (settled : Settled base) (near : Near p base s extra locked)
    (isLk : dp ∈ locked) (remains : ∀ i ∈ locked, 0 < base.ref i + extra.count i) (ran :
    Returns ninodes p s (dirlink dp name ip) (false, after)) : Near p base after extra locked := by
  obtain ⟨found, mid, ranLookup, ran⟩ := run_bind_ok ran
  obtain ⟨_, _, nearFound⟩ := near.dirlookup isLk ranLookup
  cases found with
  | some found =>
    obtain ⟨_, last, ranPut, ran⟩ := run_bind_ok ran
    cases ran
    exact nearFound.iput settled (remains _) ranPut
  | none =>
    obtain ⟨dir, _, _, ran⟩ := run_step ran
    obtain ⟨wrote, _, _, ran⟩ := run_step ran
    split at ran <;> cases ran

/-- The state in which `link` has counted a link that is to come, and keeps the
reference to the inode. -/
def FsState.counted (base : FsState Pid) (ip : Inum) : FsState Pid :=
  { base with
    disk := update base.disk ip { base.disk ip with nlink := (base.disk ip).nlink + 1 }
    inode := update base.inode ip { base.disk ip with nlink := (base.disk ip).nlink + 1 }
    ref := update base.ref ip (base.ref ip + 1) }

omit [DecidableEq Pid] in
theorem FsState.counted_ref (base : FsState Pid) (ip i : Inum) :
    (base.counted ip).ref i = base.ref i + [ip].count i := by
  rw [counted]
  dsimp only
  by_cases here : i = ip
  · rw [here, update_self, count_cons_self, count_nil]
  · rw [update_of_ne here, count_cons_of_ne (Ne.symm here), count_nil, add_zero]

omit [DecidableEq Pid] in
theorem Settled.counted (settled : Settled base)
    (alive : (base.disk ip).type ≠ .free) : Settled (base.counted ip) where
  coherent := by
    intro i refd isVal
    rw [FsState.counted] at isVal ⊢
    dsimp only at isVal ⊢
    by_cases here : i = ip
    · rw [here, update_self, update_self]
      exact ⟨rfl, alive⟩
    rw [update_of_ne here, update_of_ne here]
    rw [counted_ref, count_cons_of_ne (Ne.symm here)] at refd
    exact settled.coherent i refd isVal
  kept := by
    intro i isAlloc cut
    rw [counted_ref]
    by_cases here : i = ip
    · rw [here, count_cons_self]
      omega
    rw [FsState.counted] at isAlloc cut
    dsimp only at isAlloc cut
    rw [update_of_ne here] at isAlloc cut
    exact lt_of_lt_of_le (settled.kept i isAlloc cut) (Nat.le_add_right _ _)

theorem Near.incNlink (near : Near p base s [ip] [ip])
    (did : exec ninodes p (.incNlink ip) s = .ok ((), after)) :
    Near p (base.counted ip) after [] [ip] := by
  obtain ⟨same, alive⟩ := near.inode_eq (mem_singleton_self ip)
  cases did
  rw [same]
  refine ⟨?_, near.data, ?_, near.lock, near.held, near.nodup, ?_⟩
  · rw [store_disk, near.disk]
    rfl
  · intro i
    rw [counted_ref, count_nil, add_zero]
    exact near.ref i
  intro i refd isVal
  rw [store]
  dsimp only
  by_cases here : i = ip
  · rw [here, update_self, update_self]
    exact ⟨rfl, alive⟩
  · rw [update_of_ne here, update_of_ne here]
    exact near.coherent i refd isVal

theorem Near.decNlink (alive : (base.disk ip).type ≠ .free)
    (near : Near p (base.counted ip) s [] [ip]) (did :
    exec ninodes p (.decNlink ip none) s = .ok ((), after)) : Near p base after [ip] [ip] := by
  obtain ⟨same, _⟩ := near.inode_eq (mem_singleton_self ip)
  have restored : { s.inode ip with nlink := (s.inode ip).nlink - 1 } = base.disk ip := by
    rw [same, counted]
    simp only [update_self, BitVec.add_sub_cancel]
  cases did
  rw [restored]
  refine ⟨?_, near.data, ?_, near.lock, near.held, near.nodup, ?_⟩
  · dsimp only
    rw [store_disk, near.disk, counted, update_idem, update_eq_self]
  · intro i
    have refs := near.ref i
    rwa [counted_ref, count_nil, add_zero] at refs
  intro i refd isVal
  rw [store]
  dsimp only
  by_cases here : i = ip
  · rw [here, update_self, update_self]
    exact ⟨rfl, alive⟩
  · rw [update_of_ne here, update_of_ne here]
    exact near.coherent i refd isVal

theorem Near.unlinkOld (settled : Settled base)
    (alive : (base.disk ip).type ≠ .free) (near : Near p (base.counted ip) s [] [])
    (ran : Returns ninodes p s (unlinkOld ip) (out, after)) : Near p base after [] [] := by
  obtain ⟨_, locked, did, ran⟩ := run_step ran
  have nearLk := near.ilock did
  obtain ⟨_, mid, did, ran⟩ := run_step ran
  exact (nearLk.decNlink alive did).iunlockput settled ran

theorem Near.sysLink (settled : Settled base) {old new : Path} (near : Near p base s [] [])
    (refd : 0 < s.ref cwd)
    (ran : Returns ninodes p s (sysLink cwd old new) (-1, after)) : Near p base after [] [] := by
  obtain ⟨found, mid, ranPath, ran⟩ := run_bind_ok ran
  have nearFound := near.namei settled refd ranPath
  cases found with
  | none =>
    cases ran
    exact nearFound
  | some ip =>
    obtain ⟨_, locked, did, ran⟩ := run_step ran
    have nearLk := nearFound.ilock did
    obtain ⟨_, alive⟩ := nearLk.inode_eq (mem_singleton_self ip)
    obtain ⟨inode, _, did, ran⟩ := run_step ran
    cases did
    split at ran
    · obtain ⟨_, last, ranPut, ran⟩ := run_bind_ok ran
      cases ran
      exact nearLk.iunlockput settled ranPut
    obtain ⟨_, counted, did, ran⟩ := run_step ran
    have nearCounted := nearLk.incNlink did
    have settledCounted := settled.counted alive
    obtain ⟨_, unlocked, did, ran⟩ := run_step ran
    have nearFreed := nearCounted.iunlock did
    have stillRefd : 0 < unlocked.ref cwd := by
      rw [nearFreed.ref, counted_ref]
      rw [near.ref] at refd
      simp only [count_nil] at refd ⊢
      omega
    obtain ⟨par, _, ranPath, ran⟩ := run_bind_ok ran
    obtain ⟨_, nearPar⟩ := nearFreed.namex settledCounted stillRefd ranPath
    cases par with
    | none =>
      obtain ⟨_, last, ranOld, ran⟩ := run_bind_ok ran
      cases ran
      exact nearPar.unlinkOld settled alive ranOld
    | some par =>
      obtain ⟨dp, name⟩ := par
      obtain ⟨_, _, did, ran⟩ := run_step ran
      have nearDir := nearPar.ilock did
      obtain ⟨linked, _, ranLink, ran⟩ := run_bind_ok ran
      cases linked with
      | true =>
        obtain ⟨_, _, _, ran⟩ := run_bind_ok ran
        obtain ⟨_, _, _, ran⟩ := run_bind_ok ran
        cases ran
      | false =>
        have nearFailed := nearDir.dirlink_false settledCounted (by simp) (by simp) ranLink
        obtain ⟨_, _, ranPut, ran⟩ := run_bind_ok ran
        obtain ⟨_, _, ranOld, ran⟩ := run_bind_ok ran
        cases ran
        exact (nearFailed.iunlockput settledCounted ranPut).unlinkOld settled alive ranOld

/-! ## `open` -/

/-- An inode that has just been made, and that a step on another inode leaves alone. -/
structure Made (s : FsState Pid) (ip : Inum) : Prop where
  allocated : (s.disk ip).type ≠ .free
  linked : (s.inode ip).nlink = 1
  file : (s.inode ip).type = .file

omit [DecidableEq Pid] in
theorem Made.store (made : Made s ip) (o : ip ≠ dp) (d : Dinode) : Made (s.store dp d) ip := by
  constructor
  · rw [store_disk, update_of_ne o]
    exact made.allocated
  · rw [FsState.store]
    dsimp only
    rw [update_of_ne o]
    exact made.linked
  · rw [FsState.store]
    dsimp only
    rw [update_of_ne o]
    exact made.file

theorem Near.iallocFrom (near : Near p base s extra locked) {list : List Inum}
    (ran : Returns ninodes p s (iallocFrom type list) (ip, after)) :
    (base.disk ip).type = .free ∧ after.disk ip = .blank type ∧ after.valid ip = false := by
  induction list with
  | nil => cases ran
  | cons inum rest ih =>
    obtain ⟨marked, mid, did, ran⟩ := run_step ran
    rcases exec_iallocMark_ok ninodes p did with
      ⟨isTrue, isFree, changed⟩ | ⟨isFalse, same⟩
    · subst isTrue changed
      obtain ⟨_, _, did, ran⟩ := run_step ran
      cases ran
      have wasFree := isFree
      rw [near.disk] at wasFree
      refine ⟨wasFree, ?_⟩
      obtain ⟨disk, _⟩ := exec_iget_ok ninodes p did
      rw [disk]
      refine ⟨update_self _ _ _, ?_⟩
      rw [exec] at did
      split at did
      · next refd =>
        cases did
        by_contra isVal
        exact (near.coherent ip refd (by simpa using isVal)).2 isFree
      · split at did
        · cases did
          exact update_self _ _ _
        · cases did
    · rw [isFalse, same] at ran
      exact ih ran

theorem Made.dirlink {inum : Inum} (made : Made s ip) (o : ip ≠ dp)
    (ran : Returns ninodes p s (dirlink dp name inum) (true, after)) : Made after ip := by
  obtain ⟨found, mid, ranLookup, ran⟩ := run_bind_ok ran
  cases found with
  | some found =>
    obtain ⟨_, _, _, ran⟩ := run_bind_ok ran
    cases ran
  | none =>
    have unchanged : mid = s := by
      obtain ⟨dir, _, did, ranLookup⟩ := run_step ranLookup
      cases did
      split at ranLookup
      · split at ranLookup
        · cases ranLookup
          rfl
        · obtain ⟨_, _, _, ranLookup⟩ := run_step ranLookup
          cases ranLookup
      · cases ranLookup
    rw [unchanged] at ran
    obtain ⟨dir, _, did, ran⟩ := run_step ran
    cases did
    obtain ⟨wrote, last, did, ran⟩ := run_step ran
    rcases exec_writei_ok ninodes p did with
      ⟨isTrue, _, changed⟩ | ⟨isFalse, same⟩
    · subst isTrue changed
      cases ran
      exact made.store o _
    · subst isFalse
      cases ran

theorem Made.iput (made : Made s ip) (o : ip ≠ dp)
    (ran : Returns ninodes p s (iput dp) (out, after)) : Made after ip := by
  obtain ⟨freed, mid, did, ran⟩ := run_step ran
  rcases exec_iputFree_ok ninodes p did with
    ⟨isTrue, _, changed⟩ | ⟨isFalse, _, changed⟩
  · subst isTrue changed
    have did := run_command_ok ran
    cases did
    have stored := made.store o
    exact ⟨(stored _).allocated, (stored _).linked, (stored _).file⟩
  · subst isFalse changed
    cases ran
    exact ⟨made.allocated, made.linked, made.file⟩

theorem Made.iunlockput_self (made : Made s ip)
    (ran : Returns ninodes p s (iunlockput ip) (out, after)) : (after.disk ip).type ≠ .free := by
  obtain ⟨_, unlocked, did, ran⟩ := run_step ran
  have isFreed := exec_iunlock_ok ninodes p did
  subst isFreed
  obtain ⟨freed, mid, did, ran⟩ := run_step ran
  rcases exec_iputFree_ok ninodes p did with
    ⟨_, ⟨_, _, cut⟩, _⟩ | ⟨isFalse, _, changed⟩
  · dsimp only at cut
    rw [made.linked] at cut
    cases cut
  subst isFalse changed
  cases ran
  exact made.allocated

theorem Near.createNew (near : Near p base s [dp] [dp])
    (ran : Returns ninodes p s (createNew ninodes dp name .file 0) (found, after)) :
    ∃ ip, found = some ip ∧ (base.disk ip).type = .free ∧ Made after ip := by
  obtain ⟨_, dir⟩ := near.inode_eq (mem_singleton_self dp)
  obtain ⟨ip, marked, ranAlloc, ran⟩ := run_bind_ok ran
  obtain ⟨wasFree, isBlank, isInvalid⟩ := near.iallocFrom ranAlloc
  have o : ip ≠ dp := by
    rintro rfl
    exact dir wasFree
  obtain ⟨_, locked, did, ran⟩ := run_step ran
  have loaded : locked.inode ip = .blank .file := by
    obtain ⟨_, _, _, _, _, ⟨isVal, _⟩ | ⟨_, inode⟩⟩ := exec_ilock_ok ninodes p did
    · rw [isInvalid] at isVal
      cases isVal
    · rw [inode, update_self, isBlank]
  obtain ⟨_, initialized, did, ran⟩ := run_step ran
  cases did
  have made : Made (locked.store ip { locked.inode ip with major := 0, nlink := 1 }) ip := by
    constructor
    · rw [store_disk, update_self, loaded]
      simp [Dinode.blank]
    · rw [store]
      dsimp only
      rw [update_self]
    rw [store]
    dsimp only
    rw [update_self, loaded]
    rfl
  obtain ⟨linked, mid, ranLink, ran⟩ := run_bind_ok ran
  cases linked with
  | false => cases ran
  | true =>
    have madeLinked := made.dirlink o ranLink
    obtain ⟨_, last, ranPut, ran⟩ := run_bind_ok ran
    cases ran
    obtain ⟨_, unlocked, did, ranPut⟩ := run_step ranPut
    have isFreed := exec_iunlock_ok ninodes p did
    subst isFreed
    have madeFreed : Made { mid with lock := update mid.lock dp none } ip :=
      ⟨madeLinked.allocated, madeLinked.linked, madeLinked.file⟩
    exact ⟨ip, rfl, wasFree, madeFreed.iput o ranPut⟩

/-- `open` is to make a file. -/
def Creates (disk : Inum → Dinode) (cwd : Inum) (path : Path) (omode : Nat) : Prop :=
  omode &&& oCreate ≠ 0 ∧ Absent disk cwd path

theorem Near.openInode (settled : Settled base) (near : Near p base s [] [])
    (refd : 0 < s.ref cwd) {omode : Nat}
    (ran : Returns ninodes p s (openInode ninodes cwd path omode) (found, after)) :
    ¬Creates base.disk cwd path omode ∧ found = none ∧ Near p base after [] [] ∨
    ¬Creates base.disk cwd path omode ∧ (∃ ip, found = some ip ∧ Near p base after [ip] [ip]) ∨
    Creates base.disk cwd path omode ∧
    ∃ ip, found = some ip ∧ (base.disk ip).type = .free ∧ Made after ip := by
  rw [FsProgram.openInode] at ran
  split at ran
  · next create =>
    rcases near.create settled refd ran with
      ⟨has, failed, nearAfter⟩ | ⟨has, exists_⟩ |
        ⟨dp, name, mid, resolved, missing, _, nearDir, ranNew⟩
    · exact .inl ⟨fun creates => has creates.2, failed, nearAfter⟩
    · exact .inr (.inl ⟨fun creates => has creates.2, exists_⟩)
    · exact .inr (.inr ⟨⟨create, dp, name, resolved, missing⟩, nearDir.createNew ranNew⟩)
  · next plain =>
    have never : ¬Creates base.disk cwd path omode := fun creates => plain creates.1
    obtain ⟨found, mid, ranPath, ran⟩ := run_bind_ok ran
    have nearFound := near.namei settled refd ranPath
    cases found with
    | none =>
      cases ran
      exact .inl ⟨never, rfl, nearFound⟩
    | some ip =>
      obtain ⟨_, locked, did, ran⟩ := run_step ran
      have nearLk := nearFound.ilock did
      obtain ⟨inode, _, did, ran⟩ := run_step ran
      cases did
      split at ran
      · obtain ⟨_, last, ranPut, ran⟩ := run_bind_ok ran
        cases ran
        exact .inl ⟨never, rfl, nearLk.iunlockput settled ranPut⟩
      · cases ran
        exact .inr (.inl ⟨never, ip, rfl, nearLk⟩)

theorem Near.sysOpen (settled : Settled base) (near : Near p base s [] [])
    (refd : 0 < s.ref cwd) {omode : Nat} {avail : Bool}
    (ran : Returns ninodes p s (sysOpen ninodes cwd path omode avail) (none, after)) :
    Near p base after [] [] ∧ ¬(Creates base.disk cwd path omode ∧ avail = false) ∨
      after.disk ≠ base.disk ∧ Creates base.disk cwd path omode ∧ avail = false := by
  obtain ⟨found, mid, ranOpen, ran⟩ := run_bind_ok ran
  have opened := near.openInode settled refd ranOpen
  cases found with
  | none =>
    cases ran
    rcases opened with ⟨never, _, nearAfter⟩ | ⟨_, ip, isSome, _⟩ | ⟨_, ip, isSome, _⟩
    · exact .inl ⟨nearAfter, fun both => never both.1⟩
    · cases isSome
    · cases isSome
  | some ip =>
    obtain ⟨inode, _, did, ran⟩ := run_step ran
    cases did
    -- The call gives up the inode, for one of two reasons.
    obtain ⟨ranPut, why⟩ : Returns ninodes p mid (FsProgram.iunlockput ip) ((), after) ∧
        ((mid.inode ip).type = .device ∨ avail = false) := by
      split at ran
      · next device =>
        obtain ⟨_, last, ranPut, ran⟩ := run_bind_ok ran
        cases ran
        exact ⟨ranPut, .inl device.1⟩
      · split at ran
        · have opens : ∀ s : FsState Pid,
              (do step (.iunlock ip)
                  pure (some ip) : FsProgram (Option Inum)).run
                (fsShared ninodes) p s ≠ .ok (none, after) := by
            intro s ran
            obtain ⟨_, _, _, ran⟩ := run_step ran
            cases ran
          dsimp only at ran
          split at ran
          · obtain ⟨_, _, _, ran⟩ := run_step ran
            exact absurd ran (opens _)
          · exact absurd ran (opens _)
        · next unavailable =>
          obtain ⟨_, last, ranPut, ran⟩ := run_bind_ok ran
          cases ran
          exact ⟨ranPut, .inr (by simpa using unavailable)⟩
    rcases opened with ⟨_, isNone, _⟩ | ⟨never, ip', isIp, nearIp⟩ |
      ⟨creates, ip', isIp, wasFree, made⟩
    · cases isNone
    · cases isIp
      exact .inl ⟨nearIp.iunlockput settled ranPut, fun both => never both.1⟩
    cases isIp
    have stays := made.iunlockput_self ranPut
    refine .inr ⟨?_, creates, ?_⟩
    · intro same
      rw [same] at stays
      exact stays wasFree
    rcases why with device | unavailable
    · rw [made.file] at device
      cases device
    · exact unavailable

/-- The directory tree, the inodes with their link counts, and what files hold are the
same. -/
def Unchanged (s after : FsState Pid) : Prop :=
  after.disk = s.disk ∧ after.data = s.data

omit [DecidableEq Pid] in
theorem Near.unchanged (near : Near p base s extra locked) : Unchanged base s :=
  ⟨near.disk, near.data⟩

end

/-! ## States of a running system -/

omit [DecidableEq Pid] in
theorem Consistent.settled {s : FsState Pid} {held : FsHeld Pid}
    (inv : Consistent ninodes True s held) (quiet : Quiet held) : Settled s where
  coherent i _ isValid := inv.books.valid i isValid
  kept i alive unlinked := by
    have owned := ((inv.exact trivial).referenced i alive unlinked).1
    rcases exists_of_amount_pos owned with ⟨res, mem, about, _⟩
    rcases quiet res mem with ⟨j, rfl⟩
    cases about
    rcases Multiset.exists_cons_of_mem mem with ⟨rest, rfl⟩
    simp [inv.books.refs]

/-- In the runs that keep link counts exact, every state between calls is settled. -/
theorem settled_of_keepsCounts [Fintype Pid] {files : List Path}
    (fits : files.length + 2 ≤ Mkfs.nInodes)
    (noDot : ∀ path ∈ files, namecmp (Mkfs.shortname path) dot = false)
    {pool : Pool (fsSystem Pid Mkfs.nInodes)}
    (reach : (fsSystem Pid Mkfs.nInodes).Reachable KeepsCounts
      (fsBoot Pid Mkfs.nInodes (Mkfs.image files)) pool)
    (quiet : ∀ p, ∃ proc, pool.threads p = .done proc) : Settled pool.state := by
  rcases (Mkfs.image_consistent fits noDot).reachable (by decide) True
    (reach.mono allowed_of_keepsCounts) with ⟨held, inv, idle, _⟩
  exact inv.settled (quiet_sum quiet idle)

omit [DecidableEq Pid] in
theorem ConsistentImage.settled [Fintype Pid] {image : Inum → Dinode}
    (consistent : ConsistentImage ninodes image) : Settled (FsState.boot Pid image) where
  coherent _ _ isValid := by cases isValid
  kept i alive unlinked := absurd unlinked (consistent.linked i alive)

/-- The state in which one process has just been started. -/
def freshBoot : FsState (Fin 1) := .boot (Fin 1) (Mkfs.image [])

theorem freshBoot_settled : Settled freshBoot :=
  (Mkfs.image_consistent (by decide) (by simp)).settled

end Xv6
