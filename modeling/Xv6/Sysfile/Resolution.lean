import Xv6.Sysfile.Dangling
import Xv6.Sysfile.Failure

/-! # Path resolution

`skipelem` cuts a path into its elements, and `namex` looks them up one after another,
with at most two inodes more in the cache than there were before. -/

namespace Xv6

open Foundation FsProgram Function FsState List Mkfs

variable {Pid : Type} [DecidableEq Pid] {ninodes : Nat}

/-! ## Elements -/

/-- The maximal runs of bytes other than `/`, in order. -/
def runs (path : Path) : List Path :=
  (path.splitOnP (· == slash)).filter (!·.isEmpty)

theorem runs_slash (path : Path) : runs (slash :: path) = runs path := by
  rw [runs, splitOnP_cons_eq_if_modifyHead, if_pos (beq_self_eq_true slash)]
  rfl

theorem runs_dropWhile (path : Path) : runs (path.dropWhile (· == slash)) = runs path := by
  induction path with
  | nil => rfl
  | cons byte path ih =>
    rw [dropWhile_cons]
    split
    · next isSlash => rw [ih, eq_of_beq isSlash, runs_slash]
    · rfl

theorem runs_append {run rest : Path} (nonempty : run ≠ [])
    (plain : ∀ byte ∈ run, (byte == slash) = false)
    (ends : ∀ byte, rest.head? = some byte → byte = slash) :
    runs (run ++ rest) = run :: runs rest := by
  have kept : (!run.isEmpty) = true := by simp [nonempty]
  cases rest with
  | nil =>
    rw [append_nil, runs, splitOnP_eq_singleton plain, filter_cons, if_pos kept]
    rfl
  | cons byte rest =>
    rw [ends byte rfl, runs_slash, runs,
      splitOnP_append_cons_of_forall_mem plain _ (beq_self_eq_true slash), filter_cons, if_pos kept]
    rfl

theorem elements_eq_runs (path : Path) : elements path = (runs path).map (·.take dirSiz) := by
  induction size : path.length using Nat.strongRecOn generalizing path with
  | ind length ih =>
    rw [elements_eq]
    cases found : skipelem path with
    | none =>
      rw [skipelem] at found
      cases stripped : path.dropWhile (· == slash) with
      | nil =>
        rw [← runs_dropWhile, stripped]
        rfl
      | cons byte bytes => simp [stripped] at found
    | some out =>
      obtain ⟨name, rest⟩ := out
      have shorter := skipelem_length found
      dsimp only
      rw [ih rest.length (by omega) rest rfl]
      rw [skipelem] at found
      cases stripped : path.dropWhile (· == slash) with
      | nil => simp [stripped] at found
      | cons byte bytes =>
        rw [stripped] at found
        cases found
        have notSlash : (byte == slash) = false := by
          have first := head?_dropWhile_not (· == slash) path
          rwa [stripped] at first
        have cut : byte :: bytes = (byte :: bytes).takeWhile (· != slash) ++
          (byte :: bytes).dropWhile (· != slash) := takeWhile_append_dropWhile.symm
        rw [runs_dropWhile, ← runs_dropWhile path, stripped]
        nth_rewrite 3 [cut]
        rw [runs_append, map_cons]
        · rw [takeWhile_cons, bne, notSlash]
          exact cons_ne_nil _ _
        · intro o mem
          have h := all_eq_true.mp (all_takeWhile (p := (· != slash))) o mem
          simpa using h
        intro o first
        have h := head?_dropWhile_not (· != slash) (byte :: bytes)
        rw [first] at h
        simpa using h

/-! ## Lookups -/

/-- Look an element up, in a directory. -/
def lookupIn (disk : Inum → Dinode) (ip : Inum) (name : Name) : Option Inum :=
  if (disk ip).type = .dir then ((disk ip).lookup name).map Prod.fst else none

theorem resolve_eq_foldlM (disk : Inum → Dinode) (ip : Inum) (names : List Name) :
    (resolve disk false ip names).map Prod.fst = names.foldlM (lookupIn disk) ip := by
  induction names generalizing ip with
  | nil => rfl
  | cons name rest ih =>
    rw [foldlM_cons, resolve, lookupIn]
    split
    · rw [if_neg (by simp)]
      cases (disk ip).lookup name with
      | none => rfl
      | some next => exact ih next.1
    · rfl

theorem resolve_eq_lookup (disk : Inum → Dinode) (ip : Inum)
    {names : List Name} (nonempty : names ≠ []) : (resolve disk false ip names).map Prod.fst =
    (resolve disk true ip names).bind fun par => ((disk par.1).lookup par.2).map Prod.fst := by
  induction names generalizing ip with
  | nil => exact absurd rfl nonempty
  | cons name rest ih =>
    rw [resolve, resolve]
    split
    · rw [if_neg (by simp)]
      cases rest with
      | nil =>
        have last : (true && ([] : List Name).isEmpty) = true := rfl
        rw [if_pos last, Option.bind_some]
        cases (disk ip).lookup name with
        | none | some next => rfl
      | cons name' rest =>
        rw [if_neg (by simp)]
        cases (disk ip).lookup name with
        | none => rfl
        | some next => exact ih next.1 (cons_ne_nil _ _)
    · rfl

theorem resolve_parent {disk : Inum → Dinode} {ip dp : Inum} {names : List Name} {name : Name}
    (hit : resolve disk true ip names = some (dp, name)) :
    (disk dp).type = .dir ∧ names.getLast? = some name := by
  induction names generalizing ip with
  | nil => cases hit
  | cons fst rest ih =>
    rw [resolve] at hit
    split at hit
    · next isDir =>
      cases rest with
      | nil =>
        cases hit
        exact ⟨isDir, rfl⟩
      | cons snd rest =>
        rw [if_neg (by simp)] at hit
        cases lookup : (disk ip).lookup fst with
        | none => simp [lookup] at hit
        | some next =>
          rw [lookup] at hit
          rw [getLast?_cons_cons]
          exact ih hit
    · cases hit

/-! ## Programs that return -/

/-- The program runs to its end: it does not block, and it panics only in `iget`, for lack of an
entry in the cache, where `full` holds. -/
def Returns (ninodes : Nat) (full : Prop) (p : Pid) (prog : FsProgram α) (s : FsState Pid) : Prop :=
  (∃ value after, prog.run (fsSystem Pid ninodes).toShared p s = .ok (value, after)) ∨
    full ∧ prog.run (fsSystem Pid ninodes).toShared p s = .panic .igetNoInodes

section

variable {p : Pid} {base s : FsState Pid} {extra locked : List Inum} {i : Inum} {full : Prop}

theorem Returns.pure (v : α) : Returns ninodes full p (pure v : FsProgram α) s :=
  .inl ⟨v, s, rfl⟩

theorem Returns.bind {fst : FsProgram α} {snd : α → FsProgram β}
    (returns : Returns ninodes full p fst s)
    (rest : ∀ v mid, fst.run (fsShared ninodes) p s = .ok (v, mid) →
      Returns ninodes full p (snd v) mid) : Returns ninodes full p (fst >>= snd) s := by
  rcases returns with ⟨v, mid, ran⟩ | ⟨isFull, panics⟩
  · rcases rest v mid ran with ⟨out, s', ranRest⟩ | ⟨isFull, panics⟩
    · exact .inl ⟨out, s', (Program.run_bind_of_ok ran).trans ranRest⟩
    · exact .inr ⟨isFull, (Program.run_bind_of_ok ran).trans panics⟩
  · exact .inr ⟨isFull, Program.run_bind_of_panic panics⟩

theorem FsProgram.run_step_of_ok {cmd : FsCommand} {next : cmd.Response → FsProgram α}
    {r : cmd.Response} {middle : FsState Pid} (did : exec ninodes p cmd s = .ok (r, middle)) :
    (FsProgram.step cmd >>= next).run (fsShared ninodes) p s =
      (next r).run (fsShared ninodes) p middle := Program.run_command_bind_of_ok did

theorem Returns.step {cmd : FsCommand} {next : cmd.Response → FsProgram α}
    (executes : ∃ r mid, exec ninodes p cmd s = .ok (r, mid))
    (rest : ∀ r mid, exec ninodes p cmd s = .ok (r, mid) → Returns ninodes full p (next r) mid) :
    Returns ninodes full p (FsProgram.step cmd >>= next) s := by
  obtain ⟨r, mid, did⟩ := executes
  rcases rest r mid did with ⟨v, s', ran⟩ | ⟨isFull, panics⟩
  · exact .inl ⟨v, s', (run_step_of_ok did).trans ran⟩
  · exact .inr ⟨isFull, (run_step_of_ok did).trans panics⟩

theorem Near.ilock_ok (near : Near p base s extra locked) (unlocked : s.lock i = none)
    (refd : 0 < s.ref i) (alive : (base.disk i).type ≠ .free) :
    ∃ r mid, exec ninodes p (.ilock i) s = .ok (r, mid) := by
  rw [exec, if_neg (by omega), unlocked]
  dsimp only
  split
  · exact ⟨_, _, rfl⟩
  · rw [near.disk, if_neg alive]
    exact ⟨_, _, rfl⟩

theorem Near.iunlock_ok (near : Near p base s extra locked) (isLk : i ∈ locked) :
    ∃ r mid, exec ninodes p (.iunlock i) s = .ok (r, mid) := by
  obtain ⟨_, mine, _, refd⟩ := near.held i isLk
  rw [exec, if_pos ⟨mine, refd⟩]
  exact ⟨_, _, rfl⟩

theorem Near.iput_returns (settled : Settled base) (near : Near p base s (i :: extra) locked) :
    Returns ninodes full p (FsProgram.iput i) s := by
  refine .step ?_ fun freed mid _ => ?_
  · rw [exec, if_neg (near.not_frees settled)]
    exact ⟨_, _, rfl⟩
  · cases freed with
    | true | false => exact .inl ⟨_, _, rfl⟩

theorem Near.iunlockput_returns (settled : Settled base)
    (near : Near p base s (i :: extra) (i :: locked)) :
    Returns ninodes full p (FsProgram.iunlockput i) s :=
  .step (near.iunlock_ok mem_cons_self) fun _ _ did =>
    (near.iunlock did).iput_returns settled

/-! ### Room in the cache -/

theorem countP_le_succ {P Q : Nat → Bool} {x : Nat} {list : List Nat}
    (nodup : list.Nodup) (same : ∀ i, i ≠ x → P i = Q i) : list.countP P ≤ list.countP Q + 1 := by
  induction list with
  | nil => exact Nat.zero_le _
  | cons i rest ih =>
    obtain ⟨o, nodup⟩ := nodup_cons.mp nodup
    rw [countP_cons, countP_cons]
    by_cases here : i = x
    · have rest_eq : rest.countP P = rest.countP Q := by
        apply countP_congr
        intro j mem
        rw [same j (by rintro rfl; exact o (here ▸ mem))]
      rw [rest_eq]
      split <;> split <;> omega
    · rw [same i here]
      have bound := ih nodup
      omega

omit [DecidableEq Pid] in
theorem Near.cached_le (near : Near p base s [i] locked) :
    s.cached ninodes ≤ base.cached ninodes + 1 := by
  refine countP_le_succ nodup_range (x := i) fun j o => ?_
  rw [near.ref, count_cons_of_ne (Ne.symm o), count_nil, add_zero]

/-- `iget` panics only if the cache was full but for one entry when the call began. -/
theorem Returns.iget {next : Unit → FsProgram α}
    (cached : s.cached ninodes ≤ base.cached ninodes + 1)
    (rest : ∀ mid, exec ninodes p (.iget i) s = .ok ((), mid) →
      Returns ninodes (nInode < base.cached ninodes + 2) p (next ()) mid) :
    Returns ninodes (nInode < base.cached ninodes + 2) p
      (FsProgram.step (.iget i) >>= next) s := by
  by_cases fits : 0 < s.ref i ∨ s.cached ninodes < nInode
  · have executes : ∃ mid, exec ninodes p (.iget i) s = .ok ((), mid) := by
      by_cases refd : 0 < s.ref i
      · rw [exec, if_pos refd]
        exact ⟨_, rfl⟩
      · rw [exec, if_neg refd, if_pos (fits.resolve_left refd)]
        exact ⟨_, rfl⟩
    obtain ⟨mid, did⟩ := executes
    exact .step ⟨(), mid, did⟩ fun _ => rest
  · obtain ⟨unreferred, isFull⟩ := not_or.mp fits
    refine .inr ⟨by omega, ?_⟩
    have panics : exec ninodes p (.iget i) s = .panic .igetNoInodes := by
      rw [exec, if_neg unreferred, if_neg isFull]
    exact Program.run_command_bind_of_panic panics

theorem Near.dirlookup_returns {name : Name} (near : Near p base s [i] [i])
    (isDir : (base.disk i).type = .dir) :
    Returns ninodes (nInode < base.cached ninodes + 2) p (FsProgram.dirlookup i name) s := by
  refine .step ⟨_, _, rfl⟩ fun dir mid did => ?_
  cases did
  rw [(near.inode_eq mem_cons_self).1, if_pos isDir]
  cases (base.disk i).lookup name with
  | none => exact .pure none
  | some hit => exact .iget near.cached_le fun _ _ => .pure _

theorem Near.namexFrom_returns (settled : Settled base) (noDangling : base.NoDangling)
    (unlocked : ∀ j, base.lock j = none) {par : Bool} {names : List Name}
    (near : Near p base s [i] []) (alive : (base.disk i).type ≠ .free) :
    Returns ninodes (nInode < base.cached ninodes + 2) p
      (FsProgram.namexFrom par i names) s := by
  induction names generalizing i s with
  | nil =>
    rw [FsProgram.namexFrom]
    split
    · exact .bind (near.iput_returns settled) fun _ _ _ => .pure none
    · exact .pure _
  | cons name rest ih =>
    have refd : 0 < s.ref i := by
      rw [near.ref, count_cons_self]
      omega
    have free : s.lock i = none := (near.lock i not_mem_nil).trans (unlocked i)
    refine .step (near.ilock_ok free refd alive) fun _ lkState did => ?_
    have nearLk := near.ilock did
    refine .step ⟨_, _, rfl⟩ fun inode _ did => ?_
    cases did
    rw [(nearLk.inode_eq mem_cons_self).1]
    split
    · next isDir =>
      split
      · exact .step (nearLk.iunlock_ok mem_cons_self) fun _ _ _ => .pure _
      refine .bind (nearLk.dirlookup_returns isDir) fun hit mid ran => ?_
      obtain ⟨_, isFound, nearFound⟩ := nearLk.dirlookup mem_cons_self ran
      cases hit with
      | none => exact .bind (nearFound.iunlockput_returns settled) fun _ _ _ => .pure none
      | some next =>
        have nearNext := nearFound.perm (List.Perm.swap i next.1 [])
        refine .bind (nearNext.iunlockput_returns settled) fun _ s' ranPut => ?_
        apply ih (nearNext.iunlockput settled ranPut)
        obtain ⟨entry, has, isNext, ne, _⟩ := Dinode.lookup_eq_some isFound.symm
        have named := noDangling i _ entry isDir has (isNext ▸ ne)
        rwa [isNext] at named
    · exact .bind (nearLk.iunlockput_returns settled) fun _ _ _ => .pure none

end

/-! ## `namei` and `nameiparent` -/

/-- A state between calls in which a process may resolve a path: no inode is locked,
directories name allocated inodes, and the current directory is in use. -/
structure Resolves (cwd : Inum) (s : FsState Pid) : Prop where
  settled : Settled s
  noDangling : s.NoDangling
  unlocked : ∀ i, s.lock i = none
  root : (s.disk rootIno).type ≠ .free
  referred : 0 < s.ref cwd
  allocated : (s.disk cwd).type ≠ .free

variable {p : Pid} {base s : FsState Pid} {cwd : Inum}

theorem Resolves.namex_returns (resolves : Resolves cwd base) (near : Near p base s [] [])
    (path : Path) (par : Bool) : Returns ninodes (nInode < base.cached ninodes + 2) p
      (FsProgram.namex cwd path par) s := by
  have refs : s.ref = base.ref := funext near.ref
  rw [FsProgram.namex]
  split
  · have cached : s.cached ninodes = base.cached ninodes := by rw [FsState.cached, refs]; rfl
    refine .iget (by omega) fun mid did => ?_
    exact (near.iget did).namexFrom_returns resolves.settled resolves.noDangling
      resolves.unlocked resolves.root
  · refine .step ⟨_, _, rfl⟩ fun _ mid did => ?_
    exact (near.idup (refs ▸ resolves.referred) did).namexFrom_returns resolves.settled
      resolves.noDangling resolves.unlocked resolves.allocated

/-- The call has taken one reference to the inode that it returns and nothing else. -/
def TakesOnly (s after : FsState Pid) (found : Option Inum) : Prop :=
  (∀ i, after.lock i = none) ∧ after.disk = s.disk ∧
    ∀ i, after.ref i = s.ref i + if found = some i then 1 else 0

omit [DecidableEq Pid] in
theorem Resolves.takesOnly (resolves : Resolves cwd s) {after : FsState Pid} {found : Option Inum}
    (near : Near p s after (found.toList ++ []) []) : TakesOnly s after found := by
  refine ⟨fun i => (near.lock i not_mem_nil).trans (resolves.unlocked i), near.disk, ?_⟩
  intro i
  rw [near.ref, append_nil]
  cases found with
  | none => rfl
  | some ip =>
    rw [Option.toList_some, count_singleton]
    simp

/-- Where `namex` begins. -/
def startOf (cwd : Inum) (path : Path) : Inum :=
  if path.head? = some slash then rootIno else cwd

theorem resolves_boot (files : List Path) (fits : files.length + 2 ≤ nInodes)
    (named : ∀ file ∈ files, namecmp (shortname file) dot = false) (ref : Inum → Nat)
    (refd : 0 < ref rootIno) : Resolves rootIno { boot (Fin 1) (image files) with ref := ref } := by
  have consistent := image_consistent fits named
  have root : (image files rootIno).type ≠ .free := by
    rw [consistent.root.1]
    decide
  exact ⟨⟨fun _ _ isVal => Bool.noConfusion isVal,
      fun i alive cut => absurd cut (consistent.linked i alive)⟩,
    fun i slot entry _ => consistent.named i slot entry, fun _ => rfl, root, refd, root⟩

/-- The panic in which a run ends. -/
def panicReason : Outcome FsPanic α → Option FsPanic
  | .panic reason => some reason
  | _ => none

/-- Fifty files. -/
def manyFiles : List Path := (List.range nInode).map fun i => [98, UInt8.ofNat (48 + i)]

/-- The root and all of these files but the last are in the cache. -/
def crowded : FsState (Fin 1) :=
  { FsState.boot (Fin 1) (Mkfs.image manyFiles) with
    ref := fun i => if 0 < i ∧ i ≤ nInode then 1 else 0 }

/-- What `namei` and `nameiparent` return: `namei` folds lookups over the elements of the path,
and `nameiparent` finds the directory in which the last one is looked up. -/
structure Resolved (cwd : Inum) (path : Path) (s : FsState Pid) (parent : Option (Inum × Name)) :
    Prop where
  none : elements path = [] → parent = none
  last : elements path ≠ [] → (elements path).foldlM (lookupIn s.disk) (startOf cwd path) =
    parent.bind fun (dp, name) => ((s.disk dp).lookup name).map Prod.fst
  dir : ∀ dp name, parent = some (dp, name) →
    (s.disk dp).type = .dir ∧ (elements path).getLast? = some name

/-- Between the calls of a run that keeps link counts exact, every process may resolve paths. -/
theorem Resolves.reachable [Fintype Pid] {files : List Path} (fits : files.length + 2 ≤ nInodes)
    (noDot : ∀ path ∈ files, namecmp (shortname path) dot = false)
    {pool : Pool (fsSystem Pid nInodes)}
    (reach : (fsSystem Pid nInodes).Reachable KeepsCounts (fsBoot Pid nInodes (image files)) pool)
    (quiet : ∀ p, ∃ proc, pool.threads p = .done proc) {proc : Proc}
    (isDone : pool.threads p = .done proc) (at_cwd : proc.cwd = some cwd) :
    Resolves cwd pool.state := by
  obtain ⟨held, inv, idle, _⟩ := (image_consistent fits noDot).reachable (by decide) True
    (reach.mono allowed_of_keepsCounts)
  have isQuiet := quiet_sum quiet idle
  have mine : .ref cwd ∈ ∑ p, held p :=
    (mem_held quiet idle _).mpr ⟨p, proc, cwd, isDone, rfl, .inl at_cwd⟩
  obtain ⟨rest, split⟩ := Multiset.exists_cons_of_mem mine
  obtain ⟨leaked, tree, _⟩ := inv.tree
  constructor
  case settled => exact inv.settled isQuiet
  case noDangling => exact fun i slot entry _ => tree.named i slot entry
  case unlocked => exact fun i => inv.books.unlocked i (isQuiet.amount_eq (fun _ => rfl) i)
  case root =>
    rw [tree.root.1]
    decide
  case referred => simp [inv.books.refs, split]
  case allocated => exact inv.books.fits (.ref cwd) mine

end Xv6
