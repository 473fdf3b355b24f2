import Mathlib.Tactic.Abel
import Xv6.Sysfile.Lifetime

/-! # What the calls do with references and locks

One contract for each function of `fs.c` and `sysfile.c`: what it needs and
what it leaves to its caller. -/

namespace Xv6

open Foundation Multiset FsResource
open Ledger.Runs (seq seq_eq spend)

/-- An entry that a write makes has a name that the directory does not have yet. -/
def FsCommand.Fresh {Pid : Type} : FsCommand → FsState Pid → Prop
  | .writei i _ entry, s => entry.inum ≠ 0 → (s.inode i).lookup entry.name = none
  | _, _ => True

/-- A ledger that has the rules of `fsLedger`, for writes of fresh entries. -/
class Follows {Pid : Type} [DecidableEq Pid] {ninodes : Nat}
    (L : Ledger (fsSystem Pid ninodes) (FsResource Pid)) (counting : outParam Prop) : Prop where
  executes : ∀ {p need cmd post}, (fsLedger Pid ninodes counting).Executes p need cmd post →
    (∀ s frame, Consistent ninodes counting s (frame + need) → cmd.Fresh s) →
    L.Executes p need cmd post
  idle : L.idle = (fsLedger Pid ninodes counting).idle

instance {Pid : Type} [DecidableEq Pid] {ninodes : Nat} {counting : Prop} :
    Follows (fsLedger Pid ninodes counting) counting :=
  ⟨fun executes _ => executes, rfl⟩

namespace FsProgram

open Ledger

variable {Pid : Type}

/-- A reference to the inode that was found. -/
def refTo : Option Inum → Multiset (FsResource Pid)
  | none => 0
  | some inum => {.ref inum}

@[simp] theorem refTo_none : (refTo none : FsHeld Pid) = 0 := rfl

@[simp] theorem refTo_some (inum : Inum) : (refTo (some inum) : FsHeld Pid) = {.ref inum} := rfl

/-- The lock of the inode that was found. -/
def LockOf (p : Pid) : Option Inum → Multiset (FsResource Pid) → Prop
  | none, held => held = 0
  | some inum, held => ∃ d, held = {.locked p inum d .whole}

variable [Fintype Pid] [DecidableEq Pid] {ninodes : Nat} {counting : Prop}
  {L : Ledger (fsSystem Pid ninodes) (FsResource Pid)} [follows : Follows L counting]
  {p : Pid} {i dp : Inum}
include follows

theorem runs_step {need : FsHeld Pid} {cmd : FsCommand} {post : cmd.Response → FsHeld Pid → Prop}
    (executes : FsExecutes ninodes counting p need cmd post)
    (fresh : ∀ s frame, Consistent ninodes counting s (frame + need) → cmd.Fresh s := by
      exact fun _ _ _ => trivial) : L.Runs p need (step cmd) post :=
  Runs.command (Follows.executes executes fresh)

theorem runs_fail {why : FsPanic} (o : why ≠ .ilockNoType)
    (need : FsHeld Pid) (post : α → FsHeld Pid → Prop) : L.Runs p need (fail why) post := by
  have executes : FsExecutes ninodes counting p need (.panic why) fun _ _ => False := by
    intro s frame inv ok
    exact o
  have split : (fail why : FsProgram α) =
      step (.panic why) >>= (Empty.elim : Empty → FsProgram α) := by
    change Program.call _ _ = Program.call _ _
    congr 1
    funext r
    exact r.elim
  rw [split]
  apply (runs_step executes).bind
  intro r held never
  exact never.elim

/-! ## Inodes -/

theorem runs_iput : L.Runs p {.ref i} (iput i) fun _ held => held = 0 := by
  apply (runs_step executes_iputFree).bind
  intro freed held h
  cases freed with
  | true =>
    rw [h.1 rfl]
    exact runs_step executes_iputDrop
  | false => exact .done (h.2 rfl)

variable {d : Dinode}

theorem runs_iunlockput :
    L.Runs p {.locked p i d .whole} (iunlockput i) fun _ held => held = 0 := by
  exact (runs_step executes_iunlock).bind_eq fun _ => runs_iput

theorem runs_ilock_read {held : FsHeld Pid}
    {next : Dinode → FsProgram α} {post : α → FsHeld Pid → Prop}
    (extra : FsHeld Pid) (split : held = extra + {.ref i})
    (rest : ∀ d, L.Runs p
      (extra + {.locked p i d .whole}) (next d) post) :
    L.Runs p held
      (do step (.ilock i)
          let inode : Dinode ← step (.read i)
          next inode) post := by
  apply seq extra split (runs_step executes_ilock)
  intro _ held h
  rcases h with ⟨d, rfl⟩
  apply seq extra rfl (runs_step executes_read)
  rintro inode held ⟨rfl, rfl⟩
  exact rest d

variable {type : InodeType}

theorem runs_iallocFrom (alive : type ≠ .free)
    (inums : List Inum) (isIn : ∀ inum : Nat, inum ∈ inums → 0 < inum ∧ inum < ninodes) :
    L.Runs p 0 (iallocFrom type inums)
    fun (inum : Nat) held => (0 < inum ∧ inum < ninodes) ∧ held = {.newborn inum type} := by
  induction inums with
  | nil => exact runs_fail (by decide) _ _
  | cons inum rest ih =>
    have here := isIn inum (by simp)
    apply (runs_step (executes_iallocMark here.1 here.2 alive)).bind
    intro marked held h
    cases marked with
    | false =>
      rw [h.2 rfl]
      exact ih fun o mem => isIn o (by simp [mem])
    | true =>
      rw [h.1 rfl]
      exact (runs_step executes_iget_marked).bind_eq fun _ => .done ⟨here, rfl⟩

theorem runs_ialloc (alive : type ≠ .free) : L.Runs p 0 (ialloc ninodes type) fun (inum :
    Nat) held => (0 < inum ∧ inum < ninodes) ∧ held = {.newborn inum type} := by
  apply runs_iallocFrom alive
  intro inum mem
  rw [List.mem_range'_1] at mem
  omega

/-! ## Directories -/

variable {name : Name}

theorem runs_dirlookup {hold : Hold} (settled : hold.unformed = 0 ∨ d.lookup name = none) :
    L.Runs p {.locked p dp d hold} (dirlookup dp name) fun found held => d.type = .dir ∧
    d.lookup name = found ∧ held = {.locked p dp d hold} + refTo (found.map Prod.fst) := by
  apply (runs_step executes_read).bind
  rintro dir held ⟨rfl, rfl⟩
  split
  · next isDir =>
    split
    · next missing => exact .done ⟨isDir, missing, by simp⟩
    next inum slot has =>
    rcases Dinode.lookup_eq_some has with ⟨entry, atSlot, rfl, ne0, _⟩
    have formed : hold.unformed = 0 := by
      rcases settled with formed | missing
      · exact formed
      · simp [missing] at has
    exact (runs_step (executes_iget_entry atSlot ne0 formed)).bind_eq
      fun _ => .done ⟨isDir, has, rfl⟩
  · exact runs_fail (by decide) _ _

theorem runs_dirlink {hold : Hold}
    {need later : FsHeld Pid} (extra : FsHeld Pid)
    (split : need = extra + {.locked p dp d hold})
    (settled : hold.unformed = 0 ∨ d.lookup name = none)
    (writes : d.type = .dir → d.lookup name = none → FsExecutes ninodes counting p need
        (.writei dp d.emptySlot (.make name i)) fun wrote held =>
          (wrote = true → held = later) ∧ (wrote = false → held = need)) :
    L.Runs p need (dirlink dp name i)
      fun linked held => (linked = true → held = later) ∧ (linked = false → held = need) := by
  apply seq extra split (runs_dirlookup settled)
  intro hit held h
  rcases h with ⟨isDir, isFound, rfl⟩
  rw [← add_assoc, ← split]
  cases hit with
  | some hit =>
    exact spend need rfl runs_iput fun _ => .done ⟨by simp, fun _ => rfl⟩
  | none =>
    simp only [Option.map_none, refTo_none, add_zero]
    apply seq extra split (runs_step executes_read)
    intro dir held h
    rcases h with ⟨rfl, rfl⟩
    rw [← split]
    have fresh : ∀ s frame, Consistent ninodes counting s (frame + need) →
        (FsCommand.writei dp d.emptySlot (.make name i)).Fresh s := by
      intro s frame inv _
      have mem : .locked p dp d hold ∈ frame + need := by simp [split]
      have same : d.lookup (Dirent.make name i).name = d.lookup name := by
        simp only [Dinode.lookup, namecmp_make]
      rw [(inv.books.locked_inode mem).1, same, isFound]
    apply (runs_step (writes isDir isFound) fresh).bind
    intro wrote held h
    cases wrote with
    | true => exact .done ⟨h.1, by simp⟩
    | false => exact runs_fail (by decide) _ _

variable {dir : Dinode}

section

variable (small : ninodes ≤ 2 ^ 16)
include small

theorem runs_dirlink_link {owner : FsResource Pid}
    (isOwner : owner.inum = i) (owns : 0 < owner.owners) (settled : owner.unformed = 0) :
    L.Runs p
      ({owner} + {.link i} + {.locked p dp dir .whole}) (dirlink dp name i) fun linked held =>
        (linked = true → held = {owner} +
          {.locked p dp (dir.setEntry dir.emptySlot (.make name i)) .whole}) ∧
        (linked = false → held = {owner} + {.link i} + {.locked p dp dir .whole}) := by
  apply runs_dirlink ({owner} + {.link i}) rfl (.inl rfl)
  intro isDir lost
  rw [add_assoc, add_comm ({.link i} : FsHeld Pid)]
  exact executes_writei_link small isDir lost isOwner owns settled

theorem runs_dirlink_child : L.Runs p
      ({.locked p dp dir (.child i)} + {.locked p i d .unnamed}) (dirlink dp name i)
      fun linked held => (linked = true → held =
          {.locked p dp (dir.setEntry dir.emptySlot (.make name i)) .whole} +
            {.locked p i d .whole}) ∧ (linked = false → held =
          {.locked p dp dir (.child i)} + {.locked p i d .unnamed}) := by
  apply runs_dirlink {.locked p i d .unnamed} (add_comm _ _) (.inl rfl)
  intro isDir lost
  exact executes_writei_child small isDir lost

theorem runs_dirlink_dot (isDir : d.type = .dir) (empty : d.entries = []) :
    L.Runs p {.locked p i d .making} (dirlink i dot i) fun linked held =>
        (linked = true → held = {.locked p i (d.setEntry 0 (.make dot i)) .making}) ∧
        (linked = false → held = {.locked p i d .making}) := by
  have lost : d.lookup dot = none := by simp [Dinode.lookup, empty]
  have fst : d.emptySlot = 0 := by simp [Dinode.emptySlot, empty]
  apply runs_dirlink 0 (zero_add _).symm (.inr lost)
  intro _ _
  rw [fst]
  exact executes_writei_dot small isDir empty

theorem runs_dirlink_dotdot (isDir : d.type = .dir) (dots : d.entries = [⟨i, dot⟩]) (ne0 : i ≠ 0) :
    L.Runs p ({.locked p i d .making} + {.locked p dp dir .expecting}) (dirlink i dotdot dp)
      fun linked held =>
        (linked = true → held = {.locked p i (d.setEntry 1 (.make dotdot dp)) .unnamed} +
          {.locked p dp dir (.child i)}) ∧ (linked = false → held =
          {.locked p i d .making} + {.locked p dp dir .expecting}) := by
  have lost : d.lookup dotdot = none := by
    have ne : namecmp dotdot dot = false := by decide
    simp [Dinode.lookup, dots, ne]
  have snd : d.emptySlot = 1 := by
    simp [Dinode.emptySlot, dots, List.findIdx_cons, beq_false_of_ne ne0]
  apply runs_dirlink {.locked p dp dir .expecting} (add_comm _ _) (.inr lost)
  intro _ _
  rw [snd]
  exact executes_writei_dotdot small isDir dots

end

/-! ## Paths -/

theorem runs_namexFrom (par : Bool) (names : List Name) (ip : Inum) : L.Runs
    p {.ref ip} (namexFrom par ip names) fun hit held => held = refTo (hit.map Prod.fst) := by
  induction names generalizing ip with
  | nil =>
    rw [namexFrom]
    split
    · exact runs_iput.bind_eq fun _ => .done rfl
    · exact .done rfl
  | cons name rest ih =>
    apply runs_ilock_read 0 (zero_add _).symm
    intro d
    rw [zero_add]
    split
    · split
      · exact (runs_step executes_iunlock).bind_eq fun _ => .done rfl
      apply (runs_dirlookup (.inl rfl)).bind
      rintro next held ⟨_, _, rfl⟩
      cases next with
      | none => exact spend 0 (add_comm _ _) runs_iunlockput fun _ => .done rfl
      | some next =>
        exact spend _ (add_comm _ _) runs_iunlockput fun _ => ih next.1
    · exact runs_iunlockput.bind_eq fun _ => .done rfl

theorem runs_namex (par : Bool) (cwd : Inum) (path : Path) : L.Runs p {.ref cwd}
    (namex cwd path par) fun hit held => held = {.ref cwd} + refTo (hit.map Prod.fst) := by
  rw [namex]
  split
  · apply seq {.ref cwd} (add_zero _).symm (runs_step executes_iget_root)
    rintro _ held rfl
    apply ((runs_namexFrom par (elements path) rootIno).frame {.ref cwd}).mono
    intro hit held h
    rcases h with ⟨later, eq, isLater⟩
    rw [eq, isLater]
  · apply (runs_step executes_idup).bind
    rintro _ held rfl
    apply ((runs_namexFrom par (elements path) cwd).frame {.ref cwd}).mono
    rintro hit held ⟨later, eq, isLater⟩
    rw [eq, isLater]

theorem runs_namei (cwd : Inum) (path : Path) :
    L.Runs p {.ref cwd} (namei cwd path) fun found held => held = {.ref cwd} + refTo found := by
  apply (runs_namex false cwd path).bind
  intro found held eq
  exact .done eq

theorem runs_nameiparent (cwd : Inum) (path : Path) : L.Runs p {.ref cwd} (nameiparent cwd path)
      fun hit held => held = {.ref cwd} + refTo (hit.map Prod.fst) := runs_namex true cwd path

/-! ## Links -/

theorem runs_unlinkOld : L.Runs p ({.link i} + {.ref i}) (unlinkOld i) fun _ held => held = 0 := by
  apply seq {.link i} rfl (runs_step executes_ilock)
  rintro _ held ⟨d, rfl⟩
  rw [add_comm]
  exact (runs_step (executes_decNlink (.inl rfl))).bind_eq fun _ => runs_iunlockput

theorem runs_sysLink (small : ninodes ≤ 2 ^ 16) (cwd : Inum) (old new : Path) :
    L.Runs p {.ref cwd} (sysLink cwd old new) fun _ held => held = {.ref cwd} := by
  apply (runs_namei cwd old).bind
  rintro found held rfl
  cases found with
  | none => exact .done (add_zero _)
  | some ip =>
    apply runs_ilock_read {.ref cwd} rfl
    intro d
    split
    · exact spend {.ref cwd} rfl runs_iunlockput fun _ => .done rfl
    next notDir =>
    refine seq_eq {.ref cwd} rfl (runs_step (executes_incNlink_link notDir)) ?_
    intro _
    refine seq_eq ({.ref cwd} + {.link ip}) (by abel) (runs_step executes_iunlock) ?_
    intro _
    refine seq ({.link ip} + {.ref ip}) (by abel) (runs_nameiparent cwd new) ?_
    rintro parent held rfl
    cases parent with
    | none =>
      simp only [Option.map_none, refTo_none, add_zero]
      exact spend {.ref cwd} (add_comm _ _) runs_unlinkOld fun _ => .done rfl
    | some parent =>
      rcases parent with ⟨dp, name⟩
      apply seq ({.link ip} + {.ref ip} + {.ref cwd}) (add_assoc _ _ _).symm
        (runs_step executes_ilock)
      intro _ held h
      rcases h with ⟨dir, rfl⟩
      refine seq {.ref cwd} (by abel)
        (runs_dirlink_link small (rfl : (FsResource.ref ip).inum = ip) (by simp) rfl) ?_
      intro linked held h
      cases linked with
      | true =>
        rw [h.1 rfl]
        refine spend ({.ref cwd} + {.ref ip}) (by abel) runs_iunlockput ?_
        intro _
        exact spend {.ref cwd} rfl runs_iput fun _ => .done rfl
      | false =>
        rw [h.2 rfl]
        refine spend ({.ref cwd} + ({.link ip} + {.ref ip})) (by abel) runs_iunlockput ?_
        intro _
        exact spend {.ref cwd} rfl runs_unlinkOld fun _ => .done rfl

theorem runs_unlinkEntry {ip : Inum} {slot : Nat}
    (isDir : dir.type = .dir) (notDot : namecmp name dot = false)
    (notDotdot : namecmp name dotdot = false) (hit : dir.lookup name = some (ip, slot))
    (empty : d.type = .dir → d.isdirempty = true) : L.Runs p
      ({.locked p dp dir .whole} + {.locked p ip d .whole}) (unlinkEntry dp ip slot)
      fun _ held => held = 0 := by
  have emptied : ∀ s frame, Consistent ninodes counting s (frame +
    ({.locked p dp dir .whole} + {.locked p ip d .whole})) →
    (FsCommand.writei dp slot .empty).Fresh s := fun _ _ _ used => absurd rfl used
  by_cases childDir : d.type = .dir
  · apply (runs_step (executes_writei_rmdir isDir notDot notDotdot hit childDir) emptied).bind
    intro wrote held h
    cases wrote with
    | false => exact runs_fail (by decide) _ _
    | true =>
      rw [h.1 rfl]
      apply seq _ rfl (runs_step executes_read)
      intro inode held h
      rcases h with ⟨rfl, rfl⟩
      rw [if_pos childDir]
      apply (runs_step (executes_decNlink_parent (empty childDir))).bind_eq
      intro _
      refine spend _ (add_comm _ _) runs_iunlockput ?_
      intro _
      exact (runs_step (executes_decNlink (.inr rfl))).bind_eq fun _ => runs_iunlockput
  · apply (runs_step (executes_writei_unlink isDir notDot notDotdot hit childDir) emptied).bind
    intro wrote held h
    cases wrote with
    | false => exact runs_fail (by decide) _ _
    | true =>
      rw [h.1 rfl]
      let par : FsResource Pid := .locked p dp (dir.setEntry slot .empty) .whole
      refine seq ({.link ip} + {par}) (by abel) (runs_step executes_read) ?_
      rintro inode held ⟨rfl, rfl⟩
      rw [if_neg childDir]
      refine spend ({.locked p ip d .whole} + {.link ip}) (by abel) runs_iunlockput ?_
      intro _
      exact (runs_step (executes_decNlink (.inl rfl))).bind_eq fun _ => runs_iunlockput

theorem runs_sysUnlink (cwd : Inum) (path : Path) :
    L.Runs p {.ref cwd} (sysUnlink cwd path) fun _ held => held = {.ref cwd} := by
  apply (runs_nameiparent cwd path).bind
  rintro par held rfl
  cases par with
  | none => exact .done (add_zero _)
  | some par =>
    rcases par with ⟨dp, name⟩
    apply seq {.ref cwd} rfl (runs_step executes_ilock)
    intro _ held h
    rcases h with ⟨dir, rfl⟩
    split
    · exact spend {.ref cwd} rfl runs_iunlockput fun _ => .done rfl
    next notDots =>
    apply seq {.ref cwd} rfl (runs_dirlookup (.inl rfl))
    rintro hit held ⟨isDir, isFound, rfl⟩
    cases hit with
    | none =>
      simp only [Option.map_none, refTo_none, add_zero]
      exact spend {.ref cwd} rfl runs_iunlockput fun _ => .done rfl
    | some hit =>
      rcases hit with ⟨ip, slot⟩
      apply runs_ilock_read ({.ref cwd} + {.locked p dp dir .whole}) (add_assoc _ _ _).symm
      intro d
      split
      · exact runs_fail (by decide) _ _
      split
      · apply spend ({.ref cwd} + {.locked p dp dir .whole}) rfl runs_iunlockput
        intro _
        exact spend {.ref cwd} rfl runs_iunlockput fun _ => .done rfl
      next mayUnlink =>
      rw [Bool.or_eq_true, not_or, Bool.not_eq_true, Bool.not_eq_true] at notDots
      have empty : d.type = .dir → d.isdirempty = true := by
        intro childDir
        simpa [childDir] using mayUnlink
      exact spend {.ref cwd} (add_assoc _ _ _)
        (runs_unlinkEntry isDir notDots.1 notDots.2 isFound empty)
        fun _ => .done rfl

/-! ## New inodes -/

section

variable (small : ninodes ≤ 2 ^ 16)
include small

theorem runs_createDots {ip : Nat}
    (pos : 0 < ip) (below : ip < ninodes) (isDir : d.type = .dir) (empty : d.entries = []) :
    L.Runs p ({.locked p ip d .making} + {.locked p dp dir .expecting}) (createDots ip dp)
    fun _ held => ∃ made, held = {.locked p dp dir (.child ip)} + {.locked p ip made .unnamed} := by
  have isDot : Dirent.make dot ip = ⟨ip, dot⟩ := by
    rw [Dirent.make, Nat.mod_eq_of_lt (by omega)]
    rfl
  have dots : (d.setEntry 0 (.make dot ip)).entries = [⟨ip, dot⟩] := by
    simp [Dinode.setEntry, empty, isDot]
  have stillDir : (d.setEntry 0 (.make dot ip)).type = .dir := isDir
  apply seq {.locked p dp dir .expecting} (add_comm _ _) (runs_dirlink_dot small isDir empty)
  intro here held h
  cases here with
  | false => exact runs_fail (by decide) _ _
  | true =>
    rw [h.1 rfl, add_comm]
    apply (runs_dirlink_dotdot small stillDir dots (ne_of_gt pos)).bind
    intro up held h
    cases up with
    | false => exact runs_fail (by decide) _ _
    | true => exact .done ⟨_, by rw [h.1 rfl, add_comm]⟩

theorem runs_createNew {major : BitVec 16} (isDir : dir.type = .dir) (alive : type ≠ .free) :
    L.Runs p {.locked p dp dir .whole} (createNew ninodes dp name type major) (LockOf p) := by
  apply seq {.locked p dp dir .whole} (add_zero _).symm (runs_ialloc alive)
  intro ip held h
  rcases h with ⟨⟨pos, below⟩, rfl⟩
  apply seq_eq {.locked p dp dir .whole} rfl (runs_step executes_ilock_newborn)
  intro _
  apply seq_eq {.locked p dp dir .whole} rfl (runs_step executes_initInode)
  intro _
  rw [initialized]
  split
  · next makesDir =>
    apply seq_eq _ (add_comm _ _) (runs_step (executes_incNlink_parent isDir))
    intro _
    apply (runs_createDots small pos below makesDir rfl).bind
    intro _ held h
    rcases h with ⟨made, rfl⟩
    apply (runs_dirlink_child small).bind
    intro linked held h
    cases linked with
    | false => exact runs_fail (by decide) _ _
    | true =>
      rw [h.1 rfl]
      exact spend _ (add_comm _ _) runs_iunlockput fun _ => .done ⟨made, rfl⟩
  · let dinode : Dinode := { Dinode.blank type with major := major, nlink := 1 }
    rw [add_comm]
    refine (runs_dirlink_link small
      (rfl : (FsResource.locked p ip dinode .whole).inum = ip) (by simp) rfl).bind ?_
    intro linked held h
    cases linked with
    | false => exact runs_fail (by decide) _ _
    | true =>
      rw [h.1 rfl]
      exact spend _ rfl runs_iunlockput fun _ => .done ⟨dinode, rfl⟩

theorem runs_create (cwd : Inum) (path : Path) (alive : type ≠ .free) (major : BitVec 16) :
    L.Runs p {.ref cwd} (create ninodes cwd path type major) fun hit held => ∃ later,
    held = {.ref cwd} + later ∧ LockOf p hit later := by
  apply (runs_nameiparent cwd path).bind
  rintro par held rfl
  cases par with
  | none => exact .done ⟨0, rfl, rfl⟩
  | some par =>
    rcases par with ⟨dp, name⟩
    apply seq {.ref cwd} rfl (runs_step executes_ilock)
    intro _ held h
    rcases h with ⟨dir, rfl⟩
    apply seq {.ref cwd} rfl (runs_dirlookup (.inl rfl))
    rintro hit held ⟨isDir, _, rfl⟩
    cases hit with
    | none =>
      simp only [Option.map_none, refTo_none, add_zero]
      apply Runs.frame
      exact runs_createNew small isDir alive
    | some hit =>
      rcases hit with ⟨ip, slot⟩
      simp only [Option.map_some, refTo_some]
      refine spend ({.ref cwd} + {.ref ip}) (by abel) runs_iunlockput ?_
      intro _
      apply runs_ilock_read {.ref cwd} rfl
      intro d
      split
      · exact .done ⟨_, rfl, d, rfl⟩
      · exact spend {.ref cwd} rfl runs_iunlockput
          fun _ => .done ⟨0, (add_zero _).symm, rfl⟩

theorem runs_openInode (cwd : Inum) (path : Path) (omode : Nat) :
    L.Runs p {.ref cwd} (openInode ninodes cwd path omode) fun found held => ∃ later,
    held = {.ref cwd} + later ∧ LockOf p found later := by
  rw [openInode]
  split
  · exact runs_create small cwd path (by decide) 0
  apply (runs_namei cwd path).bind
  rintro found held rfl
  cases found with
  | none => exact .done ⟨0, rfl, rfl⟩
  | some ip =>
    apply runs_ilock_read {.ref cwd} rfl
    intro d
    split
    · exact spend {.ref cwd} rfl runs_iunlockput
        fun _ => .done ⟨0, (add_zero _).symm, rfl⟩
    · exact .done ⟨_, rfl, d, rfl⟩

theorem runs_sysOpen (cwd : Inum) (path : Path) (omode : Nat) (avail : Bool) :
    L.Runs p {.ref cwd} (sysOpen ninodes cwd path omode avail)
      fun opened held => held = {.ref cwd} + refTo opened := by
  apply (runs_openInode small cwd path omode).bind
  intro hit held h
  rcases h with ⟨later, rfl, isLock⟩
  cases hit with
  | none => exact .done (by rw [isLock]; rfl)
  | some ip =>
    rcases isLock with ⟨d, rfl⟩
    apply seq {.ref cwd} rfl (runs_step executes_read)
    rintro inode held ⟨rfl, rfl⟩
    have fails : L.Runs p ({.ref cwd} + {.locked p ip d .whole})
        (do iunlockput ip
            pure none : FsProgram (Option Inum))
        fun opened held => held = {.ref cwd} + refTo opened :=
      spend {.ref cwd} rfl runs_iunlockput fun _ => .done (add_zero _).symm
    split
    · exact fails
    split
    · have opens : L.Runs p ({.ref cwd} + {.locked p ip d .whole})
          (do step (.iunlock ip)
              pure (some ip) : FsProgram (Option Inum))
          fun opened held => held = {.ref cwd} + refTo opened :=
        seq_eq {.ref cwd} rfl (runs_step executes_iunlock) fun _ => .done rfl
      dsimp only
      split
      · exact (runs_step executes_itrunc).bind_eq fun _ => opens
      · exact opens
    · exact fails

theorem runs_sysMake (cwd : Inum) (path : Path) (alive : type ≠ .free) (major : BitVec 16) :
    L.Runs p {.ref cwd} (sysMake ninodes cwd path type major) fun _ held => held = {.ref cwd} := by
  apply (runs_create small cwd path alive major).bind
  rintro hit held ⟨later, rfl, isLock⟩
  cases hit with
  | none => exact .done (by rw [isLock, add_zero])
  | some ip =>
    rcases isLock with ⟨d, rfl⟩
    exact spend {.ref cwd} rfl runs_iunlockput fun _ => .done rfl

end

/-! ## References that processes keep -/

theorem runs_sysChdir (cwd : Inum) (path : Path) :
    L.Runs p {.ref cwd} (sysChdir cwd path) fun after held => held = {.ref (after.getD cwd)} := by
  apply (runs_namei cwd path).bind
  rintro found held rfl
  cases found with
  | none => exact .done (add_zero _)
  | some ip =>
    apply runs_ilock_read {.ref cwd} rfl
    intro d
    split
    · apply seq_eq {.ref cwd} rfl (runs_step executes_iunlock)
      intro _
      exact spend {.ref ip} (add_comm _ _) runs_iput fun _ => .done rfl
    · exact spend {.ref cwd} rfl runs_iunlockput fun _ => .done rfl

theorem runs_closeAll (ofile : List Inum) :
    L.Runs p (ofile.map .ref : List (FsResource Pid)) (closeAll ofile) fun _ held => held = 0 := by
  induction ofile with
  | nil => exact .done rfl
  | cons ip rest ih =>
    have split : (((ip :: rest).map .ref : List (FsResource Pid)) : FsHeld Pid) =
        (rest.map .ref : List (FsResource Pid)) + {.ref ip} := by
      rw [List.map_cons, ← Multiset.cons_coe, ← Multiset.singleton_add, add_comm]
    exact spend _ split runs_iput fun _ => ih

end FsProgram

/-! ## Soundness -/

section

open FsProgram Ledger

variable {Pid : Type} [DecidableEq Pid] {ninodes : Nat} {counting : Prop} {p : Pid}
  (L : Ledger (fsSystem Pid ninodes) (FsResource Pid)) [follows : Follows L counting]
include follows

theorem idle_eq (cwd : Inum) (ofile : List Inum) :
    L.idle ⟨some cwd, ofile⟩ = (ofile.map .ref : List (FsResource Pid)) + {.ref cwd} := by
  rw [follows.idle]
  change ((ref cwd :: ofile.map .ref : List (FsResource Pid)) : FsHeld Pid) = _
  rw [← cons_coe, ← singleton_add, add_comm]

variable [Fintype Pid]

theorem runs_call (small : ninodes ≤ 2 ^ 16)
    (cwd : Inum) (ofile : List Inum) (call : FsCall) : L.Runs p (L.idle ⟨some cwd, ofile⟩)
    (call.run ninodes cwd ofile) fun proc held => held = L.idle proc := by
  rw [idle_eq]
  cases call with
  | open_ path omode avail =>
    apply seq _ rfl (runs_sysOpen small cwd path omode avail)
    rintro opened held rfl
    apply Runs.done
    rw [idle_eq, List.map_append, ← coe_add]
    cases opened with
    | none => simp
    | some ip =>
      simp only [refTo_some, Option.toList_some, List.map_cons, List.map_nil, coe_singleton]
      abel
  | mkdir path =>
    exact seq_eq _ rfl (runs_sysMake small cwd path (by decide) 0)
      fun _ => .done (idle_eq L cwd ofile).symm
  | mknod path major =>
    exact seq_eq _ rfl (runs_sysMake small cwd path (by decide) major)
      fun _ => .done (idle_eq L cwd ofile).symm
  | link old new =>
    exact seq_eq _ rfl (runs_sysLink small cwd old new) fun _ => .done (idle_eq L cwd ofile).symm
  | unlink path =>
    exact seq_eq _ rfl (runs_sysUnlink cwd path) fun _ => .done (idle_eq L cwd ofile).symm
  | chdir path =>
    apply seq _ rfl (runs_sysChdir cwd path)
    rintro after held rfl
    exact .done (idle_eq L (after.getD cwd) ofile).symm
  | close fd =>
    rw [FsCall.run]
    split
    · exact .done (idle_eq L cwd ofile).symm
    next ip has =>
    have split : ((ofile.map .ref : List (FsResource Pid)) : FsHeld Pid) =
        ((ofile.eraseIdx fd).map .ref : List (FsResource Pid)) + {.ref ip} := by
      rcases List.getElem?_eq_some_iff.mp has with ⟨isIn, eq⟩
      have perm := (List.getElem_cons_eraseIdx_perm isIn).map (@ref Pid)
      rw [eq, List.map_cons] at perm
      rw [← coe_eq_coe.mpr perm, ← cons_coe, ← singleton_add, add_comm]
    rw [split, add_right_comm]
    apply spend _ rfl runs_iput
    intro _
    exact .done (idle_eq L cwd _).symm
  | exit =>
    apply spend {.ref cwd} (add_comm _ _) (runs_closeAll ofile)
    intro _
    exact runs_iput.bind_eq fun _ => .done (by rw [follows.idle]; rfl)

theorem Follows.sound (small : ninodes ≤ 2 ^ 16) : L.Sound := by
  rintro p call ⟨cwd, ofile⟩
  cases cwd with
  | none => exact .done rfl
  | some cwd => exact runs_call L small cwd ofile call

end

end Xv6
