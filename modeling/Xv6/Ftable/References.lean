import Xv6.Ftable.Counts

/-! # References to files

Every call keeps the counts, on its failure exits too. -/

namespace Xv6.Ftable

open Foundation Function File FileState Lifetimes List.Perm
open List (erase_cons_head mem_cons mem_cons_self mem_singleton not_mem_nil)

/-- The calls that leave the descriptors as they were when they return -1. -/
def FileCall.Undone {Pid : Type} : FileCall Pid → (value : Int) → Prop
  | .openFile _ _ _, value => value = -1
  | .pipe _ _ _, value => value = -1
  | _, _ => False

namespace FileState

variable {Pid : Type} [Fintype Pid]
  {s after : FileState Pid} {held fresh : List FileIndex} {f : FileIndex}
  {p : Pid} {fd : Descriptor}

/-! ## Open, pipe, dup and close -/

theorem Counts.setUp {fresh' : List FileIndex} (counts : s.Counts held fresh) {file : File}
    (isIn : f ∈ fresh) (ref_eq : file.ref = (s.files f).ref) (set_up : file.type ≠ .none)
    (not_fresh : f ∉ fresh') (fresh_others : ∀ g, g ≠ f → (g ∈ fresh' ↔ g ∈ fresh)) :
    (s.setFile f file).Counts held fresh' := by
  have one := (counts.fresh_eq f isIn).1
  refine counts.setFile ?_ (fun _ _ => rfl) ?_ ?_ ?_ fresh_others
  · rw [ref_eq, counts.counts f]
  · exact fun _ unset => absurd unset set_up
  · intro unused
    omega
  · exact fun still => absurd still not_fresh

theorem Inv.setInode (inv : s.Inv held [f]) {file : File}
    (ref_eq : file.ref = (s.files f).ref) (inode : file.type = .inode ∨ file.type = .device) :
    ((s.setFile f file).record (.begins (.file f) (.inode file.ip))).Inv held [] := by
  have kinds : file.type ≠ .none ∧ file.type ≠ .pipe ∧ file.resource = some (.inode file.ip) := by
    rw [resource]
    rcases inode with is_inode | is_device
    · rw [is_inode]
      exact ⟨FileType.noConfusion, FileType.noConfusion, rfl⟩
    · rw [is_device]
      exact ⟨FileType.noConfusion, FileType.noConfusion, rfl⟩
  have set_up : (s.setFile f file).Counts held [] := by
    refine inv.toCounts.setUp mem_cons_self ref_eq kinds.1 not_mem_nil ?_
    intro g o
    rw [mem_singleton]
    exact iff_of_false not_mem_nil o
  exact ⟨set_up.congr rfl rfl rfl,
    inv.toLives.setInode (inv.fresh_eq f mem_cons_self).2 kinds.2.1 kinds.2.2⟩

theorem Inv.setPipe {f0 f1 : FileIndex} {page : Nat} (inv : s.Inv [f1, f0] [f1, f0])
    (ne : f0 ≠ f1) (unused : s.pipes page = none) : (s.setPipe f0 f1 page).Inv [f1, f0] [] := by
  obtain ⟨_, unset0⟩ := inv.fresh_eq f0 (List.mem_cons_of_mem _ mem_cons_self)
  obtain ⟨_, unset1⟩ := inv.fresh_eq f1 mem_cons_self
  unfold FileState.setPipe
  dsimp only
  -- The three steps: the page, the file that reads and the file that writes.
  generalize one_eq : ({ s with
    pipes := update s.pipes page (some ⟨true, true⟩) } : FileState Pid).record
      (.begins (.page page) .page) = one
  have files1 : one.files = s.files := by rw [← one_eq]; rfl
  have counts1 : one.Counts [f1, f0] [f1, f0] := by
    rw [← one_eq]
    exact inv.toCounts.congr rfl rfl rfl
  have logged1 : Lifetimes one.log one.live := by
    rw [← one_eq]
    have begun := begins .page inv.logged (show s.live (.page page) = none by
        change (s.pipes page).map _ = _
        rw [unused]
        rfl)
    exact (live_setPipes s page (some ⟨true, true⟩)) ▸ begun
  generalize file0_eq : ({ one.files f0 with
    type := .pipe, readable := true, writable := false, pipe := page } : File) = file0
  generalize two_eq : (one.setFile f0 file0).record (.begins (.file f0) (.pipeEnd page false)) = two
  have end0 : file0.IsEnd page false := by
    rw [← file0_eq]
    exact ⟨rfl, rfl, rfl⟩
  have files2 : two.files = update s.files f0 file0 := by
    rw [← two_eq, ← files1]
    rfl
  have at_f1 : two.files f1 = s.files f1 := by rw [files2, update_of_ne ne.symm]
  have counts2 : two.Counts [f1, f0] [f1] := by
    rw [← two_eq]
    have set_up : (one.setFile f0 file0).Counts [f1, f0] [f1] := by
      refine counts1.setUp (List.mem_cons_of_mem _ mem_cons_self) ?_ ?_ ?_ ?_
      · rw [← file0_eq]
      · rw [end0.type_eq]
        exact FileType.noConfusion
      · exact fun isIn => ne (mem_singleton.mp isIn)
      · intro g o
        simp only [mem_cons, not_mem_nil, or_false, o]
    exact set_up.congr rfl rfl rfl
  have logged2 : Lifetimes two.log two.live := by
    rw [← two_eq]
    have begun := begins (.pipeEnd page false) logged1 (show one.live (.file f0) = none from
      resource_eq_none_iff.mpr (by rw [files1, unset0]))
    rwa [← resource_eq_pipeEnd_iff.mpr end0, ← live_setFile] at begun
  generalize file1_eq : ({ two.files f1 with
    type := .pipe, readable := false, writable := true, pipe := page } : File) = file1
  have end1 : file1.IsEnd page true := by
    rw [← file1_eq]
    exact ⟨rfl, rfl, rfl⟩
  have set_up : (two.setFile f1 file1).Counts [f1, f0] [] := by
    refine counts2.setUp mem_cons_self ?_ ?_ not_mem_nil ?_
    · rw [← file1_eq]
    · rw [end1.type_eq]
      exact FileType.noConfusion
    · intro g o
      rw [mem_singleton]
      exact iff_of_false not_mem_nil o
  refine ⟨set_up.congr rfl rfl rfl, ?_, ?_⟩
  · have begun := begins (.pipeEnd page true) logged2 (show two.live (.file f1) = none from
      resource_eq_none_iff.mpr (by rw [at_f1, unset1]))
    rwa [← resource_eq_pipeEnd_iff.mpr end1, ← live_setFile] at begun
  · change EndsMatch (update two.files f1 file1) two.pipes
    rw [files2, ← two_eq, ← one_eq]
    exact inv.ends.open ne unset0 unset1 unused end0 end1

theorem Inv.pipealloc (inv : s.Inv [] []) {page : Option Nat}
    (unused : ∀ number, page = some number → s.pipes number = none) :
    (∃ after, s.pipealloc page = .ok (none, after) ∧ after.Inv [] [] ∧ after.ofile = s.ofile) ∨
      ∃ f f1 after, s.pipealloc page = .ok (some (f, f1), after) ∧
        after.Inv [f, f1] [] ∧ after.ofile = s.ofile ∧ after.used = s.used := by
  unfold FileState.pipealloc
  cases fst : s.filealloc with
  | none => exact .inl ⟨s, rfl, inv, rfl⟩
  | some out =>
    obtain ⟨f, one⟩ := out
    obtain ⟨inv1, ofile1, pipes1, used1, _, _⟩ := inv.filealloc fst
    dsimp only
    cases snd : one.filealloc with
    | none =>
      obtain ⟨after, closed, final, ofile_eq⟩ := inv1.closeAll fun g isIn => isIn
      refine .inl ⟨after, ?_, final, ofile_eq.trans ofile1⟩
      dsimp only
      rw [closed]
      rfl
    | some out =>
      obtain ⟨f1, two⟩ := out
      obtain ⟨inv2, ofile2, pipes2, used2, not_held, _⟩ := inv1.filealloc snd
      have ne : f ≠ f1 := fun same => not_held (same ▸ mem_cons_self)
      cases page with
      | none =>
        have swapped := inv2.perm (swap f f1 [])
        obtain ⟨after, closed, final, ofile_eq⟩ := swapped.closeAll fun g isIn =>
          (swap f f1 []).subset isIn
        refine .inl ⟨after, ?_, final, ofile_eq.trans (ofile2.trans ofile1)⟩
        dsimp only
        rw [closed]
        rfl
      | some page =>
        have still_unused : two.pipes page = none := by
          rw [pipes2, pipes1]
          exact unused page rfl
        have set_up := inv2.setPipe ne still_unused
        exact .inr ⟨f, f1, _, rfl, set_up.perm (swap f f1 []),
          ofile2.trans ofile1, used2.trans used1⟩

variable [DecidableEq Pid]

omit [Fintype Pid] in
theorem fdalloc_some (hit : s.fdalloc p f = some (fd, after)) :
    s.ofile (p, fd) = none ∧ after = s.setOfile p fd (some f) := by
  unfold fdalloc at hit
  split at hit
  · rename_i free free_eq
    cases hit
    have chosen := List.find?_some free_eq
    exact ⟨Option.isNone_iff_eq_none.mp chosen, rfl⟩
  · cases hit

omit [Fintype Pid] in
theorem setOfile_clear (free : s.ofile (p, fd) = none) (after : FileState Pid)
    (ofile_eq : after.ofile = (s.setOfile p fd (some f)).ofile) :
    (after.setOfile p fd none).ofile = s.ofile := by
  change update after.ofile (p, fd) none = s.ofile
  rw [ofile_eq]
  change update (update s.ofile (p, fd) (some f)) (p, fd) none = _
  rw [update_idem, ← free, update_eq_self]

/-- What a call does: it ends, keeps what holds, and `unchanged` says when the descriptors
stay as they were. -/
def Ends (s : FileState Pid) (unchanged : Int → Prop)
    (out : Except FileFault (Int × FileState Pid)) : Prop :=
  ∃ value after, out = .ok (value, after) ∧ after.Inv [] [] ∧
    (unchanged value → after.ofile = s.ofile)

theorem Inv.sysOpen (inv : s.Inv [] []) (used : s.used p = true)
    (hit : Option OpenInode) (omode : Nat) : s.Ends (· = -1) (s.sysOpen p hit omode) := by
  have fails : s.Ends (· = -1) (.ok (-1, s)) := ⟨_, _, rfl, inv, fun _ => rfl⟩
  unfold FileState.sysOpen
  cases hit with
  | none => exact fails
  | some inode =>
    dsimp only
    split
    · exact fails
    split
    · exact fails
    cases alive : s.filealloc with
    | none => exact fails
    | some out =>
      obtain ⟨f, one⟩ := out
      obtain ⟨inv1, ofile, _, used1, _, _⟩ := inv.filealloc alive
      dsimp only
      cases slot : one.fdalloc p f with
      | none =>
        obtain ⟨after, closed, final, ofile_eq, _⟩ := inv1.fileclose mem_cons_self
        have none_fresh : [f].filter (· ≠ f) = [] := by simp
        rw [erase_cons_head, none_fresh] at final
        refine ⟨-1, after, ?_, final, fun _ => ofile_eq.trans ofile⟩
        dsimp only
        rw [closed]
        rfl
      | some out =>
        obtain ⟨fd, two⟩ := out
        obtain ⟨free, rfl⟩ := fdalloc_some slot
        have inv2 := inv1.install free (by rw [used1, used]) mem_cons_self
        rw [erase_cons_head] at inv2
        refine ⟨_, _, rfl, inv2.setInode rfl ?_, fun negative => ?_⟩
        · dsimp only
          split
          · exact .inr rfl
          · exact .inl rfl
        · omega

omit [Fintype Pid] in
theorem setOfile_clear_both {fd fd1 : Descriptor} {rf wf : FileIndex}
    (free0 : s.ofile (p, fd) = none) (free1 : s.ofile (p, fd1) = none) :
    ((((s.setOfile p fd (some rf)).setOfile p fd1 (some wf)).setOfile p fd
    none).setOfile p fd1 none).ofile = s.ofile := by
  funext place
  change update (update (update (update s.ofile
    (p, fd) (some rf)) (p, fd1) (some wf)) (p, fd) none) (p, fd1) none place = _
  by_cases at1 : place = (p, fd1)
  · rw [at1, update_self, free1]
  rw [update_of_ne at1]
  by_cases at0 : place = (p, fd)
  · rw [at0, update_self, free0]
  rw [update_of_ne at0, update_of_ne at1, update_of_ne at0]

omit [DecidableEq Pid] [Fintype Pid] in
theorem argfd_some {number : Int} (hit : s.argfd p number = some (fd, f)) :
    s.ofile (p, fd) = some f := by
  unfold argfd at hit
  split at hit
  · obtain ⟨g, at_fd, same⟩ := Option.map_eq_some_iff.mp hit
    cases same
    exact at_fd
  · cases hit

/-! `filedup` and `fileclose` do not look at the descriptors, so that it does not matter
whether they come before a descriptor changes or after. -/

section

omit [Fintype Pid]

theorem filedup_setOfile (slot : Option FileIndex) :
    (s.setOfile p fd slot).filedup f = (s.filedup f).map fun after => after.setOfile p fd slot := by
  unfold filedup
  change (if (s.files f).ref < 1 then _ else _) = _
  split <;> rfl

theorem pipeclose_setOfile (s : FileState Pid) (p : Pid) (fd : Descriptor)
    (slot : Option FileIndex) (page : Nat) (wrb : Bool) : (s.setOfile p fd slot).pipeclose
    page wrb = (s.pipeclose page wrb).map fun after => after.setOfile p fd slot := by
  unfold pipeclose
  have same : (s.setOfile p fd slot).pipes page = s.pipes page := rfl
  rw [same]
  cases s.pipes page with
  | none => rfl
  | some ends =>
    dsimp only
    split <;> split <;> rfl

theorem fileclose_setOfile (slot : Option FileIndex) : (s.setOfile p fd slot).fileclose
    f = (s.fileclose f).map fun after => after.setOfile p fd slot := by
  have same : (s.setOfile p fd slot).files f = s.files f := rfl
  unfold fileclose
  rw [same]
  dsimp only
  split
  · rfl
  split
  · rfl
  cases (s.files f).type with
  | none | inode | device => rfl
  | pipe =>
    exact pipeclose_setOfile ((s.setFile f { s.files f with
      ref := 0, type := .none }).record _) p fd slot _ _

end

section

variable (inv : s.Inv [] [])
include inv

theorem Inv.sysPipe (used : s.used p = true) {page : Option Nat}
    (unused : ∀ number, page = some number → s.pipes number = none) (copied : Bool) :
    s.Ends (· = -1) (s.sysPipe p page copied) := by
  have none_fresh {fs : List FileIndex} : ∀ g ∈ ([] : List FileIndex), g ∈ fs :=
    fun g never => absurd never not_mem_nil
  unfold FileState.sysPipe
  rcases inv.pipealloc unused with ⟨one, ran, inv1, ofile1⟩ |
    ⟨rf, wf, one, ran, inv1, ofile1, used1⟩
  · rw [ran]
    exact ⟨-1, one, rfl, inv1, fun _ => ofile1⟩
  rw [ran]
  dsimp only [bind, Except.bind]
  have used_one : one.used p = true := by rw [used1, used]
  cases slot0 : one.fdalloc p rf with
  | none =>
    obtain ⟨after, closed, final, ofile_eq⟩ := inv1.closeAll none_fresh
    refine ⟨-1, after, ?_, final, fun _ => ofile_eq.trans ofile1⟩
    dsimp only
    rw [closed]
  | some out =>
    obtain ⟨fd, two⟩ := out
    obtain ⟨free0, rfl⟩ := fdalloc_some slot0
    have inv2 := inv1.install free0 used_one mem_cons_self
    rw [erase_cons_head] at inv2
    have at_fd0 : (one.setOfile p fd (some rf)).ofile (p, fd) = some rf := update_self ..
    dsimp only
    cases slot1 : (one.setOfile p fd (some rf)).fdalloc p wf with
    | none =>
      obtain ⟨after, closed, final, ofile_eq⟩ := (inv2.clear at_fd0).closeAll none_fresh
      refine ⟨-1, after, ?_, final, fun _ => ofile_eq.trans ?_⟩
      · dsimp only
        rw [closed]
      · exact (setOfile_clear free0 _ rfl).trans ofile1
    | some out =>
      obtain ⟨fd1, three⟩ := out
      obtain ⟨free1, rfl⟩ := fdalloc_some slot1
      have inv3 := inv2.install free1 used_one mem_cons_self
      rw [erase_cons_head] at inv3
      dsimp only
      cases copied with
      | true => exact ⟨0, _, rfl, inv3, fun never => by cases never⟩
      | false =>
        have ne : (p, fd) ≠ (p, fd1) := by
          intro same
          rw [← same, at_fd0] at free1
          cases free1
        have free' : one.ofile (p, fd1) = none := by
          rw [← free1]
          exact (update_of_ne ne.symm _ _).symm
        have still : ((one.setOfile p fd (some rf)).setOfile p fd1 (some wf)).ofile
          (p, fd) = some rf := (update_of_ne ne _ _).trans at_fd0
        have cleared := inv3.clear still
        have still1 : (((one.setOfile p fd (some rf)).setOfile p fd1
            (some wf)).setOfile p fd none).ofile (p, fd1) = some wf :=
          (update_of_ne ne.symm _ _).trans (update_self ..)
        have both := (cleared.clear still1).perm (swap rf wf [])
        obtain ⟨after, closed, final, ofile_eq⟩ := both.closeAll none_fresh
        refine ⟨-1, after, ?_, final, fun _ => ofile_eq.trans ?_⟩
        · rw [if_neg Bool.false_ne_true, closed]
        · exact (setOfile_clear_both free0 free').trans ofile1

theorem Inv.sysDup (used : s.used p = true) (number : Int) :
    s.Ends (fun _ => False) (s.sysDup p number) := by
  have fails : s.Ends (fun _ => False) (.ok (-1, s)) := ⟨_, _, rfl, inv, False.elim⟩
  unfold FileState.sysDup
  cases at_num : s.argfd p number with
  | none => exact fails
  | some out =>
    obtain ⟨fd, f⟩ := out
    dsimp only
    cases slot : s.fdalloc p f with
    | none => exact fails
    | some out =>
      obtain ⟨fd', one⟩ := out
      obtain ⟨free, rfl⟩ := fdalloc_some slot
      obtain ⟨two, ran, inv2, ofile_eq, used_eq⟩ :=
        inv.filedup (inv.ref_pos (argfd_some at_num)) not_mem_nil
      have final := inv2.install (ofile_eq ▸ free) (by rw [used_eq, used]) mem_cons_self
      rw [erase_cons_head] at final
      refine ⟨(fd' : Nat), two.setOfile p fd' (some f), ?_, final, False.elim⟩
      dsimp only
      rw [filedup_setOfile, ran]
      rfl

theorem Inv.sysClose (number : Int) : s.Ends (fun _ => False) (s.sysClose p number) := by
  unfold FileState.sysClose
  cases at_num : s.argfd p number with
  | none => exact ⟨_, _, rfl, inv, False.elim⟩
  | some out =>
    obtain ⟨fd, f⟩ := out
    obtain ⟨after, closed, final, _⟩ := (inv.clear (argfd_some at_num)).fileclose mem_cons_self
    rw [erase_cons_head] at final
    refine ⟨0, after, ?_, final, False.elim⟩
    dsimp only
    rw [closed]
    rfl

/-! ## Fork and exit -/

theorem Inv.forkLoop {np : Pid} (used : s.used np = true)
    {fds : List Descriptor} (nodup : fds.Nodup) (free : ∀ fd ∈ fds, s.ofile (np, fd) = none) :
    ∃ after, s.forkLoop p np fds = .ok after ∧ after.Inv [] [] := by
  induction fds generalizing s with
  | nil => exact ⟨s, rfl, inv⟩
  | cons fd fds ih =>
    obtain ⟨not_again, nodup⟩ := List.nodup_cons.mp nodup
    have later_free := fun o isIn => free o (List.mem_cons_of_mem _ isIn)
    rw [forkLoop]
    cases at_fd : s.ofile (p, fd) with
    | none => exact ih inv used nodup later_free
    | some f =>
      obtain ⟨one, ran, inv1, ofile_eq, used_eq⟩ := inv.filedup (inv.ref_pos at_fd) not_mem_nil
      have at_np : one.ofile (np, fd) = none := by
        rw [ofile_eq]
        exact free fd mem_cons_self
      have used_one : one.used np = true := by rw [used_eq, used]
      have inv2 := inv1.install at_np used_one mem_cons_self
      rw [erase_cons_head] at inv2
      obtain ⟨after, rest, final⟩ := ih inv2 used_one nodup fun o isIn => by
        have apart : (np, o) ≠ (np, fd) := fun same =>
          not_again ((Prod.mk.inj same).2 ▸ isIn)
        refine (update_of_ne apart _ _).trans ?_
        rw [ofile_eq]
        exact later_free o isIn
      refine ⟨after, ?_, final⟩
      dsimp only
      rwa [ran]

theorem Inv.fork {np : Pid} (copied : Bool) : s.Ends (fun _ => False) (s.fork p np copied) := by
  unfold FileState.fork
  by_cases fails : s.used np ∨ ¬copied
  · rw [if_pos fails]
    exact ⟨_, _, rfl, inv, False.elim⟩
  rw [if_neg fails]
  have unused : s.used np = false := Bool.eq_false_iff.mpr (not_or.mp fails).1
  have began : ({ s with used := update s.used np true } : FileState Pid).Inv [] [] := by
    refine ⟨⟨inv.counts, inv.ready, inv.unset, inv.fresh_eq, ?_⟩, inv.logged, inv.ends⟩
    intro q unused'
    change update s.used np true q = false at unused'
    by_cases same : q = np
    · rw [same]
      exact inv.gone np unused
    · rw [update_of_ne same] at unused'
      exact inv.gone q unused'
  obtain ⟨after, ran, final⟩ := began.forkLoop (update_self ..)
    (List.nodup_finRange nOfile) fun fd _ => inv.gone np unused fd
  refine ⟨0, after, ?_, final, False.elim⟩
  rw [ran]
  rfl

theorem Inv.exitLoop (fds : List Descriptor) : ∃ after, s.exitLoop p fds = .ok after ∧
    after.Inv [] [] ∧ ∀ fd, fd ∈ fds ∨ s.ofile (p, fd) = none → after.ofile (p, fd) = none := by
  induction fds generalizing s with
  | nil => exact ⟨s, rfl, inv, fun fd among => among.resolve_left not_mem_nil⟩
  | cons fd fds ih =>
    rw [exitLoop]
    cases at_fd : s.ofile (p, fd) with
    | none =>
      obtain ⟨after, ran, final, closed⟩ := ih inv
      refine ⟨after, ran, final, fun o among => closed o ?_⟩
      rcases among with isIn | free
      · rcases mem_cons.mp isIn with rfl | later
        · exact .inr at_fd
        · exact .inl later
      · exact .inr free
    | some f =>
      obtain ⟨cleared, ran, inv1, ofile_eq, _⟩ := (inv.clear at_fd).fileclose mem_cons_self
      rw [erase_cons_head] at inv1
      rw [fileclose_setOfile] at ran
      obtain ⟨one, ran_one, rfl⟩ : ∃ one, s.fileclose f = .ok one ∧
          one.setOfile p fd none = cleared := by
        cases closes : s.fileclose f with
        | error fault =>
          rw [closes] at ran
          cases ran
        | ok one =>
          rw [closes] at ran
          exact ⟨one, rfl, Except.ok.inj ran⟩
      obtain ⟨after, rest, final, closed⟩ := ih inv1
      refine ⟨after, ?_, final, fun o among => closed o ?_⟩
      · dsimp only
        rwa [ran_one]
      rw [ofile_eq]
      change _ ∨ update s.ofile (p, fd) none (p, o) = none
      by_cases same : o = fd
      · rw [same, update_self]
        exact .inr rfl
      have apart : (p, o) ≠ (p, fd) := fun eq => same (Prod.mk.inj eq).2
      rw [update_of_ne apart]
      exact among.imp_left fun isIn => List.mem_of_ne_of_mem same isIn

theorem Inv.exit : s.Ends (fun _ => False) (s.exit p) := by
  obtain ⟨one, ran, inv1, closed⟩ := inv.exitLoop (List.finRange nOfile)
  refine ⟨0, { one with used := update one.used p false }, ?_, ?_, False.elim⟩
  · rw [FileState.exit, ran]
    rfl
  refine ⟨⟨inv1.counts, inv1.ready, inv1.unset, inv1.fresh_eq, ?_⟩, inv1.logged, inv1.ends⟩
  intro q unused
  change update one.used p false q = false at unused
  by_cases same : q = p
  · rw [same]
    exact fun fd => closed fd (.inl (List.mem_finRange fd))
  · rw [update_of_ne same] at unused
    exact inv1.gone q unused

/-! ## Runs -/

theorem Inv.exec {call : FileCall Pid}
    (possible : s.Possible call) : s.Ends call.Undone (s.exec call) := by
  cases call with
  | openFile p hit omode => exact inv.sysOpen possible hit omode
  | pipe p page copied => exact inv.sysPipe possible.1 possible.2 copied
  | dup p fd => exact inv.sysDup possible fd
  | close p fd => exact inv.sysClose fd
  | fork p np copied => exact inv.fork copied
  | exit p => exact inv.exit

end

omit [DecidableEq Pid] in
theorem boot_inv (used : Pid → Bool) : (boot used).Inv [] [] := by
  have none_live : (boot used).live = fun _ => none := by
    funext key
    cases key <;> rfl
  refine ⟨⟨?_, ?_, fun _ _ => rfl, ?_, fun _ _ _ => rfl⟩, ?_, ?_⟩
  · intro f
    change 0 = _
    rw [List.count_nil, add_zero, eq_comm, tally_eq_zero_iff]
    exact fun _ => points_none f
  · exact fun f in_use _ => absurd rfl in_use
  · exact fun f never => absurd never not_mem_nil
  · rw [none_live]
    exact .nil
  · refine ⟨?_, ?_, ?_, ?_⟩
    · intro f page wrb is_end
      cases is_end.type_eq
    · rintro page ends wrb ⟨⟩
    · intro f g page wrb is_end
      cases is_end.type_eq
    · rintro page ends ⟨⟩

theorem Reached.inv {used : Pid → Bool} (got : Reached used s) : s.Inv [] [] := by
  induction got with
  | boot => exact boot_inv used
  | call call got possible ran ih =>
    obtain ⟨v, after, ended, final, _⟩ := ih.exec possible
    rw [ran] at ended
    cases ended
    exact final

/-- The number of descriptors, over all processes, that point to `f`. -/
def descriptors (s : FileState Pid) (f : FileIndex) : Nat :=
  (Finset.univ.filter fun place => s.ofile place = some f).card

omit [DecidableEq Pid] in
theorem descriptors_eq (s : FileState Pid) (f : FileIndex) :
    s.descriptors f = tally (points f) s.ofile := by
  rw [descriptors, Finset.card_filter]
  rfl

/-- Between the calls, in every run. The count of a file is the number of descriptors that
point to it. What was set up has been let go of once, by `pipeclose` or `iput`, unless a
descriptor points to the file, and the page of a pipe has been freed once unless a file is
one of its ends. No call stops the kernel, and `open` and `pipe` leave the descriptors as
they were when they fail. -/
theorem file_references {used : Pid → Bool} (reached : Reached used s) :
    (∀ f, (s.files f).ref = s.descriptors f) ∧
    (∃ live : Holder → Option Resource, Lifetimes s.log live ∧
      (∀ f, live (.file f) ≠ none ↔ ∃ place, s.ofile place = some f) ∧
      (∀ page, live (.page page) ≠ none ↔
        ∃ f writable, live (.file f) = some (.pipeEnd page writable))) ∧
    (∀ call, s.Possible call → ∃ value after, s.exec call = .ok (value, after) ∧
      (call.Undone value → after.ofile = s.ofile)) := by
  have inv := reached.inv
  have count_eq : ∀ f, (s.files f).ref = s.descriptors f := by
    intro f
    rw [inv.counts f, descriptors_eq, List.count_nil, add_zero]
  refine ⟨count_eq, ⟨s.live, inv.logged, ?_, ?_⟩, ?_⟩
  · intro f
    have in_use : s.live (.file f) ≠ none ↔ (s.files f).ref ≠ 0 := by
      rw [ne_eq, show s.live (.file f) = none ↔ _ from File.resource_eq_none_iff]
      refine ⟨mt (inv.unset f), fun positive unset => ?_⟩
      exact not_mem_nil (inv.ready f positive unset)
    rw [in_use, count_eq, descriptors, ne_eq, Finset.card_eq_zero,
      ← ne_eq, ← Finset.nonempty_iff_ne_empty]
    constructor
    · rintro ⟨place, inside⟩
      exact ⟨place, (Finset.mem_filter.mp inside).2⟩
    · rintro ⟨place, at_place⟩
      exact ⟨place, Finset.mem_filter.mpr ⟨Finset.mem_univ _, at_place⟩⟩
  · intro page
    constructor
    · intro in_use
      change (s.pipes page).map _ ≠ none at in_use
      obtain ⟨ends, at_page⟩ := Option.ne_none_iff_exists'.mp (mt Option.map_eq_none_iff.mpr in_use)
      obtain ⟨writable, is_open⟩ := inv.ends.inUse page ends at_page
      obtain ⟨f, is_end⟩ := inv.ends.held page ends writable at_page is_open
      exact ⟨f, writable, File.resource_eq_pipeEnd_iff.mpr is_end⟩
    · rintro ⟨f, writable, is_live⟩
      obtain ⟨ends, at_page, _⟩ := inv.ends.opened f page writable
        (File.resource_eq_pipeEnd_iff.mp is_live)
      change (s.pipes page).map _ ≠ none
      rw [at_page]
      exact Option.some_ne_none _
  · intro call possible
    obtain ⟨value, after, ended, _, undone⟩ := inv.exec possible
    exact ⟨value, after, ended, undone⟩

/-- After one process has made a pipe and another has been forked from it. -/
theorem file_references_forked : ∃ s : FileState Bool, Reached (fun p => p) s ∧
      (∃ f, (s.files f).ref = 2) ∧ ∀ f, (s.files f).ref = s.descriptors f := by
  have piped : Reached (fun p => p) _ :=
    .call (.pipe true (some 5) true) .boot ⟨rfl, fun _ _ => rfl⟩ rfl
  have forked : Reached (fun p => p) _ := .call (.fork true false true) piped rfl rfl
  exact ⟨_, forked, ⟨⟨0, by decide⟩, rfl⟩, (file_references forked).1⟩

end FileState

end Xv6.Ftable
