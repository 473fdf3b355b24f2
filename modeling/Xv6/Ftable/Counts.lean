import Xv6.Foundation.Tally
import Xv6.Ftable.Ftable

/-! # Counts and lifetimes of files

A file's count is the number of descriptors that point to it, together with the references
that the call in progress holds. -/

namespace Xv6.Ftable

open Foundation Function

/-- What the file stands for. -/
def File.resource (file : File) : Option Resource :=
  match file.type with
  | .none => none
  | .pipe => some (.pipeEnd file.pipe file.writable)
  | .inode => some (.inode file.ip)
  | .device => some (.inode file.ip)

variable {file : File}

theorem File.resource_eq_none_iff : file.resource = none ↔ file.type = .none := by
  unfold resource
  cases file.type <;> simp

/-- Whether the end is open. -/
def PipeEnds.isOpen (ends : PipeEnds) (writable : Bool) : Bool :=
  if writable then ends.writeopen else ends.readopen

/-- The file is an end of the pipe in `page`. -/
structure File.IsEnd (file : File) (page : Nat) (writable : Bool) : Prop where
  type_eq : file.type = .pipe
  pipe_eq : file.pipe = page
  writable_eq : file.writable = writable

variable {page : Nat} {writable : Bool}

theorem File.resource_eq_pipeEnd_iff :
    file.resource = some (.pipeEnd page writable) ↔ file.IsEnd page writable := by
  unfold resource
  constructor
  · intro hit
    cases type_eq : file.type with
    | pipe =>
      rw [type_eq] at hit
      cases hit
      exact ⟨type_eq, rfl, rfl⟩
    | none | inode | device =>
      rw [type_eq] at hit
      cases hit
  · rintro ⟨type_eq, rfl, rfl⟩
    rw [type_eq]

/-- The pipes with an open end are those of the files, and each open end has one file. -/
structure EndsMatch (files : FileIndex → File) (pipes : Nat → Option PipeEnds) : Prop where
  opened : ∀ f page writable, (files f).IsEnd page writable →
    ∃ ends, pipes page = some ends ∧ ends.isOpen writable = true
  held : ∀ page ends writable, pipes page = some ends → ends.isOpen writable = true →
    ∃ f, (files f).IsEnd page writable
  unique : ∀ f g page writable, (files f).IsEnd page writable →
    (files g).IsEnd page writable → f = g
  inUse : ∀ page ends, pipes page = some ends → ∃ writable, ends.isOpen writable = true

variable {files : FileIndex → File} {pipes : Nat → Option PipeEnds} {f : FileIndex}

theorem EndsMatch.setFile (ends : EndsMatch files pipes)
    (same : ∀ page writable, file.IsEnd page writable ↔ (files f).IsEnd page writable) :
    EndsMatch (update files f file) pipes := by
  have all : ∀ g page writable, (update files f file g).IsEnd page writable ↔
      (files g).IsEnd page writable := by
    intro g page writable
    by_cases here : g = f
    · rw [here, update_self]
      exact same page writable
    · rw [update_of_ne here]
  refine ⟨?_, ?_, ?_, ends.inUse⟩
  · intro g page writable is_end
    exact ends.opened g page writable ((all g page writable).mp is_end)
  · intro page hit writable at_page is_open
    obtain ⟨g, is_end⟩ := ends.held page hit writable at_page is_open
    exact ⟨g, (all g page writable).mpr is_end⟩
  · intro g h page writable first snd
    exact ends.unique g h page writable ((all g page writable).mp first)
      ((all h page writable).mp snd)

theorem File.IsEnd.iff_of_eq {file' : File} (type_eq : file.type = file'.type)
    (pipe_eq : file.pipe = file'.pipe) (wrb_eq : file.writable = file'.writable)
    (page : Nat) (writable : Bool) : file.IsEnd page writable ↔ file'.IsEnd page writable := by
  constructor
  · rintro ⟨rfl_type, rfl_pipe, rfl_wrb⟩
    exact ⟨type_eq ▸ rfl_type, pipe_eq ▸ rfl_pipe, wrb_eq ▸ rfl_wrb⟩
  · rintro ⟨rfl_type, rfl_pipe, rfl_wrb⟩
    exact ⟨type_eq.trans rfl_type, pipe_eq.trans rfl_pipe, wrb_eq.trans rfl_wrb⟩

theorem File.IsEnd.not_of_ne (o : file.type ≠ .pipe) : ¬file.IsEnd page writable :=
  fun is_end => o is_end.type_eq

/-- The pipe with one end closed. -/
def PipeEnds.close (ends : PipeEnds) (writable : Bool) : PipeEnds :=
  if writable then { ends with writeopen := false } else { ends with readopen := false }

theorem PipeEnds.isOpen_close (ends : PipeEnds) (writable o : Bool) :
    (ends.close writable).isOpen o = if o = writable then false else ends.isOpen o := by
  cases writable <;> cases o <;> rfl

theorem PipeEnds.all_closed_iff (ends : PipeEnds) : (ends.readopen = false ∧
    ends.writeopen = false) ↔ ∀ writable, ends.isOpen writable = false := by
  constructor
  · rintro ⟨read, write⟩ writable
    cases writable
    · exact read
    · exact write
  · intro all
    exact ⟨all false, all true⟩

/-- The page's pipe is gone when no end is open. -/
structure PageClosed (pipes pipes' : Nat → Option PipeEnds) (page : Nat) (ends : PipeEnds) :
    Prop where
  others : ∀ number, number ≠ page → pipes' number = pipes number
  here : pipes' page = if ∀ writable, ends.isOpen writable = false then none else some ends

theorem EndsMatch.close {pipes' : Nat → Option PipeEnds} (ends : EndsMatch files pipes)
    {both : PipeEnds} (is_end : (files f).IsEnd page writable) (closed : file.type = .none)
    (at_page : pipes page = some both)
    (page_closed : PageClosed pipes pipes' page (both.close writable)) :
    EndsMatch (update files f file) pipes' := by
  have not_end : ∀ number w, ¬file.IsEnd number w := fun number w =>
    File.IsEnd.not_of_ne (by rw [closed]; exact FileType.noConfusion)
  have at_o : ∀ {g number w}, (update files f file g).IsEnd number w →
      g ≠ f ∧ (files g).IsEnd number w := by
    intro g number w is_end'
    by_cases here : g = f
    · rw [here, update_self] at is_end'
      exact absurd is_end' (not_end number w)
    · rw [update_of_ne here] at is_end'
      exact ⟨here, is_end'⟩
  refine ⟨?_, ?_, ?_, ?_⟩
  · intro g number w is_end'
    obtain ⟨o, is_end'⟩ := at_o is_end'
    obtain ⟨hit, at_num, is_open⟩ := ends.opened g number w is_end'
    by_cases here : number = page
    · subst here
      rw [at_page] at at_num
      cases at_num
      have o_end : w ≠ writable := by
        rintro rfl
        exact o (ends.unique g f number w is_end' is_end)
      have still : (both.close writable).isOpen w = true := by
        rw [PipeEnds.isOpen_close, if_neg o_end, is_open]
      refine ⟨_, page_closed.here.trans (if_neg fun all => ?_), still⟩
      rw [all w] at still
      cases still
    · rw [page_closed.others number here]
      exact ⟨hit, at_num, is_open⟩
  · intro number hit w at_num is_open
    have previously : ∃ old, pipes number = some old ∧ old.isOpen w = true ∧
        ¬(number = page ∧ w = writable) := by
      by_cases here : number = page
      · subst here
        rw [page_closed.here] at at_num
        split at at_num
        · cases at_num
        cases at_num
        rw [PipeEnds.isOpen_close] at is_open
        split at is_open
        · cases is_open
        · rename_i o_end
          exact ⟨both, at_page, is_open, fun both_same => o_end both_same.2⟩
      · rw [page_closed.others number here] at at_num
        exact ⟨hit, at_num, is_open, fun both_same => here both_same.1⟩
    obtain ⟨old, at_before, was_open, apart⟩ := previously
    obtain ⟨g, is_end'⟩ := ends.held number old w at_before was_open
    refine ⟨g, ?_⟩
    rw [update_of_ne]
    · exact is_end'
    · rintro rfl
      exact apart ⟨is_end'.pipe_eq.symm.trans is_end.pipe_eq,
        is_end'.writable_eq.symm.trans is_end.writable_eq⟩
  · intro g h number w first snd
    exact ends.unique g h number w (at_o first).2 (at_o snd).2
  · intro number hit at_num
    by_cases here : number = page
    · subst here
      rw [page_closed.here] at at_num
      split at at_num
      · cases at_num
      rename_i some_open
      cases at_num
      obtain ⟨w, is_open⟩ := not_forall.mp some_open
      exact ⟨w, Bool.eq_true_of_not_eq_false is_open⟩
    · rw [page_closed.others number here] at at_num
      exact ends.inUse number hit at_num

theorem EndsMatch.open (ends : EndsMatch files pipes) {f f1 : FileIndex} {file0 file1 : File}
    (ne : f ≠ f1) (unset : (files f).type = .none) (unset1 : (files f1).type = .none)
    (unused : pipes page = none) (end0 : file0.IsEnd page false) (end1 : file1.IsEnd page true) :
    EndsMatch (update (update files f file0) f1 file1) (update pipes page (some ⟨true, true⟩)) := by
  have none_before : ∀ g w, ¬(files g).IsEnd page w := by
    intro g w is_end
    obtain ⟨hit, at_page, _⟩ := ends.opened g page w is_end
    rw [unused] at at_page
    cases at_page
  -- The file of each end, before and after.
  have cases_of : ∀ {g number w}, (update (update files f file0) f1 file1 g).IsEnd number w →
      (number = page ∧ (w = false ∧ g = f ∨ w = true ∧ g = f1)) ∨
        (number ≠ page ∧ (files g).IsEnd number w) := by
    intro g number w is_end
    by_cases is_f1 : g = f1
    · rw [is_f1, update_self] at is_end
      exact .inl ⟨is_end.pipe_eq.symm.trans end1.pipe_eq,
        .inr ⟨is_end.writable_eq.symm.trans end1.writable_eq, is_f1⟩⟩
    rw [update_of_ne is_f1] at is_end
    by_cases is_f0 : g = f
    · rw [is_f0, update_self] at is_end
      exact .inl ⟨is_end.pipe_eq.symm.trans end0.pipe_eq,
        .inl ⟨is_end.writable_eq.symm.trans end0.writable_eq, is_f0⟩⟩
    rw [update_of_ne is_f0] at is_end
    refine .inr ⟨?_, is_end⟩
    rintro rfl
    exact none_before g w is_end
  refine ⟨?_, ?_, ?_, ?_⟩
  · intro g number w is_end
    rcases cases_of is_end with ⟨rfl, _⟩ | ⟨o, old⟩
    · refine ⟨⟨true, true⟩, update_self .., ?_⟩
      cases w <;> rfl
    · rw [update_of_ne o]
      exact ends.opened g number w old
  · intro number hit w at_num is_open
    by_cases here : number = page
    · subst here
      cases w
      · refine ⟨f, ?_⟩
        rwa [update_of_ne ne, update_self]
      · refine ⟨f1, ?_⟩
        rwa [update_self]
    · rw [update_of_ne here] at at_num
      obtain ⟨g, is_end⟩ := ends.held number hit w at_num is_open
      have set_up : (files g).type ≠ .none := by
        rw [is_end.type_eq]
        exact FileType.noConfusion
      refine ⟨g, ?_⟩
      rw [update_of_ne, update_of_ne]
      · exact is_end
      · rintro rfl
        exact set_up unset
      · rintro rfl
        exact set_up unset1
  · intro g h number w first snd
    rcases cases_of first with ⟨rfl, first⟩ | ⟨o, old⟩
    · rcases cases_of snd with ⟨_, snd⟩ | ⟨o, _⟩
      · rcases first with ⟨rfl, rfl⟩ | ⟨rfl, rfl⟩ <;> rcases snd with ⟨same, rfl⟩ | ⟨same, rfl⟩
        · rfl
        · cases same
        · cases same
        · rfl
      · exact absurd rfl o
    · rcases cases_of snd with ⟨same, _⟩ | ⟨_, pre'⟩
      · exact absurd same o
      · exact ends.unique g h number w old pre'
  · intro number hit at_num
    by_cases here : number = page
    · rw [here, update_self] at at_num
      cases at_num
      exact ⟨true, rfl⟩
    · rw [update_of_ne here] at at_num
      exact ends.inUse number hit at_num

/-- One descriptor's part in the count of `f`. -/
def points (f : FileIndex) (slot : Option FileIndex) : Nat := if slot = some f then 1 else 0

theorem points_self (f : FileIndex) : points f (some f) = 1 := if_pos rfl

theorem points_none (f : FileIndex) : points f none = 0 := rfl

theorem points_of_ne {g : FileIndex} (o : g ≠ f) : points f (some g) = 0 :=
  if_neg fun same => o (Option.some.inj same)

namespace FileState

variable {Pid : Type}

/-- What the log says is set up. -/
def live (s : FileState Pid) : Holder → Option Resource
  | .file f => (s.files f).resource
  | .page page => (s.pipes page).map fun _ => .page

variable [Fintype Pid]

/-- The counts when the call in progress has the references `held`, among them those to the
files in `fresh`, which are not set up. -/
structure Counts (held fresh : List FileIndex) (s : FileState Pid) : Prop where
  counts : ∀ f, (s.files f).ref = tally (points f) s.ofile + held.count f
  ready : ∀ f, (s.files f).ref ≠ 0 → (s.files f).type = .none → f ∈ fresh
  unset : ∀ f, (s.files f).ref = 0 → (s.files f).type = .none
  fresh_eq : ∀ f ∈ fresh, (s.files f).ref = 1 ∧ (s.files f).type = .none
  gone : ∀ p, s.used p = false → ∀ fd, s.ofile (p, fd) = none

omit [Fintype Pid] in
/-- The log is in order, and the pipes are those of the files. -/
structure Lives (s : FileState Pid) : Prop where
  logged : Lifetimes s.log s.live
  ends : EndsMatch s.files s.pipes

/-- What holds during a call. -/
structure Inv (held fresh : List FileIndex) (s : FileState Pid) : Prop extends
  Counts held fresh s, Lives s

variable {s after : FileState Pid} {held fresh : List FileIndex} {f : FileIndex}
  {p : Pid} {fd : Descriptor}

/-! ## Descriptors -/

theorem count_setOfile [DecidableEq Pid] (f : FileIndex) (p : Pid) (fd : Descriptor)
    (slot : Option FileIndex) (s : FileState Pid) :
    tally (points f) (s.setOfile p fd slot).ofile + points f (s.ofile (p, fd)) =
      tally (points f) s.ofile + points f slot := tally_update (points f) s.ofile (p, fd) slot

section

variable (inv : s.Inv held fresh)
include inv

theorem Inv.perm {held' : List FileIndex} (perm : held.Perm held') : s.Inv held' fresh :=
  { inv with counts := fun g => by rw [inv.counts g, perm.count_eq] }

theorem Inv.ref_pos (at_fd : s.ofile (p, fd) = some f) : 0 < (s.files f).ref := by
  have part := measure_le_tally (points f) s.ofile (p, fd)
  rw [at_fd, points_self] at part
  rw [inv.counts f]
  omega

variable [DecidableEq Pid]

theorem Inv.clear (at_fd : s.ofile (p, fd) = some f) :
    (s.setOfile p fd none).Inv (f :: held) fresh := by
  refine ⟨⟨?_, inv.ready, inv.unset, inv.fresh_eq, ?_⟩, inv.logged, inv.ends⟩
  · intro g
    have counts := inv.counts g
    have moved := count_setOfile g p fd none s
    rw [at_fd, points_none] at moved
    change (s.files g).ref = _
    by_cases same : f = g
    · subst same
      rw [points_self] at moved
      rw [List.count_cons_self]
      omega
    · rw [points_of_ne same] at moved
      rw [List.count_cons_of_ne same]
      omega
  · intro q unused fd'
    change update s.ofile (p, fd) none (q, fd') = none
    by_cases same : (q, fd') = (p, fd)
    · rw [same, update_self]
    · rw [update_of_ne same]
      exact inv.gone q unused fd'

theorem Inv.install (at_fd : s.ofile (p, fd) = none) (used : s.used p = true) (isIn : f ∈ held) :
    (s.setOfile p fd (some f)).Inv (held.erase f) fresh := by
  refine ⟨⟨?_, inv.ready, inv.unset, inv.fresh_eq, ?_⟩, inv.logged, inv.ends⟩
  · intro g
    have counts := inv.counts g
    have moved := count_setOfile g p fd (some f) s
    rw [at_fd, points_none] at moved
    change (s.files g).ref = _
    by_cases same : f = g
    · subst same
      have pos := List.count_pos_iff.mpr isIn
      rw [points_self] at moved
      rw [List.count_erase_self]
      omega
    · rw [points_of_ne same] at moved
      rw [List.count_erase_of_ne (Ne.symm same)]
      omega
  · intro q unused fd'
    change update s.ofile (p, fd) (some f) (q, fd') = none
    by_cases same : (q, fd') = (p, fd)
    · cases same
      exact absurd (used.symm.trans unused) Bool.noConfusion
    · rw [update_of_ne same]
      exact inv.gone q unused fd'

end

/-! ## Counts -/

theorem Counts.setFile {held' fresh' : List FileIndex} (counts : s.Counts held fresh)
    (count_f : file.ref = tally (points f) s.ofile + held'.count f)
    (count_others : ∀ g, g ≠ f → held'.count g = held.count g)
    (ready : file.ref ≠ 0 → file.type = .none → f ∈ fresh')
    (unset : file.ref = 0 → file.type = .none)
    (fresh_f : f ∈ fresh' → file.ref = 1 ∧ file.type = .none)
    (fresh_others : ∀ g, g ≠ f → (g ∈ fresh' ↔ g ∈ fresh)) :
    (s.setFile f file).Counts held' fresh' := by
  have at_f : (s.setFile f file).files f = file := update_self ..
  have at_others : ∀ g, g ≠ f → (s.setFile f file).files g = s.files g :=
    fun g o => update_of_ne o _ _
  refine ⟨?_, ?_, ?_, ?_, counts.gone⟩
  all_goals
    intro g
    by_cases here : g = f
  · subst here
    rwa [at_f]
  · rw [at_others g here, count_others g here]
    exact counts.counts g
  · subst here
    rwa [at_f]
  · rw [at_others g here, fresh_others g here]
    exact counts.ready g
  · subst here
    rwa [at_f]
  · rw [at_others g here]
    exact counts.unset g
  · subst here
    rwa [at_f]
  · rw [at_others g here, fresh_others g here]
    exact counts.fresh_eq g

theorem Counts.congr (counts : s.Counts held fresh) (files_eq : after.files = s.files) (ofile_eq :
    after.ofile = s.ofile) (used_eq : after.used = s.used) : after.Counts held fresh := by
  obtain ⟨_, _, _, _, _⟩ := after
  obtain ⟨_, _, _, _, _⟩ := s
  cases files_eq
  cases ofile_eq
  cases used_eq
  exact ⟨counts.counts, counts.ready, counts.unset, counts.fresh_eq, counts.gone⟩

/-! ## Lifetimes -/

section

omit [Fintype Pid]

theorem live_setFile (file : File) :
    (s.setFile f file).live = update s.live (.file f) file.resource := by
  funext key
  cases key with
  | file g =>
    by_cases here : g = f
    · subst here
      rw [update_self]
      change (update s.files g file g).resource = _
      rw [update_self]
    · rw [update_of_ne fun same => here (Holder.file.inj same)]
      change (update s.files f file g).resource = _
      rw [update_of_ne here]
      rfl
  | page page =>
    have o : Holder.page page ≠ .file f := Holder.noConfusion
    rw [update_of_ne o]
    rfl

theorem Lives.setRef (lives : s.Lives) (n : Nat) :
    (s.setFile f { s.files f with ref := n }).Lives := by
  refine ⟨?_, lives.ends.setFile (File.IsEnd.iff_of_eq rfl rfl rfl)⟩
  have same : (s.setFile f { s.files f with ref := n }).live = s.live := by
    rw [live_setFile]
    exact update_eq_self (Holder.file f) s.live
  rw [same]
  exact lives.logged

theorem Lives.setInode (lives : s.Lives) (old : (s.files f).type = .none)
    (not_pipe : file.type ≠ .pipe) {ip : Nat} (resource_eq : file.resource = some (.inode ip)) :
    ((s.setFile f file).record (.begins (.file f) (.inode ip))).Lives := by
  refine ⟨?_, lives.ends.setFile fun page writable => ?_⟩
  · have begun := Lifetimes.begins (.inode ip) lives.logged
      (show s.live (.file f) = none from File.resource_eq_none_iff.mpr old)
    rwa [← resource_eq, ← live_setFile] at begun
  · refine iff_of_false (File.IsEnd.not_of_ne not_pipe) (File.IsEnd.not_of_ne ?_)
    rw [old]
    exact FileType.noConfusion

theorem Lives.letGoInode (lives : s.Lives) (closed : file.type = .none) (not_pipe :
    (s.files f).type ≠ .pipe) {ip : Nat} (resource_eq : (s.files f).resource = some (.inode ip)) :
    ((s.setFile f file).record (.ends (.file f) (.inode ip))).Lives := by
  refine ⟨?_, lives.ends.setFile fun page writable => ?_⟩
  · have ended := lives.logged.ends (show s.live (.file f) = _ from resource_eq)
    rwa [← File.resource_eq_none_iff.mpr closed, ← live_setFile] at ended
  · refine iff_of_false (File.IsEnd.not_of_ne ?_) (File.IsEnd.not_of_ne not_pipe)
    rw [closed]
    exact FileType.noConfusion

theorem live_setPipes (s : FileState Pid) (page : Nat) (ends : Option PipeEnds) :
    ({ s with pipes := update s.pipes page ends } : FileState Pid).live =
      update s.live (.page page) (ends.map fun _ => .page) := by
  funext key
  cases key with
  | file g =>
    have o : Holder.file g ≠ .page page := Holder.noConfusion
    rw [update_of_ne o]
    rfl
  | page number =>
    by_cases here : number = page
    · subst here
      rw [update_self]
      change (update s.pipes number ends number).map _ = _
      rw [update_self]
    · rw [update_of_ne fun same => here (Holder.page.inj same)]
      change (update s.pipes page ends number).map _ = _
      rw [update_of_ne here]
      rfl

theorem pipeclose_lives {both : PipeEnds}
    (logged : Lifetimes s.log s.live) (at_page : s.pipes page = some both)
    (ends : ∀ pipes', PageClosed s.pipes pipes' page (both.close writable) →
      EndsMatch s.files pipes') : ∃ after, s.pipeclose page writable = .ok after ∧ after.Lives ∧
      after.files = s.files ∧ after.ofile = s.ofile ∧ after.used = s.used := by
  have page_live : s.live (.page page) = some .page := by
    change (s.pipes page).map _ = _
    rw [at_page]
    rfl
  have others (pipe : Option PipeEnds) : ∀ number, number ≠ page →
    update s.pipes page pipe number = s.pipes number := fun number o => update_of_ne o _ _
  rw [pipeclose, at_page]
  dsimp only
  rw [← PipeEnds.close]
  by_cases all : (both.close writable).readopen = false ∧ (both.close writable).writeopen = false
  · rw [if_pos all]
    refine ⟨_, rfl, ⟨?_, ends _ ⟨others none, ?_⟩⟩, rfl, rfl, rfl⟩
    · exact (live_setPipes s page none) ▸ logged.ends page_live
    · rw [if_pos ((PipeEnds.all_closed_iff _).mp all)]
      exact update_self ..
  · rw [if_neg all]
    refine ⟨_, rfl, ⟨?_, ends _ ⟨others _, ?_⟩⟩, rfl, rfl, rfl⟩
    · have same : update s.live (.page page) (some .page) = s.live := by
        rw [← page_live, update_eq_self]
      exact (live_setPipes s page (some (both.close writable))).trans same ▸ logged
    · rw [if_neg (mt (PipeEnds.all_closed_iff _).mpr all)]
      exact update_self ..

theorem Lives.letGoPipe (lives : s.Lives) (file : File)
    (closed : file.type = .none) (is_end : (s.files f).IsEnd page writable) :
    ∃ after, ((s.setFile f file).record
        (.ends (.file f) (.pipeEnd page writable))).pipeclose page writable = .ok after ∧
      after.Lives ∧ after.files = (s.setFile f file).files ∧ after.ofile = s.ofile ∧
      after.used = s.used := by
  obtain ⟨both, at_page, _⟩ := lives.ends.opened f page writable is_end
  have ended := lives.logged.ends
    (show s.live (.file f) = _ from File.resource_eq_pipeEnd_iff.mpr is_end)
  rw [← File.resource_eq_none_iff.mpr closed, ← live_setFile] at ended
  exact pipeclose_lives ended at_page fun pipes' page_closed =>
    lives.ends.close is_end closed at_page page_closed

end

/-! ## Allocation and close -/

theorem Inv.filealloc (inv : s.Inv held fresh)
    (alive : s.filealloc = some (f, after)) : after.Inv (f :: held) (f :: fresh) ∧
    after.ofile = s.ofile ∧ after.pipes = s.pipes ∧ after.used = s.used ∧ f ∉ held ∧ f ∉ fresh := by
  unfold FileState.filealloc at alive
  split at alive
  · rename_i found found_eq
    cases alive
    have unused := List.find?_some found_eq
    rw [decide_eq_true_eq] at unused
    have counts := inv.counts f
    have not_held : f ∉ held := List.count_eq_zero.mp (by omega)
    have not_fresh : f ∉ fresh := fun isIn => by
      have one := (inv.fresh_eq f isIn).1
      omega
    refine ⟨⟨inv.toCounts.setFile ?_ ?_ ?_ ?_ ?_ ?_, inv.toLives.setRef 1⟩, rfl, rfl, rfl,
      not_held, not_fresh⟩
    · change 1 = _
      rw [List.count_cons_self]
      omega
    · intro g o
      exact List.count_cons_of_ne (Ne.symm o)
    · exact fun _ _ => List.mem_cons_self
    · rintro ⟨⟩
    · exact fun _ => ⟨rfl, inv.unset f unused⟩
    · intro g o
      rw [List.mem_cons, or_iff_right o]
  · cases alive

theorem Inv.filedup (inv : s.Inv held fresh)
    (pos : 0 < (s.files f).ref) (not_fresh : f ∉ fresh) : ∃ after, s.filedup f = .ok after ∧
    after.Inv (f :: held) fresh ∧ after.ofile = s.ofile ∧ after.used = s.used := by
  refine ⟨_, if_neg (by omega), ⟨inv.toCounts.setFile ?_ ?_ ?_ ?_ ?_ ?_,
    inv.toLives.setRef _⟩, rfl, rfl⟩
  · rw [List.count_cons_self, inv.counts f]
    rfl
  · intro g o
    exact List.count_cons_of_ne (Ne.symm o)
  · exact fun _ unset => inv.ready f pos.ne' unset
  · rintro ⟨⟩
  · exact fun isIn => absurd isIn not_fresh
  · exact fun _ _ => Iff.rfl

theorem Counts.drop (counts : s.Counts held fresh) (isIn : f ∈ held)
    (ref_eq : file.ref = (s.files f).ref - 1)
    (type_eq : file.type = if file.ref = 0 then .none else (s.files f).type) :
    (s.setFile f file).Counts (held.erase f) (fresh.filter (· ≠ f)) := by
  have counts_f := counts.counts f
  have pos := List.count_pos_iff.mpr isIn
  refine counts.setFile ?_ ?_ ?_ ?_ ?_ ?_
  · rw [List.count_erase_self]
    omega
  · intro g o
    exact List.count_erase_of_ne o
  · intro in_use unset
    rw [type_eq, if_neg in_use] at unset
    have one := (counts.fresh_eq f (counts.ready f (by omega) unset)).1
    omega
  · intro unused
    rw [type_eq, if_pos unused]
  · intro still
    exact absurd (of_decide_eq_true (List.mem_filter.mp still).2) (not_not_intro rfl)
  · intro g o
    rw [List.mem_filter, decide_eq_true_eq, and_iff_left o]

theorem Inv.fileclose (inv : s.Inv held fresh) (isIn : f ∈ held) :
    ∃ after, s.fileclose f = .ok after ∧ after.Inv (held.erase f) (fresh.filter (· ≠ f)) ∧
    after.ofile = s.ofile ∧ after.used = s.used := by
  have counts := inv.counts f
  have pos := List.count_pos_iff.mpr isIn
  unfold FileState.fileclose
  dsimp only
  rw [if_neg (show ¬(s.files f).ref < 1 by omega)]
  by_cases more : (s.files f).ref - 1 > 0
  · rw [if_pos more]
    exact ⟨_, rfl, ⟨inv.toCounts.drop isIn rfl (if_neg more.ne').symm,
      inv.toLives.setRef _⟩, rfl, rfl⟩
  rw [if_neg more]
  have closed : (s.setFile f { s.files f with ref := 0, type := .none }).Counts
      (held.erase f) (fresh.filter (· ≠ f)) :=
    inv.toCounts.drop isIn (show 0 = _ by omega) (if_pos rfl).symm
  cases type_eq : (s.files f).type with
  | none =>
    refine ⟨_, rfl, ⟨closed, ?_⟩, rfl, rfl⟩
    have same : ({ s.files f with ref := 0, type := .none } : File) =
      { s.files f with ref := 0 } := by rw [← type_eq]
    rw [same]
    exact inv.toLives.setRef 0
  | pipe =>
    obtain ⟨after, ran, lives, files_eq, ofile_eq, used_eq⟩ :=
      inv.toLives.letGoPipe { s.files f with ref := 0, type := .none } rfl ⟨type_eq, rfl, rfl⟩
    exact ⟨after, ran, ⟨closed.congr files_eq ofile_eq used_eq, lives⟩, ofile_eq, used_eq⟩
  | inode | device =>
    refine ⟨_, rfl, ⟨closed.congr rfl rfl rfl, inv.toLives.letGoInode rfl ?_ ?_⟩, rfl, rfl⟩
    · rw [type_eq]
      exact FileType.noConfusion
    · rw [File.resource, type_eq]

theorem Inv.closeAll {fs : List FileIndex} (inv : s.Inv fs fresh) (all_held : ∀ g ∈ fresh, g ∈ fs) :
    ∃ after, s.closeAll fs = .ok after ∧ after.Inv [] [] ∧ after.ofile = s.ofile := by
  induction fs generalizing s fresh with
  | nil =>
    have none_fresh : fresh = [] :=
      List.eq_nil_iff_forall_not_mem.mpr fun g isIn => List.not_mem_nil (all_held g isIn)
    subst none_fresh
    exact ⟨s, rfl, inv, rfl⟩
  | cons f fs ih =>
    obtain ⟨mid, closed, inv', ofile_eq, _⟩ := inv.fileclose List.mem_cons_self
    rw [List.erase_cons_head] at inv'
    have rest : ∀ g ∈ fresh.filter (· ≠ f), g ∈ fs := by
      intro g isIn
      obtain ⟨was_fresh, o⟩ := List.mem_filter.mp isIn
      exact List.mem_of_ne_of_mem (of_decide_eq_true o) (all_held g was_fresh)
    obtain ⟨after, ran, final, ofile_eq'⟩ := ih inv' rest
    refine ⟨after, ?_, final, ofile_eq'.trans ofile_eq⟩
    rwa [FileState.closeAll, closed]

end FileState

end Xv6.Ftable
