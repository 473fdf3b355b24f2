import Xv6.Proc.LifeSwitch

/-! # The functions of `proc.c` keep the invariant

What each function needs of the thread's token and what it leaves; and that every
call of the system starts and ends with an idle token. -/

namespace Xv6

open Foundation Function Protocol Life LifeProgram Valid View Triple

variable {Slot Hart : Type} [DecidableEq Slot]
  {slots : List Slot} {init : Slot} {flagged : Prop} {t : Context Slot Hart}
  {tok : LifeToken Slot} {p q : Slot} {view : View Slot} {h : Hart}

namespace LifeToken

omit [DecidableEq Slot] in
theorem ext_of_views {first second : LifeToken Slot} (views : ∀ q, first.views q = second.views q)
    (seat : first.seat = second.seat) (resuming : first.resuming = second.resuming)
    (orig : first.original = second.original) : first = second := by
  cases first
  cases second
  have same := funext views
  simp_all

theorem see_eq_self (sees : tok.views p = some view) : tok.see p view = tok := by
  rw [see, ← sees, update_eq_self]

theorem see_see (tok : LifeToken Slot) (p : Slot) (first second : View Slot) :
    (tok.see p first).see p second = tok.see p second := by
  simp only [see, update_idem]

theorem see_comm (tok : LifeToken Slot) (ne : p ≠ q) (first snd : View Slot) :
    (tok.see p first).see q snd = (tok.see q snd).see p first := by
  simp only [see, update_comm ne]

theorem forget_see (unseen : tok.views p = none) (view : View Slot) :
    (tok.see p view).forget p = tok := by
  rw [see, forget]
  simp only [update_idem]
  rw [← unseen, update_eq_self]


/-- The token of a thread that holds no lock and is not between two switches. -/
structure Rested (t : Context Slot Hart) (tok : LifeToken Slot) : Prop where
  views : ∀ q, tok.views q = none
  seat : tok.seat = .none
  awake : ∀ p, t = .process p → tok.resuming = false

omit [DecidableEq Slot] in
theorem Rested.idle (t : Context Slot Hart) : Rested t (.idle false : LifeToken Slot) :=
  ⟨fun _ => rfl, rfl, fun _ _ => rfl⟩

theorem left_see (tok : LifeToken Slot) (p : Slot) (view : View Slot) :
    (tok.see p view).left = tok.left :=
  rfl

omit [DecidableEq Slot] in
theorem Rested.left (rested : Rested t tok) (own : t = .process p) :
    { tok.left with resuming := false } = tok :=
  ext_of_views (fun q => (rested.views q).symm) rfl (rested.awake p own).symm rfl

theorem Rested.resumed (rested : Rested t tok) (own : t = .process p)
    (info : ProcInfo Slot) : tok.left.resumed p info = tok.see p (new info) := by
  have back := rested.left own
  have same : tok.left.resumed p info =
    ({ tok.left with resuming := false } : LifeToken Slot).see p (new info) := rfl
  rw [same, back]

theorem Rested.switched (rested : Rested t tok) (p : Slot) (first second : View Slot)
    (info : ProcInfo Slot) : ((((tok.see p first).chosen p).see p second).switched p).back
    p info = tok.see p (new info) := by
  refine ext_of_views ?_ rested.seat.symm rfl rfl
  intro q
  by_cases same : q = p
  · rw [same, see_self]
    exact see_self _ _ _
  · rw [see_ne _ same, rested.views q]
    exact see_ne _ same _

end LifeToken

variable [DecidableEq Hart]

open LifeToken

namespace Life

section

variable (rested : Rested t tok)
include rested

theorem triple_release_rested (own : t = .process p → view.info.state = .running)
    (orphan : view.info.state = .unused → view.info.parent = none) :
    LifeTriple slots init flagged t (tok.see p view) (.release p) fun _ out => out = tok := by
  refine mono (triple_release ?_ (see_self _ _ _) ?_ orphan) ?_
  · exact rested.seat
  · exact fun isOwn => ⟨own isOwn, rested.awake p isOwn⟩
  · rintro _ _ rfl
    exact forget_see (rested.views p) view

theorem triple_sched_rested (own : t = .process p)
    (still : view.info.state ≠ .running) (used : view.info.state ≠ .unused) :
    LifeTriple slots init flagged t (tok.see p view) (.sched p) fun _ out => out = tok.left := by
  refine mono (triple_sched own (see_self _ _ _) ?_ still used) ?_
  · intro q ne
    rw [see_ne _ ne]
    exact rested.views q
  · rintro _ _ rfl
    exact left_see tok p view

theorem valid_yield (own : t = .process p) :
    (lifeProtocol Hart slots init flagged).Valid t (fun _ later => later = tok) (yield p) tok := by
  have awake := rested.awake p own
  refine command_bind (triple_acquire p) ?_
  rintro _ _ ⟨info, fresh, rfl⟩
  refine command_bind (triple_setRunnable own (see_self _ _ _) awake (fresh.own own)) ?_
  rintro _ _ rfl
  rw [see_see]
  refine command_bind (triple_sched_rested rested own (by simp) (by simp)) ?_
  rintro _ _ rfl
  refine Triple.mono (triple_resume own ?_ ?_ rfl) ?_
  · exact rested.seat
  · rfl
  · rintro _ _ rfl
    exact rested.left own

theorem valid_kerneltrap : (lifeProtocol Hart slots init flagged).Valid t (fun _ later =>
    later = tok) (kerneltrap t) tok := by
  cases t with
  | scheduler hart => exact rfl
  | process p =>
    refine command_bind (triple_aside rfl) ?_
    rintro (pending : Bool) _ rfl
    cases pending with
    | false => exact rfl
    | true => exact valid_yield rested rfl

theorem valid_acquire (p : Slot) : (lifeProtocol Hart slots init flagged).Valid t (fun _ later =>
    ∃ info, Fresh t tok p info ∧ later = tok.see p (new info)) (acquire t p) tok := by
  refine bind _ (valid_kerneltrap rested) ?_
  rintro _ _ rfl
  exact triple_acquire p

theorem valid_sleep (own : t = .process p) (addr : Nat) :
    (lifeProtocol Hart slots init flagged).Valid t (fun _ later => later = tok)
    (sleep p addr) tok := by
  have awake := rested.awake p own
  refine command_bind (triple_acquire p) ?_
  rintro _ _ ⟨info, fresh, rfl⟩
  have running := fresh.own own
  refine command_bind (triple_setChan own (see_self _ _ _) awake running _) ?_
  rintro _ _ rfl
  rw [see_see]
  refine command_bind (triple_setSleeping own (see_self _ _ _) awake running (by simp)) ?_
  rintro _ _ rfl
  rw [see_see]
  refine command_bind (triple_sched_rested rested own (by simp) (by simp)) ?_
  rintro _ _ rfl
  refine command_bind (triple_resume_setChan own rfl none) ?_
  rintro _ _ ⟨info, running, rfl⟩
  rw [rested.resumed own]
  apply triple_release_rested rested
  · exact fun _ => running
  · simp [new, running]

theorem valid_wakeup (addr : Nat) (list : List Slot) : (lifeProtocol Hart slots init flagged).Valid
    t (fun _ later => later = tok) (wakeup t addr list) tok := by
  induction list with
  | nil => exact rfl
  | cons p rest ih =>
    refine bind _ (valid_acquire rested p) ?_
    rintro _ _ ⟨info, fresh, rfl⟩
    refine command_bind (triple_getProc (see_self _ _ _)) ?_
    rintro (proc : ProcInfo Slot) _ ⟨rfl, rfl⟩
    dsimp only
    split
    · next waits =>
      have o : t ≠ .process p := by
        intro own
        simp [fresh.own own] at waits
      refine command_bind (triple_wake o (see_self _ _ _) waits.1) ?_
      rintro _ _ rfl
      rw [see_see]
      refine command_bind (triple_release_rested rested ?_ ?_) ?_
      · exact fun own => absurd own o
      · simp
      · rintro _ _ rfl
        exact ih
    · refine command_bind (triple_release_rested rested fresh.own fresh.orphan) ?_
      rintro _ _ rfl
      exact ih

end

theorem valid_wakeup1 (o : t ≠ .process p) (sees : tok.views p = some view) :
    (lifeProtocol Hart slots init flagged).Valid t
      (fun _ later => ∃ info, later = tok.see p { view with info := info } ∧ ¬info.Waiting p ∧
        (info.state = .unused → view.info.state = .unused ∧ info.parent = view.info.parent))
      (wakeup1 p) tok := by
  refine command_bind (triple_holding sees) ?_
  rintro _ _ rfl
  refine command_bind (triple_getProc sees) ?_
  rintro (proc : ProcInfo Slot) _ ⟨rfl, rfl⟩
  split
  · next waits =>
    refine Triple.mono (triple_wake o sees waits.2) ?_
    rintro _ _ rfl
    exact ⟨_, rfl, by simp [ProcInfo.Waiting], by simp⟩
  · next waits =>
    refine ⟨view.info, (see_eq_self sees).symm, ?_, fun unused => ⟨unused, rfl⟩⟩
    exact fun waiting => waits ⟨waiting.2, waiting.1⟩

theorem valid_kill (rested : Rested t tok) (pid : BitVec 32) (list : List Slot) :
    (lifeProtocol Hart slots init flagged).Valid t (fun _ later => later = tok)
    (kill t pid list) tok := by
  induction list with
  | nil => exact rfl
  | cons p rest ih =>
    refine bind _ (valid_acquire rested p) ?_
    rintro _ _ ⟨info, fresh, rfl⟩
    refine command_bind (triple_getProc (see_self _ _ _)) ?_
    rintro (proc : ProcInfo Slot) _ ⟨rfl, rfl⟩
    dsimp only
    split
    · refine command_bind (triple_setKilled (see_self _ _ _) (rested.awake p)) ?_
      rintro _ _ rfl
      rw [see_see]
      split
      · next sleeping =>
        have o : t ≠ .process p := by
          intro own
          simp [fresh.own own] at sleeping
        refine command_bind (triple_wake o (see_self _ _ _) sleeping) ?_
        rintro _ _ rfl
        rw [see_see]
        refine command_bind (triple_release_rested rested ?_ ?_) ?_
        · exact fun own => absurd own o
        · simp
        · exact fun _ _ same => same
      · refine command_bind (triple_release_rested rested fresh.own ?_) ?_
        · exact fresh.orphan
        · exact fun _ _ same => same
    · refine command_bind (triple_release_rested rested fresh.own fresh.orphan) ?_
      rintro _ _ rfl
      exact ih

/-! ## `fork` -/

/-- What `allocproc` leaves: it holds the lock of the slot that it returns. -/
def Allocated (t : Context Slot Hart) (tok : LifeToken Slot) :
    Option Slot → LifeToken Slot → Prop
  | none, later => later = tok
  | some p, later => t ≠ .process p ∧ ∃ info, info.state = .unused ∧ info.parent = none ∧
      later = tok.see p (View.new info)

theorem valid_allocproc (rested : Rested t tok)
    (trapframe pagetable : Bool) (list : List Slot) : (lifeProtocol Hart slots init flagged).Valid
    t (Allocated t tok) (allocproc t trapframe pagetable list) tok := by
  induction list with
  | nil => exact rfl
  | cons p rest ih =>
    refine bind _ (valid_acquire rested p) ?_
    rintro _ _ ⟨info, fresh, rfl⟩
    refine command_bind (triple_getProc (see_self _ _ _)) ?_
    rintro (proc : ProcInfo Slot) _ ⟨rfl, rfl⟩
    split
    · next unused =>
      have o : t ≠ .process p := by
        intro own
        simp [fresh.own own] at unused
      refine command_bind (triple_aside rfl) ?_
      rintro (pid : BitVec 32) _ rfl
      refine command_bind (triple_setPid o (see_self _ _ _) unused pid) ?_
      rintro _ _ rfl
      rw [see_see]
      split
      · refine command_bind (triple_release_rested rested fresh.own ?_) ?_
        · exact fresh.orphan
        · exact fun _ _ same => same
      split
      · refine command_bind (triple_freeproc o ?_ (see_self _ _ _) unused) ?_
        · intro q isThr
          have ne : q ≠ p := by
            rintro rfl
            exact o isThr
          rw [see_ne _ ne]
          exact rested.views q
        rintro _ _ rfl
        rw [see_see]
        refine command_bind (triple_release_rested rested ?_ ?_) ?_
        · exact fun own => absurd own o
        · exact fun _ => rfl
        · exact fun _ _ same => same
      · exact ⟨o, { proc with pid := pid }, unused, fresh.orphan unused, rfl⟩
    · refine command_bind (triple_release_rested rested fresh.own fresh.orphan) ?_
      rintro _ _ rfl
      exact ih

theorem valid_fork (rested : Rested t tok) (own : t = .process p) (mem : LifeProgram.ForkMemory)
    (list : List Slot) : (lifeProtocol Hart slots init flagged).Valid t (fun _ later =>
    later = tok) (fork t list p mem) tok := by
  refine bind _ (valid_allocproc rested _ _ list) ?_
  intro found later allocated
  cases found with
  | none => exact allocated
  | some np =>
    obtain ⟨o, info, unused, orphan, rfl⟩ := allocated
    have ne : np ≠ p := by
      rintro rfl
      exact o own
    have unseen : (tok.see np (new info)).views p = none := by
      rw [see_ne _ (Ne.symm ne)]
      exact rested.views p
    dsimp only
    split
    · refine command_bind (triple_freeproc o ?_ (see_self _ _ _) unused) ?_
      · intro q isThr
        rw [own] at isThr
        cases isThr
        exact unseen
      rintro _ _ rfl
      rw [see_see]
      refine command_bind (triple_release_rested rested ?_ ?_) ?_
      · exact fun isOwn => absurd isOwn o
      · exact fun _ => rfl
      · exact fun _ _ same => same
    · refine command_bind (triple_adopt own unseen ne (see_self _ _ _) unused orphan) ?_
      rintro _ _ rfl
      rw [see_see]
      refine command_bind (triple_getProc (see_self _ _ _)) ?_
      rintro (proc : ProcInfo Slot) _ ⟨rfl, rfl⟩
      refine command_bind (triple_launch o (see_self _ _ _) unused ?_) ?_
      · simp
      rintro _ _ rfl
      rw [see_see]
      refine command_bind (triple_release_rested rested ?_ ?_) ?_
      · exact fun isOwn => absurd isOwn o
      · simp
      · exact fun _ _ same => same

/-! ## `exit` -/

theorem valid_reparent (own : t = .process p) (notInit : p ≠ init)
    (awake : tok.resuming = false) (seat : tok.seat = .none) (list : List Slot) (mine : View Slot) :
    (lifeProtocol Hart slots init flagged).Valid t
      (fun _ later => ∃ mine', later = tok.see p mine' ∧ mine'.info = mine.info ∧
        ∀ q, q ∈ list ∨ q ∈ mine.orphaned → q ∈ mine'.orphaned)
      (reparent init p list) (tok.see p mine) := by
  induction list generalizing mine with
  | nil => exact ⟨mine, rfl, rfl, by simp⟩
  | cons pp rest ih =>
    refine command_bind (triple_getParent own ?_ (see_self _ _ _) pp) ?_
    · exact awake
    rintro (parent : Option Slot) _ rfl
    rw [see_see]
    split
    · next isPar =>
      rw [noted, if_pos isPar]
      refine command_bind (triple_acquire pp) ?_
      rintro _ _ ⟨info, fresh, rfl⟩
      have ne := fresh.ne
      have unseen : tok.views pp = none := by
        have unseen := fresh.unseen
        rwa [see_ne _ ne] at unseen
      have child : info.parent = some p := fresh.child p _ own (see_self _ _ _) rfl
      refine command_bind (triple_reparent own notInit
        (by rw [see_ne _ (Ne.symm ne), see_self]) rfl ne (see_self _ _ _)
        fresh.orphan) ?_
      rintro _ _ rfl
      rw [see_see, see_comm _ ne, see_see]
      refine command_bind (triple_release ?_ (see_self _ _ _) ?_ ?_) ?_
      · exact seat
      · intro isOwn
        rw [own] at isOwn
        cases isOwn
        exact absurd rfl ne
      · intro unused
        have orphan := fresh.orphan unused
        rw [child] at orphan
        cases orphan
      · rintro _ _ rfl
        rw [forget_see (by rw [see_ne _ ne]; exact unseen)]
        refine (ih _).mono ?_
        rintro _ _ ⟨mine', rfl, same, found⟩
        refine ⟨mine', rfl, same, ?_⟩
        intro q either
        apply found
        grind
    · next notPar =>
      rw [noted, if_neg notPar]
      refine (ih _).mono ?_
      rintro _ _ ⟨mine', rfl, same, found⟩
      refine ⟨mine', rfl, same, ?_⟩
      intro q either
      apply found
      grind

theorem valid_exitTo (full : ∀ q, q ∈ slots) (own : t = .process p)
    (notInit : p ≠ init) (rested : Rested t tok) (orig : tok.original = some q)
    (status : BitVec 32) : (lifeProtocol Hart slots init flagged).Valid t (fun _ later =>
    later = .idle true) (exitTo t slots init p q status) tok := by
  have awake := rested.awake p own
  refine bind _ (valid_acquire rested q) ?_
  rintro _ _ ⟨above, freshAbove, rfl⟩
  refine command_bind (triple_acquire p) ?_
  rintro _ _ ⟨info, fresh, rfl⟩
  have ne := fresh.ne.symm
  have o := not_own own ne
  have awakeAbove : (tok.see q (new above)).resuming = false := awake
  refine bind _ (valid_reparent own notInit awakeAbove rested.seat slots _) ?_
  rintro _ _ ⟨mine, rfl, same, orphaned⟩
  have running : mine.info.state = .running := by
    rw [same]
    exact fresh.own own
  have seesAbove : ((tok.see q (new above)).see p mine).views q = some (new above) := by
    rw [see_ne _ ne, see_self]
  refine bind _ (valid_wakeup1 o seesAbove) ?_
  rintro _ _ ⟨above', rfl, woken, unusedAbove⟩
  rw [see_comm _ (Ne.symm ne), see_see]
  refine command_bind (triple_setXstate own (see_self _ _ _) ?_ running status) ?_
  · exact awake
  rintro _ _ rfl
  rw [see_see]
  refine command_bind (triple_zombie own notInit (see_self _ _ _) ?_ running ?_ ?_
    ne (by rw [see_ne _ ne, see_self]) woken) ?_
  · exact awake
  · exact fun r => orphaned r (.inl (full r))
  · exact orig
  rintro _ _ rfl
  refine command_bind (triple_release ?_ (by rw [died_ne _ ne, see_ne _ ne, see_self]) ?_ ?_) ?_
  · exact rested.seat
  · exact fun isOwn => absurd isOwn o
  · intro unused
    obtain ⟨unused, parent⟩ := unusedAbove unused
    exact parent.trans (freshAbove.orphan unused)
  rintro _ _ rfl
  refine Triple.mono (triple_sched own (by rw [forget_ne _ (Ne.symm ne), died_self]) ?_ ?_ ?_) ?_
  · intro r notP
    by_cases same : r = q
    · rw [same, forget_self]
    · rw [forget_ne _ same, died_ne _ notP, see_ne _ notP, see_ne _ same]
      exact rested.views r
  · simp
  · simp
  · rintro _ _ rfl
    exact ext_of_views (fun _ => rfl) rested.seat rfl rfl

theorem valid_exit (full : ∀ q, q ∈ slots) (own : t = .process p) (rested : Rested t tok)
    (status : BitVec 32) : (lifeProtocol Hart slots init flagged).Valid t (fun _ later =>
    later = .idle true) (exit t slots init p status) tok := by
  rw [exit]
  split
  · refine Triple.mono triple_initExiting ?_
    exact fun _ _ never => never.elim
  next notInit =>
  have o := not_own own (Ne.symm notInit)
  refine bind _ (valid_acquire rested init) ?_
  rintro _ _ ⟨first, freshFst, rfl⟩
  refine bind _ (valid_wakeup1 o (see_self _ _ _)) ?_
  rintro _ _ ⟨first', rfl, _, unusedFst⟩
  rw [see_see]
  refine command_bind (triple_release_rested rested ?_ ?_) ?_
  · exact fun isOwn => absurd isOwn o
  · intro unused
    obtain ⟨unused, parent⟩ := unusedFst unused
    exact parent.trans (freshFst.orphan unused)
  rintro _ tok rfl
  refine bind _ (valid_acquire rested p) ?_
  rintro _ _ ⟨info, fresh, rfl⟩
  have running := fresh.own own
  have alive : info.state.Alive := by
    rw [running]
    exact alive_running
  refine command_bind (triple_getProc_own own (see_self _ _ _) alive) ?_
  rintro (proc : ProcInfo Slot) _ ⟨rfl, parent, rfl⟩
  refine command_bind (triple_release ?_ (see_self _ _ _) ?_ ?_) ?_
  · exact rested.seat
  · exact fun _ => ⟨running, rested.awake p own⟩
  · exact fresh.orphan
  rintro _ _ rfl
  have back : (((tok.see p (new proc)).remember proc.parent).forget p) =
      tok.remember proc.parent := by
    change ((tok.see p (new proc)).forget p).remember proc.parent = _
    rw [forget_see (rested.views p)]
  rw [back]
  cases isPar : proc.parent with
  | none => exact absurd isPar (parent notInit)
  | some orig =>
    have restedStill : Rested t (tok.remember (some orig)) :=
      ⟨rested.views, rested.seat, rested.awake⟩
    exact valid_exitTo full own notInit restedStill rfl status

/-! ## `wait` -/

/-- What a scan of the table leaves. -/
def Surveyed (tok : LifeToken Slot) (p : Slot) (mine : View Slot) (list : List Slot) :
    LifeProgram.Scan → LifeToken Slot → Prop
  | .finished _, later => later = tok
  | .kids _, later => ∃ mine', later = tok.see p mine' ∧ mine'.info = mine.info ∧
      ∀ q, q ∈ list ∨ q ∈ mine.clean → q ∈ mine'.clean

omit [DecidableEq Hart] in
theorem Surveyed.cons {mine noted : View Slot}
    {np : Slot} {rest : List Slot} {scan : LifeProgram.Scan} {later : LifeToken Slot}
    (surveyed : Surveyed tok p noted rest scan later) (same : noted.info = mine.info) (clean : ∀ q,
    q = np ∨ q ∈ mine.clean → q ∈ noted.clean) : Surveyed tok p mine (np :: rest) scan later := by
  cases scan with
  | finished v => exact surveyed
  | kids havekids =>
    obtain ⟨mine', isSeen, sameInfo, hit⟩ := surveyed
    refine ⟨mine', isSeen, sameInfo.trans same, ?_⟩
    intro q either
    apply hit
    grind

theorem valid_copyStatus (addr : Bool) (status : BitVec 32) :
    (lifeProtocol Hart slots init flagged).Valid t (fun _ later => later = tok)
      (copyStatus addr status) tok := by
  cases addr with
  | false => exact rfl
  | true => exact triple_aside rfl

theorem valid_waitScan (own : t = .process p)
    (rested : Rested t tok) (addr wrb havekids : Bool) (list : List Slot) (mine : View Slot)
    (running : mine.info.state = .running) : (lifeProtocol Hart slots init flagged).Valid
    t (Surveyed tok p mine list) (waitScan p addr wrb havekids list) (tok.see p mine) := by
  have awake := rested.awake p own
  induction list generalizing mine havekids with
  | nil => exact ⟨mine, rfl, rfl, by simp⟩
  | cons np rest ih =>
    refine command_bind (triple_getParent own ?_ (see_self _ _ _) np) ?_
    · exact awake
    rintro (parent : Option Slot) _ rfl
    rw [see_see]
    split
    · next isPar =>
      rw [noted, if_pos isPar]
      refine command_bind (triple_acquire np) ?_
      rintro _ _ ⟨info, fresh, rfl⟩
      have ne := fresh.ne
      have o := not_own own ne
      have apart := Ne.symm ne
      refine command_bind (triple_getProc_child own ?_
        (by rw [see_ne _ apart, see_self]) (see_self _ _ _)) ?_
      · exact awake
      rintro (proc : ProcInfo Slot) _ ⟨rfl, ⟨dead, rfl⟩ | ⟨lives, rfl⟩⟩
      · rw [if_pos dead]
        split
        · refine command_bind (triple_release ?_ (see_self _ _ _) ?_ ?_) ?_
          · exact rested.seat
          · exact fun isOwn => absurd isOwn o
          · simp [new, dead]
          rintro _ _ rfl
          rw [forget_see fresh.unseen]
          refine command_bind (triple_release_rested rested ?_ ?_) ?_
          · exact fun _ => running
          · simp [running]
          · exact fun _ _ same => same
        · refine bind _ (valid_copyStatus addr proc.xstate) ?_
          rintro _ _ rfl
          refine command_bind (triple_reap own
            (by rw [see_ne _ apart, see_self]) rfl ne (see_self _ _ _) dead rfl rfl) ?_
          rintro _ _ rfl
          rw [see_see, see_comm _ ne, see_see]
          refine command_bind (triple_release ?_ (see_self _ _ _) ?_ ?_) ?_
          · exact rested.seat
          · exact fun isOwn => absurd isOwn o
          · exact fun _ => rfl
          rintro _ _ rfl
          rw [forget_see (by rw [see_ne _ ne]; exact rested.views np)]
          refine command_bind (triple_release_rested rested ?_ ?_) ?_
          · exact fun _ => running
          · simp [running]
          · exact fun _ _ same => same
      · rw [if_neg lives, see_comm _ ne, see_see]
        refine command_bind (triple_release ?_ (see_self _ _ _) ?_ ?_) ?_
        · exact rested.seat
        · exact fun isOwn => absurd isOwn o
        · exact fresh.orphan
        rintro _ _ rfl
        rw [forget_see (by rw [see_ne _ ne]; exact rested.views np)]
        refine mono (ih _ _ ?_) ?_
        · exact running
        · intro _ _ surveyed
          exact surveyed.cons rfl (by simp [alive])
    · next notPar =>
      rw [noted, if_neg notPar]
      refine mono (ih _ _ ?_) ?_
      · exact running
      · intro _ _ surveyed
        exact surveyed.cons rfl (by simp)

theorem valid_waitLoop (full : ∀ q, q ∈ slots) (own : t = .process p) (rested : Rested t tok)
    (addr wrb : Bool) (fuel : Nat) (info : ProcInfo Slot) (running : info.state = .running) :
    (lifeProtocol Hart slots init flagged).Valid t (fun _ later =>
    later = tok) (waitLoop slots p addr wrb fuel) (tok.see p (new info)) := by
  have awake := rested.awake p own
  induction fuel generalizing info with
  | zero =>
    refine command_bind triple_halt ?_
    exact fun _ _ never => never.elim
  | succ fuel ih =>
    refine bind _ (valid_waitScan own rested addr wrb false slots _ running) ?_
    intro scan later surveyed
    cases scan with
    | finished v => exact surveyed
    | kids havekids =>
      obtain ⟨mine, rfl, same, clean⟩ := surveyed
      have runs : mine.info.state = .running := by rwa [same]
      refine command_bind (triple_getProc (see_self _ _ _)) ?_
      rintro (proc : ProcInfo Slot) _ ⟨rfl, rfl⟩
      split
      · refine command_bind (triple_release_rested rested ?_ ?_) ?_
        · exact fun _ => runs
        · simp [runs]
        · exact fun _ _ same => same
      · refine command_bind (triple_setChan own (see_self _ _ _) ?_ runs _) ?_
        · exact awake
        rintro _ _ rfl
        rw [see_see]
        refine command_bind (triple_setSleeping own (see_self _ _ _) ?_ runs ?_) ?_
        · exact awake
        · exact fun _ _ q => clean q (.inl (full q))
        rintro _ _ rfl
        rw [see_see]
        refine command_bind (triple_sched_rested rested own (by simp) (by simp)) ?_
        rintro _ _ rfl
        refine command_bind (triple_resume_setChan own rfl none) ?_
        rintro _ _ ⟨again, runsAgain, rfl⟩
        rw [rested.resumed own]
        exact ih again runsAgain

theorem valid_wait (full : ∀ q, q ∈ slots) (own : t = .process p) (rested : Rested t tok)
    (addr wrb : Bool) (fuel : Nat) : (lifeProtocol Hart slots init flagged).Valid t (fun _ later =>
    later = tok) (wait t slots p addr wrb fuel) tok := by
  refine bind _ (valid_acquire rested p) ?_
  rintro _ _ ⟨info, fresh, rfl⟩
  exact valid_waitLoop full own rested addr wrb fuel info (fresh.own own)

/-! ## Schedulers -/

theorem valid_scheduler (own : t = .scheduler h) (rested : Rested t tok)
    (list : List Slot) : (lifeProtocol Hart slots init flagged).Valid t (fun _ later =>
    later = tok) (scheduler list) tok := by
  induction list with
  | nil => exact rfl
  | cons p rest ih =>
    refine command_bind (triple_acquire p) ?_
    rintro _ _ ⟨info, fresh, rfl⟩
    refine command_bind (triple_getProc (see_self _ _ _)) ?_
    rintro (proc : ProcInfo Slot) _ ⟨rfl, rfl⟩
    split
    · next runnable =>
      refine command_bind (triple_dispatch own rested.seat (see_self _ _ _) runnable) ?_
      rintro _ _ rfl
      refine command_bind (triple_swtch own rfl (see_self _ _ _) rfl) ?_
      rintro _ _ rfl
      refine command_bind (triple_undispatch own rfl fun _ => rfl) ?_
      rintro _ _ ⟨info, _, orphan, rfl⟩
      rw [rested.switched]
      refine command_bind (triple_release_rested rested ?_ orphan) ?_
      · rw [own]
        exact fun isOwn => by cases isOwn
      rintro _ _ rfl
      exact ih
    · refine command_bind (triple_release_rested rested fresh.own fresh.orphan) ?_
      rintro _ _ rfl
      exact ih

/-! ## The system -/

theorem valid_lifeProgram (full : ∀ q, q ∈ slots) (own : t = .process p)
    (v : BitVec 32) (call : LifeCall Slot) : (lifeProtocol Hart slots init flagged).Valid t
      (lifeProtocol Hart slots init flagged).Idle
      (lifeProgram t slots init p v call) (.idle false) := by
  have rested : Rested t (.idle false : LifeToken Slot) := .idle t
  have rests : ∀ later : LifeToken Slot, later = .idle false → ∀ (v : BitVec 32) waited,
    (lifeProtocol Hart slots init flagged).Idle ⟨true, v, waited⟩ later := fun _ same _ _ => same
  cases call with
  | fork mem =>
    refine bind _ (valid_fork rested own mem slots) ?_
    exact fun _ later same => rests later same _ _
  | exit status =>
    refine bind _ (valid_exit full own rested status) ?_
    exact fun _ _ same => same
  | wait addr wrb fuel =>
    refine command_bind (triple_aside rfl) ?_
    rintro _ _ rfl
    refine bind _ (valid_wait full own rested addr wrb fuel) ?_
    exact fun _ later same => rests later same _ _
  | kill pid =>
    refine bind _ (valid_kill rested pid slots) ?_
    exact fun _ later same => rests later same _ _
  | yield =>
    refine bind _ (valid_yield rested own) ?_
    exact fun _ later same => rests later same _ _
  | sleep address =>
    refine bind _ (valid_sleep rested own address) ?_
    exact fun _ later same => rests later same _ _
  | wakeup address =>
    refine bind _ (valid_wakeup rested address slots) ?_
    exact fun _ later same => rests later same _ _
  | scheduler | tick q => exact rests _ rfl v _

end Life

theorem lifeProtocol_sound (full : ∀ q, q ∈ slots) :
    (lifeProtocol Hart slots init flagged).Sound := by
  rintro t call ⟨born, v, _⟩ tok idle
  cases idle
  cases t with
  | process p =>
    cases born with
    | true => exact valid_lifeProgram full rfl v call
    | false =>
      refine command_bind (triple_resume rfl rfl rfl rfl) ?_
      rintro _ _ rfl
      exact valid_lifeProgram full rfl v call
  | scheduler h =>
    have rested : Rested (.scheduler h) (.idle (!born) : LifeToken Slot) :=
      ⟨fun _ => rfl, rfl, fun _ isOwn => by cases isOwn⟩
    cases call with
    | scheduler =>
      refine bind _ (valid_scheduler rfl rested slots) ?_
      exact fun _ _ same => same
    | wakeup addr =>
      refine bind _ (valid_wakeup rested addr slots) ?_
      exact fun _ _ same => same
    | tick p =>
      refine command_bind (triple_aside rfl) ?_
      exact fun _ _ same => same
    | _ => exact rfl

omit [DecidableEq Hart] in
theorem LifeInv.start (init : Slot) (flagged : Prop) :
    LifeInv init flagged (ProcTable.start init : ProcTable Slot Hart) fun _ => .idle true := by
  have par : ∀ p, ((ProcTable.start init : ProcTable Slot Hart).procs p).parent = none := by
    intro p
    rw [ProcTable.start]
    dsimp only
    split <;> rfl
  have s : ∀ p, p ≠ init →
      ((ProcTable.start init : ProcTable Slot Hart).procs p).state = .unused := by
    intro p notInit
    rw [ProcTable.start]
    dsimp only
    rw [if_neg notInit]
    rfl
  have fst : ((ProcTable.start init : ProcTable Slot Hart).procs init).state = .runnable := by
    rw [ProcTable.start]
    dsimp only
    rw [if_pos rfl]
  have states : ∀ p, ((ProcTable.start init : ProcTable Slot Hart).procs p).state = .unused ∨
      ((ProcTable.start init : ProcTable Slot Hart).procs p).state = .runnable := by
    intro p
    by_cases isInit : p = init
    · rw [isInit]
      exact .inr fst
    · exact .inl (s p isInit)
  constructor
  · constructor
    · rintro p h ⟨⟩
    · exact fun _ _ => rfl
    · rintro h p ⟨⟩
    · rintro h p ⟨⟩
    · intro p running
      have := states p
      rw [running] at this
      simp at this
    · rintro p h ⟨⟩
    · rintro p h ⟨⟩
  · rintro t p view ⟨⟩
  · constructor
    · intro p q isPar
      rw [par] at isPar
      cases isPar
    · intro p notInit used
      exact absurd (s p notInit) used
    · rw [fst]
      exact alive_runnable
    · intro p q _ isPar
      rw [par] at isPar
      cases isPar
  · intro p _ waits
    have := states p
    rw [waits.1] at this
    simp at this
  · rintro p view ⟨⟩
  · rintro p q ⟨⟩
  · constructor
    · intro p
      have := states p
      rw [if_neg (by rintro dead; rw [dead] at this; simp at this)]
      rfl
    · rintro reap ⟨⟩
  · intro _ p _
    rw [ProcTable.start]
    dsimp only
    split <;> rfl

theorem lifeReachable_fits (full : ∀ q, q ∈ slots) {pool : Pool (lifeSystem Hart slots init)}
    (reach : (lifeSystem Hart slots init).Reachable
    (lifeProtocol Hart slots init flagged).Allowed (lifeStart Hart slots init) pool) :
    ∃ ts, (lifeProtocol Hart slots init flagged).Fits pool ts := by
  have fits : (lifeProtocol Hart slots init flagged).Fits (lifeStart Hart slots init)
    fun _ => .idle true := ⟨LifeInv.start init flagged, fun _ => rfl⟩
  exact reachable_fits (lifeProtocol_sound full) fits reach

end Xv6
