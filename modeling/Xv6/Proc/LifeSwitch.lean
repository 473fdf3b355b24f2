import Xv6.Proc.LifeSteps

/-! # Context switches

`sched` gives a hart back to its scheduler, and the scheduler gives it to a process.
The lock of the process stays with the hart, and the thread that goes on has it. -/

namespace Xv6

open Foundation Function LifeToken Option ProcTable

variable {Slot Hart : Type} [DecidableEq Slot] [DecidableEq Hart]
  {slots : List Slot} {init : Slot} {flagged : Prop} {t : Context Slot Hart}
  {tok : LifeToken Slot} {p q : Slot} {view : View Slot} {h g : Hart}
  {table : ProcTable Slot Hart} {ts : Context Slot Hart → LifeToken Slot}

omit [DecidableEq Slot] [DecidableEq Hart] in
theorem ProcTable.scheduling_of_hart (onHart : table.hart (.scheduler h) = some g) :
    table.scheduling h = true ∧ g = h := by
  simp only [hart] at onHart
  split at onHart
  · next scheduling =>
    cases onHart
    exact ⟨scheduling, rfl⟩
  · cases onHart

namespace ProcTable

theorem enter_cpu_ne (table : ProcTable Slot Hart) (h : Hart) (ne : q ≠ p) :
    (table.enter h p).cpu q = table.cpu q := update_of_ne ne _ _

theorem leave_cpu_ne (table : ProcTable Slot Hart) (h : Hart) (ne : q ≠ p) :
    (table.leave h p).cpu q = table.cpu q := update_of_ne ne _ _

theorem enter_scheduling_ne (table : ProcTable Slot Hart) (p : Slot) (ne : g ≠ h) :
    (table.enter h p).scheduling g = table.scheduling g := update_of_ne ne _ _

theorem leave_scheduling_ne (table : ProcTable Slot Hart) (p : Slot) (ne : g ≠ h) :
    (table.leave h p).scheduling g = table.scheduling g := update_of_ne ne _ _

@[simp] theorem enter_cpu (table : ProcTable Slot Hart) (h : Hart) (p : Slot) :
    (table.enter h p).cpu p = some h := update_self _ _ _

@[simp] theorem leave_cpu (table : ProcTable Slot Hart) (h : Hart) (p : Slot) :
    (table.leave h p).cpu p = none := update_self _ _ _

@[simp] theorem enter_scheduling (table : ProcTable Slot Hart) (h : Hart) (p : Slot) :
    (table.enter h p).scheduling h = false := update_self _ _ _

@[simp] theorem leave_scheduling (table : ProcTable Slot Hart) (h : Hart) (p : Slot) :
    (table.leave h p).scheduling h = true := update_self _ _ _

end ProcTable

/-- The token of a process that has switched away. -/
def LifeToken.left (tok : LifeToken Slot) : LifeToken Slot :=
  { tok with views := fun _ => none, resuming := true }

theorem LifeInv.leave (inv : LifeInv init flagged table ts) (onHart : table.cpu p = some h)
    (locked : table.lock p = some h) (alone : ∀ q, q ≠ p → (ts (.process p)).views q = none)
    (still : (table.procs p).state ≠ .running) (used : (table.procs p).state ≠ .unused) :
    LifeInv init flagged (table.leave h p) (update ts (.process p) (ts (.process p)).left) := by
  obtain ⟨busy, mine⟩ := inv.harts.onHart p h onHart
  have schedulers : ∀ g, update ts (.process p) (ts (.process p)).left
    (.scheduler g) = ts (.scheduler g) := fun g => update_of_ne (by simp) _ _
  have elsewhere : ∀ q, q ≠ p → update ts (.process p) (ts (.process p)).left
    (.process q) = ts (.process q) := fun q ne => update_of_ne (by simpa using ne) _ _
  refine inv.reframe rfl rfl rfl ?_ ?_ ?_ ?_ rfl
  · constructor
    · intro q g there
      have ne : q ≠ p := by
        rintro rfl
        rw [leave_cpu] at there
        cases there
      rw [leave_cpu_ne _ _ ne] at there
      obtain ⟨off, cpus⟩ := inv.harts.onHart q g there
      refine ⟨?_, cpus⟩
      rw [leave_scheduling_ne, off]
      rintro rfl
      rw [mine] at cpus
      cases cpus
      exact ne rfl
    · intro g
      rw [schedulers]
      exact inv.harts.unseated g
    · intro g q
      rw [schedulers]
      intro seated
      obtain ⟨cpus, off, sees⟩ := inv.harts.seated g q seated
      refine ⟨cpus, ?_, sees⟩
      by_cases same : q = p
      · rw [same, leave_cpu]
      · rw [leave_cpu_ne _ _ same, off]
    · intro g q
      rw [schedulers]
      intro away
      obtain ⟨cpus, rest⟩ := inv.harts.away g q away
      refine ⟨cpus, ?_⟩
      by_cases same : q = p
      · rw [same, onHart] at rest
        rcases rest with there | ⟨off, _⟩
        · cases there
          rw [same]
          exact .inr ⟨leave_cpu _ _ _, leave_scheduling _ _ _, locked⟩
        · cases off
      · rw [leave_cpu_ne _ _ same]
        rcases rest with there | ⟨off, scheduling, held⟩
        · exact .inl there
        refine .inr ⟨off, ?_, held⟩
        rw [leave_scheduling_ne, scheduling]
        rintro rfl
        rw [busy] at scheduling
        cases scheduling
    · intro q running off
      have ne : q ≠ p := by
        rintro rfl
        exact still running
      rw [leave_cpu_ne _ _ ne] at off
      simp only [schedulers]
      exact inv.harts.running q running off
    · intro q g there
      have ne : q ≠ p := by
        rintro rfl
        rw [leave_cpu] at there
        cases there
      rw [leave_cpu_ne _ _ ne] at there
      rw [elsewhere q ne]
      exact inv.harts.onCpu q g there
    · intro q g there
      have ne : q ≠ p := by
        rintro rfl
        rw [leave_cpu] at there
        cases there
      rw [leave_cpu_ne _ _ ne] at there
      rw [elsewhere q ne]
      exact inv.harts.resume q g there
  · intro o q view sees
    have ne : o ≠ .process p := by
      rintro rfl
      rw [update_self] at sees
      cases sees
    rw [update_of_ne ne] at sees
    obtain ⟨eq, g, isHart, held⟩ := inv.seen o q view sees
    refine ⟨eq, g, ?_, held⟩
    cases o with
    | process r =>
      have notP : r ≠ p := by
        rintro rfl
        exact ne rfl
      rwa [hart, leave_cpu_ne _ _ notP]
    | scheduler k =>
      obtain ⟨scheduling, same⟩ := scheduling_of_hart isHart
      have notH : k ≠ h := by
        rintro rfl
        rw [busy] at scheduling
        cases scheduling
      rw [hart, leave_scheduling_ne _ _ notH, if_pos scheduling, same]
  · intro q r isThread unused parent
    cases isThread
    have sees := inv.family.free q p unused parent
    by_cases same : q = p
    · rw [same] at unused
      exact absurd unused used
    · exact absurd (alone q same) sees
  · rintro q view isThread ⟨⟩

theorem Life.triple_sched (own : t = .process p) (sees : tok.views p = some view)
    (alone : ∀ q, q ≠ p → tok.views q = none) (still : view.info.state ≠ .running)
    (used : view.info.state ≠ .unused) :
    LifeTriple slots init flagged t tok (.sched p) fun _ out => out = tok.left := by
  apply Life.triple_of_execOn (by simp)
  · rintro table ts h resp after rfl inv ok onHart ran
    have locked := inv.lock_eq sees onHart
    have cur := inv.view_eq sees
    rw [execOn, if_neg (not_not_intro locked), if_neg (by rw [cur]; exact still)] at ran
    cases ran
    subst own
    refine ⟨_, ?_, rfl⟩
    exact inv.leave onHart locked alone (by rw [cur]; exact still) (by rw [cur]; exact used)
  · rintro table ts h why rfl inv ok onHart ran
    rw [execOn, if_neg (not_not_intro (inv.lock_eq sees onHart)),
      if_neg (by rw [inv.view_eq sees]; exact still)] at ran
    cases ran

/-! ## The scheduler's side -/

/-- The token of a scheduler that has chosen a process. -/
def LifeToken.chosen (tok : LifeToken Slot) (p : Slot) : LifeToken Slot :=
  { tok with seat := .seated p }

/-- The token of a scheduler that has switched to a process. -/
def LifeToken.switched (tok : LifeToken Slot) (p : Slot) : LifeToken Slot :=
  { tok with views := fun _ => none, seat := .away p }

/-- The token of a scheduler that a process has switched back to. -/
def LifeToken.back (tok : LifeToken Slot) (p : Slot) (info : ProcInfo Slot) : LifeToken Slot :=
  { tok.see p (View.new info) with seat := .none }

theorem Harts.setSeat (harts : Harts table ts) {cpu : Option Slot} {later : LifeToken Slot}
    (idle : ∀ q, table.cpu q ≠ some h) (old : ∀ q, (ts (.scheduler h)).seat ≠ .seated q)
    (unseated : later.seat = .none → cpu = none) (notAway : ∀ q, later.seat ≠ .away q)
    (seated : ∀ q, later.seat = .seated q → cpu = some q ∧ table.cpu q = none ∧
    later.views q ≠ none) : Harts (table.setCpus h cpu) (update ts (.scheduler h) later) := by
  have procs : ∀ q, update ts (.scheduler h) later (.process q) = ts (.process q) :=
    fun q => update_of_ne (by simp) _ _
  have self : (table.setCpus h cpu).cpus h = cpu := update_self _ _ _
  have others : ∀ g, g ≠ h → (table.setCpus h cpu).cpus g = table.cpus g ∧
      update ts (.scheduler h) later (.scheduler g) = ts (.scheduler g) := by
    intro g ne
    exact ⟨update_of_ne ne _ _, update_of_ne (by simpa using ne) _ _⟩
  constructor
  · intro q g there
    obtain ⟨busy, cpus⟩ := harts.onHart q g there
    refine ⟨busy, ?_⟩
    rw [(others g _).1, cpus]
    rintro rfl
    exact idle q there
  · intro g none
    by_cases here : g = h
    · rw [here, update_self] at none
      rw [here, self, unseated none]
    rw [(others g here).2] at none
    rw [(others g here).1]
    exact harts.unseated g none
  · intro g q sits
    by_cases here : g = h
    · rw [here, update_self] at sits ⊢
      rw [self]
      exact seated q sits
    rw [(others g here).2] at sits ⊢
    rw [(others g here).1]
    exact harts.seated g q sits
  · intro g q away
    by_cases here : g = h
    · rw [here, update_self] at away
      exact absurd away (notAway q)
    rw [(others g here).2] at away
    rw [(others g here).1]
    exact harts.away g q away
  · intro q running isOff
    obtain ⟨g, sits⟩ := harts.running q running isOff
    have ne : g ≠ h := by
      rintro rfl
      exact old q sits
    exact ⟨g, by rw [(others g ne).2]; exact sits⟩
  · intro q g there
    rw [procs]
    exact harts.onCpu q g there
  · intro q g there
    rw [procs]
    exact harts.resume q g there

theorem LifeInv.choose (inv : LifeInv init flagged table ts)
    (seat : (ts (.scheduler h)).seat = .none) (off : table.cpu p = none)
    (sees : (ts (.scheduler h)).views p = some view) : LifeInv init flagged
    (table.setCpus h (some p)) (update ts (.scheduler h) ((ts (.scheduler h)).chosen p)) := by
  have views := update_field ts (.scheduler h) LifeToken.views
    (show ((ts (.scheduler h)).chosen p).views = _ from rfl)
  have idle : ∀ q, table.cpu q ≠ some h := by
    intro q there
    have cpus := (inv.harts.onHart q h there).2
    rw [inv.harts.unseated h seat] at cpus
    cases cpus
  refine inv.reframe rfl rfl rfl (inv.harts.setSeat idle (by simp [seat]) nofun nofun ?_) ?_
    ?_ ?_ rfl
  · rintro q ⟨⟩
    exact ⟨rfl, off, ne_none_iff_exists'.mpr ⟨view, sees⟩⟩
  · intro o q view sees
    rw [views] at sees
    exact inv.seen o q view sees
  · rintro q r ⟨⟩
  · rintro q view ⟨⟩

theorem Life.triple_dispatch (own : t = .scheduler h) (seat : tok.seat = .none)
    (sees : tok.views p = some view) (runnable : view.info.state = .runnable) :
    LifeTriple slots init flagged t tok (.dispatch p) fun _ out => out = (tok.chosen p).see p
        { view with info := { view.info with state := .running } } := by
  subst own
  apply Life.triple_of_execOn (by simp)
  · rintro table ts g response after rfl inv ok onHart ran
    obtain ⟨_, rfl⟩ := scheduling_of_hart onHart
    cases ran
    refine ⟨_, ?_, rfl⟩
    have off := inv.off_of_view sees (by simp) (by simp [runnable])
    have chosen := inv.choose seat off sees
    have cur := inv.view_eq sees
    have seesStill : (update ts (.scheduler g) ((ts (.scheduler g)).chosen p)
        (.scheduler g)).views p = some view := by
      rwa [update_self]
    have write := @Write.mild Slot Hart _ init flagged _ _ (.scheduler g) p
      { view.info with state := .running } chosen view seesStill (by simp)
      (.inr (by simp)) (fun _ => .inr ⟨g, rfl, by rw [update_self]; rfl⟩) rfl
      (fun _ => alive_running) (by simp) (by simp) (by simp [runnable])
      (by simp [ProcInfo.Waiting]) (by simp)
    have procs : ((table.modify p fun proc =>
        { proc with state := .running }).setCpus g (some p)).procs =
        update (table.setCpus g (some p)).procs p
          { view.info with state := .running } := by
      rw [← cur]
      rfl
    have accounted : Accounted ((table.modify p fun proc =>
        { proc with state := .running }).setCpus g (some p)).procs table.deaths table.reaps :=
      inv.accounted.update (by simp [cur, runnable]) (by simp)
    have final := chosen.write write procs rfl rfl rfl rfl accounted
    rwa [update_idem, update_self] at final
  · rintro table ts g why holds inv ok onHart ⟨⟩

theorem LifeInv.enter (inv : LifeInv init flagged table ts)
    (scheduling : table.scheduling h = true) (seat : (ts (.scheduler h)).seat = .seated p)
    (sees : (ts (.scheduler h)).views p = some view) (running : view.info.state = .running) :
    LifeInv init flagged (table.enter h p)
    (update ts (.scheduler h) ((ts (.scheduler h)).switched p)) := by
  obtain ⟨mine, off, _⟩ := inv.harts.seated h p seat
  have locked : table.lock p = some h := inv.lock_eq sees (by rw [hart, if_pos scheduling])
  have cur := inv.view_eq sees
  have procs : ∀ q, update ts (.scheduler h)
      ((ts (.scheduler h)).switched p) (.process q) = ts (.process q) :=
    fun q => update_of_ne (by simp) _ _
  have others : ∀ g, g ≠ h → update ts (.scheduler h)
      ((ts (.scheduler h)).switched p) (.scheduler g) = ts (.scheduler g) :=
    fun g ne => update_of_ne (by simpa using ne) _ _
  refine inv.reframe rfl rfl rfl ?_ ?_ ?_ ?_ rfl
  · constructor
    · intro q g there
      by_cases same : q = p
      · rw [same, enter_cpu] at there
        cases there
        rw [same]
        exact ⟨enter_scheduling _ _ _, mine⟩
      · rw [enter_cpu_ne _ _ same] at there
        obtain ⟨busy, cpus⟩ := inv.harts.onHart q g there
        refine ⟨?_, cpus⟩
        rw [enter_scheduling_ne, busy]
        rintro rfl
        rw [scheduling] at busy
        cases busy
    · intro g unseated
      by_cases here : g = h
      · rw [here, update_self] at unseated
        cases unseated
      · rw [others g here] at unseated
        exact inv.harts.unseated g unseated
    · intro g q seated
      by_cases here : g = h
      · rw [here, update_self] at seated
        cases seated
      rw [others g here] at seated ⊢
      obtain ⟨cpus, isOff, seesO⟩ := inv.harts.seated g q seated
      have ne : q ≠ p := by
        rintro rfl
        obtain ⟨_, seesO⟩ := ne_none_iff_exists'.mp seesO
        cases inv.view_unique sees seesO
        exact here rfl
      rw [enter_cpu_ne _ _ ne]
      exact ⟨cpus, isOff, seesO⟩
    · intro g q away
      by_cases here : g = h
      · rw [here, update_self] at away
        cases away
        rw [here]
        exact ⟨mine, .inl (enter_cpu _ _ _)⟩
      · rw [others g here] at away
        obtain ⟨cpus, rest⟩ := inv.harts.away g q away
        have ne : q ≠ p := by
          rintro rfl
          rcases rest with there | ⟨_, _, held⟩
          · rw [off] at there
            cases there
          rw [locked] at held
          cases held
          exact here rfl
        rw [enter_cpu_ne _ _ ne, enter_scheduling_ne _ _ here]
        exact ⟨cpus, rest⟩
    · intro q isRuns isOff
      have ne : q ≠ p := by
        rintro rfl
        rw [enter_cpu] at isOff
        cases isOff
      rw [enter_cpu_ne _ _ ne] at isOff
      obtain ⟨g, seated⟩ := inv.harts.running q isRuns isOff
      have notHere : g ≠ h := by
        rintro rfl
        rw [seat] at seated
        cases seated
        exact ne rfl
      exact ⟨g, by rw [others g notHere]; exact seated⟩
    · intro q g there
      by_cases same : q = p
      · rw [same]
        exact .inl (by rw [ProcTable.enter, cur]; exact running)
      rw [enter_cpu_ne _ _ same] at there
      rw [procs]
      exact inv.harts.onCpu q g there
    · intro q g there resuming
      by_cases same : q = p
      · rw [same, enter_cpu] at there
        cases there
        rw [same]
        exact ⟨locked, by rw [ProcTable.enter, cur]; exact running⟩
      · rw [enter_cpu_ne _ _ same] at there
        rw [procs] at resuming
        exact inv.harts.resume q g there resuming
  · intro o q seen seesO
    have ne : o ≠ .scheduler h := by
      rintro rfl
      rw [update_self] at seesO
      cases seesO
    rw [update_of_ne ne] at seesO
    obtain ⟨eq, g, isHart, held⟩ := inv.seen o q seen seesO
    refine ⟨eq, g, ?_, held⟩
    cases o with
    | process r =>
      have notP : r ≠ p := by
        rintro rfl
        rw [hart, off] at isHart
        cases isHart
      rwa [hart, enter_cpu_ne _ _ notP]
    | scheduler k =>
      have notH : k ≠ h := by
        rintro rfl
        exact ne rfl
      rwa [hart, enter_scheduling_ne _ _ notH]
  · rintro q r ⟨⟩
  · rintro q view ⟨⟩

theorem Life.triple_swtch (own : t = .scheduler h) (seat : tok.seat = .seated p)
    (sees : tok.views p = some view) (running : view.info.state = .running) :
    LifeTriple slots init flagged t tok (.swtch p) fun _ out => out = tok.switched p := by
  subst own
  apply Life.triple_of_execOn (by simp)
  · rintro table ts g response after rfl inv ok onHart ran
    obtain ⟨scheduling, rfl⟩ := scheduling_of_hart onHart
    rw [execOn, if_pos (inv.harts.seated g p seat).2.1] at ran
    cases ran
    exact ⟨_, inv.enter scheduling seat sees running, rfl⟩
  · rintro table ts g why rfl inv ok onHart ran
    rw [execOn, if_pos (inv.harts.seated h p seat).2.1] at ran
    cases ran

omit [DecidableEq Hart] in
theorem LifeInv.returned (inv : LifeInv init flagged table ts)
    (scheduling : table.scheduling h = true) (seat : (ts (.scheduler h)).seat = .away p) :
    table.lock p = some h ∧ (table.procs p).state ≠ .running ∧
    ((table.procs p).state = .unused → (table.procs p).parent = none) := by
  obtain ⟨_, there | ⟨off, _, locked⟩⟩ := inv.harts.away h p seat
  · have busy := (inv.harts.onHart p h there).1
    rw [scheduling] at busy
    cases busy
  have onHart : table.hart (.scheduler h) = some h := by rw [hart, if_pos scheduling]
  refine ⟨locked, ?_, ?_⟩
  · intro running
    obtain ⟨g, seated⟩ := inv.harts.running p running off
    obtain ⟨_, sees⟩ := ne_none_iff_exists'.mp (inv.harts.seated g p seated).2.2
    obtain ⟨_, k, isHart, held⟩ := inv.seen _ p _ sees
    rw [locked] at held
    cases held
    cases inv.harts.hart_inj onHart isHart
    rw [seat] at seated
    cases seated
  · intro unused
    by_contra par
    obtain ⟨q, par⟩ := ne_none_iff_exists'.mp par
    obtain ⟨_, sees⟩ := ne_none_iff_exists'.mp (inv.family.free p q unused par)
    obtain ⟨_, k, isHart, held⟩ := inv.seen _ p _ sees
    rw [locked] at held
    cases held
    cases inv.harts.hart_inj onHart isHart

theorem LifeInv.undispatch (inv : LifeInv init flagged table ts)
    (scheduling : table.scheduling h = true) (seat : (ts (.scheduler h)).seat = .away p)
    (alone : ∀ q, (ts (.scheduler h)).views q = none) : LifeInv init flagged (table.setCpus h none)
    (update ts (.scheduler h) ((ts (.scheduler h)).back p (table.procs p))) := by
  obtain ⟨locked, _, _⟩ := inv.returned scheduling seat
  have idle : ∀ q, table.cpu q ≠ some h := by
    intro q there
    have busy := (inv.harts.onHart q h there).1
    rw [scheduling] at busy
    cases busy
  refine inv.reframe rfl rfl rfl
    (inv.harts.setSeat idle (by simp [seat]) (fun _ => rfl) nofun nofun) ?_ ?_ ?_ rfl
  · intro o q seen sees
    by_cases here : o = .scheduler h
    · rw [here, update_self] at sees
      have same : q = p := by
        by_contra ne
        have unseen : ((ts (.scheduler h)).back p (table.procs p)).views q = none :=
          (see_ne _ ne _).trans (alone q)
        rw [unseen] at sees
        cases sees
      have isNew : ((ts (.scheduler h)).back p (table.procs p)).views p =
        some (View.new (table.procs p)) := see_self _ _ _
      rw [same, isNew] at sees
      cases sees
      rw [here, same]
      exact ⟨rfl, h, by rw [hart, setCpus, if_pos scheduling], locked⟩
    · rw [update_of_ne here] at sees
      exact inv.seen o q seen sees
  · rintro q r ⟨⟩
  · rintro q view ⟨⟩

theorem Life.triple_undispatch (own : t = .scheduler h)
    (seat : tok.seat = .away p) (alone : ∀ q, tok.views q = none) :
    LifeTriple slots init flagged t tok .undispatch fun _ out => ∃ info, info.state ≠ .running ∧
    (info.state = .unused → info.parent = none) ∧ out = tok.back p info := by
  subst own
  apply Life.triple_of_execOn (by simp)
  · rintro table ts g response after rfl inv ok onHart ran
    obtain ⟨scheduling, rfl⟩ := scheduling_of_hart onHart
    cases ran
    obtain ⟨_, still, orphan⟩ := inv.returned scheduling seat
    exact ⟨_, inv.undispatch scheduling seat alone, table.procs p, still, orphan, rfl⟩
  · rintro table ts g why holds inv ok onHart ⟨⟩

end Xv6
