import Xv6.Proc.LifeInvariant

/-! # The steps of processes and schedulers

What each command needs of the thread's token and what it leaves. -/

namespace Xv6

open Foundation Function Protocol LifeToken List ProcInfo ProcStatus ProcTable View Write

theorem not_own {t : Context Slot Hart} (own : t = .process p) (o : q ≠ p) : t ≠ .process q := by
  rw [own]
  intro eq
  cases eq
  exact o rfl

variable {Slot Hart : Type} [DecidableEq Slot] [DecidableEq Hart]

/-- `kill` reaches slots of processes that exist. -/
def ReachesUsed (_ : Context Slot Hart) (cmd : LifeCommand Slot)
    (s : ProcTable Slot Hart) : Prop :=
  ∀ p, cmd = .setKilled p → (s.procs p).state ≠ .unused

/-- The protocol of the process table. A thread that launches a process has found
its slot free. The only panics that are not excluded are those of `acquire` and of
`exit` by `initproc`. -/
def lifeProtocol (Hart : Type) [DecidableEq Hart] (slots : List Slot) (init : Slot)
    (flagged : Prop) : Protocol (lifeSystem Hart slots init) (LifeToken Slot) where
  Inv := LifeInv init flagged
  Ready cmd tok :=
    ∀ p, cmd = .launch p → ∃ view, tok.views p = some view ∧ view.info.state = .unused
  Allowed t cmd s := flagged → ReachesUsed t cmd s
  Tolerated reason := reason = .acquire ∨ reason = .initExiting
  Idle value tok := tok = .idle (!value.born)

abbrev LifeTriple (slots : List Slot) (init : Slot) (flagged : Prop) :=
  (lifeProtocol Hart slots init flagged).Triple

namespace ProcTable

variable {t : Context Slot Hart} {cmd : LifeCommand Slot} {table after : ProcTable Slot Hart}

theorem exec_ok {resp : cmd.Response} (ran : exec t cmd table = .ok (resp, after)) :
    ∃ h, table.hart t = some h ∧ execOn t h cmd table = .ok (resp, after) := by
  rw [exec] at ran
  cases onHart : table.hart t with
  | none => simp [onHart] at ran
  | some h =>
    rw [onHart] at ran
    exact ⟨h, rfl, ran⟩

theorem exec_panic {why : LifePanic} (ran : exec t cmd table = .panic why) :
    ∃ h, table.hart t = some h ∧ execOn t h cmd table = .panic why := by
  rw [exec] at ran
  cases onHart : table.hart t with
  | none => simp [onHart] at ran
  | some h =>
    rw [onHart] at ran
    exact ⟨h, rfl, ran⟩

end ProcTable

section

variable {slots : List Slot} {init : Slot} {flagged : Prop} {t : Context Slot Hart}
  {tok later : LifeToken Slot} {p q : Slot} {view : View Slot} {cmd : LifeCommand Slot}

theorem Life.triple_of_execOn {post : cmd.Response → LifeToken Slot → Prop}
    (ready : ∀ p, cmd = .launch p → ∃ view, tok.views p = some view ∧ view.info.state = .unused)
    (keeps : ∀ table ts h resp after, ts t = tok →
      LifeInv init flagged table ts → (flagged → ReachesUsed t cmd table) → table.hart t = some h →
      execOn t h cmd table = .ok (resp, after) →
      ∃ later, LifeInv init flagged after (update ts t later) ∧ post resp later)
    (tolerates : ∀ table ts h why, ts t = tok →
      LifeInv init flagged table ts → (flagged → ReachesUsed t cmd table) → table.hart t = some h →
      execOn t h cmd table = .panic why → why = .acquire ∨ why = .initExiting) :
    LifeTriple slots init flagged t tok cmd post := by
  apply Triple.of_outcomes ready
  · intro table ts resp after holds inv ok ran
    obtain ⟨h, onHart, ran⟩ := exec_ok ran
    exact keeps table ts h resp after holds inv ok onHart ran
  · intro table ts why holds inv ok ran
    obtain ⟨h, onHart, ran⟩ := exec_panic ran
    exact tolerates table ts h why holds inv ok onHart ran

omit [DecidableEq Slot] in
theorem ready_of_ne (o : ∀ p, cmd ≠ .launch p) (p : Slot) (launches : cmd = .launch p) :
    ∃ view, tok.views p = some view ∧ view.info.state = .unused := absurd launches (o p)

theorem Life.triple_modify (change : ProcInfo Slot → ProcInfo Slot) (ready : ∀ p, cmd = .launch p →
      ∃ view, tok.views p = some view ∧ view.info.state = .unused) (sees : tok.views p = some view)
    (modifies : ∀ table ts h, ts t = tok → LifeInv init flagged table ts →
      table.hart t = some h → ∃ resp, execOn t h cmd table = .ok (resp, table.modify p change))
    (write : ∀ table ts h, ts t = tok → LifeInv init flagged table ts →
      (flagged → ReachesUsed t cmd table) → table.hart t = some h →
      Write init flagged table t tok later p view.info (change view.info))
    (dead : (change view.info).state = .zombie ↔ view.info.state = .zombie)
    (same : (change view.info).state = .zombie → (change view.info).death p = view.info.death p) :
    LifeTriple slots init flagged t tok cmd fun _ out => out = later := by
  apply triple_of_execOn ready
  · rintro table ts h resp after rfl inv ok onHart ran
    obtain ⟨_, eq⟩ := modifies table ts h rfl inv onHart
    rw [eq] at ran
    cases ran
    have cur := inv.view_eq sees
    refine ⟨later, ?_, rfl⟩
    have procs : (table.modify p change).procs = update table.procs p (change view.info) := by
      rw [ProcTable.modify, cur]
    apply inv.write (write table ts h rfl inv ok onHart) procs rfl rfl rfl rfl
    rw [procs]
    apply inv.accounted.update
    · rwa [cur]
    · rwa [cur]
  · intro table ts h why holds inv ok onHart ran
    obtain ⟨_, eq⟩ := modifies table ts h holds inv onHart
    rw [eq] at ran
    cases ran

/-! ## Fields of a slot -/

theorem alive_running : running.Alive := ⟨by decide, by decide⟩
theorem alive_runnable : runnable.Alive := ⟨by decide, by decide⟩
theorem alive_sleeping : sleeping.Alive := ⟨by decide, by decide⟩
theorem not_alive_unused : ¬unused.Alive := fun alive => alive.1 rfl
theorem not_alive_zombie : ¬zombie.Alive := fun alive => alive.2 rfl

section

variable (own : t = .process p)
include own

section

variable (sees : tok.views p = some view)
include sees

theorem Life.triple_setRunnable
    (awake : tok.resuming = false) (running : view.info.state = .running) :
    LifeTriple slots init flagged t tok (.setState p .runnable) fun _ out =>
        out = tok.see p { view with info := { view.info with state := .runnable } } := by
  apply triple_modify _ (ready_of_ne (by simp)) sees (fun _ _ _ _ _ _ => ⟨(), rfl⟩)
  · rintro table ts h rfl inv _ _
    apply mild inv sees (fun _ => awake) (.inl own) <;>
      simp [running, alive_runnable, ProcInfo.Waiting]
  · simp [running]
  · simp

theorem Life.triple_setSleeping
    (awake : tok.resuming = false) (running : view.info.state = .running)
    (full : p ≠ init → view.info.chan = some (.proc p) → ∀ q, q ∈ view.clean) :
    LifeTriple slots init flagged t tok (.setState p .sleeping) fun _ out =>
        out = tok.see p { view with info := { view.info with state := .sleeping } } := by
  apply triple_modify _ (ready_of_ne (by simp)) sees (fun _ _ _ _ _ _ => ⟨(), rfl⟩)
  · rintro table ts h rfl inv _ _
    apply mild inv sees (fun _ => awake) (.inl own)
    case waits =>
      intro notInit waiting q _
      have scanned := inv.scanned p view (by rw [← own]; exact sees)
      exact scanned.clean notInit q (full notInit waiting.2 q)
    all_goals simp [running, alive_sleeping]
  · simp [running]
  · simp

theorem Life.triple_setChan (awake : tok.resuming = false) (running : view.info.state = .running)
    (chan : Option (WaitChan Slot)) :
    LifeTriple slots init flagged t tok (.setChan p chan) fun _ out =>
        out = tok.see p { view with info := { view.info with chan := chan } } := by
  apply triple_modify _ (ready_of_ne (by simp)) sees (fun _ _ _ _ _ _ => ⟨(), rfl⟩)
  · rintro table ts h rfl inv _ _
    apply mild inv sees (fun _ => awake) (.inl own) <;>
      simp [running, ProcInfo.Waiting]
  · simp
  · simp [running]

theorem Life.triple_setXstate
    (awake : tok.resuming = false) (running : view.info.state = .running) (status : BitVec 32) :
    LifeTriple slots init flagged t tok (.setXstate p status) fun _ out =>
        out = tok.see p { view with info := { view.info with xstate := status } } := by
  apply triple_modify _ (ready_of_ne (by simp)) sees (fun _ _ _ _ _ _ => ⟨(), rfl⟩)
  · rintro table ts h rfl inv _ _
    apply mild inv sees (fun _ => awake) (.inl own) <;>
      simp [running, ProcInfo.Waiting]
  · simp
  · simp [running]

end

end

theorem Life.triple_wake (o : t ≠ .process p) (sees : tok.views p = some view)
    (sleeping : view.info.state = .sleeping) :
    LifeTriple slots init flagged t tok (.wake p) fun _ out =>
        out = tok.see p { view with info := { view.info with state := .runnable } } := by
  apply triple_modify (fun proc => { proc with state := .runnable }) (ready_of_ne (by simp)) sees
  · rintro table ts h rfl inv _
    have off := inv.off_of_view sees o (by simp [sleeping])
    exact ⟨(), by rw [execOn, if_pos off]⟩
  · rintro table ts h rfl inv _ _
    apply mild inv sees (fun own => absurd own o) <;>
      simp [sleeping, alive_runnable, ProcInfo.Waiting]
  · simp [sleeping]
  · simp

theorem Life.triple_setKilled (sees : tok.views p = some view)
    (awake : t = .process p → tok.resuming = false) :
    LifeTriple slots init flagged t tok (.setKilled p) fun _ out =>
        out = tok.see p { view with info := { view.info with killed := true } } := by
  apply triple_modify _ (ready_of_ne (by simp)) sees (fun _ _ _ _ _ _ => ⟨(), rfl⟩)
  · rintro table ts h rfl inv ok _
    apply mild inv sees awake
    case waits =>
      intro notInit waiting q _
      apply inv.attentive p notInit
      rwa [inv.view_eq sees]
    case unmarked =>
      intro isFlagged unused
      have used := ok isFlagged p rfl
      rw [inv.view_eq sees] at used
      exact absurd unused used
    all_goals simp +contextual
  · simp
  · simp [death]

theorem Life.triple_setPid (o : t ≠ .process p) (sees : tok.views p = some view)
    (unused : view.info.state = .unused) (pid : BitVec 32) :
    LifeTriple slots init flagged t tok (.setPid p pid) fun _ out =>
        out = tok.see p { view with info := { view.info with pid := pid } } := by
  apply triple_modify _ (ready_of_ne (by simp)) sees (fun _ _ _ _ _ _ => ⟨(), rfl⟩)
  · rintro table ts h rfl inv _ _
    apply mild inv sees (fun own => absurd own o)
    case unmarked =>
      intro isFlagged _
      have flag := inv.unmarked isFlagged p
      rw [inv.view_eq sees] at flag
      exact flag unused
    all_goals simp [unused, ProcInfo.Waiting, not_alive_unused]
  · simp
  · simp [unused]

theorem Life.triple_launch (o : t ≠ .process p) (sees : tok.views p = some view)
    (unused : view.info.state = .unused) (par : view.info.parent ≠ none) :
    LifeTriple slots init flagged t tok (.launch p) fun _ out =>
        out = tok.see p { view with info := { view.info with state := .runnable } } := by
  apply triple_modify _ _ sees (fun _ _ _ _ _ _ => ⟨(), rfl⟩)
  · rintro table ts h rfl inv _ _
    apply mild inv sees (fun own => absurd own o) <;>
      simp [unused, par, ProcInfo.Waiting, not_alive_unused]
  · simp [unused]
  · simp
  · intro q launches
    cases launches
    exact ⟨view, sees, unused⟩

/-! ## Parents and children -/

omit [DecidableEq Hart] in
theorem LifeInv.running_of_hart {table : ProcTable Slot Hart}
    {ts : Context Slot Hart → LifeToken Slot} {h : Hart}
    (inv : LifeInv init flagged table ts) (onHart : table.hart (.process p) = some h)
    (unseen : (ts (.process p)).views p = none) : (table.procs p).state = .running := by
  rcases inv.harts.onCpu p h onHart with running | sees
  · exact running
  · exact absurd unseen sees

theorem Life.triple_adopt (own : t = .process p) (unseen : tok.views p = none)
    (o : q ≠ p) (sees : tok.views q = some view) (unused : view.info.state = .unused)
    (orphan : view.info.parent = none) :
    LifeTriple slots init flagged t tok (.setParent q p) fun _ out =>
        out = tok.see q { view with info := { view.info with parent := some p } } := by
  have notOwn := not_own own o
  apply triple_modify _ (ready_of_ne (by simp)) sees (fun _ _ _ _ _ _ => ⟨(), rfl⟩)
  · rintro table ts h rfl inv _ onHart
    have running := inv.running_of_hart (own ▸ onHart) (own ▸ unseen)
    refine
      { sees := ⟨view, sees, rfl⟩
        seesAfter := ⟨_, see_self _ _ _, rfl⟩
        others := fun r ne => by rw [see_ne _ ne]
        seat := rfl
        resuming := rfl
        awake := fun isOwn => absurd isOwn notOwn
        original := .inl rfl
        own := .inr (by simp)
        running := .inl
        parent := ?_
        children := by simp [orphan]
        survives := by simp [unused, not_alive_unused]
        kin := by simp [unused, not_alive_unused]
        free := ?_
        named := by simp
        zombie := by simp [unused]
        waits := by simp [unused, ProcInfo.Waiting]
        scanned := ?_
        unmarked := ?_ }
    · intro r isPar
      cases isPar
      exact .inr (.inr ⟨own, o.symm, by rw [running]; exact alive_running, unseen⟩)
    · intro _ r isPar
      cases isPar
      exact own
    · intro r view' isThr sees'
      rw [own] at isThr
      cases isThr
      rw [see_ne _ o.symm, unseen] at sees'
      cases sees'
    · intro isFlagged _
      have flag := inv.unmarked isFlagged q
      rw [inv.view_eq sees] at flag
      exact flag unused
  · simp
  · simp [unused]

variable {mine : View Slot}

theorem Life.triple_reparent (own : t = .process p) (notInit : p ≠ init)
    (holds : tok.views p = some mine) (isChild : mine.child = some q) (o : q ≠ p)
    (sees : tok.views q = some view) (used : view.info.state = .unused → view.info.parent = none) :
    LifeTriple slots init flagged t tok (.setParent q init) fun _ out => out =
        (tok.see q { view with info := { view.info with parent := some init } }).see p
          { mine with orphaned := q :: mine.orphaned, child := none } := by
  have notOwn := not_own own o
  apply triple_modify _ (ready_of_ne (by simp)) sees (fun _ _ _ _ _ _ => ⟨(), rfl⟩)
  · rintro table ts h rfl inv _ onHart
    have scanned := inv.scanned p mine (by rw [← own]; exact holds)
    have isPar := scanned.child q isChild
    rw [inv.view_eq sees] at isPar
    have isUsed : view.info.state ≠ .unused := by
      intro unused
      rw [used unused] at isPar
      cases isPar
    refine
      { sees := ⟨view, sees, rfl⟩
        seesAfter := ⟨_, by rw [see_ne _ o, see_self], rfl⟩
        others := ?_
        seat := rfl
        resuming := rfl
        awake := fun isOwn => absurd isOwn notOwn
        original := .inl rfl
        own := .inr (by simp)
        running := .inl
        parent := by simp
        children := ?_
        survives := by simp +contextual
        kin := by simp
        free := fun unused => absurd unused isUsed
        named := by simp
        zombie := by simp +contextual
        waits := ?_
        scanned := ?_
        unmarked := fun _ unused => absurd unused isUsed }
    · intro r ne
      by_cases here : r = p
      · rw [here, see_self, holds]
        rfl
      · rw [see_ne _ here, see_ne _ ne]
    · intro r old
      rw [isPar] at old
      cases old
      exact .inr own
    · intro qNotInit waiting r _ par
      apply inv.attentive q qNotInit _ r par
      rwa [inv.view_eq sees]
    · intro r view' isThr sees'
      rw [own] at isThr
      cases isThr
      rw [see_self, Option.some.injEq] at sees'
      rw [← sees']
      constructor
      · intro _ r mem par
        by_cases same : r = q
        · rw [same, update_self, Option.some.injEq] at par
          exact absurd par.symm notInit
        · rw [update_of_ne same] at par ⊢
          exact scanned.clean notInit r mem par
      · intro _ r mem par
        by_cases same : r = q
        · rw [same, update_self, Option.some.injEq] at par
          exact absurd par.symm notInit
        rw [update_of_ne same] at par
        rcases mem_cons.mp mem with isNew | old
        · exact absurd isNew same
        · exact scanned.orphaned notInit r old par
      · rintro r ⟨⟩
  · simp
  · simp [death]

/-- The token of a process that has become a zombie. -/
def LifeToken.died (tok : LifeToken Slot) (p : Slot) (view : View Slot) : LifeToken Slot :=
  { tok.see p { view with info := { view.info with state := .zombie } } with original := none }

theorem LifeToken.died_self (tok : LifeToken Slot) (p : Slot) (view : View Slot) :
    (tok.died p view).views p = some { view with info := { view.info with state := .zombie } } :=
  update_self _ _ _

theorem LifeToken.died_ne (tok : LifeToken Slot) {p q : Slot} (ne : q ≠ p)
    (view : View Slot) : (tok.died p view).views q = tok.views q := update_of_ne ne _ _

theorem Life.triple_zombie {above : View Slot} (own : t = .process p)
    (notInit : p ≠ init) (sees : tok.views p = some view) (awake : tok.resuming = false) (running :
    view.info.state = .running) (full : ∀ r, r ∈ view.orphaned) (orig : tok.original = some q)
    (o : q ≠ p) (seesAbove : tok.views q = some above) (woken : ¬above.info.Waiting q) :
    LifeTriple slots init flagged t tok (.zombie p) fun _ out => out = tok.died p view := by
  apply triple_of_execOn (ready_of_ne (by simp))
  · rintro table ts h resp after rfl inv ok onHart ran
    cases ran
    refine ⟨_, ?_, rfl⟩
    have cur := inv.view_eq sees
    have scanned := inv.scanned p view (by rw [← own]; exact sees)
    have childless : ∀ r, (table.procs r).parent ≠ some p :=
      fun r => scanned.orphaned notInit r (full r)
    have procs : (table.die p).procs =
        update table.procs p { view.info with state := .zombie } := by
      rw [ProcTable.die, ProcTable.modify, cur]
    have write : Write init flagged table t (ts t) ((ts t).died p view) p
        view.info { view.info with state := .zombie } :=
      { sees := ⟨view, sees, rfl⟩
        seesAfter := ⟨_, died_self _ _ _, rfl⟩
        others := fun r ne => by rw [died_ne _ ne]
        seat := rfl
        resuming := rfl
        awake := fun _ => awake
        original := .inr rfl
        own := .inl own
        running := by simp
        parent := fun r isPar => .inl isPar
        children := fun r isPar => .inl isPar
        survives := fun _ => .inr ⟨notInit, rfl, own, childless⟩
        kin := fun _ => .inl rfl
        free := by simp
        named := fun _ _ => by
          have has := inv.family.child p notInit (by simp [cur, running])
          rwa [cur] at has
        zombie := by
          intro r _ isPar rNotInit
          obtain ⟨_, par⟩ := inv.originals p q (by rw [← own]; exact orig)
          rw [cur] at par
          have same : r = q := by
            rcases par with isOrig | isInit
            · rw [isOrig] at isPar
              cases isPar
              rfl
            rw [isInit] at isPar
            cases isPar
            exact absurd rfl rNotInit
          refine .inr ⟨?_, same ▸ o, above, same ▸ seesAbove, same ▸ woken⟩
          rw [own, same]
          intro eq
          cases eq
          exact o rfl
        waits := by simp [ProcInfo.Waiting]
        scanned := by
          intro r view' isThr sees'
          rw [own] at isThr
          cases isThr
          rw [died_self, Option.some.injEq] at sees'
          have none : ∀ r, (update table.procs p
              { view.info with state := .zombie } r).parent ≠ some p := by
            intro r
            by_cases same : r = p
            · rw [same, update_self]
              have mine := childless p
              rwa [cur] at mine
            · rw [update_of_ne same]
              exact childless r
          constructor
          · intro _ r _ par
            exact absurd par (none r)
          · intro _ r _
            exact none r
          · intro r isChild
            rw [← sees'] at isChild
            exact absurd (scanned.child r isChild) (childless r)
        unmarked := by simp }
    apply inv.write write procs rfl rfl rfl rfl
    rw [procs]
    constructor
    · intro r
      change (table.deaths ++ [(table.procs p).death p]).filter (·.slot = r) =
        (table.reaps.map Reap.death).filter (·.slot = r) ++ _
      rw [filter_append, inv.accounted.deaths r]
      by_cases same : r = p
      · have notDead : (table.procs p).state ≠ .zombie := by simp [cur, running]
        rw [same, update_self, if_neg notDead, if_pos rfl, cur]
        simp [death]
      · rw [update_of_ne same]
        simp [death, Ne.symm same]
    · exact inv.accounted.reaps
  · rintro table ts h why holds inv ok onHart ⟨⟩

/-! ## Freeing a slot -/

omit [DecidableEq Hart] in
theorem Write.freed {table : ProcTable Slot Hart} {ts : Context Slot Hart → LifeToken Slot}
    (sees : (ts t).views p = some view) (o : t ≠ .process p) (gone : ¬view.info.state.Alive)
    (seesAfter : ∃ view, later.views p = some view ∧ view.info = .freed)
    (others : ∀ q, q ≠ p → (later.views q).map info = ((ts t).views q).map info)
    (seat : later.seat = (ts t).seat) (resuming : later.resuming = (ts t).resuming)
    (orig : later.original = (ts t).original)
    (children : ∀ q, view.info.parent = some q → t = .process q)
    (scanned : ∀ q view, t = .process q → later.views q = some view →
      Scanned init (update table.procs p .freed) q view) :
    Write init flagged table t (ts t) later p view.info .freed where
  sees := ⟨view, sees, rfl⟩
  seesAfter := seesAfter
  others := others
  seat := seat
  resuming := resuming
  awake isOwn := absurd isOwn o
  original := .inl orig
  own := by
    right
    intro running
    rw [running] at gone
    exact absurd alive_running gone
  running := by simp [ProcInfo.freed]
  parent := by simp [ProcInfo.freed]
  children q isParent := .inr (children q isParent)
  survives alive := absurd alive gone
  kin alive := absurd alive gone
  free := by simp [ProcInfo.freed]
  named := by simp [ProcInfo.freed]
  zombie := by simp [ProcInfo.freed]
  waits := by simp [ProcInfo.freed, ProcInfo.Waiting]
  scanned := scanned
  unmarked := fun _ _ => rfl

theorem Life.triple_freeproc (o : t ≠ .process p) (alone : ∀ q, t = .process q → tok.views q = none)
    (sees : tok.views p = some view) (unused : view.info.state = .unused) :
    LifeTriple slots init flagged t tok (.freeproc p none)
      fun _ out => out = tok.see p { view with info := .freed } := by
  apply triple_of_execOn (ready_of_ne (by simp))
  · rintro table ts h resp after rfl inv ok onHart ran
    have off := inv.off_of_view sees o (by simp [unused])
    have cur := inv.view_eq sees
    rw [execOn, if_pos off] at ran
    cases ran
    refine ⟨_, ?_, rfl⟩
    have write : Write init flagged table t (ts t)
        ((ts t).see p { view with info := .freed }) p view.info .freed := by
      apply freed sees o
      · rw [unused]
        exact not_alive_unused
      · exact ⟨_, see_self _ _ _, rfl⟩
      · intro q ne
        rw [see_ne _ ne]
      · rfl
      · rfl
      · rfl
      · intro q isPar
        have held := inv.family.free p q (by rw [cur]; exact unused) (by rw [cur]; exact isPar)
        obtain ⟨_, held⟩ := Option.ne_none_iff_exists'.mp held
        exact inv.view_unique sees held
      · intro q view' isThr sees'
        have ne : q ≠ p := by
          rintro rfl
          exact o isThr
        rw [see_ne _ ne, alone q isThr] at sees'
        cases sees'
    refine inv.write write rfl rfl rfl rfl rfl ?_
    change Accounted _ table.deaths (table.reaps ++ [])
    rw [append_nil]
    apply inv.accounted.update
    · simp [ProcInfo.freed, cur, unused]
    · simp [ProcInfo.freed]
  · rintro table ts h why rfl inv ok onHart ran
    have off := inv.off_of_view sees o (by simp [unused])
    rw [execOn, if_pos off] at ran
    cases ran

theorem Life.triple_reap {res : WaitResult} (own : t = .process p)
    (holds : tok.views p = some mine) (isChild : mine.child = some q) (o : q ≠ p)
    (sees : tok.views q = some view) (dead : view.info.state = .zombie)
    (ret : res.returned = view.info.pid)
    (stored : res.stored = if res.asked then some view.info.xstate else none) :
    LifeTriple slots init flagged t tok (.freeproc q (some res)) fun _ out => out =
        (tok.see q { view with info := .freed }).see p { mine with child := none } := by
  have notOwn := not_own own o
  apply triple_of_execOn (ready_of_ne (by simp))
  · rintro table ts h resp after rfl inv ok onHart ran
    have off := inv.off_of_view sees notOwn (by simp [dead])
    have cur := inv.view_eq sees
    have scanned := inv.scanned p mine (by rw [← own]; exact holds)
    have isPar := scanned.child q isChild
    rw [cur] at isPar
    rw [execOn, if_pos off] at ran
    cases ran
    refine ⟨_, ?_, rfl⟩
    have write : Write init flagged table t (ts t)
        (((ts t).see q { view with info := .freed }).see p { mine with child := none })
        q view.info .freed := by
      apply freed sees notOwn
      · rw [dead]
        exact not_alive_zombie
      · exact ⟨_, by rw [see_ne _ o, see_self], rfl⟩
      · intro r ne
        by_cases here : r = p
        · rw [here, see_self, holds]
          rfl
        · rw [see_ne _ here, see_ne _ ne]
      · rfl
      · rfl
      · rfl
      · intro r par
        rw [isPar] at par
        cases par
        exact own
      · intro r view' isThr sees'
        rw [own] at isThr
        cases isThr
        rw [see_self, Option.some.injEq] at sees'
        rw [← sees']
        constructor
        · intro notInit r mem par
          by_cases same : r = q
          · rw [same, update_self] at par
            cases par
          · rw [update_of_ne same] at par ⊢
            exact scanned.clean notInit r mem par
        · intro notInit r mem par
          by_cases same : r = q
          · rw [same, update_self] at par
            cases par
          · rw [update_of_ne same] at par
            exact scanned.orphaned notInit r mem par
        · rintro r ⟨⟩
    refine inv.write write rfl rfl rfl rfl rfl ?_
    have reaps : (table.free t q (some res)).reaps =
        table.reaps ++ [⟨view.info.death q, view.info.parent, p, res⟩] := by
      rw [own, ProcTable.free, ProcTable.reaping, cur]
    change Accounted (update table.procs q .freed) table.deaths _
    rw [reaps]
    constructor
    · intro r
      rw [inv.accounted.deaths r, map_append, filter_append, append_assoc]
      congr 1
      by_cases same : r = q
      · rw [same, update_self, cur, if_pos dead]
        simp [ProcInfo.death, ProcInfo.freed]
      · rw [update_of_ne same]
        simp [death, Ne.symm same]
    · intro reap mem
      rcases mem_append.mp mem with old | new
      · exact inv.accounted.reaps reap old
      · rw [mem_singleton.mp new]
        exact ⟨isPar, ret, stored⟩
  · rintro table ts h why rfl inv ok onHart ran
    have off := inv.off_of_view sees notOwn (by simp [dead])
    rw [execOn, if_pos off] at ran
    cases ran

/-! ## Locks -/

/-- What a thread sees that has just taken a lock. -/
structure Fresh (t : Context Slot Hart) (tok : LifeToken Slot) (p : Slot)
    (info : ProcInfo Slot) : Prop where
  unseen : tok.views p = none
  own : t = .process p → info.state = .running
  orphan : info.state = .unused → info.parent = none
  child : ∀ q mine, t = .process q → tok.views q = some mine → mine.child = some p →
    info.parent = some q

omit [DecidableEq Hart] in
theorem Fresh.ne (fresh : Fresh t (tok.see p view) q proc) : q ≠ p := by
  rintro rfl
  have unseen := fresh.unseen
  rw [see_self] at unseen
  cases unseen

/-- The view of a thread that has just taken a lock. -/
def View.new (info : ProcInfo Slot) : View Slot := ⟨info, [], [], none⟩

omit [DecidableEq Slot] in
theorem Scanned.new (procs : Slot → ProcInfo Slot) (p : Slot) (info : ProcInfo Slot) :
    Scanned init procs p (new info) where
  clean := by simp [View.new]
  orphaned := by simp [View.new]
  child := by simp [View.new]

section

variable {table : ProcTable Slot Hart} {ts : Context Slot Hart → LifeToken Slot} {h : Hart}

theorem LifeInv.acquire (inv : LifeInv init flagged table ts)
    (unlocked : table.lock p = none) (onHart : table.hart t = some h) : LifeInv
    init flagged (table.setLock p (some h)) (update ts t ((ts t).see p (new (table.procs p)))) := by
  have seats := update_field ts t seat (show ((ts t).see p (new (table.procs p))).seat = _ from rfl)
  have resumes := update_field ts t LifeToken.resuming
    (show ((ts t).see p (new (table.procs p))).resuming = _ from rfl)
  have more : ∀ o q, (ts o).views q ≠ none → (update ts t ((ts t).see p (new (table.procs p)))
        o).views q ≠ none := by
    intro o q sees
    by_cases here : o = t
    · rw [here, update_self]
      by_cases same : q = p
      · rw [same, see_self]
        simp
      · rwa [see_ne _ same, ← here]
    · rwa [update_of_ne here]
  have locks : ∀ q g, table.lock q = some g → (table.setLock p (some h)).lock q = some g := by
    intro q g locked
    have ne : q ≠ p := by
      rintro rfl
      rw [unlocked] at locked
      cases locked
    rw [setLock_ne _ ne, locked]
  refine inv.reframe rfl rfl rfl ?_ ?_ ?_ ?_ rfl
  · constructor
    · exact inv.harts.onHart
    · intro g
      rw [seats]
      exact inv.harts.unseated g
    · intro g q
      rw [seats]
      intro seated
      obtain ⟨cpus, off, sees⟩ := inv.harts.seated g q seated
      exact ⟨cpus, off, more _ q sees⟩
    · intro g q
      rw [seats]
      intro away
      obtain ⟨cpus, there | ⟨off, scheduling, locked⟩⟩ := inv.harts.away g q away
      · exact ⟨cpus, .inl there⟩
      · exact ⟨cpus, .inr ⟨off, scheduling, locks q g locked⟩⟩
    · intro q running off
      simp only [seats]
      exact inv.harts.running q running off
    · intro q g there
      rcases inv.harts.onCpu q g there with running | sees
      · exact .inl running
      · exact .inr (more _ q sees)
    · intro q g there
      rw [resumes]
      intro resuming
      obtain ⟨locked, running⟩ := inv.harts.resume q g there resuming
      exact ⟨locks q g locked, running⟩
  · intro o q view sees
    by_cases here : o = t ∧ q = p
    · obtain ⟨isThr, isSlot⟩ := here
      rw [isThr, update_self, isSlot, see_self] at sees
      cases sees
      rw [isThr, isSlot]
      exact ⟨rfl, h, onHart, update_self _ _ _⟩
    · have old : (ts o).views q = some view := by
        by_cases isThr : o = t
        · have ne : q ≠ p := fun same => here ⟨isThr, same⟩
          rwa [isThr, update_self, see_ne _ ne, ← isThr] at sees
        · rwa [update_of_ne isThr] at sees
      obtain ⟨eq, g, isHart, locked⟩ := inv.seen o q view old
      exact ⟨eq, g, isHart, locks q g locked⟩
  · intro q r isThr unused par
    have sees := more t q (isThr ▸ inv.family.free q r unused par)
    rwa [update_self] at sees
  · intro q view isThr sees
    by_cases same : q = p
    · rw [same, see_self] at sees
      cases sees
      exact Scanned.new _ _ _
    · rw [see_ne _ same] at sees
      exact inv.scanned q view (isThr ▸ sees)

theorem Life.triple_acquire (p : Slot) : LifeTriple slots init flagged
    t tok (.acquire p) fun _ out => ∃ info, Fresh t tok p info ∧ out = tok.see p (new info) := by
  apply triple_of_execOn (ready_of_ne (by simp))
  · rintro table ts h resp after rfl inv ok onHart ran
    cases unlocked : table.lock p with
    | some holder =>
      rw [execOn, unlocked] at ran
      dsimp only at ran
      split at ran <;> cases ran
    | none =>
      rw [execOn, unlocked] at ran
      cases ran
      refine ⟨_, inv.acquire unlocked onHart, table.procs p,
        ⟨inv.view_none unlocked t, ?_, ?_, ?_⟩, rfl⟩
      · intro own
        rw [own] at onHart
        exact (inv.running_iff unlocked).mpr ⟨h, onHart⟩
      · intro unused
        by_contra has
        obtain ⟨q, par⟩ := Option.ne_none_iff_exists'.mp has
        exact inv.family.free p q unused par (inv.view_none unlocked _)
      · intro q mine isThr sees isChild
        exact (inv.scanned q mine (by rw [← isThr]; exact sees)).child p isChild
  · intro table ts h why holds inv ok onHart ran
    rw [execOn] at ran
    split at ran
    · cases ran
    · split at ran <;> cases ran
      exact .inl rfl

theorem LifeInv.release (inv : LifeInv init flagged table ts)
    (onHart : table.hart t = some h) (locked : table.lock p = some h) (seat : (ts t).seat = .none)
    (own : t = .process p → (table.procs p).state = .running)
    (orphan : (table.procs p).state = .unused → (table.procs p).parent = none)
    (gone : later.views p = none) (others : ∀ q, q ≠ p → later.views q = (ts t).views q)
    (sameSeat : later.seat = (ts t).seat) (awake : t = .process p → later.resuming = false)
    (resuming : t ≠ .process p → later.resuming = (ts t).resuming)
    (orig : later.original = (ts t).original) :
    LifeInv init flagged (table.setLock p none) (update ts t later) := by
  have seats := update_field ts t LifeToken.seat sameSeat
  have locks : ∀ q g, q ≠ p → table.lock q = some g → (table.setLock p none).lock q = some g := by
    intro q g ne locked
    rw [setLock_ne _ ne, locked]
  have stays : ∀ o q, o ≠ t ∨ q ≠ p → (update ts t later o).views q = (ts o).views q := by
    intro o q elsewhere
    by_cases here : o = t
    · rcases elsewhere with ne | ne
      · exact absurd here ne
      · rw [here, update_self, others q ne]
    · rw [update_of_ne here]
  have alone : ∀ o view, (ts o).views p = some view → o = t := by
    intro o view sees
    obtain ⟨_, g, isHart, held⟩ := inv.seen o p view sees
    rw [locked] at held
    cases held
    exact inv.harts.hart_inj isHart onHart
  have unseated : ∀ g, (ts (.scheduler g)).seat ≠ .none → .scheduler g ≠ t := by
    intro g busy isThr
    rw [isThr, seat] at busy
    exact busy rfl
  refine inv.reframe rfl rfl rfl ?_ ?_ ?_ ?_ orig
  · constructor
    · exact inv.harts.onHart
    · intro g
      rw [seats]
      exact inv.harts.unseated g
    · intro g q
      rw [seats]
      intro seated
      rw [stays _ _ (.inl (unseated g (by simp [seated])))]
      exact inv.harts.seated g q seated
    · intro g q
      rw [seats]
      intro away
      obtain ⟨cpus, there | ⟨off, scheduling, held⟩⟩ := inv.harts.away g q away
      · exact ⟨cpus, .inl there⟩
      refine ⟨cpus, .inr ⟨off, scheduling, locks q g ?_ held⟩⟩
      rintro rfl
      rw [locked] at held
      cases held
      have isHart : table.hart (.scheduler h) = some h := by rw [hart, if_pos scheduling]
      exact unseated h (by simp [away]) (inv.harts.hart_inj isHart onHart)
    · intro q running off
      simp only [seats]
      exact inv.harts.running q running off
    · intro q g there
      by_cases here : .process q = t ∧ q = p
      · rw [here.2]
        exact .inl (own (by rw [← here.1, here.2]))
      rw [stays]
      · exact inv.harts.onCpu q g there
      · by_cases isThr : .process q = t
        · exact .inr fun same => here ⟨isThr, same⟩
        · exact .inl isThr
    · intro q g there isResuming
      by_cases here : .process q = t
      · rw [here, update_self] at isResuming
        by_cases same : q = p
        · rw [awake (by rw [← here, same])] at isResuming
          cases isResuming
        rw [resuming (by rw [← here]; simpa using same), ← here] at isResuming
        obtain ⟨held, running⟩ := inv.harts.resume q g there isResuming
        exact ⟨locks q g same held, running⟩
      · rw [update_of_ne here] at isResuming
        obtain ⟨held, running⟩ := inv.harts.resume q g there isResuming
        refine ⟨locks q g ?_ held, running⟩
        rintro rfl
        rw [locked] at held
        cases held
        exact here (inv.harts.hart_inj there onHart)
  · intro o q view sees
    have elsewhere : o ≠ t ∨ q ≠ p := by
      by_cases isThr : o = t
      · right
        rintro rfl
        rw [isThr, update_self, gone] at sees
        cases sees
      · exact .inl isThr
    rw [stays o q elsewhere] at sees
    obtain ⟨eq, g, isHart, held⟩ := inv.seen o q view sees
    refine ⟨eq, g, isHart, locks q g ?_ held⟩
    rintro rfl
    rcases elsewhere with ne | ne
    · exact ne (alone o view sees)
    · exact ne rfl
  · intro q r isThr unused par
    have ne : q ≠ p := by
      rintro rfl
      rw [orphan unused] at par
      cases par
    rw [others q ne, isThr]
    exact inv.family.free q r unused par
  · intro q view isThr sees
    have ne : q ≠ p := by
      rintro rfl
      rw [gone] at sees
      cases sees
    rw [others q ne, isThr] at sees
    exact inv.scanned q view sees

theorem Life.triple_release (seat : tok.seat = .none) (sees : tok.views p = some view)
    (own : t = .process p → view.info.state = .running ∧ tok.resuming = false)
    (orphan : view.info.state = .unused → view.info.parent = none) :
    LifeTriple slots init flagged t tok (.release p) fun _ out => out = tok.forget p := by
  apply triple_of_execOn (ready_of_ne (by simp))
  · rintro table ts h resp after rfl inv ok onHart ran
    have locked := inv.lock_eq sees onHart
    have cur := inv.view_eq sees
    rw [execOn, if_pos locked] at ran
    cases ran
    refine ⟨_, ?_, rfl⟩
    apply inv.release onHart locked seat
    · rw [cur]
      exact fun isOwn => (own isOwn).1
    · rwa [cur]
    · exact forget_self _ _
    · exact fun q ne => forget_ne _ ne
    · rfl
    · exact fun isOwn => (own isOwn).2
    · exact fun _ => rfl
    · rfl
  · rintro table ts h why rfl inv ok onHart ran
    rw [execOn, if_pos (inv.lock_eq sees onHart)] at ran
    cases ran

theorem Life.triple_resume (own : t = .process p) (seat : tok.seat = .none)
    (unseen : tok.views p = none) (resuming : tok.resuming = true) :
    LifeTriple slots init flagged t tok (.release p)
      fun _ out => out = { tok with resuming := false } := by
  have resumed : ∀ {table : ProcTable Slot Hart} {ts : Context Slot Hart → LifeToken Slot}
      {h : Hart}, ts t = tok → LifeInv init flagged table ts → table.hart t = some h →
      table.lock p = some h ∧ (table.procs p).state = .running := by
    intro table ts h holds inv onHart
    rw [own] at onHart
    exact inv.harts.resume p h onHart (by rw [← own, holds]; exact resuming)
  apply triple_of_execOn (ready_of_ne (by simp))
  · intro table ts h resp after holds inv ok onHart ran
    obtain ⟨locked, running⟩ := resumed holds inv onHart
    subst holds
    rw [execOn, if_pos locked] at ran
    cases ran
    refine ⟨_, ?_, rfl⟩
    apply inv.release onHart locked seat
    · exact fun _ => running
    · simp [running]
    · exact unseen
    · exact fun _ _ => rfl
    · rfl
    · exact fun _ => rfl
    · exact fun o => absurd own o
    · rfl
  · intro table ts h why holds inv ok onHart ran
    rw [execOn, if_pos (resumed holds inv onHart).1] at ran
    cases ran

/-- The token of a process that has come back and found its slot as it is. -/
def LifeToken.resumed (tok : LifeToken Slot) (p : Slot) (info : ProcInfo Slot) :
    LifeToken Slot :=
  { tok.see p (View.new info) with resuming := false }

theorem LifeToken.resumed_see (tok : LifeToken Slot) (p : Slot) (info info' : ProcInfo Slot) :
    (tok.resumed p info).see p { new info with info := info' } = tok.resumed p info' := by
  rw [resumed, resumed, see, see, see]
  simp only [update_idem]
  rfl

theorem LifeInv.resumed (inv : LifeInv init flagged table ts)
    (onHart : table.cpu p = some h) (locked : table.lock p = some h) : LifeInv
    init flagged table (update ts (.process p) ((ts (.process p)).resumed p (table.procs p))) := by
  have seats := update_field ts (.process p) seat
    (show ((ts (.process p)).resumed p (table.procs p)).seat = _ from rfl)
  have mine : ((ts (.process p)).resumed p (table.procs p)).views p =
    some (new (table.procs p)) := see_self _ _ _
  have schedulers : ∀ g, update ts (.process p)
      ((ts (.process p)).resumed p (table.procs p)) (.scheduler g) = ts (.scheduler g) :=
    fun g => update_of_ne (by simp) _ _
  have elsewhere : ∀ q, q ≠ p → update ts (.process p)
      ((ts (.process p)).resumed p (table.procs p)) (.process q) = ts (.process q) :=
    fun q ne => update_of_ne (by simpa using ne) _ _
  refine inv.reframe rfl rfl rfl ?_ ?_ ?_ ?_ rfl
  · constructor
    · exact inv.harts.onHart
    · simpa only [seats] using inv.harts.unseated
    · simpa only [schedulers] using inv.harts.seated
    · simpa only [seats] using inv.harts.away
    · simpa only [seats] using inv.harts.running
    · intro q g there
      by_cases same : q = p
      · rw [same, update_self, mine]
        exact .inr (by simp)
      · rw [elsewhere q same]
        exact inv.harts.onCpu q g there
    · intro q g there resuming
      by_cases same : q = p
      · rw [same, update_self] at resuming
        cases resuming
      · rw [elsewhere q same] at resuming
        exact inv.harts.resume q g there resuming
  · intro o q seen sees
    by_cases here : o = .process p
    · rw [here, update_self] at sees
      rw [here]
      by_cases same : q = p
      · rw [same, mine] at sees
        cases sees
        rw [same]
        exact ⟨rfl, h, onHart, locked⟩
      · have old : ((ts (.process p)).resumed p (table.procs p)).views q =
          (ts (.process p)).views q := see_ne _ same _
        rw [old] at sees
        exact inv.seen _ q seen sees
    · rw [update_of_ne here] at sees
      exact inv.seen o q seen sees
  · intro q r isThr unused par
    cases isThr
    by_cases same : q = p
    · rw [same, mine]
      simp
    have old : ((ts (.process p)).resumed p (table.procs p)).views q =
      (ts (.process p)).views q := see_ne _ same _
    rw [old]
    exact inv.family.free q p unused par
  · intro q view isThr sees
    cases isThr
    rw [mine] at sees
    cases sees
    exact Scanned.new _ _ _

theorem Life.triple_resume_setChan (own : t = .process p) (resuming : tok.resuming = true)
    (chan : Option (WaitChan Slot)) : LifeTriple slots init flagged t tok
    (.setChan p chan) fun _ out => ∃ info, info.state = .running ∧ out = tok.resumed p info := by
  subst own
  apply Triple.of_token (ready_of_ne (by simp))
  intro table ts holds inv ok
  cases onHart : table.cpu p with
  | none =>
    left
    change exec _ _ _ = _
    rw [exec, hart, onHart]
    rfl
  | some h =>
    subst holds
    obtain ⟨locked, running⟩ := inv.harts.resume p h onHart resuming
    refine .inr ⟨_, inv.resumed onHart locked, ?_⟩
    have sees : ((ts (.process p)).resumed p (table.procs p)).views p =
      some (new (table.procs p)) := see_self _ _ _
    refine Triple.mono (triple_setChan rfl sees rfl ?_ chan) ?_
    · exact running
    · rintro _ _ rfl
      exact ⟨{ table.procs p with chan := chan }, running, resumed_see _ _ _ _⟩

end

/-! ## Reading -/

theorem Life.triple_unchanged
    {post : cmd.Response → LifeToken Slot → Prop} (o : ∀ p, cmd ≠ .launch p)
    (reads : ∀ table ts h resp after, ts t = tok →
      LifeInv init flagged table ts → table.hart t = some h →
      execOn t h cmd table = .ok (resp, after) →
      after.procs = table.procs ∧ after.lock = table.lock ∧ after.cpu = table.cpu ∧
        after.scheduling = table.scheduling ∧ after.cpus = table.cpus ∧
        after.deaths = table.deaths ∧ after.reaps = table.reaps ∧ post resp tok)
    (tolerates : ∀ table h why, execOn t h cmd table ≠ .panic why) :
    LifeTriple slots init flagged t tok cmd post := by
  apply triple_of_execOn (ready_of_ne o)
  · intro table ts h resp after holds inv ok onHart ran
    obtain ⟨procs, lock, cpu, scheduling, cpus, deaths, reaps, sat⟩ :=
      reads table ts h resp after holds inv onHart ran
    refine ⟨tok, ?_, sat⟩
    have same : update ts t tok = ts := by rw [← holds, update_eq_self]
    rw [same]
    have isHart : after.hart = table.hart := by
      funext o
      cases o with
      | process q => simp only [hart, cpu]
      | scheduler g => simp only [hart, scheduling]
    constructor
    · constructor
      · rw [cpu, scheduling, cpus]
        exact inv.harts.onHart
      · rw [cpus]
        exact inv.harts.unseated
      · rw [cpu, cpus]
        exact inv.harts.seated
      · rw [cpu, scheduling, cpus, lock]
        exact inv.harts.away
      · rw [cpu, procs]
        exact inv.harts.running
      · rw [cpu, procs]
        exact inv.harts.onCpu
      · rw [cpu, procs, lock]
        exact inv.harts.resume
    · rw [Seen, procs, lock, isHart]
      exact inv.seen
    · rw [procs]
      exact inv.family
    · rw [procs]
      exact inv.attentive
    · rw [procs]
      exact inv.scanned
    · rw [procs]
      exact inv.originals
    · rw [procs, deaths, reaps]
      exact inv.accounted
    · rw [procs]
      exact inv.unmarked
  · intro table ts h why holds inv ok onHart ran
    exact absurd ran (tolerates table h why)

theorem Life.triple_getProc (sees : tok.views p = some view) : LifeTriple slots init
    flagged t tok (.getProc p) fun (resp : ProcInfo Slot) out => resp = view.info ∧ out = tok := by
  apply triple_unchanged (by simp)
  · rintro table ts h resp after rfl inv _ ran
    cases ran
    exact ⟨rfl, rfl, rfl, rfl, rfl, rfl, rfl, inv.view_eq sees, rfl⟩
  · rintro table h why ⟨⟩

theorem Life.triple_holding (sees : tok.views p = some view) :
    LifeTriple slots init flagged t tok (.holding p) fun _ out => out = tok := by
  apply triple_of_execOn (ready_of_ne (by simp))
  · rintro table ts h resp after rfl inv _ onHart ran
    rw [execOn, if_pos (inv.lock_eq sees onHart)] at ran
    cases ran
    refine ⟨_, ?_, rfl⟩
    rwa [update_eq_self]
  · rintro table ts h why rfl inv _ onHart ran
    rw [execOn, if_pos (inv.lock_eq sees onHart)] at ran
    cases ran

/-- Commands that change nothing the invariant is about. -/
def LifeCommand.aside : LifeCommand Slot → Bool
  | .allocpid | .interrupt _ | .tick _ | .enterWait | .copyout _ => true
  | _ => false

theorem Life.triple_aside (isAside : cmd.aside = true) :
    LifeTriple slots init flagged t tok cmd fun _ out => out = tok := by
  cases cmd with
  | allocpid | interrupt p | tick p | enterWait | copyout status =>
    apply triple_unchanged (by simp)
    · intro table ts h resp after _ _ _ ran
      cases ran
      exact ⟨rfl, rfl, rfl, rfl, rfl, rfl, rfl, rfl⟩
    · rintro table h why ⟨⟩
  | _ => cases isAside

theorem Life.triple_halt : LifeTriple slots init flagged t tok .halt fun _ _ => False := by
  apply triple_unchanged (by simp)
  · rintro table ts h resp after _ _ _ ⟨⟩
  · rintro table h why ⟨⟩

theorem Life.triple_initExiting :
    LifeTriple slots init flagged t tok (.panic .initExiting) fun _ _ => False := by
  apply triple_of_execOn (ready_of_ne (by simp))
  · rintro table ts h resp after _ _ _ _ ⟨⟩
  · intro table ts h why _ _ _ _ ran
    cases ran
    exact .inr rfl

/-- What a process that holds its own lock notes when it has read the parent of a
slot. -/
def View.noted (mine : View Slot) (p q : Slot) (parent : Option Slot) : View Slot :=
  if parent = some p then { mine with child := some q }
  else { mine with clean := q :: mine.clean, orphaned := q :: mine.orphaned }

theorem View.noted_info (mine : View Slot) (p q : Slot) (par : Option Slot) :
    (mine.noted p q par).info = mine.info := by
  rw [noted]
  split <;> rfl

theorem Life.triple_getParent (own : t = .process p) (awake : tok.resuming = false)
    (sees : tok.views p = some mine) (q : Slot) : LifeTriple slots init flagged
    t tok (.getParent q) fun (resp : Option Slot) out => out = tok.see p (mine.noted p q resp) := by
  apply triple_of_execOn (ready_of_ne (by simp))
  · rintro table ts h resp after rfl inv ok onHart ran
    cases ran
    refine ⟨_, ?_, rfl⟩
    have cur := inv.view_eq sees
    have scanned := inv.scanned p mine (by rw [← own]; exact sees)
    have same : table.procs = update table.procs p
        (mine.noted p q (table.procs q).parent).info := by
      rw [noted_info, ← cur, update_eq_self]
    have write : Write init flagged table t (ts t)
        ((ts t).see p (mine.noted p q (table.procs q).parent)) p mine.info
        (mine.noted p q (table.procs q).parent).info := by
      apply plain inv sees (fun _ => awake) (.inl own)
      case scanned =>
        intro _
        rw [← same, noted]
        split
        · next isPar =>
          refine ⟨scanned.clean, scanned.orphaned, ?_⟩
          intro r isChild
          cases isChild
          exact isPar
        · next notPar =>
          refine ⟨?_, ?_, scanned.child⟩
          · intro notInit r mem par
            rcases mem_cons.mp mem with isNew | old
            · rw [isNew] at par
              exact absurd par notPar
            · exact scanned.clean notInit r old par
          · intro notInit r mem
            rcases mem_cons.mp mem with isNew | old
            · rwa [isNew]
            · exact scanned.orphaned notInit r old
      case waits =>
        rw [noted_info, ← cur]
        exact fun notInit waiting r _ => inv.attentive p notInit waiting r
      case unmarked =>
        rw [noted_info, ← cur]
        exact fun isFlagged => inv.unmarked isFlagged p
      all_goals simp +contextual [noted_info]
    refine inv.write write same rfl rfl rfl rfl ?_
    exact inv.accounted
  · rintro table ts h why holds inv ok onHart ⟨⟩

/-- A child that lives is noted in the scan. -/
def View.alive (mine : View Slot) (q : Slot) : View Slot :=
  { mine with clean := q :: mine.clean, child := none }

theorem Life.triple_getProc_child (own : t = .process p) (awake : tok.resuming = false)
    (holds : tok.views p = some mine) (sees : tok.views q = some view) : LifeTriple
    slots init flagged t tok (.getProc q) fun (resp : ProcInfo Slot) out => resp = view.info ∧
    (resp.state = .zombie ∧ out = tok ∨ resp.state ≠ .zombie ∧ out = tok.see p (mine.alive q)) := by
  apply triple_of_execOn (ready_of_ne (by simp))
  · rintro table ts h resp after rfl inv ok onHart ran
    cases ran
    have cur := inv.view_eq holds
    have child := inv.view_eq sees
    by_cases dead : view.info.state = .zombie
    · refine ⟨ts t, ?_, child, .inl ⟨?_, rfl⟩⟩
      · rwa [update_eq_self]
      · rwa [child]
    refine ⟨_, ?_, child, .inr ⟨?_, rfl⟩⟩
    · have scanned := inv.scanned p mine (by rw [← own]; exact holds)
      have same : table.procs = update table.procs p (mine.alive q).info := by
        change table.procs = update table.procs p mine.info
        rw [← cur, update_eq_self]
      have write : Write init flagged table t (ts t)
          ((ts t).see p (mine.alive q)) p mine.info (mine.alive q).info := by
        apply plain inv holds (fun _ => awake) (.inl own)
        case scanned =>
          intro _
          rw [← same]
          refine ⟨?_, scanned.orphaned, by simp [alive]⟩
          intro notInit r mem par
          rcases mem_cons.mp mem with isNew | old
          · rwa [isNew, child]
          · exact scanned.clean notInit r old par
        case waits =>
          intro notInit waiting r _
          exact inv.attentive p notInit (by rw [cur]; exact waiting) r
        case unmarked =>
          intro isFlagged unused
          have flag := inv.unmarked isFlagged p
          rw [cur] at flag
          exact flag unused
        all_goals simp +contextual [alive]
      refine inv.write write same rfl rfl rfl rfl ?_
      exact inv.accounted
    · rwa [child]
  · rintro table ts h why isToken inv ok onHart ⟨⟩

/-- The token of a process whose `exit` has read its parent. -/
def LifeToken.remember (tok : LifeToken Slot) (parent : Option Slot) : LifeToken Slot :=
  { tok with original := parent }

theorem Life.triple_getProc_own (own : t = .process p) (sees : tok.views p = some view)
    (alive : view.info.state.Alive) : LifeTriple slots init flagged t tok (.getProc p) fun (resp :
    ProcInfo Slot) out => resp = view.info ∧
    (p ≠ init → resp.parent ≠ none) ∧ out = tok.remember resp.parent := by
  apply triple_of_execOn (ready_of_ne (by simp))
  · rintro table ts h resp after rfl inv ok onHart ran
    cases ran
    have cur := inv.view_eq sees
    refine ⟨_, ?_, cur, ?_, rfl⟩
    · have views := update_field ts t LifeToken.views
        (show ((ts t).remember (table.procs p).parent).views = _ from rfl)
      have seats := update_field ts t seat
        (show ((ts t).remember (table.procs p).parent).seat = _ from rfl)
      have resumes := update_field ts t resuming
        (show ((ts t).remember (table.procs p).parent).resuming = _ from rfl)
      refine ⟨?_, ?_, ?_, inv.attentive, ?_, ?_, inv.accounted, inv.unmarked⟩
      · constructor
        · exact inv.harts.onHart
        · simpa only [seats] using inv.harts.unseated
        · simpa only [seats, views] using inv.harts.seated
        · simpa only [seats] using inv.harts.away
        · simpa only [seats] using inv.harts.running
        · simpa only [views] using inv.harts.onCpu
        · simpa only [resumes] using inv.harts.resume
      · simpa only [Seen, views] using inv.seen
      · refine ⟨inv.family.parent, inv.family.child, inv.family.init, ?_⟩
        simpa only [views] using inv.family.free
      · simpa only [views] using inv.scanned
      · intro q r orig
        by_cases here : .process q = t
        · rw [here, update_self] at orig
          rw [own] at here
          cases here
          exact ⟨by rw [cur]; exact alive, .inl orig⟩
        · rw [update_of_ne here] at orig
          exact inv.originals q r orig
    · intro notInit
      apply inv.family.child p notInit
      rw [cur]
      exact alive.1
  · rintro table ts h why isToken inv ok onHart ⟨⟩

end

end Xv6
