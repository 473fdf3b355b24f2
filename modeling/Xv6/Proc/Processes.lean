import Xv6.Proc.LifeProtocol
import Xv6.Proc.WaitReturns

/-! # Every run of processes

What holds in every run of any number of processes and harts: `wait` sleeps over no
dead child, processes form a tree and are reaped once, no process is on two harts, and
what `kill` does to slots in which there is no process. -/

namespace Xv6

open Foundation Function LifeProgram ProcTable Program

section

variable {Slot Hart : Type} [DecidableEq Slot] [DecidableEq Hart] {table : List Slot}
  {init : Slot} {pool : Pool (lifeSystem Hart table init)}

theorem reachable_life (full : ∀ p, p ∈ table)
    (reach : (lifeSystem Hart table init).Reachable (lifeSystem Hart table init).always
    (lifeStart Hart table init) pool) : ∃ ts, (lifeProtocol Hart table init False).Fits pool ts :=
  lifeReachable_fits full (reach.mono fun _ _ _ _ no => no.elim)

theorem not_panics (full : ∀ p, p ∈ table)
    (reach : (lifeSystem Hart table init).Reachable (lifeSystem Hart table init).always
    (lifeStart Hart table init) pool) {why : LifePanic} (notAcquire : why ≠ .acquire)
    (notInit : why ≠ .initExiting) :
    ¬(lifeSystem Hart table init).Panics (lifeSystem Hart table init).always pool why := by
  rintro ⟨t, cmd, next, isCall, _, did⟩
  obtain ⟨ts, fits⟩ := reachable_life full reach
  rcases fits.tolerated ⟨t, cmd, next, isCall, fun no => no.elim, did⟩ with is | is
  · exact notAcquire is
  · exact notInit is

/-- Only `acquire` and the exit of `initproc` ever panic. -/
theorem checks_pass (full : ∀ p, p ∈ table)
    (reach : System.Reachable _ (System.always _) (lifeStart Hart table init) pool) :
    ∀ why, System.Panics _ (System.always _) pool why → why = .acquire ∨ why = .initExiting := by
  intro why panics
  by_contra other
  rw [not_or] at other
  exact not_panics full reach other.1 other.2 panics

/-! ## `wait` and `exit` -/

/-- Whenever the lock of a process other than `initproc` is free and the process sleeps
in `wait`, none of its children is dead; and nobody releases a lock that its hart does not
hold, so that `exit` releases the lock that it has acquired. -/
theorem wait_attentive (complete : ∀ p, p ∈ table)
    (reach : (lifeSystem Hart table init).Reachable (lifeSystem Hart table init).always
      (lifeStart Hart table init) pool) :
    (∀ p, p ≠ init → pool.state.lock p = none → (pool.state.procs p).state = .sleeping →
      (pool.state.procs p).chan = some (.proc p) →
      ∀ q, (pool.state.procs q).parent = some p → (pool.state.procs q).state ≠ .zombie) ∧
    ¬(lifeSystem Hart table init).Panics (lifeSystem Hart table init).always pool .release := by
  obtain ⟨ts, fits⟩ := reachable_life complete reach
  have inv : LifeInv _ _ _ _ := fits.1
  refine ⟨?_, not_panics complete reach (by decide) (by decide)⟩
  intro p notInit _ sleeping chan
  exact inv.attentive p notInit ⟨sleeping, chan⟩

/-- Every process other than `initproc` has a parent that lives. The deaths in a slot, in
order, are those that `wait` has reaped and the one, if any, that it has not, whose number
and status are still in the slot; each was reaped by its parent at the time. A call of `wait`
that has reaped returns the number of the dead process, with its status in memory if there is
an address, and one that has not returns -1. No slot is freed while a hart is on its kernel
stack. -/
theorem process_tree (complete : ∀ p, p ∈ table)
    (reach : (lifeSystem Hart table init).Reachable (lifeSystem Hart table init).always
      (lifeStart Hart table init) pool) : (∀ p, p ≠ init → (pool.state.procs p).state ≠ .unused →
      ∃ q, (pool.state.procs p).parent = some q ∧ (pool.state.procs q).state ≠ .unused ∧
        (pool.state.procs q).state ≠ .zombie) ∧
    Accounted pool.state.procs pool.state.deaths pool.state.reaps ∧
    (∀ p kept asked, pool.threads (.process p) = .done kept → kept.waited = some asked →
      (pool.state.waited p = none → kept.value = -1) ∧
      ∀ reap, pool.state.waited p = some reap → reap ∈ pool.state.reaps ∧ reap.waiter = p ∧
        kept.value = reap.death.pid ∧
        (asked = true → pool.state.memory p = some reap.death.xstate)) ∧
    ¬(lifeSystem Hart table init).Panics (lifeSystem Hart table init).always pool .stackInUse := by
  obtain ⟨ts, fits⟩ := reachable_life complete reach
  have inv : LifeInv _ _ _ _ := fits.1
  obtain ⟨recorded, tells⟩ := Report.wait_tells reach
  refine ⟨?_, inv.accounted, ?_, not_panics complete reach (by decide) (by decide)⟩
  · intro p notInit used
    obtain ⟨q, parent⟩ := Option.ne_none_iff_exists'.mp (inv.family.child p notInit used)
    exact ⟨q, parent, inv.family.parent p q parent⟩
  · intro p kept asked isDone waited
    have told := tells p
    rw [isDone] at told
    replace told := told asked waited
    refine ⟨fun none => ?_, fun reap found => ?_⟩
    · simpa [Report.Tells, report, none] using told
    · obtain ⟨onRecord, waiter⟩ := recorded p reap found
      obtain ⟨_, number, status⟩ := inv.accounted.reaps reap onRecord
      simp only [Report.Tells, report, found] at told
      obtain ⟨value, rfl, stored⟩ := told
      refine ⟨onRecord, waiter, value.trans number, fun asked => ?_⟩
      rw [stored asked, status, if_pos asked]

/-! ## Harts -/

omit [DecidableEq Hart] in
theorem LifeInv.of_cpus {flagged : Prop} {s : ProcTable Slot Hart}
    {ts : Context Slot Hart → LifeToken Slot} (inv : LifeInv init flagged s ts) {p : Slot} {h :
    Hart} (mine : s.cpus h = some p) : s.cpu p = some h ∨ s.cpu p = none ∧ s.lock p = some h := by
  cases seat : (ts (.scheduler h)).seat with
  | none =>
    have unseated := inv.harts.unseated h seat
    rw [mine] at unseated
    cases unseated
  | seated q =>
    obtain ⟨cpus, off, sees⟩ := inv.harts.seated h q seat
    rw [mine] at cpus
    cases cpus
    obtain ⟨_, sees⟩ := Option.ne_none_iff_exists'.mp sees
    obtain ⟨_, g, onHart, locked⟩ := inv.seen _ p _ sees
    rw [(scheduling_of_hart onHart).2] at locked
    exact .inr ⟨off, locked⟩
  | away q =>
    obtain ⟨cpus, rest⟩ := inv.harts.away h q seat
    rw [mine] at cpus
    cases cpus
    exact rest.imp_right fun ⟨off, _, locked⟩ => ⟨off, locked⟩

omit [DecidableEq Hart] in
theorem LifeInv.cpus_inj {flagged : Prop} {s : ProcTable Slot Hart}
    {ts : Context Slot Hart → LifeToken Slot} (inv : LifeInv init flagged s ts)
    {p : Slot} {h g : Hart} (first : s.cpus h = some p) (snd : s.cpus g = some p) : h = g := by
  rcases inv.of_cpus first with here | ⟨off, locked⟩
  · rcases inv.of_cpus snd with there | ⟨off, _⟩
    · rw [here] at there
      cases there
      rfl
    · rw [here] at off
      cases off
  · rcases inv.of_cpus snd with there | ⟨_, lkToo⟩
    · rw [off] at there
      cases there
    rw [locked] at lkToo
    cases lkToo
    rfl

/-- No process is `c->proc` of two harts; while its lock is free it is `RUNNING` when it is
`c->proc` of one; and nobody makes a process `RUNNABLE` whose registers are not saved, or
switches to one that is on a hart. -/
theorem runs_on_one_hart (complete : ∀ p, p ∈ table)
    (reach : (lifeSystem Hart table init).Reachable (lifeSystem Hart table init).always
      (lifeStart Hart table init) pool) :
    (∀ p h g, pool.state.cpus h = some p → pool.state.cpus g = some p → h = g) ∧
    (∀ p, pool.state.lock p = none →
      ((pool.state.procs p).state = .running ↔ ∃! h, pool.state.cpus h = some p)) ∧
    ¬(lifeSystem Hart table init).Panics (lifeSystem Hart table init).always pool .notSaved ∧
    ¬(lifeSystem Hart table init).Panics (lifeSystem Hart table init).always pool .twoHarts := by
  obtain ⟨ts, fits⟩ := reachable_life complete reach
  have inv : LifeInv _ _ _ _ := fits.1
  refine ⟨fun _ _ _ => inv.cpus_inj, ?_, not_panics complete reach (by decide) (by decide),
    not_panics complete reach (by decide) (by decide)⟩
  intro p unlocked
  rw [inv.running_iff unlocked]
  constructor
  · rintro ⟨h, onHart⟩
    have mine := (inv.harts.onHart p h onHart).2
    exact ⟨h, mine, fun g other => inv.cpus_inj other mine⟩
  rintro ⟨h, mine, _⟩
  rcases inv.of_cpus mine with there | ⟨_, locked⟩
  · exact ⟨h, there⟩
  · rw [unlocked] at locked
    cases locked

/-! ## `kill` -/

section

variable {t : Context Slot Hart} {s after : ProcTable Slot Hart}

theorem run_kerneltrap (ran : (kerneltrap t).run (lifeSystem Hart table init).toShared t s =
    .ok ((), after)) : after.procs = s.procs := by
  cases t with
  | scheduler h =>
    cases ran
    rfl
  | process q =>
    obtain ⟨pending, mid, did, ran⟩ := run_command_bind_ok ran
    obtain ⟨h, _, did⟩ := exec_ok did
    cases did
    split at ran
    · obtain ⟨_, _, _, ran⟩ := run_command_bind_ok ran
      obtain ⟨_, _, _, ran⟩ := run_command_bind_ok ran
      obtain ⟨_, _, did, ran⟩ := run_command_bind_ok ran
      obtain ⟨g, _, did⟩ := exec_ok did
      obtain ⟨k, onHart, _⟩ := exec_ok (run_command_ok ran)
      rw [execOn] at did
      split at did
      · cases did
      split at did
      · cases did
      cases did
      rw [hart, leave_cpu] at onHart
      cases onHart
    · cases ran
      rfl

theorem run_acquire {p : Slot} (ran : (acquire t p).run (lifeSystem Hart table init).toShared t s =
    .ok ((), after)) : after.procs = s.procs := by
  obtain ⟨_, mid, trapped, ran⟩ := run_bind_ok ran
  rw [← run_kerneltrap trapped]
  obtain ⟨h, _, did⟩ := exec_ok (run_command_ok ran)
  rw [execOn] at did
  split at did
  · cases did
    rfl
  · split at did <;> cases did

theorem exec_release_procs {p : Slot}
    (did : exec t (.release p) s = .ok ((), after)) : after.procs = s.procs := by
  obtain ⟨h, _, did⟩ := exec_ok did
  rw [execOn] at did
  split at did <;> cases did
  rfl

/-- What `kill` does to the slot that it finds. -/
def ProcInfo.marked (proc : ProcInfo Slot) : ProcInfo Slot :=
  { proc with
    killed := true
    state := if proc.state = .sleeping then .runnable else proc.state }

theorem run_kill (pid : BitVec 32) (list : List Slot) {out : BitVec 32}
    (ran : (kill t pid list).run (lifeSystem Hart table init).toShared t
      s = .ok (out, after)) : match list.find? (fun p => (s.procs p).pid = pid) with
    | none => out = -1 ∧ after.procs = s.procs
    | some p => out = 0 ∧ after.procs = update s.procs p (s.procs p).marked := by
  induction list generalizing s with
  | nil =>
    cases ran
    exact ⟨rfl, rfl⟩
  | cons p rest ih =>
    obtain ⟨_, locked, acquired, ran⟩ := run_bind_ok ran
    obtain ⟨proc, _, did, ran⟩ := run_command_bind_ok ran
    obtain ⟨h, _, did⟩ := exec_ok did
    cases did
    rw [run_acquire acquired] at ran
    split at ran
    · next hit =>
      rw [List.find?_cons_of_pos (by simpa using hit)]
      obtain ⟨_, flagged, did, ran⟩ := run_command_bind_ok ran
      obtain ⟨_, _, did⟩ := exec_ok did
      cases did
      split at ran
      · next sleeping =>
        obtain ⟨_, woken, did, ran⟩ := run_command_bind_ok ran
        obtain ⟨_, _, did⟩ := exec_ok did
        rw [execOn] at did
        split at did
        · cases did
          obtain ⟨_, released, did, ran⟩ := run_command_bind_ok ran
          cases ran
          refine ⟨rfl, (exec_release_procs did).trans ?_⟩
          simp [ProcTable.modify, run_acquire acquired, ProcInfo.marked, sleeping]
        · cases did
      · next awake =>
        obtain ⟨_, released, did, ran⟩ := run_command_bind_ok ran
        cases ran
        refine ⟨rfl, (exec_release_procs did).trans ?_⟩
        simp [ProcTable.modify, run_acquire acquired, ProcInfo.marked, awake]
    · next o =>
      obtain ⟨_, released, did, ran⟩ := run_command_bind_ok ran
      have same := (exec_release_procs did).trans (run_acquire acquired)
      rw [List.find?_cons_of_neg (by simpa using o)]
      have later := ih ran
      rwa [same] at later

/-- While `kill` marks slots of processes that exist, no free slot is marked, and so no
process is marked from its start. A call of `kill` that runs alone returns 0 only for the
number of a process that exists and marks no free slot, exactly when the first slot that
has the number is not free. -/
theorem kill_marks_processes (complete : ∀ p, p ∈ table) :
    (∀ pool, (lifeSystem Hart table init).Reachable ReachesUsed (lifeStart Hart table init) pool →
      Unmarked pool.state.procs ∧ ∀ t p next, pool.threads t = .call (.launch p) next →
        (pool.state.procs p).killed = false) ∧
    ∀ (t : Context Slot Hart) (pid : BitVec 32) (s after : ProcTable Slot Hart)
      (out : BitVec 32), Unmarked s.procs →
      (LifeProgram.kill t pid table).run (lifeSystem Hart table init).toShared t s =
        .ok (out, after) → (((out = 0 → ∃ p, (s.procs p).pid = pid ∧ (s.procs p).state ≠ .unused) ∧
          Unmarked after.procs) ↔ ∀ p, table.find? (fun q => (s.procs q).pid = pid) = some p →
          (s.procs p).state ≠ .unused) := by
  constructor
  · intro pool reach
    have considered : (lifeSystem Hart table init).Reachable
        (lifeProtocol Hart table init True).Allowed (lifeStart Hart table init) pool :=
      reach.mono fun _ _ _ reaches _ => reaches
    obtain ⟨ts, fits⟩ := lifeReachable_fits complete considered
    have inv : LifeInv _ _ _ _ := fits.1
    refine ⟨inv.unmarked trivial, ?_⟩
    intro t p next launches
    obtain ⟨view, sees, unused⟩ := fits.ready launches p rfl
    apply inv.unmarked trivial p
    rwa [inv.view_eq sees]
  · intro t pid s after out unmarked ran
    have outcome := run_kill pid table ran
    cases found : table.find? (fun q => (s.procs q).pid = pid) with
    | none =>
      rw [found] at outcome
      obtain ⟨failed, same⟩ := outcome
      rw [failed, same]
      simp [unmarked]
    | some p =>
      rw [found] at outcome
      obtain ⟨succeeded, marked⟩ := outcome
      have isPid : (s.procs p).pid = pid := by simpa using List.find?_some found
      rw [succeeded, marked]
      constructor
      · rintro ⟨_, still⟩ q isFound unused
        cases isFound
        have flag := still p
        rw [update_self] at flag
        simp [ProcInfo.marked, unused] at flag
      · intro used
        have isUsed := used p rfl
        refine ⟨fun _ => ⟨p, isPid, isUsed⟩, ?_⟩
        intro q unused
        by_cases here : q = p
        · rw [here, update_self] at unused
          simp only [ProcInfo.marked] at unused
          split at unused
          · cases unused
          · exact absurd unused isUsed
        · rw [update_of_ne here] at unused ⊢
          exact unmarked q unused

end

end

/-! ## Sample runs -/

/-- A process table of three slots; the first is that of `initproc`. -/
inductive LifeSlot
  | first
  | shell
  | child
deriving DecidableEq

def lifeSlots : List LifeSlot :=
  [.first, .shell, .child]

theorem mem_lifeSlots (p : LifeSlot) : p ∈ lifeSlots := by cases p <;> decide

/-- A machine with two harts. -/
def lifeBoot : Pool (lifeSystem Bool lifeSlots .first) :=
  lifeStart Bool lifeSlots .first

abbrev LifeEvent :=
  System.Event (Context LifeSlot Bool) (LifeCall LifeSlot)

/-- The hart `false` goes to `initproc`. -/
def firstRuns : List LifeEvent :=
  .start (.scheduler false) .scheduler :: List.replicate 4 (.step (.scheduler false))

/-- `initproc` forks the shell, which forks a child and waits for it. -/
def shellWaits : List LifeEvent :=
  firstRuns ++
  [.start (.process .first) (.fork ⟨true, true, true⟩), .finish (.process .first),
    .start (.scheduler true) .scheduler] ++ List.replicate 7 (.step (.scheduler true)) ++
  [.start (.process .shell) (.fork ⟨true, true, true⟩), .finish (.process .shell),
    .start (.process .shell) (.wait true true 2)] ++
  List.replicate 13 (.step (.process .shell)) ++ List.replicate 2 (.step (.scheduler true))

theorem wait_attentive_shellWaits : ∃ pool, (lifeSystem Bool lifeSlots .first).Reachable
        (lifeSystem Bool lifeSlots .first).always lifeBoot pool ∧
      (pool.state.procs .child).parent = some .shell ∧ pool.state.lock .shell = none ∧
      (pool.state.procs .shell).state = .sleeping ∧
      (pool.state.procs .shell).chan = some (.proc .shell) ∧
      (pool.state.procs .child).state ≠ .zombie ∧
      ¬(lifeSystem Bool lifeSlots .first).Panics (lifeSystem Bool lifeSlots .first).always pool
        .release := by
  have run : (System.replay lifeBoot shellWaits).map
      (fun pool => ((pool.state.procs .child).parent, pool.state.lock .shell,
        (pool.state.procs .shell).state, (pool.state.procs .shell).chan)) =
      some (some .shell, none, .sleeping, some (.proc .shell)) := by
    decide +kernel
  obtain ⟨pool, reach, facts⟩ := System.exists_of_replay run
  simp only [Prod.mk.injEq] at facts
  obtain ⟨parent, free, sleeping, chan⟩ := facts
  obtain ⟨attentive, noPanic⟩ := wait_attentive mem_lifeSlots reach
  exact ⟨pool, reach, parent, free, sleeping, chan,
    attentive .shell (by decide) free sleeping chan .child parent, noPanic⟩

/-- The child exits, and the shell reaps it. -/
def childDies : List LifeEvent :=
  shellWaits ++ List.replicate 4 (.step (.scheduler true)) ++
  [.start (.process .child) (.exit 7), .finish (.process .child), .finish (.scheduler true),
    .start (.scheduler true) .scheduler] ++ List.replicate 7 (.step (.scheduler true)) ++
  [.finish (.process .shell)]

theorem process_tree_childDies : ∃ pool, (lifeSystem Bool lifeSlots .first).Reachable
        (lifeSystem Bool lifeSlots .first).always lifeBoot pool ∧
      pool.state.reaps = [⟨⟨.child, 3, 7⟩, some .shell, .shell, ⟨true, 3, some 7⟩⟩] ∧
      pool.threads (.process .shell) = .done ⟨true, 3, some true⟩ ∧
      pool.state.memory .shell = some 7 ∧
      (∃ q, (pool.state.procs .shell).parent = some q ∧ (pool.state.procs q).state ≠ .unused ∧
        (pool.state.procs q).state ≠ .zombie) ∧
      Accounted pool.state.procs pool.state.deaths pool.state.reaps ∧
      ¬(lifeSystem Bool lifeSlots .first).Panics (lifeSystem Bool lifeSlots .first).always pool
        .stackInUse := by
  have run : (System.replay lifeBoot childDies).map
      (fun pool => (pool.state.reaps, (pool.state.procs .shell).state,
        pool.state.waited .shell, System.valueOf pool (.process .shell))) =
      some ([⟨⟨.child, 3, 7⟩, some .shell, .shell, ⟨true, 3, some 7⟩⟩], .running,
        some ⟨⟨.child, 3, 7⟩, some .shell, .shell, ⟨true, 3, some 7⟩⟩,
        some ⟨true, 3, some true⟩) := by
    decide +kernel
  obtain ⟨pool, reach, facts⟩ := System.exists_of_replay run
  simp only [Prod.mk.injEq] at facts
  obtain ⟨reaps, running, waited, value⟩ := facts
  have isDone := System.done_of_valueOf value
  obtain ⟨tree, accounted, tells, noPanic⟩ := process_tree mem_lifeSlots reach
  obtain ⟨_, _, _, stored⟩ := (tells .shell _ true isDone rfl).2 _ waited
  exact ⟨pool, reach, reaps, isDone, stored rfl, tree .shell (by decide) (by simp [running]),
    accounted, noPanic⟩

/-- Forks, a sleeping parent, an exit and the parent's wakeup pass every check. -/
theorem checks_pass_childDies : ∃ pool, System.Reachable _ (System.always _) lifeBoot pool ∧
    pool.state.deaths.length = 1 ∧ ∀ why, System.Panics _ (System.always _) pool why →
      why = .acquire ∨ why = .initExiting := by
  have run : (System.replay lifeBoot childDies).map (fun pool => pool.state.deaths.length) =
      some 1 := by
    decide +kernel
  obtain ⟨pool, reach, deaths⟩ := System.exists_of_replay run
  exact ⟨pool, reach, deaths, checks_pass mem_lifeSlots reach⟩

theorem runs_on_one_hart_shellWaits : ∃ pool, (lifeSystem Bool lifeSlots .first).Reachable
        (lifeSystem Bool lifeSlots .first).always lifeBoot pool ∧
      pool.state.lock .first = none ∧ (pool.state.procs .first).state = .running ∧
      (∃! h, pool.state.cpus h = some .first) ∧
      ¬(lifeSystem Bool lifeSlots .first).Panics (lifeSystem Bool lifeSlots .first).always pool
        .notSaved := by
  have run : (System.replay lifeBoot shellWaits).map
      (fun pool => (pool.state.lock .first, (pool.state.procs .first).state)) =
      some (none, .running) := by
    decide +kernel
  obtain ⟨pool, reach, facts⟩ := System.exists_of_replay run
  simp only [Prod.mk.injEq] at facts
  obtain ⟨free, running⟩ := facts
  obtain ⟨_, hart, noPanic, _⟩ := runs_on_one_hart mem_lifeSlots reach
  exact ⟨pool, reach, free, running, (hart .first free).mp running, noPanic⟩

/-- The condition of `kill`, as a test. -/
def reachesUsed (_ : Context LifeSlot Bool) (cmd : LifeCommand LifeSlot)
    (s : ProcTable LifeSlot Bool) : Bool :=
  match cmd with
  | .setKilled p => (s.procs p).state ≠ .unused
  | _ => true

theorem reachesUsed_sound {t : Context LifeSlot Bool} {cmd : LifeCommand LifeSlot}
    {s : ProcTable LifeSlot Bool} (reaches : reachesUsed t cmd s = true) : ReachesUsed t cmd s := by
  rintro p rfl
  simpa [reachesUsed] using reaches

theorem kill_marks_processes_firstKills :
    ∃ pool, (lifeSystem Bool lifeSlots .first).Reachable ReachesUsed lifeBoot pool ∧
      (pool.state.procs .first).killed = true ∧ Unmarked pool.state.procs := by
  have run : (System.replayTested reachesUsed lifeBoot (firstRuns ++
      .start (.process .first) (.kill 1) :: List.replicate 6 (.step (.process .first)))).map
      (fun pool => (pool.state.procs .first).killed) = some true := by
    decide +kernel
  obtain ⟨pool, replayed, killed⟩ := Option.map_eq_some_iff.mp run
  have reach := System.Reachable.initial.replayTested
    (fun _ _ _ _ => reachesUsed_sound) _ replayed
  exact ⟨pool, reach, killed, ((kill_marks_processes mem_lifeSlots).1 pool reach).1⟩

/-- `kill(0)` returns 0 although no process has the number 0, and marks a free slot; the
next process in it is marked from its start. -/
theorem kill_marks_free_slot : ∃ pool later, (lifeSystem Bool lifeSlots .first).Reachable
        (lifeSystem Bool lifeSlots .first).always lifeBoot pool ∧
      pool.threads (.process .first) = .done ⟨true, 0, none⟩ ∧
      (pool.state.procs .first).pid = 1 ∧ (pool.state.procs .shell).state = .unused ∧
      (pool.state.procs .child).state = .unused ∧ (pool.state.procs .shell).killed = true ∧
      (lifeSystem Bool lifeSlots .first).Reachable
        (lifeSystem Bool lifeSlots .first).always lifeBoot later ∧
      (later.state.procs .shell).state = .runnable ∧ (later.state.procs .shell).killed = true := by
  have run : ((System.replay lifeBoot (firstRuns ++
      [.start (.process .first) (.kill 0), .finish (.process .first)])).bind fun pool =>
      (System.replay pool
        [.start (.process .first) (.fork ⟨true, true, true⟩), .finish (.process .first)]).map
      fun later => (System.valueOf pool (.process .first), (pool.state.procs .first).pid,
        pool.state.procs .shell, (pool.state.procs .child).state, later.state.procs .shell)) =
      some (some ⟨true, 0, none⟩, 1, { ProcInfo.freed with killed := true }, .unused,
        { ProcInfo.freed with
          state := .runnable, pid := 2, parent := some .first, killed := true }) := by
    decide +kernel
  obtain ⟨pool, replayed, run⟩ := Option.bind_eq_some_iff.mp run
  obtain ⟨later, replayedLater, facts⟩ := Option.map_eq_some_iff.mp run
  simp only [Prod.mk.injEq] at facts
  obtain ⟨value, pid, shell, child, shellLater⟩ := facts
  have reach := System.Reachable.initial.replay _ replayed
  refine ⟨pool, later, reach, System.done_of_valueOf value, pid, ?_, child, ?_,
    reach.replay _ replayedLater, ?_, ?_⟩
  · rw [shell]
    rfl
  · rw [shell]
  · rw [shellLater]
  · rw [shellLater]

end Xv6
