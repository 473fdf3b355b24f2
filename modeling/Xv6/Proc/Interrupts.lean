import Mathlib.Logic.Function.Basic

/-! # Interrupts and locks

`push_off` and `pop_off` of `spinlock.c` with the context switches of `proc.c`. An `acquire` is
a `push_off`, a `release` a `pop_off`; which lock is meant makes no difference to them. The
scheduler of a hart holds the lock of one process at most. Locks would exclude some of the runs
of this model and add none. -/

namespace Xv6.Interrupts

open Function

/-! ## The program -/

/-- The thread on a hart. The scheduler holds the lock of a process before and after the process
runs, and `forkret` releases it in a new process. -/
inductive Thread (Pid : Type)
  | scheduler
  | locked (p : Pid)
  | forkret (p : Pid)
  | process (p : Pid)

/-- `struct cpu`, and whether interrupts are enabled. -/
structure Hart (Pid : Type) where
  noff : Nat
  intena : Bool
  intr : Bool
  thread : Thread Pid

inductive Panic
  | interruptible
  | popOff

namespace Hart

variable {Pid : Type}

def pushOff (h : Hart Pid) : Hart Pid :=
  let old := h.intr
  let h := { h with intr := false }
  let h := if h.noff = 0 then { h with intena := old } else h
  { h with noff := h.noff + 1 }

def popOff (h : Hart Pid) : Except Panic (Hart Pid) :=
  if h.intr then .error .interruptible
  else if h.noff < 1 then .error .popOff
  else
    let h := { h with noff := h.noff - 1 }
    .ok (if h.noff = 0 ∧ h.intena then { h with intr := true } else h)

theorem pushOff_eq (h : Hart Pid) : h.pushOff =
    { h with
      noff := h.noff + 1, intr := false, intena := if h.noff = 0 then h.intr else h.intena } := by
  rw [pushOff]
  by_cases none : h.noff = 0
  · simp [none]
  · simp [none]

/-- The outermost `pop_off` sets interrupts as `intena` says. -/
theorem popOff_eq {h : Hart Pid} (pos : 0 < h.noff) (off : h.intr = false) : h.popOff =
    .ok { h with noff := h.noff - 1, intr := h.noff == 1 && h.intena } := by
  rw [popOff, off, if_neg (by decide), if_neg (by omega)]
  cases h.intena with
  | false => simp
  | true =>
    by_cases last : h.noff = 1
    · simp [last]
    · simp [last, show ¬h.noff - 1 = 0 by omega]

end Hart

/-- Where a process goes on: at `forkret`, in `sched` with the `intena` kept there, or on a
hart. -/
inductive Context (Cpu : Type)
  | forkret
  | sched (intena : Bool)
  | running (c : Cpu)

/-- A process. The field `pushes` is a record of the run: whether interrupts were enabled at each
`push_off` of the process that has no `pop_off` yet, the outermost last. -/
structure Process (Cpu : Type) where
  context : Context Cpu
  pushes : List Bool

structure Machine (Cpu Pid : Type) where
  harts : Cpu → Hart Pid
  procs : Pid → Process Cpu

section

variable {Cpu Pid : Type} [DecidableEq Cpu] [DecidableEq Pid]

/-- The steps. A process or the scheduler enables and disables interrupts outside of `push_off`
only, traps included; `sched` goes on if its checks pass. A process that exits does not go on. -/
inductive Step (m : Machine Cpu Pid) : Machine Cpu Pid → Prop
  | intr {c} (v : Bool) (out : (m.harts c).noff = 0) :
      Step m { m with harts := update m.harts c { m.harts c with intr := v } }
  | push {c p} (isOn : (m.harts c).thread = .process p) :
      Step m ⟨update m.harts c (m.harts c).pushOff, update m.procs p
        { m.procs p with pushes := (m.harts c).intr :: (m.procs p).pushes }⟩
  | pop {c p v pushes h} (isOn : (m.harts c).thread = .process p)
      (has : (m.procs p).pushes = v :: pushes) (did : (m.harts c).popOff = .ok h) :
      Step m ⟨update m.harts c h, update m.procs p { m.procs p with pushes := pushes }⟩
  | acquire {c} (p : Pid) (isOn : (m.harts c).thread = .scheduler) :
      Step m { m with harts := update m.harts c { (m.harts c).pushOff with thread := .locked p } }
  | release {c p h} (isOn : (m.harts c).thread = .locked p) (did : (m.harts c).popOff = .ok h) :
      Step m { m with harts := update m.harts c { h with thread := .scheduler } }
  | start {c p} (isOn : (m.harts c).thread = .locked p)
      (fresh : (m.procs p).context = .forkret) :
      Step m ⟨update m.harts c { m.harts c with thread := .forkret p },
        update m.procs p { m.procs p with context := .running c }⟩
  | forkret {c p h} (isOn : (m.harts c).thread = .forkret p) (did : (m.harts c).popOff = .ok h) :
      Step m { m with harts := update m.harts c { h with thread := .process p } }
  | sched {c p} (isOn : (m.harts c).thread = .process p) (locks : (m.harts c).noff = 1)
      (off : (m.harts c).intr = false) :
      Step m ⟨update m.harts c { m.harts c with thread := .locked p },
        update m.procs p { m.procs p with context := .sched (m.harts c).intena }⟩
  | resume {c p v} (isOn : (m.harts c).thread = .locked p)
      (kept : (m.procs p).context = .sched v) :
      Step m ⟨update m.harts c { m.harts c with thread := .process p, intena := v },
        update m.procs p { m.procs p with context := .running c }⟩

/-- At boot every hart is in its scheduler. -/
inductive Reached : Machine Cpu Pid → Prop
  | boot (intr intena : Cpu → Bool) :
      Reached ⟨fun c => ⟨0, intena c, intr c, .scheduler⟩, fun _ => ⟨.forkret, []⟩⟩
  | step {m m'} (ran : Reached m) (next : Step m m') : Reached m'

/-! ## The invariant -/

def Thread.pid : Thread Pid → Option Pid
  | scheduler => none
  | locked _ => none
  | forkret p => some p
  | process p => some p

/-- What holds of a hart: `noff` counts the locks of its thread, and `intena` is what the process
saw at its outermost `push_off`. -/
def Hart.Ok (c : Cpu) (procs : Pid → Process Cpu) (h : Hart Pid) : Prop :=
  (0 < h.noff → h.intr = false) ∧
    (∀ p, h.thread.pid = some p → (procs p).context = .running c) ∧
    match h.thread with
    | .scheduler => h.noff = 0
    | .locked _ => h.noff = 1
    | .forkret p => h.noff = 1 ∧ (procs p).pushes = []
    | .process p => h.noff = (procs p).pushes.length ∧
        ∀ v, (procs p).pushes.getLast? = some v → h.intena = v

def Process.Ok (process : Process Cpu) : Prop :=
  match process.context with
  | .forkret => process.pushes = []
  | .sched v => process.pushes = [v]
  | .running _ => True

structure Inv (m : Machine Cpu Pid) : Prop where
  hart : ∀ c, (m.harts c).Ok c m.procs
  process : ∀ p, (m.procs p).Ok

variable {m m' : Machine Cpu Pid} {c : Cpu} {p : Pid} {h : Hart Pid}

omit [DecidableEq Cpu] [DecidableEq Pid] in
theorem Hart.Ok.congr {procs procs' : Pid → Process Cpu} (ok : h.Ok c procs)
    (same : ∀ p, h.thread.pid = some p → procs' p = procs p) : h.Ok c procs' := by
  obtain ⟨off, running, count⟩ := ok
  refine ⟨off, fun p isOn => by rw [same p isOn]; exact running p isOn, ?_⟩
  cases isOn : h.thread with
  | scheduler | locked p => rwa [isOn] at count
  | forkret p | process p =>
    simp only [isOn] at count ⊢
    rwa [same p (by rw [isOn]; rfl)]

/-- A hart and a process that is on no other hart change. -/
theorem Inv.set (inv : Inv m) {process : Process Cpu}
    (free : ∀ c', (m.procs p).context = .running c' → c' = c)
    (hart : h.Ok c (update m.procs p process)) (ok : process.Ok) :
    Inv ⟨update m.harts c h, update m.procs p process⟩ where
  hart c' := by
    dsimp only
    by_cases same : c' = c
    · rwa [same, update_self]
    rw [update_of_ne same]
    refine (inv.hart c').congr fun q isOn => update_of_ne (fun eq => same ?_) _ _
    exact free c' (by rw [← eq, (inv.hart c').2.1 q isOn])
  process := (forall_update_iff _ fun _ => Process.Ok).mpr ⟨ok, fun q _ => inv.process q⟩

omit [DecidableEq Pid] in
theorem Inv.setHart (inv : Inv m) (hart : h.Ok c m.procs) :
    Inv { m with harts := update m.harts c h } :=
  ⟨(forall_update_iff _ fun c => Hart.Ok c m.procs).mpr ⟨hart, fun c _ => inv.hart c⟩, inv.process⟩

theorem Inv.step (inv : Inv m) (next : Step m m') : Inv m' := by
  have onProcess : ∀ {p q : Pid}, (Thread.process p).pid = some q → q = p := by
    rintro p q ⟨⟩
    rfl
  have onHart : ∀ {c c' : Cpu} {p : Pid}, (m.procs p).context = .running c →
      (m.procs p).context = .running c' → c' = c := by
    intro c c' p here there
    rw [here] at there
    cases there
    rfl
  cases next with
  | @intr c v out =>
    exact inv.setHart ⟨fun pos => absurd pos (by rw [out]; decide), (inv.hart c).2⟩
  | @push c p isOn =>
    have ok := inv.hart c
    simp only [Hart.Ok, isOn] at ok
    obtain ⟨off, running, count, outer⟩ := ok
    refine inv.set (fun c' => onHart (running p rfl)) ?_ ?_
    · rw [Hart.pushOff_eq]
      simp only [Hart.Ok, isOn, update_self]
      refine ⟨fun _ => trivial, fun q isOn => ?_, by rw [count, List.length_cons], ?_⟩
      · rw [onProcess isOn, update_self]
        exact running p rfl
      intro v last
      cases pushed : (m.procs p).pushes with
      | nil =>
        rw [pushed] at count last
        rw [if_pos (by rw [count]; rfl)]
        exact Option.some.inj last
      | cons w pushes =>
        rw [pushed] at count last outer
        rw [if_neg (by rw [count]; simp)]
        exact outer v (by simpa using last)
    · rw [Process.Ok, running p rfl]
      trivial
  | @pop c p v pushes h isOn has did =>
    have ok := inv.hart c
    simp only [Hart.Ok, isOn, has] at ok
    obtain ⟨off, running, count, outer⟩ := ok
    rw [List.length_cons] at count
    rw [Hart.popOff_eq (by omega) (off (by omega))] at did
    cases did
    refine inv.set (fun c' => onHart (running p rfl)) ?_ ?_
    · simp only [Hart.Ok, isOn, update_self, count]
      refine ⟨fun pos => ?_, fun q isOn => ?_, rfl, fun v last => ?_⟩
      · rw [beq_eq_false_iff_ne.mpr (by omega), Bool.false_and]
      · rw [onProcess isOn, update_self]
        exact running p rfl
      · exact outer v (by rw [List.getLast?_cons, last]; rfl)
    · rw [Process.Ok, running p rfl]
      trivial
  | @acquire c p isOn =>
    have ok := inv.hart c
    simp only [Hart.Ok, isOn] at ok
    refine inv.setHart ?_
    rw [Hart.pushOff_eq, ok.2.2]
    exact ⟨fun _ => rfl, by rintro q ⟨⟩, rfl⟩
  | @release c p h isOn did =>
    have ok := inv.hart c
    simp only [Hart.Ok, isOn] at ok
    rw [Hart.popOff_eq (by omega) (ok.1 (by omega)), ok.2.2] at did
    cases did
    exact inv.setHart ⟨fun pos => absurd pos (Nat.lt_irrefl 0), by rintro q ⟨⟩, rfl⟩
  | @start c p isOn fresh =>
    have ok := inv.hart c
    have out := inv.process p
    simp only [Hart.Ok, isOn] at ok
    simp only [Process.Ok, fresh] at out
    refine inv.set (fun c' here => by rw [fresh] at here; cases here) ⟨ok.1, ?_, ok.2.2, ?_⟩ trivial
    · rintro q ⟨⟩
      rw [update_self]
    · rw [update_self, out]
  | @forkret c p h isOn did =>
    have ok := inv.hart c
    simp only [Hart.Ok, isOn] at ok
    obtain ⟨off, running, count, none⟩ := ok
    rw [Hart.popOff_eq (by omega) (off (by omega)), count] at did
    cases did
    refine inv.setHart ⟨fun pos => absurd pos (Nat.lt_irrefl 0), running, by rw [none]; rfl, ?_⟩
    rw [none]
    rintro v ⟨⟩
  | @sched c p isOn locks off =>
    have ok := inv.hart c
    simp only [Hart.Ok, isOn] at ok
    obtain ⟨_, running, count, outer⟩ := ok
    obtain ⟨v, pushed⟩ := List.length_eq_one_iff.mp (count.symm.trans locks)
    refine inv.set (fun c' => onHart (running p rfl)) ⟨fun _ => off, by rintro q ⟨⟩, locks⟩ ?_
    change (m.procs p).pushes = [(m.harts c).intena]
    rw [outer v (by rw [pushed]; rfl), pushed]
  | @resume c p v isOn kept =>
    have ok := inv.hart c
    have out := inv.process p
    simp only [Hart.Ok, isOn] at ok
    simp only [Process.Ok, kept] at out
    refine inv.set (fun c' here => by rw [kept] at here; cases here)
      ⟨ok.1, fun q isOn => ?_, ?_⟩ trivial
    · rw [onProcess isOn, update_self]
    · simp only [update_self, out, ok.2.2]
      exact ⟨rfl, fun w last => Option.some.inj last⟩

theorem Reached.inv (ran : Reached m) : Inv m := by
  induction ran with
  | boot intr intena =>
    exact ⟨fun c => ⟨fun pos => absurd pos (Nat.lt_irrefl 0), by rintro p ⟨⟩, rfl⟩, fun p => rfl⟩
  | step ran next ih => exact ih.step next

/-- Interrupts are off wherever `noff` is positive. A `pop_off` of a process that matches a
`push_off` of it does not panic, and the outermost sets interrupts as they were at the outermost
`push_off` of the process. -/
theorem interrupts_follow_process (ran : Reached m) :
    (∀ c, 0 < (m.harts c).noff → (m.harts c).intr = false) ∧
    ∀ c p v pushes, (m.harts c).thread = .process p → (m.procs p).pushes = v :: pushes →
      (m.harts c).noff = pushes.length + 1 ∧
      ∃ h, (m.harts c).popOff = .ok h ∧ (h.noff = 0 → h.intr = v) := by
  have inv := ran.inv
  refine ⟨fun c => (inv.hart c).1, fun c p v pushes isOn has => ?_⟩
  have ok := inv.hart c
  simp only [Hart.Ok, isOn, has] at ok
  obtain ⟨off, running, count, outer⟩ := ok
  rw [List.length_cons] at count
  refine ⟨count, _, Hart.popOff_eq (by omega) (off (by omega)), fun last => ?_⟩
  dsimp only at last
  obtain rfl : pushes = [] := List.length_eq_zero_iff.mp (by omega)
  rw [outer v rfl, count]
  simp

/-- A process with interrupts on goes from the first hart to the second. -/
theorem interrupts_follow_moved_process : ∃ m : Machine Bool Bool, Reached m ∧
    (m.harts true).thread = .process true ∧ (m.procs true).pushes = [true] ∧
    ∃ h, (m.harts true).popOff = .ok h ∧ (h.noff = 0 → h.intr = true) := by
  have ran : @Reached Bool Bool _ _ _ := .boot (fun _ => true) fun _ => true
  have ran := ran.step (.acquire (c := false) true rfl)
  have ran := ran.step (.start (c := false) rfl rfl)
  have ran := ran.step (.forkret (c := false) rfl rfl)
  have ran := ran.step (.push (c := false) rfl)
  have ran := ran.step (.sched (c := false) rfl rfl rfl)
  have ran := ran.step (.intr (c := true) false rfl)
  have ran := ran.step (.acquire (c := true) true rfl)
  have ran := ran.step (.resume (c := true) rfl rfl)
  exact ⟨_, ran, rfl, rfl, ((interrupts_follow_process ran).2 true true true [] rfl rfl).2⟩

end

end Xv6.Interrupts
