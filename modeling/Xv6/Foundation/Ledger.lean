import Mathlib.Algebra.BigOperators.Group.Finset.Basic
import Mathlib.Algebra.Order.BigOperators.Group.Multiset
import Mathlib.Algebra.Order.Group.Nat
import Xv6.Foundation.Pool

/-! # Ledgers

A ledger records which resources the threads of a system hold: references,
locks, obligations. Its invariant relates the shared state to the resources of
all threads together, whoever holds them. A command exchanges some resources
for others whatever else is held, so that a program can be verified from the
resources it needs alone and be used where more is held. -/

open scoped BigOperators

namespace Foundation

open Function Finset Multiset

/-! ## Weights -/

/-- The sum of a measure over a collection of resources. -/
def weigh (measure : Resource → Nat) (held : Multiset Resource) : Nat :=
  (held.map measure).sum

section

variable {Resource : Type} (measure : Resource → Nat)

@[simp] theorem weigh_zero : weigh measure 0 = 0 := rfl

@[simp] theorem weigh_add (left right : Multiset Resource) :
    weigh measure (left + right) = weigh measure left + weigh measure right := by
  simp [weigh]

@[simp] theorem weigh_singleton (res : Resource) : weigh measure {res} = measure res := by
  simp [weigh]

variable {held : Multiset Resource}

theorem le_weigh {res : Resource} (mem : res ∈ held) : measure res ≤ weigh measure held :=
  single_le_sum (fun _ _ => Nat.zero_le _) _ (mem_map_of_mem measure mem)

variable {measure}

theorem exists_of_weigh_pos (pos : 0 < weigh measure held) : ∃ res ∈ held, 0 < measure res := by
  induction held using Multiset.induction_on with
  | empty => simp at pos
  | cons res rest ih =>
    rw [← singleton_add, weigh_add, weigh_singleton] at pos
    by_cases here : 0 < measure res
    · exact ⟨res, mem_cons_self res rest, here⟩
    · rcases ih (by omega) with ⟨o, mem, h⟩
      exact ⟨o, mem_cons_of_mem mem, h⟩

end

/-- The invariant of a system over the resources that its threads hold.
`Allowed` says which steps are considered at all, `Tolerated` which panics are
not excluded, and `idle` what a thread holds between calls. -/
structure Ledger (system : System Thread State Panic Local Call)
    (Resource : Type) where
  Inv : State → Multiset Resource → Prop
  Allowed : Thread → system.Command → State → Prop
  Tolerated : Panic → Prop
  idle : Local → Multiset Resource

namespace Ledger

variable {Thread State Panic Local Call Resource : Type}
  {system : System Thread State Panic Local Call}

/-- A command exchanges the resources `needed` for some that `post` describes,
whatever else is held. -/
def Executes (ledger : Ledger system Resource) (t : Thread)
    (needed : Multiset Resource) (cmd : system.Command)
    (post : system.Response cmd → Multiset Resource → Prop) : Prop :=
  ∀ s frame, ledger.Inv s (frame + needed) →
    ledger.Allowed t cmd s →
    match system.exec t cmd s with
    | .ok out => ∃ later, ledger.Inv out.2 (frame + later) ∧ post out.1 later
    | .blocked => True
    | .panic reason => ledger.Tolerated reason

/-- The usual way to show that a command executes: look at its outcomes. -/
theorem Executes.of_outcomes {ledger : Ledger system Resource} {t : Thread}
    {needed : Multiset Resource} {cmd : system.Command}
    {post : system.Response cmd → Multiset Resource → Prop}
    (keeps : ∀ s frame r s', ledger.Inv s (frame + needed) → ledger.Allowed t cmd s →
      system.exec t cmd s = .ok (r, s') → ∃ later, ledger.Inv s' (frame + later) ∧ post r later)
    (tolerates : ∀ s frame why, ledger.Inv s (frame + needed) → ledger.Allowed t cmd s →
      system.exec t cmd s = .panic why → ledger.Tolerated why) :
    ledger.Executes t needed cmd post := by
  intro s frame inv allowed
  cases ran : system.exec t cmd s with
  | blocked => trivial
  | panic why => exact tolerates s frame why inv allowed ran
  | ok out => exact keeps s frame out.1 out.2 inv allowed ran

/-- The ledger with a property of the shared state besides its invariant. -/
def keeping (ledger : Ledger system Resource) (property : State → Prop) :
    Ledger system Resource :=
  { ledger with Inv := fun s held => ledger.Inv s held ∧ property s }

theorem Executes.keeping {ledger : Ledger system Resource} {property : State → Prop} {t : Thread}
    {needed : Multiset Resource} {cmd : system.Command}
    {post : system.Response cmd → Multiset Resource → Prop}
    (executes : ledger.Executes t needed cmd post)
    (keeps : ∀ s frame r s', ledger.Inv s (frame + needed) → property s →
    system.exec t cmd s = .ok (r, s') → property s') :
    (ledger.keeping property).Executes t needed cmd post := by
  intro s frame inv allowed
  have did := executes s frame inv.1 allowed
  cases ran : system.exec t cmd s with
  | blocked => trivial
  | panic why => rwa [ran] at did
  | ok out =>
    rw [ran] at did
    obtain ⟨later, kept, sat⟩ := did
    exact ⟨later, ⟨kept, keeps s frame out.1 out.2 inv.1 inv.2 ran⟩, sat⟩

variable [Fintype Thread] [DecidableEq Thread]

/-- A ledger as a protocol whose tokens are collections of resources. -/
def protocol (ledger : Ledger system Resource) :
    Protocol system (Multiset Resource) where
  Inv s ts := ledger.Inv s (∑ t, ts t)
  Ready _ _ := True
  Allowed := ledger.Allowed
  Tolerated := ledger.Tolerated
  Idle value held := held = ledger.idle value

/-- A program exchanges the resources `needed` for some that `post` describes,
whatever else its thread holds. -/
def Runs (ledger : Ledger system Resource) (t : Thread)
    (needed : Multiset Resource) (prog : Program system.Command system.Response α)
    (post : α → Multiset Resource → Prop) : Prop :=
  ∀ frame, ledger.protocol.Valid t
    (fun value held => ∃ later, held = frame + later ∧ post value later)
    prog (frame + needed)

/-- Every call takes a thread from what it holds when idle to what it holds
when idle again. -/
def Sound (ledger : Ledger system Resource) : Prop :=
  ∀ t call value, ledger.Runs t (ledger.idle value)
    (system.body t call value) fun later held => held = ledger.idle later

variable {ledger : Ledger system Resource} {t : Thread} {needed extra : Multiset Resource}

theorem Runs.done {post : α → Multiset Resource → Prop} {v : α} (sat : post v needed) :
    ledger.Runs t needed (.done v) post := fun _ => ⟨needed, rfl, sat⟩

theorem sum_update (ts : Thread → Multiset Resource) (held : Multiset Resource) :
    ∑ o, update ts t held o = (∑ o ∈ univ.erase t, ts o) + held := by
  rw [← sum_erase_add univ _ (mem_univ t), update_self]
  congr 1
  apply sum_congr rfl
  intro o mem
  rw [update_of_ne (ne_of_mem_erase mem)]

theorem Runs.command {cmd : system.Command} {post : system.Response cmd → Multiset Resource → Prop}
    (executes : ledger.Executes t needed cmd post) :
    ledger.Runs t needed (Program.command cmd) post := by
  intro frame
  refine ⟨trivial, ?_⟩
  intro s ts h inv allowed
  let others := ∑ o ∈ univ.erase t, ts o
  have split : ∑ o, ts o = others + frame + needed := by
    rw [add_assoc, ← h]
    exact (sum_erase_add univ ts (mem_univ t)).symm
  have inv : ledger.Inv s (others + frame + needed) := split ▸ inv
  have res := executes s (others + frame) inv allowed
  cases ran : system.exec t cmd s with
  | blocked => trivial
  | panic why => rwa [ran] at res
  | ok out =>
    rw [ran] at res
    rcases res with ⟨later, kept, sat⟩
    refine ⟨frame + later, ?_, later, rfl, sat⟩
    change ledger.Inv out.2 (∑ o, update ts t _ o)
    rwa [sum_update, ← add_assoc]

theorem Runs.mono {prog : Program system.Command system.Response α}
    {post wider : α → Multiset Resource → Prop} (runs : ledger.Runs t needed prog post)
    (implies : ∀ v held, post v held → wider v held) : ledger.Runs t needed prog wider := by
  intro frame
  apply (runs frame).mono
  rintro v held ⟨later, split, sat⟩
  exact ⟨later, split, implies v later sat⟩

theorem Runs.frame {prog : Program system.Command system.Response α}
    {post : α → Multiset Resource → Prop}
    (runs : ledger.Runs t needed prog post) (extra : Multiset Resource) :
    ledger.Runs t (extra + needed) prog fun v held =>
    ∃ later, held = extra + later ∧ post v later := by
  intro frame
  rw [← add_assoc]
  apply (runs (frame + extra)).mono
  rintro v held ⟨later, split, sat⟩
  exact ⟨extra + later, by rw [split, add_assoc], later, rfl, sat⟩

theorem Runs.bind {first : Program system.Command system.Response α}
    {snd : α → Program system.Command system.Response β} {mid : α → Multiset Resource → Prop}
    {post : β → Multiset Resource → Prop} (runs : ledger.Runs t needed first mid) (rest : ∀ v held,
    mid v held → ledger.Runs t held (snd v) post) : ledger.Runs t needed (first >>= snd) post := by
  intro frame
  apply Protocol.Valid.bind _ (runs frame)
  rintro v held ⟨later, split, sat⟩
  rw [split]
  exact rest v later sat frame

/-- One part of a program, run with some of the resources at hand. -/
theorem Runs.seq {first : Program system.Command system.Response α}
    {snd : α → Program system.Command system.Response β}
    {mid : α → Multiset Resource → Prop} {post : β → Multiset Resource → Prop}
    (extra : Multiset Resource) (split : held = extra + needed)
    (runs : ledger.Runs t needed first mid) (rest : ∀ v later, mid v later →
    ledger.Runs t (extra + later) (snd v) post) :
    ledger.Runs t held (first >>= snd) post := by
  rw [split]
  apply (runs.frame extra).bind
  rintro v held ⟨later, split, sat⟩
  rw [split]
  exact rest v later sat

theorem Runs.bind_eq {later : Multiset Resource} {first : Program system.Command system.Response α}
    {snd : α → Program system.Command system.Response β} {post : β → Multiset Resource → Prop}
    (runs : ledger.Runs t needed first fun _ held => held = later)
    (rest : ∀ v, ledger.Runs t later (snd v) post) : ledger.Runs t needed (first >>= snd) post := by
  apply runs.bind
  intro v held eq
  rw [eq]
  exact rest v

/-- A first part that uses up some of the resources at hand. -/
theorem Runs.spend {first : Program system.Command system.Response α}
    {snd : α → Program system.Command system.Response β}
    {post : β → Multiset Resource → Prop} (extra : Multiset Resource)
    (split : held = extra + needed) (runs : ledger.Runs t needed first fun _ later => later = 0)
    (rest : ∀ v, ledger.Runs t extra (snd v) post) : ledger.Runs t held (first >>= snd) post := by
  apply Runs.seq extra split runs
  intro v later none
  rw [none, add_zero]
  exact rest v

/-- A first part that leaves exactly `later` besides what it does not need. -/
theorem Runs.seq_eq {later : Multiset Resource} {first : Program system.Command system.Response α}
    {snd : α → Program system.Command system.Response β} {post : β → Multiset Resource → Prop}
    (extra : Multiset Resource) (split : held = extra + needed)
    (runs : ledger.Runs t needed first fun _ kept => kept = later) (rest :
    ∀ v, ledger.Runs t (extra + later) (snd v) post) : ledger.Runs t held (first >>= snd) post := by
  apply Runs.seq extra split runs
  intro v kept eq
  rw [eq]
  exact rest v

/-! ## Soundness -/

/-- What a ledger says of a reachable pool: the invariant holds of what the
threads hold, idle threads hold what they hold when idle, and only tolerated
panics come next. -/
theorem Sound.reachable (sound : ledger.Sound) {s : State} {locals : Thread → Local}
    (inv : ledger.Inv s (∑ t, ledger.idle (locals t))) {pool : Pool system}
    (reach : system.Reachable ledger.Allowed (system.idle s locals) pool) :
    ∃ held : Thread → Multiset Resource, ledger.Inv pool.state (∑ t, held t) ∧
      (∀ t v, pool.threads t = .done v → held t = ledger.idle v) ∧
      ∀ why, system.Panics ledger.Allowed pool why → ledger.Tolerated why := by
  have valid : ledger.protocol.Sound := by
    rintro t call v held rfl
    have runs := sound t call v 0
    rw [zero_add] at runs
    apply runs.mono
    rintro later held ⟨kept, split, eq⟩
    rw [split, zero_add, eq]
    rfl
  have fits : ledger.protocol.Fits (system.idle s locals) fun t => ledger.idle (locals t) :=
    Protocol.Fits.idle inv fun _ => rfl
  rcases Protocol.reachable_fits valid fits reach with ⟨held, fits⟩
  exact ⟨held, fits.1, fun t v isDone => fits.idle_of_done isDone,
    fun why panics => fits.tolerated panics⟩

end Ledger

end Foundation
