import Xv6.Foundation.Writes
import Mathlib.Data.Set.Basic

/-! # Redo logs

A redo log keeps one header and a row of slots in an area of the store that
nothing else uses. A transaction is first copied to the slots, then listed in
the header, then copied home, and at last struck from the header. Every write
is atomic and a crash keeps a front part of the writes issued so far. -/

namespace Foundation

open Function List

/-- Where a redo log lives and how its header lists the home addresses of one
transaction. `Fits` says which transactions the log has room for. -/
structure RedoLog (Address Value : Type) where
  header : Address
  slot : Nat → Address
  area : Set Address
  Fits : List Address → Prop
  encode : List Address → Value → Value
  decode : Value → Option (List Address)
  header_mem : header ∈ area
  fits_nil : Fits []
  slot_mem : Fits addresses → index < addresses.length → slot index ∈ area
  slot_ne_header : slot index ≠ header
  slot_injective : Function.Injective slot
  decode_encode : Fits addresses →
    decode (encode addresses value) = some addresses

namespace RedoLog

variable {Address Value : Type} (log : RedoLog Address Value)

/-- Copies of the new contents to the slots, from slot `first` on. -/
def stageWrites (new : Address → Value) : Nat → List Address →
    List (Address × Value)
  | _, [] => []
  | first, addr :: rest =>
    (log.slot first, new addr) :: stageWrites new (first + 1) rest

/-- Copies of the new contents to the home addresses. -/
def homeWrites (new : Address → Value) (addresses : List Address) :
    List (Address × Value) :=
  addresses.map fun addr => (addr, new addr)

/-- All writes of a commit. `listed` and `cleared` are the old contents of the
header block over which the two headers are laid. -/
def commitWrites (new : Address → Value) (addresses : List Address)
    (listed cleared : Value) : List (Address × Value) :=
  log.stageWrites new 0 addresses ++
    (log.header, log.encode addresses listed) ::
      (homeWrites new addresses ++ [(log.header, log.encode [] cleared)])

/-- Copies from the slots of `store` to the home addresses, from slot `first` on. -/
def installWrites (store : Address → Value) : Nat → List Address →
    List (Address × Value)
  | _, [] => []
  | first, addr :: rest =>
    (addr, store (log.slot first)) :: installWrites store (first + 1) rest

/-- A recovery procedure, as the writes it issues on a given store, redoes the
listed transaction and then clears the header. Nothing is asked of it on a
store whose header lists a transaction that the log has no room for, or one
with an address in the log area. -/
def Redoes (recover : (Address → Value) → Option (List (Address × Value))) :
    Prop :=
  ∀ store addresses, log.decode (store log.header) = some addresses →
    log.Fits addresses → (∀ addr, addr ∈ addresses → addr ∉ log.area) →
    ∃ cleared, recover store = some
      (log.installWrites store 0 addresses ++
        [(log.header, log.encode [] cleared)])

/-! ## The two kinds of disk a crash can leave -/

/-- No transaction is listed and the store outside the log is `target`. -/
def Settled (target store : Address → Value) : Prop :=
  log.decode (store log.header) = some [] ∧
    ∀ addr, addr ∉ log.area → store addr = target addr

/-- The transaction is listed and its slots hold the new contents; home
addresses may hold anything. -/
def Pending (old new : Address → Value) (addresses : List Address)
    (store : Address → Value) : Prop :=
  log.decode (store log.header) = some addresses ∧
    (∀ index addr, addresses[index]? = some addr →
      store (log.slot index) = new addr) ∧
    ∀ addr, addr ∉ log.area → addr ∉ addresses →
      store addr = old addr

variable {log} {old new store : Address → Value} {addresses : List Address}

theorem mem_stageWrites {first : Nat}
    {write : Address × Value} (mem : write ∈ log.stageWrites new first addresses) :
    ∃ ix addr, addresses[ix]? = some addr ∧ write = (log.slot (first + ix), new addr) := by
  induction addresses generalizing first with
  | nil => cases mem
  | cons head tail ih =>
    rcases mem_cons.mp mem with eq | mem
    · exact ⟨0, head, rfl, eq⟩
    rcases ih mem with ⟨ix, addr, hit, eq⟩
    refine ⟨ix + 1, addr, hit, ?_⟩
    rw [eq, Nat.add_right_comm, Nat.add_assoc]

theorem stageWrites_mem {first ix : Nat} {addr : Address} (hit : addresses[ix]? = some addr) :
    (log.slot (first + ix), new addr) ∈ log.stageWrites new first addresses := by
  induction addresses generalizing first ix with
  | nil => simp at hit
  | cons head tail ih =>
    cases ix with
    | zero =>
      have eq : head = addr := by simpa using hit
      subst eq
      exact mem_cons_self
    | succ ix =>
      apply mem_cons_of_mem
      have later : (log.slot (first + 1 + ix), new addr) ∈
        log.stageWrites new (first + 1) tail := ih hit
      rwa [Nat.add_right_comm, Nat.add_assoc] at later

@[simp] theorem length_stageWrites (first : Nat) :
    (log.stageWrites new first addresses).length = addresses.length := by
  induction addresses generalizing first with
  | nil => rfl
  | cons head tail ih => simp [stageWrites, ih]

@[simp] theorem length_homeWrites : (homeWrites new addresses).length = addresses.length := by
  simp [homeWrites]

/-- The part of a commit up to and including `after` writes past its header. -/
theorem commitWrites_take_header (listed cleared : Value) (after : Nat) :
    (log.commitWrites new addresses listed cleared).take (addresses.length + (after + 1)) =
      log.stageWrites new 0 addresses ++ (log.header, log.encode addresses listed) ::
        (homeWrites new addresses ++ [(log.header, log.encode [] cleared)]).take after := by
  have short : (log.stageWrites new 0 addresses).length ≤ addresses.length + (after + 1) := by
    rw [length_stageWrites]
    omega
  rw [commitWrites, take_append, take_of_length_le short,
    length_stageWrites, Nat.add_sub_cancel_left, take_succ_cons]

theorem stageWrites_take (first count : Nat) : log.stageWrites
    new first (addresses.take count) = (log.stageWrites new first addresses).take count := by
  induction addresses generalizing first count with
  | nil => simp [stageWrites]
  | cons head tail ih =>
    cases count with
    | zero => rfl
    | succ count => simp [stageWrites, ih]

theorem stageWrites_congr {o : Address → Value}
    (first : Nat) (agree : ∀ addr, addr ∈ addresses → new addr = o addr) :
    log.stageWrites new first addresses = log.stageWrites o first addresses := by
  induction addresses generalizing first with
  | nil => rfl
  | cons head tail ih =>
    rw [stageWrites, stageWrites, agree head (by simp), ih _ fun addr mem =>
        agree addr (mem_cons_of_mem _ mem)]

theorem installWrites_congr {o : Address → Value} (first : Nat) (agree :
    ∀ ix, ix < addresses.length → store (log.slot (first + ix)) = o (log.slot (first + ix))) :
    log.installWrites store first addresses = log.installWrites o first addresses := by
  induction addresses generalizing first with
  | nil => rfl
  | cons head tail ih =>
    have headAgree := agree 0 (by simp)
    have tailEqual := ih (first + 1) (by
      intro ix bound
      have later := agree (ix + 1) (by simpa using bound)
      rwa [Nat.add_comm ix 1, ← Nat.add_assoc] at later)
    rw [Nat.add_zero] at headAgree
    rw [installWrites, installWrites, headAgree, tailEqual]

/-- On a store whose slots hold the new contents, recovery issues the very
home writes of the commit. -/
theorem installWrites_eq_homeWrites {first : Nat}
    (staged : ∀ ix addr, addresses[ix]? = some addr → store (log.slot (first + ix)) = new addr) :
    log.installWrites store first addresses = homeWrites new addresses := by
  induction addresses generalizing first with
  | nil => rfl
  | cons head tail ih =>
    have headStaged := staged 0 head rfl
    have tailEqual : log.installWrites store (first + 1) tail = homeWrites new tail := by
      apply ih
      intro ix addr hit
      have later := staged (ix + 1) addr hit
      rwa [Nat.add_comm ix 1, ← Nat.add_assoc] at later
    rw [Nat.add_zero] at headStaged
    rw [installWrites, tailEqual, headStaged]
    rfl

theorem lt_length_of_getElem? {ix : Nat} {addr : Address}
    (hit : addresses[ix]? = some addr) : ix < addresses.length :=
  (List.getElem?_eq_some_iff.mp hit).1

theorem Settled.congr {target : Address → Value} (settled : log.Settled old store)
    (agree : ∀ addr, addr ∉ log.area → old addr = target addr) : log.Settled target store :=
  ⟨settled.1, fun addr outside =>
    (settled.2 addr outside).trans (agree addr outside)⟩

section

variable [DecidableEq Address]

/-- The old store with the transaction applied. -/
def installed (old new : Address → Value) (addresses : List Address) :
    Address → Value :=
  fun addr => if addr ∈ addresses then new addr else old addr

/-- Recovery runs one after another: each number is where a run crashes, and
the run after the last of them completes. -/
def recoverRuns (recover : (Address → Value) → Option (List (Address × Value))) :
    List Nat → (Address → Value) → Option (Address → Value)
  | [], store => (recover store).map fun writes => applyWrites writes store
  | count :: rest, store =>
    (recover store).bind fun writes =>
      recoverRuns recover rest (applyWrites (writes.take count) store)

/-! ## One write -/

theorem Settled.stage {ix : Nat} {v : Value} (settled : log.Settled old store)
    (inArea : log.slot ix ∈ log.area) : log.Settled old (update store (log.slot ix) v) := by
  refine ⟨?_, ?_⟩
  · rw [update_of_ne log.slot_ne_header.symm]
    exact settled.1
  intro addr outside
  have ne : addr ≠ log.slot ix := by
    intro eq
    exact outside (eq ▸ inArea)
  rw [update_of_ne ne]
  exact settled.2 addr outside

theorem Settled.clear {v : Value} (settled : log.Settled old store) :
    log.Settled old (update store log.header (log.encode [] v)) := by
  refine ⟨?_, ?_⟩
  · rw [update_self]
    exact log.decode_encode log.fits_nil
  intro addr outside
  have ne : addr ≠ log.header := by
    intro eq
    exact outside (eq ▸ log.header_mem)
  rw [update_of_ne ne]
  exact settled.2 addr outside

theorem Pending.home {addr : Address} {v : Value} (pending : log.Pending old new addresses store)
    (fits : log.Fits addresses) (mem : addr ∈ addresses) (outside : addr ∉ log.area) :
    log.Pending old new addresses (update store addr v) := by
  rcases pending with ⟨listed, staged, others⟩
  refine ⟨?_, ?_, ?_⟩
  · have ne : log.header ≠ addr := by
      intro eq
      exact outside (eq ▸ log.header_mem)
    rwa [update_of_ne ne]
  · intro ix logged hit
    have ne : log.slot ix ≠ addr := by
      intro eq
      exact outside (eq ▸ log.slot_mem fits (lt_length_of_getElem? hit))
    rw [update_of_ne ne]
    exact staged ix logged hit
  · intro o oOff notListed
    have ne : o ≠ addr := by
      intro eq
      exact notListed (eq ▸ mem)
    rw [update_of_ne ne]
    exact others o oOff notListed

/-! ## Front parts of the writes -/

variable (new) in
/-- Until the header is written, the store outside the log is the old one. -/
theorem Settled.stageWrites_take (settled : log.Settled old store)
    (fits : log.Fits addresses) (count : Nat) :
    log.Settled old (applyWrites ((log.stageWrites new 0 addresses).take count) store) := by
  apply applyWrites_take_preserves _ _ _ _ _ settled
  intro write mem cur h
  rcases mem_stageWrites mem with ⟨ix, addr, hit, rfl⟩
  rw [Nat.zero_add]
  exact h.stage (log.slot_mem fits (lt_length_of_getElem? hit))

/-- Writing the header over a fully staged log makes the transaction pending. -/
theorem Settled.commit (settled : log.Settled old store)
    (fits : log.Fits addresses) (listed : Value) : log.Pending old new addresses
      (update (applyWrites (log.stageWrites new 0 addresses) store)
        log.header (log.encode addresses listed)) := by
  have whole := settled.stageWrites_take new fits addresses.length
  rw [take_of_length_le (by simp)] at whole
  refine ⟨?_, ?_, ?_⟩
  · rw [update_self]
    exact log.decode_encode fits
  · intro ix addr hit
    rw [update_of_ne log.slot_ne_header]
    apply applyWrites_of_written
    · have mem : (log.slot (0 + ix), new addr) ∈
        log.stageWrites new 0 addresses := stageWrites_mem hit
      rwa [Nat.zero_add] at mem
    intro write mem sameSlot
    rcases mem_stageWrites mem with ⟨oIndex, o, oFound, rfl⟩
    have eq := log.slot_injective sameSlot
    rw [Nat.zero_add] at eq
    subst eq
    have sameAddr := oFound.symm.trans hit
    cases sameAddr
    rfl
  · intro addr outside _
    have ne : addr ≠ log.header := by
      intro eq
      exact outside (eq ▸ log.header_mem)
    rw [update_of_ne ne]
    exact whole.2 addr outside

section

variable (pending : log.Pending old new addresses store)
include pending

theorem Pending.homeWrites_take (fits : log.Fits addresses)
    (outside : ∀ addr, addr ∈ addresses → addr ∉ log.area) (count : Nat) :
    log.Pending old new addresses (applyWrites ((homeWrites new addresses).take count) store) := by
  apply applyWrites_take_preserves _ _ _ _ _ pending
  intro write mem cur h
  rcases mem_map.mp mem with ⟨addr, listed, rfl⟩
  exact h.home fits listed (outside addr listed)

/-- Home writes followed by the cleared header finish the transaction. -/
theorem Pending.finish (fits : log.Fits addresses)
    (outside : ∀ addr, addr ∈ addresses → addr ∉ log.area) (cleared : Value) :
    log.Settled (installed old new addresses) (applyWrites (homeWrites new addresses ++
    [(log.header, log.encode [] cleared)]) store) := by
  rw [applyWrites_append, applyWrites_cons, applyWrites_nil]
  have whole := pending.homeWrites_take fits outside addresses.length
  rw [take_of_length_le (by simp)] at whole
  refine ⟨?_, ?_⟩
  · rw [update_self]
    exact log.decode_encode log.fits_nil
  intro addr addrOff
  have ne : addr ≠ log.header := by
    intro eq
    exact addrOff (eq ▸ log.header_mem)
  rw [update_of_ne ne]
  by_cases mem : addr ∈ addresses
  · rw [installed, if_pos mem]
    apply applyWrites_of_written
    · exact mem_map.mpr ⟨addr, mem, rfl⟩
    · intro write writeMember sameAddr
      rcases mem_map.mp writeMember with ⟨o, _, rfl⟩
      exact congrArg new sameAddr
  · rw [installed, if_neg mem]
    exact whole.2.2 addr addrOff mem

/-- Home writes and the cleared header, cut anywhere: the transaction is still
pending, or it is finished. -/
theorem Pending.finish_take
    (fits : log.Fits addresses) (outside : ∀ addr, addr ∈ addresses → addr ∉ log.area)
    (cleared : Value) (count : Nat) : let cut := applyWrites ((homeWrites new addresses ++
      [(log.header, log.encode [] cleared)]).take count) store
    log.Pending old new addresses cut ∨ log.Settled (installed old new addresses) cut := by
  by_cases short : count ≤ (homeWrites new addresses).length
  · left
    rw [take_append_of_le_length short]
    exact pending.homeWrites_take fits outside count
  right
  rw [length_homeWrites] at short
  rw [take_of_length_le (by simp; omega)]
  exact pending.finish fits outside cleared

end

/-! ## Commit and recovery -/

variable (new) in
theorem Settled.commit_all (settled : log.Settled old store) (fits : log.Fits addresses)
    (outside : ∀ addr, addr ∈ addresses → addr ∉ log.area) (listed cleared : Value) :
    log.Settled (installed old new addresses)
    (applyWrites (log.commitWrites new addresses listed cleared) store) := by
  rw [commitWrites, applyWrites_append, applyWrites_cons]
  exact (settled.commit fits listed).finish fits outside cleared

variable (new) in
/-- A commit cut after `count` writes has the transaction listed, or finished,
exactly when its header was among them. -/
theorem Settled.commit_take (settled : log.Settled old store) (fits : log.Fits addresses)
    (outside : ∀ addr, addr ∈ addresses → addr ∉ log.area) (listed cleared : Value) (count : Nat) :
    let cut := applyWrites ((log.commitWrites new addresses listed cleared).take count) store
    if addresses.length < count then
      log.Pending old new addresses cut ∨ log.Settled (installed old new addresses) cut
    else log.Settled old cut := by
  intro cut
  by_cases hdrWrote : addresses.length < count
  · rw [if_pos hdrWrote]
    obtain ⟨after, afterEqual⟩ : ∃ after, count = addresses.length + (after + 1) :=
      ⟨count - addresses.length - 1, by omega⟩
    have cutEqual : cut = applyWrites ((homeWrites new addresses ++
          [(log.header, log.encode [] cleared)]).take after)
        (update (applyWrites (log.stageWrites new 0 addresses) store)
          log.header (log.encode addresses listed)) := by
      simp only [cut, afterEqual]
      rw [commitWrites_take_header, applyWrites_append, applyWrites_cons]
    rw [cutEqual]
    exact (settled.commit fits listed).finish_take fits outside cleared after
  · rw [if_neg hdrWrote]
    simp only [cut, commitWrites]
    rw [take_append_of_le_length (by rw [length_stageWrites]; omega)]
    exact settled.stageWrites_take new fits count

section

variable {recover : (Address → Value) → Option (List (Address × Value))}

/-- Recovering a settled store, any number of times, leaves it settled. -/
theorem Settled.recoverRuns (redoes : log.Redoes recover) (crashes : List Nat)
    (settled : log.Settled old store) :
    ∃ final, recoverRuns recover crashes store = some final ∧ log.Settled old final := by
  induction crashes generalizing store with
  | nil =>
    rcases redoes store [] settled.1 log.fits_nil (by simp) with
      ⟨cleared, issued⟩
    refine ⟨_, by rw [recoverRuns, issued]; rfl, ?_⟩
    exact settled.clear
  | cons count rest ih =>
    rcases redoes store [] settled.1 log.fits_nil (by simp) with
      ⟨cleared, issued⟩
    rw [recoverRuns, issued]
    apply ih
    apply applyWrites_take_preserves _ _ _ _ _ settled
    intro write mem cur h
    rcases mem_singleton.mp mem with rfl
    exact h.clear

/-- Recovering a pending store, any number of times, finishes the transaction. -/
theorem Pending.recoverRuns (redoes : log.Redoes recover) (crashes : List Nat)
    (fits : log.Fits addresses) (outside : ∀ addr, addr ∈ addresses → addr ∉ log.area) (pending :
    log.Pending old new addresses store) : ∃ final, recoverRuns recover crashes store = some final ∧
    log.Settled (installed old new addresses) final := by
  induction crashes generalizing store with
  | nil =>
    rcases redoes store addresses pending.1 fits outside with ⟨cleared, issued⟩
    rw [installWrites_eq_homeWrites (by simpa using pending.2.1)] at issued
    refine ⟨_, by rw [recoverRuns, issued]; rfl, ?_⟩
    exact pending.finish fits outside cleared
  | cons count rest ih =>
    rcases redoes store addresses pending.1 fits outside with ⟨cleared, issued⟩
    rw [installWrites_eq_homeWrites (by simpa using pending.2.1)] at issued
    rw [recoverRuns, issued]
    rcases pending.finish_take fits outside cleared count with
      stillPending | settled
    · exact ih stillPending
    · exact settled.recoverRuns redoes rest

variable (new) in
/-- Crash atomicity: a commit cut after `count` writes and then recovered,
with any number of crashes during recovery, is undone or done as a whole. -/
theorem Settled.crash_atomic (redoes : log.Redoes recover) (crashes : List Nat)
    (settled : log.Settled old store) (fits : log.Fits addresses)
    (outside : ∀ addr, addr ∈ addresses → addr ∉ log.area) (listed cleared : Value) (count : Nat) :
    ∃ final, RedoLog.recoverRuns recover crashes (applyWrites
        ((log.commitWrites new addresses listed cleared).take count) store) = some final ∧
      log.Settled (if addresses.length < count
        then installed old new addresses else old) final := by
  have cut := settled.commit_take new fits outside listed cleared count
  by_cases hdrWrote : addresses.length < count
  · rw [if_pos hdrWrote] at cut ⊢
    rcases cut with pending | finished
    · exact pending.recoverRuns redoes crashes fits outside
    · exact finished.recoverRuns redoes crashes
  · rw [if_neg hdrWrote] at cut ⊢
    exact cut.recoverRuns redoes crashes

end

end

end RedoLog

end Foundation
