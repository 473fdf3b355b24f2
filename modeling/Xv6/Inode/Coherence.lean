import Xv6.Foundation.Ledger
import Xv6.Inode.Cache

/-! # Identity and coherence of the inode cache

At most one entry in use stands for an inode, and an entry that nobody has locked agrees
with the disk. A ledger records the references and locks that the processes hold; what the
holder of a lock has done to the fields so far is part of the record. -/

open scoped BigOperators

namespace Xv6

open Foundation Function InodeCall Multiset
open Ledger.Runs (command seq)
open InodeState (setDisk_disk_of_ne setDisk_disk_self setEntry_entry stored)
open InodeState (exec)

namespace InodeCache

variable {Pid : Type}

/-! ## What is held -/

/-- How far the holder of an entry's lock has come: the lock has just been taken, the
fields agree with the disk, they have been changed, the inode is being freed, or they are
to be loaded again. -/
inductive Phase
  | taken
  | clean
  | dirty
  | cleared
  | invalid

inductive Resource
  | ref (slot : InodeSlot)
  | locked (slot : InodeSlot) (phase : Phase)

/-- Valid fields are those on disk, of an inode that is allocated. -/
def Settled (entry : InodeEntry Pid) (stored : InodeFields) : Prop :=
  entry.valid = true → entry.fields = stored ∧ entry.fields.type ≠ .free

def Phase.Fits (entry : InodeEntry Pid) (stored : InodeFields) : Phase → Prop
  | .taken => Settled entry stored
  | .clean => entry.valid = true ∧ entry.fields = stored ∧ entry.fields.type ≠ .free
  | .dirty => entry.valid = true ∧ entry.fields.HoleFree ∧ entry.fields.type ≠ .free
  | .cleared => entry.fields.HoleFree
  | .invalid => entry.valid = false

namespace Resource

def slot : Resource → InodeSlot
  | .ref slot => slot
  | .locked slot _ => slot

def locks : Resource → Nat
  | .ref _ => 0
  | .locked _ _ => 1

end Resource

/-- Locks come with a reference. -/
def refsTo (held : Multiset Resource) (slot : InodeSlot) : Nat :=
  weigh (fun res => if res.slot = slot then 1 else 0) held

def locksTo (held : Multiset Resource) (slot : InodeSlot) : Nat :=
  weigh (fun res => if res.slot = slot then res.locks else 0) held

section

variable (left right : Multiset Resource) (res : Resource) (slot : InodeSlot)

@[simp] theorem refsTo_add : refsTo (left + right) slot = refsTo left slot + refsTo right slot :=
  weigh_add _ left right

@[simp] theorem refsTo_singleton : refsTo {res} slot = if res.slot = slot then 1 else 0 :=
  weigh_singleton _ res

@[simp] theorem locksTo_add :
    locksTo (left + right) slot = locksTo left slot + locksTo right slot := weigh_add _ left right

@[simp] theorem locksTo_singleton : locksTo {res} slot = if res.slot = slot then res.locks else 0 :=
  weigh_singleton _ res

@[simp] theorem refsTo_ref (o : InodeSlot) : refsTo {.ref slot} o = if slot = o then 1 else 0 :=
  refsTo_singleton _ o

end

theorem locksTo_pos {held : Multiset Resource} {slot : InodeSlot} {phase : Phase}
    (mem : .locked slot phase ∈ held) : 0 < locksTo held slot := by
  have bound := le_weigh (fun res => if res.slot = slot then res.locks else 0) mem
  have one : (if (Resource.locked slot phase).slot = slot then
      (Resource.locked slot phase).locks else 0) = 1 := if_pos rfl
  rwa [one] at bound

theorem exists_of_locksTo_pos {held : Multiset Resource} {slot : InodeSlot}
    (pos : 0 < locksTo held slot) : ∃ phase, .locked slot phase ∈ held := by
  rcases exists_of_weigh_pos pos with ⟨res, mem, counts⟩
  split at counts
  · next same =>
    cases res with
    | ref o => exact absurd counts (lt_irrefl 0)
    | locked o phase =>
      have isSlot : o = slot := same
      exact ⟨phase, isSlot ▸ mem⟩
  · omega

/-! ## The invariant -/

structure Inv (s : InodeState Pid) (held : Multiset Resource) : Prop where
  refs : ∀ slot, (s.entry slot).ref = refsTo held slot
  once : ∀ slot, locksTo held slot ≤ 1
  locked : ∀ slot phase, .locked slot phase ∈ held →
    (s.entry slot).lock ≠ none ∧ phase.Fits (s.entry slot) (s.stored slot)
  settled : ∀ slot, (s.entry slot).lock = none → 0 < (s.entry slot).ref →
    Settled (s.entry slot) (s.stored slot)
  unique : ∀ slot other, 0 < (s.entry slot).ref → 0 < (s.entry other).ref →
    (s.entry slot).dev = (s.entry other).dev →
    (s.entry slot).inum = (s.entry other).inum → slot = other
  holeFree : ∀ dev inum, (s.disk dev inum).HoleFree

section

variable {s after : InodeState Pid} {held frame : Multiset Resource}
  {slot : InodeSlot} {phase later : Phase} {res given : Resource} {entry : InodeEntry Pid}

theorem Inv.ref_pos (inv : Inv s (frame + {res})) : 0 < (s.entry res.slot).ref := by
  rw [inv.refs, refsTo_add, refsTo_singleton, if_pos rfl]
  omega

theorem Inv.alone (inv : Inv s (frame + {.locked slot phase})) : ∀ o, .locked slot o ∉ frame := by
  intro o mem
  have once := inv.once slot
  have counted := locksTo_pos mem
  rw [locksTo_add, locksTo_singleton] at once
  have one : (if (Resource.locked slot phase).slot = slot then
      (Resource.locked slot phase).locks else 0) = 1 := if_pos rfl
  omega

theorem Inv.alone_of_free (inv : Inv s (frame + held))
    (free : (s.entry slot).lock = none) : ∀ o, .locked slot o ∉ frame := by
  intro o mem
  exact (inv.locked slot o (Multiset.mem_add.mpr (.inl mem))).1 free

theorem Inv.exchange (inv : Inv s (frame + {res}))
    (isSlot : res.slot = slot) (isGiven : given.slot = slot)
    (alone : ∀ phase, .locked slot phase ∉ frame)
    (dev : entry.dev = (s.entry slot).dev) (inum : entry.inum = (s.entry slot).inum)
    (ref : entry.ref = (s.entry slot).ref) (here : ∀ phase, given = .locked slot phase →
    entry.lock ≠ none ∧ phase.Fits entry (s.stored slot))
    (settled : entry.lock = none → Settled entry (s.stored slot)) :
    Inv (s.setEntry slot entry) (frame + {given}) := by
  have stored : ∀ o, (s.setEntry slot entry).stored o = s.stored o := by
    intro o
    rw [stored, stored, InodeState.setEntry_disk, setEntry_entry]
    by_cases same : o = slot
    · rw [same, update_self, dev, inum]
    · rw [update_of_ne same]
  have pos : ∀ o, ((s.setEntry slot entry).entry o).ref = (s.entry o).ref := by
    intro o
    rw [setEntry_entry]
    by_cases same : o = slot
    · rw [same, update_self, ref]
    · rw [update_of_ne same]
  refine ⟨?_, ?_, ?_, ?_, ?_, inv.holeFree⟩
  · intro o
    rw [pos, inv.refs, refsTo_add, refsTo_add, refsTo_singleton, refsTo_singleton, isSlot, isGiven]
  · intro o
    rw [locksTo_add, locksTo_singleton, isGiven]
    by_cases same : slot = o
    · have none : locksTo frame o = 0 := by
        by_contra some
        rcases exists_of_locksTo_pos (Nat.pos_of_ne_zero some) with ⟨phase, mem⟩
        exact alone phase (same ▸ mem)
      rw [none, if_pos same]
      cases given with
      | ref _ => exact Nat.zero_le 1
      | locked _ _ => exact Nat.le_refl 1
    · rw [if_neg same]
      have once := inv.once o
      rw [locksTo_add] at once
      omega
  · intro o phase mem
    rw [stored, setEntry_entry]
    by_cases same : o = slot
    · rw [same] at mem ⊢
      rw [update_self]
      rcases Multiset.mem_add.mp mem with inFrame | isHere
      · exact absurd inFrame (alone phase)
      · exact here phase (Multiset.mem_singleton.mp isHere).symm
    · rw [update_of_ne same]
      rcases Multiset.mem_add.mp mem with inFrame | isHere
      · exact inv.locked o phase (Multiset.mem_add.mpr (.inl inFrame))
      · rw [← Multiset.mem_singleton.mp isHere] at isGiven
        exact absurd isGiven same
  · intro o free used
    rw [pos] at used
    rw [stored, setEntry_entry]
    rw [setEntry_entry] at free
    by_cases same : o = slot
    · rw [same, update_self] at free ⊢
      exact settled free
    · rw [update_of_ne same] at free ⊢
      exact inv.settled o free used
  · intro left right usedLeft usedRight sameDev sameInum
    have identity : ∀ o, ((s.setEntry slot entry).entry o).dev =
        (s.entry o).dev ∧ ((s.setEntry slot entry).entry o).inum = (s.entry o).inum := by
      intro o
      rw [setEntry_entry]
      by_cases same : o = slot
      · rw [same, update_self]
        exact ⟨dev, inum⟩
      · rw [update_of_ne same]
        exact ⟨rfl, rfl⟩
    rw [pos] at usedLeft usedRight
    rw [(identity left).1, (identity right).1] at sameDev
    rw [(identity left).2, (identity right).2] at sameInum
    exact inv.unique left right usedLeft usedRight sameDev sameInum

theorem Inv.know (inv : Inv s (frame + {.locked slot phase}))
    (fits : later.Fits (s.entry slot) (s.stored slot)) : Inv s (frame + {.locked slot later}) := by
  have locked := (inv.locked slot phase (by simp)).1
  have same : s.setEntry slot (s.entry slot) = s := by rw [InodeState.setEntry, update_eq_self]
  rw [← same]
  refine inv.exchange rfl rfl inv.alone rfl rfl rfl ?_ ?_
  · intro o isPhase
    cases isPhase
    exact ⟨locked, fits⟩
  · intro free
    exact absurd free locked

theorem Inv.recount (inv : Inv s held) {kept : Multiset Resource} {count : Nat}
    (used : 0 < (s.entry slot).ref)
    (refs : ∀ o, refsTo kept o = if o = slot then count else refsTo held o)
    (once : ∀ o, locksTo kept o ≤ locksTo held o)
    (locked : ∀ o phase, .locked o phase ∈ kept → .locked o phase ∈ held) :
    Inv (s.setEntry slot { s.entry slot with ref := count }) kept := by
  have same : ∀ o, ∃ refs, (s.setEntry slot
      { s.entry slot with ref := count }).entry o =
        { s.entry o with ref := refs } ∧ (0 < refs → 0 < (s.entry o).ref) := by
    intro o
    rw [setEntry_entry]
    by_cases here : o = slot
    · rw [here, update_self]
      exact ⟨count, rfl, fun _ => used⟩
    · rw [update_of_ne here]
      exact ⟨_, rfl, fun pos => pos⟩
  have stored : ∀ o, (s.setEntry slot
      { s.entry slot with ref := count }).stored o = s.stored o := by
    intro o
    rcases same o with ⟨_, eq, _⟩
    rw [stored, eq]
    rfl
  refine ⟨?_, ?_, ?_, ?_, ?_, inv.holeFree⟩
  · intro o
    rw [refs, setEntry_entry]
    split
    · next here => rw [here, update_self]
    · next here => rw [update_of_ne here, inv.refs]
  · intro o
    exact le_trans (once o) (inv.once o)
  · intro o phase mem
    have fits := inv.locked o phase (locked o phase mem)
    rcases same o with ⟨_, eq, _⟩
    rw [stored, eq]
    refine ⟨fits.1, ?_⟩
    cases phase with
    | taken | clean | dirty | cleared | invalid => exact fits.2
  · intro o free pos
    rcases same o with ⟨_, eq, was⟩
    rw [stored]
    rw [eq] at free pos ⊢
    exact inv.settled o free (was pos)
  · intro left right usedLeft usedRight sameDev sameInum
    rcases same left with ⟨_, equalLeft, wasLeft⟩
    rcases same right with ⟨_, equalRight, wasRight⟩
    rw [equalLeft] at usedLeft sameDev sameInum
    rw [equalRight] at usedRight sameDev sameInum
    exact inv.unique left right (wasLeft usedLeft) (wasRight usedRight) sameDev sameInum

theorem Inv.gain (inv : Inv s held) (used : 0 < (s.entry slot).ref) :
    Inv (s.setEntry slot { s.entry slot with ref := (s.entry slot).ref + 1 })
      (held + {.ref slot}) := by
  apply inv.recount used
  · intro o
    rw [refsTo_add, refsTo_ref]
    by_cases here : o = slot
    · rw [if_pos here, here, inv.refs, if_pos rfl]
    · rw [if_neg here, if_neg fun same => here same.symm, add_zero]
  · intro o
    rw [locksTo_add, locksTo_singleton]
    split <;> exact le_rfl
  · intro o phase mem
    rcases Multiset.mem_add.mp mem with inHeld | isRef
    · exact inHeld
    · cases Multiset.mem_singleton.mp isRef

theorem Inv.drop (inv : Inv s (frame + {.ref slot})) :
    Inv (s.setEntry slot { s.entry slot with ref := (s.entry slot).ref - 1 }) frame := by
  have used : 0 < (s.entry slot).ref := inv.ref_pos
  apply inv.recount used
  · intro o
    rw [refsTo_add, refsTo_ref]
    by_cases here : o = slot
    · rw [if_pos here, here, inv.refs, refsTo_add, refsTo_ref, if_pos rfl, Nat.add_sub_cancel]
    · rw [if_neg here, if_neg fun same => here same.symm, add_zero]
  · intro o
    rw [locksTo_add]
    exact Nat.le_add_right _ _
  · intro o phase mem
    exact Multiset.mem_add.mpr (.inl mem)

theorem Inv.recycle (inv : Inv s held) {dev inum : Nat} (unused : (s.entry slot).ref = 0)
    (lost : ∀ o, 0 < (s.entry o).ref → ¬((s.entry o).dev = dev ∧ (s.entry o).inum = inum)) :
    Inv (s.setEntry slot
      { s.entry slot with dev := dev, inum := inum, ref := 1, valid := false })
      (held + {.ref slot}) := by
  have others : ∀ o, o ≠ slot → (s.setEntry slot
      { s.entry slot with dev := dev, inum := inum, ref := 1, valid := false }).entry o =
        s.entry o := by
    intro o here
    rw [setEntry_entry, update_of_ne here]
  have stored : ∀ o, o ≠ slot → (s.setEntry slot
      { s.entry slot with dev := dev, inum := inum, ref := 1, valid := false }).stored o =
        s.stored o := by
    intro o here
    rw [stored, others o here]
    rfl
  have notHere : ∀ phase, .locked slot phase ∉ held := by
    intro phase mem
    have counted := le_weigh (fun res => if res.slot = slot then 1 else 0) mem
    have one : (if (Resource.locked slot phase).slot = slot then 1 else 0) = 1 := if_pos rfl
    have none := inv.refs slot
    rw [unused] at none
    rw [one] at counted
    have total : weigh (fun res => if res.slot = slot then 1 else 0) held = 0 := none.symm
    omega
  refine ⟨?_, ?_, ?_, ?_, ?_, inv.holeFree⟩
  · intro o
    rw [refsTo_add, refsTo_ref]
    by_cases here : o = slot
    · rw [here, ← inv.refs, unused, setEntry_entry, update_self, if_pos rfl]
    · rw [others o here, inv.refs, if_neg fun same => here same.symm, add_zero]
  · intro o
    rw [locksTo_add, locksTo_singleton]
    have once := inv.once o
    split <;> exact once
  · intro o phase mem
    rcases Multiset.mem_add.mp mem with inHeld | isRef
    · have here : o ≠ slot := by
        intro same
        exact notHere phase (same ▸ inHeld)
      rw [others o here, stored o here]
      exact inv.locked o phase inHeld
    · cases Multiset.mem_singleton.mp isRef
  · intro o free used
    by_cases here : o = slot
    · rw [here, setEntry_entry, update_self]
      rintro ⟨⟩
    rw [others o here] at free used
    rw [others o here, stored o here]
    exact inv.settled o free used
  · -- Only the recycled entry stands for the inode.
    intro left right usedLeft usedRight sameDev sameInum
    by_cases isLeft : left = slot
    · by_cases isRight : right = slot
      · rw [isLeft, isRight]
      rw [others right isRight] at usedRight sameDev sameInum
      rw [isLeft, setEntry_entry, update_self] at sameDev sameInum
      exact absurd ⟨sameDev.symm, sameInum.symm⟩ (lost right usedRight)
    · rw [others left isLeft] at usedLeft sameDev sameInum
      by_cases isRight : right = slot
      · rw [isRight, setEntry_entry, update_self] at sameDev sameInum
        exact absurd ⟨sameDev, sameInum⟩ (lost left usedLeft)
      · rw [others right isRight] at usedRight sameDev sameInum
        exact inv.unique left right usedLeft usedRight sameDev sameInum

theorem Inv.update (inv : Inv s (frame + {.locked slot phase})) {fields : InodeFields}
    (holeFree : fields.HoleFree) (fits : later.Fits (s.entry slot) fields) : Inv
    (s.setDisk (s.entry slot).dev (s.entry slot).inum fields) (frame + {.locked slot later}) := by
  have used : 0 < (s.entry slot).ref := inv.ref_pos
  have locked := (inv.locked slot phase (by simp)).1
  have here : (s.setDisk (s.entry slot).dev (s.entry slot).inum fields).stored slot = fields :=
    setDisk_disk_self s _ _ fields
  have stored : ∀ o, o ≠ slot → 0 < (s.entry o).ref →
      (s.setDisk (s.entry slot).dev (s.entry slot).inum fields).stored o = s.stored o := by
    intro o ne usedO
    apply setDisk_disk_of_ne
    intro same
    exact ne (inv.unique o slot usedO used same.1 same.2)
  refine ⟨?_, ?_, ?_, ?_, inv.unique, ?_⟩
  · intro o
    have refs := inv.refs o
    rw [refsTo_add, refsTo_singleton] at refs ⊢
    exact refs
  · intro o
    have once := inv.once o
    rw [locksTo_add, locksTo_singleton] at once ⊢
    exact once
  · intro o phase mem
    rcases Multiset.mem_add.mp mem with inFrame | isHere
    · have ne : o ≠ slot := by
        intro same
        exact inv.alone phase (same ▸ inFrame)
      have h := inv.locked o phase (Multiset.mem_add.mpr (.inl inFrame))
      have usedO : 0 < (s.entry o).ref := by
        have counted := le_weigh (fun res => if res.slot = o then 1 else 0) inFrame
        have one : (if (Resource.locked o phase).slot = o then 1 else 0) = 1 := if_pos rfl
        rw [one] at counted
        rw [inv.refs, refsTo_add]
        exact lt_of_lt_of_le counted (Nat.le_add_right _ _)
      rwa [stored o ne usedO]
    · cases Multiset.mem_singleton.mp isHere
      rw [here]
      exact ⟨locked, fits⟩
  · intro o free usedO
    have ne : o ≠ slot := by
      intro same
      rw [same] at free
      exact locked free
    rw [stored o ne usedO]
    exact inv.settled o free usedO
  · intro dev inum
    by_cases same : dev = (s.entry slot).dev ∧ inum = (s.entry slot).inum
    · rwa [same.1, same.2, setDisk_disk_self]
    · rw [setDisk_disk_of_ne s fields same]
      exact inv.holeFree dev inum

theorem Settled.mark {stored o : InodeFields} (settled : Settled entry stored)
    (isFree : stored.type = .free) : Settled entry o := by
  intro isValid
  have h := settled isValid
  rw [h.1] at h
  exact absurd isFree h.2

theorem Phase.Fits.mark {stored o : InodeFields} (fits : phase.Fits entry stored)
    (isFree : stored.type = .free) : phase.Fits entry o := by
  cases phase with
  | taken => exact Settled.mark fits isFree
  | clean =>
    have h := fits.2
    rw [h.1] at h
    exact absurd isFree h.2
  | dirty | cleared | invalid => exact fits

theorem Inv.mark (inv : Inv s held) {dev inum : Nat} {fields : InodeFields}
    (isFree : (s.disk dev inum).type = .free) (holeFree : fields.HoleFree) :
    Inv (s.setDisk dev inum fields) held := by
  have stored : ∀ slot, (s.setDisk dev inum fields).stored slot = s.stored slot ∨
      (s.stored slot).type = .free := by
    intro slot
    by_cases same : (s.entry slot).dev = dev ∧ (s.entry slot).inum = inum
    · right
      rwa [stored, same.1, same.2]
    · left
      exact setDisk_disk_of_ne s fields same
  refine ⟨inv.refs, inv.once, ?_, ?_, inv.unique, ?_⟩
  · intro slot phase mem
    have h := inv.locked slot phase mem
    refine ⟨h.1, ?_⟩
    rcases stored slot with same | wasFree
    · rw [same]
      exact h.2
    · exact h.2.mark wasFree
  · intro slot free used
    have h := inv.settled slot free used
    rcases stored slot with same | wasFree
    · rwa [same]
    · exact h.mark wasFree
  · intro oDev oInum
    by_cases same : oDev = dev ∧ oInum = inum
    · rwa [same.1, same.2, setDisk_disk_self]
    · rw [setDisk_disk_of_ne s fields same]
      exact inv.holeFree oDev oInum

end

/-! ## Steps -/

/-- Between operations the inodes that a process has locked agree with the disk. -/
def idle (holder : InodeHolder) : Multiset Resource :=
  (holder.refs.map .ref : List Resource) +
    (holder.locked.map (.locked · .clean) : List Resource)

variable (Pid) [DecidableEq Pid]

def ledger (ninodes : Nat) : Ledger (inodeSystem Pid ninodes) Resource where
  Inv := Inv
  Allowed _ _ _ := True
  Tolerated _ := True
  idle := idle

section

variable {Pid} {ninodes : Nat} {p : Pid} {slot : InodeSlot}

theorem executes_of_ok {need : Multiset Resource}
    {cmd : InodeCommand} {post : cmd.Response → Multiset Resource → Prop}
    (keeps : ∀ s frame r after, Inv s (frame + need) → exec p cmd s = .ok (r, after) → ∃ later,
    Inv after (frame + later) ∧ post r later) : (ledger Pid ninodes).Executes p need cmd post := by
  apply Ledger.Executes.of_outcomes
  · intro s frame r after inv _ did
    exact keeps s frame r after inv did
  · intro _ _ _ _ _ _
    trivial

omit [DecidableEq Pid] in
theorem lookup_some {s : InodeState Pid} {dev inum : Nat}
    (hit : s.lookup dev inum = some slot) : 0 < (s.entry slot).ref := by
  have h := List.find?_some hit
  simp only [decide_eq_true_eq] at h
  exact h.1

omit [DecidableEq Pid] in
theorem lookup_none {s : InodeState Pid} {dev inum : Nat}
    (lost : s.lookup dev inum = none) (o : InodeSlot) (used : 0 < (s.entry o).ref) :
    ¬((s.entry o).dev = dev ∧ (s.entry o).inum = inum) := by
  intro same
  have fails := List.find?_eq_none.mp lost o (List.mem_finRange o)
  simp only [decide_eq_true_eq] at fails
  exact fails ⟨used, same⟩

theorem executes_iget {dev inum : Nat} : (ledger Pid ninodes).Executes
    p 0 (.iget dev inum) fun (slot : InodeSlot) held => held = {.ref slot} := by
  apply executes_of_ok
  intro s frame r after inv did
  rw [add_zero] at inv
  rw [exec] at did
  split at did
  · next slot hit =>
    have used := lookup_some hit
    cases did
    exact ⟨_, inv.gain used, rfl⟩
  · next lost =>
    split at did
    · cases did
    next slot free =>
    have unused : (s.entry slot).ref = 0 := by
      have h := List.find?_some free
      simpa using h
    cases did
    exact ⟨_, inv.recycle unused (lookup_none lost), rfl⟩

theorem executes_idup : (ledger Pid ninodes).Executes
    p {.ref slot} (.idup slot) fun _ held => held = {.ref slot} + {.ref slot} := by
  apply executes_of_ok
  intro s frame r after inv did
  cases did
  refine ⟨_, ?_, rfl⟩
  rw [← add_assoc]
  exact inv.gain inv.ref_pos

theorem executes_acquire : (ledger Pid ninodes).Executes
    p {.ref slot} (.acquire slot) fun _ held => held = {.locked slot .taken} := by
  apply executes_of_ok
  intro s frame r after inv did
  rw [exec] at did
  split at did
  · cases did
  split at did
  · cases did
  next free =>
  cases did
  have settled := inv.settled slot free inv.ref_pos
  refine ⟨_, ?_, rfl⟩
  refine inv.exchange rfl rfl (inv.alone_of_free free) rfl rfl rfl ?_ ?_
  · intro phase isPhase
    cases isPhase
    exact ⟨by simp, settled⟩
  · rintro ⟨⟩

theorem executes_valid : (ledger Pid ninodes).Executes p {.locked slot .taken} (.valid slot)
    fun (valid : Bool) held => held = {.locked slot (if valid then .clean else .invalid)} := by
  apply executes_of_ok
  intro s frame r after inv did
  have h := inv.locked slot .taken (by simp)
  cases did
  refine ⟨_, inv.know ?_, rfl⟩
  cases isValid : (s.entry slot).valid with
  | false => exact isValid
  | true => exact ⟨isValid, h.2 isValid⟩

theorem executes_of_change {phase : Phase} {cmd : InodeCommand}
    {post : cmd.Response → Phase → Prop} (keeps : ∀ (s : InodeState Pid) r after,
      phase.Fits (s.entry slot) (s.stored slot) → (s.stored slot).HoleFree →
      exec p cmd s = .ok (r, after) → ∃ valid fields later, after = s.setEntry slot
          { s.entry slot with valid := valid, fields := fields } ∧
        later.Fits { s.entry slot with valid := valid, fields := fields }
          (s.stored slot) ∧ post r later) :
    (ledger Pid ninodes).Executes p {.locked slot phase} cmd
      fun r held => ∃ later, held = {.locked slot later} ∧ post r later := by
  apply executes_of_ok
  intro s frame r after inv did
  have h := inv.locked slot phase (by simp)
  have holeFree : (s.stored slot).HoleFree := inv.holeFree _ _
  rcases keeps s r after h.2 holeFree did with
    ⟨valid, fields, later, eq, fits, satisfied⟩
  subst eq
  refine ⟨_, ?_, later, rfl, satisfied⟩
  refine inv.exchange rfl rfl inv.alone rfl rfl rfl ?_ ?_
  · intro o isPhase
    cases isPhase
    exact ⟨h.1, fits⟩
  · intro free
    exact absurd free h.1

theorem executes_load :
    (ledger Pid ninodes).Executes p {.locked slot .invalid} (.load slot) fun (fields : InodeFields)
    held => ∃ later, held = {.locked slot later} ∧ (fields.type ≠ .free → later = .clean) := by
  apply executes_of_change
  intro s r after _ holeFree did
  cases did
  by_cases isFree : (s.stored slot).type = .free
  · exact ⟨true, s.stored slot, .cleared, rfl, holeFree, fun alive => absurd isFree alive⟩
  · exact ⟨true, s.stored slot, .clean, rfl, ⟨rfl, rfl, isFree⟩, fun _ => rfl⟩

theorem executes_read : (ledger Pid ninodes).Executes
    p {.locked slot .clean} (.read slot) fun _ held => held = {.locked slot .clean} := by
  apply executes_of_ok
  intro s frame r after inv did
  cases did
  exact ⟨_, inv, rfl⟩

theorem executes_change_dirty {update : InodeFields → Option InodeFields}
    (keeps : ∀ fields later, fields.HoleFree → update fields = some later →
      later.HoleFree ∧ later.type = fields.type) :
    (ledger Pid ninodes).Executes p {.locked slot .clean} (.change slot update)
      fun _ held => ∃ later, held = {.locked slot later} ∧ later = .dirty := by
  apply executes_of_change
  intro s r after fits holeFree did
  rw [exec] at did
  split at did
  · cases did
  next fields updated =>
  cases did
  rw [← fits.2.1] at holeFree
  rcases keeps _ _ holeFree updated with ⟨laterHoleFree, type⟩
  exact ⟨(s.entry slot).valid, fields, .dirty, rfl, ⟨fits.1, laterHoleFree, type ▸ fits.2.2⟩, rfl⟩

theorem executes_change_same {update : InodeFields → Option InodeFields}
    (same : ∀ fields later, fields.HoleFree → update fields = some later → later = fields) :
    (ledger Pid ninodes).Executes p {.locked slot .clean}
    (.change slot update) fun _ held => ∃ later, held = {.locked slot later} ∧ later = .clean := by
  apply executes_of_change
  intro s r after fits holeFree did
  rw [exec] at did
  split at did
  · cases did
  next fields updated =>
  cases did
  rw [← fits.2.1] at holeFree
  rw [same _ _ holeFree updated]
  exact ⟨(s.entry slot).valid, (s.entry slot).fields, .clean, rfl, fits, rfl⟩

theorem executes_change_free : (ledger Pid ninodes).Executes p {.locked slot .clean}
      (.change slot fun fields => some { fields with type := .free })
      fun _ held => ∃ later, held = {.locked slot later} ∧ later = .cleared := by
  apply executes_of_change
  intro s r after fits holeFree did
  cases did
  rw [← fits.2.1] at holeFree
  exact ⟨(s.entry slot).valid, { (s.entry slot).fields with type := .free }, .cleared,
    rfl, holeFree, rfl⟩

theorem executes_iupdate : (ledger Pid ninodes).Executes
    p {.locked slot .dirty} (.iupdate slot) fun _ held => held = {.locked slot .clean} := by
  apply executes_of_ok
  intro s frame r after inv did
  have h := (inv.locked slot .dirty (by simp)).2
  cases did
  refine ⟨{.locked slot .clean}, inv.update h.2.1 ?_, rfl⟩
  exact ⟨h.1, rfl, h.2.2⟩

theorem executes_iupdate_free : (ledger Pid ninodes).Executes
    p {.locked slot .cleared} (.iupdate slot) fun _ held => held = {.locked slot .cleared} := by
  apply executes_of_ok
  intro s frame r after inv did
  have holeFree : (s.entry slot).fields.HoleFree := (inv.locked slot .cleared (by simp)).2
  cases did
  refine ⟨{.locked slot .cleared}, inv.update holeFree ?_, rfl⟩
  exact holeFree

theorem executes_invalidate : (ledger Pid ninodes).Executes p {.locked slot .cleared}
    (.invalidate slot) fun _ held => ∃ later, held = {.locked slot later} ∧ later = .invalid := by
  apply executes_of_change
  intro s r after _ _ did
  cases did
  exact ⟨false, (s.entry slot).fields, .invalid, rfl, rfl, rfl⟩

omit [DecidableEq Pid] in
theorem Inv.unlock {s : InodeState Pid} {frame : Multiset Resource}
    {phase : Phase} (inv : Inv s (frame + {.locked slot phase}))
    (settled : Settled (s.entry slot) (s.stored slot)) :
    Inv (s.setEntry slot { s.entry slot with lock := none }) (frame + {.ref slot}) := by
  refine inv.exchange rfl rfl inv.alone rfl rfl rfl ?_ ?_
  · rintro phase ⟨⟩
  · intro _
    exact settled

theorem executes_iunlock : (ledger Pid ninodes).Executes
    p {.locked slot .clean} (.iunlock slot) fun _ held => held = {.ref slot} := by
  apply executes_of_ok
  intro s frame r after inv did
  have h := (inv.locked slot .clean (by simp)).2
  rw [exec] at did
  split at did
  · cases did
    exact ⟨_, inv.unlock fun _ => h.2, rfl⟩
  · cases did

theorem executes_releasesleep : (ledger Pid ninodes).Executes
    p {.locked slot .invalid} (.releasesleep slot) fun _ held => held = {.ref slot} := by
  apply executes_of_ok
  intro s frame r after inv did
  have h := (inv.locked slot .invalid (by simp)).2
  cases did
  refine ⟨_, inv.unlock ?_, rfl⟩
  intro isValid
  exact absurd isValid (by rw [h]; decide)

theorem executes_iputLock : (ledger Pid ninodes).Executes p {.ref slot} (.iputLock slot)
    fun (frees : Bool) held => held = if frees then {.locked slot .clean} else 0 := by
  apply executes_of_ok
  intro s frame r after inv did
  rw [exec] at did
  split at did
  · next frees =>
    split at did
    · cases did
    next free =>
    cases did
    have settled := inv.settled slot free inv.ref_pos frees.2.1
    refine ⟨_, ?_, rfl⟩
    refine inv.exchange rfl rfl (inv.alone_of_free free) rfl rfl rfl ?_ ?_
    · intro phase isPhase
      cases isPhase
      exact ⟨by simp, frees.2.1, settled⟩
    · rintro ⟨⟩
  · cases did
    refine ⟨_, ?_, rfl⟩
    rw [if_neg Bool.false_ne_true, add_zero]
    exact inv.drop

theorem executes_iputDrop :
    (ledger Pid ninodes).Executes p {.ref slot} (.iputDrop slot) fun _ held => held = 0 := by
  apply executes_of_ok
  intro s frame r after inv did
  cases did
  refine ⟨_, ?_, rfl⟩
  rw [add_zero]
  exact inv.drop

theorem executes_iallocMark {dev inum : Nat} {type : InodeType} :
    (ledger Pid ninodes).Executes p 0 (.iallocMark dev inum type) fun _ held => held = 0 := by
  apply executes_of_ok
  intro s frame r after inv did
  rw [exec] at did
  split at did
  · next isFree =>
    cases did
    exact ⟨_, inv.mark isFree (InodeFields.holeFree_of_size rfl), rfl⟩
  · cases did
    exact ⟨_, inv, rfl⟩

end

/-! ## Functions -/

section

open InodeProgram Ledger

variable {Pid} [Fintype Pid] {ninodes : Nat} {p : Pid} {slot : InodeSlot}

theorem runs_fail {why : InodePanic} (need : Multiset Resource)
    (post : α → Multiset Resource → Prop) : (ledger Pid ninodes).Runs p need (fail why) post := by
  have executes : (ledger Pid ninodes).Executes p need (.panic why) fun _ _ => False := by
    intro s frame inv ok
    trivial
  have split : (fail why : InodeProgram α) =
      step (.panic why) >>= (Empty.elim : Empty → InodeProgram α) := by
    change Program.call _ _ = Program.call _ _
    congr 1
    funext r
    exact r.elim
  rw [split]
  apply (command executes).bind
  intro r held never
  exact never.elim

theorem runs_phase {cmd : InodeCommand} {phase later : Phase}
    {next : cmd.Response → InodeProgram α} {post : α → Multiset Resource → Prop}
    (executes : (ledger Pid ninodes).Executes p {.locked slot phase} cmd
    fun _ held => ∃ kept, held = {.locked slot kept} ∧ kept = later)
    (rest : ∀ r, (ledger Pid ninodes).Runs p {.locked slot later} (next r) post) :
    (ledger Pid ninodes).Runs p {.locked slot phase} (step cmd >>= next) post := by
  apply (command executes).bind
  rintro r held ⟨kept, eq, isLater⟩
  rw [eq, isLater]
  exact rest r

theorem runs_ilock : (ledger Pid ninodes).Runs
    p {.ref slot} (ilock slot) fun _ held => held = {.locked slot .clean} := by
  apply (command executes_acquire).bind_eq
  intro _
  apply (command executes_valid).bind
  intro valid held eq
  rw [eq]
  cases valid with
  | true => exact .done rfl
  | false =>
    apply (command executes_load).bind
    rintro fields held ⟨later, isLater, loaded⟩
    rw [isLater]
    split
    · exact runs_fail _ _
    · next alive => exact .done (by rw [loaded alive])

theorem runs_change_iupdate {update : InodeFields → Option InodeFields}
    (keeps : ∀ fields later, fields.HoleFree → update fields = some later →
      later.HoleFree ∧ later.type = fields.type) :
    (ledger Pid ninodes).Runs p {.locked slot .clean}
      (do step (.change slot update)
          step (.iupdate slot) : InodeProgram Unit)
      fun _ held => held = {.locked slot .clean} :=
  runs_phase (executes_change_dirty keeps) fun _ => command executes_iupdate

theorem runs_assign {update : InodeFields → InodeFields}
    (size : ∀ fields, (update fields).size = fields.size)
    (addrs : ∀ fields, (update fields).addrs = fields.addrs)
    (type : ∀ fields, (update fields).type = fields.type) :
    (ledger Pid ninodes).Runs p {.locked slot .clean} (assign slot update)
    fun _ held => held = {.locked slot .clean} := by
  apply runs_change_iupdate
  intro fields later holeFree updated
  cases updated
  refine ⟨?_, type fields⟩
  intro bn below
  rw [size] at below
  rw [addrs]
  exact holeFree bn below

theorem runs_itrunc : (ledger Pid ninodes).Runs
    p {.locked slot .clean} (itrunc slot) fun _ held => held = {.locked slot .clean} := by
  apply runs_change_iupdate
  intro fields later _ updated
  cases updated
  exact ⟨InodeFields.holeFree_of_size rfl, rfl⟩

theorem runs_iput : (ledger Pid ninodes).Runs p {.ref slot} (iput slot) fun _ held => held = 0 := by
  apply (command executes_iputLock).bind
  intro frees held eq
  rw [eq]
  cases frees with
  | false => exact .done rfl
  | true =>
    apply runs_itrunc.bind_eq
    intro _
    apply runs_phase executes_change_free
    intro _
    apply (command executes_iupdate_free).bind_eq
    intro _
    apply runs_phase executes_invalidate
    intro _
    apply (command executes_releasesleep).bind_eq
    intro _
    exact command executes_iputDrop

theorem runs_iallocFrom {dev : Nat} {type : InodeType} (inums : List Nat) :
    (ledger Pid ninodes).Runs p 0 (iallocFrom dev type inums)
    fun slot held => held = {.ref slot} := by
  induction inums with
  | nil => exact runs_fail _ _
  | cons inum rest ih =>
    apply (command executes_iallocMark).bind_eq
    intro marked
    cases marked with
    | true => exact command executes_iget
    | false => exact ih

theorem runs_readi {off n : BitVec 32} {turns : InodeFields.Turns} : (ledger Pid ninodes).Runs p
    {.locked slot .clean} (readi slot off n turns) fun _ held => held = {.locked slot .clean} := by
  have same : ∀ fields later : InodeFields, fields.HoleFree →
      fields.readi off n turns = some later → later = fields :=
    fun _ _ holeFree ran => holeFree.readi ran
  apply (command (executes_change_same same)).mono
  rintro _ held ⟨later, eq, isClean⟩
  rw [eq, isClean]

theorem runs_writei {off n : BitVec 32} {turns : InodeFields.Turns} : (ledger Pid ninodes).Runs p
    {.locked slot .clean} (writei slot off n turns) fun _ held => held = {.locked slot .clean} := by
  apply (command executes_read).bind_eq
  intro fields
  split
  · apply runs_change_iupdate
    intro fields later holeFree updated
    split at updated
    · next wrb => exact holeFree.writei wrb updated
    · cases updated
      exact ⟨holeFree, rfl⟩
  · exact .done rfl

/-! ## Calls -/

theorem idle_cons_ref (holder : InodeHolder) (slot : InodeSlot) :
    idle { holder with refs := slot :: holder.refs } = idle holder + {.ref slot} := by
  rw [idle, idle, List.map_cons, ← cons_coe, ← singleton_add,
    add_comm {Resource.ref slot}, add_right_comm]

theorem idle_cons_locked (holder : InodeHolder) (slot : InodeSlot) :
    idle { holder with locked := slot :: holder.locked } = idle holder + {.locked slot .clean} := by
  rw [idle, idle, List.map_cons, ← cons_coe, ← singleton_add,
    add_comm {Resource.locked slot .clean}, ← add_assoc]

theorem coe_eraseIdx {make : InodeSlot → Resource} {slots : List InodeSlot}
    {ix : Nat} (has : slots[ix]? = some slot) : ((slots.map make : List Resource) :
    Multiset Resource) = ((slots.eraseIdx ix).map make : List Resource) + {make slot} := by
  rcases List.getElem?_eq_some_iff.mp has with ⟨isIn, eq⟩
  have perm := (List.getElem_cons_eraseIdx_perm isIn).map make
  rw [eq, List.map_cons] at perm
  rw [← coe_eq_coe.mpr perm, ← cons_coe, ← singleton_add, add_comm]

theorem idle_locked {holder : InodeHolder} {ix : Nat} (has : holder.locked[ix]? = some slot) :
    idle holder = idle { holder with locked := holder.locked.eraseIdx ix } +
      {.locked slot .clean} := by
  rw [idle, coe_eraseIdx has, ← add_assoc]
  rfl

theorem idle_ref {holder : InodeHolder} {ix : Nat} (has : holder.refs[ix]? = some slot) :
    idle holder = idle { holder with refs := holder.refs.eraseIdx ix } + {.ref slot} := by
  rw [idle, coe_eraseIdx has, add_right_comm]
  rfl

theorem runs_onLocked {holder : InodeHolder} {ix : Nat} {operation : InodeSlot → InodeProgram Unit}
    (runs : ∀ slot, (ledger Pid ninodes).Runs p {.locked slot .clean} (operation slot)
      fun _ held => held = {.locked slot .clean}) : (ledger Pid ninodes).Runs p (idle holder)
      (body.onLocked holder ix operation) fun later held => held = idle later := by
  rw [body.onLocked]
  split
  · exact .done rfl
  next slot has =>
  rw [idle_locked has]
  apply Runs.seq_eq _ rfl (runs slot)
  intro _
  exact .done (idle_locked has).symm

theorem runs_call (holder : InodeHolder) (call : InodeCall) : (ledger Pid ninodes).Runs
    p (idle holder) (call.body ninodes holder) fun later held => held = idle later := by
  cases call with
  | iget dev inum =>
    apply seq (idle holder) (add_zero _).symm (command executes_iget)
    intro slot held eq
    rw [eq]
    exact .done (idle_cons_ref holder slot).symm
  | ialloc dev type =>
    apply seq (idle holder) (add_zero _).symm (runs_iallocFrom _)
    intro slot held eq
    rw [eq]
    exact .done (idle_cons_ref holder slot).symm
  | idup ix =>
    rw [body]
    split
    · exact .done rfl
    next slot has =>
    apply Runs.seq_eq _ (idle_ref has) (command executes_idup)
    intro _
    apply Runs.done
    rw [idle_cons_ref, idle_ref has, add_assoc]
  | ilock ix =>
    rw [body]
    split
    · exact .done rfl
    next slot has =>
    apply Runs.seq_eq _ (idle_ref has) runs_ilock
    intro _
    exact .done (idle_cons_locked _ slot).symm
  | iunlock ix =>
    rw [body]
    split
    · exact .done rfl
    next slot has =>
    apply Runs.seq_eq _ (idle_locked has) (command executes_iunlock)
    intro _
    exact .done (idle_cons_ref _ slot).symm
  | iput ix =>
    rw [body]
    split
    · exact .done rfl
    · next slot has =>
      exact Runs.spend _ (idle_ref has) runs_iput fun _ => .done rfl
  | readi ix off n turns => exact runs_onLocked fun _ => runs_readi
  | writei ix off n turns => exact runs_onLocked fun _ => runs_writei
  | itrunc ix => exact runs_onLocked fun _ => runs_itrunc
  | make ix major minor | incNlink ix | decNlink ix =>
    exact runs_onLocked fun _ => runs_assign (fun _ => rfl) (fun _ => rfl) fun _ => rfl

theorem ledger_sound : (ledger Pid ninodes).Sound := fun _ call holder => runs_call holder call

/-! ## Runs -/

omit [DecidableEq Pid] [Fintype Pid] in
theorem start_inv {image : Nat → Nat → InodeFields}
    (holeFree : ∀ dev inum, (image dev inum).HoleFree) : Inv (InodeState.iinit Pid image) 0 where
  refs _ := rfl
  once _ := Nat.zero_le 1
  locked _ _ mem := absurd mem (notMem_zero _)
  settled _ _ used := absurd used (lt_irrefl 0)
  unique _ _ used := absurd used (lt_irrefl 0)
  holeFree := holeFree

/-- Entries in use stand for different inodes. The fields of an entry are those on disk
when nobody has locked it, and also when its holder is between two operations. -/
theorem icache_coherent {image : Nat → Nat → InodeFields}
    (holeFree : ∀ dev inum, (image dev inum).HoleFree) {pool : Pool (inodeSystem Pid ninodes)}
    (reach : (inodeSystem Pid ninodes).Reachable (inodeSystem Pid ninodes).always
      (inodeBoot Pid ninodes image) pool) :
    (∀ slot other, 0 < (pool.state.entry slot).ref → 0 < (pool.state.entry other).ref →
      (pool.state.entry slot).dev = (pool.state.entry other).dev →
      (pool.state.entry slot).inum = (pool.state.entry other).inum → slot = other) ∧
    (∀ slot, 0 < (pool.state.entry slot).ref → (pool.state.entry slot).valid = true →
      (pool.state.entry slot).lock = none →
      (pool.state.entry slot).fields = pool.state.stored slot) ∧
    ∀ p holder, pool.threads p = .done holder → ∀ slot ∈ holder.locked,
      (pool.state.entry slot).valid = true ∧
        (pool.state.entry slot).fields = pool.state.stored slot ∧
        (pool.state.entry slot).fields.type ≠ .free := by
  have considered : (inodeSystem Pid ninodes).Reachable (ledger Pid ninodes).Allowed
      (inodeBoot Pid ninodes image) pool := reach.mono fun _ _ _ _ => trivial
  have none : ∑ _ : Pid, (ledger Pid ninodes).idle ⟨[], []⟩ = 0 := Finset.sum_const_zero
  rcases ledger_sound.reachable (none ▸ start_inv holeFree) considered with ⟨held, inv, isIdle, _⟩
  refine ⟨inv.unique, ?_, ?_⟩
  · intro slot used isValid free
    exact (inv.settled slot free used isValid).1
  intro p holder isDone slot mem
  have holds : .locked slot .clean ∈ held p := by
    rw [isIdle p holder isDone]
    apply Multiset.mem_add.mpr
    right
    exact Multiset.mem_coe.mpr (List.mem_map.mpr ⟨slot, mem, rfl⟩)
  exact (inv.locked slot .clean (Multiset.mem_sum.mpr ⟨p, Finset.mem_univ p, holds⟩)).2

end

/-- One process frees an inode and is stopped before it drops its reference. Another one
allocates the inode again, which finds the old entry, and locks it. -/
def reallocated : List (System.Event Bool InodeCall) :=
  [.start false (.ialloc 1 ⟨.file, by decide⟩), .finish false,
   .start false (.ilock 0), .finish false, .start false (.iunlock 0), .finish false,
   .start false (.iput 0), .step false, .step false, .step false, .step false, .step false,
   .step false, .step false,
   .start true (.ialloc 1 ⟨.dir, by decide⟩), .finish true, .start true (.ilock 0), .finish true]

def firstSlot : InodeSlot := ⟨0, by decide⟩

theorem icache_coherent_reallocated : ∃ pool : Pool (inodeSystem Bool 3),
    (inodeSystem Bool 3).Reachable (inodeSystem Bool 3).always
      (inodeBoot Bool 3 fun _ _ => .blank .free) pool ∧
    (pool.state.entry firstSlot).ref = 2 ∧ (pool.state.entry firstSlot).fields.type = .dir ∧
    (pool.state.entry firstSlot).fields = pool.state.stored firstSlot := by
  have outcome : ((System.replay (inodeBoot Bool 3 fun _ _ => .blank .free)
      reallocated).map fun pool =>
        (System.valueOf pool true, (pool.state.entry firstSlot).ref,
          (pool.state.entry firstSlot).fields.type)) = some (some ⟨[], [firstSlot]⟩, 2, .dir) := by
    decide +kernel
  rcases Option.map_eq_some_iff.mp outcome with ⟨pool, replayed, facts⟩
  simp only [Prod.mk.injEq] at facts
  have reach : (inodeSystem Bool 3).Reachable (inodeSystem Bool 3).always
      (inodeBoot Bool 3 fun _ _ => .blank .free) pool := System.Reachable.initial.replay _ replayed
  have holds := icache_coherent (fun _ _ => InodeFields.holeFree_of_size rfl) reach
  have seen := holds.2.2 true _ (System.done_of_valueOf facts.1) firstSlot (by simp)
  exact ⟨pool, reach, facts.2.1, facts.2.2, seen.2.1⟩

end InodeCache

end Xv6
