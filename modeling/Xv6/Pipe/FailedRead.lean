import Xv6.Pipe.Stream

/-! # Reads into memory that cannot be written

`piperead` counts a byte as read before it copies it out. -/

namespace Xv6

open Pipe

namespace Pipe

variable {pipe : Pipe}

/-- The copying loop of `piperead`, with the number of rounds left: the number returned,
the bytes stored in the reader's memory, and the pipe. -/
def readCopy (writable : Nat → Bool) : (rounds i : Nat) → Pipe → Nat × List UInt8 × Pipe
  | 0, i, pipe => (i, [], pipe)
  | rounds + 1, i, pipe =>
    if pipe.isEmpty then (i, [], pipe)
    else if writable i then
      let (count, bytes, after) := readCopy writable rounds (i + 1) pipe.take.2
      (count, pipe.take.1 :: bytes, after)
    else (i, [], pipe.take.2)

/-- Every byte that the loop comes to can be stored. -/
def Stores (pipe : Pipe) (writable : Nat → Bool) (rounds i : Nat) : Prop :=
  ∀ k, k < rounds → k < pipe.count → writable (i + k) = true

theorem pos_of_not_isEmpty (some : pipe.isEmpty = false) : 0 < pipe.count := by
  rw [← Bool.not_eq_true, isEmpty_iff] at some
  omega

theorem stores_succ {wrb : Nat → Bool} {rounds i : Nat} (some : 0 < pipe.count) :
    pipe.Stores wrb (rounds + 1) i ↔ wrb i = true ∧ pipe.take.2.Stores wrb rounds (i + 1) := by
  have count := count_take some
  constructor
  · intro stores
    refine ⟨stores 0 (Nat.succ_pos _) some, fun k old isIn => ?_⟩
    rw [Nat.add_assoc, Nat.add_comm 1 k]
    exact stores (k + 1) (by omega) (by omega)
  · rintro ⟨first, stores⟩ k old isIn
    cases k with
    | zero => exact first
    | succ k =>
      rw [← Nat.add_assoc, Nat.add_right_comm]
      exact stores k (by omega) (by omega)

theorem readCopy_spec (wrb : Nat → Bool) (rounds i : Nat) (pipe : Pipe) :
    (readCopy wrb rounds i pipe).1 = i + (readCopy wrb rounds i pipe).2.1.length ∧
    (readCopy wrb rounds i pipe).2.2.count ≤ pipe.count ∧
    ∃ lost : List UInt8, pipe.held = (readCopy wrb rounds i pipe).2.1 ++ lost ++
    (readCopy wrb rounds i pipe).2.2.held ∧ (lost = [] ↔ pipe.Stores wrb rounds i) := by
  induction rounds generalizing i pipe with
  | zero => exact ⟨rfl, Nat.le_refl _, [], rfl, by simp [Stores]⟩
  | succ rounds ih =>
    rw [readCopy]
    cases empty : pipe.isEmpty with
    | true =>
      have none := isEmpty_iff.mp empty
      exact ⟨rfl, Nat.le_refl _, [], rfl, by simp [Stores, none]⟩
    | false =>
      have some := pos_of_not_isEmpty empty
      have count := count_take some
      rw [if_neg Bool.false_ne_true, stores_succ some, held_take some]
      cases stored : wrb i with
      | false =>
        have fewer : pipe.take.2.count ≤ pipe.count := by omega
        exact ⟨rfl, fewer, [pipe.take.1], rfl, by simp⟩
      | true =>
        obtain ⟨ret, fewer, lost, split, iff⟩ := ih (i + 1) pipe.take.2
        refine ⟨?_, ?_, lost, ?_, ?_⟩
        · change (readCopy wrb rounds (i + 1) pipe.take.2).1 =
            i + ((readCopy wrb rounds (i + 1) pipe.take.2).2.1.length + 1)
          omega
        · exact Nat.le_trans fewer (by omega)
        · exact congrArg (pipe.take.1 :: ·) split
        · rw [iff]
          simp

end Pipe

/-! ## Sequences of reads and writes -/

/-- The pipe, the bytes written to it and the bytes that readers have got. -/
structure PipeTraffic where
  pipe : Pipe
  written : List UInt8
  delivered : List UInt8

/-- What happens under the lock: `pipewrite` stores one byte, or `piperead` copies. -/
inductive PipeStep
  | put (ch : UInt8)
  | read (writable : Nat → Bool) (n : Int)

namespace PipeTraffic

def exec (traffic : PipeTraffic) : PipeStep → PipeTraffic
  | .put ch =>
    if traffic.pipe.isFull then traffic
    else { traffic with pipe := traffic.pipe.put ch, written := traffic.written ++ [ch] }
  | .read writable n =>
    let (_, bytes, pipe) := traffic.pipe.readCopy writable n.toNat 0
    { traffic with pipe := pipe, delivered := traffic.delivered ++ bytes }

/-- No copy of a read fails. -/
def Stores (traffic : PipeTraffic) : PipeStep → Prop
  | .put _ => True
  | .read writable n => traffic.pipe.Stores writable n.toNat 0

/-- What reads and writes lead to if no copy fails. -/
inductive Reached : PipeTraffic → Prop
  | alloc (data : Nat → UInt8) : Reached ⟨.alloc data, [], []⟩
  | step {traffic : PipeTraffic} (before : Reached traffic) (step : PipeStep)
      (stores : traffic.Stores step) : Reached (traffic.exec step)

/-- The pipe is not overfull, and no byte is lost. -/
structure Inv (traffic : PipeTraffic) : Prop where
  bound : traffic.pipe.count ≤ pipeSize
  flow : traffic.written = traffic.delivered ++ traffic.pipe.held

theorem Inv.exec {traffic : PipeTraffic} (inv : traffic.Inv) {step : PipeStep}
    (stores : traffic.Stores step) : (traffic.exec step).Inv := by
  cases step with
  | put ch =>
    rw [PipeTraffic.exec]
    split
    · exact inv
    next notFull =>
    rw [isFull_iff] at notFull
    have room : traffic.pipe.count < pipeSize := Nat.lt_of_le_of_ne inv.bound notFull
    refine ⟨?_, ?_⟩
    · rwa [count_put room]
    · rw [held_put room, inv.flow, List.append_assoc]
  | read wrb n =>
    obtain ⟨_, fewer, lost, split, iff⟩ := readCopy_spec wrb n.toNat 0 traffic.pipe
    rw [iff.mpr stores, List.append_nil] at split
    refine ⟨Nat.le_trans fewer inv.bound, ?_⟩
    change traffic.written = traffic.delivered ++ _ ++ _
    rw [inv.flow, split, List.append_assoc]
    rfl

theorem Reached.inv {traffic : PipeTraffic} (got : Reached traffic) : traffic.Inv := by
  induction got with
  | alloc data =>
    refine ⟨?_, ?_⟩
    · rw [count_alloc]
      exact Nat.zero_le _
    · rw [held_alloc]
      rfl
  | step _ _ stores inv => exact inv.exec stores

/-- A read removes exactly the bytes that it delivers if and only if no copy fails, and if
no copy ever fails, then what was delivered and what is in the pipe is all that was
written. -/
theorem failed_read_loses_byte (pipe : Pipe) (writable : Nat → Bool) (n : Int) :
    (pipe.readCopy writable n.toNat 0).1 = (pipe.readCopy writable n.toNat 0).2.1.length ∧
    (pipe.held = (pipe.readCopy writable n.toNat 0).2.1 ++
        (pipe.readCopy writable n.toNat 0).2.2.held ↔ pipe.Stores writable n.toNat 0) ∧
    ∀ traffic, Reached traffic → traffic.written = traffic.delivered ++ traffic.pipe.held := by
  obtain ⟨returned, _, lost, split, iff⟩ := Pipe.readCopy_spec writable n.toNat 0 pipe
  refine ⟨returned.trans (Nat.zero_add _), ?_, fun traffic reached => reached.inv.flow⟩
  rw [← iff, split]
  constructor
  · intro same
    have lengths := congrArg List.length same
    simp only [List.length_append] at lengths
    exact List.eq_nil_of_length_eq_zero (by omega)
  · rintro rfl
    rw [List.append_nil]

theorem failed_read_loses_byte_two :
    ∃ traffic, Reached traffic ∧ traffic.delivered = [7] ∧ traffic.pipe.held = [8] ∧
      traffic.written = traffic.delivered ++ traffic.pipe.held := by
  have reached : Reached
      ((((⟨.alloc fun _ => 0, [], []⟩ : PipeTraffic).exec (.put 7)).exec (.put 8)).exec
        (.read (fun _ => true) 1)) :=
    .step (.step (.step (.alloc _) (.put 7) trivial) (.put 8) trivial) (.read (fun _ => true) 1)
      fun _ _ _ => rfl
  have flow := (failed_read_loses_byte (.alloc fun _ => 0) (fun _ => true) 1).2.2
  exact ⟨_, reached, by decide, by decide, flow _ reached⟩

/-- The first of two bytes is removed, but not delivered. -/
theorem first_byte_lost :
    let before := ((⟨.alloc fun _ => 0, [], []⟩ : PipeTraffic).exec (.put 7)).exec (.put 8)
    let after := before.exec (.read (fun _ => false) 2)
    before.pipe.held = [7, 8] ∧ after.delivered = [] ∧ after.pipe.held = [8] ∧
      after.written ≠ after.delivered ++ after.pipe.held := by
  decide

end PipeTraffic

end Xv6
