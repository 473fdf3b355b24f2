import Mathlib.Logic.Function.Basic
import Mathlib.Data.List.Basic

/-! # Write lists

A store is a function from addresses to values. A write list holds the writes
that some program issues, in program order; a crash keeps a front part of it. -/

namespace Foundation

open Function List

/-- Apply the writes in order, the head of the list first. -/
def applyWrites [DecidableEq α] : List (α × β) → (α → β) → α → β
  | [], store => store
  | (addr, value) :: rest, store =>
    applyWrites rest (update store addr value)

section

variable [DecidableEq α]

@[simp] theorem applyWrites_nil (store : α → β) : applyWrites [] store = store :=
  rfl

@[simp] theorem applyWrites_cons (addr : α) (v : β) (rest : List (α × β)) (store : α → β) :
    applyWrites ((addr, v) :: rest) store = applyWrites rest (update store addr v) := rfl

theorem applyWrites_append (first snd : List (α × β)) (store : α → β) :
    applyWrites (first ++ snd) store = applyWrites snd (applyWrites first store) := by
  induction first generalizing store with
  | nil => rfl
  | cons write rest ih =>
    rcases write with ⟨addr, v⟩
    exact ih (update store addr v)

/-- An address that no write names keeps its value. -/
theorem applyWrites_of_not_written (writes : List (α × β)) (store : α → β) (addr : α) (untouched :
    ∀ write, write ∈ writes → write.1 ≠ addr) : applyWrites writes store addr = store addr := by
  induction writes generalizing store with
  | nil => rfl
  | cons write rest ih =>
    rcases write with ⟨wrote, v⟩
    rw [applyWrites_cons, ih]
    · have ne : wrote ≠ addr := untouched (wrote, v) (by simp)
      exact update_of_ne ne.symm v store
    · intro later mem
      exact untouched later (mem_cons_of_mem _ mem)

/-- When every write to an address carries the same value, that value is what
the address holds afterwards. -/
theorem applyWrites_of_written (writes : List (α × β)) (store : α → β) (addr : α) (v : β)
    (wrote : (addr, v) ∈ writes) (agree : ∀ write, write ∈ writes → write.1 = addr → write.2 = v) :
    applyWrites writes store addr = v := by
  induction writes generalizing store with
  | nil => cases wrote
  | cons write rest ih =>
    rcases write with ⟨target, stored⟩
    rw [applyWrites_cons]
    have restAgree : ∀ later, later ∈ rest → later.1 = addr → later.2 = v := fun later mem =>
      agree later (mem_cons_of_mem _ mem)
    by_cases again : (addr, v) ∈ rest
    · exact ih _ again restAgree
    have eq : (target, stored) = (addr, v) := by
      rcases mem_cons.mp wrote with eq | mem
      · exact eq.symm
      · exact absurd mem again
    cases eq
    rw [applyWrites_of_not_written]
    · exact update_self addr v store
    · intro later mem sameAddr
      have sameValue := restAgree later mem sameAddr
      exact again (by rw [← sameAddr, ← sameValue]; exact mem)

/-- A property of stores that every single write of the list preserves holds
after every front part of the list. -/
theorem applyWrites_take_preserves (writes : List (α × β)) (h : (α → β) → Prop) (preserved :
    ∀ write, write ∈ writes → ∀ store, h store → h (update store write.1 write.2)) (count : Nat)
    (store : α → β) (initially : h store) : h (applyWrites (writes.take count) store) := by
  induction writes generalizing store count with
  | nil => simpa using initially
  | cons write rest ih =>
    cases count with
    | zero => simpa using initially
    | succ count =>
      rw [take_succ_cons]
      exact ih (fun later mem => preserved later (mem_cons_of_mem _ mem))
        count _ (preserved write (by simp) store initially)

end

end Foundation
