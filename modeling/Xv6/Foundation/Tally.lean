import Mathlib.Algebra.BigOperators.Fin
import Mathlib.Data.Fintype.BigOperators
import Mathlib.Algebra.Order.BigOperators.Group.Finset

/-! # Tallies

The sum of a measure over the tokens of all threads, and how it moves when one
thread's token changes; and the same for a sum over a range of numbers. -/

open scoped BigOperators

namespace Foundation

open Function Finset

variable {Thread Token : Type} [Fintype Thread] [DecidableEq Thread]

/-- The measure of all tokens together. -/
def tally (measure : Token → Nat) (ts : Thread → Token) : Nat :=
  ∑ t, measure (ts t)

section

variable (measure : Token → Nat)
include measure

section

variable (ts : Thread → Token)
include ts

theorem tally_update (t : Thread) (tok : Token) :
    tally measure (update ts t tok) + measure (ts t) = tally measure ts + measure tok := by
  have split := fun cur : Thread → Token =>
    (add_sum_erase univ (fun o => measure (cur o)) (mem_univ t)).symm
  have others : ∑ o ∈ univ.erase t, measure (update ts t tok o) =
      ∑ o ∈ univ.erase t, measure (ts o) := by
    apply sum_congr rfl
    intro o mem
    rw [update_of_ne (ne_of_mem_erase mem)]
  rw [tally, tally, split, split ts, others, update_self]
  omega

omit [DecidableEq Thread] in
theorem measure_le_tally (t : Thread) : measure (ts t) ≤ tally measure ts :=
  single_le_sum (f := fun o => measure (ts o)) (fun _ _ => Nat.zero_le _) (mem_univ t)

omit [DecidableEq Thread] in
theorem tally_eq_zero_iff : tally measure ts = 0 ↔ ∀ t, measure (ts t) = 0 := by
  simp [tally, sum_eq_zero_iff]

/-- Changing a token to one of the same measure leaves the tally alone. -/
theorem tally_update_same (t : Thread) (tok : Token) (same : measure tok = measure (ts t)) :
    tally measure (update ts t tok) = tally measure ts := by
  have moved := tally_update measure ts t tok
  omega

/-- Two threads of positive measure are two different parts of the tally. -/
theorem add_measure_le_tally {first snd : Thread} (ne : first ≠ snd) :
    measure (ts first) + measure (ts snd) ≤ tally measure ts := by
  rw [tally, ← add_sum_erase univ (fun o => measure (ts o)) (mem_univ first)]
  have bound := single_le_sum (f := fun o => measure (ts o))
    (s := univ.erase first) (fun _ _ => Nat.zero_le _)
    (mem_erase.mpr ⟨ne.symm, mem_univ snd⟩)
  omega

end

end

/-- A sum over a range after one of its terms has changed. -/
theorem sum_range_change {size ix : Nat} (old after : Nat → Nat)
    (isIn : ix < size) (same : ∀ o, o ≠ ix → after o = old o) :
    ∑ k ∈ range size, after k + old ix = ∑ k ∈ range size, old k + after ix := by
  have mem : ix ∈ range size := mem_range.mpr isIn
  rw [← sum_erase_add _ after mem, ← sum_erase_add _ old mem]
  have others : ∑ k ∈ (range size).erase ix, after k = ∑ k ∈ (range size).erase ix, old k := by
    apply sum_congr rfl
    intro o memberErase
    exact same o (ne_of_mem_erase memberErase)
  rw [others]
  omega

end Foundation
