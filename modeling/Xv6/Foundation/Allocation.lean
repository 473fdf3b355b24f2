import Mathlib.Logic.Function.Basic

/-! # Allocation

Places refer to numbered blocks, and a map says which blocks are in use. The first blocks
are reserved; block 0 is one of them and stands for no block. -/

namespace Foundation

open Function

/-- No block is referred to twice, and the blocks in use are the reserved ones and those
that are referred to. -/
structure Allocated {Place : Type} (reserved size : Nat) (refs : Place → Nat)
    (used : Nat → Bool) : Prop where
  positive : 0 < reserved
  range : ∀ place, refs place ≠ 0 → reserved ≤ refs place ∧ refs place < size
  once : ∀ place other, refs place ≠ 0 → refs place = refs other → place = other
  used_iff : ∀ block, block < size →
    (used block = true ↔ block < reserved ∨ ∃ place, refs place = block)

namespace Allocated

variable {Place : Type} {reserved size : Nat} {refs : Place → Nat} {used : Nat → Bool}

section

variable (alive : Allocated reserved size refs used)
include alive

theorem used_of_ref {place : Place} (has : refs place ≠ 0) : used (refs place) = true :=
  (alive.used_iff _ (alive.range place has).2).mpr (.inr ⟨place, rfl⟩)

/-- A block that is not in use is not referred to. -/
theorem ne_of_unused {block : Nat}
    (isIn : block < size) (unused : used block = false) (place : Place) : refs place ≠ block := by
  intro same
  have isUsed := (alive.used_iff block isIn).mpr (.inr ⟨place, same⟩)
  rw [unused] at isUsed
  cases isUsed

theorem reserved_le_of_unused {block : Nat}
    (isIn : block < size) (unused : used block = false) : reserved ≤ block := by
  by_contra below
  have isUsed := (alive.used_iff block isIn).mpr (.inl (by omega))
  rw [unused] at isUsed
  cases isUsed

end

variable [DecidableEq Place]

/-- An empty place takes a block that is not in use. -/
theorem take (alive : Allocated reserved size refs used) {place : Place} {block : Nat}
    (isIn : block < size) (unused : used block = false) (empty : refs place = 0) :
    Allocated reserved size (update refs place block) (update used block true) := by
  have unnamed := alive.ne_of_unused isIn unused
  have notResv := alive.reserved_le_of_unused isIn unused
  refine ⟨alive.positive, ?_, ?_, ?_⟩
  · intro o has
    by_cases same : o = place
    · rw [same, update_self]
      exact ⟨notResv, isIn⟩
    · rw [update_of_ne same] at has ⊢
      exact alive.range o has
  · intro left right has eq
    by_cases isLeft : left = place
    · by_cases isRight : right = place
      · rw [isLeft, isRight]
      · rw [isLeft, update_self, update_of_ne isRight] at eq
        exact absurd eq.symm (unnamed right)
    · rw [update_of_ne isLeft] at has eq
      by_cases isRight : right = place
      · rw [isRight, update_self] at eq
        exact absurd eq (unnamed left)
      · rw [update_of_ne isRight] at eq
        exact alive.once left right has eq
  · intro o below
    by_cases same : o = block
    · rw [same, update_self]
      exact ⟨fun _ => .inr ⟨place, update_self _ _ _⟩, fun _ => rfl⟩
    rw [update_of_ne same, alive.used_iff o below]
    have pos := alive.positive
    constructor
    · intro cases
      rcases cases with isResv | ⟨holder, eq⟩
      · exact .inl isResv
      by_cases isPlace : holder = place
      · rw [isPlace, empty] at eq
        exact .inl (by omega)
      · exact .inr ⟨holder, by rw [update_of_ne isPlace, eq]⟩
    · rintro (isResv | ⟨holder, eq⟩)
      · exact .inl isResv
      · by_cases isPlace : holder = place
        · rw [isPlace, update_self] at eq
          exact absurd eq.symm same
        · rw [update_of_ne isPlace] at eq
          exact .inr ⟨holder, eq⟩

theorem release (alive : Allocated reserved size refs used) {place : Place} (has : refs place ≠ 0) :
    Allocated reserved size (update refs place 0) (update used (refs place) false) := by
  refine ⟨alive.positive, ?_, ?_, ?_⟩
  · intro o h
    by_cases same : o = place
    · rw [same, update_self] at h
      exact absurd rfl h
    · rw [update_of_ne same] at h ⊢
      exact alive.range o h
  · intro left right h eq
    by_cases isLeft : left = place
    · rw [isLeft, update_self] at h
      exact absurd rfl h
    rw [update_of_ne isLeft] at h eq
    by_cases isRight : right = place
    · rw [isRight, update_self] at eq
      exact absurd eq h
    · rw [update_of_ne isRight] at eq
      exact alive.once left right h eq
  · intro o below
    have pos := alive.positive
    have range := alive.range place has
    by_cases same : o = refs place
    · rw [same, update_self]
      constructor
      · rintro ⟨⟩
      intro cases
      rcases cases with isResv | ⟨holder, eq⟩
      · omega
      by_cases isPlace : holder = place
      · rw [isPlace, update_self] at eq
        exact absurd eq.symm has
      · rw [update_of_ne isPlace] at eq
        exact absurd (alive.once place holder has eq.symm).symm isPlace
    · rw [update_of_ne same, alive.used_iff o below]
      constructor
      · intro cases
        rcases cases with isResv | ⟨holder, eq⟩
        · exact .inl isResv
        by_cases isPlace : holder = place
        · rw [isPlace] at eq
          exact absurd eq.symm same
        · exact .inr ⟨holder, by rw [update_of_ne isPlace, eq]⟩
      · rintro (isResv | ⟨holder, eq⟩)
        · exact .inl isResv
        · by_cases isPlace : holder = place
          · rw [isPlace, update_self] at eq
            exact .inl (by omega)
          · rw [update_of_ne isPlace] at eq
            exact .inr ⟨holder, eq⟩

end Allocated

end Foundation
