import Mathlib.Data.List.Basic
import Mathlib.Data.List.Nodup
import Mathlib.Logic.Function.Basic

/-! # Linked lists

Cells that each name the next one. A linked list is told from the cells that it goes
through, first one first. -/

namespace Foundation

open List

/-- The cells reached from `start` are those of the list, and the last one names no
other. -/
def Linked (next : Cell → Option Cell) : Option Cell → List Cell → Prop
  | start, [] => start = none
  | start, cell :: rest => start = some cell ∧ Linked next (next cell) rest

namespace Linked

variable {Cell : Type} {next later : Cell → Option Cell} {start : Option Cell}
  {cells before after : List Cell} {cell : Cell}

theorem nil_iff : Linked next start [] ↔ start = none := Iff.rfl

theorem of_none (linked : Linked next none cells) : cells = [] := by
  cases cells with
  | nil => rfl
  | cons cell rest =>
    have starts := linked.1
    cases starts

theorem of_some (linked : Linked next (some cell) cells) :
    ∃ rest, cells = cell :: rest ∧ Linked next (next cell) rest := by
  cases cells with
  | nil => cases linked
  | cons head rest =>
    obtain ⟨starts, linked⟩ := linked
    cases starts
    exact ⟨rest, rfl, linked⟩

/-- Where a linked list starts says which one it is. -/
theorem unique (linked : Linked next start cells) {o : List Cell}
    (oLinked : Linked next start o) : cells = o := by
  induction cells generalizing start o with
  | nil =>
    rw [nil_iff] at linked
    rw [linked] at oLinked
    exact oLinked.of_none.symm
  | cons cell rest ih =>
    obtain ⟨starts, linked⟩ := linked
    rw [starts] at oLinked
    obtain ⟨oRest, rfl, oTail⟩ := oLinked.of_some
    rw [ih linked oTail]

theorem suffix (linked : Linked next start (before ++ cell :: after)) :
    Linked next (next cell) after := by
  induction before generalizing start with
  | nil => exact linked.2
  | cons head rest ih => exact ih linked.2

section

variable (linked : Linked next start cells)
include linked

/-- A linked list does not come back to a cell. -/
theorem nodup : cells.Nodup := by
  induction cells generalizing start with
  | nil => exact nodup_nil
  | cons cell rest ih =>
    refine nodup_cons.mpr ⟨?_, ih linked.2⟩
    intro mem
    obtain ⟨before, after, split⟩ := append_of_mem mem
    have tail := linked.2
    rw [split] at tail
    have same := tail.unique tail.suffix
    have lengths := congrArg length same
    simp only [length_append, length_cons] at lengths
    omega

/-- Only what the list's own cells name matters. -/
theorem congr (same : ∀ cell ∈ cells, later cell = next cell) : Linked later start cells := by
  induction cells generalizing start with
  | nil => exact linked
  | cons cell rest ih =>
    refine ⟨linked.1, ?_⟩
    rw [same cell (mem_cons_self)]
    exact ih linked.2 fun o mem => same o (mem_cons_of_mem cell mem)

theorem cons (names : next cell = start) : Linked next (some cell) (cell :: cells) :=
  ⟨rfl, names ▸ linked⟩

end

/-- A new last cell, named by the one that was last. -/
theorem concat {last : Cell} (linked : Linked next start (before ++ [last]))
    (same : ∀ o ∈ before, later o = next o) (names : later last = some cell)
    (ends : later cell = none) : Linked later start (before ++ [last] ++ [cell]) := by
  induction before generalizing start with
  | nil =>
    refine ⟨linked.1, ?_, ?_⟩
    · exact names
    · exact ends
  | cons head rest ih =>
    refine ⟨linked.1, ?_⟩
    rw [same head mem_cons_self]
    exact ih linked.2 fun o mem => same o (mem_cons_of_mem head mem)

/-- A cell is taken out: the one before names the one after. -/
theorem remove {last : Cell} (linked : Linked next start (before ++ last :: cell :: after))
    (same : ∀ o ∈ before ++ after, later o = next o)
    (names : later last = next cell) : Linked later start (before ++ last :: after) := by
  induction before generalizing start with
  | nil =>
    obtain ⟨starts, named, rest⟩ := linked
    refine ⟨starts, ?_⟩
    rw [names]
    exact rest.congr same
  | cons head rest ih =>
    refine ⟨linked.1, ?_⟩
    rw [same head mem_cons_self]
    exact ih linked.2 fun o mem => same o (mem_cons_of_mem head mem)

end Linked

end Foundation
