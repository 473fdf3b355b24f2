import Mathlib.Data.List.Nodup
import Mathlib.Logic.Function.Iterate

/-! # Circular doubly linked lists

The nodes are a head, `none`, and cells. A stretch of the list is told from the cells that
`next` goes through between two nodes; `prev` leads back through them. -/

namespace Foundation

open Function List

structure Links (α : Type) where
  next : Option α → Option α
  prev : Option α → Option α

variable {α : Type}

namespace Links

/-- The list the other way round. -/
def flip (links : Links α) : Links α := ⟨links.prev, links.next⟩

/-- The links lead from `x` through the cells to `y`, and back. -/
def Path (links : Links α) : Option α → List α → Option α → Prop
  | x, [], y => links.next x = y ∧ links.prev y = x
  | x, cell :: cells, y =>
    links.next x = some cell ∧ links.prev (some cell) = x ∧ Path links (some cell) cells y

variable {links later : Links α} {x y z : Option α} {cell : α} {cells before : List α}

theorem path_append : links.Path x (before ++ cell :: cells) y ↔
    links.Path x before (some cell) ∧ links.Path (some cell) cells y := by
  induction before generalizing x with
  | nil => exact and_assoc.symm
  | cons first before ih =>
    rw [cons_append, Path, Path, ih, and_assoc, and_assoc]

theorem Path.flip (path : links.Path x cells y) : links.flip.Path y cells.reverse x := by
  induction cells generalizing x with
  | nil => exact ⟨path.2, path.1⟩
  | cons cell cells ih =>
    rw [reverse_cons, path_append]
    exact ⟨ih path.2.2, path.2.1, path.1⟩

/-- The steps of a walk along the list. -/
theorem Path.iterate (path : links.Path x cells none) {k : Nat} (inside : k ≤ cells.length) :
    links.next^[k + 1] x = cells[k]? := by
  induction cells generalizing x k with
  | nil =>
    obtain rfl : k = 0 := Nat.le_zero.mp inside
    exact path.1
  | cons cell cells ih =>
    rw [iterate_succ_apply, path.1]
    cases k with
    | zero => rfl
    | succ k => exact ih path.2.2 (Nat.le_of_succ_le_succ inside)

theorem Path.prev_next (path : links.Path x cells y) (z : Option α)
    (isIn : z = x ∨ z ∈ cells.map some) : links.prev (links.next z) = z := by
  induction cells generalizing x with
  | nil =>
    obtain rfl : z = x := by simpa using isIn
    rw [path.1, path.2]
  | cons cell cells ih =>
    rcases isIn with rfl | isIn
    · rw [path.1, path.2.1]
    · exact ih path.2.2 (mem_cons.mp isIn)

/-- The search of a loop from `x` to the head, with a bound on its rounds. -/
def search (step : Option α → Option α) (found : α → Bool) : Nat → Option α → Option α
  | rounds + 1, some cell => if found cell then some cell else search step found rounds (step cell)
  | _, _ => none

theorem Path.search_eq (path : links.Path x cells none) (found : α → Bool) {rounds : Nat}
    (enough : cells.length ≤ rounds) :
    search links.next found rounds (links.next x) = cells.find? found := by
  induction cells generalizing x rounds with
  | nil =>
    rw [path.1]
    cases rounds <;> rfl
  | cons cell cells ih =>
    rw [path.1]
    cases rounds with
    | zero => cases enough
    | succ rounds =>
      rw [search, find?_cons, ih path.2.2 (Nat.le_of_succ_le_succ enough)]
      cases found cell <;> rfl

variable [DecidableEq α]

/-- Make two nodes neighbours. -/
def join (links : Links α) (x y : Option α) : Links α :=
  ⟨update links.next x y, update links.prev y x⟩

/-- Put a cell behind the head. -/
def insert (links : Links α) (cell : α) : Links α :=
  let next := update links.next cell (links.next none)
  let prev := update links.prev cell none
  ⟨update next none cell, update prev (next none) cell⟩

/-- Take a cell out. -/
def unlink (links : Links α) (cell : α) : Links α :=
  let prev := update links.prev (links.next cell) (links.prev cell)
  ⟨update links.next (prev cell) (links.next cell), prev⟩

theorem unlink_eq_join : links.unlink cell = links.join (links.prev cell) (links.next cell) := by
  have same : update links.prev (links.next cell) (links.prev cell) cell = links.prev cell := by
    rw [update_apply, ite_eq_right_iff]
    exact fun _ => rfl
  rw [unlink, same, join]

theorem insert_eq_join (ne : links.next none ≠ some cell) :
    links.insert cell = (links.join cell (links.next none)).join none cell := by
  have next : update links.next (some cell) (links.next none) none = links.next none :=
    update_of_ne (by simp) _ _
  rw [insert, next, join, join, update_comm ne.symm]

section

variable {a b : Option α}

/-- Other nodes are made neighbours. -/
theorem Path.join (path : links.Path x cells y) (notNext : a ≠ x ∧ a ∉ cells.map some)
    (notPrev : b ≠ y ∧ b ∉ cells.map some) : (links.join a b).Path x cells y := by
  induction cells generalizing x with
  | nil =>
    refine ⟨?_, ?_⟩
    · exact (update_of_ne notNext.1.symm _ _).trans path.1
    · exact (update_of_ne notPrev.1.symm _ _).trans path.2
  | cons cell cells ih =>
    rw [map_cons, mem_cons, not_or] at notNext notPrev
    refine ⟨?_, ?_, ih path.2.2 notNext.2 ⟨notPrev.1, notPrev.2.2⟩⟩
    · exact (update_of_ne notNext.1.symm _ _).trans path.1
    · exact (update_of_ne (Ne.symm notPrev.2.1) _ _).trans path.2.1

/-- Another node comes before the cells. -/
theorem Path.restart (path : links.Path x cells y) (new : a ∉ cells.map some) (nodup : cells.Nodup)
    (notEnd : y ∉ cells.map some) : (links.join a (links.next x)).Path a cells y := by
  cases cells with
  | nil =>
    rw [path.1]
    exact ⟨update_self .., update_self ..⟩
  | cons cell cells =>
    rw [map_cons, mem_cons, not_or] at new notEnd
    rw [path.1]
    refine ⟨update_self .., update_self .., path.2.2.join new ⟨Ne.symm notEnd.1, ?_⟩⟩
    simpa using (nodup_cons.mp nodup).1

end

theorem Path.insert (path : links.Path none cells none) (new : cell ∉ cells)
    (nodup : cells.Nodup) : (links.insert cell).Path none (cell :: cells) none := by
  have ne : links.next none ≠ some cell := by
    cases cells with
    | nil => simp [path.1]
    | cons first cells =>
      rw [path.1]
      rintro ⟨⟩
      exact new mem_cons_self
  rw [insert_eq_join ne]
  have rest := path.restart (a := some cell) (by simpa using new) nodup (by simp)
  exact ⟨by simp [Links.join], by simp [Links.join], rest.join (by simp) (by simpa using new)⟩

theorem Path.unlink (path : links.Path none (before ++ cell :: cells) none) (nodup :
    (before ++ cell :: cells).Nodup) : (links.unlink cell).Path none (before ++ cells) none := by
  obtain ⟨first, second⟩ := path_append.mp path
  rw [nodup_middle, nodup_cons, mem_append, not_or, nodup_append] at nodup
  obtain ⟨_, old, nodup, apart⟩ := nodup
  rw [unlink_eq_join]
  rcases eq_nil_or_concat before with rfl | ⟨before, last, rfl⟩
  · rw [first.2]
    exact second.restart (by simp) nodup (by simp)
  rw [concat_eq_append, path_append] at first
  rw [first.2.2, concat_eq_append, append_assoc, singleton_append, path_append]
  have lastNot : last ∉ cells := fun mem => apart last (by simp) last mem rfl
  refine ⟨first.1.join ?_ ?_, second.restart (by simpa using lastNot) nodup (by simp)⟩
  · rw [concat_eq_append, nodup_append] at old
    have notBefore : last ∉ before := fun mem => old.2.2 last mem last (by simp) rfl
    simpa using notBefore
  cases cells with
  | nil => simp [second.1]
  | cons next cells =>
    have notNext : next ∉ before.concat last := fun mem => apart next mem next (by simp) rfl
    rw [concat_eq_append, mem_append, not_or, mem_singleton] at notNext
    simpa [second.1] using notNext.symm

end Links

end Foundation
