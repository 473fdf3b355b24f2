import Mathlib.Data.List.Basic

/-! # Overwriting a range of a list

The values from a position on are replaced, and the list grows if they reach past its
end. -/

namespace Foundation

open List

variable {α : Type}

/-- The list with `values` from `start` on. -/
def splice (list : List α) (start : Nat) (values : List α) : List α :=
  list.take start ++ values ++ list.drop (start + values.length)

theorem splice_nil (list : List α) (start : Nat) : splice list start [] = list := by
  rw [splice, append_nil, length_nil, Nat.add_zero, take_append_drop]

theorem length_splice {list values : List α} {start : Nat} (within : start ≤ list.length) :
    (splice list start values).length = max list.length (start + values.length) := by
  rw [splice, length_append, length_append, length_take, length_drop]
  omega

/-- Two ranges, one right after the other, are one range. -/
theorem splice_splice {list : List α}
    {start : Nat} (within : start ≤ list.length) (first snd : List α) : splice
    (splice list start first) (start + first.length) snd = splice list start (first ++ snd) := by
  have head : (list.take start ++ first).length = start + first.length := by
    rw [length_append, length_take, Nat.min_eq_left within]
  have tail : (list.take start ++ first).length ≤ start + first.length + snd.length := by omega
  have rest : start + first.length + (start + first.length + snd.length - (start + first.length)) =
        start + (first.length + snd.length) := by
    omega
  rw [splice, splice, take_left' head, drop_append, drop_eq_nil_of_le tail, head,
    nil_append, drop_drop, rest, splice, length_append, append_assoc,
    append_assoc, append_assoc, append_assoc]

/-- The function with the values of `source` at `count` positions from `start` on. -/
def overlay (old : Nat → α) (start count : Nat) (source : Nat → α) (pos : Nat) : α :=
  if start ≤ pos ∧ pos < start + count then source (pos - start)
  else old pos

/-- Overwriting a list is overwriting the function that it lists. -/
theorem map_range_overlay {old source : Nat → α} {size start count : Nat} (within : start ≤ size) :
    (range (max size (start + count))).map (overlay old start count source) =
    splice ((range size).map old) start ((range count).map source) := by
  apply ext_getElem
  · rw [length_splice (by simpa using within)]
    simp
  intro pos below _
  rw [getElem_map, getElem_range, overlay]
  rw [length_map, length_range] at below
  simp only [splice, length_map, length_range, getElem_append,
    length_append, length_take, getElem_take, getElem_map,
    getElem_range, getElem_drop, Nat.min_eq_left within]
  by_cases pre : pos < start
  · rw [if_neg (by omega), dif_pos (by omega), dif_pos pre]
  by_cases isIn : pos < start + count
  · rw [if_pos ⟨by omega, isIn⟩, dif_pos isIn, dif_neg pre]
  rw [if_neg (by omega), dif_neg isIn]
  congr 1
  omega

end Foundation
