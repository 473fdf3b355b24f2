import Mathlib.Data.List.Basic
import Mathlib.Logic.Function.Basic

/-! # Windows onto a ring

Items are numbered from zero in the order in which they enter a ring of `size`
cells, and item `k` goes into cell `k % size`. A window says what the cells hold
of the items from some number on; nothing is said about the other cells. -/

namespace Foundation

open List

/-- An item of an extended list is an older one or the new one at the end. -/
theorem getElem?_concat_cases {items : List α} {last item : α} {k : Nat}
    (hit : (items ++ [last])[k]? = some item) :
    items[k]? = some item ∨ k = items.length ∧ item = last := by
  rcases Nat.lt_or_ge k items.length with old | new
  · rw [getElem?_append_left old] at hit
    exact Or.inl hit
  rw [getElem?_append_right new, getElem?_singleton] at hit
  by_cases atEnd : k - items.length = 0
  · rw [if_pos atEnd] at hit
    cases hit
    exact Or.inr ⟨by omega, rfl⟩
  · rw [if_neg atEnd] at hit
    cases hit

theorem getElem?_lt {items : List α} {item : α} {k : Nat}
    (hit : items[k]? = some item) : k < items.length := (List.getElem?_eq_some_iff.mp hit).1

theorem getElem?_concat_old {items : List α} {last item : α} {k : Nat}
    (hit : items[k]? = some item) : (items ++ [last])[k]? = some item := by
  rwa [getElem?_append_left (getElem?_lt hit)]

/-- Numbers less than a whole round apart have different cells. -/
theorem eq_of_mod_eq {size first second : Nat} (eq : first % size = second % size)
    (below : first < second + size) (above : second < first + size) : first = second := by
  have apart : ∀ {low high : Nat}, low ≤ high → high < low + size →
      low % size = high % size → low = high := by
    intro low high ordered close same
    have none : (high - low) % size = 0 := Nat.sub_mod_eq_zero_of_mod_eq same.symm
    rw [Nat.mod_eq_of_lt (by omega)] at none
    omega
  rcases Nat.le_total first second with ordered | ordered
  · exact apart ordered above eq
  · exact (apart ordered below eq.symm).symm

/-- The cells hold the items from number `first` on. -/
def Window (size : Nat) (Holds : α → β → Prop) (cells : Nat → α) (items : List β)
    (first : Nat) : Prop :=
  ∀ k item, first ≤ k → items[k]? = some item → Holds (cells (k % size)) item

namespace Window

variable {size : Nat} {Holds : α → β → Prop} {cells : Nat → α} {items : List β} {first : Nat}

theorem nil (size : Nat) (Holds : α → β → Prop) (cells : Nat → α) (first : Nat) :
    Window size Holds cells [] first := by
  rintro k item _ ⟨⟩

section

variable (window : Window size Holds cells items first)
include window

theorem later {next : Nat} (ordered : first ≤ next) : Window size Holds cells items next := by
  intro k item after hit
  exact window k item (Nat.le_trans ordered after) hit

/-- What a cell is known to hold may be weakened, cell by cell. -/
theorem change {Holds' : α → β → Prop} {cells' : Nat → α}
    (changes : ∀ k item, first ≤ k → items[k]? = some item → Holds (cells (k % size)) item →
    Holds' (cells' (k % size)) item) : Window size Holds' cells' items first := by
  intro k item after hit
  exact changes k item after hit (window k item after hit)

/-- A cell outside the window may change: that of any number which all items of
the window are less than a round away from. -/
theorem update {outside : Nat} (below : items.length ≤ outside + size)
    (above : outside < first + size) (apart : outside < first ∨ items.length ≤ outside)
    (cell : α) : Window size Holds (Function.update cells (outside % size) cell) items first := by
  intro k item after found
  have isIn := getElem?_lt found
  have ne : k % size ≠ outside % size := by
    intro eq
    have same := eq_of_mod_eq eq (by omega) (by omega)
    omega
  rw [Function.update_of_ne ne]
  exact window k item after found

/-- A new item enters through a cell that holds it already. -/
theorem concat {item : β} (h : Holds (cells (items.length % size)) item) :
    Window size Holds cells (items ++ [item]) first := by
  intro k o after hit
  rcases getElem?_concat_cases hit with old | ⟨rfl, rfl⟩
  · exact window k o after old
  · exact h

end

end Window

end Foundation
