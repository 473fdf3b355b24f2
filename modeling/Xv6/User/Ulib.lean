import Xv6.Vm.Copy

/-! # Overlapping copies

`memmove` of `ulib.c`, beside the one of `string.c`. -/

namespace Xv6.Ulib

open Foundation Function Vm

/-- The `int` `n` bounds the loops, which a negative number ends at once; the pointers of the
second one start behind the regions. -/
def memmove (vdst vsrc : Nat) (n : BitVec 32) (mem : Mem) : Mem :=
  if vsrc > vdst then moveUp n.toInt.toNat vdst vsrc mem
  else moveDown n.toInt.toNat (vdst + n.toInt).toNat (vsrc + n.toInt).toNat mem

variable {d s n : Nat} {mem : Mem}

theorem user_memmove_eq {n : BitVec 32} (positive : n.toNat < 2 ^ 31) :
    memmove d s n mem = overlay mem d n.toNat fun i => mem (s + i) := by
  have same : n.toInt = n.toNat := BitVec.toInt_eq_toNat_of_lt (by omega)
  rw [memmove, same, Int.toNat_natCast]
  split
  · exact moveUp_eq (by omega)
  · exact moveDown_eq (by omega)

theorem user_memmove_negative {n : BitVec 32} (negative : 2 ^ 31 ≤ n.toNat) :
    memmove d s n mem = mem := by
  have bound := n.isLt
  have none : n.toInt.toNat = 0 := by
    rw [BitVec.toInt_eq_toNat_cond]
    split <;> omega
  rw [memmove, none]
  split <;> rfl

/-- The kernel's `memmove` copies the old bytes of the source, however the regions overlap. That
of the user library does the same for a length that is positive as an `int`, and nothing for any
other. -/
theorem memmove_agrees (d s : Nat) (n : BitVec 32) (mem : Mem) :
    (∀ i < n.toNat, Vm.memmove d s n.toNat mem (d + i) = mem (s + i)) ∧
      (∀ a, a < d ∨ d + n.toNat ≤ a → Vm.memmove d s n.toNat mem a = mem a) ∧
      memmove d s n mem = if n.toNat < 2 ^ 31 then Vm.memmove d s n.toNat mem else mem := by
  rw [Vm.memmove_eq]
  refine ⟨fun i below => ?_, fun a outside => if_neg (by omega), ?_⟩
  · rw [overlay, if_pos (by omega), Nat.add_sub_cancel_left]
  · split
    · next positive => exact user_memmove_eq positive
    · next negative => exact user_memmove_negative (by omega)

/-- A length of 2^31 bytes is a negative `int`. -/
theorem memmove_differs : ∃ d s n mem, Vm.memmove d s (n : BitVec 32).toNat mem d = mem s ∧
    memmove d s n mem d ≠ mem s := by
  refine ⟨0, 2 ^ 31, 2 ^ 31, fun a => if a = 0 then 0 else 1, ?_, ?_⟩
  · rw [Vm.memmove_eq, overlay, if_pos (by decide)]
    rfl
  · rw [user_memmove_negative (by decide)]
    decide

end Xv6.Ulib
