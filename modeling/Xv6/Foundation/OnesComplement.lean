import Mathlib.Data.Nat.ModEq
import Mathlib.Algebra.BigOperators.Group.List.Basic
import Xv6.Foundation.Buffer

/-! # One's complement sums

Words below a radix are added with end-around carry: a carry out of the top is
added back at the bottom. Such a sum is a residue modulo `radix - 1`, with two
representatives of zero, and so does not depend on the order of the words nor,
for sums of two-byte words, on the order of the bytes within each word. -/

namespace Foundation

open List

/-! ## Addition with end-around carry -/

def onesAdd (radix left right : Nat) : Nat :=
  if left + right < radix then left + right else left + right - (radix - 1)

/-- The one's complement sum of a list of words. -/
def onesSum (radix : Nat) (words : List Nat) : Nat :=
  words.foldl (onesAdd radix) 0

section

variable {radix : Nat} {left right : Nat}

theorem onesAdd_lt (leftBound : left < radix)
    (rightBound : right < radix) : onesAdd radix left right < radix := by
  unfold onesAdd
  split <;> omega

theorem onesAdd_modEq (leftBound : left < radix) :
    onesAdd radix left right ≡ left + right [MOD radix - 1] := by
  unfold onesAdd
  split
  · rfl
  · have carried : radix - 1 ≤ left + right := by omega
    exact (Nat.modEq_iff_dvd' (Nat.sub_le _ _)).mpr (Dvd.intro 1 (by omega))

theorem onesAdd_eq_zero (leftBound : left < radix) :
    onesAdd radix left right = 0 ↔ left + right = 0 := by
  unfold onesAdd
  split <;> omega

/-- What a one's complement sum of words is, read from any start value. -/
theorem foldl_onesAdd (words : List Nat) (bounds : ∀ word ∈ words, word < radix)
    (start : Nat) (startBound : start < radix) : words.foldl (onesAdd radix) start < radix ∧
    words.foldl (onesAdd radix) start ≡ start + words.sum [MOD radix - 1] ∧
    (words.foldl (onesAdd radix) start = 0 ↔ start + words.sum = 0) := by
  induction words generalizing start with
  | nil => exact ⟨startBound, by rfl, by simp⟩
  | cons word rest ih =>
    have wordBound := bounds word mem_cons_self
    have later := ih (fun o mem => bounds o (mem_cons_of_mem _ mem))
      (onesAdd radix start word) (onesAdd_lt startBound wordBound)
    have step := @onesAdd_modEq radix start word startBound
    have zero := @onesAdd_eq_zero radix start word startBound
    refine ⟨later.1, ?_, ?_⟩
    · rw [sum_cons, ← add_assoc]
      exact later.2.1.trans (step.add_right _)
    · rw [foldl_cons, later.2.2, sum_cons]
      omega

/-- Adding the carries of a sum back at the bottom keeps its residue. -/
theorem fold_modEq (sum : Nat) (pos : 0 < radix) :
    sum % radix + sum / radix ≡ sum [MOD radix - 1] := by
  have parts : sum = sum % radix + sum / radix + (radix - 1) * (sum / radix) := by
    obtain ⟨ones, rfl⟩ : ∃ ones, radix = ones + 1 := ⟨radix - 1, by omega⟩
    have division := Nat.mod_add_div sum (ones + 1)
    rw [add_mul, one_mul] at division
    rw [Nat.add_sub_cancel]
    omega
  have residue := Nat.add_mul_mod_self_left (sum % radix + sum / radix) (radix - 1) (sum / radix)
  rw [← parts] at residue
  exact residue.symm

variable {words : List Nat}

section

variable (bounds : ∀ word ∈ words, word < radix)
include bounds

/-- A number below the radix that agrees with the plain sum modulo `radix - 1`
and is zero only with it is the one's complement sum. -/
theorem eq_onesSum {v : Nat} (bound : v < radix) (residue : v ≡ words.sum [MOD radix - 1])
    (zero : v = 0 ↔ words.sum = 0) : v = onesSum radix words := by
  obtain ⟨sumBound, sumResidue, sumZero⟩ := foldl_onesAdd words bounds 0 (by omega)
  rw [zero_add] at sumResidue sumZero
  change v = words.foldl (onesAdd radix) 0
  have same := residue.trans sumResidue.symm
  rcases lt_or_ge v (radix - 1) with below | full
  · rcases lt_or_ge (words.foldl (onesAdd radix) 0) (radix - 1) with sumBelow | sumFull
    · exact same.eq_of_lt_of_lt below sumBelow
    have all : words.foldl (onesAdd radix) 0 = radix - 1 := by omega
    have none : v = 0 := by
      rw [all] at same
      simpa [Nat.ModEq, Nat.mod_eq_of_lt below] using same
    omega
  · rcases lt_or_ge (words.foldl (onesAdd radix) 0) (radix - 1) with sumBelow | sumFull
    · have all : v = radix - 1 := by omega
      have none : words.foldl (onesAdd radix) 0 = 0 := by
        rw [all] at same
        simpa [Nat.ModEq, Nat.mod_eq_of_lt sumBelow] using same.symm
      omega
    · omega

theorem onesSum_lt (pos : 0 < radix) : onesSum radix words < radix :=
  (foldl_onesAdd words bounds 0 pos).1

/-- A one's complement sum has all bits set exactly when the plain sum is a
multiple of `radix - 1` other than zero. -/
theorem onesSum_eq_ones (twoValues : 2 ≤ radix) :
    onesSum radix words = radix - 1 ↔ words.sum ≠ 0 ∧ words.sum % (radix - 1) = 0 := by
  obtain ⟨bound, residue, zero⟩ := foldl_onesAdd words bounds 0 (by omega)
  rw [zero_add] at residue zero
  change words.foldl (onesAdd radix) 0 = radix - 1 ↔ _
  constructor
  · intro all
    rw [all, Nat.ModEq, Nat.mod_self] at residue
    exact ⟨by omega, residue.symm⟩
  rintro ⟨some, multiple⟩
  rw [← residue] at multiple
  have divides := Nat.dvd_of_mod_eq_zero multiple
  have atLeast := Nat.le_of_dvd (by omega) divides
  omega

/-- Adding the complement of the sum makes a sum with all bits set. -/
theorem sum_add_complement (twoValues : 2 ≤ radix) {complement : Nat}
    (complements : complement = radix - 1 - onesSum radix words) :
    words.sum + complement ≠ 0 ∧ (words.sum + complement) % (radix - 1) = 0 := by
  obtain ⟨bound, residue, zero⟩ := foldl_onesAdd words bounds 0 (by omega)
  rw [zero_add] at residue zero
  change complement = radix - 1 - words.foldl (onesAdd radix) 0 at complements
  constructor
  · omega
  have exact : words.foldl (onesAdd radix) 0 + complement = radix - 1 := by omega
  have moved := residue.add_right complement
  rw [exact] at moved
  rw [← moved, Nat.mod_self]

end

end

/-! ## Words of two bytes -/

/-- The two-byte words of a byte string, least significant byte first. A last
byte alone is the low byte of its word. -/
def littleWords : List UInt8 → List Nat
  | low :: high :: rest => (low.toNat + 256 * high.toNat) :: littleWords rest
  | [low] => [low.toNat]
  | [] => []

/-- The two-byte words of a byte string, most significant byte first. A last
byte alone is the high byte of its word. -/
def bigWords : List UInt8 → List Nat
  | high :: low :: rest => (256 * high.toNat + low.toNat) :: bigWords rest
  | [high] => [256 * high.toNat]
  | [] => []

theorem littleWords_append {first : List UInt8} (even : first.length % 2 = 0) (second :
    List UInt8) : littleWords (first ++ second) = littleWords first ++ littleWords second := by
  fun_induction littleWords first with
  | case1 low high rest ih =>
    rw [length_cons, length_cons] at even
    rw [cons_append, cons_append, littleWords, ih (by omega), cons_append]
  | case2 low =>
    rw [length_singleton] at even
    omega
  | case3 => rfl

section

variable (bytes : List UInt8)
include bytes

theorem littleWords_lt : ∀ word ∈ littleWords bytes, word < 2 ^ 16 := by
  fun_induction littleWords bytes with
  | case1 low high rest ih =>
    have lowBound := low.toNat_lt
    have highBound := high.toNat_lt
    rw [forall_mem_cons]
    exact ⟨by omega, ih⟩
  | case2 low =>
    have lowBound := low.toNat_lt
    rw [forall_mem_singleton]
    omega
  | case3 => simp

theorem bigWords_lt : ∀ word ∈ bigWords bytes, word < 2 ^ 16 := by
  fun_induction bigWords bytes with
  | case1 high low rest ih =>
    have lowBound := low.toNat_lt
    have highBound := high.toNat_lt
    rw [forall_mem_cons]
    exact ⟨by omega, ih⟩
  | case2 high =>
    have highBound := high.toNat_lt
    rw [forall_mem_singleton]
    omega
  | case3 => simp

theorem sum_littleWords_le : (littleWords bytes).sum ≤ 65535 * ((bytes.length + 1) / 2) := by
  fun_induction littleWords bytes with
  | case1 low high rest ih =>
    have lowBound := low.toNat_lt
    have highBound := high.toNat_lt
    rw [sum_cons, length_cons, length_cons]
    omega
  | case2 low =>
    have lowBound := low.toNat_lt
    rw [sum_singleton, length_singleton]
    omega
  | case3 => simp

/-- Swapping the bytes of every word multiplies the sum by 256, modulo
`2 ^ 16 - 1`. -/
theorem sum_littleWords : (littleWords bytes).sum % 65535 = (256 * (bigWords bytes).sum) % 65535 ∧
    ((littleWords bytes).sum = 0 ↔ (bigWords bytes).sum = 0) := by
  fun_induction littleWords bytes with
  | case1 low high rest ih =>
    rw [bigWords, sum_cons, sum_cons]
    omega
  | case2 low =>
    rw [bigWords, sum_singleton, sum_singleton]
    omega
  | case3 => simp [bigWords]

/-- The sum of the words has all bits set in one byte order exactly when it has
in the other. -/
theorem onesSum_byteOrder : onesSum (2 ^ 16) (littleWords bytes) = 2 ^ 16 - 1 ↔
    onesSum (2 ^ 16) (bigWords bytes) = 2 ^ 16 - 1 := by
  rw [onesSum_eq_ones (littleWords_lt bytes) (by decide),
    onesSum_eq_ones (bigWords_lt bytes) (by decide)]
  have swapped := sum_littleWords bytes
  omega

end

example : onesSum (2 ^ 16) (bigWords [0xff, 0xfe, 0x00, 0x03]) = 2 := by decide

end Foundation
