import Xv6.Foundation.OnesComplement

/-! # Network byte order and the Internet checksum

The byte swaps of `net.h` and `in_cksum` of `net.c`. The machine is little
endian; a header's fields are big endian, and its checksum is the complement of
the one's complement sum of its words. -/

namespace Xv6

open Foundation Buffer List

/-! ## Byte order -/

/-- The argument is a `uint16`. -/
def bswaps (val : Nat) : Nat :=
  ((val &&& 0x00ff) <<< 8) ||| ((val &&& 0xff00) >>> 8)

/-- The argument is a `uint32`. -/
def bswapl (val : Nat) : Nat :=
  ((val &&& 0x000000ff) <<< 24) |||
    ((val &&& 0x0000ff00) <<< 8) |||
    ((val &&& 0x00ff0000) >>> 8) |||
    ((val &&& 0xff000000) >>> 24)

abbrev ntohs := bswaps
abbrev ntohl := bswapl
abbrev htons := bswaps
abbrev htonl := bswapl

theorem and_byte (val place : Nat) :
    val &&& (255 <<< (8 * place)) = (val / 256 ^ place % 256) <<< (8 * place) := by
  have low : val / 256 ^ place % 256 = (val >>> (8 * place)) &&& 255 := by
    rw [Nat.shiftRight_eq_div_pow, Nat.pow_mul]
    exact (Nat.and_two_pow_sub_one_eq_mod _ 8).symm
  rw [low]
  apply Nat.eq_of_testBit_eq
  intro bit
  by_cases isIn : 8 * place ≤ bit
  · simp [Nat.testBit_shiftLeft, isIn]
  · simp [Nat.testBit_shiftLeft, isIn]

theorem shiftLeft_or_lt {high low : Nat} (place weight : Nat) (bound : low < weight)
    (pow : 2 ^ place = weight) : high <<< place ||| low = high * weight + low := by
  subst pow
  rw [← Nat.shiftLeft_add_eq_or_of_lt bound, Nat.shiftLeft_eq]

-- Every byte lies above the sum of those to its right.
theorem or_four_bytes {fst snd third fourth : Nat} (sndBound : snd < 256) (thirdBound : third < 256)
    (fourthBound : fourth < 256) : fst <<< 24 ||| (snd <<< 16 ||| (third <<< 8 ||| fourth)) =
    fst * 16777216 + (snd * 65536 + (third * 256 + fourth)) := by
  rw [shiftLeft_or_lt 8 256 fourthBound rfl, shiftLeft_or_lt 16 65536 (by omega) rfl,
    shiftLeft_or_lt 24 16777216 (by omega) rfl]

theorem bswaps_eq (val : Nat) : bswaps val = val % 256 * 256 + val / 256 % 256 := by
  change (val &&& (255 <<< (8 * 0))) <<< 8 ||| (val &&& (255 <<< (8 * 1))) >>> 8 = _
  rw [and_byte, and_byte, Nat.mul_one, Nat.shiftLeft_shiftRight, mul_zero,
    Nat.shiftLeft_zero, shiftLeft_or_lt 8 256 (Nat.mod_lt _ (by decide)) rfl, pow_zero,
    Nat.div_one, pow_one]

theorem bswapl_eq (val : Nat) : bswapl val = val % 256 * 16777216 +
    (val / 256 % 256 * 65536 + (val / 256 / 256 % 256 * 256 + val / 256 / 256 / 256 % 256)) := by
  change (val &&& (255 <<< (8 * 0))) <<< 24 ||| (val &&& (255 <<< (8 * 1))) <<< 8 |||
    (val &&& (255 <<< (8 * 2))) >>> 8 ||| (val &&& (255 <<< (8 * 3))) >>> 24 = _
  have snd : (val / 256 ^ 1 % 256) <<< (8 * 1) <<< 8 = (val / 256 % 256) <<< 16 := by
    rw [← Nat.shiftLeft_add, pow_one]
  have third : (val / 256 ^ 2 % 256) <<< (8 * 2) >>> 8 = (val / 256 ^ 2 % 256) <<< 8 := by
    rw [show 8 * 2 = 8 + 8 from rfl, Nat.shiftLeft_add, Nat.shiftLeft_shiftRight]
  have squared : val / 256 / 256 = val / 256 ^ 2 := Nat.div_div_eq_div_mul _ _ _
  have cubed : val / 256 ^ 2 / 256 = val / 256 ^ 3 := Nat.div_div_eq_div_mul _ _ _
  rw [and_byte, and_byte, and_byte, and_byte, snd, third, Nat.shiftLeft_shiftRight,
    mul_zero, Nat.shiftLeft_zero, Nat.or_assoc, Nat.or_assoc, squared, cubed,
    or_four_bytes (Nat.mod_lt _ (by decide)) (Nat.mod_lt _ (by decide))
      (Nat.mod_lt _ (by decide)), pow_zero, Nat.div_one]

theorem bswaps_lt (val : Nat) : bswaps val < 2 ^ 16 := by
  rw [bswaps_eq]
  omega

theorem bswapl_lt (val : Nat) : bswapl val < 2 ^ 32 := by
  rw [bswapl_eq]
  omega

theorem bswaps_bytes {first second : Nat} (fstBound : first < 256) (sndBound : second < 256) :
    bswaps (first + 256 * second) = second + 256 * first := by
  have high : (first + 256 * second) / 256 = second := by omega
  rw [bswaps_eq, high]
  omega

theorem bswapl_bytes {fst snd third fourth : Nat} (fstBound : fst < 256)
    (sndBound : snd < 256) (thirdBound : third < 256) (fourthBound : fourth < 256) :
    bswapl (fst + 256 * (snd + 256 * (third + 256 * fourth))) =
    fourth + 256 * (third + 256 * (snd + 256 * fst)) := by
  have above : (fst + 256 * (snd + 256 * (third + 256 * fourth))) / 256 =
    snd + 256 * (third + 256 * fourth) := by omega
  have next : (snd + 256 * (third + 256 * fourth)) / 256 = third + 256 * fourth := by omega
  have top : (third + 256 * fourth) / 256 = fourth := by omega
  rw [bswapl_eq, above, next, top]
  omega

theorem bswaps_bswaps (val : Nat) : bswaps (bswaps val) = val % 2 ^ 16 := by
  have swapped : bswaps val = val / 256 % 256 + 256 * (val % 256) := by
    rw [bswaps_eq]
    omega
  rw [swapped, bswaps_bytes (by omega) (by omega)]
  omega

theorem bswapl_bswapl (val : Nat) : bswapl (bswapl val) = val % 2 ^ 32 := by
  have swapped : bswapl val = val / 256 / 256 / 256 % 256 +
      256 * (val / 256 / 256 % 256 + 256 * (val / 256 % 256 + 256 * (val % 256))) := by
    rw [bswapl_eq]
    omega
  rw [swapped, bswapl_bytes (by omega) (by omega) (by omega) (by omega)]
  omega

theorem bswaps_littleEndian {bytes : List UInt8} (two : bytes.length = 2) :
    bswaps (littleEndian bytes) = bigEndian bytes := by
  obtain ⟨first, second, rfl⟩ := length_eq_two.mp two
  exact bswaps_bytes first.toNat_lt second.toNat_lt

theorem bswapl_littleEndian {bytes : List UInt8} (four : bytes.length = 4) :
    bswapl (littleEndian bytes) = bigEndian bytes := by
  obtain ⟨first, second, third, fourth, rfl⟩ := length_eq_four.mp four
  exact bswapl_bytes first.toNat_lt second.toNat_lt third.toNat_lt fourth.toNat_lt

/-! ## The checksum -/

variable {size : Nat}

/-- The loop of `in_cksum` with the odd byte after it: what `sum` is when
`nleft` bytes from `w` on have been added. -/
def inCksumSum (buf : Buffer size) : Nat → Nat → Nat → Nat
  | w, nleft + 2, sum => inCksumSum buf (w + 2) nleft ((sum + buf.number w 2) % 2 ^ 32)
  | w, 1, sum => (sum + (buf.byte w).toNat) % 2 ^ 32
  | _, 0, sum => sum

def inCksum (buf : Buffer size) (addr len : Nat) : Nat :=
  let sum := inCksumSum buf addr len 0
  let sum := (sum &&& 0xffff) + (sum >>> 16)
  let sum := (sum + (sum >>> 16)) % 2 ^ 32
  (2 ^ 32 - 1 - sum) % 2 ^ 16

theorem inCksumSum_eq (buf : Buffer size) (w nleft sum : Nat)
    (small : sum + 65535 * ((nleft + 1) / 2) < 2 ^ 32) :
    inCksumSum buf w nleft sum = sum + (littleWords (buf.slice w nleft)).sum := by
  fun_induction inCksumSum buf w nleft sum with
  | case1 w nleft sum ih =>
    have word : buf.number w 2 = (buf.byte w).toNat + 256 * (buf.byte (w + 1)).toNat := rfl
    have low := (buf.byte w).toNat_lt
    have high := (buf.byte (w + 1)).toNat_lt
    have noOverflow : (sum + buf.number w 2) % 2 ^ 32 = sum + buf.number w 2 :=
      Nat.mod_eq_of_lt (by omega)
    rw [noOverflow] at ih ⊢
    rw [ih (by omega), slice_succ, slice_succ, littleWords, sum_cons, word, add_assoc]
  | case2 w sum =>
    have low := (buf.byte w).toNat_lt
    rw [Nat.mod_eq_of_lt (by omega)]
    rfl
  | case3 w sum => rfl

theorem fold_twice {total once : Nat} (small : total < 2 ^ 32) (folded :
    once = total % 65536 + total / 65536) : (once + once / 65536) % 65536 ≡ total [MOD 2 ^ 16 - 1] ∧
    ((once + once / 65536) % 65536 = 0 ↔ total = 0) := by
  have residue : once ≡ total [MOD 2 ^ 16 - 1] := by
    rw [folded]
    exact fold_modEq total (by decide : 0 < 2 ^ 16)
  rcases lt_or_ge once 65536 with below | carry
  · have same : (once + once / 65536) % 65536 = once := by omega
    rw [same]
    exact ⟨residue, by omega⟩
  have carried : once / 65536 = 1 := by omega
  have less : once = (once + once / 65536) % 65536 + 65535 := by omega
  have again : once ≡ (once + once / 65536) % 65536 [MOD 2 ^ 16 - 1] := by
    rw [Nat.ModEq]
    omega
  exact ⟨again.symm.trans residue, by omega⟩

theorem inCksum_eq (buf : Buffer size) {addr len : Nat} (short : len < 2 ^ 17) :
    inCksum buf addr len = 2 ^ 16 - 1 - onesSum (2 ^ 16) (littleWords (buf.slice addr len)) := by
  have total := inCksumSum_eq buf addr len 0 (by omega)
  have bound := sum_littleWords_le (buf.slice addr len)
  rw [length_slice] at bound
  rw [zero_add] at total
  have folded := @fold_twice (littleWords (buf.slice addr len)).sum _ (by omega) rfl
  rw [← eq_onesSum (littleWords_lt _) (Nat.mod_lt _ (by decide)) folded.1 folded.2]
  simp only [inCksum, total, Nat.shiftRight_eq_div_pow]
  rw [show (0xffff : Nat) = 2 ^ 16 - 1 from rfl, Nat.and_two_pow_sub_one_eq_mod]
  omega

/-- The bytes of a header whose checksum is right: the one's complement sum of
its big-endian words, the checksum among them, has all bits set. -/
def Verifies (header : List UInt8) : Prop :=
  onesSum (2 ^ 16) (bigWords header) = 2 ^ 16 - 1

instance (header : List UInt8) : Decidable (Verifies header) :=
  inferInstanceAs (Decidable (_ = _))

theorem inCksum_eq_zero_iff (buf : Buffer size) {addr len : Nat} (short : len < 2 ^ 17) :
    inCksum buf addr len = 0 ↔ Verifies (buf.slice addr len) := by
  have bound := onesSum_lt (littleWords_lt (buf.slice addr len)) (by decide)
  rw [Verifies, ← onesSum_byteOrder, inCksum_eq buf short]
  omega

theorem sum_littleWords_split (buf : Buffer size)
    (addr : Nat) {old : Nat} (after : Nat) (even : old % 2 = 0) :
    (littleWords (buf.slice addr (old + 2 + after))).sum = (littleWords (buf.slice addr old)).sum +
    buf.number (addr + old) 2 + (littleWords (buf.slice (addr + (old + 2)) after)).sum := by
  have word : (littleWords (buf.slice (addr + old) 2)).sum = buf.number (addr + old) 2 :=
    rfl
  rw [slice_add, littleWords_append (by rw [length_slice]; omega),
    slice_add, littleWords_append (by rwa [length_slice]), sum_append, sum_append, word]

theorem verifies_setField_inCksum (buf : Buffer size) (addr : Nat) {old after : Nat}
    (even : old % 2 = 0) (short : old + 2 + after < 2 ^ 17)
    (fits : addr + old + 2 ≤ size) (zero : buf.number (addr + old) 2 = 0) :
    Verifies ((buf.setField addr ⟨old, 2⟩ (inCksum buf addr (old + 2 + after))).slice addr
    (old + 2 + after)) := by
  have v := @inCksum_eq _ buf addr _ short
  generalize inCksum buf addr (old + 2 + after) = csum at v ⊢
  have low := slice_setField_disjoint buf addr ⟨old, 2⟩ csum addr old (Or.inl le_rfl)
  have high := slice_setField_disjoint buf addr ⟨old, 2⟩ csum
    (addr + (old + 2)) after (Or.inr (le_of_eq (add_assoc _ _ _)))
  have word := field_setField_self buf addr ⟨old, 2⟩ csum fits
  rw [field, Nat.mod_eq_of_lt (show csum < 256 ^ 2 by omega)] at word
  have total := sum_littleWords_split buf addr after even
  have complement := sum_add_complement (littleWords_lt _) (by decide) v
  rw [Verifies, ← onesSum_byteOrder, onesSum_eq_ones (littleWords_lt _) (by decide),
    sum_littleWords_split _ _ _ even, low, high, word]
  rwa [total, zero, add_zero, add_right_comm] at complement

/-- The accumulator loses nothing, what comes out is the complement of the sum, and a header
with its checksum stored sums to all ones. -/
theorem inCksum_complements (buf : Buffer size) (addr len : Nat) (short : len < 2 ^ 17) :
    inCksumSum buf addr len 0 = (littleWords (buf.slice addr len)).sum ∧
      inCksum buf addr len = 2 ^ 16 - 1 - onesSum (2 ^ 16) (littleWords (buf.slice addr len)) ∧
      (inCksum buf addr len = 0 ↔ onesSum (2 ^ 16) (littleWords (buf.slice addr len)) = 0xffff) ∧
      ∀ old, old % 2 = 0 → old + 2 ≤ len → addr + len ≤ size → buf.number (addr + old) 2 = 0 →
        inCksum (buf.setField addr ⟨old, 2⟩ (inCksum buf addr len)) addr len = 0 := by
  have total := inCksumSum_eq buf addr len 0 (by omega)
  refine ⟨by rw [total, zero_add], inCksum_eq buf short, ?_, ?_⟩
  · rw [inCksum_eq_zero_iff buf short, Verifies, ← onesSum_byteOrder]
    exact Iff.rfl
  intro old even inside fits zero
  obtain ⟨after, rfl⟩ := Nat.exists_eq_add_of_le inside
  rw [inCksum_eq_zero_iff _ short]
  exact verifies_setField_inCksum buf addr even short (by omega) zero

theorem inCksum_complements_nonzero :
    inCksum (Buffer.setField (fun i : Fin 4 => if i.val < 2 then 69 else 0) 0 ⟨2, 2⟩
      (inCksum (fun i : Fin 4 => if i.val < 2 then 69 else 0) 0 4)) 0 4 = 0 :=
  (inCksum_complements _ 0 4 (by decide)).2.2.2 2 rfl (by decide) (by decide) (by decide)

end Xv6
