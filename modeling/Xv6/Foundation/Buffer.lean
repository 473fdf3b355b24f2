import Mathlib.Data.List.Basic
import Mathlib.Data.List.GetD
import Mathlib.Algebra.Group.Basic
import Mathlib.Algebra.Order.Ring.Nat

/-! # Byte buffers

Fixed-size buffers of bytes, the byte ranges that are read from and written
into them, and little-endian numbers stored in such ranges. -/

namespace Foundation

open List

/-! ## Little-endian numbers -/

/-- The number a byte string stores, least significant byte first. -/
def littleEndian : List UInt8 → Nat
  | [] => 0
  | byte :: rest => byte.toNat + 256 * littleEndian rest

/-- The low `width` bytes of a number, least significant byte first. -/
def bytesOf : Nat → Nat → List UInt8
  | 0, _ => []
  | width + 1, value => UInt8.ofNat value :: bytesOf width (value / 256)

@[simp] theorem length_bytesOf (width v : Nat) : (bytesOf width v).length = width := by
  induction width generalizing v with
  | zero => rfl
  | succ width ih => simp [bytesOf, ih]

theorem littleEndian_bytesOf (width v : Nat) :
    littleEndian (bytesOf width v) = v % 256 ^ width := by
  induction width generalizing v with
  | zero => simp [bytesOf, littleEndian, Nat.mod_one]
  | succ width ih =>
    have low : (UInt8.ofNat v).toNat = v % 256 := by simp
    rw [bytesOf, littleEndian, ih, low, pow_succ, mul_comm (256 ^ width), Nat.mod_mul]

theorem littleEndian_lt (bytes : List UInt8) : littleEndian bytes < 256 ^ bytes.length := by
  induction bytes with
  | nil => simp [littleEndian]
  | cons byte rest ih =>
    have bound := byte.toNat_lt
    rw [littleEndian, length_cons, pow_succ]
    omega

/-- The number a byte string stores, most significant byte first. -/
def bigEndian (bytes : List UInt8) : Nat := littleEndian bytes.reverse

theorem bigEndian_lt (bytes : List UInt8) : bigEndian bytes < 256 ^ bytes.length := by
  have bound := littleEndian_lt bytes.reverse
  rwa [length_reverse] at bound

example : bytesOf 4 0x10203040 = [0x40, 0x30, 0x20, 0x10] := by decide

/-! ## Buffers -/

/-- A buffer of exactly `size` bytes. -/
abbrev Buffer (size : Nat) := Fin size → UInt8

namespace Buffer

variable {size : Nat}

/-- The byte at a position; positions past the end read as zero. -/
def byte (buffer : Buffer size) (pos : Nat) : UInt8 :=
  if inside : pos < size then buffer ⟨pos, inside⟩ else 0

/-- The `length` bytes from `start` on. -/
def slice (buffer : Buffer size) (start length : Nat) : List UInt8 :=
  (List.range length).map fun offset => buffer.byte (start + offset)

/-- Lay `bytes` over the buffer from `start` on. -/
def patch (buffer : Buffer size) (start : Nat) (bytes : List UInt8) :
    Buffer size :=
  fun pos =>
    if start ≤ pos.val ∧ pos.val < start + bytes.length then
      bytes.getD (pos.val - start) 0
    else buffer pos

/-- The little-endian number stored in the `width` bytes from `start` on. -/
def number (buffer : Buffer size) (start width : Nat) : Nat :=
  littleEndian (buffer.slice start width)

/-- Store a number in the `width` bytes from `start` on. -/
def setNumber (buffer : Buffer size) (start width value : Nat) : Buffer size :=
  buffer.patch start (bytesOf width value)

theorem byte_patch (buffer : Buffer size) (start pos : Nat)
    (bytes : List UInt8) (isIn : pos < size) : (buffer.patch start bytes).byte pos =
      if start ≤ pos ∧ pos < start + bytes.length then
        bytes.getD (pos - start) 0
      else buffer.byte pos := by
  simp [byte, patch, isIn]

theorem byte_patch_of_outside (buffer : Buffer size) (start pos : Nat) (bytes : List UInt8)
    (outside : pos < start ∨ start + bytes.length ≤ pos) :
    (buffer.patch start bytes).byte pos = buffer.byte pos := by
  by_cases isIn : pos < size
  · rw [byte_patch _ _ _ _ isIn, if_neg (by omega)]
  · simp [byte, isIn]

@[simp] theorem length_slice (buffer : Buffer size) (start length : Nat) :
    (buffer.slice start length).length = length := by
  simp [slice]

theorem getElem_slice (buffer : Buffer size) (start length offset : Nat)
    (bound : offset < (buffer.slice start length).length) :
    (buffer.slice start length)[offset] = buffer.byte (start + offset) := by
  simp [slice]

theorem slice_succ (buffer : Buffer size) (start length : Nat) :
    buffer.slice start (length + 1) = buffer.byte start :: buffer.slice (start + 1) length := by
  rw [slice, range_succ_eq_map, map_cons, map_map, slice]
  simp only [add_zero, cons.injEq, true_and]
  apply map_congr_left
  intro offset _
  rw [Function.comp_apply, Nat.succ_eq_add_one, add_right_comm, add_assoc]

theorem slice_add (buffer : Buffer size) (start first second : Nat) : buffer.slice
    start (first + second) = buffer.slice start first ++ buffer.slice (start + first) second := by
  rw [slice, range_add, map_append, map_map, slice, slice]
  simp only [Function.comp_def, add_assoc]

/-- A part of a slice is the slice of that part. -/
theorem take_drop_slice (buffer : Buffer size)
    (start length offset count : Nat) (isIn : offset + count ≤ length) :
    ((buffer.slice start length).drop offset).take count = buffer.slice (start + offset) count := by
  apply ext_getElem
  · rw [length_take, length_drop, length_slice, length_slice]
    omega
  · intro ix leftBound rightBound
    rw [getElem_take, getElem_drop, getElem_slice, getElem_slice, add_assoc]

theorem slice_congr {left right : Buffer size} (start length : Nat)
    (eq : ∀ offset, offset < length → left.byte (start + offset) = right.byte (start + offset)) :
    left.slice start length = right.slice start length := by
  apply map_congr_left
  intro offset mem
  exact eq offset (mem_range.mp mem)

section

variable (buffer : Buffer size)
include buffer

/-- A patched range reads back as what was laid over it. -/
theorem slice_patch_self (start : Nat) (bytes : List UInt8) (fits : start + bytes.length ≤ size) :
    (buffer.patch start bytes).slice start bytes.length = bytes := by
  apply ext_getElem
  · simp
  · intro offset leftBound rightBound
    rw [getElem_slice, byte_patch _ _ _ _ (by omega), if_pos (by omega),
      Nat.add_sub_cancel_left, List.getD_eq_getElem _ _ rightBound]

/-- A part of a patched range reads back as that part of what was laid over it. -/
theorem slice_patch_inside (start offset count : Nat)
    (bytes : List UInt8) (fits : start + bytes.length ≤ size)
    (isIn : offset + count ≤ bytes.length) :
    (buffer.patch start bytes).slice (start + offset) count = (bytes.drop offset).take count := by
  rw [← take_drop_slice _ _ _ _ _ isIn, slice_patch_self _ _ _ fits]

/-- A range disjoint from the patched one reads as before. -/
theorem slice_patch_disjoint (start o length : Nat) (bytes : List UInt8)
    (disjoint : o + length ≤ start ∨ start + bytes.length ≤ o) :
    (buffer.patch start bytes).slice o length = buffer.slice o length := by
  apply slice_congr
  intro offset bound
  exact byte_patch_of_outside _ _ _ _ (by omega)

theorem number_setNumber_self (start width v : Nat) (fits : start + width ≤ size) :
    (buffer.setNumber start width v).number start width = v % 256 ^ width := by
  have readBack := slice_patch_self buffer start (bytesOf width v) (by simpa using fits)
  rw [length_bytesOf] at readBack
  rw [number, setNumber, readBack, littleEndian_bytesOf]

theorem number_setNumber_disjoint (start width v o otherWidth : Nat)
    (disjoint : o + otherWidth ≤ start ∨ start + width ≤ o) :
    (buffer.setNumber start width v).number o otherWidth = buffer.number o otherWidth := by
  rw [number, setNumber, slice_patch_disjoint _ _ _ _ _ (by simpa using disjoint), number]

end

/-! ## Fields -/

end Buffer

/-- Where a field of a record is, from the start of the record. -/
structure Field where
  offset : Nat
  width : Nat

/-- Two fields with no byte in common. -/
def Field.Apart (first second : Field) : Prop :=
  first.offset + first.width ≤ second.offset ∨ second.offset + second.width ≤ first.offset

instance (first second : Field) : Decidable (first.Apart second) :=
  inferInstanceAs (Decidable (_ ∨ _))

namespace Buffer

variable {size : Nat}

/-- The number in a field of the record at `base`. -/
def field (buffer : Buffer size) (base : Nat) (which : Field) : Nat :=
  buffer.number (base + which.offset) which.width

def setField (buffer : Buffer size) (base : Nat) (which : Field) (value : Nat) : Buffer size :=
  buffer.setNumber (base + which.offset) which.width value

theorem slice_setField_disjoint (buffer : Buffer size) (base : Nat) (which : Field) (v o length :
    Nat) (disjoint : o + length ≤ base + which.offset ∨ base + which.offset + which.width ≤ o) :
    (buffer.setField base which v).slice o length = buffer.slice o length := by
  rw [setField, setNumber]
  apply slice_patch_disjoint
  rwa [length_bytesOf]

theorem slice_setField_self (buffer : Buffer size) (base : Nat) (which : Field) (v : Nat)
    (fits : base + which.offset + which.width ≤ size) :
    (buffer.setField base which v).slice (base + which.offset) which.width =
    bytesOf which.width v := by
  have readBack := slice_patch_self buffer (base + which.offset) (bytesOf which.width v)
    (by rwa [length_bytesOf])
  rwa [length_bytesOf] at readBack

theorem field_setField_self (buffer : Buffer size) (base : Nat) (which : Field) (v : Nat)
    (fits : base + which.offset + which.width ≤ size) :
    (buffer.setField base which v).field base which = v % 256 ^ which.width :=
  number_setNumber_self _ _ _ _ fits

end Buffer

end Foundation
