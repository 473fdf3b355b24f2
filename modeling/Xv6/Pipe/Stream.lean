import Xv6.Foundation.Window
import Xv6.Pipe.Pipe

/-! # What a pipe holds

The counters only grow, modulo `2 ^ 32`; what matters is how far apart they are. -/

namespace Xv6

open Foundation Function List

namespace Pipe

variable {pipe : Pipe}

/-- The number of bytes in the buffer. -/
def count (pipe : Pipe) : Nat :=
  (pipe.nwrite - pipe.nread).toNat

/-- The bytes in the buffer, the next one to be read first. -/
def held (pipe : Pipe) : List UInt8 :=
  (List.range pipe.count).map fun i =>
    pipe.data ((pipe.nread + i.toUInt32).toNat % pipeSize)

theorem isEmpty_iff : pipe.isEmpty = true ↔ pipe.count = 0 := by
  simp only [isEmpty, count, decide_eq_true_eq]
  constructor
  · intro eq
    rw [eq]
    simp
  intro none
  apply UInt32.toNat_inj.mp
  have := pipe.nread.toNat_lt
  have := pipe.nwrite.toNat_lt
  rw [UInt32.toNat_sub] at none
  omega

theorem isFull_iff : pipe.isFull = true ↔ pipe.count = pipeSize := by
  have := pipe.nread.toNat_lt
  have := pipe.nwrite.toNat_lt
  have wrapped : (pipe.nread + pipeSize.toUInt32).toNat =
    (pipe.nread.toNat + pipeSize) % 2 ^ 32 := UInt32.toNat_add _ _
  rw [isFull, decide_eq_true_eq, ← UInt32.toNat_inj, wrapped, count, UInt32.toNat_sub, pipeSize]
  omega

theorem index_eq (counter : UInt32) (i : Nat) :
    (counter + i.toUInt32).toNat % pipeSize = (counter.toNat + i) % pipeSize := by
  simp only [pipeSize, UInt32.toNat_add, Nat.toUInt32, UInt32.toNat_ofNat']
  omega

theorem nwrite_index :
    pipe.nwrite.toNat % pipeSize = (pipe.nread.toNat + pipe.count) % pipeSize := by
  have := pipe.nread.toNat_lt
  have := pipe.nwrite.toNat_lt
  simp only [pipeSize, count, UInt32.toNat_sub]
  omega

theorem count_alloc (data : Nat → UInt8) : (alloc data).count = 0 :=
  congrArg UInt32.toNat (UInt32.sub_self 0)

theorem held_alloc (data : Nat → UInt8) : (alloc data).held = [] := by
  rw [held, count_alloc, range_zero, map_nil]

theorem toNat_succ (counter : UInt32) :
    (counter + 1).toNat = (counter.toNat + 1) % 4294967296 := UInt32.toNat_add counter 1

theorem count_put (room : pipe.count < pipeSize) (ch : UInt8) :
    (pipe.put ch).count = pipe.count + 1 := by
  have := pipe.nread.toNat_lt
  have := pipe.nwrite.toNat_lt
  simp only [count, put, pipeSize, UInt32.toNat_sub, toNat_succ] at room ⊢
  omega

theorem count_take (some : 0 < pipe.count) : pipe.take.2.count + 1 = pipe.count := by
  have := pipe.nread.toNat_lt
  have := pipe.nwrite.toNat_lt
  simp only [count, take, UInt32.toNat_sub, toNat_succ] at some ⊢
  omega

theorem held_put (room : pipe.count < pipeSize) (ch : UInt8) :
    (pipe.put ch).held = pipe.held ++ [ch] := by
  rw [held, count_put room, range_succ, map_append, map_singleton]
  congr 1
  · apply map_congr_left
    intro i old
    have isIn := mem_range.mp old
    -- The new byte goes to a cell that none of the others is in.
    have apart : (pipe.nread + i.toUInt32).toNat % pipeSize ≠ pipe.nwrite.toNat % pipeSize := by
      rw [index_eq, nwrite_index]
      intro same
      have := eq_of_mod_eq same (by omega) (by omega)
      omega
    exact update_of_ne apart _ _
  · have here : (pipe.nread + pipe.count.toUInt32).toNat % pipeSize =
        pipe.nwrite.toNat % pipeSize := by
      rw [index_eq, nwrite_index]
    change [update pipe.data (pipe.nwrite.toNat % pipeSize) ch
      ((pipe.nread + pipe.count.toUInt32).toNat % pipeSize)] = [ch]
    rw [here, update_self]

theorem held_take (some : 0 < pipe.count) : pipe.held = pipe.take.1 :: pipe.take.2.held := by
  rw [held, ← count_take some, range_succ_eq_map, map_cons, map_map]
  congr 1
  · rw [index_eq]
    rfl
  · apply map_congr_left
    intro i _
    have next : (pipe.nread + (i + 1).toUInt32).toNat % pipeSize =
        (pipe.nread + 1 + i.toUInt32).toNat % pipeSize := by
      rw [index_eq, index_eq, toNat_succ, pipeSize]
      omega
    exact congrArg pipe.data next

end Pipe

end Xv6
