import Xv6.Foundation.Buffer

/-! # Kernel parameters and disk blocks

The constants of `param.h`, `riscv.h` and `fs.h` that several parts of the kernel read,
and the contents of one disk block. -/

namespace Xv6

open Foundation

/-! ## param.h -/

/-- Device number of the file system root disk. -/
def rootDev : Nat := 1

/-- The most blocks one file system operation may write. -/
def maxOpBlocks : Nat := 10

/-- Data blocks in the on-disk log. -/
def logSize : Nat := maxOpBlocks * 3

/-- Buffers in the disk block cache. -/
def nBuf : Nat := maxOpBlocks * 3

@[simp] theorem maxOpBlocks_eq : maxOpBlocks = 10 := rfl
@[simp] theorem logSize_eq : logSize = 30 := rfl

/-! ## riscv.h -/

/-- Bytes in a page. -/
def pgSize : Nat := 4096

/-! ## fs.h -/

/-- Bytes in a block. -/
def bSize : Nat := 1024

@[simp] theorem bSize_eq : bSize = 1024 := rfl

/-- The contents of one block. -/
abbrev Block := Buffer bSize

/-- The contents of the disk, by block number. -/
abbrev Disk := Nat → Block

namespace Block

/-- The 32-bit word at word position `index`, as an unsigned number. -/
def word (block : Block) (index : Nat) : Nat := block.number (4 * index) 4

/-- Store an unsigned number, cut to 32 bits, at word position `index`. -/
def setWord (block : Block) (index value : Nat) : Block :=
  block.setNumber (4 * index) 4 value

/-- A block of zero bytes. -/
def zero : Block := fun _ => 0

theorem word_setWord_self (block : Block) (ix v : Nat) (fits : 4 * ix + 4 ≤ bSize) :
    (block.setWord ix v).word ix = v % 2 ^ 32 := by
  have readBack := Buffer.number_setNumber_self block (4 * ix) 4 v fits
  simpa [word, setWord] using readBack

theorem word_setWord_of_ne (block : Block) (ix o v : Nat) (ne : o ≠ ix) :
    (block.setWord ix v).word o = block.word o :=
  Buffer.number_setNumber_disjoint block (4 * ix) 4 v (4 * o) 4 (by omega)

end Block

/-- A 32-bit word read as a C `int`. -/
def toInt32 (word : Nat) : Int :=
  if word < 2 ^ 31 then word else word - 2 ^ 32

end Xv6
