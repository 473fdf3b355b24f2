import Xv6.Param

/-! # The layout of the disk

`[ boot block | super block | log | inode blocks | free bit map | data blocks ]` -/

namespace Xv6

/-- `struct superblock`, without its magic number. -/
structure Superblock where
  size : Nat
  nblocks : Nat
  ninodes : Nat
  nlog : Nat
  logstart : Nat
  inodestart : Nat
  bmapstart : Nat
deriving DecidableEq, Repr

/-- The size of `struct dinode` in bytes. -/
def dinodeSize : Nat := 64

/-- Inodes per block, `IPB`. -/
def ipb : Nat := bSize / dinodeSize

/-- Bitmap bits per block, `BPB`. -/
def bpb : Nat := bSize * 8

/-! ## The super block that mkfs writes -/

namespace Mkfs

def fsSize : Nat := 1000

def nInodes : Nat := 200

def nbitmap : Nat := fsSize / (bSize * 8) + 1

def ninodeblocks : Nat := nInodes / ipb + 1

def nlog : Nat := logSize

def nmeta : Nat := 2 + nlog + ninodeblocks + nbitmap

def superblock : Superblock where
  size := fsSize
  nblocks := fsSize - nmeta
  ninodes := nInodes
  nlog := nlog
  logstart := 2
  inodestart := 2 + nlog
  bmapstart := 2 + nlog + ninodeblocks

end Mkfs

end Xv6
