import Xv6.Param

/-! # Packet buffers

`struct mbuf` of `net.h` and the functions of `net.c` that move the ends of its
data. An mbuf takes a page of its own: first `next`, `head` and `len`, then the
bytes of `buf`, then what remains of the page. -/

namespace Xv6

open Foundation

/-- A page of memory, named by its address. -/
abbrev Page := Nat

def mbufSize : Nat := 2048

def mbufDefaultHeadroom : Nat := 128

/-- The bytes of an mbuf's page from `m->buf` on. The array `buf` is the first
`MBUF_SIZE` of them. -/
def mbufRoom : Nat := pgSize - 20

/-- `struct mbuf`. The pointer `head` is kept as its distance from `buf`. -/
structure Mbuf where
  next : Option Page
  head : Nat
  len : Nat
  buf : Buffer mbufRoom

inductive MbufPanic
  | mbufpush
  | mbufput
deriving DecidableEq

namespace Mbuf

/-- The bytes between the two ends of the buffer. -/
def frame (m : Mbuf) : List UInt8 := m.buf.slice m.head m.len

/-- Strip `len` bytes from the start, and say where they are. -/
def mbufpull (m : Mbuf) (len : Nat) : Option (Nat × Mbuf) :=
  if m.len < len then none
  else some (m.head, { m with len := m.len - len, head := m.head + len })

/-- Prepend `len` bytes, and say where they are. -/
def mbufpush (m : Mbuf) (len : Nat) : Except MbufPanic (Nat × Mbuf) :=
  if m.head < len then .error .mbufpush
  else .ok (m.head - len, { m with head := m.head - len, len := (m.len + len) % 2 ^ 32 })

/-- Append `len` bytes, and say where they are. -/
def mbufput (m : Mbuf) (len : Nat) : Except MbufPanic (Nat × Mbuf) :=
  if mbufSize < (m.len + len) % 2 ^ 32 then .error .mbufput
  else .ok (m.head + m.len, { m with len := (m.len + len) % 2 ^ 32 })

/-- Strip `len` bytes from the end, and say where they are. -/
def mbuftrim (m : Mbuf) (len : Nat) : Option (Nat × Mbuf) :=
  if m.len < len then none
  else some (m.head + (m.len - len), { m with len := m.len - len })

/-- What `mbufalloc` makes of the page it gets, which `kalloc` has filled with
fives. -/
def mbufalloc (headroom : Nat) : Option Mbuf :=
  if mbufSize < headroom then none
  else some
    { next := none
      head := headroom
      len := 0
      buf := fun pos => if pos.val < mbufSize then 0 else 5 }

@[simp] theorem length_frame (m : Mbuf) : m.frame.length = m.len := by simp [frame]

end Mbuf

end Xv6
