import Xv6.E1000.Transmit

/-! # The receive side of the E1000 driver

The device stores packets in the descriptors from `RDH` on, as long as `RDH`
differs from `RDT`. The driver takes them from the descriptor after `RDT`, under
`e1000_lock2`, and puts a new mbuf in their place. -/

namespace Xv6

open Foundation Function

def rxRingSize : Nat := 16

def e1000RxdStatDd : UInt8 := 0x01

/-- `struct rx_desc`, as far as the driver uses it. -/
structure RxDesc where
  addr : Address
  length : Nat
  status : UInt8

/-- A packet that the device has stored, and the descriptor it is in. -/
structure Packet where
  slot : Nat
  frame : List UInt8
deriving DecidableEq

/-- What the device is doing: it has written a packet to memory, or it has also
written the descriptor back. -/
inductive RxPhase
  | waiting
  | written (frame : List UInt8)
  | marked

/-- The receive ring, the mbufs that exist, and the interrupt: the cause bit in
`ICR`, and whether a hart has claimed the interrupt from the PLIC. The fields
from `handed` on are a record of the run: the mbufs that the network stack has,
the packets stored and delivered, how often `RDH` and `RDT` have been moved, and
whether the driver has tested a descriptor since it last read `ICR`. -/
structure Receiver where
  e1000Lock2 : Bool
  rdh : Nat
  rdt : Nat
  rxRing : Nat → RxDesc
  rxMbufs : Nat → Page
  memory : Page → Option Mbuf
  phase : RxPhase
  icr : Bool
  claimed : Bool
  handed : List Page
  stored : List Packet
  delivered : List (List UInt8)
  filled : Nat
  returned : Nat
  tested : Bool

/-- The use of a page that has been freed. -/
inductive RxFault
  | useAfterFree (page : Page)
deriving DecidableEq

inductive RxCommand
  | acquire
  | release
  | readRdt
  | readStatus (i : Nat)
  | setLen (i : Nat)
  | netRx (i : Nat)
  | mbufalloc (i : Nat) (m : Page)
  | setAddr (i : Nat) (m : Page)
  | clearStatus (i : Nat)
  | writeRdt (i : Nat)
  | readIcr
  | plicClaim
  | plicComplete
  | write (frame : List UInt8)
  | writeBack
  | advance
  | arrive (frame : List UInt8)
  | mbuffree (m : Page)

@[reducible] def RxCommand.Response : RxCommand → Type
  | .readRdt => Nat
  | .readStatus _ => UInt8
  | _ => Unit

/-- What `mbufalloc(0)` returns. -/
def emptyMbuf : Mbuf where
  next := none
  head := 0
  len := 0
  buf := fun pos => if pos.val < mbufSize then 0 else 5

namespace Receiver

/-- Packets that the device has stored and the driver has not delivered. -/
def undelivered (s : Receiver) : List Packet :=
  s.stored.drop s.delivered.length

def setMbuf (s : Receiver) (page : Page) (mbuf : Option Mbuf) : Receiver :=
  { s with memory := update s.memory page mbuf }

def setDesc (s : Receiver) (i : Nat) (desc : RxDesc) : Receiver :=
  { s with rxRing := update s.rxRing i desc }

/-- `net_rx` gets the mbuf of slot `i`. -/
def deliver (s : Receiver) (i : Nat) (mbuf : Mbuf) : Receiver :=
  { s with
    handed := s.rxMbufs i :: s.handed
    delivered := s.delivered ++ [mbuf.frame] }

/-- A new mbuf for slot `i`. -/
def replace (s : Receiver) (i : Nat) (m : Page) : Receiver :=
  { s.setMbuf m (some emptyMbuf) with
    rxMbufs := update s.rxMbufs i m }

def returnSlot (s : Receiver) (i : Nat) : Receiver :=
  { s with rdt := i, returned := s.returned + 1 }

/-- The device writes a packet to the buffer of the descriptor at `RDH`. -/
def dma (s : Receiver) (page : Page) (mbuf : Mbuf) (offset : Nat)
    (frame : List UInt8) : Receiver :=
  { s.setMbuf page (some { mbuf with buf := mbuf.buf.patch offset frame }) with
    phase := .written frame }

/-- The device sets the length and the `DD` bit. -/
def mark (s : Receiver) (frame : List UInt8) : Receiver :=
  { s.setDesc s.rdh
      { s.rxRing s.rdh with
        length := frame.length
        status := (s.rxRing s.rdh).status ||| e1000RxdStatDd } with
    phase := .marked
    stored := s.stored ++ [{ slot := s.rdh, frame := frame }] }

/-- The device moves `RDH` and raises the receive cause. -/
def moveHead (s : Receiver) : Receiver :=
  { s with
    rdh := (s.rdh + 1) % rxRingSize
    filled := s.filled + 1
    phase := .waiting
    icr := true }

/-- The device starts on a packet if it has a free descriptor. -/
def writeFrame (s : Receiver) (frame : List UInt8) : Outcome RxFault Receiver :=
  match s.phase with
  | .waiting =>
    if s.rdh = s.rdt then .blocked
    else
      let addr := (s.rxRing s.rdh).addr
      match s.memory addr.page with
      | none => .panic (.useAfterFree addr.page)
      | some mbuf => .ok (s.dma addr.page mbuf addr.offset frame)
  | _ => .blocked

def exec : (cmd : RxCommand) → Receiver →
    Outcome RxFault (cmd.Response × Receiver)
  | .acquire, s =>
    if s.e1000Lock2 then .blocked else .ok ((), { s with e1000Lock2 := true })
  | .release, s => .ok ((), { s with e1000Lock2 := false })
  | .readRdt, s => .ok (s.rdt, s)
  | .readStatus i, s =>
    .ok ((s.rxRing i).status, { s with tested := true })
  | .setLen i, s =>
    match s.memory (s.rxMbufs i) with
    | none => .panic (.useAfterFree (s.rxMbufs i))
    | some mbuf => .ok ((), s.setMbuf (s.rxMbufs i)
        (some { mbuf with len := (s.rxRing i).length }))
  | .netRx i, s =>
    match s.memory (s.rxMbufs i) with
    | none => .panic (.useAfterFree (s.rxMbufs i))
    | some mbuf => .ok ((), s.deliver i mbuf)
  | .mbufalloc i m, s =>
    match s.memory m with
    | some _ => .blocked
    | none => .ok ((), s.replace i m)
  | .setAddr i m, s =>
    match s.memory m with
    | none => .panic (.useAfterFree m)
    | some mbuf => .ok ((), s.setDesc i
        { s.rxRing i with addr := ⟨m, mbuf.head⟩ })
  | .clearStatus i, s =>
    .ok ((), s.setDesc i { s.rxRing i with status := 0 })
  | .writeRdt i, s => .ok ((), s.returnSlot i)
  | .readIcr, s => .ok ((), { s with icr := false, tested := false })
  | .plicClaim, s =>
    if s.claimed then .blocked else .ok ((), { s with claimed := true })
  | .plicComplete, s => .ok ((), { s with claimed := false })
  | .write frame, s =>
    match s.writeFrame frame with
    | .ok after => .ok ((), after)
    | .blocked => .blocked
    | .panic reason => .panic reason
  | .writeBack, s =>
    match s.phase with
    | .written frame => .ok ((), s.mark frame)
    | _ => .blocked
  | .advance, s =>
    match s.phase with
    | .marked => .ok ((), s.moveHead)
    | _ => .blocked
  | .arrive frame, s =>
    match s.writeFrame frame with
    | .ok after => .ok ((), (after.mark frame).moveHead)
    | .blocked => .blocked
    | .panic reason => .panic reason
  | .mbuffree m, s =>
    if m ∈ s.handed then
      .ok ((), { s.setMbuf m none with handed := s.handed.erase m })
    else .blocked

/-- The receive side after `e1000_init`, with the pages that `mbufalloc` gave. -/
def e1000Init (pages : Nat → Page) : Receiver where
  e1000Lock2 := false
  rdh := 0
  rdt := rxRingSize - 1
  rxRing i := { addr := ⟨pages i, 0⟩, length := 0, status := 0 }
  rxMbufs := pages
  memory page :=
    if page ∈ (List.range rxRingSize).map pages then some emptyMbuf else none
  phase := .waiting
  icr := false
  claimed := false
  handed := []
  stored := []
  delivered := []
  filled := 0
  returned := 0
  tested := false

end Receiver

/-! ## The driver -/

abbrev RxProgram (α : Type) := Program RxCommand RxCommand.Response α

namespace RxProgram

def step (cmd : RxCommand) : RxProgram cmd.Response :=
  Program.command cmd

/-- `e1000_recv` past its test of the descriptor, with the page that `mbufalloc`
will return. -/
def takePacket (i : Nat) (m : Page) : RxProgram Unit := do
  step (.setLen i)
  step (.netRx i)
  step (.mbufalloc i m)
  step (.setAddr i m)
  step (.clearStatus i)
  step (.writeRdt i)
  step .release

def e1000Recv (m : Page) : RxProgram Unit := do
  step .acquire
  let rdt : Nat ← step .readRdt
  let i := (rdt + 1) % rxRingSize
  let status : UInt8 ← step (.readStatus i)
  if status &&& e1000RxdStatDd = 0 then step .release
  else takePacket i m

def e1000Intr (m : Page) : RxProgram Unit := do
  e1000Recv m
  step .readIcr

/-- The part of `devintr` that serves the E1000. -/
def devintr (m : Page) : RxProgram Unit := do
  step .plicClaim
  e1000Intr m
  step .plicComplete

end RxProgram

/-- Threads that run programs on the receive side. -/
def rxSystem (Thread : Type) {Call : Type} (prog : Call → RxProgram Unit) :
    System Thread Receiver RxFault Unit Call where
  Command := RxCommand
  Response := RxCommand.Response
  exec _ := Receiver.exec
  body _ call _ := prog call

end Xv6
