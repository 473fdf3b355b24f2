import Xv6.Foundation.Pool
import Xv6.Net.Mbuf

/-! # The transmit side of the E1000 driver

The driver fills descriptors at `TDT` under `e1000_lock`. The device goes after
it from `TDH` on: it takes descriptors up to but not including `TDT`, transmits
what they point at, and sets their `DD` bit, each at a time of its own. -/

namespace Xv6

open Foundation Function

def txRingSize : Nat := 16

def e1000TxdCmdEop : UInt8 := 0x01

def e1000TxdCmdRs : UInt8 := 0x08

def e1000TxdStatDd : UInt8 := 0x01

theorem or_and_flag (status flag : UInt8) : (status ||| flag) &&& flag = flag := by
  apply UInt8.toBitVec_inj.mp
  rw [UInt8.toBitVec_and, UInt8.toBitVec_or]
  apply BitVec.eq_of_getLsbD_eq
  intro pos _
  rw [BitVec.getLsbD_and, BitVec.getLsbD_or, Bool.and_or_distrib_right, Bool.and_self,
    Bool.or_eq_right_iff_imp]
  intro both
  exact (Bool.and_eq_true_iff.mp both).2

/-- An address inside a packet buffer: its page, and the distance from `buf`. -/
structure Address where
  page : Page
  offset : Nat
deriving DecidableEq

/-- `struct tx_desc`, as far as the driver uses it. -/
structure TxDesc where
  addr : Address
  length : Nat
  cmd : UInt8
  status : UInt8
deriving DecidableEq

/-- A call of `e1000_transmit` that has moved `TDT`: the descriptor it filled,
what it put there, and the packet it was called with. -/
structure Request where
  slot : Nat
  addr : Address
  length : Nat
  frame : List UInt8
deriving DecidableEq

/-- The transmit ring, the mbufs that exist, and the device. Of the device,
`fetched` are the descriptors it has taken and not yet transmitted and `sent`
those whose `DD` bit it has still to set. The last three fields record what has
happened: the packets accepted and transmitted, and how many `DD` bits the
device has set. -/
structure Transmitter where
  e1000Lock : Bool
  tdh : Nat
  tdt : Nat
  txRing : Nat → TxDesc
  txMbufs : Nat → Option Page
  memory : Page → Option Mbuf
  fetched : List (Nat × TxDesc)
  sent : List Nat
  accepted : List Request
  wire : List (List UInt8)
  finished : Nat

/-- The use of a page that has been freed. -/
inductive TxFault
  | useAfterFree (page : Page)
deriving DecidableEq

/-- What `e1000_transmit` stores besides `TDT`. -/
inductive TxStore
  | addr (m : Page)
  | length (m : Page)
  | cmd (flags : UInt8)
  | mbuf (m : Page)

inductive TxCommand
  | mbufalloc (m : Page) (mbuf : Mbuf)
  | mbuffree (m : Page)
  | acquire
  | release
  | readTdt
  | readStatus (i : Nat)
  | readTxMbufs (i : Nat)
  | readNext (m : Page)
  | store (i : Nat) (what : TxStore)
  | writeTdt (i : Nat) (m : Page)
  | take
  | transmit
  | writeBack

@[reducible] def TxCommand.Response : TxCommand → Type
  | .readTdt => Nat
  | .readStatus _ => UInt8
  | .readTxMbufs _ => Option Page
  | .readNext _ => Option Page
  | _ => Unit

namespace Transmitter

/-- Descriptors that the device has taken. -/
def taken (s : Transmitter) : Nat :=
  s.finished + s.sent.length + s.fetched.length

/-- Accepted packets that the device has not finished with. -/
def unfinished (s : Transmitter) : List Request :=
  s.accepted.drop s.finished

/-- What the device reads through a descriptor. Freed pages are full of ones. -/
def read (s : Transmitter) (addr : Address) (length : Nat) : List UInt8 :=
  match s.memory addr.page with
  | some mbuf => mbuf.buf.slice addr.offset length
  | none => List.replicate length 1

def setDesc (s : Transmitter) (i : Nat) (desc : TxDesc) : Transmitter :=
  { s with txRing := update s.txRing i desc }

/-- A store of `e1000_transmit` to slot `i` of the ring or of `tx_mbufs`. -/
def put (s : Transmitter) (i : Nat) : TxStore → Outcome TxFault Transmitter
  | .addr m =>
    match s.memory m with
    | none => .panic (.useAfterFree m)
    | some mbuf => .ok (s.setDesc i
        { s.txRing i with addr := ⟨m, mbuf.head⟩ })
  | .length m =>
    match s.memory m with
    | none => .panic (.useAfterFree m)
    | some mbuf => .ok (s.setDesc i
        { s.txRing i with length := mbuf.len % 2 ^ 16 })
  | .cmd flags => .ok (s.setDesc i
      { s.txRing i with cmd := (s.txRing i).cmd ||| flags })
  | .mbuf m => .ok { s with txMbufs := update s.txMbufs i (some m) }

/-- The write of `TDT` that makes descriptor `i`, filled for `m`, the device's. -/
def accept (s : Transmitter) (i : Nat) (m : Page) (mbuf : Mbuf) : Transmitter :=
  { s with
    tdt := (i + 1) % txRingSize
    accepted := s.accepted ++
      [{ slot := i, addr := ⟨m, mbuf.head⟩, length := mbuf.len, frame := mbuf.frame }] }

/-- The device takes the descriptor at `TDH`. -/
def fetch (s : Transmitter) : Transmitter :=
  { s with
    tdh := (s.tdh + 1) % txRingSize
    fetched := s.fetched ++ [(s.tdh, s.txRing s.tdh)] }

/-- The device transmits what a descriptor points at. -/
def emit (s : Transmitter) (slot : Nat) (desc : TxDesc)
    (rest : List (Nat × TxDesc)) : Transmitter :=
  { s with
    fetched := rest
    sent := s.sent ++ [slot]
    wire := s.wire ++ [s.read desc.addr desc.length] }

/-- The device sets the `DD` bit of a descriptor. -/
def finish (s : Transmitter) (slot : Nat) (rest : List Nat) : Transmitter :=
  { s.setDesc slot
      { s.txRing slot with
        status := (s.txRing slot).status ||| e1000TxdStatDd } with
    sent := rest
    finished := s.finished + 1 }

def exec : (command : TxCommand) → Transmitter →
    Outcome TxFault (command.Response × Transmitter)
  | .mbufalloc m mbuf, s =>
    match s.memory m with
    | some _ => .blocked
    | none => .ok ((), { s with memory := update s.memory m (some mbuf) })
  | .mbuffree m, s =>
    match s.memory m with
    | none => .panic (.useAfterFree m)
    | some _ => .ok ((), { s with memory := update s.memory m none })
  | .acquire, s =>
    if s.e1000Lock then .blocked else .ok ((), { s with e1000Lock := true })
  | .release, s => .ok ((), { s with e1000Lock := false })
  | .readTdt, s => .ok (s.tdt, s)
  | .readStatus i, s => .ok ((s.txRing i).status, s)
  | .readTxMbufs i, s => .ok (s.txMbufs i, s)
  | .readNext m, s =>
    match s.memory m with
    | none => .panic (.useAfterFree m)
    | some mbuf => .ok (mbuf.next, s)
  | .store i what, s =>
    match s.put i what with
    | .ok after => .ok ((), after)
    | .blocked => .blocked
    | .panic reason => .panic reason
  | .writeTdt i m, s =>
    match s.memory m with
    | none => .panic (.useAfterFree m)
    | some mbuf => .ok ((), s.accept i m mbuf)
  | .take, s =>
    if s.tdh = s.tdt then .blocked else .ok ((), s.fetch)
  | .transmit, s =>
    match s.fetched with
    | [] => .blocked
    | (slot, desc) :: rest => .ok ((), s.emit slot desc rest)
  | .writeBack, s =>
    match s.sent with
    | [] => .blocked
    | slot :: rest => .ok ((), s.finish slot rest)

/-- The transmit side after `e1000_init`. -/
def e1000Init : Transmitter where
  e1000Lock := false
  tdh := 0
  tdt := 0
  txRing _ := { addr := ⟨0, 0⟩, length := 0, cmd := 0, status := e1000TxdStatDd }
  txMbufs _ := none
  memory _ := none
  fetched := []
  sent := []
  accepted := []
  wire := []
  finished := 0

end Transmitter

/-! ## The driver -/

abbrev TxProgram (α : Type) := Program TxCommand TxCommand.Response α

namespace TxProgram

def step (command : TxCommand) : TxProgram command.Response :=
  Program.command command

/-- Free the mbuf that was last transmitted from a descriptor, if there is one. -/
def freeLast : Option Page → TxProgram Unit
  | some last => step (.mbuffree last)
  | none => pure ()

/-- The flag that ends a packet, for an mbuf that no other follows. -/
def setEop (i : Nat) : Option Page → TxProgram Unit
  | some _ => pure ()
  | none => step (.store i (.cmd e1000TxdCmdEop))

/-- `e1000_transmit` past its test of the descriptor. -/
def fillDescriptor (i : Nat) (m : Page) : TxProgram Int := do
  let last ← step (.readTxMbufs i)
  freeLast last
  step (.store i (.addr m))
  step (.store i (.length m))
  step (.store i (.cmd e1000TxdCmdRs))
  let next ← step (.readNext m)
  setEop i next
  step (.store i (.mbuf m))
  step (.writeTdt i m)
  step .release
  pure 0

def e1000Transmit (m : Page) : TxProgram Int := do
  step .acquire
  let i ← step .readTdt
  let status ← step (.readStatus i)
  if status &&& e1000TxdStatDd = 0 then do
    step .release
    pure (-1)
  else fillDescriptor i m

/-- The end of `net_tx_eth`, with the packet complete. -/
def netTxEth (m : Page) : TxProgram Unit := do
  let out ← e1000Transmit m
  if out ≠ 0 then step (.mbuffree m) else pure ()

end TxProgram

/-- A packet that is put into page `m` and sent, or one step of the device. -/
inductive TxCall
  | send (m : Page) (mbuf : Mbuf) (fits : mbuf.len < 2 ^ 16)
  | take
  | transmit
  | writeBack

def TxCall.program : TxCall → TxProgram Unit
  | .send m mbuf _ => do
      TxProgram.step (.mbufalloc m mbuf)
      TxProgram.netTxEth m
  | .take => TxProgram.step .take
  | .transmit => TxProgram.step .transmit
  | .writeBack => TxProgram.step .writeBack

/-- Callers of the driver and the device, interleaved step by step. -/
def txSystem (Thread : Type) : System Thread Transmitter TxFault Unit TxCall where
  Command := TxCommand
  Response := TxCommand.Response
  exec _ := Transmitter.exec
  body _ call _ := call.program

end Xv6
