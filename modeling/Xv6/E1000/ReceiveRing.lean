import Xv6.Foundation.Window
import Xv6.E1000.Receive

/-! # The receive ring

The `k`-th packet goes through descriptor `k mod RX_RING_SIZE`. The descriptors
from `RDT + 1` on hold the packets that are not delivered yet, then come those
that are free for the device, and the one at `RDT` is never filled. -/

namespace Xv6

open Foundation Function List

@[simp] theorem rxRingSize_eq : rxRingSize = 16 := rfl

namespace Receiver

/-- The mbuf of slot `i` starts with the bytes of `frame`. -/
def Buffered (s : Receiver) (i : Nat) (frame : List UInt8) : Prop :=
  ∃ mbuf, s.memory (s.rxMbufs i) = some mbuf ∧ mbuf.head = 0 ∧
    mbuf.buf.slice 0 frame.length = frame

/-- Slot `i` holds a packet as the device has left it. -/
def Full (s : Receiver) (i : Nat) (packet : Packet) : Prop :=
  (s.rxRing i).status &&& e1000RxdStatDd ≠ 0 ∧
    (s.rxRing i).length = packet.frame.length ∧ s.Buffered i packet.frame

/-- The slot has the same mbuf in both states, with the same bytes in it. -/
def SameBuffer (s after : Receiver) (i : Nat) : Prop :=
  ∀ mbuf, s.memory (s.rxMbufs i) = some mbuf → mbuf.head = 0 →
    ∃ other, after.memory (after.rxMbufs i) = some other ∧ other.head = 0 ∧
      other.buf = mbuf.buf

theorem Buffered.same {s after : Receiver} {i : Nat} {frame : List UInt8}
    (buffered : s.Buffered i frame) (same : s.SameBuffer after i) : after.Buffered i frame := by
  rcases buffered with ⟨mbuf, stored, head, bytes⟩
  rcases same mbuf stored head with ⟨o, oStored, oHead, eq⟩
  exact ⟨o, oStored, oHead, by rw [eq]; exact bytes⟩

theorem Full.same {s after : Receiver} {i : Nat} {packet : Packet} (full : s.Full i packet)
    (desc : after.rxRing i = s.rxRing i) (same : s.SameBuffer after i) : after.Full i packet := by
  refine ⟨?_, ?_, full.2.2.same same⟩
  · rw [desc]
    exact full.1
  · rw [desc]
    exact full.2.1

end Receiver

/-- Packets stored before `RDH` is moved, and packets being written. -/
def RxPhase.ahead : RxPhase → Nat × Nat
  | .waiting => (0, 0)
  | .written _ => (0, 1)
  | .marked => (1, 0)

/-- The ring, the device, and the packets stored and delivered so far. -/
structure RxRing (s : Receiver) : Prop where
  rdt : s.rdt = (s.returned + 15) % rxRingSize
  rdh : s.rdh = s.filled % rxRingSize
  count : s.stored.length = s.filled + s.phase.ahead.1
  room : s.stored.length + s.phase.ahead.2 ≤ s.returned + 15
  slot : ∀ k packet, s.stored[k]? = some packet → packet.slot = k % rxRingSize
  order : s.delivered =
    (s.stored.take s.delivered.length).map Packet.frame
  lower : s.returned ≤ s.delivered.length
  upper : s.delivered.length ≤ s.returned + 1
  behind : s.delivered.length ≤ s.stored.length
  full : ∀ k packet, s.delivered.length ≤ k → s.stored[k]? = some packet →
    s.Full (k % rxRingSize) packet
  empty : ∀ k, s.stored.length ≤ k → k < s.returned + rxRingSize →
    (s.rxRing (k % rxRingSize)).status &&& e1000RxdStatDd = 0
  written : ∀ frame, s.phase = .written frame →
    s.Buffered (s.filled % rxRingSize) frame

namespace RxRing

variable {s after : Receiver}

section

variable (ring : RxRing s)
include ring

theorem next_slot : (s.rdt + 1) % rxRingSize = s.returned % rxRingSize := by
  rw [ring.rdt, rxRingSize_eq]
  omega

theorem slot_ne (ahead : s.delivered.length = s.returned + 1)
    {k : Nat} {pkt : Packet} (later : s.delivered.length ≤ k)
    (hit : s.stored[k]? = some pkt) : k % rxRingSize ≠ s.returned % rxRingSize := by
  have bound := getElem?_lt hit
  have room := ring.room
  intro same
  have eq := eq_of_mod_eq same (by rw [rxRingSize_eq]; omega) (by omega)
  omega

theorem head_ne (ahead : s.delivered.length = s.returned + 1) (busy : s.phase.ahead.1 = 0) :
    s.filled % rxRingSize ≠ s.returned % rxRingSize := by
  have count := ring.count
  have room := ring.room
  have behind := ring.behind
  intro same
  have eq := eq_of_mod_eq same (by rw [rxRingSize_eq]; omega) (by omega)
  omega

theorem status_next (settled : s.delivered.length = s.returned) :
    (s.rxRing (s.returned % rxRingSize)).status &&& e1000RxdStatDd ≠ 0 ↔
    s.delivered.length < s.stored.length := by
  constructor
  · intro set
    by_contra none
    exact set (ring.empty s.returned (by omega) (by rw [rxRingSize_eq]; omega))
  intro waits
  have hit := getElem?_eq_getElem waits
  rw [← settled]
  exact (ring.full _ _ le_rfl hit).1

/-! ## The driver -/

theorem of_buffers {mem : Page → Option Mbuf}
    (packets : ∀ k pkt, s.delivered.length ≤ k → s.stored[k]? = some pkt →
      s.SameBuffer { s with memory := mem } (k % rxRingSize))
    (device : ∀ frame, s.phase = .written frame →
      s.SameBuffer { s with memory := mem } (s.filled % rxRingSize)) :
    RxRing { s with memory := mem } :=
  { ring with
    full := by
      intro k pkt later hit
      exact (ring.full k pkt later hit).same rfl (packets k pkt later hit)
    written := by
      intro frame phase
      exact (ring.written frame phase).same (device frame phase) }

theorem deliver (settled : s.delivered.length = s.returned)
    (waiting : s.delivered.length < s.stored.length) {mbuf : Mbuf}
    (stored : s.memory (s.rxMbufs (s.returned % rxRingSize)) = some mbuf)
    (len : mbuf.len = (s.rxRing (s.returned % rxRingSize)).length) :
    RxRing (s.deliver (s.returned % rxRingSize) mbuf) := by
  have nextPacket : ∃ packet, s.stored[s.delivered.length]? = some packet :=
    ⟨_, getElem?_eq_getElem waiting⟩
  rcases nextPacket with ⟨packet, found⟩
  have full := ring.full _ _ le_rfl found
  rw [settled] at full
  rcases full with ⟨_, length, held, heldStored, head, bytes⟩
  rw [stored] at heldStored
  cases heldStored
  have frame : mbuf.frame = packet.frame := by rwa [Mbuf.frame, head, len, length]
  have longer : (s.deliver (s.returned % rxRingSize) mbuf).delivered.length =
      s.delivered.length + 1 := by
    simp [Receiver.deliver]
  refine { ring with order := ?_, lower := ?_, upper := ?_, behind := ?_, full := ?_ }
  · rw [longer, take_add_one]
    change s.delivered ++ [mbuf.frame] = (s.stored.take s.delivered.length ++
      s.stored[s.delivered.length]?.toList).map Packet.frame
    rw [found, map_append, ← ring.order, frame]
    rfl
  · rw [longer]
    change s.returned ≤ _
    omega
  · rw [longer]
    change _ ≤ s.returned + 1
    omega
  · rwa [longer]
  · rw [longer]
    intro k o later otherFound
    exact ring.full k o (by omega) otherFound

section

variable (ahead : s.delivered.length = s.returned + 1)
include ahead

theorem replace {m : Page} (unused : s.memory m = none) :
    RxRing (s.replace (s.returned % rxRingSize) m) := by
  have same : ∀ i, i ≠ s.returned % rxRingSize →
      s.SameBuffer (s.replace (s.returned % rxRingSize) m) i := by
    intro i ne mbuf stored head
    refine ⟨mbuf, ?_, head, rfl⟩
    change update s.memory m _ (update s.rxMbufs _ m i) = _
    rw [update_of_ne ne, update_of_ne, stored]
    intro eq
    rw [eq, unused] at stored
    cases stored
  exact
    { ring with
      full := by
        intro k pkt later hit
        exact (ring.full k pkt later hit).same rfl (same _ (ring.slot_ne ahead later hit))
      written := by
        intro frame phase
        change s.phase = .written frame at phase
        refine (ring.written frame phase).same (same _ (ring.head_ne ahead ?_))
        rw [phase]
        rfl }

theorem rewrite (desc : RxDesc) : RxRing (s.setDesc (s.returned % rxRingSize) desc) :=
  { ring with
    full := by
      intro k pkt later hit
      refine (ring.full k pkt later hit).same ?_ fun mbuf stored head =>
        ⟨mbuf, stored, head, rfl⟩
      exact update_of_ne (ring.slot_ne ahead later hit) _ _
    empty := by
      intro k later bound
      have behind := ring.behind
      change s.stored.length ≤ k at later
      change k < s.returned + rxRingSize at bound
      have ne : k % rxRingSize ≠ s.returned % rxRingSize := by
        intro same
        have eq := eq_of_mod_eq same (by omega) (by omega)
        omega
      change (update s.rxRing _ desc _).status &&& _ = 0
      rw [update_of_ne ne]
      exact ring.empty k later bound
    written := by
      intro frame phase
      exact (ring.written frame phase).same fun mbuf stored head => ⟨mbuf, stored, head, rfl⟩ }

theorem returnSlot (clear : (s.rxRing (s.returned % rxRingSize)).status &&& e1000RxdStatDd = 0) :
    RxRing (s.returnSlot (s.returned % rxRingSize)) :=
  { ring with
    rdt := by
      change s.returned % rxRingSize = (s.returned + 1 + 15) % rxRingSize
      rw [rxRingSize_eq]
      omega
    room := le_trans ring.room (by
      change s.returned + 15 ≤ s.returned + 1 + 15
      omega)
    lower := by
      change s.returned + 1 ≤ s.delivered.length
      omega
    upper := by
      change s.delivered.length ≤ s.returned + 1 + 1
      omega
    empty := by
      intro k later bound
      change k < s.returned + 1 + rxRingSize at bound
      rcases lt_or_ge k (s.returned + rxRingSize) with old | new
      · exact ring.empty k later old
      have last : k = s.returned + rxRingSize := by omega
      rw [last, Nat.add_mod_right]
      exact clear }

end

/-! ## The device -/

theorem filled_lt (phase : s.phase = .waiting) (space : s.rdh ≠ s.rdt) :
    s.stored.length = s.filled ∧ s.filled < s.returned + 15 := by
  have count := ring.count
  have room := ring.room
  rw [phase] at count room
  simp only [RxPhase.ahead] at count room
  refine ⟨by omega, ?_⟩
  apply lt_of_le_of_ne (by omega)
  intro same
  apply space
  rw [ring.rdh, ring.rdt, same]

theorem dma (phase : s.phase = .waiting) (space : s.rdh ≠ s.rdt) {mbuf : Mbuf} {frame : List UInt8}
    (head : mbuf.head = 0) (small : frame.length ≤ mbufSize)
    (apart : ∀ k pkt, s.delivered.length ≤ k → s.stored[k]? = some pkt →
      k % rxRingSize ≠ s.filled % rxRingSize →
      s.rxMbufs (k % rxRingSize) ≠ s.rxMbufs (s.filled % rxRingSize)) :
    RxRing (s.dma (s.rxMbufs (s.filled % rxRingSize)) mbuf 0 frame) := by
  rcases ring.filled_lt phase space with ⟨count, bound⟩
  refine { ring with count := ?_, room := ?_, full := ?_, written := ?_ }
  · exact count
  · change s.stored.length + 1 ≤ s.returned + 15
    omega
  · intro k pkt later hit
    change s.stored[k]? = some pkt at hit
    refine (ring.full k pkt later hit).same rfl ?_
    intro o oStored oHead
    refine ⟨o, ?_, oHead, rfl⟩
    have isIn := getElem?_lt hit
    have lower := ring.lower
    have ne : k % rxRingSize ≠ s.filled % rxRingSize := by
      intro same
      have eq := eq_of_mod_eq same (by omega) (by
        change s.delivered.length ≤ k at later
        rw [rxRingSize_eq]
        omega)
      omega
    have pages := apart k pkt later hit ne
    change update s.memory _ _ (s.rxMbufs (k % rxRingSize)) = _
    rwa [update_of_ne pages]
  · intro o wrote
    cases wrote
    refine ⟨_, update_self _ _ _, head, ?_⟩
    apply Buffer.slice_patch_self
    have room : mbufSize ≤ mbufRoom := by decide
    omega

theorem mark {frame : List UInt8} (phase : s.phase = .written frame) : RxRing (s.mark frame) := by
  have count := ring.count
  have room := ring.room
  have buffered := ring.written frame phase
  rw [phase] at count room
  simp only [RxPhase.ahead] at count room
  have longer : (s.mark frame).stored.length = s.stored.length + 1 := by simp [Receiver.mark]
  have lower := ring.lower
  constructor
  case rdt => exact ring.rdt
  case rdh => exact ring.rdh
  case count =>
    rw [longer]
    change _ = s.filled + 1
    omega
  case room =>
    rw [longer]
    change _ ≤ s.returned + 15
    exact room
  case slot =>
    intro k pkt hit
    rcases getElem?_concat_cases hit with old | ⟨rfl, rfl⟩
    · exact ring.slot k pkt old
    · rw [count]
      exact ring.rdh
  case order =>
    change _ = ((s.stored ++ [_]).take s.delivered.length).map _
    rw [List.take_append_of_le_length ring.behind]
    exact ring.order
  case lower => exact ring.lower
  case upper => exact ring.upper
  case behind =>
    rw [longer]
    exact Nat.le_succ_of_le ring.behind
  case full =>
    intro k pkt later hit
    change s.delivered.length ≤ k at later
    have unchanged : ∀ i, s.SameBuffer (s.mark frame) i :=
      fun i mbuf stored head => ⟨mbuf, stored, head, rfl⟩
    rcases getElem?_concat_cases hit with old | ⟨rfl, rfl⟩
    · refine (ring.full k pkt later old).same ?_ (unchanged _)
      apply update_of_ne
      have isIn := getElem?_lt old
      rw [ring.rdh]
      intro same
      have eq := eq_of_mod_eq same (by omega) (by rw [rxRingSize_eq]; omega)
      omega
    · have here : s.stored.length % rxRingSize = s.rdh := by
        rw [ring.rdh]
        congr 1
      refine ⟨?_, ?_, ?_⟩
      · rw [here]
        simp [Receiver.mark, Receiver.setDesc, or_and_flag, e1000RxdStatDd]
      · rw [here]
        simp [Receiver.mark, Receiver.setDesc]
      · rw [show s.stored.length = s.filled from count]
        exact buffered.same (unchanged _)
  case empty =>
    intro k later bound
    rw [longer] at later
    change k < s.returned + rxRingSize at bound
    have ne : k % rxRingSize ≠ s.rdh := by
      rw [ring.rdh]
      intro same
      have behind := ring.behind
      have eq := eq_of_mod_eq same (by omega) (by omega)
      omega
    change (update s.rxRing _ _ _).status &&& _ = 0
    rw [update_of_ne ne]
    exact ring.empty k (by omega) bound
  case written =>
    rintro o ⟨⟩

theorem moveHead (phase : s.phase = .marked) : RxRing s.moveHead := by
  have count := ring.count
  have room := ring.room
  rw [phase] at count room
  refine { ring with rdh := ?_, count := ?_, room := ?_, written := ?_ }
  · change (s.rdh + 1) % rxRingSize = (s.filled + 1) % rxRingSize
    rw [ring.rdh, Nat.mod_add_mod]
  · exact count
  · exact room
  · rintro frame ⟨⟩

end

end RxRing

end Xv6
