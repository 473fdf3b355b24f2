import Xv6.Net.Net

/-! # The frames that reach a socket

What `net_rx` accepts, told from the bytes of the frame: numbers are big endian
and are added without wrapping around. -/

namespace Xv6

open Foundation Udp

/-! ## Frames -/

/-- A field of the header that starts at `header`. -/
def frameField (frame : List UInt8) (header : Nat) (which : Field) : Nat :=
  bigEndian ((frame.drop (header + which.offset)).take which.width)

theorem frameField_lt (frame : List UInt8) (hdr : Nat) (which : Field) :
    frameField frame hdr which < 256 ^ which.width := by
  have bound := bigEndian_lt ((frame.drop (hdr + which.offset)).take which.width)
  exact lt_of_lt_of_le bound (Nat.pow_le_pow_right (by decide) (List.length_take_le _ _))

namespace Datagram

/-- Where the IP header, the UDP header and the payload start. -/
def ip : Nat := Eth.size
def udp : Nat := Eth.size + Ip.size
def payload : Nat := Eth.size + Ip.size + Udp.size

def ulen (frame : List UInt8) : Nat := frameField frame udp Udp.ulen

/-- The bytes that a datagram carries. -/
def bytes (frame : List UInt8) : List UInt8 :=
  (frame.drop payload).take (ulen frame - Udp.size)

/-- The socket a datagram is for: the sender is remote. -/
def connection (frame : List UInt8) : Connection where
  raddr := UInt32.ofNat (frameField frame ip Ip.src)
  lport := UInt16.ofNat (frameField frame udp Udp.dport)
  rport := UInt16.ofNat (frameField frame udp Udp.sport)

/-- A UDP datagram over IPv4 for the host with address `localIp`. -/
structure WellFormed (localIp : UInt32) (frame : List UInt8) : Prop where
  headers : payload ≤ frame.length
  type : frameField frame 0 Eth.type = 0x0800
  vhl : frameField frame ip Ip.vhl = 0x45
  checksum : Verifies ((frame.drop ip).take Ip.size)
  off : frameField frame ip Ip.off = 0
  dst : frameField frame ip Ip.dst = localIp.toNat
  p : frameField frame ip Ip.p = 17
  ulen : Udp.size ≤ ulen frame
  len : frameField frame ip Ip.len = Datagram.ulen frame + Ip.size
  inside : Datagram.ulen frame - Udp.size ≤ frame.length - payload

end Datagram

/-! ## Reading the headers -/

namespace Mbuf

/-- The mbuf without its first bytes. -/
def pulled (m : Mbuf) (len : Nat) : Mbuf :=
  { m with len := m.len - len, head := m.head + len }

@[simp] theorem pulled_buf (m : Mbuf) (len : Nat) : (m.pulled len).buf = m.buf := rfl

@[simp] theorem pulled_head (m : Mbuf) (len : Nat) : (m.pulled len).head = m.head + len := rfl

@[simp] theorem pulled_len (m : Mbuf) (len : Nat) : (m.pulled len).len = m.len - len := rfl

theorem mbufpull_of_le {m : Mbuf} {len : Nat} (enough : len ≤ m.len) :
    m.mbufpull len = some (m.head, m.pulled len) := if_neg (not_lt.mpr enough)

theorem mbufpull_of_lt {m : Mbuf} {len : Nat} (short : m.len < len) : m.mbufpull len = none :=
  if_pos short

theorem mbuftrim_to {m : Mbuf} {len : Nat} (enough : len ≤ m.len) :
    m.mbuftrim (m.len - len) = some (m.head + len, { m with len := len }) := by
  have rest : m.len - (m.len - len) = len := by omega
  rw [mbuftrim, if_neg (by omega), rest]

theorem take_drop_frame (m : Mbuf) {start count : Nat} (isIn : start + count ≤ m.len) :
    (m.frame.drop start).take count = m.buf.slice (m.head + start) count :=
  Buffer.take_drop_slice _ _ _ _ _ isIn

theorem frameField_frame (m : Mbuf)
    {hdr : Nat} {which : Field} (isIn : hdr + which.offset + which.width ≤ m.len) : frameField
    m.frame hdr which = bigEndian (m.buf.slice (m.head + hdr + which.offset) which.width) := by
  rw [frameField, take_drop_frame m isIn, add_assoc m.head]

theorem field_byte (m : Mbuf) {hdr : Nat} {which : Field} (width : which.width = 1)
    (isIn : hdr + which.offset + which.width ≤ m.len) :
    m.buf.field (m.head + hdr) which = frameField m.frame hdr which := by
  rw [frameField_frame m isIn, Buffer.field, Buffer.number, width]
  rfl

theorem ntohs_field (m : Mbuf) {hdr : Nat} {which : Field} (width : which.width = 2)
    (isIn : hdr + which.offset + which.width ≤ m.len) :
    ntohs (m.buf.field (m.head + hdr) which) = frameField m.frame hdr which := by
  rw [frameField_frame m isIn, Buffer.field, Buffer.number]
  apply bswaps_littleEndian
  rw [Buffer.length_slice, width]

theorem ntohl_field (m : Mbuf) {hdr : Nat} {which : Field} (width : which.width = 4)
    (isIn : hdr + which.offset + which.width ≤ m.len) :
    ntohl (m.buf.field (m.head + hdr) which) = frameField m.frame hdr which := by
  rw [frameField_frame m isIn, Buffer.field, Buffer.number]
  apply bswapl_littleEndian
  rw [Buffer.length_slice, width]

end Mbuf

/-! ## What each layer accepts -/

section

variable {localIp : UInt32} {m delivered : Mbuf} {connection : Connection}

theorem ite_mbuffree_eq_iff {failed : Prop} [Decidable failed] {rest : Disposal} :
    (if failed then .mbuffree else rest) = .sockrecvudp delivered connection ↔
    ¬failed ∧ rest = .sockrecvudp delivered connection := by
  split <;> simp [*]

theorem netRxArp_ne_sockrecvudp : netRxArp localIp m ≠ .sockrecvudp delivered connection := by
  unfold netRxArp
  split
  · simp
  · simp [ite_mbuffree_eq_iff]

theorem netRx_eq_sockrecvudp_iff : netRx localIp m = .sockrecvudp delivered connection ↔
    Eth.size ≤ m.len ∧ ntohs (m.buf.field m.head Eth.type) = ethtypeIp ∧
    netRxIp localIp (m.pulled Eth.size) = .sockrecvudp delivered connection := by
  rcases lt_or_ge m.len Eth.size with short | enough
  · rw [netRx, Mbuf.mbufpull_of_lt short]
    simp [not_le.mpr short]
  rw [netRx, Mbuf.mbufpull_of_le enough]
  change (if ntohs (m.buf.field m.head Eth.type) = ethtypeIp
    then netRxIp localIp (m.pulled Eth.size)
    else if ntohs (m.buf.field m.head Eth.type) = ethtypeArp
      then netRxArp localIp (m.pulled Eth.size) else .mbuffree) = _ ↔ _
  by_cases isIp : ntohs (m.buf.field m.head Eth.type) = ethtypeIp
  · simp [isIp, enough]
  rw [if_neg isIp]
  split
  · simp [isIp, netRxArp_ne_sockrecvudp]
  · simp [isIp]

theorem netRxIp_eq_sockrecvudp_iff : netRxIp localIp m = .sockrecvudp delivered connection ↔
      Ip.size ≤ m.len ∧ m.buf.field m.head Ip.vhl = 0x45 ∧
        inCksum m.buf m.head Ip.size = 0 ∧ htons (m.buf.field m.head Ip.off) = 0 ∧
        htonl (m.buf.field m.head Ip.dst) = localIp.toNat ∧ m.buf.field m.head Ip.p = ipprotoUdp ∧
        netRxUdp (m.pulled Ip.size)
          ((ntohs (m.buf.field m.head Ip.len) + 2 ^ 16 - Ip.size) % 2 ^ 16) m.head =
            .sockrecvudp delivered connection := by
  rcases lt_or_ge m.len Ip.size with short | enough
  · rw [netRxIp, Mbuf.mbufpull_of_lt short]
    simp [not_le.mpr short]
  rw [netRxIp, Mbuf.mbufpull_of_le enough]
  simp only [ite_mbuffree_eq_iff]
  simp only [ne_eq, not_not, enough, true_and]
  rfl

theorem netRxUdp_eq_sockrecvudp_iff {len iphdr : Nat} :
    netRxUdp m len iphdr = .sockrecvudp delivered connection ↔
      size ≤ m.len ∧ ntohs (m.buf.field m.head ulen) = len ∧
        (len + 2 ^ 16 - size) % 2 ^ 16 ≤ m.len - size ∧
        { m with head := m.head + size, len := (len + 2 ^ 16 - size) % 2 ^ 16 } =
          delivered ∧ Connection.mk (UInt32.ofNat (ntohl (m.buf.field iphdr Ip.src)))
          (UInt16.ofNat (ntohs (m.buf.field m.head dport)))
          (UInt16.ofNat (ntohs (m.buf.field m.head sport))) = connection := by
  rcases lt_or_ge m.len size with short | enough
  · rw [netRxUdp, Mbuf.mbufpull_of_lt short]
    simp [not_le.mpr short]
  rw [netRxUdp, Mbuf.mbufpull_of_le enough]
  simp only [ite_mbuffree_eq_iff]
  simp only [ne_eq, not_not, enough, true_and, Mbuf.pulled_buf, Mbuf.pulled_len, not_lt]
  apply and_congr_right
  intro _
  apply and_congr_right
  intro fits
  have trimmed := @Mbuf.mbuftrim_to (m.pulled size) _ fits
  rw [Mbuf.pulled_len] at trimmed
  rw [trimmed, Disposal.sockrecvudp.injEq]
  rfl

theorem lengths_iff {len ulen room : Nat} (lenBound : len < 65536)
    (ulenBound : ulen < 65536) (short : room ≤ 2048) (Delivers : Nat → Prop) :
    (ulen = (len + 2 ^ 16 - 20) % 2 ^ 16 ∧
        ((len + 2 ^ 16 - 20) % 2 ^ 16 + 2 ^ 16 - 8) % 2 ^ 16 ≤ room ∧
        Delivers (((len + 2 ^ 16 - 20) % 2 ^ 16 + 2 ^ 16 - 8) % 2 ^ 16)) ↔
      (8 ≤ ulen ∧ len = ulen + 20 ∧ ulen - 8 ≤ room) ∧ Delivers (ulen - 8) := by
  have unwrapped (given : ulen = (len + 2 ^ 16 - 20) % 2 ^ 16) :
    ((len + 2 ^ 16 - 20) % 2 ^ 16 + 2 ^ 16 - 8) % 2 ^ 16 ≤ room ↔
      8 ≤ ulen ∧ len = ulen + 20 ∧ ulen - 8 ≤ room := by omega
  constructor
  · intro ⟨given, fits, delivers⟩
    have lengths := (unwrapped given).mp fits
    have same : ((len + 2 ^ 16 - 20) % 2 ^ 16 + 2 ^ 16 - 8) % 2 ^ 16 = ulen - 8 := by omega
    exact ⟨lengths, same ▸ delivers⟩
  · intro ⟨lengths, delivers⟩
    have given : ulen = (len + 2 ^ 16 - 20) % 2 ^ 16 := by omega
    have same : ((len + 2 ^ 16 - 20) % 2 ^ 16 + 2 ^ 16 - 8) % 2 ^ 16 = ulen - 8 := by omega
    exact ⟨given, (unwrapped given).mpr lengths, same.symm ▸ delivers⟩

theorem conditions_iff (hdrs : Datagram.payload ≤ m.len) (short : m.len ≤ mbufSize) :
    netRx localIp m = .sockrecvudp delivered connection ↔ frameField m.frame 0 Eth.type = 0x0800 ∧
        frameField m.frame Datagram.ip Ip.vhl = 0x45 ∧
        Verifies ((m.frame.drop Datagram.ip).take Ip.size) ∧
        frameField m.frame Datagram.ip Ip.off = 0 ∧
        frameField m.frame Datagram.ip Ip.dst = localIp.toNat ∧
        frameField m.frame Datagram.ip Ip.p = 17 ∧ (size ≤ Datagram.ulen m.frame ∧
          frameField m.frame Datagram.ip Ip.len = Datagram.ulen m.frame + Ip.size ∧
          Datagram.ulen m.frame - size ≤ m.len - Datagram.payload) ∧ { m with
          head := m.head + Datagram.payload
          len := Datagram.ulen m.frame - Udp.size } = delivered ∧
        Datagram.connection m.frame = connection := by
  have isIn {posn : Nat} (bound : posn ≤ Datagram.payload) : posn ≤ m.len := le_trans bound hdrs
  have type : ntohs (m.buf.field m.head Eth.type) = frameField m.frame 0 Eth.type :=
    @Mbuf.ntohs_field m 0 Eth.type rfl (isIn (by decide))
  have vhl := @Mbuf.field_byte m Datagram.ip Ip.vhl rfl (isIn (by decide))
  have off := @Mbuf.ntohs_field m Datagram.ip Ip.off rfl (isIn (by decide))
  have dst := @Mbuf.ntohl_field m Datagram.ip Ip.dst rfl (isIn (by decide))
  have src := @Mbuf.ntohl_field m Datagram.ip Ip.src rfl (isIn (by decide))
  have p := @Mbuf.field_byte m Datagram.ip Ip.p rfl (isIn (by decide))
  have len := @Mbuf.ntohs_field m Datagram.ip Ip.len rfl (isIn (by decide))
  have ulen := @Mbuf.ntohs_field m Datagram.udp Udp.ulen rfl (isIn (by decide))
  have dport := @Mbuf.ntohs_field m Datagram.udp Udp.dport rfl (isIn (by decide))
  have sport := @Mbuf.ntohs_field m Datagram.udp Udp.sport rfl (isIn (by decide))
  have hdr := @Mbuf.take_drop_frame m Datagram.ip Ip.size (isIn (by decide))
  have csum := @inCksum_eq_zero_iff _ m.buf (m.head + Datagram.ip) Ip.size (by decide)
  rw [← hdr] at csum
  have ipAt : m.head + Eth.size = m.head + Datagram.ip := rfl
  have udpAt : m.head + Datagram.ip + Ip.size = m.head + Datagram.udp := add_assoc _ _ _
  have payloadAt : m.head + Datagram.udp + size = m.head + Datagram.payload := add_assoc _ _ _
  have room : m.len - Eth.size - Ip.size - size = m.len - Datagram.payload := by
    rw [Nat.sub_sub, Nat.sub_sub]
    rfl
  have longEth : Eth.size ≤ m.len := isIn (by decide)
  have longIp : Ip.size ≤ m.len - Eth.size := Nat.le_sub_of_add_le (isIn (by decide))
  have longUdp : size ≤ m.len - Eth.size - Ip.size :=
    Nat.le_sub_of_add_le (Nat.le_sub_of_add_le (isIn (by decide)))
  rw [netRx_eq_sockrecvudp_iff, netRxIp_eq_sockrecvudp_iff, netRxUdp_eq_sockrecvudp_iff]
  simp only [Mbuf.pulled, ipAt, udpAt, payloadAt, room, longEth, longIp, longUdp, true_and,
    type, vhl, off, dst, src, p, len, ulen, dport, sport, csum]
  have lengths := @lengths_iff (frameField m.frame Datagram.ip Ip.len) (Datagram.ulen m.frame)
    (m.len - Datagram.payload) (frameField_lt _ _ _) (frameField_lt _ _ _)
    (le_trans (Nat.sub_le _ _) short)
    (fun count =>
      { m with head := m.head + Datagram.payload, len := count } = delivered ∧
        Datagram.connection m.frame = connection)
  exact and_congr_right fun _ => and_congr_right fun _ => and_congr_right fun _ =>
    and_congr_right fun _ => and_congr_right fun _ => and_congr_right fun _ => lengths

theorem netRx_eq_iff (short : m.len ≤ mbufSize) :
    netRx localIp m = .sockrecvudp delivered connection ↔ Datagram.WellFormed localIp m.frame ∧
        { m with
          head := m.head + Datagram.payload
          len := Datagram.ulen m.frame - Udp.size } = delivered ∧
        Datagram.connection m.frame = connection := by
  rcases lt_or_ge m.len Datagram.payload with few | headers
  · have tooShort : ¬Datagram.payload ≤ m.frame.length := by
      rw [Mbuf.length_frame]
      exact not_le.mpr few
    constructor
    · intro received
      rw [netRx_eq_sockrecvudp_iff, netRxIp_eq_sockrecvudp_iff,
        netRxUdp_eq_sockrecvudp_iff] at received
      obtain ⟨longEth, _, longIp, _, _, _, _, _, longUdp, _⟩ := received
      simp only [Mbuf.pulled_len, Datagram.payload, Eth.size, Ip.size, Udp.size]
        at few longEth longIp longUdp
      omega
    · intro ⟨formed, _⟩
      exact absurd formed.headers tooShort
  · rw [conditions_iff headers short]
    have length := m.length_frame
    constructor
    · intro ⟨type, vhl, checksum, off, dst, p, ⟨ulen, len, isIn⟩, rest⟩
      exact ⟨⟨length ▸ headers, type, vhl, checksum, off, dst, p, ulen, len, length ▸ isIn⟩, rest⟩
    · intro ⟨formed, rest⟩
      exact ⟨formed.type, formed.vhl, formed.checksum, formed.off, formed.dst, formed.p,
        ⟨formed.ulen, formed.len, length ▸ formed.inside⟩, rest⟩

theorem frame_delivered (formed : Datagram.WellFormed localIp m.frame) : ({ m with
      head := m.head + Datagram.payload
      len := Datagram.ulen m.frame - Udp.size } : Mbuf).frame = Datagram.bytes m.frame := by
  have isIn : Datagram.payload + (Datagram.ulen m.frame - Udp.size) ≤ m.len := by
    have hdrs := formed.headers
    have fits := formed.inside
    rw [Mbuf.length_frame] at hdrs fits
    omega
  rw [Datagram.bytes, Mbuf.take_drop_frame m isIn]
  rfl

end

/-- `net_rx` hands a datagram to `sockrecvudp` exactly if the frame is well
formed, and then the bytes and the ports are those of the frame. -/
theorem netRx_delivers_wellFormed (localIp : UInt32) (m : Mbuf) (short : m.len ≤ mbufSize) :
    ((∃ delivered connection, netRx localIp m = .sockrecvudp delivered connection) ↔
        Datagram.WellFormed localIp m.frame) ∧
      ∀ delivered connection, netRx localIp m = .sockrecvudp delivered connection →
        delivered.frame = Datagram.bytes m.frame ∧ connection = Datagram.connection m.frame := by
  constructor
  · constructor
    · intro ⟨delivered, connection, received⟩
      exact ((netRx_eq_iff short).mp received).1
    · intro formed
      exact ⟨_, _, (netRx_eq_iff short).mpr ⟨formed, rfl, rfl⟩⟩
  · intro delivered connection received
    obtain ⟨formed, held, addressed⟩ := (netRx_eq_iff short).mp received
    rw [← held, ← addressed]
    exact ⟨frame_delivered formed, rfl⟩

namespace Datagram

instance (localIp : UInt32) (frame : List UInt8) : Decidable (WellFormed localIp frame) :=
  decidable_of_iff
    (payload ≤ frame.length ∧ frameField frame 0 Eth.type = 0x0800 ∧
      frameField frame ip Ip.vhl = 0x45 ∧ Verifies ((frame.drop ip).take Ip.size) ∧
      frameField frame ip Ip.off = 0 ∧ frameField frame ip Ip.dst = localIp.toNat ∧
      frameField frame ip Ip.p = 17 ∧ Udp.size ≤ ulen frame ∧
      frameField frame ip Ip.len = ulen frame + Ip.size ∧
      ulen frame - Udp.size ≤ frame.length - payload)
    ⟨fun ⟨headers, type, vhl, checksum, off, dst, p, ulen, len, inside⟩ =>
        ⟨headers, type, vhl, checksum, off, dst, p, ulen, len, inside⟩,
      fun formed => ⟨formed.headers, formed.type, formed.vhl, formed.checksum, formed.off,
        formed.dst, formed.p, formed.ulen, formed.len, formed.inside⟩⟩

end Datagram

/-- A frame from 10.0.2.2, port 53, to 10.0.2.15, port 2000, with one byte of
data and one byte of padding. -/
def sampleFrame : List UInt8 :=
  [0xff, 0xff, 0xff, 0xff, 0xff, 0xff, 0x52, 0x55, 0x0a, 0x00, 0x02, 0x02, 0x08, 0x00,
    0x45, 0x00, 0x00, 0x1d, 0x00, 0x00, 0x00, 0x00, 0x40, 0x11, 0x62, 0xc0,
    0x0a, 0x00, 0x02, 0x02, 0x0a, 0x00, 0x02, 0x0f,
    0x00, 0x35, 0x07, 0xd0, 0x00, 0x09, 0x00, 0x00, 0x61, 0x00]

/-- An mbuf that holds a frame from the start of its buffer on. -/
def Mbuf.holding (frame : List UInt8) : Mbuf where
  next := none
  head := 0
  len := frame.length
  buf := fun position => frame.getD position.val 0

theorem netRx_delivers_sampleFrame :
    (∃ delivered connection, netRx 0x0a00020f (Mbuf.holding sampleFrame) =
        .sockrecvudp delivered connection) ∧
      ∀ delivered connection, netRx 0x0a00020f (Mbuf.holding sampleFrame) =
        .sockrecvudp delivered connection →
          delivered.frame = [0x61] ∧ connection = ⟨0x0a000202, 2000, 53⟩ := by
  have accepts := netRx_delivers_wellFormed 0x0a00020f (Mbuf.holding sampleFrame) (by decide)
  refine ⟨accepts.1.mpr (by decide), ?_⟩
  intro delivered connection received
  have decoded := accepts.2 delivered connection received
  rw [decoded.1, decoded.2]
  decide

end Xv6
