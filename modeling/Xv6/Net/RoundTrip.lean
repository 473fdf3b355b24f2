import Xv6.Net.Receive

/-! # Sending a datagram to another host

Each layer of the sending side puts a header in front of what it is given, with
fields that the receiving side of the other host checks. -/

namespace Xv6

open Foundation Buffer Eth List Mbuf

/-! ## Fields in network order -/

/-- A field of the record at `base`, most significant byte first. -/
def networkField {size : Nat} (buf : Buffer size) (base : Nat) (which : Field) : Nat :=
  bigEndian (buf.slice (base + which.offset) which.width)

section

variable {size : Nat} (buf : Buffer size) (base value : Nat) {which : Field}

theorem slice_setField_apart {o : Field} (apart : which.Apart o) :
    (buf.setField base which value).slice (base + o.offset) o.width =
    buf.slice (base + o.offset) o.width := by
  apply slice_setField_disjoint
  unfold Field.Apart at apart
  omega

theorem networkField_setField_apart {o : Field} (apart : which.Apart o) :
    networkField (buf.setField base which value) base o = networkField buf base o := by
  rw [networkField, slice_setField_apart _ _ _ apart, networkField]

theorem networkField_set_htons {length : Nat} (width : which.width = 2)
    (isIn : which.offset + which.width ≤ length) (fits : base + length ≤ size) :
    networkField (buf.setField base which (htons value)) base which = value % 2 ^ 16 := by
  have small := bswaps_lt value
  rw [networkField, slice_setField_self _ _ _ _ (by omega), width,
    ← bswaps_littleEndian (length_bytesOf _ _), littleEndian_bytesOf]
  exact (congrArg bswaps (Nat.mod_eq_of_lt small)).trans (bswaps_bswaps value)

theorem networkField_set_htonl {length : Nat} (width : which.width = 4)
    (isIn : which.offset + which.width ≤ length) (fits : base + length ≤ size) :
    networkField (buf.setField base which (htonl value)) base which = value % 2 ^ 32 := by
  have small := bswapl_lt value
  rw [networkField, slice_setField_self _ _ _ _ (by omega), width,
    ← bswapl_littleEndian (length_bytesOf _ _), littleEndian_bytesOf]
  exact (congrArg bswapl (Nat.mod_eq_of_lt small)).trans (bswapl_bswapl value)

theorem networkField_set_byte {length : Nat} (width : which.width = 1)
    (isIn : which.offset + which.width ≤ length) (fits : base + length ≤ size) :
    networkField (buf.setField base which value) base which = value % 2 ^ 8 := by
  rw [networkField, slice_setField_self _ _ _ _ (by omega), width]
  exact littleEndian_bytesOf 1 value

theorem slice_setField_above {length : Nat} (count : Nat)
    (isIn : which.offset + which.width ≤ length) : (buf.setField base which value).slice
    (base + length) count = buf.slice (base + length) count := by
  apply slice_setField_disjoint
  omega

theorem slice_patch_above {length offset : Nat} (bytes : List UInt8) (count : Nat)
    (isIn : offset + bytes.length ≤ length) :
    (buf.patch (base + offset) bytes).slice (base + length) count =
    buf.slice (base + length) count := by
  apply slice_patch_disjoint
  omega

theorem frameField_slice {length : Nat} (isIn : which.offset + which.width ≤ length) :
    frameField (buf.slice base length) 0 which = networkField buf base which := by
  rw [frameField, zero_add, take_drop_slice _ _ _ _ _ isIn, networkField]

end

/-! ## Headers in front of a frame -/

namespace Mbuf

/-- The mbuf with a header of `length` bytes written in front of its frame. -/
def prepended (m : Mbuf) (length : Nat) (header : Buffer mbufRoom → Nat → Buffer mbufRoom) :
    Mbuf :=
  { m with
    head := m.head - length
    len := m.len + length
    buf := header m.buf (m.head - length) }

theorem mbufpush_of_le {m : Mbuf} {len : Nat} (room : len ≤ m.head) (small : m.len + len < 2 ^ 32) :
    m.mbufpush len = .ok (m.head - len, { m with head := m.head - len, len := m.len + len }) := by
  rw [mbufpush, if_neg (not_lt.mpr room), Nat.mod_eq_of_lt small]

theorem frame_prepended {m : Mbuf} {length : Nat}
    {hdr : Buffer mbufRoom → Nat → Buffer mbufRoom} (room : length ≤ m.head)
    (keeps : ∀ base count, (hdr m.buf base).slice (base + length) count =
      m.buf.slice (base + length) count) : (m.prepended length hdr).frame =
      (hdr m.buf (m.head - length)).slice (m.head - length) length ++ m.frame := by
  have same := keeps (m.head - length) m.len
  rw [Nat.sub_add_cancel room] at same
  rw [frame, frame, ← same, prepended]
  dsimp only
  rw [add_comm m.len, slice_add, Nat.sub_add_cancel room]

end Mbuf

/-! ## What each layer writes -/

theorem netTxEth_eq {m : Mbuf} (ethtype : Nat) (room : Eth.size ≤ m.head)
    (small : m.len + Eth.size < 2 ^ 32) :
    netTxEth m ethtype = .ok (m.prepended Eth.size (ethHeader ethtype)) := by
  rw [netTxEth, mbufpush_of_le room small]
  rfl

theorem netTxIp_eq {m : Mbuf} (localIp : UInt32)
    (proto : Nat) (dip : UInt32) (room : Ip.size ≤ m.head) (small : m.len + Ip.size < 2 ^ 32) :
    netTxIp localIp m proto dip = netTxEth (m.prepended Ip.size fun buf iphdr =>
    ipChecksum (ipHeader localIp dip proto (m.len + Ip.size) buf iphdr) iphdr) ethtypeIp := by
  rw [netTxIp, mbufpush_of_le room small]
  rfl

theorem netTxUdp_eq {m : Mbuf} (localIp dip : UInt32) (sport dport : UInt16)
    (room : Udp.size ≤ m.head) (small : m.len + Udp.size < 2 ^ 32) :
    netTxUdp localIp m dip sport dport =
      netTxIp localIp (m.prepended Udp.size (udpHeader sport dport (m.len + Udp.size)))
        ipprotoUdp dip := by
  rw [netTxUdp, mbufpush_of_le room small]
  rfl

section

variable (buf : Buffer mbufRoom) (base : Nat)

theorem slice_ethHeader_above (ethtype count : Nat) : (ethHeader ethtype buf base).slice
    (base + Eth.size) count = buf.slice (base + Eth.size) count := by
  simp (disch := decide) only [ethHeader, slice_setField_above, slice_patch_above]

theorem slice_udpHeader_above (sport dport : UInt16) (len count : Nat) :
    (udpHeader sport dport len buf base).slice (base + Udp.size) count =
    buf.slice (base + Udp.size) count := by
  simp (disch := decide) only [udpHeader, slice_setField_above]

theorem slice_ipHeader_above (localIp dip : UInt32)
    (proto len count : Nat) : (ipChecksum (ipHeader localIp dip proto len buf base) base).slice
    (base + Ip.size) count = buf.slice (base + Ip.size) count := by
  have zeroed := @slice_patch_above _ buf base Ip.size 0 (List.replicate Ip.size 0) count
    (by decide)
  simp (disch := decide) only [ipChecksum, ipHeader, slice_setField_above]
  exact zeroed

theorem ethHeader_type (ethtype : Nat) (fits : base + Eth.size ≤ mbufRoom) : frameField
    ((ethHeader ethtype buf base).slice base Eth.size) 0 Eth.type = ethtype % 2 ^ 16 := by
  rw [frameField_slice _ _ (by decide)]
  exact networkField_set_htons _ _ _ rfl (by decide) fits

/-- The header of a datagram between two ports. -/
structure UdpFields (sport dport : UInt16) (len : Nat) (header : List UInt8) : Prop where
  sport : frameField header 0 Udp.sport = sport.toNat
  dport : frameField header 0 Udp.dport = dport.toNat
  ulen : frameField header 0 Udp.ulen = len

theorem udpHeader_fields (sport dport : UInt16) {len : Nat} (short : len < 2 ^ 16)
    (fits : base + Udp.size ≤ mbufRoom) :
    UdpFields sport dport len ((udpHeader sport dport len buf base).slice base Udp.size) where
  sport := by
    rw [frameField_slice _ _ (by decide)]
    simp (disch := decide) only [udpHeader, networkField_setField_apart]
    rw [networkField_set_htons _ _ _ rfl (by decide) fits, Nat.mod_eq_of_lt sport.toNat_lt]
  dport := by
    rw [frameField_slice _ _ (by decide)]
    simp (disch := decide) only [udpHeader, networkField_setField_apart]
    rw [networkField_set_htons _ _ _ rfl (by decide) fits, Nat.mod_eq_of_lt dport.toNat_lt]
  ulen := by
    rw [frameField_slice _ _ (by decide)]
    simp (disch := decide) only [udpHeader, networkField_setField_apart]
    rw [networkField_set_htons _ _ _ rfl (by decide) fits, Nat.mod_mod, Nat.mod_eq_of_lt short]

/-- The header of a packet that is not fragmented. -/
structure IpFields (localIp dip : UInt32) (proto len : Nat) (header : List UInt8) : Prop where
  vhl : frameField header 0 Ip.vhl = 0x45
  len : frameField header 0 Ip.len = len
  off : frameField header 0 Ip.off = 0
  p : frameField header 0 Ip.p = proto
  src : frameField header 0 Ip.src = localIp.toNat
  dst : frameField header 0 Ip.dst = dip.toNat
  checksum : Verifies header

theorem slice_ipHeader_zero (localIp dip : UInt32) (proto len : Nat)
    {which : Field} (isIn : which.offset + which.width ≤ Ip.size) (fits : base + Ip.size ≤ mbufRoom)
    (unset : ∀ field ∈ [Ip.vhl, Ip.p, Ip.src, Ip.dst, Ip.len, Ip.ttl], field.Apart which) :
    (ipHeader localIp dip proto len buf base).slice (base + which.offset)
    which.width = ((List.replicate Ip.size 0).drop which.offset).take which.width := by
  simp only [forall_mem_cons, not_mem_nil, false_imp_iff, implies_true, and_true]
    at unset
  obtain ⟨vhl, p, src, dst, len, ttl⟩ := unset
  rw [ipHeader, slice_setField_apart _ _ _ ttl, slice_setField_apart _ _ _ len,
    slice_setField_apart _ _ _ dst, slice_setField_apart _ _ _ src,
    slice_setField_apart _ _ _ p, slice_setField_apart _ _ _ vhl]
  apply slice_patch_inside
  · rwa [length_replicate]
  · rwa [length_replicate]

theorem ipHeader_fields (localIp dip : UInt32) {proto len : Nat} (byte : proto < 2 ^ 8)
    (short : len < 2 ^ 16) (fits : base + Ip.size ≤ mbufRoom) : IpFields localIp dip proto len
      ((ipChecksum (ipHeader localIp dip proto len buf base) base).slice base Ip.size) where
  vhl := by
    rw [frameField_slice _ _ (by decide)]
    simp (disch := decide) only [ipChecksum, ipHeader, networkField_setField_apart]
    rw [networkField_set_byte _ _ _ rfl (by decide) fits]
    decide
  len := by
    rw [frameField_slice _ _ (by decide)]
    simp (disch := decide) only [ipChecksum, ipHeader, networkField_setField_apart]
    rw [networkField_set_htons _ _ _ rfl (by decide) fits, Nat.mod_mod, Nat.mod_eq_of_lt short]
  off := by
    rw [frameField_slice _ _ (by decide), ipChecksum,
      networkField_setField_apart _ _ _ (by decide), networkField,
      slice_ipHeader_zero _ _ _ _ _ _ (by decide) fits (by decide)]
    decide
  p := by
    rw [frameField_slice _ _ (by decide)]
    simp (disch := decide) only [ipChecksum, ipHeader, networkField_setField_apart]
    rw [networkField_set_byte _ _ _ rfl (by decide) fits, Nat.mod_eq_of_lt byte]
  src := by
    rw [frameField_slice _ _ (by decide)]
    simp (disch := decide) only [ipChecksum, ipHeader, networkField_setField_apart]
    rw [networkField_set_htonl _ _ _ rfl (by decide) fits, Nat.mod_eq_of_lt localIp.toNat_lt]
  dst := by
    rw [frameField_slice _ _ (by decide)]
    simp (disch := decide) only [ipChecksum, ipHeader, networkField_setField_apart]
    rw [networkField_set_htonl _ _ _ rfl (by decide) fits, Nat.mod_eq_of_lt dip.toNat_lt]
  checksum := by
    have zero := @slice_ipHeader_zero buf base localIp dip proto len Ip.sum (by decide) fits
      (by decide)
    exact @verifies_setField_inCksum _ (ipHeader localIp dip proto len buf base) base 10 8 rfl
      (by decide) (by change base + 20 ≤ mbufRoom at fits; omega)
      (congrArg littleEndian zero)

end

/-! ## The whole frame -/

theorem frameField_append_left {fst snd : List UInt8} {hdr : Nat} {which : Field}
    (isIn : hdr + which.offset + which.width ≤ fst.length) :
    frameField (fst ++ snd) hdr which = frameField fst hdr which := by
  have reach : which.width ≤ (fst.drop (hdr + which.offset)).length := by
    rw [length_drop]
    omega
  rw [frameField, frameField, drop_append_of_le_length (by omega), take_append_of_le_length reach]

theorem frameField_append_right {fst snd : List UInt8} {hdr : Nat} {which : Field} :
    frameField (fst ++ snd) (fst.length + hdr) which = frameField snd hdr which := by
  rw [frameField, frameField, add_assoc, drop_append, drop_eq_nil_of_le (by omega), nil_append]
  congr 3
  omega

section

variable {localIp dip : UInt32} {sport dport : UInt16} {eth ip udp payload : List UInt8}

/-- Three headers in front of a payload. -/
structure Encapsulated (localIp dip : UInt32) (sport dport : UInt16)
    (eth ip udp payload : List UInt8) : Prop where
  ethSize : eth.length = Eth.size
  ipSize : ip.length = Ip.size
  udpSize : udp.length = Udp.size
  type : frameField eth 0 Eth.type = ethtypeIp
  ipFields : IpFields localIp dip ipprotoUdp (payload.length + Udp.size + Ip.size) ip
  udpFields : UdpFields sport dport (payload.length + Udp.size) udp

namespace Encapsulated

variable (frame : Encapsulated localIp dip sport dport eth ip udp payload)
include frame

theorem ethField {which : Field} (isIn : which.offset + which.width ≤ Eth.size) :
    frameField (eth ++ (ip ++ (udp ++ payload))) 0 which = frameField eth 0 which :=
  frameField_append_left (by rwa [zero_add, frame.ethSize])

theorem ipField {which : Field} (isIn : which.offset + which.width ≤ Ip.size) :
    frameField (eth ++ (ip ++ (udp ++ payload))) Datagram.ip which = frameField ip 0 which := by
  have start : Datagram.ip = eth.length + 0 := frame.ethSize.symm
  rw [start, frameField_append_right, frameField_append_left (by rwa [zero_add, frame.ipSize])]

theorem udpField {which : Field} (isIn : which.offset + which.width ≤ Udp.size) :
    frameField (eth ++ (ip ++ (udp ++ payload))) Datagram.udp which = frameField udp 0 which := by
  have start : Datagram.udp = eth.length + (ip.length + 0) := by
    rw [frame.ethSize, frame.ipSize]
    rfl
  rw [start, frameField_append_right, frameField_append_right,
    frameField_append_left (by rwa [zero_add, frame.udpSize])]

theorem ulen : Datagram.ulen (eth ++ (ip ++ (udp ++ payload))) = payload.length + Udp.size :=
  (frame.udpField (by decide)).trans frame.udpFields.ulen

theorem drop_payload : (eth ++ (ip ++ (udp ++ payload))).drop Datagram.payload = payload := by
  have hdrs : Datagram.payload = eth.length + (ip.length + (udp.length + 0)) := by
    rw [frame.ethSize, frame.ipSize, frame.udpSize]
    rfl
  rw [hdrs, drop_length_add_append, drop_length_add_append, drop_length_add_append, drop_zero]

theorem wellFormed : Datagram.WellFormed dip (eth ++ (ip ++ (udp ++ payload))) where
  headers := by
    rw [length_append, length_append, length_append, frame.ethSize, frame.ipSize, frame.udpSize]
    change 42 ≤ 14 + (20 + (8 + payload.length))
    omega
  type := (frame.ethField (by decide)).trans frame.type
  vhl := (frame.ipField (by decide)).trans frame.ipFields.vhl
  checksum := by
    have start : Datagram.ip = eth.length := frame.ethSize.symm
    rw [start, drop_left, ← frame.ipSize, take_left]
    exact frame.ipFields.checksum
  off := (frame.ipField (by decide)).trans frame.ipFields.off
  dst := (frame.ipField (by decide)).trans frame.ipFields.dst
  p := (frame.ipField (by decide)).trans frame.ipFields.p
  ulen := by
    rw [frame.ulen]
    omega
  len := by rw [frame.ulen, frame.ipField (by decide), frame.ipFields.len]
  inside := by rw [frame.ulen, Nat.add_sub_cancel, ← length_drop, frame.drop_payload]

theorem bytes : Datagram.bytes (eth ++ (ip ++ (udp ++ payload))) = payload := by
  rw [Datagram.bytes, frame.ulen, Nat.add_sub_cancel, frame.drop_payload, List.take_length]

theorem connection :
    Datagram.connection (eth ++ (ip ++ (udp ++ payload))) = ⟨localIp, dport, sport⟩ := by
  rw [Datagram.connection, frame.ipField (by decide), frame.udpField (by decide),
    frame.udpField (by decide), frame.ipFields.src, frame.udpFields.dport,
    frame.udpFields.sport, UInt32.ofNat_toNat, UInt16.ofNat_toNat, UInt16.ofNat_toNat]

end Encapsulated

theorem netTxUdp_sends {m : Mbuf} (localIp dip : UInt32) (sport dport : UInt16)
    (room : Datagram.payload ≤ m.head) (isIn : m.head ≤ mbufRoom)
    (short : m.len + Udp.size + Ip.size < 2 ^ 16) :
    ∃ sent eth ip udp, netTxUdp localIp m dip sport dport = .ok sent ∧
      sent.frame = eth ++ (ip ++ (udp ++ m.frame)) ∧
      Encapsulated localIp dip sport dport eth ip udp m.frame := by
  change 42 ≤ m.head at room
  change m.len + 8 + 20 < 2 ^ 16 at short
  let datagram := m.prepended Udp.size (udpHeader sport dport (m.len + Udp.size))
  let pkt := datagram.prepended Ip.size fun buf iphdr =>
    ipChecksum (ipHeader localIp dip ipprotoUdp (datagram.len + Ip.size) buf iphdr) iphdr
  have udpRoom : Udp.size ≤ m.head := by change 8 ≤ m.head; omega
  have ipRoom : Ip.size ≤ datagram.head := by change 20 ≤ m.head - 8; omega
  have ethRoom : size ≤ pkt.head := by change 14 ≤ m.head - 8 - 20; omega
  let sent := pkt.prepended size (ethHeader ethtypeIp)
  have sends : netTxUdp localIp m dip sport dport = .ok sent := by
    rw [netTxUdp_eq _ _ _ _ udpRoom (by change m.len + 8 < 2 ^ 32; omega),
      netTxIp_eq _ _ _ ipRoom (by change m.len + 8 + 20 < 2 ^ 32; omega),
      netTxEth_eq _ ethRoom (by change m.len + 8 + 20 + 14 < 2 ^ 32; omega)]
  have ethFrame : sent.frame = sent.buf.slice sent.head size ++ pkt.frame :=
    frame_prepended ethRoom fun base count => slice_ethHeader_above pkt.buf base _ count
  have ipFrame : pkt.frame = pkt.buf.slice pkt.head Ip.size ++ datagram.frame :=
    frame_prepended ipRoom fun base count =>
      slice_ipHeader_above datagram.buf base _ _ _ _ count
  have udpFrame : datagram.frame = datagram.buf.slice datagram.head Udp.size ++ m.frame :=
    frame_prepended udpRoom fun base count => slice_udpHeader_above m.buf base _ _ _ count
  refine ⟨sent, sent.buf.slice sent.head size, pkt.buf.slice pkt.head Ip.size,
    datagram.buf.slice datagram.head Udp.size, sends, ?_, ?_⟩
  · rw [ethFrame, ipFrame, udpFrame]
  exact {
    ethSize := length_slice _ _ _
    ipSize := length_slice _ _ _
    udpSize := length_slice _ _ _
    type := ethHeader_type _ _ _ (by change m.head - 8 - 20 - 14 + 14 ≤ mbufRoom; omega)
    ipFields := by
      rw [length_frame]
      exact ipHeader_fields _ _ _ _ (by decide) short
        (by change m.head - 8 - 20 + 20 ≤ mbufRoom; omega)
    udpFields := by
      rw [length_frame]
      exact udpHeader_fields _ _ _ _ (by change m.len + 8 < 2 ^ 16; omega)
        (by change m.head - 8 + 8 ≤ mbufRoom; omega) }

end

theorem sockwrite_sends (localIp : UInt32) (si : Connection) {payload : List UInt8}
    {copyin : Nat → Option (List UInt8)} (small : payload.length ≤ mbufSize - mbufDefaultHeadroom)
    (copied : copyin payload.length = some payload) : ∃ sent eth ip udp,
      sockwrite localIp si true copyin payload.length = .ok (payload.length, some sent) ∧
      sent.frame = eth ++ (ip ++ (udp ++ payload)) ∧
      Encapsulated localIp si.raddr si.lport si.rport eth ip udp payload := by
  change payload.length ≤ 2048 - 128 at small
  have asUint : ((payload.length : Int) % 2 ^ 32).toNat = payload.length := by omega
  have asUint64 : ((payload.length : Int) % 2 ^ 64).toNat = payload.length := by omega
  -- The mbuf that `net_tx_udp` gets.
  let fresh : Mbuf :=
    { next := none
      head := mbufDefaultHeadroom
      len := 0
      buf := fun posn => if posn.val < mbufSize then 0 else 5 }
  let filled : Mbuf :=
    { fresh with
      len := payload.length
      buf := fresh.buf.patch mbufDefaultHeadroom payload }
  have put : fresh.mbufput payload.length =
      .ok (mbufDefaultHeadroom, { fresh with len := payload.length }) := by
    have total : (fresh.len + payload.length) % 2 ^ 32 = payload.length := by
      change (0 + payload.length) % 2 ^ 32 = payload.length
      omega
    rw [mbufput, total, if_neg (by change ¬2048 < payload.length; omega)]
    rfl
  have h : filled.frame = payload :=
    slice_patch_self _ _ _ (by change 128 + payload.length ≤ 4076; omega)
  obtain ⟨sent, eth, ip, udp, sends, frame, hdrs⟩ :=
    @netTxUdp_sends filled localIp si.raddr si.lport si.rport
      (show Datagram.payload ≤ mbufDefaultHeadroom by decide)
      (show mbufDefaultHeadroom ≤ mbufRoom by decide)
      (by change payload.length + 8 + 20 < 2 ^ 16; omega)
  rw [h] at frame hdrs
  refine ⟨sent, eth, ip, udp, ?_, frame, hdrs⟩
  have allocated : mbufalloc mbufDefaultHeadroom = some fresh := rfl
  rw [sockwrite, if_pos rfl, allocated]
  dsimp only
  rw [asUint, asUint64, put, copied]
  change (netTxUdp localIp filled si.raddr si.lport si.rport >>= fun m =>
    return ((payload.length : Int), some m)) = _
  rw [sends]
  rfl

/-- A payload reaches the host it is sent to, with the ports exchanged. -/
theorem udp_round_trip (localIp : UInt32) (si : Connection) (payload : List UInt8)
    (copyin : Nat → Option (List UInt8)) (small : payload.length ≤ mbufSize - mbufDefaultHeadroom)
    (copied : copyin payload.length = some payload) :
    ∃ sent, sockwrite localIp si true copyin payload.length = .ok (payload.length, some sent) ∧
      ∀ received : Mbuf, received.frame = sent.frame → ∃ delivered,
          netRx si.raddr received = .sockrecvudp delivered ⟨localIp, si.rport, si.lport⟩ ∧
            delivered.frame = payload := by
  obtain ⟨sent, eth, ip, udp, sends, frame, headers⟩ := sockwrite_sends localIp si small copied
  refine ⟨sent, sends, ?_⟩
  intro received same
  rw [frame] at same
  have short : received.len ≤ mbufSize := by
    rw [← Mbuf.length_frame, same, List.length_append, List.length_append, List.length_append,
      headers.ethSize, headers.ipSize, headers.udpSize]
    change payload.length ≤ 2048 - 128 at small
    change 14 + (20 + (8 + payload.length)) ≤ 2048
    omega
  have formed : Datagram.WellFormed si.raddr received.frame := same ▸ headers.wellFormed
  refine ⟨_, (netRx_eq_iff short).mpr ⟨formed, rfl, ?_⟩, ?_⟩
  · rw [same, headers.connection]
  · rw [frame_delivered formed, same, headers.bytes]

/-- Three bytes from 10.0.2.15 to 10.0.2.2. -/
theorem udp_round_trip_three :
    ∃ sent, sockwrite 0x0a00020f ⟨0x0a000202, 2000, 25603⟩ true (fun _ => some [1, 2, 3]) 3 =
        .ok (3, some sent) ∧ ∀ received : Mbuf, received.frame = sent.frame → ∃ delivered,
          netRx 0x0a000202 received = .sockrecvudp delivered ⟨0x0a00020f, 25603, 2000⟩ ∧
            delivered.frame = [1, 2, 3] :=
  udp_round_trip 0x0a00020f ⟨0x0a000202, 2000, 25603⟩ [1, 2, 3] (fun _ => some [1, 2, 3])
    (by decide) rfl

end Xv6
