import Xv6.Net.Mbuf
import Xv6.Net.Encoding

/-! # The network stack

The headers of `net.h` and the functions of `net.c` that write and read them,
with `sockwrite` of `sysnet.c`. The address `local_ip` of the host is a
parameter. -/

namespace Xv6

open Foundation

/-! ## Headers -/

def ethaddrLen : Nat := 6

/-! ### `struct eth` -/

namespace Eth

def dhost : Field := ⟨0, 6⟩
def shost : Field := ⟨6, 6⟩
def type : Field := ⟨12, 2⟩

def size : Nat := 14

end Eth

def ethtypeIp : Nat := 0x0800

def ethtypeArp : Nat := 0x0806

/-! ### `struct ip` -/

namespace Ip

def vhl : Field := ⟨0, 1⟩
def len : Field := ⟨2, 2⟩
def off : Field := ⟨6, 2⟩
def ttl : Field := ⟨8, 1⟩
def p : Field := ⟨9, 1⟩
def sum : Field := ⟨10, 2⟩
def src : Field := ⟨12, 4⟩
def dst : Field := ⟨16, 4⟩

def size : Nat := 20

end Ip

def ipprotoUdp : Nat := 17

/-! ### `struct udp` -/

namespace Udp

def sport : Field := ⟨0, 2⟩
def dport : Field := ⟨2, 2⟩
def ulen : Field := ⟨4, 2⟩
def sum : Field := ⟨6, 2⟩

def size : Nat := 8

end Udp

/-! ### `struct arp` -/

namespace Arp

def hrd : Field := ⟨0, 2⟩
def pro : Field := ⟨2, 2⟩
def hln : Field := ⟨4, 1⟩
def pln : Field := ⟨5, 1⟩
def op : Field := ⟨6, 2⟩
def sha : Field := ⟨8, 6⟩
def sip : Field := ⟨14, 4⟩
def tha : Field := ⟨18, 6⟩
def tip : Field := ⟨24, 4⟩

def size : Nat := 28

end Arp

def arpHrdEther : Nat := 1

def arpOpRequest : Nat := 1

def arpOpReply : Nat := 2

def localMac : List UInt8 := [0x52, 0x54, 0x00, 0x12, 0x34, 0x56]

def broadcastMac : List UInt8 := [0xFF, 0xFF, 0xFF, 0xFF, 0xFF, 0xFF]

/-- The remote address and the two ports by which a socket is found. -/
structure Connection where
  raddr : UInt32
  lport : UInt16
  rport : UInt16
deriving DecidableEq

/-! ## Sending

Each function returns the mbuf as it is handed to `e1000_transmit`. -/

/-- The header that `net_tx_eth` writes. -/
def ethHeader (ethtype : Nat) (buf : Buffer mbufRoom) (ethhdr : Nat) : Buffer mbufRoom :=
  let buf := buf.patch (ethhdr + Eth.shost.offset) localMac
  let buf := buf.patch (ethhdr + Eth.dhost.offset) broadcastMac
  buf.setField ethhdr Eth.type (htons ethtype)

def netTxEth (m : Mbuf) (ethtype : Nat) : Except MbufPanic Mbuf := do
  let (ethhdr, m) ← m.mbufpush Eth.size
  return { m with buf := ethHeader ethtype m.buf ethhdr }

/-- The header that `net_tx_ip` writes, up to its checksum. -/
def ipHeader (localIp dip : UInt32) (proto len : Nat) (buf : Buffer mbufRoom) (iphdr : Nat) :
    Buffer mbufRoom :=
  let buf := buf.patch iphdr (List.replicate Ip.size 0)
  let buf := buf.setField iphdr Ip.vhl ((4 <<< 4) ||| (20 >>> 2))
  let buf := buf.setField iphdr Ip.p proto
  let buf := buf.setField iphdr Ip.src (htonl localIp.toNat)
  let buf := buf.setField iphdr Ip.dst (htonl dip.toNat)
  let buf := buf.setField iphdr Ip.len (htons (len % 2 ^ 16))
  buf.setField iphdr Ip.ttl 100

def ipChecksum (buf : Buffer mbufRoom) (iphdr : Nat) : Buffer mbufRoom :=
  buf.setField iphdr Ip.sum (inCksum buf iphdr Ip.size)

def netTxIp (localIp : UInt32) (m : Mbuf) (proto : Nat) (dip : UInt32) :
    Except MbufPanic Mbuf := do
  let (iphdr, m) ← m.mbufpush Ip.size
  let buf := ipChecksum (ipHeader localIp dip proto m.len m.buf iphdr) iphdr
  netTxEth { m with buf := buf } ethtypeIp

/-- The header that `net_tx_udp` writes. -/
def udpHeader (sport dport : UInt16) (len : Nat) (buf : Buffer mbufRoom) (udphdr : Nat) :
    Buffer mbufRoom :=
  let buf := buf.setField udphdr Udp.sport (htons sport.toNat)
  let buf := buf.setField udphdr Udp.dport (htons dport.toNat)
  let buf := buf.setField udphdr Udp.ulen (htons (len % 2 ^ 16))
  buf.setField udphdr Udp.sum 0

def netTxUdp (localIp : UInt32) (m : Mbuf) (dip : UInt32) (sport dport : UInt16) :
    Except MbufPanic Mbuf := do
  let (udphdr, m) ← m.mbufpush Udp.size
  netTxIp localIp { m with buf := udpHeader sport dport m.len m.buf udphdr } ipprotoUdp dip

/-- What `net_tx_arp` sends, or nothing when there is no mbuf. -/
def netTxArp (localIp : UInt32) (op : Nat) (dmac : List UInt8) (dip : UInt32) :
    Except MbufPanic (Option Mbuf) :=
  match Mbuf.mbufalloc mbufDefaultHeadroom with
  | none => return none
  | some m => do
      let (arphdr, m) ← m.mbufput Arp.size
      let buf := m.buf.setField arphdr Arp.hrd (htons arpHrdEther)
      let buf := buf.setField arphdr Arp.pro (htons ethtypeIp)
      let buf := buf.setField arphdr Arp.hln ethaddrLen
      let buf := buf.setField arphdr Arp.pln 4
      let buf := buf.setField arphdr Arp.op (htons op)
      let buf := buf.patch (arphdr + Arp.sha.offset) localMac
      let buf := buf.setField arphdr Arp.sip (htonl localIp.toNat)
      let buf := buf.patch (arphdr + Arp.tha.offset) dmac
      let buf := buf.setField arphdr Arp.tip (htonl dip.toNat)
      let m ← netTxEth { m with buf := buf } ethtypeArp
      return some m

/-- `sockwrite` on a socket: its return value, and the mbuf it sends. Whether
`mbufalloc` gets a page, and what `copyin` reads when it is asked for a number
of bytes, are parameters. -/
def sockwrite (localIp : UInt32) (si : Connection) (kalloc : Bool)
    (copyin : Nat → Option (List UInt8)) (n : Int) : Except MbufPanic (Int × Option Mbuf) :=
  if kalloc then
    match Mbuf.mbufalloc mbufDefaultHeadroom with
    | none => return (-1, none)
    | some m => do
        let (dst, m) ← m.mbufput (n % 2 ^ 32).toNat
        match copyin (n % 2 ^ 64).toNat with
        | none => return (-1, none)
        | some bytes =>
          let m ← netTxUdp localIp { m with buf := m.buf.patch dst bytes } si.raddr
            si.lport si.rport
          return (n, some m)
  else return (-1, none)

/-! ## Receiving -/

/-- What becomes of an mbuf given to `net_rx`: `sockrecvudp` gets it, or it is
freed, in one case after an ARP reply has been sent. -/
inductive Disposal
  | sockrecvudp (m : Mbuf) (conn : Connection)
  | arpReply (reply : Except MbufPanic (Option Mbuf))
  | mbuffree

def netRxArp (localIp : UInt32) (m : Mbuf) : Disposal :=
  match m.mbufpull Arp.size with
  | none => .mbuffree
  | some (arphdr, m) =>
    if ntohs (m.buf.field arphdr Arp.hrd) ≠ arpHrdEther ∨
        ntohs (m.buf.field arphdr Arp.pro) ≠ ethtypeIp ∨
        m.buf.field arphdr Arp.hln ≠ ethaddrLen ∨
        m.buf.field arphdr Arp.pln ≠ 4 then .mbuffree
    else
      let tip := ntohl (m.buf.field arphdr Arp.tip)
      if ntohs (m.buf.field arphdr Arp.op) ≠ arpOpRequest ∨ tip ≠ localIp.toNat then .mbuffree
      else
        let smac := m.buf.slice (arphdr + Arp.sha.offset) ethaddrLen
        let sip := ntohl (m.buf.field arphdr Arp.sip)
        .arpReply (netTxArp localIp arpOpReply smac (UInt32.ofNat sip))

/-- The `uint16` argument `len` is the length that the IP header gives. -/
def netRxUdp (m : Mbuf) (len iphdr : Nat) : Disposal :=
  match m.mbufpull Udp.size with
  | none => .mbuffree
  | some (udphdr, m) =>
    if ntohs (m.buf.field udphdr Udp.ulen) ≠ len then .mbuffree
    else
      let len := (len + 2 ^ 16 - Udp.size) % 2 ^ 16
      if m.len < len then .mbuffree
      else
        let m := match m.mbuftrim (m.len - len) with
          | some (_, trimmed) => trimmed
          | none => m
        let sip := ntohl (m.buf.field iphdr Ip.src)
        let sport := ntohs (m.buf.field udphdr Udp.sport)
        let dport := ntohs (m.buf.field udphdr Udp.dport)
        .sockrecvudp m ⟨UInt32.ofNat sip, UInt16.ofNat dport, UInt16.ofNat sport⟩

def netRxIp (localIp : UInt32) (m : Mbuf) : Disposal :=
  match m.mbufpull Ip.size with
  | none => .mbuffree
  | some (iphdr, m) =>
    if m.buf.field iphdr Ip.vhl ≠ ((4 <<< 4) ||| (20 >>> 2)) then .mbuffree
    else if inCksum m.buf iphdr Ip.size ≠ 0 then .mbuffree
    else if htons (m.buf.field iphdr Ip.off) ≠ 0 then .mbuffree
    else if htonl (m.buf.field iphdr Ip.dst) ≠ localIp.toNat then .mbuffree
    else if m.buf.field iphdr Ip.p ≠ ipprotoUdp then .mbuffree
    else
      let len := (ntohs (m.buf.field iphdr Ip.len) + 2 ^ 16 - Ip.size) % 2 ^ 16
      netRxUdp m len iphdr

def netRx (localIp : UInt32) (m : Mbuf) : Disposal :=
  match m.mbufpull Eth.size with
  | none => .mbuffree
  | some (ethhdr, m) =>
    let type := ntohs (m.buf.field ethhdr Eth.type)
    if type = ethtypeIp then netRxIp localIp m
    else if type = ethtypeArp then netRxArp localIp m
    else .mbuffree

end Xv6
