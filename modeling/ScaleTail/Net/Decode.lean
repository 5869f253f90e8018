import ScaleTail.Net.Filter

/-! # Decoding packets -/

namespace ScaleTail.Net

structure RawAddrPort where
  addr : Option Addr
  port : UInt16
  deriving DecidableEq

namespace RawAddrPort

def zero : RawAddrPort := ⟨none, 0⟩

def withIP (ap : RawAddrPort) (ip : Addr) : RawAddrPort := ⟨some ip, ap.port⟩

def withPort (ap : RawAddrPort) (port : UInt16) : RawAddrPort := ⟨ap.addr, port⟩

def read (unset : Addr) (ap : RawAddrPort) : AddrPort := ⟨ap.addr.getD unset, ap.port⟩

end RawAddrPort

structure CaptureMeta where
  didSNAT : Bool
  originalSrc : RawAddrPort
  didDNAT : Bool
  originalDst : RawAddrPort
  deriving DecidableEq

def CaptureMeta.zero : CaptureMeta := ⟨false, .zero, false, .zero⟩

structure Buffer where
  b : List UInt8
  subofs : Nat
  dataofs : Nat
  length : Nat
  ipVersion : UInt8
  ipProto : Proto
  src : RawAddrPort
  dst : RawAddrPort
  tcpFlags : UInt8
  captureMeta : CaptureMeta
  deriving DecidableEq

def uint8At (b : List UInt8) (i : Nat) : UInt8 := b.getD i 0

def uint16At (b : List UInt8) (i : Nat) : UInt16 :=
  (uint8At b i).toUInt16 <<< 8 ||| (uint8At b (i + 1)).toUInt16

def bitsAt (b : List UInt8) (i n : Nat) : Nat :=
  (List.range n).foldl (fun bits k => bits * 256 + (uint8At b (i + k)).toNat) 0

def ip4At (b : List UInt8) (i : Nat) : Addr := .v4 (BitVec.ofNat 32 (bitsAt b i 4))

def ip6At (b : List UInt8) (i : Nat) : Addr := .v6 (BitVec.ofNat 128 (bitsAt b i 16))

def ip4HeaderLength : Nat := 20
def ip6HeaderLength : Nat := 40
def icmp4HeaderLength : Nat := 4
def icmp6HeaderLength : Nat := 4
def igmpHeaderLength : Nat := 8
def tcpHeaderLength : Nat := 20
def udpHeaderLength : Nat := 8
def sctpHeaderLength : Nat := 12
def minTSMPSize : Nat := 7

def minFragBlks : UInt16 := (60 + 20) / 8

namespace Buffer

def zero : Buffer := ⟨[], 0, 0, 0, 0, .unknown, .zero, .zero, 0, .zero⟩

def setUnknown (q : Buffer) : Buffer := { q with ipProto := .unknown }

def setPorts (q : Buffer) (src dst : UInt16) : Buffer :=
  { q with src := q.src.withPort src, dst := q.dst.withPort dst }

def decodeICMP (q : Buffer) (sub : List UInt8) (headerLength : Nat) : Buffer :=
  if sub.length < headerLength then q.setUnknown
  else { q.setPorts 0 0 with dataofs := q.subofs + headerLength }

def decodeTCP (q : Buffer) (sub : List UInt8) : Buffer :=
  if sub.length < tcpHeaderLength then q.setUnknown
  else
    let headerLength := (uint8At sub 12 &&& 0xf0) >>> 2
    { q.setPorts (uint16At sub 0) (uint16At sub 2) with
      tcpFlags := uint8At sub 13
      dataofs := q.subofs + headerLength.toNat }

def decodeUDP (q : Buffer) (sub : List UInt8) : Buffer :=
  if sub.length < udpHeaderLength then q.setUnknown
  else { q.setPorts (uint16At sub 0) (uint16At sub 2) with dataofs := q.subofs + udpHeaderLength }

def decodeSCTP (q : Buffer) (sub : List UInt8) : Buffer :=
  if sub.length < sctpHeaderLength then q.setUnknown
  else q.setPorts (uint16At sub 0) (uint16At sub 2)

def decodeTSMP (q : Buffer) (sub : List UInt8) : Buffer :=
  if sub.length < minTSMPSize then q.setUnknown else { q with dataofs := q.subofs }

def decodeFirst4 (q : Buffer) (sub : List UInt8) (moreFrags : Bool) : Buffer :=
  if q.ipProto = .icmpv4 then q.decodeICMP sub icmp4HeaderLength
  else if q.ipProto = .igmp then if sub.length < igmpHeaderLength then q.setUnknown else q
  else if q.ipProto = .tcp then q.decodeTCP sub
  else if q.ipProto = .udp then q.decodeUDP sub
  else if q.ipProto = .sctp then q.decodeSCTP sub
  else if q.ipProto = .tsmp then if moreFrags then q.setUnknown else q.decodeTSMP sub
  else if q.ipProto = .fragment then q.setUnknown
  else q

def decode4 (q : Buffer) (b : List UInt8) : Buffer :=
  if b.length < ip4HeaderLength then { q with ipVersion := 0, ipProto := .unknown }
  else
    let q := { q with ipProto := uint8At b 9, length := (uint16At b 2).toNat }
    if b.length < q.length then q.setUnknown
    else
      let q := { q with
        src := q.src.withIP (ip4At b 12)
        dst := q.dst.withIP (ip4At b 16)
        subofs := ((uint8At b 0 &&& 0x0f) <<< 2).toNat }
      if q.length < q.subofs then q.setUnknown
      else
        let sub := b.drop q.subofs
        let fragFlags := uint16At b 6
        let moreFrags := fragFlags &&& 0x2000 ≠ 0
        let fragOfs := fragFlags &&& 0x1fff
        if fragOfs = 0 then q.decodeFirst4 sub moreFrags
        else if fragOfs < minFragBlks then q.setUnknown
        else { q with ipProto := .fragment }

def decodeSub6 (q : Buffer) (sub : List UInt8) : Buffer :=
  if q.ipProto = .icmpv6 then q.decodeICMP sub icmp6HeaderLength
  else if q.ipProto = .tcp then q.decodeTCP sub
  else if q.ipProto = .udp then q.decodeUDP sub
  else if q.ipProto = .sctp then q.decodeSCTP sub
  else if q.ipProto = .tsmp then q.decodeTSMP sub
  else if q.ipProto = .fragment then q.setUnknown
  else q

def decode6 (q : Buffer) (b : List UInt8) : Buffer :=
  if b.length < ip6HeaderLength then { q with ipVersion := 0, ipProto := .unknown }
  else
    let q := { q with
      ipProto := uint8At b 6
      length := (uint16At b 4).toNat + ip6HeaderLength }
    if b.length < q.length then q.setUnknown
    else
      let q := { q with
        src := q.src.withIP (ip6At b 8)
        dst := q.dst.withIP (ip6At b 24)
        subofs := 40 }
      q.decodeSub6 (b.drop q.subofs)

def decode (q : Buffer) (b : List UInt8) : Buffer :=
  let q := { q with b, captureMeta := .zero }
  if b.length < 1 then { q with ipVersion := 0, ipProto := .unknown }
  else
    let q := { q with ipVersion := uint8At b 0 >>> 4 }
    if q.ipVersion = 4 then q.decode4 b
    else if q.ipVersion = 6 then q.decode6 b
    else { q with ipVersion := 0, ipProto := .unknown }

def parsed (unset : Addr) (q : Buffer) : Parsed where
  b := q.b
  subofs := q.subofs
  ipVersion := q.ipVersion
  ipProto := q.ipProto
  src := q.src.read unset
  dst := q.dst.read unset
  tcpFlags := q.tcpFlags

end Buffer

structure Conn25 where
  configured : Bool
  isKnownTransitIP : Addr → Bool
  lookupBySrcIPAndTransitIP : Addr → Addr → Bool

namespace Conn25

def linkLocalAllow (c : Conn25) : PacketMatch := fun p =>
  c.configured && c.isKnownTransitIP p.dst.addr

def packetFilterAllow (c : Conn25) : PacketMatch := fun p =>
  c.configured && c.lookupBySrcIPAndTransitIP p.src.addr p.dst.addr

def installHooks (c : Conn25) (f : Filter) : Filter :=
  { f with
    linkLocalAllowHooks := f.linkLocalAllowHooks ++ [c.linkLocalAllow, c.packetFilterAllow]
    ingressAllowHooks := f.ingressAllowHooks ++ [c.packetFilterAllow] }

end Conn25

namespace Filter

def dummyPacket : List UInt8 := List.replicate 20 0xFF

def check (f : Filter) (srcIP dstIP : Addr) (dstPort : UInt16) (proto : Proto) :
    Response × Filter :=
  let pkt := (Buffer.zero.decode dummyPacket).parsed srcIP
  -- The second case asks for the family of the source twice.
  if srcIP.is4 ∧ dstIP.is6 ∨ srcIP.is6 ∧ srcIP.is4 then (.drop, f)
  else f.runIn { pkt with
    ipVersion := if srcIP.is4 then 4 else 6
    src := ⟨srcIP, 0⟩
    dst := ⟨dstIP, dstPort⟩
    ipProto := proto
    tcpFlags := if proto = .tcp then Parsed.tcpSyn else pkt.tcpFlags }

def checkTCP (f : Filter) (srcIP dstIP : Addr) (dstPort : UInt16) : Response × Filter :=
  f.check srcIP dstIP dstPort .tcp

end Filter

structure PeerAPIHandler where
  hasDNS : Bool
  isSelf : Bool
  offeringExitNode : Bool
  offeringAppConnector : Bool
  remoteAddr : Option Addr
  filter : Option Filter

namespace PeerAPIHandler

/-- The address that stands for the internet. -/
def probe (remoteIP : Addr) : Addr := if remoteIP.is6 then .v6 (0x2000 <<< 112) else .v4 0

def replyToDNSQueries (h : PeerAPIHandler) : Bool :=
  if ¬ h.hasDNS then false
  else if h.isSelf then true
  else if ¬ h.offeringExitNode ∧ ¬ h.offeringAppConnector then false
  else match h.remoteAddr, h.filter with
    | some remoteIP, some f => (f.checkTCP remoteIP (probe remoteIP) 53).1 = .accept
    | _, _ => false

end PeerAPIHandler

end ScaleTail.Net
