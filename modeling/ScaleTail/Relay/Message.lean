import ScaleTail.Go.Strings
import ScaleTail.Lib.BigEndian
import ScaleTail.Net.Addr

/-! # Messages of the UDP relay -/

namespace ScaleTail.Relay
open Lib Go Net

abbrev DiscoPublic := BitVec 256

def DiscoPublic.raw (k : DiscoPublic) : Bytes := BigEndian.encode 32 k.toNat

def discoPublicFromRaw32 (raw : Bytes) : DiscoPublic := BitVec.ofNat 256 (BigEndian.decode raw)

def uint32 (bs : Bytes) : UInt32 := UInt32.ofNat (BigEndian.decode bs)

def putUint32 (n : UInt32) : Bytes := BigEndian.encode 4 n.toNat

structure GeneveHeader where
  control : Bool
  protocol : Nat
  vni : UInt32
  deriving DecidableEq

def geneveFixedHeaderLength : Nat := 8
def geneveProtocolDisco : Nat := 0x7a11

def GeneveHeader.encode (h : GeneveHeader) : Bytes :=
  0 :: (if h.control then 0x80 else 0) :: BigEndian.encode 2 h.protocol ++ putUint32 (h.vni <<< 8)

def GeneveHeader.decode (b : Bytes) : Option GeneveHeader :=
  if b.length < geneveFixedHeaderLength then none
  else some
    { control := b.getD 1 0 &&& 0x80 ≠ 0
      protocol := BigEndian.decode ((b.drop 2).take 2)
      vni := uint32 ((b.drop 4).take 4) >>> 8 }

def isStunBinding (b : Bytes) : Bool :=
  20 ≤ b.length && b.getD 0 0 &&& 0xc0 = 0 && (b.drop 4).take 4 = [0x21, 0x12, 0xa4, 0x42] &&
    b.getD 1 0 = 1

def magic : Bytes := [0x54, 0x53, 0xf0, 0x9f, 0x92, 0xac]

def source (p : Bytes) : Option DiscoPublic :=
  if p.length < magic.length + 32 + 24 then none
  else if p.take magic.length = magic then some (discoPublicFromRaw32 ((p.drop magic.length).take 32))
  else none

structure BindCommon where
  vni : UInt32
  generation : UInt32
  remoteKey : DiscoPublic
  challenge : Bytes
  deriving DecidableEq

namespace BindCommon

def encode (m : BindCommon) : Bytes :=
  putUint32 m.vni ++ putUint32 m.generation ++ m.remoteKey.raw ++ m.challenge

def decode (b : Bytes) : Option BindCommon :=
  if b.length < 72 then none
  else some
    { vni := uint32 (b.take 4)
      generation := uint32 ((b.drop 4).take 4)
      remoteKey := discoPublicFromRaw32 ((b.drop 8).take 32)
      challenge := (b.drop 40).take 32 }

end BindCommon

inductive Message
  | bind (m : BindCommon)
  | challenge (m : BindCommon)
  | answer (m : BindCommon)
  | other
  deriving DecidableEq

def Message.parse : Bytes → Option Message
  | t :: _ver :: p =>
    if t = 0x04 then (BindCommon.decode p).map .bind
    else if t = 0x05 then (BindCommon.decode p).map .challenge
    else if t = 0x06 then (BindCommon.decode p).map .answer
    else some .other
  | _ => none

def addrPortBinary (a : AddrPort) : Bytes :=
  (match a.addr with
    | .v4 bits => BigEndian.encode 4 bits.toNat
    | .v6 bits => BigEndian.encode 16 bits.toNat) ++
  [UInt8.ofNat a.port.toNat, UInt8.ofNat (a.port.toNat / 256)]

def bindInput (src : AddrPort) (m : BindCommon) : Bytes :=
  putUint32 m.vni ++ putUint32 m.generation ++ m.remoteKey.raw ++ addrPortBinary src

end ScaleTail.Relay
