import ScaleTail.Net.Addr

/-! # Parsed packets and tracked flows -/

namespace ScaleTail.Net

abbrev Proto := UInt8

namespace Proto

def unknown : Proto := 0x00
def icmpv4 : Proto := 0x01
def igmp : Proto := 0x02
def icmpv6 : Proto := 0x3a
def tcp : Proto := 0x06
def udp : Proto := 0x11
def sctp : Proto := 0x84
def tsmp : Proto := 99
def fragment : Proto := 0xff

end Proto

structure Parsed where
  b : List UInt8
  subofs : Nat
  ipVersion : UInt8
  ipProto : Proto
  src : AddrPort
  dst : AddrPort
  tcpFlags : UInt8
  deriving DecidableEq

namespace Parsed

def tcpSyn : UInt8 := 0x02
def tcpSynAck : UInt8 := 0x12

def isTCPSyn (q : Parsed) : Bool := q.tcpFlags &&& tcpSynAck = tcpSyn

def icmpHeader (q : Parsed) : Option (UInt8 × UInt8) :=
  if q.b.length < q.subofs + 8 then none
  else some (q.b.getD q.subofs 0, q.b.getD (q.subofs + 1) 0)

def isError (q : Parsed) : Bool :=
  match q.icmpHeader with
  | none => false
  | some (t, _) =>
    if q.ipProto = .icmpv4 then t = 0x03 ∨ t = 0x0b ∨ t = 0x12
    else if q.ipProto = .icmpv6 then t = 1 ∨ t = 2 ∨ t = 3 ∨ t = 4
    else false

def isEchoResponse (q : Parsed) : Bool :=
  match q.icmpHeader with
  | none => false
  | some (t, code) =>
    if q.ipProto = .icmpv4 then t = 0x00 ∧ code = 0
    else if q.ipProto = .icmpv6 then t = 129 ∧ code = 0
    else false

end Parsed

namespace Flowtrack

structure Tuple where
  proto : Proto
  src : BitVec 128
  srcPort : UInt16
  dst : BitVec 128
  dstPort : UInt16
  deriving DecidableEq

def makeTuple (proto : Proto) (src dst : AddrPort) : Tuple :=
  ⟨proto, src.addr.as16, src.port, dst.addr.as16, dst.port⟩

structure Cache (V : Type) where
  maxEntries : Nat
  ll : List (Tuple × V)

namespace Cache

variable {V : Type}

def len (c : Cache V) : Nat := c.ll.length

def removeOldest (c : Cache V) : Cache V := { c with ll := c.ll.dropLast }

def moveToFront (c : Cache V) (e : Tuple × V) : Cache V :=
  { c with ll := e :: c.ll.eraseP (·.1 = e.1) }

def add (c : Cache V) (key : Tuple) (value : V) : Cache V :=
  if c.ll.any (·.1 = key) then c.moveToFront (key, value)
  else
    let c := { c with ll := (key, value) :: c.ll }
    if c.maxEntries ≠ 0 ∧ c.maxEntries < c.len then c.removeOldest else c

def get (c : Cache V) (key : Tuple) : Option V × Cache V :=
  match c.ll.find? (·.1 = key) with
  | some e => (some e.2, c.moveToFront e)
  | none => (none, c)

def remove (c : Cache V) (key : Tuple) : Cache V := { c with ll := c.ll.filter (·.1 ≠ key) }

end Cache

end Flowtrack

end ScaleTail.Net
