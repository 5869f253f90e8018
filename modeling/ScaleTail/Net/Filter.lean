import ScaleTail.Net.Packet

/-!
# The packet filter

`wgengine/filter`: the rules split by address family, the verdict for inbound and outbound packets,
and the table of flows that both directions update.
-/

namespace ScaleTail.Net

open Flowtrack

structure PortRange where
  first : UInt16
  last : UInt16
  deriving DecidableEq

def PortRange.allPorts : PortRange := ⟨0, 0xffff⟩

def PortRange.contains (pr : PortRange) (port : UInt16) : Bool := pr.first ≤ port ∧ port ≤ pr.last

structure NetPortRange where
  net : Prefix
  ports : PortRange

abbrev NodeCapability := String

structure Match where
  ipProto : List Proto
  srcs : List Prefix
  srcsContains : Addr → Bool
  srcCaps : List NodeCapability
  dsts : List NetPortRange

abbrev CapTestFunc := Addr → NodeCapability → Bool

def srcMatches (m : Match) (srcAddr : Addr) (hasCap : Option CapTestFunc) : Bool :=
  m.srcsContains srcAddr ||
    match hasCap with
    | some hasCap => m.srcCaps.any (hasCap srcAddr)
    | none => false

def matchRules (ms : List Match) (q : Parsed) (hasCap : Option CapTestFunc) : Bool :=
  ms.any fun m =>
    m.ipProto.contains q.ipProto && srcMatches m q.src.addr hasCap &&
      m.dsts.any fun dst => dst.net.contains q.dst.addr && dst.ports.contains q.dst.port

def matchIPsOnly (ms : List Match) (q : Parsed) (hasCap : Option CapTestFunc) : Bool :=
  (ms.any fun m => m.srcsContains q.src.addr && m.dsts.any (·.net.contains q.dst.addr)) ||
    match hasCap with
    | some hasCap => ms.any fun m => m.srcCaps.any (hasCap q.src.addr)
    | none => false

def matchProtoAndIPsOnlyIfAllPorts (ms : List Match) (q : Parsed) : Bool :=
  ms.any fun m =>
    m.ipProto.contains q.ipProto && m.srcsContains q.src.addr &&
      m.dsts.any fun dst => dst.ports = .allPorts && dst.net.contains q.dst.addr

inductive Response
  | drop
  | dropSilently
  | accept
  | noVerdict
  deriving DecidableEq

inductive DropReason
  | multicast
  | linkLocalUnicast
  | tooShort
  | unknownProtocol
  deriving DecidableEq

abbrev PacketMatch := Parsed → Bool

def lruMax : Nat := 512

structure Filter where
  local4 : Addr → Bool
  local6 : Addr → Bool
  srcIPHasCap : Option CapTestFunc
  matches4 : List Match
  matches6 : List Match
  state : Cache Unit
  ingressAllowHooks : List PacketMatch
  linkLocalAllowHooks : List PacketMatch

section
variable [BartLite]

def matchFamily (keep : Addr → Bool) (m : Match) : Option Match :=
  let srcs := m.srcs.filter (keep ·.addr)
  let dsts := m.dsts.filter (keep ·.net.addr)
  if (0 < srcs.length ∨ 0 < m.srcCaps.length) ∧ 0 < dsts.length then
    some ⟨m.ipProto, srcs, IPSet.newContainsIPFunc srcs, m.srcCaps, dsts⟩
  else none

def matchesFamily (ms : List Match) (keep : Addr → Bool) : List Match :=
  ms.filterMap (matchFamily keep)

def Filter.new (ms : List Match) (capTest : Option CapTestFunc) (localNets : Option (List Prefix))
    (shareStateWith : Option Filter) : Filter where
  local4 := match localNets with
    | some p => IPSet.newContainsIPFunc (p.partition (·.addr.is4)).1
    | none => IPSet.emptySet
  local6 := match localNets with
    | some p => IPSet.newContainsIPFunc (p.partition (·.addr.is4)).2
    | none => IPSet.emptySet
  srcIPHasCap := capTest
  matches4 := matchesFamily ms Addr.is4
  matches6 := matchesFamily ms Addr.is6
  state := match shareStateWith with
    | some f => f.state
    | none => ⟨lruMax, []⟩
  ingressAllowHooks := []
  linkLocalAllowHooks := []

end

namespace Filter

def gcpDNSAddr : Addr := .v4 0xa9fea9fe#32

def isAllowedLinkLocal (f : Filter) (q : Parsed) : Bool :=
  q.dst.addr = gcpDNSAddr ∨ f.linkLocalAllowHooks.any (· q)

def pre (f : Filter) (q : Parsed) : Response × Option DropReason :=
  if q.b.length = 0 then (.accept, none)
  else if q.b.length < 20 then (.drop, some .tooShort)
  else if q.ipProto = .unknown then (.drop, some .unknownProtocol)
  else if q.dst.addr.isMulticast then (.drop, some .multicast)
  else if q.dst.addr.isLinkLocalUnicast ∧ ¬ f.isAllowedLinkLocal q then
    (.drop, some .linkLocalUnicast)
  else if q.ipProto = .fragment then (.accept, none)
  else (.noVerdict, none)

def unknownProtoString (proto : Proto) : String := s!"unknown-protocol-{proto.toNat}"

/-- `runIn4` and `runIn6`, which differ in the family they read and in the ICMP protocol they know. -/
def runInFamily (icmp : Proto) (isLocal : Addr → Bool) (ms : List Match) (f : Filter)
    (q : Parsed) : Response × String × Filter :=
  if ¬ isLocal q.dst.addr then (.noVerdict, "destination not allowed", f)
  else if q.ipProto = icmp then
    if q.isEchoResponse ∨ q.isError then (.accept, "icmp response ok", f)
    else if matchIPsOnly ms q f.srcIPHasCap then (.accept, "icmp ok", f)
    else (.noVerdict, "no rules matched", f)
  else if q.ipProto = .tcp then
    if ¬ q.isTCPSyn then (.accept, "tcp non-syn", f)
    else if matchRules ms q f.srcIPHasCap then (.accept, "tcp ok", f)
    else (.noVerdict, "no rules matched", f)
  else if q.ipProto = .udp ∨ q.ipProto = .sctp then
    let t := makeTuple q.ipProto q.src q.dst
    let (found, lru) := f.state.get t
    let f := { f with state := lru }
    if found.isSome then (.accept, "cached", f)
    else if matchRules ms q f.srcIPHasCap then (.accept, "ok", f)
    else (.noVerdict, "no rules matched", f)
  else if q.ipProto = .tsmp then (.accept, "tsmp ok", f)
  else if matchProtoAndIPsOnlyIfAllPorts ms q then (.accept, "other-portless ok", f)
  else (.noVerdict, unknownProtoString q.ipProto, f)

def runIn4 (f : Filter) (q : Parsed) : Response × String × Filter :=
  runInFamily .icmpv4 f.local4 f.matches4 f q

def runIn6 (f : Filter) (q : Parsed) : Response × String × Filter :=
  runInFamily .icmpv6 f.local6 f.matches6 f q

def runInVersion (f : Filter) (q : Parsed) : Response × String × Filter :=
  if q.ipVersion = 4 then f.runIn4 q
  else if q.ipVersion = 6 then f.runIn6 q
  else (.drop, "not-ip", f)

def runIn (f : Filter) (q : Parsed) : Response × Filter :=
  let r := (f.pre q).1
  if r = .accept ∨ r = .drop then (r, f)
  else
    let (r, _, f) := f.runInVersion q
    if r = .noVerdict then
      if f.ingressAllowHooks.any (· q) then (.accept, f) else (.drop, f)
    else (r, f)

def runOutFlow (f : Filter) (q : Parsed) : Response × String × Filter :=
  if q.ipProto = .udp ∨ q.ipProto = .sctp then
    -- Source and destination are reversed.
    let tuple := makeTuple q.ipProto q.dst q.src
    (.accept, "ok out", { f with state := f.state.add tuple () })
  else (.accept, "ok out", f)

def runOut (f : Filter) (q : Parsed) : Response × Option DropReason × Filter :=
  let (r, reason) := f.pre q
  if r = .accept ∨ r = .drop then (r, reason, f)
  else
    let (r, _, f) := f.runOutFlow q
    (r, none, f)

end Filter

end ScaleTail.Net
