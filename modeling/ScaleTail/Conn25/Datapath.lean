import ScaleTail.Conn25.Connector
import ScaleTail.Net.Filter

/-!
# The datapath

A client rewrites the packets of its applications from magic to transit addresses, and a connector
those from transit to real addresses.
-/

namespace ScaleTail.Conn25
open Go Net Flowtrack

/-- What the datapath reads and writes of a packet. Its version is that of its addresses. -/
structure Packet where
  ipProto : Proto
  src : AddrPort
  dst : AddrPort
  payload : Bytes
  family : src.addr.is4 = dst.addr.is4
  deriving DecidableEq

namespace Packet

def tuple (p : Packet) : Tuple := makeTuple p.ipProto p.src p.dst

/-- `UpdateSrcAddr` panics if the address is of another family than the packet. -/
def updateSrcAddr (p : Packet) (src : Addr) : Option Packet :=
  if family : src.is4 = p.dst.addr.is4 then some { p with src := ⟨src, p.src.port⟩, family } else none

def updateDstAddr (p : Packet) (dst : Addr) : Option Packet :=
  if family : p.src.addr.is4 = dst.is4 then some { p with dst := ⟨dst, p.dst.port⟩, family } else none

end Packet

inductive PacketAction
  | dnat (to_ : Addr)
  | snat (to_ : Addr)
  deriving DecidableEq

def PacketAction.run : PacketAction → Packet → Option Packet
  | dnat to_, p => p.updateDstAddr to_
  | snat to_, p => p.updateSrcAddr to_

structure FlowData where
  tuple : Tuple
  action : PacketAction
  deriving DecidableEq

inductive Origin
  | fromTun
  | fromWireGuard
  deriving DecidableEq

def Origin.other : Origin → Origin
  | fromTun => fromWireGuard
  | fromWireGuard => fromTun

structure CachedFlow where
  flow : FlowData
  paired : Tuple
  deriving DecidableEq

structure FlowTable where
  fromTunCache : Cache CachedFlow
  fromWGCache : Cache CachedFlow

namespace FlowTable

def newFlowTable (maxEntries : Nat) : FlowTable := ⟨⟨maxEntries, []⟩, ⟨maxEntries, []⟩⟩

def cache (t : FlowTable) : Origin → Cache CachedFlow
  | .fromTun => t.fromTunCache
  | .fromWireGuard => t.fromWGCache

def setCache (t : FlowTable) (c : Cache CachedFlow) : Origin → FlowTable
  | .fromTun => { t with fromTunCache := c }
  | .fromWireGuard => { t with fromWGCache := c }

def lookup (t : FlowTable) (k : Tuple) (want : Origin) : Option FlowData × FlowTable :=
  let (v, cache) := (t.cache want).get k
  (v.map (·.flow), t.setCache cache want)

def newFlow (t : FlowTable) (fwdOrigin : Origin) (fwd rev : FlowData) : FlowTable :=
  let (old, fwdCache) := (t.cache fwdOrigin).get fwd.tuple
  let revCache := old.elim (t.cache fwdOrigin.other) fun old => (t.cache fwdOrigin.other).remove old.paired
  let (old, revCache) := revCache.get rev.tuple
  let fwdCache := old.elim fwdCache fun old => fwdCache.remove old.paired
  (t.setCache (fwdCache.add fwd.tuple ⟨fwd, rev.tuple⟩) fwdOrigin).setCache
    (revCache.add rev.tuple ⟨rev, fwd.tuple⟩) fwdOrigin.other

end FlowTable

inductive MapError
  | unmappedMagicIP
  | unmappedSrcAndTransitIP
  deriving DecidableEq

structure IPMapper where
  clientTransitIPForMagicIP : Addr → Except MapError (Option Addr)
  connectorRealIPForTransitIPConnection : Addr → Addr → Except MapError (Option Addr)

def ipMapper (a : AddrAssignments) (now : Time) (c : Extension) : IPMapper where
  clientTransitIPForMagicIP m :=
    match a.lookupByMagicIP m now with
    | some v => .ok (some v.transit)
    | none =>
      if c.config.isConfigured ∧ (m ∈ c.config.ipSets.v4Magic ∨ m ∈ c.config.ipSets.v6Magic) then
        .error .unmappedMagicIP
      else .ok none
  connectorRealIPForTransitIPConnection src transit :=
    match c.connector.realIPForTransitIPConnection src (some transit) with
    | some addr => .ok addr
    | none =>
      if c.config.isConfigured ∧
          (transit ∈ c.config.ipSets.v4Transit ∨ transit ∈ c.config.ipSets.v6Transit) then
        .error .unmappedSrcAndTransitIP
      else .ok none

inductive Role
  | client
  | connector
  deriving DecidableEq

structure DatapathHandler where
  clientFlowTable : FlowTable
  connectorFlowTable : FlowTable

namespace DatapathHandler

def newDatapathHandler : DatapathHandler := ⟨.newFlowTable 0, .newFlowTable 0⟩

def table (dh : DatapathHandler) : Role → FlowTable
  | .client => dh.clientFlowTable
  | .connector => dh.connectorFlowTable

def setTable (dh : DatapathHandler) (t : FlowTable) : Role → DatapathHandler
  | .client => { dh with clientFlowTable := t }
  | .connector => { dh with connectorFlowTable := t }

def existing (dh : DatapathHandler) (origin : Origin) (k : Tuple) : Option FlowData × DatapathHandler :=
  match dh.clientFlowTable.lookup k origin with
  | (some flow, t) => (some flow, dh.setTable t .client)
  | (none, t) =>
    let (flow, u) := dh.connectorFlowTable.lookup k origin
    (flow, ⟨t, u⟩)

/-- A packet from one side of a node. One that belongs to no flow starts a flow in the table of this
role, if it has an address to be sent to. -/
def handlePacket (dh : DatapathHandler) (origin : Origin) (role : Role) (unmapped : MapError)
    (mapped : Except MapError (Option Addr)) (p : Packet) :
    Option ((Response × Packet) × DatapathHandler) :=
  if p.ipProto ≠ .tcp ∧ p.ipProto ≠ .udp then some ((.accept, p), dh)
  else
    match dh.existing origin p.tuple with
    | (some flow, dh) => (flow.action.run p).map fun p => ((.accept, p), dh)
    | (none, dh) =>
      match mapped with
      | .error e => some ((if e = unmapped then .drop else .accept, p), dh)
      | .ok none => some ((.accept, p), dh)
      | .ok (some ip) =>
        let outgoing : FlowData := ⟨p.tuple, .dnat ip⟩
        let incoming : FlowData := ⟨makeTuple p.ipProto ⟨ip, p.dst.port⟩ p.src, .snat p.dst.addr⟩
        let dh := dh.setTable ((dh.table role).newFlow origin outgoing incoming) role
        (outgoing.action.run p).map fun p => ((.accept, p), dh)

def handlePacketFromWireGuard (dh : DatapathHandler) (m : IPMapper) (p : Packet) :
    Option ((Response × Packet) × DatapathHandler) :=
  dh.handlePacket .fromWireGuard .connector .unmappedSrcAndTransitIP
    (m.connectorRealIPForTransitIPConnection p.src.addr p.dst.addr) p

def handlePacketFromTunDevice (dh : DatapathHandler) (m : IPMapper) (p : Packet) :
    Option ((Response × Packet) × DatapathHandler) :=
  dh.handlePacket .fromTun .client .unmappedMagicIP (m.clientTransitIPForMagicIP p.dst.addr) p

end DatapathHandler

def IPMapper.route (m : IPMapper) (role : Role) (p : Packet) : Option Addr :=
  if p.ipProto ≠ .tcp ∧ p.ipProto ≠ .udp then none
  else
    match role with
    | .client => (m.clientTransitIPForMagicIP p.dst.addr).toOption.join
    | .connector => (m.connectorRealIPForTransitIPConnection p.src.addr p.dst.addr).toOption.join

/-- The handlers of the two nodes. For each, the packets that it has translated on their way out are
recorded before and after. -/
structure Path where
  client : DatapathHandler
  connector : DatapathHandler
  sent : List (Packet × Packet)
  left : List (Packet × Packet)

inductive Hop
  | send (p : Packet)
  | forward (p : Packet)
  | reply (p : Packet)
  | deliver (p : Packet)

namespace Path

def new : Path := ⟨.newDatapathHandler, .newDatapathHandler, [], []⟩

variable (mc mk : IPMapper)

def step (s : Path) : Hop → Option Path
  | .send p =>
    (s.client.handlePacketFromTunDevice mc p).map fun ((_, q), client) =>
      { s with client, sent := if (mc.route .client p).isSome then s.sent ++ [(p, q)] else s.sent }
  | .forward p =>
    (s.connector.handlePacketFromWireGuard mk p).map fun ((_, q), connector) =>
      { s with connector, left := if (mk.route .connector p).isSome then s.left ++ [(p, q)] else s.left }
  | .reply p =>
    (s.connector.handlePacketFromTunDevice mk p).map fun (_, connector) => { s with connector }
  | .deliver p =>
    (s.client.handlePacketFromWireGuard mc p).map fun (_, client) => { s with client }

end Path

end ScaleTail.Conn25
