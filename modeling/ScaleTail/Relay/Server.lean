import ScaleTail.Relay.Message

/-! # The UDP relay server -/

namespace ScaleTail.Relay
open Lib Go Net

abbrev Time := Int64

def second : Int64 := 1000000000

structure SortedPairOfDiscoPublic where
  fst : DiscoPublic
  snd : DiscoPublic
  sorted : fst ≤ snd
  deriving DecidableEq

def SortedPairOfDiscoPublic.get (p : SortedPairOfDiscoPublic) (i : Fin 2) : DiscoPublic :=
  if i = 0 then p.fst else p.snd

variable {a b : DiscoPublic}

theorem sorted_of_lt (less : a < b) : a ≤ b := BitVec.le_of_lt less

theorem sorted_of_not_lt (not_less : ¬ a < b) : b ≤ a := BitVec.not_lt.1 not_less

def newSortedPairOfDiscoPublic (a b : DiscoPublic) : SortedPairOfDiscoPublic :=
  if less : a < b then ⟨a, b, sorted_of_lt less⟩ else ⟨b, a, sorted_of_not_lt less⟩

/-- The functions of `blake2s` and of the boxes between the server and its clients. -/
class Crypto where
  mac : Bytes → Bytes → Bytes
  openBox : DiscoPublic → Bytes → Option Bytes

variable [Crypto]

structure ServerEndpoint where
  discoPubKeys : SortedPairOfDiscoPublic
  lamportID : UInt64
  vni : UInt32
  allocatedAt : Time
  closed : Bool
  inProgressGeneration : Fin 2 → UInt32
  boundAddrPorts : Fin 2 → Option AddrPort
  lastSeen : Fin 2 → Time
  packetsRx : Fin 2 → UInt64
  bytesRx : Fin 2 → UInt64

structure Challenge where
  dst : AddrPort
  index : Fin 2
  vni : UInt32
  generation : UInt32
  remoteKey : DiscoPublic
  secret : Bytes
  deriving DecidableEq

namespace Challenge

variable (c : Challenge)

def common : BindCommon :=
  let m : BindCommon := ⟨c.vni, c.generation, c.remoteKey, []⟩
  { m with challenge := Crypto.mac c.secret (bindInput c.dst m) }

end Challenge

inductive Effect
  | drop
  | challenge (c : Challenge)
  | bind (index : Fin 2) (generation : UInt32)
  | forward (dst : AddrPort)
  deriving DecidableEq

namespace ServerEndpoint

variable (e : ServerEndpoint)

def otherSender (i : Fin 2) : Fin 2 := if i = 0 then 1 else 0

def isBoundLocked : Bool := (e.boundAddrPorts 0).isSome && (e.boundAddrPorts 1).isSome

def validVNIAndRemoteKey (senderIndex : Fin 2) (m : BindCommon) : Bool :=
  m.vni = e.vni && m.remoteKey = e.discoPubKeys.get (otherSender senderIndex)

def handleBind (src : AddrPort) (i : Fin 2) (m : BindCommon) (macSecrets : List Bytes) :
    ServerEndpoint × Effect :=
  if e.validVNIAndRemoteKey i m = false ∨ m.generation = 0 then (e, .drop)
  else
    ({ e with inProgressGeneration := Function.update e.inProgressGeneration i m.generation },
      .challenge ⟨src, i, e.vni, m.generation, e.discoPubKeys.get (otherSender i),
        macSecrets.getD 0 []⟩)

def handleAnswer (src : AddrPort) (i : Fin 2) (m : BindCommon) (macSecrets : List Bytes) (now : Time) :
    ServerEndpoint × Effect :=
  let generation := e.inProgressGeneration i
  if e.validVNIAndRemoteKey i m = false ∨ generation = 0 ∨ generation ≠ m.generation then (e, .drop)
  else if ∃ macSecret ∈ macSecrets, Crypto.mac macSecret (bindInput src m) = m.challenge then
    ({ e with
        boundAddrPorts := Function.update e.boundAddrPorts i (some src)
        lastSeen := Function.update e.lastSeen i now
        inProgressGeneration := Function.update e.inProgressGeneration i 0 },
      .bind i generation)
  else (e, .drop)

def handleDiscoControlMsg (src : AddrPort) (senderIndex : Fin 2) (discoMsg : Message)
    (macSecrets : List Bytes) (now : Time) : ServerEndpoint × Effect :=
  if e.closed then (e, .drop)
  else
    match discoMsg with
    | .bind m => e.handleBind src senderIndex m macSecrets
    | .answer m => e.handleAnswer src senderIndex m macSecrets now
    | _ => (e, .drop)

def senderIndex (sender : DiscoPublic) : Option (Fin 2) :=
  if sender = e.discoPubKeys.get 0 then some 0
  else if sender = e.discoPubKeys.get 1 then some 1
  else none

def openDisco (b : Bytes) : Option (Fin 2 × Message) := do
  let sender ← source b
  let i ← e.senderIndex sender
  let payload ← Crypto.openBox (e.discoPubKeys.get i) (b.drop (magic.length + 32))
  return (i, ← Message.parse payload)

def handleSealedDiscoControlMsg (src : AddrPort) (b : Bytes) (macSecrets : List Bytes) (now : Time) :
    ServerEndpoint × Effect :=
  match e.openDisco b with
  | none => (e, .drop)
  | some (i, discoMsg) => e.handleDiscoControlMsg src i discoMsg macSecrets now

def seen (i : Fin 2) (b : Bytes) (now : Time) : ServerEndpoint :=
  { e with
    lastSeen := Function.update e.lastSeen i now
    packetsRx := Function.update e.packetsRx i (e.packetsRx i + 1)
    bytesRx := Function.update e.bytesRx i (e.bytesRx i + UInt64.ofNat b.length) }

def handleDataPacket (src : AddrPort) (b : Bytes) (now : Time) : ServerEndpoint × Effect :=
  if e.closed then (e, .drop)
  else
    match e.boundAddrPorts 0, e.boundAddrPorts 1 with
    | some a₀, some a₁ =>
      if src = a₀ then (e.seen 0 b now, .forward a₁)
      else if src = a₁ then (e.seen 1 b now, .forward a₀)
      else (e, .drop)
    | _, _ => (e, .drop)

def isExpiredLocked (now : Time) (bindLifetime steadyStateLifetime : Int64) : Bool :=
  if e.isBoundLocked then
    now - e.lastSeen 0 > steadyStateLifetime || now - e.lastSeen 1 > steadyStateLifetime
  else now - e.allocatedAt > bindLifetime

end ServerEndpoint

structure Packet where
  src : AddrPort
  b : Bytes
  control : Bool
  endpoint : Nat
  macSecrets : List Bytes
  now : Time

inductive Event
  | rotated (secret : Bytes)
  | challenged (endpoint : Nat) (c : Challenge)
  | bound (endpoint : Nat) (index : Fin 2) (addr : AddrPort) (generation : UInt32)
      (macSecrets : List Bytes)
  | forwarded (endpoint : Nat) (src dst : AddrPort)
  deriving DecidableEq

def Effect.events (p : Packet) : Effect → List Event
  | .drop => []
  | .challenge c => [.challenged p.endpoint c]
  | .bind i generation => [.bound p.endpoint i p.src generation p.macSecrets]
  | .forward dst => [.forwarded p.endpoint p.src dst]

structure Server where
  discoPublic : DiscoPublic
  bindLifetime : Int64
  steadyStateLifetime : Int64
  macSecrets : List Bytes
  macSecretRotatedAt : Time
  staticAddrPorts : List AddrPort
  dynamicAddrPorts : List AddrPort
  closed : Bool
  lamportID : UInt64
  nextVNI : UInt32
  endpoints : List ServerEndpoint
  serverEndpointByVNI : AList fun _ : UInt32 => Nat
  serverEndpointByDisco : AList fun _ : SortedPairOfDiscoPublic => Nat
  packets : List Packet
  events : List Event

def minVNI : UInt32 := 1
def maxVNI : UInt32 := UInt32.ofNat (2 ^ 24 - 1)
def totalPossibleVNI : Nat := (maxVNI - minVNI + 1).toNat

inductive Err
  | serverClosed
  | serverNotReady (retryAfter : Int64)
  | clientIsServer (server : DiscoPublic)
  | vniPoolExhausted
  deriving DecidableEq

structure Allocation where
  serverDisco : DiscoPublic
  clientDisco : SortedPairOfDiscoPublic
  addrPorts : List AddrPort
  vni : UInt32
  lamportID : UInt64
  bindLifetime : Int64
  steadyStateLifetime : Int64

namespace Server

variable (s : Server)

def advanceVNI (vni : UInt32) : UInt32 := if vni = maxVNI then minVNI else vni + 1

def nextVNILoop : Nat → UInt32 → Option UInt32 × UInt32
  | 0, nextVNI => (none, nextVNI)
  | rounds + 1, nextVNI =>
    if (s.serverEndpointByVNI.lookup nextVNI).isNone then (some nextVNI, advanceVNI nextVNI)
    else nextVNILoop rounds (advanceVNI nextVNI)

def getNextVNILocked : Option UInt32 × UInt32 := s.nextVNILoop totalPossibleVNI s.nextVNI

def allocation (e : ServerEndpoint) : Allocation where
  serverDisco := s.discoPublic
  clientDisco := e.discoPubKeys
  addrPorts := s.staticAddrPorts ++ s.dynamicAddrPorts
  vni := e.vni
  lamportID := e.lamportID
  bindLifetime := s.bindLifetime
  steadyStateLifetime := s.steadyStateLifetime

def insertEndpoint (pair : SortedPairOfDiscoPublic) (vni nextVNI : UInt32) (now : Time) :
    ServerEndpoint × Server :=
  let e : ServerEndpoint :=
    { discoPubKeys := pair
      lamportID := s.lamportID + 1
      vni
      allocatedAt := now
      closed := false
      inProgressGeneration := fun _ => 0
      boundAddrPorts := fun _ => none
      lastSeen := fun _ => 0
      packetsRx := fun _ => 0
      bytesRx := fun _ => 0 }
  (e, { s with
    nextVNI
    lamportID := s.lamportID + 1
    endpoints := s.endpoints ++ [e]
    serverEndpointByDisco := s.serverEndpointByDisco.insert pair s.endpoints.length
    serverEndpointByVNI := s.serverEndpointByVNI.insert vni s.endpoints.length })

def allocateEndpoint (discoA discoB : DiscoPublic) (now : Time) : Except Err Allocation × Server :=
  if s.closed then (.error .serverClosed, s)
  else if s.staticAddrPorts.length = 0 ∧ s.dynamicAddrPorts.length = 0 then
    (.error (.serverNotReady (3 * second)), s)
  else if discoA = s.discoPublic ∨ discoB = s.discoPublic then
    (.error (.clientIsServer s.discoPublic), s)
  else
    let pair := newSortedPairOfDiscoPublic discoA discoB
    match (s.serverEndpointByDisco.lookup pair).bind (s.endpoints[·]?) with
    | some e => (.ok (s.allocation e), s)
    | none =>
      match s.getNextVNILocked with
      | (none, nextVNI) => (.error .vniPoolExhausted, { s with nextVNI })
      | (some vni, nextVNI) =>
        let (e, s) := s.insertEndpoint pair vni nextVNI now
        (.ok (s.allocation e), s)

def expireOne (now : Time) (k : SortedPairOfDiscoPublic) (v : Nat) : Server :=
  match s.endpoints[v]? with
  | none => s
  | some e =>
    if e.isExpiredLocked now s.bindLifetime s.steadyStateLifetime then
      { s with
        endpoints := s.endpoints.modify v ({ · with closed := true })
        serverEndpointByDisco := s.serverEndpointByDisco.erase k
        serverEndpointByVNI := s.serverEndpointByVNI.erase e.vni }
    else s

def endpointGC (now : Time) : Server :=
  s.serverEndpointByDisco.entries.foldl (fun s entry => s.expireOne now entry.1 entry.2) s

def close : Server :=
  if s.closed then s
  else
    { s with
      serverEndpointByVNI := ∅
      serverEndpointByDisco := ∅
      closed := true }

def macSecretRotationInterval : Int64 := 120 * second

def maybeRotateMACSecretLocked (now : Time) (fresh : Bytes) : Server :=
  if s.macSecretRotatedAt ≠ 0 ∧ now - s.macSecretRotatedAt < macSecretRotationInterval then s
  else
    { s with
      macSecrets := fresh :: s.macSecrets.take 1
      macSecretRotatedAt := now
      events := s.events ++ [.rotated fresh] }

def receive (src : AddrPort) (b : Bytes) (now : Time) (fresh : Bytes) : Server :=
  if isStunBinding b then s
  else
    match GeneveHeader.decode b with
    | none => s
    | some gh =>
      match s.serverEndpointByVNI.lookup gh.vni with
      | none => s
      | some endpoint =>
        if gh.control then
          if gh.protocol ≠ geneveProtocolDisco then s
          else
            let s := s.maybeRotateMACSecretLocked now fresh
            { s with packets := s.packets ++ [⟨src, b, true, endpoint, s.macSecrets, now⟩] }
        else { s with packets := s.packets ++ [⟨src, b, false, endpoint, [], now⟩] }

def packetEffect (p : Packet) (e : ServerEndpoint) : ServerEndpoint × Effect :=
  if p.control then
    e.handleSealedDiscoControlMsg p.src (p.b.drop geneveFixedHeaderLength) p.macSecrets p.now
  else e.handleDataPacket p.src p.b p.now

def handle (p : Packet) : Server :=
  match s.endpoints[p.endpoint]? with
  | none => s
  | some e =>
    let (e, effect) := packetEffect p e
    { s with
      endpoints := s.endpoints.set p.endpoint e
      events := s.events ++ effect.events p }

end Server

inductive Op
  | allocateEndpoint (discoA discoB : DiscoPublic) (now : Time)
  | endpointGC (now : Time)
  | close
  | setAddrPorts (static dynamic : List AddrPort)
  | receive (src : AddrPort) (b : Bytes) (now : Time) (fresh : Bytes)
  | handle (j : Nat)

def Server.step (s : Server) : Op → Option Server
  | .allocateEndpoint discoA discoB now => some (s.allocateEndpoint discoA discoB now).2
  | .endpointGC now => some (s.endpointGC now)
  | .close => some s.close
  | .setAddrPorts static dynamic =>
    some { s with staticAddrPorts := static, dynamicAddrPorts := dynamic }
  | .receive src b now fresh => some (s.receive src b now fresh)
  | .handle j =>
    s.packets[j]?.map fun p => { s with packets := s.packets.eraseIdx j }.handle p

def newServer (discoPublic : DiscoPublic) : Server where
  discoPublic
  bindLifetime := 30 * second
  steadyStateLifetime := 300 * second
  macSecrets := []
  macSecretRotatedAt := 0
  staticAddrPorts := []
  dynamicAddrPorts := []
  closed := false
  lamportID := 0
  nextVNI := minVNI
  endpoints := []
  serverEndpointByVNI := ∅
  serverEndpointByDisco := ∅
  packets := []
  events := []

end ScaleTail.Relay
