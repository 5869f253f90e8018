import ScaleTail.Derp.Forwarders
import ScaleTail.Relay.Message

/-!
# A DERP server

The connections of a server with their goroutines, the watchers of the region, and the mesh peers
that follow the server with `RunWatchConnectionLoop`.
-/

namespace ScaleTail.Derp
open Go Net

structure PeerConnState where
  peer : NodePublic
  present : Bool
  ipPort : Option AddrPort
  flags : UInt8
  deriving DecidableEq

inductive PeerGoneReason
  | disconnected
  | notHere
  deriving DecidableEq

structure PeerGoneMsg where
  peer : NodePublic
  reason : PeerGoneReason
  deriving DecidableEq

structure PeerPresentMessage where
  key : NodePublic
  ip : Addr
  port : UInt16
  flags : UInt8
  deriving DecidableEq

structure Pkt where
  bs : Bytes
  src : NodePublic
  deriving DecidableEq

inductive Frame
  | peerGone (m : PeerGoneMsg)
  | peerPresent (peer : NodePublic) (ip : BitVec 128) (port : UInt16) (flags : UInt8)
  | recvPacket (src : Option NodePublic) (contents : Bytes)
  | pong (data : Bytes)
  | keepAlive
  deriving DecidableEq

def PeerConnState.frame (pcs : PeerConnState) : Frame :=
  if pcs.present then
    .peerPresent pcs.peer ((pcs.ipPort.map (·.addr.as16)).getD 0) ((pcs.ipPort.map (·.port)).getD 0)
      pcs.flags
  else .peerGone ⟨pcs.peer, .disconnected⟩

def looksLikeDiscoWrapper (p : Bytes) : Bool :=
  Relay.magic.length + 32 + 24 ≤ p.length && p.take Relay.magic.length = Relay.magic

inductive Callback
  | add (m : PeerPresentMessage)
  | remove (m : PeerGoneMsg)
  deriving DecidableEq

structure WatchLoop where
  present : List NodePublic
  calls : List Callback

def WatchLoop.recv (l : WatchLoop) : Frame → WatchLoop
  | .peerPresent peer ip port flags =>
    { present := l.present.insert peer
      calls := l.calls ++ [.add ⟨peer, (Addr.v6 ip).unmap, port, flags⟩] }
  | .peerGone m =>
    { present := l.present.filter (· ≠ m.peer)
      calls := l.calls ++ [.remove m] }
  | _ => l

inductive RunPC
  | accepted
  | running
  | noting
  | gone
  deriving DecidableEq

inductive LoopPC
  | idle
  | select
  | writing (p : Pkt)
  | updating (batch : List PeerConnState)
  | cleaning (rest : List (Sigma fun _ : NodePublic => Nat))
  | done

structure Conn where
  run : RunPC
  loop : LoopPC
  peerStateChange : List PeerConnState
  meshRequests : Nat
  meshUpdate : Bool
  requests : List PeerGoneMsg
  sendQueue : List Pkt
  discoSendQueue : List Pkt
  sendPongCh : Option Bytes
  sawSrc : AList fun _ : NodePublic => Nat
  unread : List Frame
  client : WatchLoop

def Conn.new : Conn where
  run := .accepted
  loop := .idle
  peerStateChange := []
  meshRequests := 0
  meshUpdate := false
  requests := []
  sendQueue := []
  discoSendQueue := []
  sendPongCh := none
  sawSrc := ∅
  unread := []
  client := ⟨[], []⟩

inductive Event (φ : Type)
  | registered (c : SClient)
  | unregistered (c : SClient)
  | sent (c : SClient)
  | gone (key : NodePublic)
  | notified (c : SClient) (key : NodePublic)
  | noted (c : SClient) (src : NodePublic)
  | wrote (c : SClient) (frame : Frame)
  | forwarded (fwd : φ) (src dst : NodePublic) (contents : Bytes)
  deriving DecidableEq

inductive Panic
  | usage
  | unexpected
  deriving DecidableEq

structure Server (φ : Type) where
  publicKey : NodePublic
  perClientSendQueueDepth : Nat
  reg : Registry
  clientsMesh : ClientsMesh φ
  watchers : List SClient
  peerGoneWatchers : AList fun _ : NodePublic => List (Nat × SClient)
  nextHandle : Nat
  conns : SClient → Conn
  registered : List SClient
  panics : List Panic
  events : List (Event φ)

namespace Server

variable {φ : Type} [DecidableEq φ] (s : Server φ)

def updateConn (c : SClient) (f : Conn → Conn) : Server φ :=
  { s with conns := Function.update s.conns c (f (s.conns c)) }

def record (e : Event φ) : Server φ := { s with events := s.events ++ [e] }

def broadcastPeerStateChangeLocked (pcs : PeerConnState) : Server φ :=
  { s with
    conns := fun w =>
      if w ∈ s.watchers then
        { s.conns w with
          peerStateChange := (s.conns w).peerStateChange ++ [pcs]
          meshRequests := (s.conns w).meshRequests + 1 }
      else s.conns w }

def notify (key : NodePublic) (watchers : List (Nat × SClient)) : Server φ :=
  watchers.foldl (fun s w =>
    (s.updateConn w.2 fun c => { c with requests := c.requests ++ [⟨key, .disconnected⟩] }).record
      (.notified w.2 key)) s

def notePeerGoneFromRegionLocked (key : NodePublic) : Server φ :=
  if key ∈ s.clientsMesh then { s with panics := s.panics ++ [.usage] }
  else
    let s := (s.record (.gone key)).notify key ((s.peerGoneWatchers.lookup key).getD [])
    { s with peerGoneWatchers := s.peerGoneWatchers.erase key }

def registerClient (c : SClient) : Server φ :=
  let s := { s with reg := s.reg.registerClient c }
  let s := if c.key ∈ s.clientsMesh then s
    else { s with clientsMesh := s.clientsMesh.insert c.key none }
  s.broadcastPeerStateChangeLocked ⟨c.key, true, c.remoteIPPort, c.presentFlags⟩

def lastGone (key : NodePublic) : Server φ :=
  let s :=
    match s.clientsMesh.lookup key with
    | some none =>
      { s with clientsMesh := s.clientsMesh.erase key }.notePeerGoneFromRegionLocked key
    | _ => s
  s.broadcastPeerStateChangeLocked ⟨key, false, none, 0⟩

def unregisterClient (c : SClient) : Server φ :=
  let (reg, leaving) := s.reg.unregisterClient c
  let s := { s with reg }
  match leaving with
  | .returned => s
  | .last =>
    let s := s.lastGone c.key
    if c.canMesh then { s with watchers := s.watchers.erase c } else s
  | .dup => if c.canMesh then { s with watchers := s.watchers.erase c } else s

def addPacketForwarder (dst : NodePublic) (fwd : φ) : Server φ :=
  { s with clientsMesh := s.clientsMesh.addPacketForwarder dst fwd }

def removePacketForwarder (dst : NodePublic) (fwd : φ) (order : List φ) : Server φ :=
  let (clientsMesh, removal) :=
    s.clientsMesh.removePacketForwarder dst fwd (dst ∈ s.reg.clients) order
  let s := { s with clientsMesh }
  match removal with
  | .kept => s
  | .gone => s.notePeerGoneFromRegionLocked dst
  | .panicked => { s with panics := s.panics ++ [.unexpected] }

def addWatcher (c : SClient) : Server φ :=
  if c.key = s.publicKey then s
  else
    let changes := s.reg.clients.entries.filterMap fun e => e.2.activeClient.map fun ac =>
      (⟨e.1, true, ac.remoteIPPort, ac.presentFlags⟩ : PeerConnState)
    let s := s.updateConn c fun conn =>
      { conn with
        peerStateChange := conn.peerStateChange ++ changes
        meshRequests := conn.meshRequests + 1 }
    { s with watchers := s.watchers.insert c }

def enqueue (depth : Nat) (p : Pkt) : Nat → List Pkt → List Pkt
  | 0, queue => queue
  | attempts + 1, queue =>
    if queue.length < depth then queue ++ [p] else enqueue depth p attempts queue.tail

def sendPkt (dst : SClient) (p : Pkt) : Server φ :=
  if (s.conns dst).run = .gone then s
  else if looksLikeDiscoWrapper p.bs then
    s.updateConn dst fun c =>
      { c with discoSendQueue := enqueue s.perClientSendQueueDepth p 3 c.discoSendQueue }
  else
    s.updateConn dst fun c =>
      { c with sendQueue := enqueue s.perClientSendQueueDepth p 3 c.sendQueue }

def requestPeerGoneWriteLimited (c : SClient) (peer : NodePublic) (contents : Bytes) (allow : Bool) :
    Server φ :=
  if looksLikeDiscoWrapper contents && allow then
    s.updateConn c fun conn => { conn with requests := conn.requests ++ [⟨peer, .notHere⟩] }
  else s

def lookupDst (dst : NodePublic) : Option SClient × Nat :=
  match s.reg.clients.lookup dst with
  | none => (none, 0)
  | some set => (set.activeClient, set.len)

def undelivered (c : SClient) (dst : NodePublic) (contents : Bytes) (allow : Bool) (dstLen : Nat) :
    Server φ :=
  if dstLen > 1 then s else s.requestPeerGoneWriteLimited c dst contents allow

def handleFrameForwardPacket (c : SClient) (src dst : NodePublic) (contents : Bytes) (allow : Bool) :
    Server φ :=
  match s.lookupDst dst with
  | (some dst, _) => s.sendPkt dst ⟨contents, src⟩
  | (none, dstLen) => s.undelivered c dst contents allow dstLen

def handleFrameSendPacket (c : SClient) (dst : NodePublic) (contents : Bytes) (allow : Bool) :
    Server φ :=
  match s.lookupDst dst with
  | (some dst, _) => s.sendPkt dst ⟨contents, c.key⟩
  | (none, dstLen) =>
    match if dstLen < 1 then s.clientsMesh.lookup dst else none with
    | some (some fwd) => s.record (.forwarded fwd.preferred c.key dst contents)
    | _ => s.undelivered c dst contents allow dstLen

def write (c : SClient) (frame : Frame) (next : LoopPC) : Server φ :=
  (s.updateConn c fun conn => { conn with unread := conn.unread ++ [frame], loop := next }).record
    (.wrote c frame)

def addPeerGoneFromRegionWatcher (peer : NodePublic) (c : SClient) : Server φ :=
  { s with
    peerGoneWatchers := s.peerGoneWatchers.insert peer
      ((s.peerGoneWatchers.lookup peer).getD [] ++ [(s.nextHandle, c)])
    nextHandle := s.nextHandle + 1 }

def removePeerGoneFromRegionWatcher (peer : NodePublic) (h : Nat) : Server φ :=
  match s.peerGoneWatchers.lookup peer with
  | none => s
  | some hset =>
    let hset := hset.filter (·.1 ≠ h)
    { s with
      peerGoneWatchers :=
        if hset.length = 0 then s.peerGoneWatchers.erase peer
        else s.peerGoneWatchers.insert peer hset }

def noteSendFromSrc (c : SClient) (src : NodePublic) : Server φ :=
  if src ∈ (s.conns c).sawSrc then s
  else
    (s.addPeerGoneFromRegionWatcher src c).updateConn c fun conn =>
      { conn with sawSrc := conn.sawSrc.insert src s.nextHandle }

def sendPacket (c : SClient) (p : Pkt) : Server φ :=
  let s := if p.src = 0 then s else (s.noteSendFromSrc c p.src).record (.noted c p.src)
  s.updateConn c fun conn => { conn with loop := .writing p }

inductive Choice
  | peerGone (j : Nat)
  | meshUpdate
  | sendQueue
  | discoSendQueue
  | sendPongCh
  | keepAlive
  deriving DecidableEq

def selectStep (c : SClient) (conn : Conn) : Choice → Option (Server φ)
  | .peerGone j => do
      let m ← conn.requests[j]?
      return (s.updateConn c fun conn => { conn with requests := conn.requests.eraseIdx j }).write c
        (.peerGone m) .select
  | .meshUpdate =>
    if conn.meshUpdate then
      some (s.updateConn c fun conn => { conn with meshUpdate := false, loop := .updating [] })
    else none
  | .sendQueue => do
      let p ← conn.sendQueue.head?
      return (s.updateConn c fun conn => { conn with sendQueue := conn.sendQueue.tail }).sendPacket c p
  | .discoSendQueue => do
      let p ← conn.discoSendQueue.head?
      return (s.updateConn c fun conn =>
        { conn with discoSendQueue := conn.discoSendQueue.tail }).sendPacket c p
  | .sendPongCh => do
      let data ← conn.sendPongCh
      return (s.updateConn c fun conn => { conn with sendPongCh := none }).write c (.pong data) .select
  | .keepAlive => some (s.write c .keepAlive .select)

def advance (c : SClient) (conn : Conn) : Option (Server φ) :=
  match conn.loop with
  | .writing p => some (s.write c (.recvPacket (if p.src = 0 then none else some p.src) p.bs) .select)
  | .updating [] =>
    match conn.peerStateChange with
    | [] => some (s.updateConn c fun conn => { conn with loop := .select })
    | batch => some (s.updateConn c fun conn =>
      { conn with loop := .updating batch, peerStateChange := [] })
  | .updating (pcs :: batch) => some (s.write c pcs.frame (.updating batch))
  | .cleaning [] => some (s.updateConn c fun conn =>
    { conn with loop := .done, sendQueue := [], discoSendQueue := [] })
  | .cleaning (e :: rest) =>
    some ((s.removePeerGoneFromRegionWatcher e.1 e.2).updateConn c fun conn =>
      { conn with loop := .cleaning rest })
  | _ => none

def stopLoop (c : SClient) (conn : Conn) : Option (Server φ) :=
  match conn.loop with
  | .select | .writing _ | .updating _ =>
    some (s.updateConn c fun conn => { conn with loop := .cleaning conn.sawSrc.entries })
  | _ => none

end Server

inductive Op (φ : Type)
  | registerClient (c : SClient)
  | start (c : SClient)
  | noteClientActivity (c : SClient)
  | noteClientActivityLocked (c : SClient)
  | unregisterClient (c : SClient)
  | addPacketForwarder (dst : NodePublic) (fwd : φ)
  | removePacketForwarder (dst : NodePublic) (fwd : φ) (order : List φ)
  | watchConns (c : SClient)
  | sendPacket (c : SClient) (dst : NodePublic) (contents : Bytes) (allow : Bool)
  | forwardPacket (c : SClient) (src dst : NodePublic) (contents : Bytes) (allow : Bool)
  | ping (c : SClient) (data : Bytes)
  | requestMeshUpdate (c : SClient)
  | select (c : SClient) (choice : Server.Choice)
  | advance (c : SClient)
  | stopLoop (c : SClient)
  | recv (c : SClient)

namespace Server

variable {φ : Type} [DecidableEq φ]

def reading (s : Server φ) (c : SClient) : Bool := (s.conns c).run = .running

def step (s : Server φ) : Op φ → Option (Server φ)
  | .registerClient c =>
    if (s.conns c).run = .accepted then
      some (({ s.registerClient c with registered := s.registered ++ [c] }.updateConn c
        fun conn => { conn with run := .running }).record (.registered c))
    else none
  | .start c =>
    match (s.conns c).run, (s.conns c).loop with
    | .running, .idle => some (s.updateConn c fun conn => { conn with loop := .select })
    | _, _ => none
  | .noteClientActivity c =>
    if s.reading c then
      some (if s.reg.mayNote c then s.updateConn c fun conn => { conn with run := .noting } else s)
    else none
  | .noteClientActivityLocked c =>
    if (s.conns c).run = .noting then
      let s' := { s with reg := s.reg.noteClientActivity c }.updateConn c
        fun conn => { conn with run := .running }
      some (if (s.reg.inDup c).isSome then s'.record (.sent c) else s')
    else none
  | .unregisterClient c =>
    match (s.conns c).run, (s.conns c).loop with
    | .running, .idle | .running, .done =>
      some (({ s.unregisterClient c with registered := s.registered.erase c }.updateConn c
        fun conn => { conn with run := .gone, requests := [] }).record (.unregistered c))
    | _, _ => none
  | .addPacketForwarder dst fwd => some (s.addPacketForwarder dst fwd)
  | .removePacketForwarder dst fwd order =>
    if s.clientsMesh.isIteration dst fwd order then some (s.removePacketForwarder dst fwd order)
    else none
  | .watchConns c => if s.reading c && c.canMesh then some (s.addWatcher c) else none
  | .sendPacket c dst contents allow =>
    if s.reading c then some (s.handleFrameSendPacket c dst contents allow) else none
  | .forwardPacket c src dst contents allow =>
    if s.reading c && c.canMesh then some (s.handleFrameForwardPacket c src dst contents allow)
    else none
  | .ping c data =>
    if s.reading c then
      some (s.updateConn c fun conn => { conn with sendPongCh := conn.sendPongCh.or (some data) })
    else none
  | .requestMeshUpdate c =>
    if 0 < (s.conns c).meshRequests then
      some (s.updateConn c fun conn =>
        { conn with meshRequests := conn.meshRequests - 1, meshUpdate := true })
    else none
  | .select c choice =>
    match (s.conns c).loop with
    | .select => s.selectStep c (s.conns c) choice
    | _ => none
  | .advance c => s.advance c (s.conns c)
  | .stopLoop c => s.stopLoop c (s.conns c)
  | .recv c =>
    match (s.conns c).unread with
    | [] => none
    | frame :: rest => some (s.updateConn c fun conn =>
      { conn with unread := rest, client := conn.client.recv frame })

def new (publicKey : NodePublic) (perClientSendQueueDepth : Nat) : Server φ where
  publicKey
  perClientSendQueueDepth
  reg :=
    { dupPolicy := .lastWriterIsActive
      clients := ∅
      isDup := fun _ => false
      isDisabled := fun _ => false
      curClients := 0
      dupClientKeys := 0
      dupClientConns := 0
      unexpected := [] }
  clientsMesh := ∅
  watchers := []
  peerGoneWatchers := ∅
  nextHandle := 0
  conns := fun _ => .new
  registered := []
  panics := []
  events := []

end Server

end ScaleTail.Derp
