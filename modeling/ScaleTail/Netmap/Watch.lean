import ScaleTail.Netmap.Delta

/-! # What the watchers of the IPN bus are told about peers -/

namespace ScaleTail.Netmap

def PeerChange.note (pc : PeerChange) : Mutation → PeerChange
  | .online v => { pc with online := some v }
  | .lastSeen v => { pc with lastSeen := some v }
  | .derpHome v => { pc with derpRegion := v }
  | .endpoints v => { pc with endpoints := some v }

/-- One turn of the loop. The changes of `ordered` are those in `byID`. -/
def noteMutation (m : NodeMutation) : List PeerChange → List PeerChange
  | [] => [(PeerChange.zero m.nodeID).note m.mutation]
  | pc :: ordered =>
    if pc.nodeID = m.nodeID then pc.note m.mutation :: ordered else pc :: noteMutation m ordered

def ipnBusPeerChangesFromNodeMutations (muts : List NodeMutation) : List PeerChange :=
  muts.foldl (fun ordered m => noteMutation m ordered) []

def mutationsAreWorthyOfTellingIPNBus (muts : List NodeMutation) : Bool :=
  muts.any fun m =>
    match m.mutation with
    | .lastSeen _ | .online _ => true
    | _ => false

structure Notify where
  netMap : Option Peers
  peerChanges : Option (List PeerChange)

def Notify.sendTo (n : Notify) (notifyPeerChanges : Bool) : Notify :=
  if n.peerChanges.isNone then n
  else if notifyPeerChanges then { n with netMap := none } else { n with peerChanges := none }

/-- What the fields of a change are documented to mean: a zero region or an empty list of endpoints
is not a change. -/
def PeerChange.patch (pc : PeerChange) (n : Node) : Node :=
  { n with
    homeDERP := if pc.derpRegion = 0 then n.homeDERP else pc.derpRegion
    endpoints := (pc.endpoints.filter (· ≠ [])).or n.endpoints
    online := pc.online.or n.online
    lastSeen := pc.lastSeen.or n.lastSeen }

def Peers.change (p : Peers) (pc : PeerChange) : Peers :=
  (p.get pc.nodeID).elim p fun n => p.set (pc.patch n)

def Notify.fold (n : Notify) (known : Option Peers) : Option Peers :=
  (n.netMap.or known).map fun p => (n.peerChanges.getD []).foldl Peers.change p

/-- The backend, and what a watcher without and one with `NotifyPeerChanges` know. -/
structure Watch where
  nb : NodeBackend
  known : Bool → Option Peers

inductive WatchOp
  | netMap (peers : Peers)
  | delta (muts : List NodeMutation)

namespace Watch

def new : Watch := ⟨⟨false, .empty, fun _ => rfl⟩, fun _ => none⟩

def send (s : Watch) (n : Notify) : Watch :=
  { s with known := fun mask => (n.sendTo mask).fold (s.known mask) }

def setNetMap (s : Watch) (peers : Peers) : Watch :=
  { s with nb := ⟨true, peers, noNetMap_of rfl⟩ }.send ⟨some peers, none⟩

def updateNetmapDelta (s : Watch) (muts : List NodeMutation) : Watch :=
  let s := { s with nb := (s.nb.updateNetmapDelta muts).1 }
  if s.nb.netMap = false then s
  else if mutationsAreWorthyOfTellingIPNBus muts then
    s.send ⟨some s.nb.peers, some (ipnBusPeerChangesFromNodeMutations muts)⟩
  else s

def step (s : Watch) : WatchOp → Watch
  | .netMap peers => s.setNetMap peers
  | .delta muts => s.updateNetmapDelta muts

end Watch

end ScaleTail.Netmap
