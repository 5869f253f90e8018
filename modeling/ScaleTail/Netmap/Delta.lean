import ScaleTail.Netmap.Session

/-!
# Mutations of the node backend

`types/netmap` reads a response once more, as a sorted list of mutations, and `ipn/ipnlocal` applies
the list to its own copy of the peers.
-/

namespace ScaleTail.Netmap

open Net

inductive Mutation
  | derpHome (derpRegion : Nat)
  | endpoints (endpoints : List AddrPort)
  | online (online : Bool)
  | lastSeen (lastSeen : Time)
  deriving DecidableEq

structure NodeMutation where
  nodeID : NodeID
  mutation : Mutation
  deriving DecidableEq

def Mutation.apply (n : Node) : Mutation → Node
  | derpHome v => { n with homeDERP := v }
  | endpoints v => { n with endpoints := some v }
  | online v => { n with online := some v }
  | lastSeen v => { n with lastSeen := some v }

def nodeMutationsFromPatch (p : PeerChange) : Option (List NodeMutation) :=
  if p.nodeID = 0 then none
  else if p.cap ≠ 0 ∨ p.capMap.isSome ∨ p.key.isSome ∨ p.keySignature.isSome ∨ p.discoKey.isSome ∨
      p.keyExpiry.isSome then none
  else
    some (
      (if p.derpRegion = 0 then [] else [⟨p.nodeID, .derpHome p.derpRegion⟩]) ++
      (p.endpoints.toList.map fun v => ⟨p.nodeID, .endpoints v⟩) ++
      (p.online.toList.map fun v => ⟨p.nodeID, .online v⟩) ++
      (p.lastSeen.toList.map fun v => ⟨p.nodeID, .lastSeen v⟩))

def mapResponseContainsNonPatchFields (res : MapResponse) : Bool :=
  res.others ≠ [] ∨ res.peers.isSome ∨ res.peersRemoved.isSome ∨ res.peersChanged.isSome

def patchMutations : List PeerChange → Option (List NodeMutation)
  | [] => some []
  | p :: ps =>
    match nodeMutationsFromPatch p, patchMutations ps with
    | some deltas, some ret => some (deltas ++ ret)
    | _, _ => none

def legacyMutations (res : MapResponse) (now : Time) : List NodeMutation :=
  (res.onlineChange.entries.map fun e => ⟨e.1, .online e.2⟩) ++
    ((res.peerSeenChange.entries.filter (·.2)).map fun e => ⟨e.1, .lastSeen now⟩)

def mutationsFromMapResponse (res : MapResponse) (now : Time) : Option (List NodeMutation) :=
  if mapResponseContainsNonPatchFields res then none
  else
    match patchMutations res.peersChangedPatch with
    | none => none
    | some ret =>
      some ((ret ++ legacyMutations res now).insertionSort fun a b => a.nodeID ≤ b.nodeID)

structure NodeBackend where
  netMap : Bool
  peers : Peers
  noNetMap : ¬ netMap → peers = .empty

/-- The nodes that are mutated, each copied from the peers when it is first met. `none` if a node is
not among the peers. -/
def mutableNodes (peers : Peers) : List NodeMutation → Peers → Option Peers
  | [], nodes => some nodes
  | m :: muts, nodes =>
    match nodes.get m.nodeID with
    | some n => mutableNodes peers muts (nodes.set (m.mutation.apply n))
    | none =>
      match peers.get m.nodeID with
      | none => none
      | some nv => mutableNodes peers muts (nodes.set (m.mutation.apply nv))

theorem noNetMap_of {netMap : Bool} {peers : Peers} (has : netMap) :
    ¬ netMap → peers = .empty := fun no => absurd has no

def NodeBackend.updateNetmapDelta (nb : NodeBackend) (muts : List NodeMutation) :
    NodeBackend × Bool :=
  if no : nb.netMap = false ∨ nb.peers.map.keys.card = 0 then (nb, false)
  else
    match mutableNodes nb.peers muts .empty with
    | none => (nb, false)
    | some nodes =>
      (⟨nb.netMap, nodes.overlay nb.peers,
        noNetMap_of (Bool.eq_true_of_not_eq_false fun h => no (.inl h))⟩, true)

def localBackendUpdateNetmapDelta (nb : NodeBackend) (muts : List NodeMutation) :
    NodeBackend × Bool := ((nb.updateNetmapDelta muts).1, true)

structure Updater where
  disableDeltaUpdates : Bool
  isDeltaUpdater : Bool

def tryHandleIncrementally (u : Updater) (nb : NodeBackend) (res : MapResponse) (now : Time) :
    NodeBackend × Bool :=
  if u.disableDeltaUpdates then (nb, false)
  else if ¬ u.isDeltaUpdater then (nb, false)
  else
    match mutationsFromMapResponse res now with
    | none => (nb, false)
    | some mutations =>
      if 0 < mutations.length then localBackendUpdateNetmapDelta nb mutations else (nb, true)

end ScaleTail.Netmap
