import ScaleTail.Netmap.Node

/-!
# The peers of a map session

`control/controlclient`: changed peers are turned into patches where a patch can say the change,
patches with stale disco keys are dropped, and the rest updates the session's map of peers.
-/

namespace ScaleTail.Netmap

def patchable (was n : Node) : Bool :=
  was.id = n.id ∧ was.stableID = n.stableID ∧ was.name = n.name ∧ was.user = n.user ∧
  was.sharer = n.sharer ∧ was.machine = n.machine ∧ was.addresses = n.addresses ∧
  was.allowedIPs = n.allowedIPs ∧ was.hostinfo = n.hostinfo ∧ was.created = n.created ∧
  was.tags = n.tags ∧ was.primaryRoutes = n.primaryRoutes ∧
  was.machineAuthorized = n.machineAuthorized ∧
  was.unsignedPeerAPIOnly = n.unsignedPeerAPIOnly ∧ was.expired = n.expired ∧
  was.selfNodeV4MasqAddrForThisPeer = n.selfNodeV4MasqAddrForThisPeer ∧
  was.selfNodeV6MasqAddrForThisPeer = n.selfNodeV6MasqAddrForThisPeer ∧
  was.isWireGuardOnly = n.isWireGuardOnly ∧ was.isJailed = n.isJailed ∧
  was.exitNodeDNSResolvers = n.exitNodeDNSResolvers

def capMapChanged (was n : NodeCapMap) : Bool :=
  if n.keys.card ≠ was.keys.card then true
  else !was.all fun k v => n.lookup k = some v

def bothAndDiffer {α : Type} [DecidableEq α] (was n : Option α) : Bool :=
  was.isSome ∧ n.isSome ∧ was ≠ n

def differs (was n : Node) : Bool :=
  was.key ≠ n.key ∨ was.keyExpiry ≠ n.keyExpiry ∨
  was.keySignature.getD [] ≠ n.keySignature.getD [] ∨ was.discoKey ≠ n.discoKey ∨
  was.endpoints.getD [] ≠ n.endpoints.getD [] ∨ was.homeDERP ≠ n.homeDERP ∨ was.cap ≠ n.cap ∨
  bothAndDiffer was.lastSeen n.lastSeen ∨ bothAndDiffer was.online n.online ∨
  capMapChanged was.capMap n.capMap

/-- `none` if no patch can be made, and no patch in it if nothing differs. The audit log ID and the
deprecated capabilities are not compared. -/
def peerChangeDiff (was n : Node) : Option (Option PeerChange) :=
  if ¬ patchable was n then none
  else if ¬ differs was n then some none
  else some (some {
    nodeID := n.id
    key := if was.key ≠ n.key then some n.key else none
    keyExpiry := if was.keyExpiry ≠ n.keyExpiry then some n.keyExpiry else none
    keySignature :=
      if was.keySignature.getD [] ≠ n.keySignature.getD [] then n.keySignature else none
    discoKey := if was.discoKey ≠ n.discoKey then some n.discoKey else none
    endpoints := if was.endpoints.getD [] ≠ n.endpoints.getD [] then n.endpoints else none
    derpRegion := if was.homeDERP ≠ n.homeDERP then n.homeDERP else 0
    cap := if was.cap ≠ n.cap then n.cap else 0
    lastSeen := if bothAndDiffer was.lastSeen n.lastSeen then n.lastSeen else none
    online := if bothAndDiffer was.online n.online then n.online else none
    capMap := if capMapChanged was.capMap n.capMap then some n.capMap else none })

def patchifyPeer (peers : Peers) (n : Node) : Option (Option PeerChange) :=
  match peers.get n.id with
  | none => none
  | some was => peerChangeDiff was n

def patchifyPeersChanged (peers : Peers) (resp : MapResponse) : MapResponse :=
  let changed := resp.peersChanged.getD []
  let filtered := changed.filter fun n => (patchifyPeer peers n).isNone
  { resp with
    peersChanged := if filtered.length = 0 then none else some filtered
    peersChangedPatch :=
      resp.peersChangedPatch ++ changed.filterMap fun n => (patchifyPeer peers n).join }

def acceptsDiscoUpdate (peers : Peers) (viaTSMP : Bool) (change : PeerChange) : Bool :=
  match change.discoKey, change.online, change.lastSeen with
  | some discoKey, some online, some lastSeen =>
    match peers.get change.nodeID with
    | none => true
    | some existingNode =>
      if viaTSMP ∧ existingNode.online = some true ∧ discoKey = existingNode.discoKey then false
      else if online then true
      else
        match existingNode.lastSeen with
        | none => true
        | some existingLastSeen => existingLastSeen < lastSeen
  | _, _, _ => true

def removeUnwantedDiscoUpdates (peers : Peers) (viaTSMP : Bool) (resp : MapResponse) :
    MapResponse :=
  { resp with peersChangedPatch := resp.peersChangedPatch.filter (acceptsDiscoUpdate peers viaTSMP) }

def keepNewerDisco (peers : Peers) (peer : Node) : Node :=
  if peer.discoKey = 0 then peer
  else
    match peers.get peer.id with
    | none => peer
    | some existingNode =>
      if existingNode.discoKey = peer.discoKey then peer
      else if peer.online = some true then peer
      else
        match existingNode.lastSeen with
        | none => peer
        | some existingLastSeen =>
          if ∃ t ∈ peer.lastSeen, existingLastSeen < t then peer
          else
            { peer with
              discoKey := existingNode.discoKey
              lastSeen := some existingLastSeen }

def removeUnwantedDiscoUpdatesFromFullNetmapUpdate (peers : Peers) (resp : MapResponse) :
    MapResponse :=
  { resp with peers := resp.peers.map (·.map (keepNewerDisco peers)) }

def setSeen (now : Time) (n : Node) (seen : Bool) : Node :=
  { n with lastSeen := if seen then some now else none }

def setOnline (n : Node) (online : Bool) : Node := { n with online := some online }

def applyPatch (n : Node) (pc : PeerChange) : Node :=
  { n with
    homeDERP := if pc.derpRegion ≠ 0 then pc.derpRegion else n.homeDERP
    cap := if pc.cap ≠ 0 then pc.cap else n.cap
    endpoints := pc.endpoints.or n.endpoints
    key := pc.key.getD n.key
    discoKey := pc.discoKey.getD n.discoKey
    online := pc.online.or n.online
    lastSeen := pc.lastSeen.or n.lastSeen
    keyExpiry := pc.keyExpiry.getD n.keyExpiry
    keySignature := pc.keySignature.or n.keySignature
    capMap := pc.capMap.getD n.capMap }

def Peers.modify (peers : Peers) (id : NodeID) (f : Node → Node) : Peers :=
  match peers.get id with
  | some vp => peers.set (f vp)
  | none => peers

def updatePeersStateFromResponse (peers : Peers) (resp : MapResponse) (now : Time) : Peers :=
  if 0 < (resp.peers.getD []).length then
    -- Those in the response are stored and those not in it deleted.
    (resp.peers.getD []).foldl Peers.set .empty
  else
    let peers := (resp.peersRemoved.getD []).foldl Peers.delete peers
    let peers := (resp.peersChanged.getD []).foldl Peers.set peers
    let peers := resp.peerSeenChange.entries.foldl
      (fun peers e => peers.modify e.1 (setSeen now · e.2)) peers
    let peers := resp.onlineChange.entries.foldl
      (fun peers e => peers.modify e.1 (setOnline · e.2)) peers
    resp.peersChangedPatch.foldl (fun peers pc => peers.modify pc.nodeID (applyPatch · pc)) peers

def handleMapResponse (peers : Peers) (resp : MapResponse) (viaTSMP : Bool) (now : Time) :
    Peers × Option MapResponse :=
  let resp := patchifyPeersChanged peers resp
  let resp := removeUnwantedDiscoUpdates peers viaTSMP resp
  if viaTSMP ∧ resp.peersChangedPatch.length = 0 then (peers, none)
  else
    let resp := removeUnwantedDiscoUpdatesFromFullNetmapUpdate peers resp
    (updatePeersStateFromResponse peers resp now, some resp)

structure DiscoUpdate where
  id : NodeID
  key : NodePublic
  discoKey : DiscoPublic
  lastSeen : Time
  online : Bool

def DiscoUpdate.patch (u : DiscoUpdate) : PeerChange :=
  { PeerChange.zero u.id with
    key := some u.key
    lastSeen := some u.lastSeen
    online := some u.online
    discoKey := some u.discoKey }

def DiscoUpdate.response (u : DiscoUpdate) : MapResponse :=
  { MapResponse.empty with peersChangedPatch := [u.patch] }

/-- Whether `PeerIDAndKeyByTailscaleIP` may answer with this peer, whose map order is not fixed. -/
def hasTailscaleIP (n : Node) (ip : Net.Addr) : Bool := n.addresses.any (·.addr = ip)

end ScaleTail.Netmap
