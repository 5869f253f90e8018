import Mathlib
import ScaleTail.Net.Addr

/-! # Nodes, changes to nodes and map responses -/

namespace ScaleTail.Netmap

open Net

abbrev NodeID := Nat
abbrev UserID := Nat
abbrev Time := Nat
abbrev NodePublic := Nat
abbrev MachinePublic := Nat

abbrev DiscoPublic := Nat

abbrev NodeCapMap := Finmap fun _ : String => List String

deriving instance DecidableEq for Prefix

structure Hostinfo where
  json : String
  deriving DecidableEq

structure Resolver where
  addr : String
  bootstrapResolution : List Addr
  useWithExitNode : Bool
  deriving DecidableEq

structure Node where
  id : NodeID
  stableID : String
  name : String
  user : UserID
  sharer : UserID
  key : NodePublic
  keyExpiry : Time
  keySignature : Option (List UInt8)
  machine : MachinePublic
  discoKey : DiscoPublic
  addresses : List Prefix
  allowedIPs : List Prefix
  endpoints : Option (List AddrPort)
  homeDERP : Nat
  hostinfo : Option Hostinfo
  created : Time
  cap : Nat
  tags : List String
  primaryRoutes : List Prefix
  lastSeen : Option Time
  online : Option Bool
  machineAuthorized : Bool
  capabilities : List String
  capMap : NodeCapMap
  unsignedPeerAPIOnly : Bool
  dataPlaneAuditLogID : String
  expired : Bool
  selfNodeV4MasqAddrForThisPeer : Option Addr
  selfNodeV6MasqAddrForThisPeer : Option Addr
  isWireGuardOnly : Bool
  isJailed : Bool
  exitNodeDNSResolvers : List Resolver
  deriving DecidableEq

structure PeerChange where
  nodeID : NodeID
  derpRegion : Nat
  cap : Nat
  capMap : Option NodeCapMap
  endpoints : Option (List AddrPort)
  key : Option NodePublic
  keySignature : Option (List UInt8)
  discoKey : Option DiscoPublic
  online : Option Bool
  lastSeen : Option Time
  keyExpiry : Option Time
  deriving DecidableEq

def PeerChange.zero (nodeID : NodeID) : PeerChange :=
  ⟨nodeID, 0, 0, none, none, none, none, none, none, none, none⟩

inductive OtherField
  | node
  | derpMap
  | dnsConfig
  | domain
  | collectServices
  | packetFilter
  | packetFilters
  | userProfiles
  | health
  | displayMessages
  | sshPolicy
  | tkaInfo
  | domainDataPlaneAuditLogID
  | debug
  | controlDialPlan
  | clientVersion
  | deprecatedDefaultAutoUpdate
  deriving DecidableEq

structure MapResponse where
  others : List OtherField
  peers : Option (List Node)
  peersChanged : Option (List Node)
  peersRemoved : Option (List NodeID)
  peersChangedPatch : List PeerChange
  peerSeenChange : AList fun _ : NodeID => Bool
  onlineChange : AList fun _ : NodeID => Bool

def MapResponse.empty : MapResponse := ⟨[], none, none, none, [], ∅, ∅⟩

structure Peers where
  map : Finmap fun _ : NodeID => Node
  keyed : ∀ id n, map.lookup id = some n → n.id = id

namespace Peers

variable {peers : Peers} {id : NodeID} {n : Node}

def get (peers : Peers) (id : NodeID) : Option Node := peers.map.lookup id

theorem get_id (found : peers.get id = some n) : n.id = id := peers.keyed id n found

theorem keyed_empty : ∀ id n, (∅ : Finmap fun _ : NodeID => Node).lookup id = some n → n.id = id := by
  simp

theorem keyed_insert (peers : Peers) (n : Node) :
    ∀ id m, (peers.map.insert n.id n).lookup id = some m → m.id = id := by
  intro id m found
  by_cases same : id = n.id
  · subst same
    rw [Finmap.lookup_insert] at found
    rw [← Option.some.inj found]
  · rw [Finmap.lookup_insert_of_ne _ same] at found
    exact peers.keyed id m found

theorem keyed_erase (peers : Peers) (old : NodeID) :
    ∀ id m, (peers.map.erase old).lookup id = some m → m.id = id := by
  intro id m found
  by_cases same : id = old
  · subst same
    rw [Finmap.lookup_erase] at found
    cases found
  · rw [Finmap.lookup_erase_ne same] at found
    exact peers.keyed id m found

theorem keyed_union (p q : Peers) : ∀ id m, (p.map ∪ q.map).lookup id = some m → m.id = id := by
  intro id m found
  by_cases mem : id ∈ p.map
  · rw [Finmap.lookup_union_left mem] at found
    exact p.keyed id m found
  · rw [Finmap.lookup_union_right mem] at found
    exact q.keyed id m found

def empty : Peers := ⟨∅, keyed_empty⟩

def set (peers : Peers) (n : Node) : Peers := ⟨peers.map.insert n.id n, peers.keyed_insert n⟩

def delete (peers : Peers) (id : NodeID) : Peers := ⟨peers.map.erase id, peers.keyed_erase id⟩

def overlay (p q : Peers) : Peers := ⟨p.map ∪ q.map, keyed_union p q⟩

@[simp]
theorem get_empty : empty.get id = none := Finmap.lookup_empty id

@[simp]
theorem get_set : (peers.set n).get id = if id = n.id then some n else peers.get id := by
  unfold get set
  split_ifs with same
  · rw [same, Finmap.lookup_insert]
  · rw [Finmap.lookup_insert_of_ne _ same]

@[simp]
theorem get_delete {old : NodeID} :
    (peers.delete old).get id = if id = old then none else peers.get id := by
  unfold get delete
  split_ifs with same
  · rw [same, Finmap.lookup_erase]
  · rw [Finmap.lookup_erase_ne same]

@[simp]
theorem get_overlay {p q : Peers} : (p.overlay q).get id = (p.get id).or (q.get id) := by
  unfold get overlay
  by_cases mem : id ∈ p.map
  · obtain ⟨n, found⟩ := Finmap.mem_iff.1 mem
    rw [Finmap.lookup_union_left mem, found, Option.some_or]
  · rw [Finmap.lookup_union_right mem, Finmap.lookup_eq_none.2 mem, Option.none_or]

theorem ext_get {p q : Peers} (same : ∀ id, p.get id = q.get id) : p = q := by
  have map : p.map = q.map := Finmap.ext_lookup same
  cases p
  cases q
  congr

end Peers

end ScaleTail.Netmap
