import ScaleTail.Conn25.Client
import ScaleTail.Net.Packet

/-! # The connector -/

namespace ScaleTail.Conn25
open Go Net Netipx

def cgnatRange : Prefix := ⟨.v4 0x64400000, 10, by decide⟩

def chromeOSVMRange : Prefix := ⟨.v4 0x64735c00, 23, by decide⟩

def tailscaleULARange : Prefix := ⟨.v6 0xfd7a115ca1e000000000000000000000, 48, by decide⟩

def isTailscaleIPv4 (ip : Addr) : Bool := cgnatRange.contains ip && !chromeOSVMRange.contains ip

def isTailscaleIP (ip : Addr) : Bool :=
  if ip.is4 then isTailscaleIPv4 ip else tailscaleULARange.contains ip

structure TransitIPRequest where
  transitIP : Option Addr
  destinationIP : Option Addr
  app : Bytes
  deriving DecidableEq

inductive TransitIPResponseCode
  | ok
  | otherFailure
  | duplicateTransitIP
  | noMatchingPeerIPFamily
  | addrFamilyMismatch
  | unknownAppName
  deriving DecidableEq

structure TransitIPResponse where
  code : TransitIPResponseCode
  message : String
  deriving DecidableEq

def dupeTransitIPMessage : String := "Duplicate transit address in ConnectorTransitIPRequest"

def noMatchingPeerIPFamilyMessage : String := "No peer IP found with matching IP family"

def addrFamilyMismatchMessage : String := "Transit and Destination addresses must have matching IP family"

def unknownAppNameMessage : String := "The App name in the request does not match a configured App"

structure Peer where
  stableID : Bytes
  addresses : List Prefix

structure AppAddr where
  app : Bytes
  addr : Option Addr
  deriving DecidableEq

structure Registration where
  peer : Peer
  transitIP : Option Addr
  app : Bytes

structure Connector where
  transitIPs : AList (fun _ : Addr => AList (fun _ : Option Addr => AppAddr))
  registrations : List Registration

namespace Connector

def lookupBySrcIPAndTransitIP (c : Connector) (srcIP : Addr) (transitIP : Option Addr) : Option AppAddr :=
  (c.transitIPs.lookup srcIP).bind (·.lookup transitIP)

def realIPForTransitIPConnection (c : Connector) (srcIP : Addr) (transitIP : Option Addr) :
    Option (Option Addr) :=
  (c.lookupBySrcIPAndTransitIP srcIP transitIP).map (·.addr)

def packetFilterAllow (c : Connector) (p : Parsed) : Bool :=
  (c.lookupBySrcIPAndTransitIP p.src.addr (some p.dst.addr)).isSome

def is4 (a : Option Addr) : Bool := a.any Addr.is4

def handleTransitIPRequest (c : Connector) (n : Peer) (peerV4 peerV6 : Option Addr)
    (tipr : TransitIPRequest) : TransitIPResponse × Connector :=
  if is4 tipr.transitIP ≠ is4 tipr.destinationIP then
    (⟨.addrFamilyMismatch, addrFamilyMismatchMessage⟩, c)
  else
    match if is4 tipr.transitIP then peerV4 else peerV6 with
    | none => (⟨.noMatchingPeerIPFamily, noMatchingPeerIPFamilyMessage⟩, c)
    | some peerAddr =>
      let peerMap := (c.transitIPs.lookup peerAddr).getD ∅
      (⟨.ok, ""⟩,
        { transitIPs := c.transitIPs.insert peerAddr
            (peerMap.insert tipr.transitIP ⟨tipr.app, tipr.destinationIP⟩)
          registrations := c.registrations ++ [⟨n, tipr.transitIP, tipr.app⟩] })

end Connector

structure Config where
  isConfigured : Bool
  apps : List Bytes
  ipSets : IPSets

def emptyIPSets : IPSets := ⟨.empty, .empty, .empty, .empty⟩

def emptyConfig : Config := ⟨false, [], emptyIPSets⟩

def Config.transitSet (cfg : Config) (a : Addr) : IPSet :=
  if a.is4 then cfg.ipSets.v4Transit else cfg.ipSets.v6Transit

structure Extension where
  config : Config
  connector : Connector

namespace Extension

def newConn25 : Extension := ⟨emptyConfig, ∅, []⟩

def reconfig (c : Extension) (cfg : Config) : Extension := { c with config := cfg }

def keepPeerIP (kept : Option Addr × Option Addr) (ip : Prefix) : Option Addr × Option Addr :=
  if !ip.isSingleIP || !isTailscaleIP ip.addr then kept
  else if ip.addr.is4 && kept.1.isNone then (some ip.addr, kept.2)
  else if ip.addr.is6 && kept.2.isNone then (kept.1, some ip.addr)
  else kept

def peerIPs (n : Peer) : Option Addr × Option Addr := n.addresses.foldl keepPeerIP (none, none)

def handleEntries (cfg : Config) (n : Peer) (peerIPv4 peerIPv6 : Option Addr) :
    List (Option Addr) → List TransitIPRequest → Connector → List TransitIPResponse × Connector
  | _, [], c => ([], c)
  | seen, each :: rest, c =>
    if each.transitIP ∈ seen then
      let (responses, c) := handleEntries cfg n peerIPv4 peerIPv6 seen rest c
      (⟨.duplicateTransitIP, dupeTransitIPMessage⟩ :: responses, c)
    else if !cfg.apps.contains each.app then
      let (responses, c) := handleEntries cfg n peerIPv4 peerIPv6 seen rest c
      (⟨.unknownAppName, unknownAppNameMessage⟩ :: responses, c)
    else
      let (response, c) := c.handleTransitIPRequest n peerIPv4 peerIPv6 each
      let (responses, c) := handleEntries cfg n peerIPv4 peerIPv6 (each.transitIP :: seen) rest c
      (response :: responses, c)

def handleConnectorTransitIPRequest (c : Extension) (n : Peer) (transitIPs : List TransitIPRequest) :
    List TransitIPResponse × Extension :=
  if c.config.isConfigured then
    let (peerIPv4, peerIPv6) := peerIPs n
    let (responses, connector) := handleEntries c.config n peerIPv4 peerIPv6 [] transitIPs c.connector
    (responses, { c with connector })
  else (transitIPs.map fun _ => ⟨.unknownAppName, unknownAppNameMessage⟩, c)

inductive Event
  | request (n : Peer) (transitIPs : List TransitIPRequest)
  | reconfig (cfg : Config)

def step (c : Extension) : Event → Extension
  | .request n transitIPs => (c.handleConnectorTransitIPRequest n transitIPs).2
  | .reconfig cfg => c.reconfig cfg

end Extension

end ScaleTail.Conn25
