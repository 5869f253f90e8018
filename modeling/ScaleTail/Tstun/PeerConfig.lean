import ScaleTail.Conn25.Connector
import ScaleTail.Lib.LongestMatch

/-!
# Per-peer configuration of the TUN wrapper

The table by which packets to and from a peer get their masquerade addresses and are found to be
jailed, as it is made from a WireGuard configuration.
-/

namespace ScaleTail.Tstun
open Net Conn25 Lib

def longestMatch {V : Type} (entries : List (Prefix × V)) (x : Addr) : Option V :=
  (LongestMatch.find Prefix.contains Prefix.bits x entries).map Prod.snd

class Bart (V : Type) where
  Table : Type
  empty : Table
  insert : Table → Prefix → V → Table
  lookup : Table → Addr → Option V
  lookup_foldl (entries : List (Prefix × V)) (x : Addr) :
    lookup (entries.foldl (fun t e => insert t e.1 e.2) empty) x = longestMatch entries x

/-- What the wrapper reads of a peer. A masquerade address is missing if its pointer is nil or the
address is not valid; one that is there is of its family. -/
structure Peer where
  allowedIPs : List Prefix
  v4MasqAddr : Option Addr
  v6MasqAddr : Option Addr
  isJailed : Bool
  is4 : ∀ a, v4MasqAddr = some a → a.is4 = true
  is6 : ∀ a, v6MasqAddr = some a → a.is6 = true

structure Config where
  addresses : List Prefix
  peers : List Peer

structure PeerConfig where
  dstMasqAddr4 : Option Addr
  dstMasqAddr6 : Option Addr
  jailed : Bool

structure PeerConfigTable [Bart PeerConfig] where
  nativeAddr4 : Option Addr
  nativeAddr6 : Option Addr
  byIP : Bart.Table PeerConfig
  masqAddrs : List Addr

def findV4 (addrs : List Prefix) : Option Addr :=
  (addrs.map Prefix.addr).find? fun a => a.is4 && isTailscaleIP a

def findV6 (addrs : List Prefix) : Option Addr :=
  (addrs.map Prefix.addr).find? fun a => a.is6 && isTailscaleIP a

def isExitRoute (p : Prefix) : Bool :=
  p.bits == 0 && (p.addr = .v4 0 || p.addr = .v6 0)

def Peer.isExitNode (p : Peer) : Bool := p.allowedIPs.any isExitRoute

def Peer.hasMasqAddr (p : Peer) : Bool := p.v4MasqAddr.isSome || p.v6MasqAddr.isSome

def Config.exitNodeRequiresMasq (wcfg : Config) : Bool :=
  match wcfg.peers.find? Peer.isExitNode with
  | some p => p.hasMasqAddr
  | none => false

def addrToUse (exitNodeRequiresMasq : Bool) (native masq : Option Addr) : Option Addr :=
  if exitNodeRequiresMasq then masq.or native else masq

def toNative (family : Bool) (native masq : Option Addr) (oldDst : Addr) : Option Addr :=
  if family && masq = some oldDst then native else none

section Table
variable [Bart PeerConfig]

structure Built where
  byIP : Bart.Table PeerConfig
  byIPSize : Nat
  masqAddrs : List Addr

def addPeer (exitNodeRequiresMasq : Bool) (nativeAddr4 nativeAddr6 : Option Addr) (b : Built)
    (p : Peer) : Built :=
  let masqAddrs := b.masqAddrs ++ p.v4MasqAddr.toList ++ p.v6MasqAddr.toList
  let addrToUse4 := addrToUse exitNodeRequiresMasq nativeAddr4 p.v4MasqAddr
  let addrToUse6 := addrToUse exitNodeRequiresMasq nativeAddr6 p.v6MasqAddr
  if addrToUse4.isNone && addrToUse6.isNone && !p.isJailed then { b with masqAddrs := masqAddrs }
  else
    let pc : PeerConfig := ⟨addrToUse4, addrToUse6, p.isJailed⟩
    { byIP := p.allowedIPs.foldl (fun t ip => Bart.insert t ip pc) b.byIP
      byIPSize := b.byIPSize + p.allowedIPs.length
      masqAddrs := masqAddrs }

def peerConfigTableFromWGConfig : Option Config → Option PeerConfigTable
  | none => none
  | some wcfg =>
    let nativeAddr4 := findV4 wcfg.addresses
    let nativeAddr6 := findV6 wcfg.addresses
    if nativeAddr4.isNone && nativeAddr6.isNone then none
    else
      let b := wcfg.peers.foldl (addPeer wcfg.exitNodeRequiresMasq nativeAddr4 nativeAddr6)
        ⟨Bart.empty, 0, []⟩
      if b.byIPSize == 0 && b.masqAddrs.isEmpty then none
      else some ⟨nativeAddr4, nativeAddr6, b.byIP, b.masqAddrs⟩

def mapDstIP (pc : Option PeerConfigTable) (src oldDst : Addr) : Addr :=
  match pc with
  | none => oldDst
  | some pc =>
    match Bart.lookup pc.byIP src with
    | none => oldDst
    | some c =>
      match toNative oldDst.is4 pc.nativeAddr4 c.dstMasqAddr4 oldDst with
      | some native => native
      | none => (toNative oldDst.is6 pc.nativeAddr6 c.dstMasqAddr6 oldDst).getD oldDst

def selectSrcIP (pc : Option PeerConfigTable) (oldSrc dst : Addr) : Addr :=
  match pc with
  | none => oldSrc
  | some pc =>
    if oldSrc.is4 && pc.nativeAddr4 ≠ some oldSrc then oldSrc
    else if oldSrc.is6 && pc.nativeAddr6 ≠ some oldSrc then oldSrc
    else
      match Bart.lookup pc.byIP dst with
      | none => oldSrc
      | some c => (if oldSrc.is4 then c.dstMasqAddr4 else c.dstMasqAddr6).getD oldSrc

def inboundPacketIsJailed (pc : Option PeerConfigTable) (p : Parsed) : Bool :=
  match pc with
  | none => false
  | some pc =>
    match Bart.lookup pc.byIP p.src.addr with
    | none => false
    | some c => c.jailed

def outboundPacketIsJailed (pc : Option PeerConfigTable) (p : Parsed) : Bool :=
  match pc with
  | none => false
  | some pc =>
    match Bart.lookup pc.byIP p.dst.addr with
    | none => false
    | some c => c.jailed

def snat (pc : Option PeerConfigTable) (p : Parsed) : Parsed :=
  { p with src := { p.src with addr := selectSrcIP pc p.src.addr p.dst.addr } }

def dnat (pc : Option PeerConfigTable) (p : Parsed) : Parsed :=
  { p with dst := { p.dst with addr := mapDstIP pc p.src.addr p.dst.addr } }

end Table
end ScaleTail.Tstun
