import ScaleTail.Conn25.Pool
import ScaleTail.Go.Strings

/-!
# The client of the app connectors

The addresses that a client assigns to a domain and a destination, the three indexes over them, and
the queue from which they are announced to a connector.
-/

namespace ScaleTail.Conn25
open Go Net Netipx

abbrev Time := Nat

structure Addrs where
  dst : Addr
  magic : Addr
  transit : Addr
  domain : Bytes
  app : Bytes
  expiresAt : Time
  deriving DecidableEq

structure DomainDst where
  domain : Bytes
  dst : Addr
  deriving DecidableEq

def Addrs.domainDst (as : Addrs) : DomainDst := ⟨as.domain, as.dst⟩

inductive ReserveError
  | dstNotValid
  | poolExhausted
  | expiresAtSet
  | magicExists
  | domainDstExists
  | transitExists
  | queueFull
  deriving DecidableEq

structure AddrAssignments where
  byMagicIP : AList (fun _ : Addr => Addrs)
  byTransitIP : AList (fun _ : Addr => Addrs)
  byDomainDst : AList (fun _ : DomainDst => Addrs)

def defaultExpiry : Time := 48 * 60 * 60 * 1000000000

namespace AddrAssignments

def empty : AddrAssignments := ⟨∅, ∅, ∅⟩

def unexpired (entry : Option Addrs) (now : Time) : Option Addrs :=
  entry.filter fun as => ¬ as.expiresAt < now

def lookupByMagicIP (a : AddrAssignments) (mip : Addr) (now : Time) : Option Addrs :=
  unexpired (a.byMagicIP.lookup mip) now

def lookupByTransitIP (a : AddrAssignments) (tip : Addr) (now : Time) : Option Addrs :=
  unexpired (a.byTransitIP.lookup tip) now

def lookupByDomainDst (a : AddrAssignments) (ddst : DomainDst) (now : Time) : Option Addrs :=
  unexpired (a.byDomainDst.lookup ddst) now

def insertWithExpiry (a : AddrAssignments) (as : Addrs) (d now : Time) :
    Except ReserveError AddrAssignments :=
  if as.expiresAt ≠ 0 then .error .expiresAtSet
  else
    let as := { as with expiresAt := now + d }
    if (a.lookupByMagicIP as.magic now).isSome then .error .magicExists
    else if (a.lookupByDomainDst as.domainDst now).isSome then .error .domainDstExists
    else if (a.lookupByTransitIP as.transit now).isSome then .error .transitExists
    else
      .ok
        { byMagicIP := a.byMagicIP.insert as.magic as
          byTransitIP := a.byTransitIP.insert as.transit as
          byDomainDst := a.byDomainDst.insert as.domainDst as }

def insert (a : AddrAssignments) (as : Addrs) (now : Time) : Except ReserveError AddrAssignments :=
  a.insertWithExpiry as defaultExpiry now

end AddrAssignments

structure IPSets where
  v4Transit : IPSet
  v4Magic : IPSet
  v6Transit : IPSet
  v6Magic : IPSet

structure Pools where
  magic : IPPool
  transit : IPPool

structure Client where
  addrsCh : List Addrs
  v4 : Option Pools
  v6 : Option Pools
  assignments : AddrAssignments
  now : Time
  /-- The assignments that were placed on the queue, with their time of expiry, and those that
  calls returned. -/
  placed : List Addrs
  returned : List Addrs

def queueSize : Nat := 64

namespace Client

def newClient : Client := ⟨[], none, none, .empty, 0, [], []⟩

def reconfig (c : Client) (ipSets : IPSets) : Client :=
  { c with
    v4 := some ⟨newIPPool ipSets.v4Magic, newIPPool ipSets.v4Transit⟩
    v6 := some ⟨newIPPool ipSets.v6Magic, newIPPool ipSets.v6Transit⟩ }

def pools (c : Client) (dst : Addr) : Option Pools := if dst.is4 then c.v4 else c.v6

def setPools (c : Client) (dst : Addr) (p : Pools) : Client :=
  if dst.is4 then { c with v4 := some p } else { c with v6 := some p }

def enqueueAddressAssignment (c : Client) (as : Addrs) : Except ReserveError Client :=
  if c.addrsCh.length < queueSize then
    .ok
      { c with
        addrsCh := c.addrsCh ++ [as]
        placed := c.placed ++ (c.assignments.byDomainDst.lookup as.domainDst).toList }
  else .error .queueFull

def assign (c : Client) (as : Addrs) (now : Time) : Except ReserveError Addrs × Client :=
  match c.assignments.insert as now with
  | .error e => (.error e, c)
  | .ok assignments =>
    let c := { c with assignments }
    match c.enqueueAddressAssignment as with
    | .error e => (.error e, c)
    | .ok c => (.ok as, c)

/-- The clock is read when an assignment is looked up and when one is inserted. The call does not
return if there are no pools, which are then nil. -/
def reserveAddresses (c : Client) (appName domain : Bytes) (dst : Option Addr) (t₁ t₂ : Time) :
    Option (Except ReserveError Addrs × Client) :=
  match dst with
  | none => some (.error .dstNotValid, c)
  | some dst =>
    match c.assignments.lookupByDomainDst ⟨domain, dst⟩ t₁ with
    | some existing => some (.ok existing, c)
    | none => do
        let p ← c.pools dst
        match ← p.magic.next with
        | (.error .exhausted, magic) => some (.error .poolExhausted, c.setPools dst { p with magic })
        | (.ok mip, magic) =>
          match ← p.transit.next with
          | (.error .exhausted, transit) =>
            some (.error .poolExhausted, c.setPools dst ⟨magic, transit⟩)
          | (.ok tip, transit) =>
            some ((c.setPools dst ⟨magic, transit⟩).assign ⟨dst, mip, tip, domain, appName, 0⟩ t₂)

def dequeue (c : Client) : Option (Addrs × Client) :=
  match c.addrsCh with
  | [] => none
  | as :: addrsCh => some (as, { c with addrsCh })

end Client

inductive Op
  | reserveAddresses (appName domain : Bytes) (dst : Option Addr) (t₁ t₂ : Time)
  | reconfig (ipSets : IPSets)
  | dequeue

def Client.record (c : Client) (domain : Bytes) (dst : Option Addr) (t : Time) :
    Except ReserveError Addrs → Client
  | .error _ => { c with now := t }
  | .ok _ =>
    { c with
      now := t
      returned := c.returned ++ (dst.bind fun d => c.assignments.byDomainDst.lookup ⟨domain, d⟩).toList }

def step (c : Client) : Op → Option Client
  | .reserveAddresses appName domain dst t₁ t₂ =>
    if c.now ≤ t₁ ∧ t₁ ≤ t₂ then
      (c.reserveAddresses appName domain dst t₁ t₂).map fun (result, c) => c.record domain dst t₂ result
    else none
  | .reconfig ipSets => some (c.reconfig ipSets)
  | .dequeue => c.dequeue.map Prod.snd

end ScaleTail.Conn25
