import ScaleTail.Go.Strings
import ScaleTail.Net.Netipx

/-!
# The replicated address pool of natc

The commands of the replicated log, what a replica answers from the state it has reached, and the
commands that its answers issue.
-/

namespace ScaleTail.Natc
open Go Net Netipx

abbrev Time := Int

abbrev NodeID := Nat

def minute : Time := 60 * 1000000000

def hour : Time := 60 * minute

def lifetime : Time := 48 * hour

/-- A `netip.Addr`. One that is not valid still has bits, which `Next` counts on. -/
inductive IP
  | valid (a : Addr)
  | invalid (bits : BitVec 128)
  deriving DecidableEq

namespace IP

def next : IP → IP
  | valid a => a.next.elim (invalid 0) valid
  | invalid bits => invalid (bits + 1)

def beyond (toIP : Addr) : IP → Bool
  | valid a => toIP.Less a
  | invalid _ => false

end IP

structure WhereWhen where
  domain : Bytes
  lastUsed : Time
  deriving DecidableEq

structure PeerState where
  domainToAddr : AList (fun _ : Bytes => IP)
  addrToDomain : AList (fun _ : IP => WhereWhen)

namespace PeerState

def empty : PeerState := ⟨∅, ∅⟩

/-- The loop over one range, from an address on, with a bound on its rounds. An address that is
reused comes with its previous domain. -/
def unusedIn (ps : PeerState) (reuseDeadline : Time) (toIP : Addr) :
    Nat → IP → Option (Option (IP × Option Bytes))
  | 0, _ => none
  | rounds + 1, ip =>
    if IP.beyond toIP ip then some none
    else
      match ps.addrToDomain.lookup ip with
      | none => some (some (ip, none))
      | some ww =>
        if ww.lastUsed < reuseDeadline then some (some (ip, some ww.domain))
        else unusedIn ps reuseDeadline toIP rounds ip.next

/-- There is no address if the pool is exhausted. A loop that runs past the last address of a family
stops at one that is not assigned. -/
def unusedIPV4 (ps : PeerState) (reuseDeadline : Time) :
    List IPRange → Option (Option (IP × Option Bytes))
  | [] => some none
  | r :: ranges =>
    match ps.unusedIn reuseDeadline r.to_ (r.size + ps.addrToDomain.entries.length + 1)
        (.valid r.from_) with
    | none => none
    | some none => ps.unusedIPV4 reuseDeadline ranges
    | some (some found) => some (some found)

def assign (ps : PeerState) (domain : Bytes) (addr : IP) (previousDomain : Option Bytes)
    (updatedAt : Time) : PeerState where
  domainToAddr :=
    let domainToAddr := ps.domainToAddr.insert domain addr
    previousDomain.elim domainToAddr fun previous => domainToAddr.erase previous
  addrToDomain := ps.addrToDomain.insert addr ⟨domain, updatedAt⟩

end PeerState

inductive Command
  | checkoutAddr (nid : NodeID) (domain : Bytes) (reuseDeadline updatedAt : Time)
  | markLastUsed (nid : NodeID) (addr : IP) (domain : Bytes) (updatedAt : Time)
  | readDomainForIP (nid : NodeID) (addr : IP)
  deriving DecidableEq

inductive Result
  | addr (ip : IP)
  | exhausted
  | marked
  | domain (d : Bytes)
  deriving DecidableEq

abbrev State := AList (fun _ : NodeID => PeerState)

namespace State

def peer (s : State) (nid : NodeID) : PeerState := (s.lookup nid).getD .empty

def applyCheckoutAddr (ipSet : IPSet) (s : State) (nid : NodeID) (domain : Bytes)
    (reuseDeadline updatedAt : Time) : Option (Result × State) :=
  let ps := s.peer nid
  match (ps.domainToAddr.lookup domain).bind fun existing =>
      (ps.addrToDomain.lookup existing).map fun ww => (existing, ww) with
  | some (existing, ww) =>
    some (.addr existing, s.insert nid
      { ps with addrToDomain := ps.addrToDomain.insert existing { ww with lastUsed := updatedAt } })
  | none =>
    match ps.unusedIPV4 reuseDeadline ipSet.ranges with
    | none => none
    | some none => some (.exhausted, s.insert nid ps)
    | some (some (addr, previousDomain)) =>
      some (.addr addr, s.insert nid (ps.assign domain addr previousDomain updatedAt))

def applyMarkLastUsed (s : State) (from_ : NodeID) (addr : IP) (domain : Bytes) (updatedAt : Time) :
    State :=
  let ps := s.peer from_
  match ps.addrToDomain.lookup addr with
  | none => s
  | some ww =>
    -- reused for a new domain, or marked more recently
    if ww.domain ≠ domain ∨ updatedAt < ww.lastUsed then s
    else
      s.insert from_
        { ps with addrToDomain := ps.addrToDomain.insert addr { ww with lastUsed := updatedAt } }

def applyReadDomainForIP (s : State) (from_ : NodeID) (addr : IP) : Bytes :=
  ((s.peer from_).addrToDomain.lookup addr).elim [] (·.domain)

def apply (ipSet : IPSet) (s : State) : Command → Option (Result × State)
  | .checkoutAddr nid domain reuseDeadline updatedAt =>
    s.applyCheckoutAddr ipSet nid domain reuseDeadline updatedAt
  | .markLastUsed nid addr domain updatedAt =>
    some (.marked, s.applyMarkLastUsed nid addr domain updatedAt)
  | .readDomainForIP nid addr => some (.domain (s.applyReadDomainForIP nid addr), s)

end State

def isCloseToExpiry (lastUsed now lifetime : Time) : Bool := lifetime / 2 < |now - lastUsed|

def fireAndForgetMarkLastUsed (from_ : NodeID) (addr : IP) (ww : WhereWhen) (updatedAt : Time) :
    Option Command :=
  if |updatedAt - ww.lastUsed| < 5 * minute then none
  else some (.markLastUsed from_ addr ww.domain updatedAt)

def State.localIP (s : State) (nid : NodeID) (domain : Bytes) (now : Time) :
    Option (IP × Option Command) :=
  let ps := s.peer nid
  match ps.domainToAddr.lookup domain with
  | none => none
  | some addr =>
    match ps.addrToDomain.lookup addr with
    | none => none
    | some ww =>
      if isCloseToExpiry ww.lastUsed now lifetime then none
      else some (addr, fireAndForgetMarkLastUsed nid addr ww now)

def checkout (nid : NodeID) (domain : Bytes) (now : Time) : Command :=
  .checkoutAddr nid domain (now - lifetime) now

/-- `DomainForIP` on a replica, with what the log would answer it: the domain, and the command it
issues. The record that is marked is the one of the replica, also if it has none. -/
def State.domainForIP (s : State) (read : Bytes) (from_ : NodeID) (addr : IP) (updatedAt : Time) :
    Option (Bytes × Option Command) :=
  let ww := (s.peer from_).addrToDomain.lookup addr
  let domain := ww.elim read (·.domain)
  if domain = [] then none
  -- the zero time lies further back than any window
  else some (domain, ww.elim (some (.markLastUsed from_ addr [] updatedAt)) fun ww =>
    fireAndForgetMarkLastUsed from_ addr ww updatedAt)

end ScaleTail.Natc
