import ScaleTail.Go.Strings
import ScaleTail.Net.Addr

/-! # The connections of a DERP server -/

namespace ScaleTail.Derp
open Go Net

abbrev NodePublic := BitVec 256

structure SClient where
  connNum : Nat
  key : NodePublic
  canMesh : Bool
  isProber : Bool
  isNotIdealConn : Bool
  remoteIPPort : Option AddrPort
  deriving DecidableEq

def SClient.presentFlags (c : SClient) : UInt8 :=
  let f := (if c.isProber then 4 else 0) ||| (if c.canMesh then 2 else 0) |||
    (if c.isNotIdealConn then 8 else 0)
  if f = 0 then 1 else f

inductive DupPolicy
  | lastWriterIsActive
  | disableFighters
  deriving DecidableEq

structure DupClientSet where
  set : List SClient
  last : Option SClient
  sendHistory : List SClient

structure ClientSet where
  activeClient : Option SClient
  dup : Option DupClientSet

def ClientSet.new : ClientSet := ⟨none, none⟩

inductive Unexpected
  | clientsMapIsEmpty
  | activeClientIsNil
  | activeClientIsNotC
  | dupClientSetDidNotShrink
  | nilRemain
  deriving DecidableEq

structure Registry where
  dupPolicy : DupPolicy
  clients : AList fun _ : NodePublic => ClientSet
  isDup : SClient → Bool
  isDisabled : SClient → Bool
  curClients : Int
  dupClientKeys : Int
  dupClientConns : Int
  unexpected : List Unexpected

namespace DupClientSet

variable (s : DupClientSet)

def trim (set : List SClient) (sendHistory : List SClient) : List SClient :=
  sendHistory.foldl
    (fun trim v => if v ∈ set ∧ trim.getLast? ≠ some v then trim ++ [v] else trim) []

def removeClient (c : SClient) : DupClientSet × Bool :=
  let set := s.set.erase c
  let last := if s.last = some c then none else s.last
  if set.length = s.set.length then ({ s with set, last }, false)
  else
    let sendHistory := trim set s.sendHistory
    ({ set, sendHistory, last := last.or sendHistory.getLast? }, true)

end DupClientSet

namespace ClientSet

variable (s : ClientSet)

def len : Nat :=
  match s.dup with
  | some d => d.set.length
  | none => if s.activeClient.isSome then 1 else 0

def each : List SClient :=
  match s.dup with
  | some d => d.set
  | none => s.activeClient.toList

def pickActiveClient (isDisabled : SClient → Bool) : Option SClient :=
  match s.dup with
  | none => s.activeClient
  | some d => d.last.filter fun c => !isDisabled c

end ClientSet

namespace Registry

variable (r : Registry)

def joinDup (c : SClient) (was : Option SClient) : Option DupClientSet → Option DupClientSet × Int
  | none =>
    match was with
    | none => (none, 0)
    | some was => (some ⟨[c, was], some c, [was]⟩, 2)
  | some d => (some ⟨d.set.insert c, some c, d.sendHistory ++ [c]⟩, 1)

def registerClient (c : SClient) : Registry :=
  let cs := (r.clients.lookup c.key).getD .new
  let was := cs.activeClient
  let (dup, conns) := joinDup c was cs.dup
  { r with
    clients := r.clients.insert c.key ⟨some c, dup⟩
    isDup := match was with
      | none => r.isDup
      | some was => Function.update (Function.update r.isDup was true) c true
    dupClientKeys := r.dupClientKeys + (if cs.dup.isNone ∧ was.isSome then 1 else 0)
    dupClientConns := r.dupClientConns + conns
    curClients := r.curClients + 1 }

def logUnexpected (u : Unexpected) : Registry := { r with unexpected := r.unexpected ++ [u] }

inductive Leaving
  | returned
  | last
  | dup
  deriving DecidableEq

def demote (key : NodePublic) (dup : DupClientSet) : Registry :=
  match dup.set.head? with
  | none => r.logUnexpected .nilRemain
  | some remain =>
    { r with
      clients := r.clients.insert key ⟨some remain, none⟩
      dupClientConns := r.dupClientConns - 1
      dupClientKeys := r.dupClientKeys - 1
      isDisabled := Function.update r.isDisabled remain false
      isDup := Function.update r.isDup remain false }

def leaveDup (c : SClient) (set : ClientSet) (dup : DupClientSet) : Registry :=
  let (dup, removed) := dup.removeClient c
  let r := if removed then { r with dupClientConns := r.dupClientConns - 1 }
    else r.logUnexpected .dupClientSetDidNotShrink
  if dup.set.length = 1 then r.demote c.key dup
  else
    let set := { set with dup := some dup }
    { r with
      clients := r.clients.insert c.key
        { set with activeClient := set.pickActiveClient r.isDisabled } }

def unregisterClient (c : SClient) : Registry × Leaving :=
  match r.clients.lookup c.key with
  | none => (r.logUnexpected .clientsMapIsEmpty, .returned)
  | some set =>
    match set.dup with
    | none =>
      match set.activeClient with
      | none => (r.logUnexpected .activeClientIsNil, .returned)
      | some cur =>
        if cur ≠ c then (r.logUnexpected .activeClientIsNotC, .returned)
        else
          ({ r with clients := r.clients.erase c.key, curClients := r.curClients - 1 }, .last)
    | some dup =>
      let r := r.leaveDup c set dup
      ({ r with curClients := r.curClients - 1 }, .dup)

def mayNote (c : SClient) : Bool := r.isDup c && !r.isDisabled c

def inDup (c : SClient) : Option (ClientSet × DupClientSet) :=
  (r.clients.lookup c.key).bind fun cs => cs.dup.map fun dup => (cs, dup)

def disable (cs : ClientSet) : Registry :=
  { r with isDisabled := fun c => decide (c ∈ cs.each) || r.isDisabled c }

def noteClientActivity (c : SClient) : Registry :=
  match r.inDup c with
  | none => r
  | some (cs, dup) =>
    let (cs, dup) :=
      if r.dupPolicy = .lastWriterIsActive ∨ dup.last = none then
        ({ cs with activeClient := some c }, { dup with last := some c })
      else (cs, dup)
    if dup.sendHistory.getLast? = some c then
      { r with clients := r.clients.insert c.key { cs with dup := some dup } }
    else
      let fighting := r.dupPolicy = .disableFighters ∧ c ∈ dup.sendHistory
      let activeClient :=
        if fighting then cs.activeClient.filter fun a => !decide (a ∈ dup.set)
        else cs.activeClient
      let r := if fighting then r.disable { cs with dup := some dup } else r
      { r with
        clients := r.clients.insert c.key
          ⟨activeClient, some { dup with sendHistory := dup.sendHistory ++ [c] }⟩ }

end Registry

end ScaleTail.Derp
