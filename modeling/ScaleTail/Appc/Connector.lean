import ScaleTail.Net.Addr
import ScaleTail.Go.Strings

/-!
# The app connector

The routes that an app connector advertises for the domains and routes of its configuration, with
the queue by which updates and advertisements are run in order.
-/

namespace ScaleTail.Appc
open Go Net

instance : DecidableEq Prefix := fun p q =>
  decidable_of_iff (p.addr = q.addr ∧ p.bits = q.bits) <| by
    cases p
    cases q
    simp

abbrev Domains := AList fun _ : Bytes => List Addr

def hasSuffix (name suffix : Bytes) : Bool :=
  let name := trimSuffix name (bytes ".")
  let suffix := trimPrefix (trimSuffix suffix (bytes ".")) (bytes ".")
  let nameBase := trimSuffix name suffix
  decide (nameBase.length < name.length) && (bytes ".").isSuffixOf nameBase

/-- What the functions on the queue do, in the pieces between which another goroutine may run. -/
inductive Action
  | updateRoutes (routes : List Prefix)
  | updateDomains (domains : List Bytes)
  | advertise (routes : List Prefix)
  | unadvertise (routes : List Prefix)
  | record (domain : Bytes) (routes : List Prefix)

structure State where
  domains : Domains
  wildcards : List Bytes
  controlRoutes : List Prefix
  queue : List Action
  advertised : List Prefix
  configured : List Bytes

def State.init : State := ⟨∅, [], [], [], [], []⟩

def hasDomainAddr (domains : Domains) (domain : Bytes) (addr : Addr) : Bool :=
  ((domains.lookup domain).getD []).contains addr

def addDomainAddr (domains : Domains) (domain : Bytes) (addr : Addr) : Domains :=
  domains.insert domain (((domains.lookup domain).getD []) ++ [addr])

def takeNames (names : List Bytes) (old : Domains) : Domains × Domains :=
  names.foldl (fun p d => (p.1.insert d ((p.2.lookup d).getD []), p.2.erase d)) (∅, old)

def takeWildcards (wildcards : List Bytes) (entries : List (Sigma fun _ : Bytes => List Addr))
    (new : Domains) : Domains :=
  (entries.filter fun e => wildcards.any (hasSuffix e.1)).foldl (fun m e => m.insert e.1 e.2) new

def droppedRoutes (wildcards : List Bytes) (entries : List (Sigma fun _ : Bytes => List Addr)) :
    List Prefix :=
  (entries.filter fun e => !wildcards.any (hasSuffix e.1)).flatMap fun e => e.2.map Prefix.single

section Names
variable [Unicode]

def lowerNames (domains : List Bytes) : List Bytes := (domains.map toLower).filter (· ≠ [])

def wildcardsOf (domains : List Bytes) : List Bytes :=
  ((lowerNames domains).filter ((bytes "*.").isPrefixOf ·)).map (List.drop 2)

def namesOf (domains : List Bytes) : List Bytes :=
  (lowerNames domains).filter (!(bytes "*.").isPrefixOf ·)

def State.updateDomains (s : State) (domains : List Bytes) : State :=
  let (new, old) := takeNames (namesOf domains) s.domains
  let toRemove := droppedRoutes (wildcardsOf domains) old.entries
  { s with
    domains := takeWildcards (wildcardsOf domains) old.entries new
    wildcards := wildcardsOf domains
    configured := namesOf domains
    queue := if toRemove = [] then s.queue else s.queue ++ [.unadvertise toRemove] }

end Names

def routesWithout (a b : List Prefix) : List Prefix := a.filter (· ∉ b)

def State.inside (s : State) (r : Prefix) : List Addr :=
  (s.domains.entries.flatMap (·.2)).filter fun a => r.contains a && Prefix.single a ≠ r

/-- The loop goes on with the next route at the first address that it finds. Maps are walked in any
order, so that the address may be any of those covered. -/
def picksOk (s : State) : List Prefix → List (Option Addr) → Bool
  | [], [] => true
  | r :: routes, pick :: picks =>
    (match pick with
      | none => (s.inside r).isEmpty
      | some a => (s.inside r).contains a) && picksOk s routes picks
  | _, _ => false

def State.updateRoutes (s : State) (routes : List Prefix) (picks : List (Option Addr)) :
    Option State :=
  if s.controlRoutes = routes then some s
  else if picksOk s routes picks then
    let toRemove := routesWithout s.controlRoutes routes ++ (picks.filterMap id).map Prefix.single
    some { s with
      controlRoutes := routes
      queue := s.queue ++ [.advertise routes, .unadvertise toRemove] }
  else none

def recordRoutes (domains : Domains) (domain : Bytes) (routes : List Prefix) : Domains :=
  routes.foldl (fun m r =>
    if r.isSingleIP && !hasDomainAddr m domain r.addr then addDomainAddr m domain r.addr else m)
    domains

def advertiseRoute (advertised routes : List Prefix) : List Prefix :=
  advertised ++ routes.filter (· ∉ advertised)

def unadvertiseRoute (advertised routes : List Prefix) : List Prefix :=
  advertised.filter (· ∉ routes)

inductive Answer
  | cname (name target : Bytes)
  | addr (name : Bytes) (a : Addr)
  | other

abbrev Chain := AList fun _ : Bytes => Bytes

section Observe
variable [Unicode]

def dnsName (name : Bytes) : Bytes := trimSuffix (toLower name) (bytes ".")

/-- The loop over the answers. It does not end at a record for the root domain, whose answer is not
skipped. -/
def parseAnswers : List Answer → Chain → Domains → Option (Chain × Domains)
  | [], chain, records => some (chain, records)
  | .other :: rest, chain, records => parseAnswers rest chain records
  | .cname name target :: rest, chain, records =>
    if dnsName name = [] then none
    else if dnsName target = [] then parseAnswers rest chain records
    else parseAnswers rest (chain.insert (dnsName target) (dnsName name)) records
  | .addr name a :: rest, chain, records =>
    if dnsName name = [] then none
    else parseAnswers rest chain (addDomainAddr records (dnsName name) a)

end Observe

/-- The rounds of the loop are bounded; on a circle of CNAME records it does not end. A domain that
a wildcard matches is entered, but the loop goes on if it is the target of a CNAME record. -/
def findRoutedDomain (wildcards : List Bytes) (chain : Chain) :
    Nat → Domains → Bytes → Option (Domains × Bytes × Bool)
  | 0, _, _ => none
  | rounds + 1, domains, domain =>
    if domain ∈ domains then some (domains, domain, true)
    else
      let isRouted := wildcards.any (hasSuffix domain)
      let domains := if isRouted then domains.insert domain [] else domains
      match chain.lookup domain with
      | none => some (domains, domain, isRouted)
      | some next => findRoutedDomain wildcards chain rounds domains next

def knowAddr (controlRoutes : List Prefix) (domain : Bytes) (p : Domains × List Prefix) (addr : Addr) :
    Domains × List Prefix :=
  if hasDomainAddr p.1 domain addr then p
  else if controlRoutes.any (·.contains addr) then (addDomainAddr p.1 domain addr, p.2)
  else (p.1, p.2 ++ [Prefix.single addr])

def knowAddrs (controlRoutes : List Prefix) (domain : Bytes) (domains : Domains) (addrs : List Addr) :
    Domains × List Prefix :=
  addrs.foldl (knowAddr controlRoutes domain) (domains, [])

def State.observeRecord (rounds : Nat) (chain : Chain) (s : State)
    (e : Sigma fun _ : Bytes => List Addr) : Option State :=
  match findRoutedDomain s.wildcards chain rounds s.domains e.1 with
  | none => none
  | some (domains, domain, isRouted) =>
    if isRouted then
      let (domains, toAdvertise) := knowAddrs s.controlRoutes domain domains e.2
      some { s with
        domains := domains
        queue := if toAdvertise = [] then s.queue
          else s.queue ++ [.advertise toAdvertise, .record domain toAdvertise] }
    else some { s with domains := domains }

def State.observeDNSResponse [Unicode] (s : State) (answers : List Answer)
    (order : List (Sigma fun _ : Bytes => List Addr)) (rounds : Nat) : Option State :=
  match parseAnswers answers ∅ ∅ with
  | none => none
  | some (chain, records) =>
    if order.isPerm records.entries then order.foldlM (State.observeRecord rounds chain) s else none

inductive Op
  | updateDomainsAndRoutes (domains : List Bytes) (routes : List Prefix)
  | updateDomains (domains : List Bytes)
  | observeDNSResponse (answers : List Answer) (order : List (Sigma fun _ : Bytes => List Addr))
      (rounds : Nat)
  | run (picks : List (Option Addr))

def State.runAction [Unicode] (s : State) (picks : List (Option Addr)) : Action → Option State
  | .updateRoutes routes => s.updateRoutes routes picks
  | .updateDomains domains => some (s.updateDomains domains)
  | .advertise routes => some { s with advertised := advertiseRoute s.advertised routes }
  | .unadvertise routes => some { s with advertised := unadvertiseRoute s.advertised routes }
  | .record domain routes => some { s with domains := recordRoutes s.domains domain routes }

def State.step [Unicode] (s : State) : Op → Option State
  | .updateDomainsAndRoutes domains routes =>
    some { s with queue := s.queue ++ [.updateRoutes routes, .updateDomains domains] }
  | .updateDomains domains => some { s with queue := s.queue ++ [.updateDomains domains] }
  | .observeDNSResponse answers order rounds => s.observeDNSResponse answers order rounds
  | .run picks =>
    match s.queue with
    | [] => none
    | action :: rest => { s with queue := rest }.runAction picks action

end ScaleTail.Appc
