import ScaleTail.Proof.Relay.Registry

/-! # Allocation -/

namespace ScaleTail.Relay
open Lib Go Net List UInt64 AList Option

theorem newSortedPairOfDiscoPublic_comm (a b : DiscoPublic) :
    newSortedPairOfDiscoPublic a b = newSortedPairOfDiscoPublic b a := by
  unfold newSortedPairOfDiscoPublic
  by_cases less : a < b
  · rw [dif_pos less, dif_neg (BitVec.lt_asymm less)]
  by_cases greater : b < a
  · rw [dif_neg less, dif_pos greater]
  · cases BitVec.le_antisymm (BitVec.not_lt.1 greater) (BitVec.not_lt.1 less)
    rfl

variable {s t : Server} {discoA discoB : DiscoPublic}

theorem Server.Serves.symm (serves : s.Serves discoA discoB) :
    s.Serves discoB discoA :=
  ⟨serves.opened, serves.ready, fun own => serves.clients own.symm⟩

variable {p : Nat} {e : ServerEndpoint}

theorem allocateEndpoint_of_held (serves : s.Serves discoA discoB)
    (held : s.serverEndpointByDisco.lookup (newSortedPairOfDiscoPublic discoA discoB) = some p)
    (here : s.endpoints[p]? = some e) (now : Time) :
    s.allocateEndpoint discoA discoB now = (.ok (s.allocation e), s) := by
  have notClosed : ¬ s.closed = true := by
    rw [serves.opened]
    exact Bool.false_ne_true
  rw [Server.allocateEndpoint, if_neg notClosed, if_neg serves.ready, if_neg serves.clients]
  dsimp only
  rw [held, bind_some, here]

def Server.Live (s : Server) (p : Nat) (e : ServerEndpoint) : Prop :=
  s.endpoints[p]? = some e ∧ s.serverEndpointByVNI.lookup e.vni = some p ∧
    s.serverEndpointByDisco.lookup e.discoPubKeys = some p

theorem Registered.live (reg : Registered s) (here : s.endpoints[p]? = some e) (opened : s.closed = false)
    (unclosed : e.closed = false) : s.Live p e :=
  have held : s.Open p e.identity := ⟨opened, identity_of_getElem? here, unclosed⟩
  ⟨here, (reg.vni _ p).2 ⟨_, held, rfl⟩, (reg.disco _ p).2 ⟨_, held, rfl⟩⟩

theorem lamportID_lt (reg : Registered s) (few : s.endpoints.length < 2 ^ 64) {q : Nat}
    {f : ServerEndpoint} (less : p < q) (atP : s.endpoints[p]? = some e)
    (atQ : s.endpoints[q]? = some f) : e.lamportID < f.lamportID := by
  have first : e.lamportID = ofNat (p + 1) :=
    reg.lamport p e.identity (identity_of_getElem? atP)
  have second : f.lamportID = ofNat (q + 1) :=
    reg.lamport q f.identity (identity_of_getElem? atQ)
  have inside := (List.getElem?_eq_some_iff.1 atQ).1
  rw [first, second, lt_iff_toNat_lt, toNat_ofNat', toNat_ofNat',
    Nat.mod_eq_of_lt (by omega), Nat.mod_eq_of_lt (by omega)]
  omega

section Run
variable [Crypto]

/-- In every later state the pair gets the endpoint, unless it was closed: by a collection at which its
time had passed. -/
def Returned (discoA discoB : DiscoPublic) (p : Nat) (e : ServerEndpoint) (t : Server) : Prop :=
  ∀ ops u, Run Server.step t ops u → ∃ e', u.endpoints[p]? = some e' ∧
    e'.discoPubKeys = e.discoPubKeys ∧ e'.vni = e.vni ∧ e'.lamportID = e.lamportID ∧
    (e'.closed = false → u.Serves discoA discoB → ∀ now,
      u.allocateEndpoint discoA discoB now = (.ok (u.allocation e'), u) ∧
      u.allocateEndpoint discoB discoA now = (.ok (u.allocation e'), u)) ∧
    (e'.closed = true → ∃ before now after v f, ops = before ++ .endpointGC now :: after ∧
      Run Server.step t before v ∧ v.endpoints[p]? = some f ∧ f.closed = false ∧
      f.Elapsed v.bindLifetime v.steadyStateLifetime now)

structure Allocated (s : Server) : Prop where
  byVNI : ∀ v p, s.serverEndpointByVNI.lookup v = some p → ∃ e, e.vni = v ∧ s.Live p e
  byDisco : ∀ k p, s.serverEndpointByDisco.lookup k = some p → ∃ e, e.discoPubKeys = k ∧ s.Live p e
  range : ∀ p e, s.Live p e → minVNI ≤ e.vni ∧ e.vni ≤ maxVNI
  unique : ∀ p q e f, s.Live p e → s.Live q f → e.vni = f.vni → p = q
  lamport : s.endpoints.length < 2 ^ 64 → ∀ (p q : Nat) (e f : ServerEndpoint), p < q →
    s.endpoints[p]? = some e → s.endpoints[q]? = some f → e.lamportID < f.lamportID
  returned : ∀ discoA discoB now r t, s.allocateEndpoint discoA discoB now = (.ok r, t) →
    ∃ p e, t.Live p e ∧ e.closed = false ∧ r = t.allocation e ∧ Returned discoA discoB p e t
  exhausted : ∀ discoA discoB now, (s.allocateEndpoint discoA discoB now).1 = .error .vniPoolExhausted →
    ∀ v, minVNI ≤ v → v ≤ maxVNI → s.serverEndpointByVNI.lookup v ≠ none
  free : ∀ discoA discoB now, s.Serves discoA discoB →
    s.serverEndpointByDisco.lookup (newSortedPairOfDiscoPublic discoA discoB) = none →
    (∃ v, minVNI ≤ v ∧ v ≤ maxVNI ∧ s.serverEndpointByVNI.lookup v = none) →
    ∃ r, (s.allocateEndpoint discoA discoB now).1 = .ok r ∧ minVNI ≤ r.vni ∧ r.vni ≤ maxVNI ∧
      s.serverEndpointByVNI.lookup r.vni = none

theorem Registered.returned (reg : Registered t) (here : t.endpoints[p]? = some e)
    (unclosed : e.closed = false) (pair : e.discoPubKeys = newSortedPairOfDiscoPublic discoA discoB) :
    Returned discoA discoB p e t := by
  intro ops u run
  obtain ⟨closed, at_, -⟩ := kept_of_run run p e.identity (identity_of_getElem? here)
  obtain ⟨e', here', same⟩ := map_eq_some_iff.1 at_
  have pair' : e'.discoPubKeys = e.discoPubKeys := congrArg Identity.pair same
  refine ⟨e', here', pair', congrArg Identity.vni same, congrArg Identity.lamportID same, ?_,
    elapsed_of_run run here unclosed here'⟩
  intro opened serves now
  have held : u.serverEndpointByDisco.lookup (newSortedPairOfDiscoPublic discoA discoB) = some p := by
    rw [← pair, ← pair']
    exact ((reg.run run).live here' serves.opened opened).2.2
  refine ⟨allocateEndpoint_of_held serves held here' now, ?_⟩
  rw [newSortedPairOfDiscoPublic_comm] at held
  exact allocateEndpoint_of_held serves.symm held here' now

theorem allocated_of_run {k : DiscoPublic} {ops : List Op} (run : Run Server.step (newServer k) ops s) :
    Allocated s := by
  have reg := (newServer_registered k).run run
  constructor
  case byVNI =>
    intro v p found
    obtain ⟨_, ⟨opened, at_, unclosed⟩, rfl⟩ := (reg.vni v p).1 found
    obtain ⟨e, here, rfl⟩ := map_eq_some_iff.1 at_
    exact ⟨e, rfl, reg.live here opened unclosed⟩
  case byDisco =>
    intro k p found
    obtain ⟨_, ⟨opened, at_, unclosed⟩, rfl⟩ := (reg.disco k p).1 found
    obtain ⟨e, here, rfl⟩ := map_eq_some_iff.1 at_
    exact ⟨e, rfl, reg.live here opened unclosed⟩
  case range =>
    intro p e live
    exact reg.range p e.identity (identity_of_getElem? live.1)
  case unique =>
    intro p q e f live live' same
    have byVNI := live.2.1
    rw [same, live'.2.1] at byVNI
    exact (some.inj byVNI).symm
  case lamport =>
    intro few p q e f less atP atQ
    exact lamportID_lt reg few less atP atQ
  case returned =>
    intro discoA discoB now r t outcome
    have reg' := reg.allocateEndpoint discoA discoB now
    have allocates := reg.allocates discoA discoB now
    rw [outcome] at reg' allocates
    cases allocates with
    | @held p e found here =>
      obtain ⟨_, ⟨opened, at_, unclosed⟩, pair⟩ := (reg.disco _ p).1 found
      cases (identity_of_getElem? here).symm.trans at_
      exact ⟨p, e, reg.live here opened unclosed, unclosed, rfl, reg.returned here unclosed pair⟩
    | @new j t opened absent free same =>
      have here : t.2.endpoints[s.endpoints.length]? = some t.1 := by
        rw [same]
        exact getElem?_concat_length
      have unclosed : t.1.closed = false := by rw [same]; rfl
      have opened : t.2.closed = false := by rw [same]; exact opened
      refine ⟨_, t.1, reg'.live here opened unclosed, unclosed, rfl, reg'.returned here unclosed ?_⟩
      rw [same]
      rfl
  case exhausted =>
    intro discoA discoB now outcome
    have allocates := reg.allocates discoA discoB now
    generalize s.allocateEndpoint discoA discoB now = r at outcome allocates
    cases allocates with
    | refused _ other => exact absurd (Except.error.inj outcome) other
    | held | new => cases outcome
    | full all => exact all
  case free =>
    intro discoA discoB now serves absent ⟨v, low, high, unused⟩
    have allocates := reg.allocates discoA discoB now
    generalize s.allocateEndpoint discoA discoB now = r at allocates
    cases allocates with
    | refused refused => exact absurd serves refused
    | held found =>
      rw [absent] at found
      cases found
    | full all => exact absurd unused (all v low high)
    | @new j t _ absent free same =>
      have vni : t.1.vni = vniAt j := by rw [same]; rfl
      refine ⟨_, rfl, ?_⟩
      dsimp only [Server.allocation]
      rw [vni]
      exact ⟨(range_vniAt j).1, (range_vniAt j).2, free⟩

end Run

structure Idle (s : Server) (j : Nat) : Prop where
  byVNI : s.serverEndpointByVNI = ∅
  byDisco : s.serverEndpointByDisco = ∅
  next : s.nextVNI = vniAt j
  lifetime : s.bindLifetime = 30 * second

def Server.grown (s : Server) (j : Nat) (es : List ServerEndpoint) : Server :=
  { s with
    nextVNI := vniAt (j + es.length)
    lamportID := s.lamportID + UInt64.ofNat es.length
    endpoints := s.endpoints ++ es }

def cycle (discoA discoB : DiscoPublic) (now : Time) : List Op :=
  [.allocateEndpoint discoA discoB now, .endpointGC (now + 31 * second)]

def cycles (discoA discoB : DiscoPublic) : Nat → List Op
  | 0 => []
  | n + 1 => cycles discoA discoB n ++ cycle discoA discoB (Int64.ofNat (n + 1) * 31 * second)

section Idle
variable {j : Nat} {discoA discoB : DiscoPublic}

theorem Idle.grown (idle : Idle s j) (es : List ServerEndpoint) :
    Idle (s.grown j es) (j + es.length) :=
  ⟨idle.byVNI, idle.byDisco, rfl, idle.lifetime⟩

theorem Server.Serves.grown (serves : s.Serves discoA discoB) (j : Nat) (es : List ServerEndpoint) :
    (s.grown j es).Serves discoA discoB :=
  { serves with }

theorem Idle.allocateEndpoint (idle : Idle s j) (serves : s.Serves discoA discoB) (now : Time) :
    (s.allocateEndpoint discoA discoB now).2 = (s.insertEndpoint
      (newSortedPairOfDiscoPublic discoA discoB) (vniAt j) (vniAt (j + 1)) now).2 := by
  have notClosed : ¬ s.closed = true := by
    rw [serves.opened]
    exact Bool.false_ne_true
  have next : s.getNextVNILocked = (some (vniAt j), vniAt (j + 1)) := by
    rw [Server.getNextVNILocked, idle.next, totalPossibleVNI_eq, Server.nextVNILoop, idle.byVNI,
      lookup_empty, advanceVNI_vniAt]
    rfl
  rw [Server.allocateEndpoint, if_neg notClosed, if_neg serves.ready, if_neg serves.clients]
  dsimp only
  rw [idle.byDisco, lookup_empty, bind_none, next]

theorem modify_concat {α : Type} (l : List α) (a : α) (f : α → α) :
    (l ++ [a]).modify l.length f = l ++ [f a] := by
  induction l with
  | nil => rfl
  | cons _ _ ih => rw [cons_append, length_cons, modify_succ_cons, ih, cons_append]

theorem insert_erase {α : Type} [DecidableEq α] (k : α) (p : Nat) :
    ((∅ : AList fun _ : α => Nat).insert k p).erase k = ∅ := by
  apply AList.ext
  simp [AList.erase, AList.insert, List.kerase]

theorem Idle.endpointGC (idle : Idle s j) (pair : SortedPairOfDiscoPublic) (now : Time) :
    ∃ e, (s.insertEndpoint pair (vniAt j) (vniAt (j + 1)) now).2.endpointGC (now + 31 * second) =
      s.grown j [e] := by
  generalize inserted : s.insertEndpoint pair (vniAt j) (vniAt (j + 1)) now = t
  have entries : t.2.serverEndpointByDisco.entries = [⟨pair, s.endpoints.length⟩] := by
    rw [← inserted]
    dsimp only [Server.insertEndpoint]
    rw [idle.byDisco]
    rfl
  have here : t.2.endpoints[s.endpoints.length]? = some t.1 := by
    rw [← inserted]
    exact getElem?_concat_length
  have expired : t.1.isExpiredLocked (now + 31 * second) t.2.bindLifetime t.2.steadyStateLifetime =
      true := by
    rw [← inserted]
    dsimp only [Server.insertEndpoint]
    rw [idle.lifetime]
    unfold ServerEndpoint.isExpiredLocked
    rw [Int64.add_comm, Int64.add_sub_cancel]
    rfl
  refine ⟨{ t.1 with closed := true }, ?_⟩
  rw [Server.endpointGC, entries, foldl_cons, foldl_nil, Server.expireOne, here]
  dsimp only
  rw [if_pos expired, ← inserted]
  dsimp only [Server.insertEndpoint, Server.grown]
  rw [idle.byDisco, idle.byVNI, insert_erase, insert_erase]
  congr 1
  exact modify_concat ..

theorem run_cycle [Crypto] (idle : Idle s j) (serves : s.Serves discoA discoB) (now : Time) :
    ∃ e, Run Server.step s (cycle discoA discoB now) (s.grown j [e]) := by
  obtain ⟨e, same⟩ := idle.endpointGC (newSortedPairOfDiscoPublic discoA discoB) now
  refine ⟨e, run_of_foldlM ?_⟩
  rw [← same, ← idle.allocateEndpoint serves now]
  rfl

theorem run_cycles [Crypto] (idle : Idle s j) (serves : s.Serves discoA discoB) (n : Nat) :
    ∃ es, es.length = n ∧ Run Server.step s (cycles discoA discoB n) (s.grown j es) := by
  induction n with
  | zero =>
    have same : s.grown j [] = s := by
      rw [Server.grown, append_nil, length_nil, Nat.add_zero, ← idle.next]
      congr 1
      exact add_zero _
    refine ⟨[], rfl, ?_⟩
    rw [same]
    exact .refl
  | succ n ih =>
    obtain ⟨es, length, run⟩ := ih
    obtain ⟨e, last⟩ := run_cycle (idle.grown es) (serves.grown j es)
      (Int64.ofNat (n + 1) * 31 * second)
    refine ⟨es ++ [e], by rw [length_append, length]; rfl, ?_⟩
    have same : (s.grown j es).grown (j + es.length) [e] = s.grown j (es ++ [e]) := by
      dsimp only [Server.grown]
      congr 1
      · rw [length_append, ofNat_add, add_assoc]
      · rw [length_append, Nat.add_assoc]
      · exact append_assoc ..
    rw [← same]
    exact run.trans last

end Idle

namespace Sample

abbrev crypto : Crypto where
  mac secret _ := secret
  openBox _ b := some b

attribute [local instance] crypto

def serverKey : DiscoPublic := 1
def keyA : DiscoPublic := 2
def keyB : DiscoPublic := 3

def serverAddr : AddrPort := ⟨.v4 0x01020304, 7777⟩

def ready : Server := { newServer serverKey with staticAddrPorts := [serverAddr] }

theorem run_ready : Run Server.step (newServer serverKey) [.setAddrPorts [serverAddr] []] ready :=
  run_of_foldlM rfl

theorem ready_idle : Idle ready 0 := ⟨rfl, rfl, rfl, rfl⟩

theorem ready_serves : ready.Serves keyA keyB := ⟨rfl, by decide, by decide⟩

def one : Server := (ready.allocateEndpoint keyA keyB 0).2

theorem one_allocated : Run Server.step (newServer serverKey)
    [.setAddrPorts [serverAddr] [], .allocateEndpoint keyA keyB 0] one ∧ Allocated one :=
  have run := run_ready.snoc rfl
  ⟨run, allocated_of_run run⟩

theorem after_cycles (n : Nat) : ∃ s e f, Run Server.step (newServer serverKey)
    (.setAddrPorts [serverAddr] [] :: cycles keyA keyB n ++ [.allocateEndpoint keyA keyB 0]) s ∧
    s.endpoints[0]? = some e ∧ e.lamportID = 1 ∧ s.Live n f ∧ f.lamportID = ofNat (n + 1) := by
  obtain ⟨es, length, run⟩ := run_cycles ready_idle ready_serves n
  have idle := ready_idle.grown es
  have allocated : (ready.grown 0 es).step (.allocateEndpoint keyA keyB 0) = some _ :=
    congrArg some (idle.allocateEndpoint (ready_serves.grown 0 es) 0)
  have run := (run_ready.trans run).snoc allocated
  have reg := (newServer_registered serverKey).run run
  generalize inserted : (ready.grown 0 es).insertEndpoint (newSortedPairOfDiscoPublic keyA keyB)
    (vniAt (0 + es.length)) (vniAt (0 + es.length + 1)) 0 = t at run reg
  have last : t.2.endpoints[n]? = some t.1 := by
    rw [← inserted, ← length]
    exact getElem?_concat_length
  have opened : t.2.closed = false ∧ t.1.closed = false := by
    rw [← inserted]
    exact ⟨rfl, rfl⟩
  have first : 0 < t.2.endpoints.length := (Nat.zero_le n).trans_lt (List.getElem?_eq_some_iff.1 last).1
  refine ⟨t.2, t.2.endpoints[0], t.1, run, getElem?_eq_getElem first, ?_,
    reg.live last opened.1 opened.2, ?_⟩
  · exact reg.lamport 0 _ (identity_of_getElem? (getElem?_eq_getElem first))
  · exact reg.lamport n t.1.identity (identity_of_getElem? last)

theorem lamportID_wraps : ∃ s e f, Run Server.step (newServer serverKey)
    (.setAddrPorts [serverAddr] [] :: cycles keyA keyB (2 ^ 64) ++ [.allocateEndpoint keyA keyB 0]) s ∧
    s.endpoints[0]? = some e ∧ s.Live (2 ^ 64) f ∧ ¬ e.lamportID < f.lamportID := by
  obtain ⟨s, e, f, run, first, lamportID, live, lamportID'⟩ := after_cycles (2 ^ 64)
  refine ⟨s, e, f, run, first, live, ?_⟩
  rw [lamportID, lamportID']
  decide

end Sample

end ScaleTail.Relay
