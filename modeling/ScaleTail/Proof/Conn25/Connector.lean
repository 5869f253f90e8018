import ScaleTail.Conn25.Connector
import ScaleTail.Lib.Runs

/-! # What the filter hook of a connector lets in -/

namespace ScaleTail.Conn25
open Go Net Lib List Extension Connector Option

variable {c : Connector} {cfg : Config} {n : Peer} {tipr : TransitIPRequest} {a src : Addr}
  {transitIP : Option Addr} {v : AppAddr}

namespace Connector

def store (c : Connector) (n : Peer) (a : Addr) (tipr : TransitIPRequest) : Connector where
  transitIPs := c.transitIPs.insert a
    (((c.transitIPs.lookup a).getD ∅).insert tipr.transitIP ⟨tipr.app, tipr.destinationIP⟩)
  registrations := c.registrations ++ [⟨n, tipr.transitIP, tipr.app⟩]

theorem lookup_store (found : (c.store n a tipr).lookupBySrcIPAndTransitIP src transitIP = some v) :
    c.lookupBySrcIPAndTransitIP src transitIP = some v ∨
      src = a ∧ transitIP = tipr.transitIP ∧ v = ⟨tipr.app, tipr.destinationIP⟩ := by
  rw [lookupBySrcIPAndTransitIP, store] at found
  by_cases same : src = a
  · rw [same, AList.lookup_insert, bind_some] at found
    by_cases same' : transitIP = tipr.transitIP
    · rw [same', AList.lookup_insert] at found
      exact .inr ⟨same, same', (some.inj found).symm⟩
    rw [AList.lookup_insert_ne same'] at found
    rw [lookupBySrcIPAndTransitIP, same]
    cases peerMap : c.transitIPs.lookup a with
    | none =>
      rw [peerMap, getD_none, AList.lookup_empty] at found
      cases found
    | some =>
      rw [peerMap, getD_some] at found
      exact .inl found
  · rw [AList.lookup_insert_ne same] at found
    exact .inl found

def acceptedFor (n : Peer) (tipr : TransitIPRequest) : Option Addr :=
  if is4 tipr.transitIP = is4 tipr.destinationIP then
    if is4 tipr.transitIP then (Extension.peerIPs n).1 else (Extension.peerIPs n).2
  else none

theorem handleTransitIPRequest_eq (c : Connector) (n : Peer) (tipr : TransitIPRequest) :
    (c.handleTransitIPRequest n (peerIPs n).1 (peerIPs n).2 tipr).2 =
      (acceptedFor n tipr).elim c (c.store n · tipr) := by
  unfold handleTransitIPRequest acceptedFor
  by_cases family : is4 tipr.transitIP = is4 tipr.destinationIP
  · rw [if_neg (not_not.2 family), if_pos family]
    cases if is4 tipr.transitIP then (peerIPs n).1 else (peerIPs n).2 with
    | none | some => rfl
  · rw [if_pos family, if_neg family]
    rfl

end Connector

def Peer.Has (n : Peer) (a : Addr) : Prop := ∃ p ∈ n.addresses, p.isSingleIP ∧ p.addr = a

theorem keepPeerIP_has {kept : Option Addr × Option Addr} {ip : Prefix} (member : ip ∈ n.addresses)
    (has : ∀ a, kept.1 = some a ∨ kept.2 = some a → n.Has a) (a : Addr)
    (found : (keepPeerIP kept ip).1 = some a ∨ (keepPeerIP kept ip).2 = some a) :
    n.Has a := by
  unfold keepPeerIP at found
  split at found
  · exact has a found
  next single =>
    simp only [Bool.or_eq_true, Bool.not_eq_true, not_or] at single
    have own : n.Has ip.addr := ⟨ip, member, by simpa using single.1, rfl⟩
    split at found
    · rcases found with first | second
      · exact some.inj first ▸ own
      · exact has a (.inr second)
    · split at found
      · rcases found with first | second
        · exact has a (.inl first)
        · exact some.inj second ▸ own
      · exact has a found

theorem peerIPs_has (n : Peer) (a : Addr)
    (kept : (peerIPs n).1 = some a ∨ (peerIPs n).2 = some a) : n.Has a := by
  refine List.foldlRecOn n.addresses keepPeerIP
    (motive := fun kept => ∀ a, kept.1 = some a ∨ kept.2 = some a → n.Has a) ?_ ?_ a kept
  · rintro a (nothing | nothing) <;> cases nothing
  · exact fun kept has ip member => keepPeerIP_has member has

theorem acceptedFor_has (accepted : acceptedFor n tipr = some a) : n.Has a := by
  obtain ⟨-, accepted⟩ := ite_none_right_eq_some.1 accepted
  split at accepted
  · exact peerIPs_has n a (.inl accepted)
  · exact peerIPs_has n a (.inr accepted)

variable {es : List TransitIPRequest}

theorem handleEntries_keeps (P : Connector → Prop)
    (stores : ∀ c a, ∀ e ∈ es, e.app ∈ cfg.apps → acceptedFor n e = some a → P c →
      P (c.store n a e)) (seen : List (Option Addr)) (holds : P c) :
    P (handleEntries cfg n (peerIPs n).1 (peerIPs n).2 seen es c).2 := by
  induction es generalizing seen c with
  | nil => exact holds
  | cons e _ ih =>
    have rest := fun c a e' member => stores c a e' (mem_cons_of_mem e member)
    rw [handleEntries]
    split
    · exact ih rest seen holds
    split
    · exact ih rest seen holds
    next known =>
      apply ih rest
      rw [handleTransitIPRequest_eq]
      cases accepted : acceptedFor n e with
      | none => exact holds
      | some a => exact stores c a e mem_cons_self (by simpa using known) accepted holds

structure Connector.Sound (c : Connector) (cfg : Config) : Prop where
  within : ∀ src a v, c.lookupBySrcIPAndTransitIP src (some a) = some v →
    a ∈ cfg.transitSet a ∧ v.app ∈ cfg.apps
  registered : ∀ src transitIP v, c.lookupBySrcIPAndTransitIP src transitIP = some v →
    ∃ r ∈ c.registrations, r.transitIP = transitIP ∧ r.app = v.app ∧ r.peer.Has src

def TransitIPRequest.Within (cfg : Config) (n : Peer) (tipr : TransitIPRequest) : Prop :=
  tipr.app ∈ cfg.apps → (Connector.acceptedFor n tipr).isSome →
    ∀ a, tipr.transitIP = some a → a ∈ cfg.transitSet a

namespace Connector.Sound

theorem store (sound : c.Sound cfg) (accepted : acceptedFor n tipr = some a) (known : tipr.app ∈ cfg.apps)
    (within : tipr.Within cfg n) : (c.store n a tipr).Sound cfg where
  within src' a' v found := by
    rcases lookup_store found with old | ⟨-, same, rfl⟩
    · exact sound.within src' a' v old
    · exact ⟨within known (by rw [accepted]; rfl) a' same.symm, known⟩
  registered src' transitIP v found := by
    rcases lookup_store found with old | ⟨rfl, rfl, rfl⟩
    · obtain ⟨r, member, rest⟩ := sound.registered src' transitIP v old
      exact ⟨r, mem_append_left _ member, rest⟩
    · exact ⟨⟨n, tipr.transitIP, tipr.app⟩, mem_append_right _ (mem_singleton_self _), rfl, rfl,
        acceptedFor_has accepted⟩

theorem handleEntries (sound : c.Sound cfg)
    (within : ∀ e ∈ es, e.Within cfg n) (seen : List (Option Addr)) :
    (handleEntries cfg n (peerIPs n).1 (peerIPs n).2 seen es c).2.Sound cfg :=
  handleEntries_keeps (·.Sound cfg) (fun _ _ e member known accepted sound =>
    sound.store accepted known (within e member)) seen sound

end Connector.Sound

namespace Extension

/-- The entries that a request stores are within the transit addresses, and a new configuration
keeps those stored and their apps. -/
def Meets (c : Extension) : Event → Prop
  | .request n transitIPs => c.config.isConfigured → ∀ e ∈ transitIPs, e.Within c.config n
  | .reconfig cfg => ∀ src a v, c.connector.lookupBySrcIPAndTransitIP src (some a) = some v →
      a ∈ cfg.transitSet a ∧ v.app ∈ cfg.apps

theorem step_sound {c : Extension} {event : Event} (sound : c.connector.Sound c.config)
    (meets : c.Meets event) : (c.step event).connector.Sound (c.step event).config := by
  cases event with
  | request =>
    rw [step, handleConnectorTransitIPRequest]
    split
    next configured => exact sound.handleEntries (meets configured) []
    · exact sound
  | reconfig => exact ⟨meets, sound.registered⟩

theorem run_sound {c : Extension} (sound : c.connector.Sound c.config) {events : List Event}
    (meets : Along step Meets c events) :
    (events.foldl step c).connector.Sound (events.foldl step c).config := by
  induction events generalizing c with
  | nil => exact sound
  | cons _ _ ih => exact ih (step_sound sound meets.1) meets.2

theorem newConn25_sound : newConn25.connector.Sound newConn25.config := by
  constructor
  · intro src a v found
    cases found
  · intro src transitIP v found
    cases found

theorem family_of_run (events : List Event) (src : Addr) (transitIP : Option Addr) (v : AppAddr)
    (found : (events.foldl step newConn25).connector.lookupBySrcIPAndTransitIP src transitIP = some v) :
    is4 transitIP = is4 v.addr := by
  induction events using List.reverseRecOn generalizing src transitIP v with
  | nil => cases found
  | append_singleton _ event ih =>
    rw [foldl_append, foldl_cons, foldl_nil] at found
    cases event with
    | reconfig => exact ih src transitIP v found
    | request =>
      rw [step, handleConnectorTransitIPRequest] at found
      split at found
      · refine handleEntries_keeps (fun c => ∀ src transitIP v,
          c.lookupBySrcIPAndTransitIP src transitIP = some v →
            is4 transitIP = is4 v.addr) ?_ [] ih src transitIP v found
        intro c a e member known accepted families src transitIP v found
        rcases lookup_store found with old | ⟨-, rfl, rfl⟩
        · exact families src transitIP v old
        obtain ⟨same, accepted⟩ := ite_none_right_eq_some.1 accepted
        exact same
      · exact ih src transitIP v found

/-- A packet let in goes from an address of a peer to a transit address which it has registered, for
an app that is configured. -/
theorem confined_of_run (events : List Event) (meets : Along step Meets newConn25 events) (p : Parsed)
    (allowed : (events.foldl step newConn25).connector.packetFilterAllow p = true) :
    p.dst.addr ∈ (events.foldl step newConn25).config.transitSet p.dst.addr ∧
      ∃ r ∈ (events.foldl step newConn25).connector.registrations,
        r.transitIP = some p.dst.addr ∧ r.peer.Has p.src.addr ∧
        r.app ∈ (events.foldl step newConn25).config.apps := by
  have sound := run_sound newConn25_sound meets
  obtain ⟨v, found⟩ := isSome_iff_exists.1 allowed
  obtain ⟨within, known⟩ := sound.within _ _ v found
  obtain ⟨r, member, transit, app, has⟩ := sound.registered _ _ v found
  exact ⟨within, r, member, transit, has, app ▸ known⟩

end Extension

namespace Sample

def config : Config where
  isConfigured := true
  apps := [[97]]
  ipSets := { emptyIPSets with v4Transit := ⟨[⟨.v4 0xa9fe0000, .v4 0xa9fe007f, by decide⟩], by decide⟩ }

def peer : Peer := ⟨[110], [.single (.v4 0x64400001)]⟩

def request (transitIP : Addr) : Extension.Event :=
  .request peer [⟨some transitIP, some (.v4 0x0a000002), [97]⟩]

def events (transitIP : Addr) : List Extension.Event := [.reconfig config, request transitIP]

def packet (dst : Addr) : Parsed := ⟨[], 0, 4, .tcp, ⟨.v4 0x64400001, 1⟩, ⟨dst, 2⟩, 0⟩

def reached (transitIP : Addr) : Extension :=
  (events transitIP).foldl Extension.step .newConn25

def transit : Addr := .v4 0xa9fe0001

def outside : Addr := .v4 0x0a000001

theorem reached_facts :
    (reached transit).connector.packetFilterAllow (packet transit) = true ∧
    (reached outside).connector.packetFilterAllow (packet outside) = true ∧
    transit ∈ config.transitSet transit ∧ outside ∉ (reached outside).config.transitSet outside := by
  decide +kernel

theorem transit_confined : transit ∈ (reached transit).config.transitSet transit ∧
    ∃ r ∈ (reached transit).connector.registrations, r.transitIP = some transit ∧
      r.peer.Has (packet transit).src.addr ∧ r.app ∈ (reached transit).config.apps := by
  refine Extension.confined_of_run (events transit) ⟨?_, ?_, trivial⟩ (packet transit) reached_facts.1
  · intro src a v found
    cases found
  · intro _ e member _ _ a same
    cases mem_singleton.1 member
    cases same
    exact reached_facts.2.2.1

/-- A packet to an address outside of the transit addresses, which the peer has registered. -/
theorem outside_allowed :
    (reached outside).connector.packetFilterAllow (packet outside) = true ∧
      (packet outside).dst.addr ∉ (reached outside).config.transitSet (packet outside).dst.addr :=
  ⟨reached_facts.2.1, reached_facts.2.2.2⟩

end Sample

end ScaleTail.Conn25
