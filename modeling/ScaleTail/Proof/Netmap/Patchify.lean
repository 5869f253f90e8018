import ScaleTail.Proof.Netmap.Fields

/-! # Changed peers as patches -/

namespace ScaleTail.Netmap

/-- What `peerChangeDiff` compares of what patches do not carry. -/
def Node.compared (n : Node) : Node := { n.rest with capabilities := [], dataPlaneAuditLogID := "" }

theorem patchable_iff {was n : Node} : patchable was n ↔ was.compared = n.compared := by
  cases was
  cases n
  simp [patchable, Node.compared, Node.rest]

def diffField (n : Node) : {α : Type} → Field α → α → Option α
  | _, .derp, was => if was ≠ n.homeDERP ∧ n.homeDERP ≠ 0 then some n.homeDERP else none
  | _, .cap, was => if was ≠ n.cap ∧ n.cap ≠ 0 then some n.cap else none
  | _, .capMap, was => if capMapChanged was n.capMap then some n.capMap else none
  | _, .endpoints, was => if was ≠ n.endpoints.getD [] then n.endpoints else none
  | _, .key, was => if was ≠ n.key then some n.key else none
  | _, .keySignature, was => if was ≠ n.keySignature.getD [] then n.keySignature else none
  | _, .discoKey, was => if was ≠ n.discoKey then some n.discoKey else none
  | _, .online, was => if bothAndDiffer was n.online then n.online.map some else none
  | _, .lastSeen, was => if bothAndDiffer was n.lastSeen then n.lastSeen.map some else none
  | _, .keyExpiry, was => if was ≠ n.keyExpiry then some n.keyExpiry else none

theorem peerChangeDiff_sets {α : Type} {was n : Node} (close : patchable was n) (f : Field α) :
    ((peerChangeDiff was n).join.bind fun pc => pc.sets f) = diffField n f (was.field f) := by
  unfold peerChangeDiff
  rw [if_neg (not_not.2 close)]
  by_cases same : ¬ differs was n
  · rw [if_pos same]
    simp only [differs, decide_eq_true_eq, not_or, not_not] at same
    obtain ⟨key, keyExpiry, keySignature, discoKey, endpoints, derp, cap, lastSeen, online, capMap⟩ :=
      same
    cases f <;> simp only [diffField, Node.field]
    · simp [derp]
    · simp [cap]
    · simp [capMap]
    · simp [endpoints]
    · simp [key]
    · simp [keySignature]
    · simp [discoKey]
    · simp [online]
    · simp [lastSeen]
    · simp [keyExpiry]
  · rw [if_neg same]
    cases f with
    | derp =>
      simp only [PeerChange.sets, diffField, Node.field]
      by_cases moved : was.homeDERP = n.homeDERP <;> simp [moved]
    | cap =>
      simp only [PeerChange.sets, diffField, Node.field]
      by_cases moved : was.cap = n.cap <;> simp [moved]
    | online =>
      simp only [PeerChange.sets, diffField, Node.field]
      by_cases both : bothAndDiffer was.online n.online <;> simp [both]
    | lastSeen =>
      simp only [PeerChange.sets, diffField, Node.field]
      by_cases both : bothAndDiffer was.lastSeen n.lastSeen <;> simp [both]
    | capMap | endpoints | key | keySignature | discoKey | keyExpiry => rfl

theorem peerChangeDiff_isNone (was n : Node) : (peerChangeDiff was n).isNone = !patchable was n := by
  unfold peerChangeDiff
  by_cases close : patchable was n
  · rw [if_neg (not_not.2 close), close]
    by_cases same : ¬ differs was n
    · rw [if_pos same]
      rfl
    · rw [if_neg same]
      rfl
  · simp [close]

def Near (peers : Peers) (n : Node) : Prop := ∃ was ∈ peers.get n.id, was.compared = n.compared

instance (peers : Peers) (n : Node) : Decidable (Near peers n) :=
  inferInstanceAs (Decidable (∃ was ∈ peers.get n.id, _))

def patched {α : Type} (peers : Peers) (n : Node) (f : Field α) : Option α :=
  (peers.get n.id).bind fun was =>
    if was.compared = n.compared then diffField n f (was.field f) else none

theorem patchifyPeer_isNone (peers : Peers) (n : Node) :
    (patchifyPeer peers n).isNone = decide (¬ Near peers n) := by
  rw [Bool.eq_iff_iff, decide_eq_true_eq, patchifyPeer, Near]
  cases peers.get n.id with
  | none => simp
  | some was => simp [peerChangeDiff_isNone, ← patchable_iff]

theorem patchifyPeer_sets {α : Type} (peers : Peers) (n : Node) (f : Field α) :
    ((patchifyPeer peers n).join.bind fun pc => pc.sets f) = patched peers n f := by
  unfold patchifyPeer patched
  cases peers.get n.id with
  | none => rfl
  | some was =>
    dsimp only [Option.bind_some]
    split_ifs with close
    · exact peerChangeDiff_sets (patchable_iff.2 close) f
    · rw [peerChangeDiff, if_pos (patchable_iff.not.2 close)]
      rfl

def kept (peers : Peers) (resp : MapResponse) (id : NodeID) : List Node :=
  (changedFor resp id).filter fun n => ¬ Near peers n

def said {α : Type} (peers : Peers) (resp : MapResponse) (id : NodeID) (f : Field α) : Option α :=
  ((changedFor resp id).filterMap fun n => patched peers n f).getLast?

theorem peerChangeDiff_nodeID {was n : Node} {pc : PeerChange}
    (diff : peerChangeDiff was n = some (some pc)) : pc.nodeID = n.id := by
  unfold peerChangeDiff at diff
  by_cases apart : ¬ patchable was n
  · rw [if_pos apart] at diff
    cases diff
  rw [if_neg apart] at diff
  by_cases same : ¬ differs was n
  · rw [if_pos same] at diff
    cases diff
  · rw [if_neg same] at diff
    cases diff
    rfl

theorem patchifyPeer_nodeID {peers : Peers} {n : Node} {pc : PeerChange}
    (patch : (patchifyPeer peers n).join = some pc) : pc.nodeID = n.id := by
  unfold patchifyPeer at patch
  cases found : peers.get n.id with
  | none => simp [found] at patch
  | some =>
    rw [found] at patch
    exact peerChangeDiff_nodeID (Option.join_eq_some_iff.1 patch)

section
variable (peers : Peers) (resp : MapResponse) (now : Time) (id : NodeID)

theorem patchify_changed : (patchifyPeersChanged peers resp).peersChanged.getD [] =
    (resp.peersChanged.getD []).filter fun n => (patchifyPeer peers n).isNone := by
  unfold patchifyPeersChanged
  dsimp only
  split_ifs with empty
  · exact (List.length_eq_zero_iff.1 empty).symm
  · rfl

theorem patchify_changedFor :
    changedFor (patchifyPeersChanged peers resp) id = kept peers resp id := by
  rw [changedFor, patchify_changed, kept, changedFor, List.filter_comm]
  simp only [patchifyPeer_isNone]

theorem patchify_base : base peers (patchifyPeersChanged peers resp) id =
    (kept peers resp id).getLast?.or (remaining peers resp id) := by
  rw [base, patchify_changedFor]
  rfl

theorem patchify_patchesFor : patchesFor (patchifyPeersChanged peers resp) id =
    patchesFor resp id ++ (changedFor resp id).filterMap fun n => (patchifyPeer peers n).join := by
  have own (nodes : List Node) :
      (nodes.filterMap fun n => (patchifyPeer peers n).join).filter (·.nodeID = id) =
        (nodes.filter (·.id = id)).filterMap fun n => (patchifyPeer peers n).join := by
    rw [List.filter_filterMap, List.filterMap_filter]
    congr 1
    funext n
    cases patch : (patchifyPeer peers n).join with
    | none => simp
    | some => simp [Option.filter_some, patchifyPeer_nodeID patch]
  unfold patchesFor patchifyPeersChanged
  rw [List.filter_append, own]
  rfl

theorem patchify_written {α : Type} (f : Field α) :
    written (patchesFor (patchifyPeersChanged peers resp) id) f =
      (said peers resp id f).or (written (patchesFor resp id) f) := by
  rw [patchify_patchesFor, written_append, said]
  congr 1
  rw [written, List.filterMap_filterMap]
  simp only [patchifyPeer_sets]

theorem patchify_later {α : Type} (f : Field α) :
    later (patchifyPeersChanged peers resp) now id f =
      (said peers resp id f).or (later resp now id f) := by
  unfold later
  rw [patchify_written, Option.or_assoc]
  rfl

end

/-- For each peer that the response gives a new node `n`: the node to start from, which is the last
new one that no patch can say, or else that of the session, agrees with `n` in what patches do not
carry; a field that a patch says has the value that the response gives it; and a field that none says
is set elsewhere in the response or is the same already. -/
def Transparent (peers : Peers) (resp : MapResponse) (now : Time) : Prop :=
  ∀ id n, (changedFor resp id).getLast? = some n →
    ∃ b, (kept peers resp id).getLast?.or (remaining peers resp id) = some b ∧ b.rest = n.rest ∧
      ∀ {α : Type} (f : Field α),
        match said peers resp id f with
        | some v => v = (later resp now id f).getD (n.field f)
        | none => (later resp now id f).isSome ∨ b.field f = n.field f

theorem field_iff {α : Type} (w l : Option α) (x y : α) :
    (w.or l).getD x = l.getD y ↔
      match w with
      | some v => v = l.getD y
      | none => l.isSome ∨ x = y := by
  cases w with
  | some => rfl
  | none => cases l <;> simp

theorem patchify_same_iff {resp : MapResponse} (delta : resp.peers.getD [] = []) (peers : Peers)
    (now : Time) :
    Peers.Same (updatePeersStateFromResponse peers (patchifyPeersChanged peers resp) now)
        (updatePeersStateFromResponse peers resp now) ↔
      Transparent peers resp now := by
  apply forall_congr'
  intro id
  obtain ⟨g', sets', patched⟩ :=
    update_get (patchifyPeersChanged peers resp) delta peers now id
  obtain ⟨g, sets, direct⟩ := update_get resp delta peers now id
  rw [patched, direct, patchify_base, base]
  cases last : (changedFor resp id).getLast? with
  | none =>
    -- No new node for this peer, so nothing to make a patch of.
    have nothing : changedFor resp id = [] := List.getLast?_eq_none_iff.1 last
    have same : ∀ {α : Type} (f : Field α),
        later (patchifyPeersChanged peers resp) now id f = later resp now id f := by
      intro α f
      rw [patchify_later, said, nothing]
      rfl
    rw [kept, nothing]
    refine ⟨fun _ n h => absurd h (by simp), fun _ => ?_⟩
    cases remaining peers resp id with
    | none => exact .none
    | some b =>
      refine .some ⟨(sets'.rest b).trans (sets.rest b).symm, fun f => ?_⟩
      rw [sets'.field, sets.field, same]
  | some n =>
    cases (kept peers resp id).getLast?.or (remaining peers resp id) with
    | none =>
      constructor
      · intro h
        cases h
      · intro h
        obtain ⟨b, h, -⟩ := h n rfl
        cases h
    | some b =>
      have fields : ∀ {α : Type} (f : Field α), (g' b).field f = (g n).field f ↔
          match said peers resp id f with
          | some v => v = (later resp now id f).getD (n.field f)
          | none => (later resp now id f).isSome ∨ b.field f = n.field f := by
        intro α f
        rw [sets'.field, sets.field, patchify_later]
        exact field_iff _ _ _ _
      constructor
      · intro h m last
        obtain ⟨rest, same⟩ := Option.rel_some_some.1 h
        cases last
        refine ⟨b, rfl, ?_, fun f => (fields f).1 (same f)⟩
        rw [← sets'.rest, rest, sets.rest]
      · intro h
        obtain ⟨b, h, rest, same⟩ := h n rfl
        cases h
        refine .some ⟨?_, fun f => (fields f).2 (same f)⟩
        rw [sets'.rest, rest, sets.rest]

namespace Sample

def peer : Node where
  id := 1
  stableID := "n1"
  name := "peer.example.ts.net."
  user := 1
  sharer := 0
  key := 10
  keyExpiry := 0
  keySignature := none
  machine := 20
  discoKey := 30
  addresses := []
  allowedIPs := []
  endpoints := none
  homeDERP := 5
  hostinfo := none
  created := 0
  cap := 100
  tags := []
  primaryRoutes := []
  lastSeen := none
  online := some true
  machineAuthorized := true
  capabilities := []
  capMap := ∅
  unsignedPeerAPIOnly := false
  dataPlaneAuditLogID := ""
  expired := false
  selfNodeV4MasqAddrForThisPeer := none
  selfNodeV6MasqAddrForThisPeer := none
  isWireGuardOnly := false
  isJailed := false
  exitNodeDNSResolvers := []

def peers : Peers := Peers.empty.set peer

def changedTo (n : Node) : MapResponse := { MapResponse.empty with peersChanged := some [n] }

/-- The peer has lost its home region. The patch has zero for it, and the session keeps the region. -/
theorem homeDERP_not_cleared :
    let resp := changedTo { peer with homeDERP := 0 }
    ((updatePeersStateFromResponse peers resp 0).get 1).map (·.homeDERP) = some 0 ∧
      ((updatePeersStateFromResponse peers (patchifyPeersChanged peers resp) 0).get 1).map
        (·.homeDERP) = some 5 := by
  decide

def rekeyed : Node := { peer with key := 11 }

theorem key_patched :
    (changedTo rekeyed).peers.getD [] = [] ∧
      Peers.Same
        (updatePeersStateFromResponse peers (patchifyPeersChanged peers (changedTo rekeyed)) 0)
        (updatePeersStateFromResponse peers (changedTo rekeyed) 0) := by
  refine ⟨rfl, (patchify_same_iff rfl peers 0).2 ?_⟩
  intro id n last
  by_cases same : rekeyed.id = id
  · subst same
    obtain rfl : rekeyed = n := Option.some.inj last
    refine ⟨peer, by decide, rfl, fun f => ?_⟩
    cases f with
    | key => rfl
    | _ => exact .inr rfl
  · have none : changedFor (changedTo rekeyed) id = [] :=
      List.filter_cons_of_neg (by rwa [decide_eq_true_eq])
    rw [none] at last
    cases last

end Sample

end ScaleTail.Netmap
