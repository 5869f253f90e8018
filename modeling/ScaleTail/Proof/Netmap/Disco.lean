import ScaleTail.Lib.Runs
import ScaleTail.Proof.Netmap.Patchify

/-! # What arbitration of disco keys touches -/

namespace ScaleTail.Netmap

open Lib List

def Field.arbitrated : {α : Type} → Field α → Bool
  | _, .discoKey | _, .online | _, .lastSeen => true
  | _, .derp | _, .cap | _, .capMap | _, .endpoints | _, .key | _, .keySignature
  | _, .keyExpiry => false

def Node.AgreesBeyond (n m : Node) : Prop :=
  n.rest = m.rest ∧ ∀ {α : Type} (f : Field α), f.arbitrated = false → n.field f = m.field f

namespace Node.AgreesBeyond

variable {n m k : Node}

theorem refl (n : Node) : n.AgreesBeyond n := ⟨rfl, fun _ _ => rfl⟩

theorem symm (h : n.AgreesBeyond m) : m.AgreesBeyond n :=
  ⟨h.1.symm, fun f other => (h.2 f other).symm⟩

theorem trans (h : n.AgreesBeyond m) (h' : m.AgreesBeyond k) : n.AgreesBeyond k :=
  ⟨h.1.trans h'.1, fun f other => (h.2 f other).trans (h'.2 f other)⟩

end Node.AgreesBeyond

def Peers.AgreesBeyond (p q : Peers) : Prop :=
  ∀ id, Option.Rel Node.AgreesBeyond (p.get id) (q.get id)

variable {α : Type} {p q : Peers} {resp : MapResponse}

theorem Peers.AgreesBeyond.cases (agree : p.AgreesBeyond q) (id : NodeID) :
    (p.get id = none ∧ q.get id = none) ∨
      ∃ n m, p.get id = some n ∧ q.get id = some m ∧ n.AgreesBeyond m := by
  have same := agree id
  cases hp : p.get id with
  | none =>
    cases hq : q.get id with
    | none => exact .inl ⟨rfl, rfl⟩
    | some =>
      rw [hp, hq] at same
      cases same
  | some n =>
    cases hq : q.get id with
    | none =>
      rw [hp, hq] at same
      cases same
    | some m =>
      rw [hp, hq] at same
      exact .inr ⟨n, m, rfl, rfl, Option.rel_some_some.1 same⟩

section
variable {p q : Peers} (agree : p.AgreesBeyond q)
include agree

theorem patched_congr (n : Node) (f : Field α) (other : f.arbitrated = false) :
    patched p n f = patched q n f := by
  unfold patched
  rcases agree.cases n.id with ⟨hp, hq⟩ | ⟨was, was', hp, hq, rest, fields⟩
  · rw [hp, hq]
  · rw [hp, hq, Option.bind_some, Option.bind_some, Node.compared, rest, fields f other]
    rfl

variable (resp : MapResponse) (id : NodeID)

theorem kept_congr : kept p resp id = kept q resp id := by
  have near (n : Node) : Near p n ↔ Near q n := by
    unfold Near
    rcases agree.cases n.id with ⟨hp, hq⟩ | ⟨was, was', hp, hq, rest, -⟩
    · rw [hp, hq]
    · simp [hp, hq, Node.compared, rest]
  simp only [kept, near]

theorem said_congr (f : Field α) (other : f.arbitrated = false) :
    said p resp id f = said q resp id f := by
  unfold said
  congr 2
  funext n
  exact patched_congr agree n f other

theorem patchify_base_congr : Option.Rel Node.AgreesBeyond
    (base p (patchifyPeersChanged p resp) id) (base q (patchifyPeersChanged q resp) id) := by
  rw [patchify_base, patchify_base, kept_congr agree]
  cases (kept q resp id).getLast? with
  | some n => exact .some (.refl n)
  | none =>
    unfold remaining
    split_ifs
    · exact .none
    · exact agree id

theorem patchify_written_congr (f : Field α) (other : f.arbitrated = false) :
    written (patchesFor (patchifyPeersChanged p resp) id) f =
      written (patchesFor (patchifyPeersChanged q resp) id) f := by
  rw [patchify_written, patchify_written, said_congr agree resp id f other]

end

def plainResponse (peers : Peers) (resp : MapResponse) (now : Time) : Peers :=
  let resp := patchifyPeersChanged peers resp
  updatePeersStateFromResponse peers (removeUnwantedDiscoUpdatesFromFullNetmapUpdate peers resp) now

def acceptedFor (peers : Peers) (resp : MapResponse) (id : NodeID) : List PeerChange :=
  (patchesFor (patchifyPeersChanged peers resp) id).filter (acceptsDiscoUpdate peers false)

def KeepsRest (peers : Peers) (resp : MapResponse) : Prop :=
  resp.peers.getD [] = [] → ∀ id b, base peers (patchifyPeersChanged peers resp) id = some b →
    ∀ {α : Type} (f : Field α), f.arbitrated = false →
      (written (acceptedFor peers resp id) f).getD (b.field f) =
        (written (patchesFor (patchifyPeersChanged peers resp) id) f).getD (b.field f)

theorem keepNewerDisco_agrees (peers : Peers) (n : Node) :
    (keepNewerDisco peers n).AgreesBeyond n := by
  have arbitrated : ∀ discoKey lastSeen,
      ({ n with discoKey, lastSeen } : Node).AgreesBeyond n := by
    intro discoKey lastSeen
    refine ⟨rfl, fun f other => ?_⟩
    cases f with
    | discoKey | lastSeen => cases other
    | _ => rfl
  unfold keepNewerDisco
  split
  · exact .refl n
  split
  · exact .refl n
  split
  · exact .refl n
  split
  · exact .refl n
  split
  · exact .refl n
  split
  · exact .refl n
  · exact arbitrated _ _

theorem full_get (peers : Peers) (full : resp.peers.getD [] ≠ []) (now : Time)
    (id : NodeID) : (updatePeersStateFromResponse peers resp now).get id =
      ((resp.peers.getD []).filter (·.id = id)).getLast? := by
  unfold updatePeersStateFromResponse
  rw [if_pos (length_pos_iff.2 full), foldl_set_get, Peers.get_empty, Option.or_none]

theorem removeFull_last (peers : Peers) (resp : MapResponse) (id : NodeID) :
    (((removeUnwantedDiscoUpdatesFromFullNetmapUpdate peers resp).peers.getD []).filter
        (·.id = id)).getLast? =
      (((resp.peers.getD []).filter (·.id = id)).getLast?).map (keepNewerDisco peers) := by
  have nodes : (removeUnwantedDiscoUpdatesFromFullNetmapUpdate peers resp).peers.getD [] =
      (resp.peers.getD []).map (keepNewerDisco peers) := by
    unfold removeUnwantedDiscoUpdatesFromFullNetmapUpdate
    cases resp.peers <;> rfl
  have ids : ((fun n : Node => decide (n.id = id)) ∘ keepNewerDisco peers) =
      fun n => decide (n.id = id) := by
    funext n
    simp only [Function.comp_apply, Node.id_of_rest (keepNewerDisco_agrees peers n).1]
  rw [nodes, filter_map, getLast?_map, ids]

theorem later_other {now : Time} {id : NodeID} {f : Field α}
    (other : f.arbitrated = false) : later resp now id f = written (patchesFor resp id) f := by
  unfold later
  cases f with
  | discoKey | online | lastSeen => cases other
  | _ => simp [onlineSets, seenSets]

theorem removeFull_delta (resp : MapResponse) (peers : Peers) (delta : resp.peers.getD [] = []) :
    (removeUnwantedDiscoUpdatesFromFullNetmapUpdate peers resp).peers.getD [] = [] := by
  unfold removeUnwantedDiscoUpdatesFromFullNetmapUpdate
  cases nodes : resp.peers with
  | none => rfl
  | some l =>
    rw [nodes] at delta
    rw [show l = [] from delta]
    rfl

theorem removeFull_full (resp : MapResponse) (peers : Peers) (full : resp.peers.getD [] ≠ []) :
    (removeUnwantedDiscoUpdatesFromFullNetmapUpdate peers resp).peers.getD [] ≠ [] := by
  unfold removeUnwantedDiscoUpdatesFromFullNetmapUpdate
  cases nodes : resp.peers with
  | none => simp [nodes] at full
  | some =>
    rw [nodes] at full
    simpa using full

theorem map_agrees_iff {b b' : Option Node} (bases : Option.Rel Node.AgreesBeyond b b')
    {g g' : Node → Node} {v v' : {α : Type} → Field α → Option α} (sets : Sets g v)
    (sets' : Sets g' v') : Option.Rel Node.AgreesBeyond (b.map g) (b'.map g') ↔
      ∀ n, b = some n → ∀ {α : Type} (f : Field α), f.arbitrated = false →
        (v f).getD (n.field f) = (v' f).getD (n.field f) := by
  cases bases with
  | none => exact ⟨fun _ n h => absurd h (by simp), fun _ => .none⟩
  | some same =>
    rename_i n m
    rw [Option.map_some, Option.map_some, Option.rel_some_some]
    constructor
    · intro after k h α f other
      cases h
      rw [← sets.field, after.2 f other, sets'.field, same.2 f other]
    · intro fields
      refine ⟨(sets.rest n).trans (same.1.trans (sets'.rest m).symm), fun f other => ?_⟩
      rw [sets.field, sets'.field, fields n rfl f other, same.2 f other]

theorem control_agrees_iff (agree : p.AgreesBeyond q) (resp : MapResponse)
    (now : Time) : (handleMapResponse p resp false now).1.AgreesBeyond (plainResponse q resp now) ↔
      KeepsRest p resp := by
  have session : (handleMapResponse p resp false now).1 = updatePeersStateFromResponse p
      (removeUnwantedDiscoUpdatesFromFullNetmapUpdate p
        (removeUnwantedDiscoUpdates p false (patchifyPeersChanged p resp))) now := by
    unfold handleMapResponse
    rw [if_neg (by simp)]
  rw [session]
  by_cases delta : resp.peers.getD [] = []
  · have perPeer : ∀ id, Option.Rel Node.AgreesBeyond
        ((updatePeersStateFromResponse p (removeUnwantedDiscoUpdatesFromFullNetmapUpdate p
          (removeUnwantedDiscoUpdates p false (patchifyPeersChanged p resp))) now).get id)
        ((plainResponse q resp now).get id) ↔
        ∀ b, base p (patchifyPeersChanged p resp) id = some b →
          ∀ {α : Type} (f : Field α), f.arbitrated = false →
            (written (acceptedFor p resp id) f).getD (b.field f) =
              (written (patchesFor (patchifyPeersChanged p resp) id) f).getD (b.field f) := by
      intro id
      obtain ⟨g, sets, get⟩ := update_get _ (removeFull_delta
        (removeUnwantedDiscoUpdates p false (patchifyPeersChanged p resp)) p delta) p now id
      obtain ⟨g', sets', get'⟩ := update_get _
        (removeFull_delta (patchifyPeersChanged q resp) q delta) q now id
      have accepted : patchesFor (removeUnwantedDiscoUpdatesFromFullNetmapUpdate p
          (removeUnwantedDiscoUpdates p false (patchifyPeersChanged p resp))) id =
          acceptedFor p resp id := filter_comm _ _ _
      rw [get, plainResponse, get']
      refine (map_agrees_iff (patchify_base_congr agree resp id) sets sets').trans ?_
      refine forall₂_congr fun b _ => ⟨fun h α f other => ?_, fun h α f other => ?_⟩
      · have same := h f other
        rw [later_other other, later_other other, accepted] at same
        rw [same, patchify_written_congr agree resp id f other]
        rfl
      · rw [later_other other, later_other other, accepted, h f other,
          patchify_written_congr agree resp id f other]
        rfl
    exact ⟨fun h _ id => (perPeer id).1 (h id), fun h id => (perPeer id).2 (h delta id)⟩
  · refine ⟨fun _ h => absurd h delta, fun _ id => ?_⟩
    rw [full_get p (removeFull_full (removeUnwantedDiscoUpdates p false
        (patchifyPeersChanged p resp)) p delta), plainResponse,
      full_get q (removeFull_full (patchifyPeersChanged q resp) q delta), removeFull_last,
      removeFull_last]
    change Option.Rel _ (Option.map _ ((resp.peers.getD []).filter _).getLast?)
      (Option.map _ ((resp.peers.getD []).filter _).getLast?)
    cases ((resp.peers.getD []).filter (·.id = id)).getLast? with
    | none => exact .none
    | some n => exact .some ((keepNewerDisco_agrees p n).trans (keepNewerDisco_agrees q n).symm)

theorem handle_advertised (p : Peers) (u : DiscoUpdate) (now : Time) :
    (handleMapResponse p u.response true now).1 =
      if acceptsDiscoUpdate p true u.patch then p.modify u.id (applyPatch · u.patch) else p := by
  have patchify : patchifyPeersChanged p u.response = u.response := by
    simp [patchifyPeersChanged, DiscoUpdate.response, MapResponse.empty]
  unfold handleMapResponse
  dsimp only
  rw [patchify]
  by_cases accepted : acceptsDiscoUpdate p true u.patch
  · have patches : removeUnwantedDiscoUpdates p true u.response = u.response := by
      unfold removeUnwantedDiscoUpdates DiscoUpdate.response
      rw [filter_cons_of_pos accepted, filter_nil]
    rw [if_pos accepted, patches, if_neg (by simp [DiscoUpdate.response])]
    rfl
  · have patches : (removeUnwantedDiscoUpdates p true u.response).peersChangedPatch = [] :=
      filter_cons_of_neg accepted
    rw [if_neg accepted, if_pos (by simp [patches])]

theorem advertised_agrees_iff (agree : p.AgreesBeyond q) (u : DiscoUpdate)
    (now : Time) : (handleMapResponse p u.response true now).1.AgreesBeyond q ↔
      (acceptsDiscoUpdate p true u.patch → ∀ n, p.get u.id = some n → n.key = u.key) := by
  have sets := applyPatch_sets u.patch
  rw [handle_advertised]
  by_cases accepted : acceptsDiscoUpdate p true u.patch
  · rw [if_pos accepted]
    have own : ∀ n m : Node, n.AgreesBeyond m →
        ((applyPatch n u.patch).AgreesBeyond m ↔ n.key = u.key) := by
      intro n m same
      have key : n.key = m.key := same.2 .key rfl
      constructor
      · intro after
        exact key.trans (after.2 .key rfl).symm
      · intro unchanged
        refine ⟨(sets.rest n).trans same.1, fun f other => ?_⟩
        rw [sets.field]
        cases f with
        | key => exact unchanged.symm.trans key
        | discoKey | online | lastSeen => cases other
        | _ => exact same.2 _ other
    constructor
    · intro after _ n found
      obtain ⟨hp, -⟩ | ⟨n', m, hp, hq, same⟩ := agree.cases u.id
      · rw [hp] at found
        cases found
      · have after := after u.id
        rw [modify_get sets.id_eq, if_pos rfl, hp, hq] at after
        rw [hp] at found
        cases found
        exact (own _ m same).1 (Option.rel_some_some.1 after)
    · intro unchanged id
      rw [modify_get sets.id_eq]
      by_cases same : u.id = id
      · subst same
        rw [if_pos rfl]
        obtain ⟨hp, hq⟩ | ⟨n, m, hp, hq, same⟩ := agree.cases u.id
        · rw [hp, hq]
          exact .none
        · rw [hp, hq]
          exact .some ((own n m same).2 (unchanged accepted n hp))
      · rw [if_neg same]
        exact agree id
  · rw [if_neg accepted]
    exact ⟨fun _ h => absurd h accepted, fun _ => agree⟩

structure DiscoRun where
  peers : Peers
  plain : Peers
  pending : List DiscoUpdate

inductive DiscoOp
  | control (resp : MapResponse) (now : Time)
  | advertise (src : Net.Addr) (id : NodeID) (discoKey : DiscoPublic) (now : Time)
  | handle (i : Nat) (now : Time)

namespace DiscoRun

def step (s : DiscoRun) : DiscoOp → DiscoRun
  | .control resp now =>
    { s with
      peers := (handleMapResponse s.peers resp false now).1
      plain := plainResponse s.plain resp now }
  | .advertise src id discoKey now =>
    match s.peers.get id with
    | some n =>
      if hasTailscaleIP n src then
        { s with pending := s.pending ++ [⟨id, n.key, discoKey, now, false⟩] }
      else s
    | none => s
  | .handle i now =>
    match s.pending[i]? with
    | some u =>
      { s with
        peers := (handleMapResponse s.peers u.response true now).1
        pending := s.pending.eraseIdx i }
    | none => s

def Agrees (s : DiscoRun) : Prop := s.peers.AgreesBeyond s.plain

/-- A control response loses nothing by what it rejects, and a disco key that is accepted comes with
the node key that the peer has. -/
def Harmless (s : DiscoRun) : DiscoOp → Prop
  | .control resp _ => KeepsRest s.peers resp
  | .advertise .. => True
  | .handle i _ => ∀ u, s.pending[i]? = some u → acceptsDiscoUpdate s.peers true u.patch →
      ∀ n, s.peers.get u.id = some n → n.key = u.key

theorem step_agrees {s : DiscoRun} (agree : s.Agrees) (op : DiscoOp) :
    (s.step op).Agrees ↔ s.Harmless op := by
  cases op with
  | control resp now => exact control_agrees_iff agree resp now
  | advertise =>
    refine iff_of_true ?_ trivial
    unfold step
    dsimp only
    split
    · split_ifs <;> exact agree
    · exact agree
  | handle i now =>
    unfold step Harmless
    dsimp only
    cases s.pending[i]? with
    | none => exact ⟨fun _ u h => absurd h (by simp), fun _ => agree⟩
    | some u =>
      refine (advertised_agrees_iff agree u now).trans ?_
      constructor
      · intro h u' same
        cases same
        exact h
      · intro h
        exact h u rfl

end DiscoRun

/-- From any peers and whatever waits to be handled, the session agrees with the one without
arbitration after every step of a run exactly if every step is harmless. -/
theorem disco_agrees_iff (peers : Peers) (pending : List DiscoUpdate) (ops : List DiscoOp) :
    Along DiscoRun.step (fun s op => (s.step op).Agrees) ⟨peers, peers, pending⟩ ops ↔
      Along DiscoRun.step DiscoRun.Harmless ⟨peers, peers, pending⟩ ops := by
  have start : DiscoRun.Agrees ⟨peers, peers, pending⟩ := by
    intro id
    cases found : peers.get id with
    | none => exact .none
    | some n => exact .some (.refl n)
  exact along_iff (I := DiscoRun.Agrees) (fun s op agree => DiscoRun.step_agrees agree op)
    (fun s op agree harmless => (DiscoRun.step_agrees agree op).2 harmless) start ops

namespace Sample

def away : Node :=
  { peer with
    addresses := [.single (.v4 0x64400001#32)]
    online := some false
    lastSeen := some 10 }

def awayRun : DiscoRun := ⟨Peers.empty.set away, Peers.empty.set away, []⟩

def lateAdvertisement : List DiscoOp :=
  [.advertise (.v4 0x64400001#32) 1 31 20,
    .control { MapResponse.empty with peersChangedPatch := [{ PeerChange.zero 1 with key := some 11 }] }
      21,
    .handle 0 22]

def staleMove : List DiscoOp :=
  [.control { MapResponse.empty with peersChangedPatch := [{ PeerChange.zero 1 with
    derpRegion := 7, discoKey := some 31, online := some false, lastSeen := some 5 }] } 20]

theorem disco_touches :
    let late := lateAdvertisement.foldl DiscoRun.step awayRun
    let stale := staleMove.foldl DiscoRun.step awayRun
    ((late.peers.get 1).map (·.key) = some 10 ∧ (late.plain.get 1).map (·.key) = some 11) ∧
      (stale.peers.get 1).map (·.homeDERP) = some 5 ∧
        (stale.plain.get 1).map (·.homeDERP) = some 7 := by
  decide

end Sample

end ScaleTail.Netmap
