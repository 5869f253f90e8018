import ScaleTail.Netmap.Delta
import ScaleTail.Proof.Netmap.Patchify

/-! # Mutations against the session's own update -/

namespace ScaleTail.Netmap

open Net List Option

def applyMutations (muts : List NodeMutation) (n : Node) : Node :=
  muts.foldl (fun n m => m.mutation.apply n) n

@[simp]
theorem apply_id (m : Mutation) (n : Node) : (m.apply n).id = n.id := by cases m <;> rfl

section
variable {peers nodes : Peers} {m : NodeMutation} {muts : List NodeMutation}

theorem mutableNodes_cons : mutableNodes peers (m :: muts) nodes =
    match (nodes.overlay peers).get m.nodeID with
    | some n => mutableNodes peers muts (nodes.set (m.mutation.apply n))
    | none => none := by
  rw [Peers.get_overlay, mutableNodes]
  cases nodes.get m.nodeID with
  | some => rfl
  | none => cases peers.get m.nodeID <;> rfl

theorem set_overlay_get {n : Node} (found : (nodes.overlay peers).get m.nodeID = some n)
    (id : NodeID) : ((nodes.set (m.mutation.apply n)).overlay peers).get id =
      if m.nodeID = id then some (m.mutation.apply n) else (nodes.overlay peers).get id := by
  rw [Peers.get_overlay, Peers.get_set, apply_id, Peers.get_id found, Peers.get_overlay]
  by_cases same : m.nodeID = id
  · rw [if_pos same.symm, if_pos same, some_or]
  · rw [if_neg (Ne.symm same), if_neg same]

theorem mutableNodes_get (known : ∀ m ∈ muts, ((nodes.overlay peers).get m.nodeID).isSome) :
    ∃ nodes', mutableNodes peers muts nodes = some nodes' ∧
      ∀ id, (nodes'.overlay peers).get id =
        ((nodes.overlay peers).get id).map (applyMutations (muts.filter (·.nodeID = id))) := by
  induction muts generalizing nodes with
  | nil => exact ⟨nodes, rfl, fun id => (map_id_apply).symm⟩
  | cons m muts ih =>
    obtain ⟨n, found⟩ := isSome_iff_exists.1 (known m mem_cons_self)
    have kept := set_overlay_get found
    have known' : ∀ m' ∈ muts,
        (((nodes.set (m.mutation.apply n)).overlay peers).get m'.nodeID).isSome := by
      intro m' mem
      rw [kept]
      split_ifs
      · rfl
      · exact known m' (mem_cons_of_mem _ mem)
    obtain ⟨nodes', eq, get⟩ := ih known'
    refine ⟨nodes', by rw [mutableNodes_cons, found]; exact eq, fun id => ?_⟩
    rw [get, kept]
    by_cases same : m.nodeID = id
    · rw [if_pos same, filter_cons_of_pos (by simpa using same), ← same, found]
      rfl
    · rw [if_neg same, filter_cons_of_neg (by simpa using same)]

theorem mutableNodes_unknown (unknown : ¬ ∀ m ∈ muts, ((nodes.overlay peers).get m.nodeID).isSome) :
    mutableNodes peers muts nodes = none := by
  induction muts generalizing nodes with
  | nil => exact absurd (fun _ mem => absurd mem not_mem_nil) unknown
  | cons m _ ih =>
    rw [mutableNodes_cons]
    cases found : (nodes.overlay peers).get m.nodeID with
    | none => rfl
    | some =>
      apply ih
      intro known
      apply unknown
      intro m' mem
      rcases mem_cons.1 mem with rfl | mem
      · rw [found]
        rfl
      · have known := known m' mem
        rw [set_overlay_get found] at known
        split_ifs at known with same
        · rw [← same, found]
          rfl
        · exact known

end

theorem empty_overlay (p : Peers) : Peers.empty.overlay p = p :=
  Peers.ext_get fun id => by simp

theorem updateNetmapDelta_get (nb : NodeBackend) (muts : List NodeMutation) (id : NodeID) :
    (nb.updateNetmapDelta muts).1.peers.get id =
      if ∀ m ∈ muts, (nb.peers.get m.nodeID).isSome then
        (nb.peers.get id).map (applyMutations (muts.filter (·.nodeID = id)))
      else nb.peers.get id := by
  have noPeers : nb.netMap = false ∨ nb.peers.map.keys.card = 0 → ∀ id, nb.peers.get id = none := by
    rintro (noMap | none) id
    · rw [nb.noNetMap (by simp [noMap])]
      exact Peers.get_empty
    · rw [Peers.get, Finmap.lookup_eq_none, ← Finmap.mem_keys, Finset.card_eq_zero.1 none]
      simp
  unfold NodeBackend.updateNetmapDelta
  split_ifs with no known known
  · simp [noPeers no]
  · rfl
  · have known' : ∀ m ∈ muts, ((Peers.empty.overlay nb.peers).get m.nodeID).isSome := by
      simpa [empty_overlay] using known
    obtain ⟨nodes, eq, get⟩ := mutableNodes_get known'
    rw [eq]
    rw [get, empty_overlay]
  · rw [mutableNodes_unknown (by simpa [empty_overlay] using known)]

theorem filter_sort (muts : List NodeMutation) (id : NodeID) :
    (muts.insertionSort fun a b => a.nodeID ≤ b.nodeID).filter (·.nodeID = id) =
      muts.filter (·.nodeID = id) := by
  have sorted : (muts.filter (·.nodeID = id)).Pairwise fun a b => a.nodeID ≤ b.nodeID := by
    apply List.Pairwise.imp_of_mem (R := fun _ _ => True)
    · intro a b ha hb _
      have ha : a.nodeID = id := of_decide_eq_true (mem_filter.1 ha).2
      have hb : b.nodeID = id := of_decide_eq_true (mem_filter.1 hb).2
      rw [ha, hb]
    · exact pairwise_of_forall fun _ _ => trivial
  have sub := (sublist_insertionSort sorted filter_sublist).filter (·.nodeID = id)
  rw [List.filter_filter] at sub
  simp only [Bool.and_self] at sub
  refine (sub.eq_of_length ?_).symm
  exact ((perm_insertionSort _ muts).filter _).length_eq.symm

def Mutation.sets : Mutation → {α : Type} → Field α → Option α
  | derpHome v, _, .derp => some v
  | endpoints v, _, .endpoints => some v
  | online v, _, .online => some (some v)
  | lastSeen v, _, .lastSeen => some (some v)
  | _, _, _ => none

theorem apply_sets (m : Mutation) : Sets m.apply m.sets where
  rest n := by cases m <;> rfl
  field n α f := by cases m <;> cases f <;> rfl

def mutated {α : Type} (muts : List NodeMutation) (f : Field α) : Option α :=
  (muts.filterMap (·.mutation.sets f)).getLast?

theorem applyMutations_sets (muts : List NodeMutation) :
    Sets (applyMutations muts) (mutated muts) := by
  have each : ∀ m : NodeMutation, Sets (fun n => m.mutation.apply n) m.mutation.sets :=
    fun m => apply_sets m.mutation
  exact Sets.foldl (g := fun n m => m.mutation.apply n) each muts

variable {α : Type} {p : PeerChange} {ps : List PeerChange} {res : MapResponse} {now : Time}
  {ret muts : List NodeMutation} {n : Node} {id : NodeID} {g : Node → Node}

theorem mutated_append (muts muts' : List NodeMutation) (f : Field α) :
    mutated (muts ++ muts') f = (mutated muts' f).or (mutated muts f) :=
  getLast?_filterMap_append _ _ _

theorem nodeMutationsFromPatch_sets
    (ok : nodeMutationsFromPatch p = some muts) (f : Field α) : mutated muts f = p.sets f := by
  unfold nodeMutationsFromPatch at ok
  by_cases zero : p.nodeID = 0
  · rw [if_pos zero] at ok
    cases ok
  rw [if_neg zero] at ok
  split at ok
  · cases ok
  rename_i unsupported
  simp only [not_or, not_not, not_isSome_iff_eq_none] at unsupported
  obtain ⟨cap, capMap, key, keySignature, discoKey, keyExpiry⟩ := unsupported
  have derp : mutated (if p.derpRegion = 0 then [] else [⟨p.nodeID, .derpHome p.derpRegion⟩]) f =
      if p.derpRegion = 0 then none else (Mutation.derpHome p.derpRegion).sets f := by
    split_ifs
    · rfl
    · exact getLast?_filterMap_singleton _ _
  have part : ∀ {β : Type} (o : Option β) (g : β → Mutation),
      mutated (o.toList.map fun v => ⟨p.nodeID, g v⟩) f = o.bind fun v => (g v).sets f := by
    intro β o g
    cases o with
    | none => rfl
    | some => exact getLast?_filterMap_singleton _ _
  rw [← Option.some.inj ok, mutated_append, mutated_append, mutated_append, derp, part, part, part]
  cases f with
  | cap => simp [PeerChange.sets, Mutation.sets, cap]
  | capMap | key | keySignature | discoKey | keyExpiry => simp [PeerChange.sets, Mutation.sets, *]
  | derp | endpoints => simp [PeerChange.sets, Mutation.sets]
  | online =>
    simp only [PeerChange.sets, Mutation.sets]
    cases p.online <;> simp
  | lastSeen =>
    simp only [PeerChange.sets, Mutation.sets]
    cases p.lastSeen <;> simp

theorem nodeMutationsFromPatch_named
    (ok : nodeMutationsFromPatch p = some muts) {m : NodeMutation} (mem : m ∈ muts) :
    m.nodeID = p.nodeID := by
  unfold nodeMutationsFromPatch at ok
  split_ifs at ok <;> rw [← Option.some.inj ok] at mem <;>
    simp only [mem_append, List.mem_map, mem_singleton, not_mem_nil, false_or] at mem
  · rcases mem with (⟨v, -, rfl⟩ | ⟨v, -, rfl⟩) | ⟨v, -, rfl⟩ <;> rfl
  · rcases mem with ((rfl | ⟨v, -, rfl⟩) | ⟨v, -, rfl⟩) | ⟨v, -, rfl⟩ <;> rfl

theorem patchMutations_cons (ok : patchMutations (p :: ps) = some muts) :
    ∃ deltas ret, nodeMutationsFromPatch p = some deltas ∧ patchMutations ps = some ret ∧
      muts = deltas ++ ret := by
  rw [patchMutations] at ok
  cases deltas : nodeMutationsFromPatch p with
  | none => simp [deltas] at ok
  | some d =>
    cases ret : patchMutations ps with
    | none => simp [deltas, ret] at ok
    | some r =>
      rw [deltas, ret] at ok
      exact ⟨d, r, rfl, rfl, (Option.some.inj ok).symm⟩

theorem patchMutations_mutated (ok : patchMutations ps = some muts) (id : NodeID) (f : Field α) :
    mutated (muts.filter (·.nodeID = id)) f = written (ps.filter (·.nodeID = id)) f := by
  induction ps generalizing muts with
  | nil =>
    rw [← Option.some.inj ok]
    rfl
  | cons p _ ih =>
    obtain ⟨deltas, ret, fromPatch, rest, rfl⟩ := patchMutations_cons ok
    rw [filter_append, mutated_append, ih rest]
    by_cases same : p.nodeID = id
    · have all : deltas.filter (·.nodeID = id) = deltas := by
        rw [filter_eq_self]
        intro m mem
        exact decide_eq_true ((nodeMutationsFromPatch_named fromPatch mem).trans same)
      rw [all, nodeMutationsFromPatch_sets fromPatch, filter_cons_of_pos (by simpa using same),
        ← singleton_append, written_append]
      congr 1
      exact (getLast?_filterMap_singleton _ _).symm
    · have none : deltas.filter (·.nodeID = id) = [] := by
        rw [filter_eq_nil_iff]
        intro m mem named
        rw [decide_eq_true_eq, nodeMutationsFromPatch_named fromPatch mem] at named
        exact same named
      rw [none, filter_cons_of_neg (by simpa using same)]
      exact or_none

theorem legacyMutations_mutated (res : MapResponse) (now : Time) (id : NodeID) (f : Field α) :
    mutated ((legacyMutations res now).filter (·.nodeID = id)) f =
      (seenSets now ((res.peerSeenChange.lookup id).filter (·)) f).or
        (onlineSets (res.onlineChange.lookup id) f) := by
  have online : (res.onlineChange.entries.map fun e => (⟨e.1, .online e.2⟩ : NodeMutation)).filter
      (·.nodeID = id) = (res.onlineChange.lookup id).toList.map fun v => ⟨id, .online v⟩ := by
    rw [List.filter_map]
    simp only [Function.comp_def]
    rw [filter_entries]
    cases res.onlineChange.lookup id <;> rfl
  have seen : ((res.peerSeenChange.entries.filter (·.2)).map
        fun e => (⟨e.1, .lastSeen now⟩ : NodeMutation)).filter (·.nodeID = id) =
      ((res.peerSeenChange.lookup id).filter (·)).toList.map fun _ => ⟨id, .lastSeen now⟩ := by
    rw [List.filter_map]
    simp only [Function.comp_def]
    rw [filter_comm, filter_entries]
    rcases res.peerSeenChange.lookup id with _ | _ | _ <;> rfl
  rw [legacyMutations, filter_append, mutated_append, online, seen]
  congr 1
  · rcases res.peerSeenChange.lookup id with _ | _ | _ <;> cases f <;> rfl
  · rcases res.onlineChange.lookup id with _ | v <;> cases f <;> rfl

def Named (res : MapResponse) (id : NodeID) : Prop :=
  (res.onlineChange.lookup id).isSome ∨ res.peerSeenChange.lookup id = some true ∨
    ∃ pc ∈ patchesFor res id, ∃ (α : Type) (f : Field α), (pc.sets f).isSome

theorem exists_sets (m : Mutation) : ∃ (α : Type) (f : Field α), (m.sets f).isSome := by
  cases m with
  | derpHome => exact ⟨_, .derp, rfl⟩
  | endpoints => exact ⟨_, .endpoints, rfl⟩
  | online => exact ⟨_, .online, rfl⟩
  | lastSeen => exact ⟨_, .lastSeen, rfl⟩

theorem getLast?_filterMap_isSome {β : Type} {g : β → Option α} {l : List β} :
    (l.filterMap g).getLast?.isSome ↔ ∃ b ∈ l, (g b).isSome := by
  simp

theorem named_iff (ok : patchMutations res.peersChangedPatch = some ret) (id : NodeID) :
    (∃ m ∈ ret ++ legacyMutations res now, m.nodeID = id) ↔ Named res id := by
  -- A node is named when the mutations for it set a field, whichever part they come from.
  have set : (∃ m ∈ ret ++ legacyMutations res now, m.nodeID = id) ↔ ∃ (α : Type) (f : Field α),
      (mutated ((ret ++ legacyMutations res now).filter (·.nodeID = id)) f).isSome := by
    constructor
    · rintro ⟨m, mem, named⟩
      obtain ⟨α, f, sets⟩ := exists_sets m.mutation
      exact ⟨α, f, getLast?_filterMap_isSome.2
        ⟨m, mem_filter.2 ⟨mem, decide_eq_true named⟩, sets⟩⟩
    · rintro ⟨α, f, some⟩
      obtain ⟨m, mem, -⟩ := getLast?_filterMap_isSome.1 some
      exact ⟨m, (mem_filter.1 mem).1, of_decide_eq_true (mem_filter.1 mem).2⟩
  have parts : ∀ {α : Type} (f : Field α),
      (mutated ((ret ++ legacyMutations res now).filter (·.nodeID = id)) f).isSome ↔
        ((seenSets now ((res.peerSeenChange.lookup id).filter (·)) f).isSome ∨
          (onlineSets (res.onlineChange.lookup id) f).isSome) ∨
        (written (patchesFor res id) f).isSome := by
    intro α f
    rw [filter_append, mutated_append, legacyMutations_mutated, patchMutations_mutated ok]
    simp only [isSome_or, Bool.or_eq_true]
    rfl
  rw [set]
  constructor
  · rintro ⟨α, f, some⟩
    rcases (parts f).1 some with (seen | online) | patch
    · right; left
      revert seen
      rcases res.peerSeenChange.lookup id with _ | _ | _ <;> cases f <;>
        simp [seenSets, Option.filter]
    · left
      revert online
      cases res.onlineChange.lookup id <;> cases f <;> simp [onlineSets]
    · obtain ⟨pc, mem, sets⟩ := getLast?_filterMap_isSome.1 patch
      exact .inr (.inr ⟨pc, mem, α, f, sets⟩)
  · rintro (online | seen | ⟨pc, mem, α, f, sets⟩)
    · refine ⟨_, .online, (parts .online).2 (.inl (.inr ?_))⟩
      simpa [onlineSets] using online
    · refine ⟨_, .lastSeen, (parts .lastSeen).2 (.inl (.inl ?_))⟩
      rw [seen]
      rfl
    · exact ⟨α, f, (parts f).2 (.inr (getLast?_filterMap_isSome.2 ⟨pc, mem, sets⟩))⟩

def Agrees (peers : Peers) (nb : NodeBackend) : Prop :=
  ∀ id n, nb.peers.get id = some n → ∃ m, peers.get id = some m ∧ n.Same m

def KnowsAll (nb : NodeBackend) (res : MapResponse) : Prop :=
  ∀ id, Named res id → (nb.peers.get id).isSome

structure OrderFree (res : MapResponse) (now : Time) (id : NodeID) (n : Node) : Prop where
  online : ∀ v w, res.onlineChange.lookup id = some v →
    written (patchesFor res id) .online = some w → w = some v
  seen : res.peerSeenChange.lookup id = some true →
    ∀ t, written (patchesFor res id) .lastSeen = some t → t = some now
  unseen : res.peerSeenChange.lookup id = some false →
    written (patchesFor res id) .lastSeen = none → n.lastSeen = none

/-- If the backend knows every node named, the order does not matter. If it does not, it changes
nothing, and nothing is new in what the response sets. -/
structure Coherent (nb : NodeBackend) (res : MapResponse) (now : Time) : Prop where
  known : KnowsAll nb res → ∀ id n, nb.peers.get id = some n → OrderFree res now id n
  unknown : ¬ KnowsAll nb res → ∀ id n, nb.peers.get id = some n →
    ∀ {α : Type} (f : Field α) v, later res now id f = some v → n.field f = v

theorem orderFree_iff :
    OrderFree res now id n ↔ ∀ {α : Type} (f : Field α),
      (((seenSets now ((res.peerSeenChange.lookup id).filter (·)) f).or
        (onlineSets (res.onlineChange.lookup id) f)).or (written (patchesFor res id) f)).getD
          (n.field f) = (later res now id f).getD (n.field f) := by
  unfold later
  constructor
  · rintro ⟨online, seen, unseen⟩ α f
    cases f with
    | online =>
      cases o : res.onlineChange.lookup id with
      | none => simp [onlineSets, seenSets]
      | some v =>
        cases w : written (patchesFor res id) .online with
        | none => simp [onlineSets, seenSets]
        | some w => simp [onlineSets, seenSets, online v _ o w]
    | lastSeen =>
      rcases s : res.peerSeenChange.lookup id with _ | _ | _
      · simp [onlineSets, seenSets]
      · cases w : written (patchesFor res id) .lastSeen with
        | none => simpa [onlineSets, seenSets, Node.field, Option.filter] using unseen s w
        | some => simp [onlineSets, seenSets, Option.filter]
      · cases w : written (patchesFor res id) .lastSeen with
        | none => simp [onlineSets, seenSets, Option.filter]
        | some t => simp [onlineSets, seenSets, Option.filter, seen s t w]
    | derp | cap | capMap | endpoints | key | keySignature | discoKey | keyExpiry =>
      simp [onlineSets, seenSets]
  · intro same
    refine ⟨?_, ?_, ?_⟩
    · intro v w o patch
      have h := same .online
      rw [o, patch] at h
      exact h.symm
    · intro s t patch
      have h := same .lastSeen
      rw [s, patch] at h
      exact h.symm
    · intro s patch
      have h := same .lastSeen
      rw [s, patch] at h
      exact h

theorem tryHandleIncrementally_get {u : Updater} {nb : NodeBackend}
    (handled : (tryHandleIncrementally u nb res now).2 = true) :
    ¬ mapResponseContainsNonPatchFields res ∧
    ∃ ret, patchMutations res.peersChangedPatch = some ret ∧
      ∀ id, (tryHandleIncrementally u nb res now).1.peers.get id =
        if ∀ m ∈ ret ++ legacyMutations res now, (nb.peers.get m.nodeID).isSome then
          (nb.peers.get id).map
            (applyMutations ((ret ++ legacyMutations res now).filter (·.nodeID = id)))
        else nb.peers.get id := by
  unfold tryHandleIncrementally at handled ⊢
  by_cases disabled : u.disableDeltaUpdates
  · rw [if_pos disabled] at handled
    cases handled
  rw [if_neg disabled] at handled ⊢
  by_cases notDelta : ¬ u.isDeltaUpdater
  · rw [if_pos notDelta] at handled
    cases handled
  rw [if_neg notDelta] at handled ⊢
  unfold mutationsFromMapResponse at handled ⊢
  by_cases nonPatch : mapResponseContainsNonPatchFields res
  · rw [if_pos nonPatch] at handled
    cases handled
  rw [if_neg nonPatch] at handled ⊢
  refine ⟨nonPatch, ?_⟩
  cases patches : patchMutations res.peersChangedPatch with
  | none =>
    rw [patches] at handled
    cases handled
  | some ret =>
    refine ⟨ret, rfl, fun id => ?_⟩
    dsimp only
    have perm := perm_insertionSort (fun a b : NodeMutation => a.nodeID ≤ b.nodeID)
      (ret ++ legacyMutations res now)
    split_ifs with some known known
    · rw [localBackendUpdateNetmapDelta, updateNetmapDelta_get, filter_sort,
        if_pos fun m mem => known m (perm.mem_iff.1 mem)]
    · rw [localBackendUpdateNetmapDelta, updateNetmapDelta_get,
        if_neg fun h => known fun m mem => h m (perm.mem_iff.2 mem)]
    · have none : ret ++ legacyMutations res now = [] := by
        rw [← length_eq_zero_iff, ← perm.length_eq]
        omega
      rw [none]
      exact map_id_apply.symm
    · rfl

theorem applyMutations_same_iff
    (patches : patchMutations res.peersChangedPatch = some ret) (sets : Sets g (later res now id)) :
    (applyMutations ((ret ++ legacyMutations res now).filter (·.nodeID = id)) n).Same (g n) ↔
      OrderFree res now id n := by
  have mutations := applyMutations_sets ((ret ++ legacyMutations res now).filter (·.nodeID = id))
  have field : ∀ {α : Type} (f : Field α),
      mutated ((ret ++ legacyMutations res now).filter (·.nodeID = id)) f =
        ((seenSets now ((res.peerSeenChange.lookup id).filter (·)) f).or
          (onlineSets (res.onlineChange.lookup id) f)).or (written (patchesFor res id) f) := by
    intro α f
    rw [filter_append, mutated_append, legacyMutations_mutated, patchMutations_mutated patches]
    rfl
  rw [orderFree_iff]
  constructor
  · rintro ⟨-, same⟩ α f
    rw [← field, ← mutations.field, ← sets.field]
    exact same f
  · intro same
    refine ⟨(mutations.rest n).trans (sets.rest n).symm, fun f => ?_⟩
    rw [mutations.field, sets.field, field]
    exact same f

theorem same_set_iff {v : {α : Type} → Field α → Option α} (sets : Sets g v) :
    n.Same (g n) ↔ ∀ {α : Type} (f : Field α) x, v f = some x → n.field f = x := by
  constructor
  · rintro ⟨-, same⟩ α f x value
    rw [same f, sets.field, value]
    rfl
  · intro same
    refine ⟨(sets.rest n).symm, fun f => ?_⟩
    rw [sets.field]
    cases value : v f with
    | none => rfl
    | some x => exact same f x value

/-- After a response that is handled incrementally the backend's peers are the session's exactly if
the response is coherent. -/
theorem incremental_agrees_iff {u : Updater} {peers : Peers} {nb : NodeBackend} {res : MapResponse}
    {now : Time} (subset : ∀ id n, nb.peers.get id = some n → peers.get id = some n)
    (handled : (tryHandleIncrementally u nb res now).2 = true) :
    Agrees (updatePeersStateFromResponse peers res now) (tryHandleIncrementally u nb res now).1 ↔
      Coherent nb res now := by
  obtain ⟨nonPatch, ret, patches, get⟩ := tryHandleIncrementally_get handled
  have knowsAll : (∀ m ∈ ret ++ legacyMutations res now, (nb.peers.get m.nodeID).isSome) ↔
      KnowsAll nb res := by
    constructor
    · intro known id named
      obtain ⟨m, mem, rfl⟩ := (named_iff patches id).2 named
      exact known m mem
    · intro known m mem
      exact known _ ((named_iff patches _).1 ⟨m, mem, rfl⟩)
  -- The session starts from its own copy, which is the backend's.
  have session : ∀ id n, nb.peers.get id = some n → ∃ g, Sets g (later res now id) ∧
      (updatePeersStateFromResponse peers res now).get id = some (g n) := by
    intro id n found
    simp only [mapResponseContainsNonPatchFields, decide_eq_true_eq, not_or, not_not,
      not_isSome_iff_eq_none] at nonPatch
    obtain ⟨-, noPeers, noRemoved, noChanged⟩ := nonPatch
    obtain ⟨g, sets, eq⟩ := update_get res (by rw [noPeers]; rfl) peers now id
    refine ⟨g, sets, ?_⟩
    rw [eq, base, changedFor, remaining, noChanged, noRemoved]
    simp [subset id n found]
  by_cases known : KnowsAll nb res
  · have result : ∀ id, (tryHandleIncrementally u nb res now).1.peers.get id =
        (nb.peers.get id).map
          (applyMutations ((ret ++ legacyMutations res now).filter (·.nodeID = id))) := by
      intro id
      rw [get, if_pos (knowsAll.2 known)]
    constructor
    · intro agrees
      refine ⟨fun _ id n found => ?_, fun unknown => absurd known unknown⟩
      obtain ⟨g, sets, eq⟩ := session id n found
      obtain ⟨m, h, same⟩ := agrees id _ (by rw [result, found]; rfl)
      rw [eq] at h
      cases h
      exact (applyMutations_same_iff patches sets).1 same
    · intro coherent id n' found'
      rw [result] at found'
      obtain ⟨n, found, rfl⟩ := map_eq_some_iff.1 found'
      obtain ⟨g, sets, eq⟩ := session id n found
      exact ⟨g n, eq, (applyMutations_same_iff patches sets).2 (coherent.known known id n found)⟩
  · have result : ∀ id, (tryHandleIncrementally u nb res now).1.peers.get id = nb.peers.get id := by
      intro id
      rw [get, if_neg (mt knowsAll.1 known)]
    constructor
    · intro agrees
      refine ⟨fun h => absurd h known, fun _ id n found => ?_⟩
      obtain ⟨g, sets, eq⟩ := session id n found
      obtain ⟨m, h, same⟩ := agrees id n (by rw [result, found])
      rw [eq] at h
      cases h
      exact (same_set_iff sets).1 same
    · intro coherent id n found'
      rw [result] at found'
      obtain ⟨g, sets, eq⟩ := session id n found'
      exact ⟨g n, eq, (same_set_iff sets).2 (coherent.unknown known id n found')⟩

namespace Sample

def backend : NodeBackend := ⟨true, peers, noNetMap_of rfl⟩

def hiddenPeer : Node := { peer with id := 2 }

def updater : Updater := ⟨false, true⟩

def offline (id : NodeID) : PeerChange := { PeerChange.zero id with online := some false }

/-- Two peers go offline, of which the backend knows one. It drops both changes, and the session is
told that they were handled. -/
theorem offline_lost :
    let res := { MapResponse.empty with peersChangedPatch := [offline 1, offline 2] }
    let (nb, handled) := tryHandleIncrementally updater backend res 0
    handled = true ∧ (nb.peers.get 1).map (·.online) = some (some true) ∧
      ((updatePeersStateFromResponse (peers.set hiddenPeer) res 0).get 1).map (·.online) =
        some (some false) := by
  decide

def rehomed : MapResponse :=
  { MapResponse.empty with peersChangedPatch := [{ PeerChange.zero 1 with derpRegion := 7 }] }

theorem rehomed_agrees :
    (tryHandleIncrementally updater backend rehomed 0).2 = true ∧
      Agrees (updatePeersStateFromResponse (peers.set hiddenPeer) rehomed 0)
        (tryHandleIncrementally updater backend rehomed 0).1 := by
  have subset : ∀ id n, backend.peers.get id = some n →
      (peers.set hiddenPeer).get id = some n := by
    intro id n found
    have same : n.id = id := Peers.get_id found
    rw [Peers.get_set, if_neg, ← found]
    · rfl
    intro hidden
    rw [hidden] at found
    exact absurd (show backend.peers.get 2 = none by decide) (found ▸ some_ne_none n)
  refine ⟨by decide, (incremental_agrees_iff subset (by decide)).2 ⟨fun _ id n _ => ?_, ?_⟩⟩
  · exact ⟨fun v w h => absurd h (by simp [rehomed, MapResponse.empty]),
      fun h => absurd h (by simp [rehomed, MapResponse.empty]),
      fun h => absurd h (by simp [rehomed, MapResponse.empty])⟩
  · intro unknown
    refine absurd (fun id named => ?_) unknown
    rcases named with online | seen | ⟨pc, mem, -⟩
    · exact absurd online (by simp [rehomed, MapResponse.empty])
    · exact absurd seen (by simp [rehomed, MapResponse.empty])
    · obtain ⟨mem, named⟩ := mem_filter.1 mem
      rw [← of_decide_eq_true named, mem_singleton.1 mem]
      decide

end Sample

end ScaleTail.Netmap
