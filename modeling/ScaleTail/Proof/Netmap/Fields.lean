import ScaleTail.Netmap.Session

/-! # What an update does to each field of each peer -/

namespace ScaleTail.Netmap

open Net List

inductive Field : Type → Type 1
  | derp : Field Nat
  | cap : Field Nat
  | capMap : Field NodeCapMap
  | endpoints : Field (List AddrPort)
  | key : Field NodePublic
  | keySignature : Field (List UInt8)
  | discoKey : Field DiscoPublic
  | online : Field (Option Bool)
  | lastSeen : Field (Option Time)
  | keyExpiry : Field Time

namespace Node

def field (n : Node) : {α : Type} → Field α → α
  | _, .derp => n.homeDERP
  | _, .cap => n.cap
  | _, .capMap => n.capMap
  | _, .endpoints => n.endpoints.getD []
  | _, .key => n.key
  | _, .keySignature => n.keySignature.getD []
  | _, .discoKey => n.discoKey
  | _, .online => n.online
  | _, .lastSeen => n.lastSeen
  | _, .keyExpiry => n.keyExpiry

def rest (n : Node) : Node :=
  { n with
    homeDERP := 0, cap := 0, capMap := ∅, endpoints := none, key := 0, keySignature := none
    discoKey := 0, online := none, lastSeen := none, keyExpiry := 0 }

def Same (n m : Node) : Prop := n.rest = m.rest ∧ ∀ {α : Type} (f : Field α), n.field f = m.field f

theorem id_of_rest {n m : Node} (same : n.rest = m.rest) : n.id = m.id := by
  have ids : n.rest.id = m.rest.id := by rw [same]
  exact ids

end Node

def PeerChange.sets (pc : PeerChange) : {α : Type} → Field α → Option α
  | _, .derp => if pc.derpRegion = 0 then none else some pc.derpRegion
  | _, .cap => if pc.cap = 0 then none else some pc.cap
  | _, .capMap => pc.capMap
  | _, .endpoints => pc.endpoints
  | _, .key => pc.key
  | _, .keySignature => pc.keySignature
  | _, .discoKey => pc.discoKey
  | _, .online => pc.online.map some
  | _, .lastSeen => pc.lastSeen.map some
  | _, .keyExpiry => pc.keyExpiry

structure Sets (g : Node → Node) (values : {α : Type} → Field α → Option α) : Prop where
  rest : ∀ n, (g n).rest = n.rest
  field : ∀ n {α : Type} (f : Field α), (g n).field f = (values f).getD (n.field f)

namespace Sets

variable {g h : Node → Node} {v w : {α : Type} → Field α → Option α}

theorem id_eq (sets : Sets g v) (n : Node) : (g n).id = n.id := Node.id_of_rest (sets.rest n)

theorem nothing : Sets (fun n => n) fun _ => none := ⟨fun _ => rfl, fun _ _ _ => rfl⟩

theorem comp (first : Sets g v) (second : Sets h w) :
    Sets (fun n => h (g n)) fun f => (w f).or (v f) where
  rest n := (second.rest _).trans (first.rest n)
  field n _ f := by
    rw [second.field, first.field]
    cases w f <;> rfl

end Sets

def seenSets (now : Time) (seen : Option Bool) : {α : Type} → Field α → Option α
  | _, .lastSeen => seen.map fun seen => if seen then some now else none
  | _, .derp | _, .cap | _, .capMap | _, .endpoints | _, .key | _, .keySignature | _, .discoKey
  | _, .online | _, .keyExpiry => none

def onlineSets (online : Option Bool) : {α : Type} → Field α → Option α
  | _, .online => online.map some
  | _, .derp | _, .cap | _, .capMap | _, .endpoints | _, .key | _, .keySignature | _, .discoKey
  | _, .lastSeen | _, .keyExpiry => none

theorem setSeen_sets (now : Time) (seen : Bool) :
    Sets (setSeen now · seen) (seenSets now (some seen)) where
  rest _ := rfl
  field n α f := by cases f <;> rfl

theorem setOnline_sets (online : Bool) : Sets (setOnline · online) (onlineSets (some online)) where
  rest _ := rfl
  field n α f := by cases f <;> rfl

variable {α : Type}

theorem getD_or (v w : Option α) (x : α) : (v.or w).getD x = v.getD (w.getD x) := by
  cases v <;> rfl

theorem or_eq_getD (v w : Option α) : v.or w = (v.map some).getD w := by
  cases v <;> rfl

theorem applyPatch_sets (pc : PeerChange) : Sets (applyPatch · pc) pc.sets where
  rest _ := rfl
  field n α f := by
    cases f with
    | derp | cap =>
      dsimp only [applyPatch, Node.field, PeerChange.sets]
      split_ifs <;> simp_all
    | endpoints | keySignature => exact getD_or _ _ _
    | online | lastSeen => exact or_eq_getD _ _
    | capMap | key | discoKey | keyExpiry => rfl

theorem getLast?_filterMap_append {α β : Type} (g : β → Option α) (l l' : List β) :
    ((l ++ l').filterMap g).getLast? = ((l'.filterMap g).getLast?).or ((l.filterMap g).getLast?) := by
  rw [filterMap_append, getLast?_append]

theorem getLast?_filterMap_singleton {α β : Type} (g : β → Option α) (b : β) :
    ([b].filterMap g).getLast? = g b := by
  cases value : g b <;> simp [value]

theorem Sets.foldl {β : Type} {g : Node → β → Node} {v : β → {α : Type} → Field α → Option α}
    (each : ∀ b, Sets (g · b) (v b)) (l : List β) :
    Sets (fun n => l.foldl g n) fun f => (l.filterMap (v · f)).getLast? := by
  induction l with
  | nil => exact Sets.nothing
  | cons b _ ih =>
    have both := (each b).comp ih
    refine ⟨both.rest, fun n α f => ?_⟩
    rw [← singleton_append, getLast?_filterMap_append, getLast?_filterMap_singleton]
    exact both.field n f

def written {α : Type} (pcs : List PeerChange) (f : Field α) : Option α :=
  (pcs.filterMap (·.sets f)).getLast?

theorem written_append (pcs pcs' : List PeerChange) (f : Field α) :
    written (pcs ++ pcs') f = (written pcs' f).or (written pcs f) :=
  getLast?_filterMap_append _ _ _

section
variable {α : Type} {peers : Peers} {id : NodeID}

theorem modify_get {g : Node → Node} (ids : ∀ n, (g n).id = n.id) (key : NodeID) :
    (peers.modify key g).get id = if key = id then (peers.get id).map g else peers.get id := by
  unfold Peers.modify
  cases found : peers.get key with
  | none =>
    split_ifs with same
    · rw [← same, found, Option.map_none]
    · rfl
  | some =>
    rw [Peers.get_set, ids, Peers.get_id found]
    by_cases same : key = id
    · rw [if_pos same.symm, if_pos same, ← same, found, Option.map_some]
    · rw [if_neg (Ne.symm same), if_neg same]

theorem foldl_modify_get (key : α → NodeID) (g : α → Node → Node)
    (ids : ∀ a n, (g a n).id = n.id) (changes : List α) (peers : Peers) (id : NodeID) :
    (changes.foldl (fun peers a => peers.modify (key a) (g a)) peers).get id =
      (peers.get id).map fun n => (changes.filter (key · = id)).foldl (fun n a => g a n) n := by
  induction changes generalizing peers with
  | nil => simp
  | cons a _ ih =>
    rw [foldl_cons, ih, modify_get (ids a)]
    by_cases same : key a = id
    · rw [if_pos same, Option.map_map, filter_cons_of_pos (by simpa using same)]
      rfl
    · rw [if_neg same, filter_cons_of_neg (by simpa using same)]

theorem foldl_set_get (nodes : List Node) (peers : Peers) (id : NodeID) :
    (nodes.foldl Peers.set peers).get id =
      ((nodes.filter (·.id = id)).getLast?).or (peers.get id) := by
  induction nodes generalizing peers with
  | nil => rfl
  | cons n nodes ih =>
    rw [foldl_cons, ih, Peers.get_set]
    by_cases same : n.id = id
    · rw [if_pos same.symm, filter_cons_of_pos (by simpa using same), getLast?_cons]
      cases (nodes.filter (·.id = id)).getLast? <;> rfl
    · rw [if_neg (Ne.symm same), filter_cons_of_neg (by simpa using same)]

theorem foldl_delete_get (ids : List NodeID) (peers : Peers) (id : NodeID) :
    (ids.foldl Peers.delete peers).get id = if id ∈ ids then none else peers.get id := by
  induction ids generalizing peers with
  | nil => simp
  | cons old ids ih =>
    rw [foldl_cons, ih, Peers.get_delete]
    by_cases mem : id ∈ ids
    · simp [mem]
    · by_cases same : id = old <;> simp [mem, same]

theorem filter_entries (m : AList fun _ : NodeID => Bool) (id : NodeID) :
    m.entries.filter (·.1 = id) = ((m.lookup id).map (Sigma.mk id)).toList := by
  obtain ⟨entries, nodup⟩ := m
  unfold AList.lookup
  induction entries with
  | nil => rfl
  | cons e entries ih =>
    obtain ⟨key, value⟩ := e
    obtain ⟨fresh, nodup⟩ := nodupKeys_cons.1 nodup
    by_cases same : key = id
    · subst same
      have none : entries.filter (·.1 = key) = [] := by
        rw [filter_eq_nil_iff]
        intro e mem
        rw [decide_eq_true_eq]
        rintro rfl
        have keyed : e.1 ∈ entries.keys := mem_keys_of_mem mem
        exact fresh keyed
      rw [filter_cons_of_pos (by simp), none, dlookup_cons_eq]
      rfl
    · rw [filter_cons_of_neg (by simpa using same), ih nodup,
        dlookup_cons_ne _ _ (Ne.symm same)]

end

def Peers.Same (p q : Peers) : Prop := ∀ id, Option.Rel Node.Same (p.get id) (q.get id)

def changedFor (resp : MapResponse) (id : NodeID) : List Node :=
  (resp.peersChanged.getD []).filter (·.id = id)

def remaining (peers : Peers) (resp : MapResponse) (id : NodeID) : Option Node :=
  if id ∈ resp.peersRemoved.getD [] then none else peers.get id

def base (peers : Peers) (resp : MapResponse) (id : NodeID) : Option Node :=
  (changedFor resp id).getLast?.or (remaining peers resp id)

def patchesFor (resp : MapResponse) (id : NodeID) : List PeerChange :=
  resp.peersChangedPatch.filter (·.nodeID = id)

/-- The value that the seen changes, the online changes and the patches of a response leave in a
field of a peer, if they set it. -/
def later (resp : MapResponse) (now : Time) (id : NodeID) {α : Type} (f : Field α) : Option α :=
  (written (patchesFor resp id) f).or
    ((onlineSets (resp.onlineChange.lookup id) f).or
      (seenSets now (resp.peerSeenChange.lookup id) f))

theorem entries_sets {g : Node → Bool → Node} {v : Option Bool → {α : Type} → Field α → Option α}
    (none : ∀ {α : Type} (f : Field α), v none f = none)
    (sets : ∀ b, Sets (g · b) (v (some b))) (m : AList fun _ : NodeID => Bool) (id : NodeID) :
    Sets (fun n => (m.entries.filter (·.1 = id)).foldl (fun n e => g n e.2) n)
      (v (m.lookup id)) := by
  rw [filter_entries]
  cases m.lookup id with
  | none => exact ⟨fun _ => rfl, fun n α f => by rw [none]; rfl⟩
  | some b => exact sets b

theorem update_get (resp : MapResponse) (delta : resp.peers.getD [] = []) (peers : Peers)
    (now : Time) (id : NodeID) :
    ∃ g, Sets g (later resp now id) ∧
      (updatePeersStateFromResponse peers resp now).get id = (base peers resp id).map g := by
  have seen := entries_sets (v := seenSets now) (fun f => by cases f <;> rfl)
    (setSeen_sets now) resp.peerSeenChange id
  have online := entries_sets (v := onlineSets) (fun f => by cases f <;> rfl)
    setOnline_sets resp.onlineChange id
  refine ⟨_, (seen.comp online).comp (Sets.foldl applyPatch_sets (patchesFor resp id)), ?_⟩
  unfold updatePeersStateFromResponse
  rw [if_neg (by simp [delta])]
  rw [foldl_modify_get PeerChange.nodeID (fun pc n => applyPatch n pc)
      fun pc n => (applyPatch_sets pc).id_eq n,
    foldl_modify_get Sigma.fst (fun (e : Sigma fun _ : NodeID => Bool) n => setOnline n e.2)
      fun _ _ => rfl,
    foldl_modify_get Sigma.fst (fun (e : Sigma fun _ : NodeID => Bool) n => setSeen now n e.2)
      fun _ _ => rfl,
    foldl_set_get, foldl_delete_get, Option.map_map, Option.map_map]
  rfl

end ScaleTail.Netmap
