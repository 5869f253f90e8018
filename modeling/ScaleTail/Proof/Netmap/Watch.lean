import ScaleTail.Lib.Runs
import ScaleTail.Netmap.Watch
import ScaleTail.Proof.Netmap.Delta

/-! # Watchers with and without peer changes -/

namespace ScaleTail.Netmap
open Lib List

def Node.shown (n : Node) : Option Bool × Option Time × Nat × List Net.AddrPort :=
  (n.online, n.lastSeen, n.homeDERP, n.endpoints.getD [])

def Watch.Agrees (s : Watch) : Prop :=
  ∀ id, (s.known true).map (fun p => (p.get id).map Node.shown) =
    (s.known false).map fun p => (p.get id).map Node.shown

def Mutation.Told : Mutation → Prop
  | .derpHome v => v ≠ 0
  | .endpoints v => v ≠ []
  | _ => True

/-- A batch that is announced is applied, and a peer change can say what it says. A batch that is not
announced is refused, or leaves each peer as it is. -/
def Told (s : Watch) : WatchOp → Prop
  | .netMap _ => True
  | .delta muts => s.nb.netMap →
    if mutationsAreWorthyOfTellingIPNBus muts then
      ∀ m ∈ muts, (s.nb.peers.get m.nodeID).isSome ∧ m.mutation.Told
    else (∀ m ∈ muts, (s.nb.peers.get m.nodeID).isSome) →
      ∀ id n, s.nb.peers.get id = some n → applyMutations (muts.filter (·.nodeID = id)) n = n

variable {m : NodeMutation} {pc : PeerChange} {pcs : List PeerChange} {n : Node} {id : NodeID}

theorem patch_note (told : m.mutation.Told) :
    (pc.note m.mutation).patch n = m.mutation.apply (pc.patch n) := by
  obtain ⟨_, mutation⟩ := m
  cases mutation <;>
    simp_all [PeerChange.note, PeerChange.patch, Mutation.apply, Mutation.Told] <;> rfl

theorem nodeID_note (m : Mutation) : (pc.note m).nodeID = pc.nodeID := by
  cases m <;> rfl

def patchFor (id : NodeID) (pcs : List PeerChange) (n : Node) : Node :=
  pcs.foldl (fun n pc => if pc.nodeID = id then pc.patch n else n) n

theorem patchFor_of_absent (absent : ∀ pc ∈ pcs, pc.nodeID ≠ id) : patchFor id pcs n = n := by
  induction pcs with
  | nil => rfl
  | cons pc _ ih =>
    rw [patchFor, foldl_cons, if_neg (absent pc mem_cons_self)]
    exact ih fun pc mem => absent pc (mem_cons_of_mem _ mem)

theorem get_change (p : Peers) :
    (p.change pc).get id = (p.get id).map fun n => if pc.nodeID = id then pc.patch n else n := by
  unfold Peers.change
  cases found : p.get pc.nodeID with
  | none =>
    by_cases same : pc.nodeID = id
    · simp [← same, found]
    · simp [same]
  | some n =>
    have key : (pc.patch n).id = pc.nodeID := (Peers.get_id found : n.id = _)
    by_cases same : pc.nodeID = id
    · simp [← same, found, key]
    · simp [same, key, Ne.symm same]

theorem get_foldl_change (p : Peers) :
    (pcs.foldl Peers.change p).get id = (p.get id).map (patchFor id pcs) := by
  induction pcs generalizing p with
  | nil => cases found : p.get id <;> simp [found, patchFor]
  | cons _ _ ih =>
    rw [foldl_cons, ih, get_change, Option.map_map]
    rfl

theorem mem_noteMutation (mem : pc ∈ noteMutation m pcs) :
    pc.nodeID = m.nodeID ∨ ∃ pc' ∈ pcs, pc.nodeID = pc'.nodeID := by
  induction pcs with
  | nil => simp_all [noteMutation, nodeID_note, PeerChange.zero]
  | cons =>
    rw [noteMutation] at mem
    split at mem <;> grind [nodeID_note]

theorem pairwise_noteMutation (distinct : pcs.Pairwise fun a b => a.nodeID ≠ b.nodeID) :
    (noteMutation m pcs).Pairwise fun a b => a.nodeID ≠ b.nodeID := by
  induction pcs with
  | nil => simp [noteMutation]
  | cons _ _ ih =>
    obtain ⟨first, rest⟩ := pairwise_cons.1 distinct
    rw [noteMutation]
    split
    · exact pairwise_cons.2 ⟨by rwa [nodeID_note], rest⟩
    next differ =>
      refine pairwise_cons.2 ⟨fun pc' mem => ?_, ih rest⟩
      rcases mem_noteMutation mem with same | ⟨pc'', mem, same⟩
      · rwa [same]
      · rw [same]
        exact first pc'' mem

theorem patchFor_noteMutation (told : m.mutation.Told)
    (distinct : pcs.Pairwise fun a b => a.nodeID ≠ b.nodeID) :
    patchFor id (noteMutation m pcs) n =
      if m.nodeID = id then m.mutation.apply (patchFor id pcs n) else patchFor id pcs n := by
  induction pcs generalizing n with
  | nil =>
    show (if _ then ((PeerChange.zero m.nodeID).note m.mutation).patch n else n) = _
    rw [nodeID_note, patch_note told]
    rfl
  | cons pc pcs ih =>
    obtain ⟨first, rest⟩ := pairwise_cons.1 distinct
    rw [noteMutation]
    split
    next same =>
      by_cases here : pc.nodeID = id
      · have absent : ∀ pc' ∈ pcs, pc'.nodeID ≠ id := fun pc' mem => here ▸ (first pc' mem).symm
        have noted : patchFor id (pc.note m.mutation :: pcs) n = (pc.note m.mutation).patch n := by
          rw [patchFor, foldl_cons, nodeID_note, if_pos here]
          exact patchFor_of_absent absent
        have plain : patchFor id (pc :: pcs) n = pc.patch n := by
          rw [patchFor, foldl_cons, if_pos here]
          exact patchFor_of_absent absent
        rw [noted, plain, if_pos (same ▸ here), patch_note told]
      · rw [if_neg (same ▸ here), patchFor, patchFor, foldl_cons, foldl_cons, nodeID_note,
          if_neg here, if_neg here]
    · exact ih rest

theorem patchFor_peerChanges {muts : List NodeMutation} (told : ∀ m ∈ muts, m.mutation.Told) :
    (ipnBusPeerChangesFromNodeMutations muts).Pairwise (fun a b => a.nodeID ≠ b.nodeID) ∧
    patchFor id (ipnBusPeerChangesFromNodeMutations muts) n =
      applyMutations (muts.filter (·.nodeID = id)) n := by
  induction muts using List.reverseRecOn with
  | nil => exact ⟨.nil, rfl⟩
  | append_singleton muts m ih =>
    obtain ⟨distinct, same⟩ := ih fun m mem => told m (mem_append_left _ mem)
    have last : ipnBusPeerChangesFromNodeMutations (muts ++ [m]) =
        noteMutation m (ipnBusPeerChangesFromNodeMutations muts) := by
      simp [ipnBusPeerChangesFromNodeMutations]
    rw [last, patchFor_noteMutation (told m (by simp)) distinct, same, filter_append]
    refine ⟨pairwise_noteMutation distinct, ?_⟩
    by_cases here : m.nodeID = id <;> simp [here, applyMutations]

/-- Each watcher knows the peers of the backend. -/
def Watch.Level (s : Watch) : Prop :=
  ∀ mask, s.known mask = if s.nb.netMap then some s.nb.peers else none

theorem Watch.Level.step {s : Watch} (level : s.Level) {op : WatchOp} (told : Told s op) :
    (s.step op).Level := by
  intro mask
  cases op with
  | netMap => simp [Watch.step, setNetMap, send, Notify.sendTo, Notify.fold]
  | delta muts =>
    have netMap : (s.nb.updateNetmapDelta muts).1.netMap = s.nb.netMap := by
      unfold NodeBackend.updateNetmapDelta
      split
      · rfl
      · split <;> rfl
    cases has : s.nb.netMap with
    | false =>
      have off := netMap.trans has
      simp [Watch.step, Watch.updateNetmapDelta, off, level mask, has]
    | true =>
      have on' := netMap.trans has
      have told := told has
      split at told
      next worthy =>
        have known (id : NodeID) : (s.nb.updateNetmapDelta muts).1.peers.get id =
            ((ipnBusPeerChangesFromNodeMutations muts).foldl Peers.change s.nb.peers).get id := by
          rw [updateNetmapDelta_get, if_pos fun m mem => (told m mem).1, get_foldl_change]
          congr 1
          funext n
          exact (patchFor_peerChanges fun m mem => (told m mem).2).2.symm
        have same := Peers.ext_get known
        cases mask <;>
          simp [Watch.step, Watch.updateNetmapDelta, on', worthy, send, Notify.sendTo, Notify.fold,
            level true, has, same]
      next quiet =>
        have same : (s.nb.updateNetmapDelta muts).1.peers = s.nb.peers := by
          apply Peers.ext_get
          intro id
          rw [updateNetmapDelta_get]
          split
          next known => cases found : s.nb.peers.get id <;> simp [told known id, found]
          · rfl
        simp [Watch.step, Watch.updateNetmapDelta, on', quiet, level mask, has, same]

theorem Watch.Level.foldl {s : Watch} (level : s.Level) {ops : List WatchOp}
    (told : Along Watch.step Told s ops) : (ops.foldl Watch.step s).Level := by
  induction ops generalizing s with
  | nil => exact level
  | cons _ _ ih => exact ih (level.step told.1) told.2

theorem watchers_agree {ops : List WatchOp} (told : Along Watch.step Told .new ops) :
    (ops.foldl Watch.step .new).Agrees := by
  have start : Watch.new.Level := fun mask => rfl
  have level := start.foldl told
  intro id
  rw [level true, level false]

namespace Sample

def moves (m : Mutation) : WatchOp := .delta [⟨1, m⟩]

/-- The region of a peer changes, and then the peer goes offline. -/
theorem rehomed_unseen : ¬ ([.netMap peers, moves (.derpHome 7), moves (.online false)].foldl
    Watch.step .new).Agrees := by
  intro agrees
  exact absurd (agrees 1) (by decide +kernel)

theorem offline_seen :
    ([.netMap peers, .delta [⟨1, .derpHome 7⟩, ⟨1, .online false⟩]].foldl Watch.step .new).Agrees := by
  have known : ((Watch.new.step (.netMap peers)).nb.peers.get 1).isSome := by decide +kernel
  apply watchers_agree
  simp [Along, Told, mutationsAreWorthyOfTellingIPNBus, Mutation.Told, known]

end Sample

end ScaleTail.Netmap
