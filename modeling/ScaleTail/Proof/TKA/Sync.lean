import ScaleTail.Proof.TKA.Offer

/-! # Synchronization converges -/

namespace ScaleTail.TKA

open Lib ForkSystem LawfulChonk List

section
variable [Crypto] {U : Set AUM} {X : AUM}

/-- No AUM in play has the digest that the walk of the sync code reads after the root. -/
def CursorStops (U : Set AUM) (X : AUM) : Prop :=
  X.prevAUMHash = none ∨ ∀ a, Known U X a → a.hash ≠ X.copyPrev X.hash

section
variable {σ : Type} [Chonk σ] [LawfulChonk σ] {storage : σ} {a : Authority} {y head : AUM}

theorem Tree.parentClosed (free : CollisionFree U X) (tree : Tree U X storage X) :
    (forks U X).ParentClosed (stored storage) := by
  intro p c hc child
  rcases tree.parent_stored free hc child with rfl | hp
  · exact absurd child.2.2 (free.acyclic p child.1)
  · exact hp

/-- What the remote learns from an offer: the head, and AUMs stored here down to the root. -/
structure Offered (X : AUM) (storage : σ) (head : AUM) (offer : SyncOffer) : Prop where
  head : offer.head = head.hash
  ancestors : ∃ hs, offer.ancestors = hs ++ [X.hash] ∧ ∀ h ∈ hs, ∃ z ∈ stored storage, z.hash = h

theorem InSync.syncOffer (free : CollisionFree U X) (sync : InSync U X storage a)
    (oldest : a.oldestAncestor = X) :
    ∃ offer, a.syncOffer storage = .ok offer ∧ Offered X storage a.head offer := by
  obtain ⟨l, trail, offer⟩ := sync.syncOffer_eq free
  rw [oldest] at trail offer
  refine ⟨_, offer, rfl, _, rfl, fun h hh => ?_⟩
  obtain ⟨z, hz, hash⟩ := mem_map.1 ((listing_sublist _ _ _ _).subset hh)
  exact ⟨z, trail.all_mem (oldest ▸ sync.tree.root.1) z (mem_reverse.1 hz), hash⟩

theorem searchHead_spec (free : CollisionFree U X) (stops : CursorStops U X)
    (tree : Tree U X storage X) (h : AUMHash) (n : Nat) (mem : y ∈ stored storage)
    (desc : (forks U X).Desc y head) : ∃ found,
      searchHead storage h n y.hash = .ok found ∧
        (found = true → ∃ z ∈ stored storage, z.hash = h ∧ (forks U X).Desc z head) := by
  induction n generalizing y with
  | zero => exact ⟨false, rfl, fun impossible => nomatch impossible⟩
  | succ n ih =>
    have read : Chonk.aum storage y.hash = .ok y := mem
    simp only [searchHead, read]
    by_cases here : y.hash = h
    · exact ⟨true, by rw [if_pos here], fun _ => ⟨y, mem, here, desc⟩⟩
    rw [if_neg here]
    rcases tree.root_or_parent mem with rfl | ⟨p, hp, child⟩
    · rcases stops with none | stops
      · have stay : y.copyPrev y.hash = y.hash := by
          simp [AUM.copyPrev, none, AUMHash.copyFrom]
        rw [stay]
        exact ih mem desc
      · have missing : Chonk.aum storage (y.copyPrev y.hash) = .error .notExist := by
          rw [aum_eq_notExist tree.verified.consistent]
          exact fun b hb => stops b (tree.verified.known b hb)
        cases n with
        | zero => exact ⟨false, rfl, fun impossible => nomatch impossible⟩
        | succ =>
          exact ⟨false, by simp only [searchHead, missing], fun impossible => nomatch impossible⟩
    · rw [copyPrev_child free child]
      exact ih hp (.head child desc)

theorem collect_eq {h : AUMHash} {m : List AUM} (differ : ∀ x ∈ m, x.hash ≠ h) (out : List AUM) :
    m.foldl (fun out c => if c.hash ≠ h then out ++ [c] else out) out = out ++ m := by
  induction m generalizing out with
  | nil => simp
  | cons _ _ ih =>
    obtain ⟨here, rest⟩ := forall_mem_cons.1 differ
    rw [foldl_cons, if_pos here, ih rest, append_assoc, singleton_append]

variable {τ : Type} [Chonk τ] [LawfulChonk τ] {remote : τ} {b : Authority} {offer : SyncOffer}

theorem shared_mem (free : CollisionFree U X) (tree : Tree U X storage X)
    (tree' : Tree U X remote X) {t z : AUM} (ht : t ∈ stored storage) (hz : z ∈ stored remote)
    (same : z.hash = t.hash) : t ∈ stored remote := by
  rwa [← free.injective (tree'.verified.known z hz).mem (tree.verified.known t ht).mem same]

variable (bounded : ∀ l b, (forks U X).Trail (stored storage) X l b → l.length < maxSyncIter)
include bounded

section
variable (free : CollisionFree U X) (sync : InSync U X storage a) (oldest : a.oldestAncestor = X)
include free sync oldest

theorem searchTail_spec (hs : List AUMHash) : ∃ t ∈ stored storage,
      searchTail storage a.head.hash (hs ++ [X.hash]) = .ok t.hash ∧
        t.hash ∈ hs ++ [X.hash] ∧ (forks U X).Desc t a.head := by
  have tree : Tree U X storage X := oldest ▸ sync.tree
  induction hs with
  | nil =>
    obtain ⟨n, s, path, lineage, leads⟩ := sync.active
    rw [oldest] at lineage leads
    have state := tree.computeStateAt free bounded tree.root.1 lineage
    obtain ⟨x, u, walked, reached⟩ := fastForward_doneAt free tree.verified tree.root.1 lineage
      leads (bounded _ _ leads.1.trail) a.head.hash
    have hit := reached.2 ⟨a.head, leads.1.trail.final_mem, rfl⟩
    refine ⟨X, tree.root.1, ?_, by simp, leads.1.trail.desc_final X mem_cons_self⟩
    simp [searchTail, state, walked, hit]
  | cons h hs ih =>
    obtain ⟨t, ht, found, listed, desc⟩ := ih
    have later : t.hash ∈ h :: hs ++ [X.hash] := mem_cons_of_mem _ listed
    by_cases here : ∃ y ∈ stored storage, y.hash = h
    · obtain ⟨y, hy, rfl⟩ := here
      obtain ⟨n, s, path, q, v, lineage, leads, short⟩ := tree.leads free hy bounded
      have state := tree.computeStateAt free bounded hy lineage
      obtain ⟨x, u, walked, reached⟩ :=
        fastForward_doneAt free tree.verified hy lineage leads short a.head.hash
      by_cases hit : x.hash = a.head.hash
      · obtain ⟨z, hz, same⟩ := reached.1 hit
        have := stored_injective (leads.1.trail.all_mem hy z hz) sync.head_mem same
        exact ⟨y, hy, by simp [searchTail, state, walked, hit], by simp,
          this ▸ leads.1.trail.desc z hz⟩
      · exact ⟨t, ht, by simpa [searchTail, state, walked, hit] using found, later, desc⟩
    · push Not at here
      have missing : computeStateAt storage maxSyncIter h = .error .notExist :=
        computeStateAt_missing tree.verified.consistent here
      exact ⟨t, ht, by simpa [searchTail, missing] using found, later, desc⟩

theorem aumsSince_spec {t : AUM} (mem : t ∈ stored storage)
    (desc : (forks U X).Desc t a.head) : ∃ s m, aumsSince storage t.hash = .ok m ∧
      (forks U X).Leads (stored storage) t s m a.head a.state := by
  have laws := forks_graded free
  have tree : Tree U X storage X := oldest ▸ sync.tree
  obtain ⟨n, s, path, lineage, leads⟩ := sync.active
  rw [oldest] at lineage leads
  obtain ⟨l, trail⟩ := tree.connected t mem
  have onPath := leads.1.trail.mem_of_desc laws desc (by rw [trail.rank_eq laws]; omega)
  obtain ⟨u, k, m, rfl, before, after⟩ := leads.1.cut onPath
  have lineage' := lineage.primary free before
  have short : m.length < maxSyncIter := by
    have := bounded _ _ leads.1.trail
    rw [length_append] at this
    omega
  have walked : fastForward storage maxSyncIter u (collectAfter t.hash) [] = .ok (a.head, a.state, _) :=
    (fastForward_eq_ok free tree.verified mem lineage').2 ⟨_, ⟨after, leads.2⟩, short, rfl⟩
  have differ : ∀ x ∈ m, x.hash ≠ t.hash := by
    intro x hx same
    have later := after.trail.lt_rank laws x hx
    rw [free.injective (tree.verified.known x (after.trail.all_mem mem x (.tail _ hx))).mem
      lineage'.mem same] at later
    exact lt_irrefl _ later
  refine ⟨u, m, ?_, after, leads.2⟩
  rw [aumsSince, tree.computeStateAt free bounded mem lineage', ok_bind, walked, ok_bind,
    foldl_cons, if_neg (not_not.2 rfl), collect_eq differ]
  rfl

end

section
variable (free : CollisionFree U X) (stops : CursorStops U X) (sync : InSync U X storage a)
  (oldest : a.oldestAncestor = X)
include free stops sync oldest

theorem computeSyncIntersection_spec (tree' : Tree U X remote X)
    (hb : b.head ∈ stored remote) (offered : Offered X remote b.head offer) {mine : SyncOffer}
    (head : mine.head = a.head.hash) :
    offer.head = mine.head ∧
        computeSyncIntersection storage mine offer = .ok ⟨true, some mine.head, none⟩ ∨
      ∃ t ∈ stored storage, t ∈ stored remote ∧ (forks U X).Desc t a.head ∧
        (computeSyncIntersection storage mine offer = .ok ⟨false, some t.hash, none⟩ ∨
          computeSyncIntersection storage mine offer = .ok ⟨false, none, some t.hash⟩) := by
  have tree : Tree U X storage X := oldest ▸ sync.tree
  obtain ⟨head', hs, ancestors, listed⟩ := offered
  obtain ⟨t, ht, tail, mem, desc⟩ := searchTail_spec bounded free sync oldest hs
  rw [← ancestors, ← head] at tail
  have ht' : t ∈ stored remote := by
    rcases mem_append.1 mem with mem | mem
    · obtain ⟨z, hz, same⟩ := listed _ mem
      exact shared_mem free tree tree' ht hz same
    · exact shared_mem free tree tree' ht tree'.root.1 (mem_singleton.1 mem).symm
  unfold computeSyncIntersection
  by_cases same : offer.head = mine.head
  · exact .inl ⟨same, by rw [if_pos same]⟩
  right
  rw [if_neg same]
  by_cases known : ∃ y ∈ stored storage, y.hash = offer.head
  · obtain ⟨y, hy, hash⟩ := known
    have read : Chonk.aum storage offer.head = .ok y := hash ▸ hy
    obtain ⟨found, search, spec⟩ :=
      searchHead_spec free stops tree offer.head maxSyncHeadIntersectionIter sync.head_mem .refl
    rw [← head] at search
    cases found with
    | true =>
      obtain ⟨z, hz, same', desc'⟩ := spec rfl
      refine ⟨z, hz, shared_mem free tree tree' hz hb (by rw [same', head']), desc', .inl ?_⟩
      simp [hasAUM, read, search, same']
    | false =>
      exact ⟨t, ht, ht', desc, .inr (by simp [hasAUM, read, search, tail])⟩
  · push Not at known
    have missing := (aum_eq_notExist tree.verified.consistent).2 known
    exact ⟨t, ht, ht', desc, .inr (by simp [hasAUM, missing, tail])⟩

theorem InSync.missingAUMs (other : InSync U X remote b)
    (oldest' : b.oldestAncestor = X) (offered : Offered X remote b.head offer) : ∃ t s m,
      t ∈ stored storage ∧ t ∈ stored remote ∧ a.missingAUMs storage offer = .ok m ∧
      (forks U X).Leads (stored storage) t s m a.head a.state := by
  have tree : Tree U X storage X := oldest ▸ sync.tree
  have tree' : Tree U X remote X := oldest' ▸ other.tree
  obtain ⟨mine, offerOk, head, -⟩ := sync.syncOffer free oldest
  simp only [Authority.missingAUMs, offerOk]
  rcases computeSyncIntersection_spec bounded free stops sync oldest tree' other.head_mem offered
    head with ⟨same, found⟩ | ⟨t, ht, ht', desc, found⟩
  · rw [offered.head, head] at same
    exact ⟨a.head, a.state, [], sync.head_mem,
      shared_mem free tree tree' sync.head_mem other.head_mem same, by rw [found], .refl _ _, sync.leaf⟩
  · obtain ⟨s, m, sent, leads⟩ := aumsSince_spec bounded free sync oldest ht desc
    refine ⟨t, s, m, ht, ht', ?_, leads⟩
    rcases found with found | found <;> rw [found] <;> exact sent

end

end

section
variable {σ τ : Type} [Chonk σ] [Chonk τ]

def receive (a : Authority) (storage : σ) (aums : List AUM) : Except Err (Authority × σ) :=
  if aums.length = 0 then .ok (a, storage)
  else
    match a.inform storage aums with
    | (.error err, _, _) => .error err
    | (.ok (), a', storage') => .ok (a', storage')

/-- One round: both sides make an offer, answer the offer of the other side, and are informed of the
answer if there is anything in it. -/
def syncRound (a : Authority) (local' : σ) (b : Authority) (remote : τ) :
    Except Err ((Authority × σ) × (Authority × τ)) := do
  let offer ← a.syncOffer local'
  let offer' ← b.syncOffer remote
  let missing ← a.missingAUMs local' offer'
  let missing' ← b.missingAUMs remote offer
  let informed ← receive a local' missing'
  let informed' ← receive b remote missing
  .ok (informed, informed')

variable {storage : σ} {remote : τ} {a b : Authority} {m : List AUM} [LawfulChonk τ]
  {path : List AUM}

theorem committed_above (free : CollisionFree U X) (tree' : Tree U X remote X) {t q : AUM}
    (trail : (forks U X).Trail (stored storage) X path q)
    (above : (forks U X).Trail (stored storage) t m q) (ht : t ∈ stored remote) :
    committed remote m = stored remote ∪ {x | x ∈ path} := by
  obtain ⟨k, below⟩ := tree'.connected t ht
  have all := (below.restrict fun x _ => Set.mem_univ x).append
    (above.restrict fun x _ => Set.mem_univ x)
  rw [trail.unique (forks_graded free) all]
  ext x
  simp only [committed, Set.mem_union, Set.mem_ofPred_eq, mem_append]
  constructor
  · rintro (old | new)
    · exact .inl old
    · exact .inr (.inr new)
  · rintro (old | old | new)
    · exact .inl old
    · exact .inl (below.mem x old)
    · exact .inr new

theorem union_bounded (free : CollisionFree U X) (tree' : Tree U X remote X) {q : AUM}
    {n : Nat} (trail : (forks U X).Trail (stored storage) X path q) (short : path.length < n)
    (bounded : ∀ l b, (forks U X).Trail (stored remote) X l b → l.length < n) (l : List AUM)
    (b : AUM) (long : (forks U X).Trail (stored remote ∪ {x | x ∈ path}) X l b) : l.length < n := by
  have laws := forks_graded free
  have rank := long.rank_eq laws
  rcases long.all_mem (.inl tree'.root.1) b long.final_mem with old | new
  · obtain ⟨k, trail'⟩ := tree'.connected b old
    have := trail'.rank_eq laws
    have := bounded k b trail'
    omega
  · have := Desc.rank_le laws (trail.desc_final b (mem_cons_of_mem _ new))
    have := trail.rank_eq laws
    omega

variable [LawfulChonk σ]

theorem InSync.receive (free : CollisionFree U X) (sync : InSync U X storage a)
    (oldest : a.oldestAncestor = X) (mem : ∀ u ∈ m, u ∈ U)
    (ready : Applicable U X (stored storage) m)
    (bounded : ∀ l b, (forks U X).Trail (committed storage m) X l b →
      l.length < maxScanIterations) :
    ∃ a' storage', TKA.receive a storage m = .ok (a', storage') ∧ InSync U X storage' a' ∧
      a'.oldestAncestor = X ∧ stored storage' = committed storage m := by
  by_cases empty : m = []
  · subst empty
    exact ⟨a, storage, rfl, sync, oldest, by simp [committed]⟩
  · obtain ⟨a', storage', run⟩ := sync.inform_total free empty mem ready (oldest ▸ bounded)
    obtain ⟨sync', oldest', contents⟩ := sync.inform free mem run
    refine ⟨a', storage', ?_, sync', oldest'.trans oldest, contents⟩
    simp [TKA.receive, empty, Authority.inform, run]

theorem InSync.answer (free : CollisionFree U X) (stops : CursorStops U X)
    (sync : InSync U X storage a) (oldest : a.oldestAncestor = X) (other : InSync U X remote b)
    (oldest' : b.oldestAncestor = X) {offer : SyncOffer} (offered : Offered X remote b.head offer)
    (bounded : ∀ l b, (forks U X).Trail (stored storage) X l b → l.length < maxScanIterations)
    (bounded' : ∀ l b, (forks U X).Trail (stored remote) X l b → l.length < maxScanIterations)
    {s : State} (leads : (forks U X).Leads (stored storage) X s path a.head a.state) :
    ∃ missing b' remote', a.missingAUMs storage offer = .ok missing ∧
      TKA.receive b remote missing = .ok (b', remote') ∧ InSync U X remote' b' ∧
      b'.oldestAncestor = X ∧ stored remote' = stored remote ∪ {x | x ∈ path} := by
  have tree : Tree U X storage X := oldest ▸ sync.tree
  have tree' : Tree U X remote X := oldest' ▸ other.tree
  obtain ⟨t, u, m, ht, ht', sent, above⟩ :=
    sync.missingAUMs bounded free stops oldest other oldest' offered
  have contents := committed_above free tree' leads.1.trail above.1.trail ht'
  obtain ⟨b', remote', received, sync', oldest'', stored'⟩ := other.receive free oldest'
    (fun x hx => (tree.verified.known x (above.1.trail.mem x hx)).mem)
    (.of_trail ht' above.1.trail)
    (contents ▸ union_bounded free tree' leads.1.trail (bounded _ _ leads.1.trail) bounded')
  exact ⟨m, b', remote', sent, received, sync', oldest'', stored'.trans contents⟩

theorem InSync.leads_root (free : CollisionFree U X) (sync : InSync U X storage a)
    (oldest : a.oldestAncestor = X) {n : Nat} {s : State} (root : Lineage U X n X s) :
    ∃ path, (forks U X).Leads (stored storage) X s path a.head a.state := by
  obtain ⟨k, s', path, lineage, leads⟩ := sync.active
  rw [oldest] at lineage leads
  rw [(root.unique free lineage).2]
  exact ⟨path, leads⟩

/-- Two authorities with the same root that were fed any batches have the same head and the same
state after one round of synchronization. -/
theorem sync_converges (free : CollisionFree U X) (stops : CursorStops U X)
    (fed : Fed U X storage a) (fed' : Fed U X remote b)
    (bounded : ChainsBelow (stored storage) maxScanIterations)
    (bounded' : ChainsBelow (stored remote) maxScanIterations) :
    ∃ a' storage' b' remote',
      syncRound a storage b remote = .ok ((a', storage'), (b', remote')) ∧
      a'.head = b'.head ∧ a'.headHash = b'.headHash ∧ a'.state = b'.state := by
  have laws := forks_graded free
  obtain ⟨sync, oldest⟩ := fed.inSync free
  obtain ⟨sync', oldest'⟩ := fed'.inSync free
  have tree : Tree U X storage X := oldest ▸ sync.tree
  have tree' : Tree U X remote X := oldest' ▸ sync'.tree
  have short := tree.trails_below bounded
  have short' := tree'.trails_below bounded'
  obtain ⟨n, s, root⟩ := tree.verified.known X tree.root.1
  obtain ⟨path, leads⟩ := sync.leads_root free oldest root
  obtain ⟨path', leads'⟩ := sync'.leads_root free oldest' root
  obtain ⟨offer, offerOk, offered⟩ := sync.syncOffer free oldest
  obtain ⟨offer', offerOk', offered'⟩ := sync'.syncOffer free oldest'
  obtain ⟨missing, b₁, remote₁, sent, received, syncB, oldestB, contentsB⟩ :=
    sync.answer free stops oldest sync' oldest' offered' short short' leads
  obtain ⟨missing', a₁, storage₁, sent', received', syncA, oldestA, contentsA⟩ :=
    sync'.answer free stops oldest' sync oldest offered short' short leads'
  obtain ⟨_, q, w, both, both'⟩ :=
    exchange laws (tree.parentClosed free) (tree'.parentClosed free) leads leads'
  obtain ⟨_, leadsA⟩ := syncA.leads_root free oldestA root
  obtain ⟨_, leadsB⟩ := syncB.leads_root free oldestB root
  rw [contentsA] at leadsA
  rw [contentsB] at leadsB
  obtain ⟨-, headA, stateA⟩ := leadsA.unique laws both
  obtain ⟨-, headB, stateB⟩ := leadsB.unique laws both'
  have state : a₁.state = b₁.state := stateA.trans stateB.symm
  refine ⟨a₁, storage₁, b₁, remote₁, ?_, headA.trans headB.symm, ?_, state⟩
  · simp only [syncRound, offerOk, offerOk', sent, sent', received, received', ok_bind]
  · rw [Authority.headHash, Authority.headHash, state]

end

end

section
open Sample

attribute [local instance] Sample.crypto

theorem sync_converges_rivals : ∃ (storage remote : Mem) (a b a' b' : Authority),
    a.head = first ∧ b.head = rival ∧
      (∃ storage' remote', syncRound a storage b remote = .ok ((a', storage'), (b', remote'))) ∧
      a'.head = b'.head ∧ a'.state = b'.state := by
  have free : CollisionFree {x | x ∈ [genesis, first, rival]} genesis :=
    genesis_free (by decide) (by decide)
  have start := started_fed (U := {x | x ∈ [genesis, first, rival]}) (by simp)
  have batch : ∀ u ∈ [first], u ∈ {x | x ∈ [genesis, first, rival]} := by simp
  have batch' : ∀ u ∈ [rival], u ∈ {x | x ∈ [genesis, first, rival]} := by simp
  have fed := start.inform batch (Prod.ext rfl (Prod.ext rfl rfl))
  have fed' := start.inform batch' (Prod.ext rfl (Prod.ext rfl rfl))
  have verified := (fed.inSync free).1.tree.verified
  have verified' := (fed'.inSync free).1.tree.verified
  obtain ⟨a', storage', b', remote', round, head, -, state⟩ := sync_converges free (.inl rfl) fed fed'
    (verified.chainsBelow free (fun x hx => (verified.known x hx).mem) (by decide))
    (verified'.chainsBelow free (fun x hx => (verified'.known x hx).mem) (by decide))
  exact ⟨_, _, _, _, a', b', rfl, rfl, ⟨storage', remote', round⟩, head, state⟩

/-- The side that was not informed of the update is sent what the other side reads back, and rejects
it. -/
theorem cleared_rejected : Fed namedAUMs namedGenesis clearedDisk atCleared ∧
    Fed namedAUMs namedGenesis namedDisk namedStart ∧ Set.InjOn AUM.hash namedAUMs ∧
      ∃ e, syncRound atCleared clearedDisk namedStart namedDisk = .error e :=
  ⟨cleared_fed, named_fed, cleared_injective, _, rfl⟩

end

end ScaleTail.TKA
