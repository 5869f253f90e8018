import ScaleTail.Proof.TKA.Restart

/-! # Retroactive revocation -/

namespace ScaleTail.TKA

open Lib ForkSystem LawfulChonk State Except

section
open Authority

variable {ks ks' : List Key} {id : Bytes} {ids : List Bytes} {s : State}

section
variable (valid : KeysValid ks) (distinct : ks.Pairwise fun k l => k.id ≠ l.id)
include valid distinct

theorem revokeIn_ok :
    revokeIn id ks = .ok (ks.filter fun k => k.pub ≠ id) := by
  induction ks with
  | nil => rfl
  | cons k ks ih =>
    obtain ⟨here, rest⟩ := List.forall_mem_cons.1 valid
    obtain ⟨apart, distinct⟩ := List.pairwise_cons.1 distinct
    have ids := Key.id_of_valid here
    rw [revokeIn, ids]
    dsimp only
    split
    next same =>
      subst same
      have others : ∀ l ∈ ks, decide (l.pub ≠ k.pub) = true := by
        intro l hl
        refine decide_eq_true fun equal => apart l hl ?_
        rw [ids, Key.id_of_valid (rest l hl), equal]
      rw [List.filter_cons_of_neg (by simp), List.filter_eq_self.2 others]
    next differ =>
      have kept : k.pub ≠ id := Ne.symm differ
      rw [ih rest distinct, ok_bind, List.filter_cons_of_pos (by simpa using kept)]

theorem revokeAll_ok :
    revokeAll ids ks = .ok (ks.filter fun k => k.pub ∉ ids) := by
  induction ids generalizing ks with
  | nil => simp [revokeAll]
  | cons id _ ih =>
    rw [revokeAll, revokeIn_ok valid distinct, ok_bind, ih, List.filter_filter]
    · refine congrArg _ (List.filter_congr fun k _ => ?_)
      by_cases here : k.pub = id <;> simp [here]
    · exact fun k hk => valid k (List.mem_of_mem_filter hk)
    · exact distinct.sublist List.filter_sublist

end

theorem getKeyIn_filter (valid : KeysValid ks) (kept : id ∉ ids) :
    getKeyIn id (ks.filter fun k => k.pub ∉ ids) = getKeyIn id ks := by
  induction ks with
  | nil => rfl
  | cons k _ ih =>
    obtain ⟨here, rest⟩ := List.forall_mem_cons.1 valid
    by_cases revoked : k.pub ∈ ids
    · have differ : k.pub ≠ id := by
        rintro rfl
        exact kept revoked
      rw [List.filter_cons_of_neg (by simpa using revoked), ih rest, getKeyIn,
        Key.id_of_valid here, ok_bind, if_neg differ]
    · rw [List.filter_cons_of_pos (by simpa using revoked), getKeyIn, getKeyIn, ih rest]

theorem getKeyIn_revoked (revoked : id ∈ ids) {k : Key} :
    getKeyIn id (ks.filter fun k => k.pub ∉ ids) ≠ .ok k := by
  intro found
  obtain ⟨mem, hid⟩ := getKeyIn_ok found
  rw [Key.id_ok hid] at revoked
  simpa [revoked] using (List.mem_filter.1 mem).2

end

section
open Authority

variable [Crypto] {σ : Type} [CompactableChonk σ] [LawfulCompactableChonk σ] {U : Set AUM}
  {X F P c : AUM} {storage : σ} {a : Authority} {removeKeys : List Bytes} {ourKey : Bytes}
  {fuel n : Nat} {h : AUMHash} {l : List AUM} {s : State} {f : AUM}

theorem findParentLoop_ok (sync : InSync U X storage a) (mem : c ∈ stored storage)
    (trail : (forks U X).Trail (stored storage) c l a.head)
    (found : findParentLoop a storage removeKeys ourKey n c.hash = .ok h) :
    ∃ P ∈ stored storage, P.hash = h ∧ ∃ k, (forks U X).Trail (stored storage) P k a.head := by
  induction n generalizing c l with
  | zero => cases found
  | succ _ ih =>
    have here : c.hash = h → ∃ P ∈ stored storage, P.hash = h ∧
        ∃ k, (forks U X).Trail (stored storage) P k a.head := fun same => ⟨c, mem, same, l, trail⟩
    have read : Chonk.aum storage c.hash = .ok c := mem
    rw [findParentLoop] at found
    split at found
    · exact here (ok.inj found)
    rename_i above
    rw [read] at found
    dsimp only at found
    split at found
    · cases found
    split at found
    · exact here (ok.inj found)
    split at found
    · exact here (ok.inj found)
    rename_i parent link
    rcases sync.tree.root_or_parent mem with rfl | ⟨p, hp, child⟩
    · exact absurd rfl above
    · obtain rfl := Option.some.inj (child.2.2.symm.trans link)
      exact ih hp (.step mem child trail) found

def forking (a : Authority) (h : AUMHash) (keys : List Key) : AUM :=
  { AUM.zero with
    messageKind := .checkpoint
    state := some { a.state with keys, lastAUMHash := none }
    prevAUMHash := some h.bytes }

omit [LawfulCompactableChonk σ] in
theorem makeRetroactiveRevocation_ok
    (made : a.makeRetroactiveRevocation storage removeKeys ourKey AUMHash.zero fuel = .ok F) :
    ∃ h keys, findParentLoop a storage removeKeys ourKey fuel a.headHash = .ok h ∧
      revokeAll removeKeys a.state.keys = .ok keys ∧ F = forking a h keys ∧
      F.staticValidate = .ok () := by
  rw [makeRetroactiveRevocation, bind_eq_ok] at made
  obtain ⟨h, parent, made⟩ := made
  obtain ⟨keys, revoked, made⟩ := bind_eq_ok.1 made
  rw [ite_error_eq_ok] at made
  obtain ⟨-, made⟩ := made
  have found : findParentLoop a storage removeKeys ourKey fuel a.headHash = .ok h := by
    rw [rewriteParent, if_pos rfl, ite_error_eq_ok] at parent
    obtain ⟨-, parent⟩ := parent
    split at parent
    · cases parent
    rename_i p found
    obtain rfl := ok.inj parent
    exact found
  dsimp only at made
  split at made
  · cases made
  rename_i static
  obtain rfl := ok.inj made
  exact ⟨h, keys, found, revoked, rfl, static⟩

def SignaturesSized : Prop := ∀ pub h sig, pub.length = publicKeySize →
  Crypto.verify pub h sig = true → sig.length = signatureSize

def ValidlySigned (s : State) (f : AUM) : Prop :=
  f.signatures ≠ [] ∧ ∀ sig ∈ f.signatures.zipIdx, verifySignatureOf f s sig = .ok ()

theorem verifySignatureOf_sizes (sized : SignaturesSized) {sig : Signature × Nat}
    (verified : verifySignatureOf f s sig = .ok ()) :
    sig.1.keyID.length = 32 ∧ sig.1.signature.length = signatureSize := by
  unfold verifySignatureOf at verified
  split at verified
  · cases verified
  rename_i key found
  have hid := Key.id_ok (getKeyIn_ok found).2
  split at verified
  next checked =>
    unfold signatureVerify at checked
    split at checked
    · rw [ite_error_eq_ok, not_not] at checked
      obtain ⟨size, checked⟩ := checked
      split at checked
      next valid => exact ⟨hid ▸ size, sized _ _ _ size valid⟩
      · cases checked
    · cases checked
  · cases verified

theorem forking_verified (sized : SignaturesSized) {h : AUMHash} {keys : List Key}
    (static : (forking a h keys).staticValidate = .ok ())
    (same : { f with signatures := [] } = forking a h keys) (last : s.lastAUMHash = some h)
    (id1 : a.state.stateID1 = s.stateID1) (id2 : a.state.stateID2 = s.stateID2)
    (signed : ValidlySigned s f) :
    f.parent = some h ∧ aumVerify f s false = .ok () ∧
      ∃ next, s.applyVerifiedAUM f = .ok next ∧ next.keys = keys := by
  have prev : f.prevAUMHash = some h.bytes := congrArg AUM.prevAUMHash same
  have kind : f.messageKind = .checkpoint := congrArg AUM.messageKind same
  have field : f.state = some { a.state with keys, lastAUMHash := none } := congrArg AUM.state same
  have parent := AUM.parent_of_prev prev
  rw [← same] at static
  obtain ⟨hkey, nonempty, -, checkpoint, fields⟩ := AUM.staticValidate_ok.1 static
  have sizes : ∀ sig ∈ f.signatures, sig.keyID.length = 32 ∧ sig.signature.length = signatureSize :=
    forall_zipIdx.1 fun sig hsig => verifySignatureOf_sizes sized (signed.2 sig hsig)
  have notLast : removesLastKey f s = false := by simp [removesLastKey, kind]
  have matching : s.parentMatches f = true := by simp [parentMatches, last, prev]
  refine ⟨parent, aumVerify_ok.2 ⟨AUM.staticValidate_ok.2 ⟨hkey, nonempty, sizes, checkpoint, fields⟩,
    fun _ => checkParent_ok.2 ⟨h, parent, last⟩, signed.1, signed.2, notLast⟩,
    cloneForUpdate { a.state with keys, lastAUMHash := none } f, ?_, rfl⟩
  rw [applyVerifiedAUM, if_neg (by simp [matching]), kind]
  rw [field]
  exact if_pos ⟨id1, id2⟩

theorem forkKey_weight_lt {f c : AUM} (less : weightIn s c < weightIn s f) :
    forkKey s f < forkKey s c := by
  refine Prod.Lex.toLex_lt_toLex.2 (.inl ?_)
  exact OrderDual.toDual_lt_toDual.2 (UInt64.lt_iff_toNat_lt.1 less)

section
variable (free : CollisionFree U X) (sync : InSync U X storage a) (trail : (forks U X).Trail
  (stored storage) P l a.head) (hP : P ∈ stored storage)
include free sync trail hP

theorem InSync.leads_through
    (lineage : Lineage U X n P s) {next : State} (child : (forks U X).child P f)
    (applied : s.applyVerifiedAUM f = .ok next)
    (best : ∀ c ∈ stored storage, c.parent = some P.hash → c ≠ f → weightIn s c < weightIn s f)
    (childless : ∀ c ∈ stored storage, c.parent ≠ some f.hash) :
    ∃ m s₀ path, Lineage U X m a.oldestAncestor s₀ ∧
      (forks U X).Leads (stored storage ∪ {f}) a.oldestAncestor s₀ path f next := by
  have laws := forks_graded free
  obtain ⟨m, s₀, path, root, leads, -⟩ := sync.active
  have on : P ∈ a.oldestAncestor :: path := by
    obtain ⟨k, below⟩ := sync.tree.connected P hP
    refine leads.trail.mem_of_desc laws (trail.desc_final P List.mem_cons_self) ?_
    rw [below.rank_eq laws]
    exact Nat.le_add_right _ _
  obtain ⟨u, before, after, -, primary, -⟩ := leads.cut on
  obtain ⟨-, rfl⟩ := (root.primary free primary).unique free lineage
  have kept : (forks U X).Primary (stored storage ∪ {f}) a.oldestAncestor s₀ before P u := by
    refine primary.congr fun x hx c child' => ⟨.inl, fun hc => hc.resolve_right fun same => ?_⟩
    obtain rfl := Set.mem_singleton_iff.1 same
    obtain rfl := laws.parent_unique child' child
    exact lt_irrefl _ (primary.trail.rank_lt laws x hx)
  have picks : (forks U X).Picks (stored storage ∪ {f}) u P f := by
    refine ⟨.inr rfl, child, fun d hd child' => ?_⟩
    by_cases same : d = f
    · rw [same]
    · exact (forkKey_weight_lt (best d (hd.resolve_right same) child'.2.2 same)).le
  refine ⟨m, s₀, before ++ [f], root, kept.trans (.step picks (forks_apply.2 applied) (.refl _ _)), ?_⟩
  rintro c (hc | hc) child'
  · exact childless c hc child'.2.2
  · obtain rfl := Set.mem_singleton_iff.1 hc
    have := laws.rank_child child'
    omega

theorem InSync.trails_fork (inner : P ≠ a.head) (child : (forks U X).child P f)
    (childless : ∀ c ∈ stored storage, c.parent ≠ some f.hash)
    (short : ChainsBelow (stored storage) (maxScanIterations + 1)) (k : List AUM) (b : AUM)
    (path : (forks U X).Trail (committed storage [f]) a.oldestAncestor k b) :
    k.length < maxScanIterations := by
  have laws := forks_graded free
  have old : ∀ k b, (forks U X).Trail (stored storage) a.oldestAncestor k b →
      k.length < maxScanIterations := fun k b path =>
    Nat.lt_of_succ_lt_succ (short.trail sync.tree.root.1 path)
  by_cases new : f ∈ k
  · -- The chain ends with `f`, and the one to the head is at least as long.
    obtain ⟨before, after, rfl, upto, rest⟩ := path.cut (List.mem_cons_of_mem _ new)
    obtain rfl : after = [] := by
      cases rest with
      | refl => rfl
      | step mem child' =>
        rcases mem with mem | mem
        · exact absurd child'.2.2 (childless _ mem)
        obtain rfl := List.mem_singleton.1 mem
        have := laws.rank_child child'
        omega
    obtain ⟨m, below⟩ := sync.tree.connected P hP
    have ranks := upto.rank_eq laws
    rw [laws.rank_child child, below.rank_eq laws] at ranks
    cases trail with
    | refl => exact absurd rfl inner
    | step mem child' =>
      have := old _ _ (below.concat mem child')
      simp only [List.length_append, List.length_nil, List.length_singleton] at this ⊢
      omega
  · refine old k b (path.restrict fun x hx => (path.mem x hx).resolve_right fun same => ?_)
    exact new (List.mem_singleton.1 same ▸ hx)

end

/-- The revocation `F` of an authority forks off at `P`, which is the head or an AUM before it. Once
`F` is validly signed, with more weight than the other children of `P`, `Inform` makes it the head. -/
theorem revocation_effective (free : CollisionFree U X) (sized : SignaturesSized)
    (run : Reachable U X storage a)
    (made : a.makeRetroactiveRevocation storage removeKeys ourKey AUMHash.zero fuel = .ok F) :
    ∃ P n s, F.parent = some P.hash ∧ (∃ i, ancestorAt storage i a.head = some P) ∧
      Lineage U X n P s ∧ ∀ f ∈ U, { f with signatures := [] } = F → ValidlySigned s f →
        (∀ c ∈ stored storage, c.parent = some P.hash → c ≠ f → weightIn s c < weightIn s f) →
        (∀ c ∈ stored storage, c.parent ≠ some f.hash) →
        (P = a.head ∨ ChainsBelow (stored storage) (maxScanIterations + 1)) →
        ∃ a' storage', a.inform storage [f] = (.ok (), a', storage') ∧ a'.head = f ∧
          (∀ id ∈ removeKeys, a'.keyTrusted id = false) ∧
          ∀ id, id ∉ removeKeys → ∀ k, a.state.getKey id = .ok k → a'.state.getKey id = .ok k := by
  have sync := run.inSync free
  obtain ⟨m, lineage⟩ := sync.lineage free
  obtain ⟨h, keys, found, revoked, rfl, static⟩ := makeRetroactiveRevocation_ok made
  rw [headHash_eq lineage] at found
  obtain ⟨P, hP, rfl, l, trail⟩ := findParentLoop_ok sync sync.head_mem (.refl _) found
  obtain ⟨n, s, atP⟩ := sync.tree.verified.known P hP
  refine ⟨P, n, s, AUM.parent_of_prev rfl, ⟨_, trail_ancestorAt subset_rfl hP trail⟩, atP, ?_⟩
  intro f hf same signed best childless short
  obtain ⟨st, field, id1, id2⟩ := lineage.stateIDs
  obtain ⟨st', field', id1', id2'⟩ := atP.stateIDs
  obtain rfl := Option.some.inj (field.symm.trans field')
  obtain ⟨parent, verified, next, applied, hkeys⟩ := forking_verified sized static same atP.last
    (id1.trans id1'.symm) (id2.trans id2'.symm) signed
  have final : Lineage U X (n + 1) f next := .step atP hf verified applied
  have child : (forks U X).child P f := ⟨⟨n, s, atP⟩, ⟨_, _, final⟩, parent⟩
  have mem : ∀ u ∈ [f], u ∈ U := by simpa using hf
  -- Whichever way `Inform` goes, it arrives at `f`.
  obtain ⟨a', storage', informed, head, k, lineage'⟩ : ∃ a' storage',
      a.informIdempotent storage [f] = (.ok a', storage') ∧ a'.head = f ∧
        ∃ k, Lineage U X k f a'.state := by
    by_cases inner : P = a.head
    · subst inner
      obtain ⟨storage', k, t, informed, lineage'⟩ := sync.inform_chain free (by simp) mem
        (.step (Set.mem_univ f) child (.refl f))
      exact ⟨_, storage', informed, rfl, k, lineage'⟩
    · have bounded := sync.trails_fork free trail hP inner child childless (short.resolve_left inner)
      obtain ⟨a', storage', informed⟩ := sync.inform_total free (by simp) mem
        ⟨.inr ⟨P, hP, child⟩, trivial⟩ bounded
      obtain ⟨sync', oldest, contents⟩ := sync.inform free mem informed
      obtain ⟨i, s₀, path, root, leads⟩ :=
        sync.leads_through free trail hP atP child applied best childless
      obtain ⟨j, s₁, path', root', leads'⟩ := sync'.active
      rw [oldest] at root' leads'
      rw [contents, committed_singleton] at leads'
      obtain ⟨-, rfl⟩ := root.unique free root'
      obtain ⟨-, head, state⟩ := leads.unique (forks_graded free) leads'
      exact ⟨a', storage', informed, head.symm, n + 1, state ▸ final⟩
  obtain ⟨-, rfl⟩ := final.unique free lineage'
  have revoked' : keys = a.state.keys.filter fun k => k.pub ∉ removeKeys :=
    ok.inj (revoked.symm.trans (revokeAll_ok lineage.valid.keys lineage.valid.distinct))
  refine ⟨a', storage', by rw [Authority.inform, informed], head, ?_, ?_⟩
  · intro id hid
    rw [keyTrusted, getKey, hkeys, revoked']
    split
    next k untrusted => exact absurd untrusted (getKeyIn_revoked hid)
    · rfl
  · intro id hid k trusted
    rw [getKey, hkeys, revoked', getKeyIn_filter lineage.valid.keys hid]
    exact trusted

end

section
open Sample

set_option maxRecDepth 2000

attribute [local instance] Sample.crypto

theorem sample_sized : SignaturesSized := by
  intro pub h sig size valid
  rw [beq_iff_eq.1 valid, List.length_append, size, h.size]
  rfl

def keyCheckpoint (p : AUM) (keys : List Key) (signers : List UInt8) : AUM :=
  sign signers { AUM.zero with
    messageKind := .checkpoint
    state := some { state with keys }
    prevAUMHash := some p.hash.bytes }

def withoutSecond : AUM := keyCheckpoint genesis [key 1 2] [1, 2]

/-- `f` is a revocation that forks off at `P`, with valid signatures that outweigh the other children
of `P` in the state `s` there. -/
structure SignedRevocation (U : Set AUM) (storage : Mem) (a : Authority) (removeKeys : List Bytes)
    (ourKey : Bytes) (P : AUM) (s : State) (f : AUM) : Prop where
  free : CollisionFree U genesis
  run : Reachable U genesis storage a
  made : ∃ fuel, a.makeRetroactiveRevocation storage removeKeys ourKey AUMHash.zero fuel =
    .ok { f with signatures := [] }
  mem : f ∈ U
  parent : f.parent = some P.hash
  state : ∃ n, Lineage U genesis n P s
  signed : ValidlySigned s f
  best : ∀ c ∈ stored storage, c.parent = some P.hash → c ≠ f → weightIn s c < weightIn s f

theorem withoutSecond_branch : Branch withoutSecond :=
  ⟨by decide, by decide, trunk_ne (k := 165) (by decide +kernel) (by decide) (by decide)⟩

theorem second_trusted (i : Nat) :
    [pub 2].any (Authority.trusts (state.cloneForUpdate (trunk i))) = true := rfl

section
variable {storage : Mem} {n : Nat} (small : n < 2 ^ 64)
  (run : Reachable (grove withoutSecond n) genesis storage (atTrunk n))
include small run

theorem withoutSecond_childless : ∀ c ∈ stored storage, c.parent ≠ some withoutSecond.hash := by
  intro c hc link
  have known := ((run.inSync (grove_free withoutSecond_branch small)).tree.verified.known c hc).mem
  rcases grove_parent withoutSecond_branch known link with ⟨-, same⟩ | ⟨i, lt, -, same⟩
  · exact absurd same (by decide)
  · exact withoutSecond_branch.apart (lt.trans small) same

variable (contents : ∀ i ≤ n, trunk i ∈ stored storage)
include contents

theorem trunk_state {i : Nat} (le : i ≤ n) (short : i ≤ maxScanIterations) :
    computeStateAt storage maxScanIterations (trunk i).hash = .ok (state.cloneForUpdate (trunk i)) := by
  have free := grove_free withoutSecond_branch small
  have verified := (run.inSync free).tree.verified
  have kept (k : Nat) : ∀ u ∈ span k i, u ∈ stored storage := by
    intro u hu
    obtain ⟨j, -, before, rfl⟩ := mem_span.1 hu
    exact contents j (before.trans le)
  obtain below | above := Nat.lt_or_ge i 2
  · exact computeStateAt_total free verified (contents 0 n.zero_le) rfl
      ((span_trail i.zero_le le).restrict (kept 0)) (by simp [span, maxScanIterations]; omega)
      (trunk_lineage le)
  · exact computeStateAt_total free verified (contents 2 (above.trans le)) rfl
      ((span_trail above le).restrict (kept 2)) (by simp [span]; omega) (trunk_lineage le)

/-- The second key is trusted all along the trunk, so the walk ends at its root. -/
theorem findParentLoop_trunk {i : Nat} (le : i ≤ n) (short : i ≤ maxScanIterations) :
    (atTrunk n).findParentLoop storage [pub 2] (pub 1) (i + 1) (trunk i).hash = .ok genesis.hash := by
  induction i with
  | zero => exact if_pos rfl
  | succ i ih =>
    have inner : (trunk (i + 1)).hash ≠ (atTrunk n).oldestAncestor.hash := fun same =>
      i.succ_ne_zero (trunk_injective (j := 0) (by omega) (by decide) same)
    have read : Chonk.aum storage (trunk (i + 1)).hash = .ok (trunk (i + 1)) := contents _ le
    rw [Authority.findParentLoop, if_neg inner, read, trunk_state small run contents le short]
    dsimp only
    rw [second_trusted, if_neg (by simp), trunk_parent]
    exact ih (by omega) (by omega)

theorem withoutSecond_signed (short : n ≤ maxScanIterations) :
    SignedRevocation (grove withoutSecond n) storage (atTrunk n) [pub 2] (pub 1) genesis
      (state.cloneForUpdate genesis) withoutSecond := by
  have free := grove_free withoutSecond_branch small
  have walk : (atTrunk n).findParentForRewrite storage [pub 2] (pub 1) (n + 1) = .ok genesis.hash :=
    findParentLoop_trunk small run contents le_rfl short
  have rewrite : (atTrunk n).rewriteParent storage [pub 2] (pub 1) AUMHash.zero (n + 1) =
      .ok genesis.hash := by
    rw [Authority.rewriteParent, if_pos rfl, atTrunk, second_trusted, if_neg (by simp), ← atTrunk, walk]
  have made : (atTrunk n).makeRetroactiveRevocation storage [pub 2] (pub 1) AUMHash.zero (n + 1) =
      .ok { withoutSecond with signatures := [] } := by
    rw [Authority.makeRetroactiveRevocation, rewrite, ok_bind]
    rfl
  refine ⟨free, run, ⟨_, made⟩, .inl rfl, withoutSecond_branch.parent, ⟨0, trunk_lineage n.zero_le⟩,
    ⟨by decide, by decide⟩, fun c hc link differ => ?_⟩
  have known := ((run.inSync free).tree.verified.known c hc).mem
  rcases grove_parent withoutSecond_branch known link with ⟨same, -⟩ | ⟨i, lt, rfl, same⟩
  · exact absurd same differ
  · obtain rfl : i = 0 := trunk_injective (j := 0) (by omega) (by decide) same
    decide

end

theorem revocation_effective_second : ∃ a' storage',
    atTip.inform uncompacted [withoutSecond] = (.ok (), a', storage') ∧ a'.head = withoutSecond ∧
      a'.keyTrusted (pub 2) = false ∧ a'.state.getKey (pub 1) = .ok (key 1 2) := by
  have run : Reachable (grove withoutSecond 3) genesis uncompacted atTip :=
    (started_reachable (trunk_mem (Nat.zero_le 3))).inform (span_mem (k := 0))
      (Prod.ext rfl (Prod.ext rfl rfl))
  have contents : ∀ i ≤ 3, trunk i ∈ stored uncompacted := by
    intro i le
    interval_cases i <;> rfl
  have signed := withoutSecond_signed (by decide) run contents (by decide)
  obtain ⟨fuel, made⟩ := signed.made
  obtain ⟨n, root⟩ := signed.state
  obtain ⟨P, m, s, parent, -, lineage, effective⟩ :=
    revocation_effective signed.free sample_sized run made
  obtain rfl : P = genesis := signed.free.injective lineage.mem root.mem
    (Option.some.inj (parent.symm.trans signed.parent))
  obtain ⟨-, rfl⟩ := lineage.unique signed.free root
  have verified := (run.inSync signed.free).tree.verified
  have known : ∀ c ∈ stored uncompacted, c ∈ withoutSecond :: (List.range 4).map trunk := by
    intro c hc
    rcases (verified.known c hc).mem with rfl | ⟨i, le, rfl⟩
    · exact List.mem_cons_self
    · exact List.mem_cons_of_mem _ (List.mem_map_of_mem (List.mem_range.2 (by omega)))
  obtain ⟨a', storage', informed, head, revoked, kept⟩ := effective withoutSecond signed.mem rfl
    signed.signed signed.best (withoutSecond_childless (by decide) run)
    (.inr (verified.chainsBelow signed.free known (by decide)))
  exact ⟨a', storage', informed, head, revoked _ (by simp), kept _ (by decide) _ rfl⟩

def withoutFirst : AUM := keyCheckpoint genesis [key 2 1] [2]

def again : AUM := sign [2] { AUM.zero with
  messageKind := .addKey
  key := some (key 1 2)
  prevAUMHash := some withoutFirst.hash.bytes }

def restored : Mem := (started.inform (bootstrap memory genesis).2 [withoutFirst, again]).2.2

def atAgain : Authority :=
  ⟨again, genesis, ⟨some again.hash, [pub 9], [key 2 1, key 1 2], 7, 8⟩⟩

theorem withoutFirst_signed : SignedRevocation {x | x ∈ [genesis, withoutFirst, again]} restored
    atAgain [pub 1] (pub 9) genesis (state.cloneForUpdate genesis) withoutFirst := by
  have free : CollisionFree {x | x ∈ [genesis, withoutFirst, again]} genesis :=
    genesis_free (by decide) (by decide)
  have updates : ∀ u ∈ [withoutFirst, again], u ∈ {x | x ∈ [genesis, withoutFirst, again]} := by simp
  have run : Reachable {x | x ∈ [genesis, withoutFirst, again]} genesis restored atAgain :=
    (started_reachable (by simp)).inform updates (Prod.ext rfl (Prod.ext rfl rfl))
  refine ⟨free, run, ⟨3, rfl⟩, by simp, by decide, ⟨0, .root (by simp) rfl rfl rfl⟩,
    ⟨nofun, by decide⟩, fun c hc => ?_⟩
  have all : ∀ c ∈ [genesis, withoutFirst, again], c.parent = some genesis.hash →
      c ≠ withoutFirst → weightIn (state.cloneForUpdate genesis) c <
        weightIn (state.cloneForUpdate genesis) withoutFirst := by decide
  exact all c ((run.inSync free).tree.verified.known c hc).mem

/-- Signed revocations without effect: one that is stored already below the head, and one that forks
off a chain too long for the slow path of `Inform`. -/
theorem revocation_ineffective :
    (∃ (U : Set AUM) (storage storage' : Mem) (a : Authority) (P f : AUM) (s : State),
      SignedRevocation U storage a [pub 1] (pub 9) P s f ∧
        ChainsBelow (stored storage) (maxScanIterations + 1) ∧
        a.inform storage [f] = (.ok (), a, storage') ∧ a.head ≠ f ∧ a.keyTrusted (pub 1) = true) ∧
    ∃ (U : Set AUM) (storage storage' : Mem) (a : Authority) (P f : AUM) (s : State) (e : Err),
      SignedRevocation U storage a [pub 2] (pub 1) P s f ∧
        (∀ c ∈ stored storage, c.parent ≠ some f.hash) ∧
        a.inform storage [f] = (.error e, a, storage') := by
  constructor
  · have signed := withoutFirst_signed
    have verified := (signed.run.inSync signed.free).tree.verified
    have short : ChainsBelow (stored restored) (maxScanIterations + 1) :=
      verified.chainsBelow signed.free (fun c hc => (verified.known c hc).mem) (by decide)
    exact ⟨_, restored, _, atAgain, _, _, _, signed, short, Prod.ext rfl (Prod.ext rfl rfl),
      by decide, by decide⟩
  · have small : maxScanIterations < 2 ^ 64 := by decide
    obtain ⟨storage, informed, contents, e, storage', rejected⟩ :=
      branch_rejected withoutSecond_branch small le_rfl
    have run := (started_reachable (trunk_mem (Nat.zero_le _))).inform (span_mem (r := withoutSecond)) informed
    have signed := withoutSecond_signed small run contents le_rfl
    exact ⟨_, storage, storage', _, _, _, _, e, signed, withoutSecond_childless small run,
      rejected⟩

end

end ScaleTail.TKA
