import ScaleTail.Proof.TKA.ActiveChain

/-! # Inform -/

namespace ScaleTail.TKA

open Lib ForkSystem LawfulChonk List AList Authority Chonk
open Option (getD_some mem_def some)

theorem getLastD_of_ne_nil {us : List AUM} (nonempty : us ≠ []) (x y : AUM) : us.getLastD x = us.getLastD y := by
  rw [getLastD_eq_getLast?, getLastD_eq_getLast?,
    getLast?_eq_some_getLast nonempty, getD_some, getD_some]

section
variable [Crypto] {σ : Type} [Chonk σ]

def committed (storage : σ) (toCommit : List AUM) : Set AUM := stored storage ∪ {x | x ∈ toCommit}

structure HeadChain (U : Set AUM) (X : AUM) (storage : σ) (a : AUM) (done : List AUM)
    (acc : InformAcc) : Prop where
  toCommit : acc.toCommit = done
  fresh : ∀ x ∈ done, x ∉ stored storage
  chain : ∃ n q t, (forks U X).Trail Set.univ a done q ∧ acc.prevHash = q.hash ∧
    acc.stateAt.lookup q.hash = some t ∧ Lineage U X n q t

structure InformInv (U : Set AUM) (X : AUM) (storage : σ) (a : AUM) (done : List AUM)
    (acc : InformAcc) : Prop where
  states : ∀ {h st}, acc.stateAt.lookup h = some st →
    ∃ n, ∃ b ∈ committed storage acc.toCommit, b.hash = h ∧ Lineage U X n b st
  cached : ∀ b ∈ acc.toCommit, b.hash ∈ acc.stateAt
  linked : ∀ b ∈ acc.toCommit, ∃ p ∈ committed storage acc.toCommit, (forks U X).child p b
  contents : committed storage acc.toCommit = committed storage done
  head : acc.isHeadChain = true → HeadChain U X storage a done acc

variable {U : Set AUM} {X r u p : AUM} {storage storage' : σ} {acc acc' : InformAcc}
  {done us : List AUM} {a : Authority} {head : AUM} {n : Nat} {s : State}

theorem headHash_eq (lineage : Lineage U X n a.head a.state) : a.headHash = a.head.hash := by
  rw [headHash, lineage.last, getD_some]

theorem informStart_inv (lineage : Lineage U X n a.head a.state)
    (mem : a.head ∈ stored storage) : InformInv U X storage a.head [] a.informStart := by
  have single : ∀ {h st}, a.informStart.stateAt.lookup h = some st ↔
      h = a.head.hash ∧ st = a.state := by
    intro h st
    rw [← mem_def, mem_lookup_iff, ← headHash_eq lineage]
    simp [informStart]
  refine ⟨?_, by simp [informStart], by simp [informStart], rfl, fun _ => ?_⟩
  · intro h st found
    obtain ⟨rfl, rfl⟩ := single.1 found
    exact ⟨n, a.head, .inl mem, rfl, lineage⟩
  · exact ⟨rfl, by simp, n, a.head, a.state, .refl _, headHash_eq lineage, single.2 ⟨rfl, rfl⟩,
      lineage⟩

inductive Informed (storage : σ) (acc : InformAcc) (u : AUM) : InformAcc → Prop
  | skipped (b : AUM) (found : Chonk.aum storage u.hash = .ok b) :
      Informed storage acc u { acc with isHeadChain := false }
  | verified (e : Err) (parent : AUMHash) (st next : State)
      (missing : Chonk.aum storage u.hash = .error e) (link : u.parent = some parent)
      (state : parentState storage acc parent = .ok st) (verified : aumVerify u st false = .ok ())
      (applied : st.applyVerifiedAUM u = .ok next) :
      Informed storage acc u {
        stateAt := (acc.stateAt.insert parent st).insert u.hash next
        toCommit := acc.toCommit ++ [u]
        prevHash := u.hash
        isHeadChain := acc.isHeadChain && parent == acc.prevHash }

theorem informStep_ok {i : Nat} :
    informStep storage acc i u = .ok acc' ↔ Informed storage acc u acc' := by
  unfold informStep
  constructor
  · intro ok
    split at ok
    next b found =>
      obtain rfl := Except.ok.inj ok
      exact .skipped b found
    next e missing =>
      split at ok
      · cases ok
      rename_i parent link
      split at ok
      · cases ok
      rename_i st state
      split at ok
      · cases ok
      rename_i verified
      split at ok
      · cases ok
      rename_i next applied
      obtain rfl := Except.ok.inj ok
      exact .verified e parent st next missing link state verified applied
  · intro informed
    cases informed with
    | skipped _ found => simp only [found]
    | verified _ _ _ _ missing link state verified applied =>
      simp only [missing, link, state, verified, applied]

theorem committed_singleton : committed storage [u] = stored storage ∪ {u} := by
  ext x
  simp [committed]

theorem committed_concat : committed storage (us ++ [u]) = committed storage us ∪ {u} := by
  ext x
  simp only [committed, Set.mem_union, Set.mem_ofPred_eq, mem_append, mem_singleton,
    Set.mem_singleton_iff, or_assoc]

variable {S : Set AUM} {q : AUM}

theorem informLoop_chain (free : CollisionFree U X) (k : Nat)
    (missing : ∀ u ∈ us, ∀ b, aum storage u.hash ≠ .ok b)
    (trail : (forks U X).Trail S p us q) (lineage : Lineage U X n p s)
    (cached : acc.stateAt.lookup p.hash = some s) (on : acc.isHeadChain = true)
    (prev : acc.prevHash = p.hash) :
    ∃ acc', informLoop storage acc (us.zipIdx k) = .ok acc' ∧ acc'.isHeadChain = true ∧
      acc'.prevHash = q.hash ∧ ∃ m t, acc'.stateAt.lookup q.hash = some t ∧ Lineage U X m q t := by
  induction trail generalizing acc n s k with
  | refl => exact ⟨acc, rfl, on, prev, n, s, cached, lineage⟩
  | @step p u _ _ _ child _ ih =>
    obtain ⟨here, rest⟩ := forall_mem_cons.1 missing
    obtain ⟨next, verified, applied, lineage'⟩ := lineage.child free child.2.1 child.2.2
    cases absent : aum storage u.hash with
    | ok b => exact absurd absent (here b)
    | error e =>
      have state : parentState storage acc p.hash = .ok s := by rw [parentState, cached]
      obtain ⟨acc₁, step, cached₁, on₁, prev₁⟩ : ∃ acc₁, informStep storage acc k u = .ok acc₁ ∧
          acc₁.stateAt.lookup u.hash = some next ∧ acc₁.isHeadChain = true ∧
          acc₁.prevHash = u.hash :=
        ⟨_, informStep_ok.2 (.verified e p.hash s next absent child.2.2 state verified applied),
          lookup_insert _, by simp [on, prev], rfl⟩
      obtain ⟨acc', loop, tail⟩ := ih (k + 1) rest lineage' cached₁ on₁ prev₁
      exact ⟨acc', by rw [zipIdx_cons, informLoop, step, ok_bind, loop], tail⟩

variable [LawfulChonk σ]

theorem InformInv.parentState (free : CollisionFree U X) (verified : Verified U X storage)
    (inv : InformInv U X storage head done acc) {h : AUMHash} {st : State}
    (state : TKA.parentState storage acc h = .ok st) :
    ∃ n, ∃ b ∈ committed storage acc.toCommit, b.hash = h ∧ Lineage U X n b st := by
  unfold TKA.parentState at state
  split at state
  next found =>
    obtain rfl := Except.ok.inj state
    exact inv.states found
  · obtain ⟨n, b, hb, hash, lineage⟩ := computeStateAt_ok free verified state
    exact ⟨n, b, .inl hb, hash, lineage⟩

theorem lookup_cached {stateAt : AList fun _ : AUMHash => State} {parent h : AUMHash}
    {st next st' : State}
    (found : ((stateAt.insert parent st).insert u.hash next).lookup h = some st') :
    h = u.hash ∧ st' = next ∨ h = parent ∧ st' = st ∨ stateAt.lookup h = some st' := by
  by_cases here : h = u.hash
  · subst here
    rw [lookup_insert, some.injEq] at found
    exact .inl ⟨rfl, found.symm⟩
  · rw [lookup_insert_ne here] at found
    by_cases atParent : h = parent
    · subst atParent
      rw [lookup_insert, some.injEq] at found
      exact .inr (.inl ⟨rfl, found.symm⟩)
    · rw [lookup_insert_ne atParent] at found
      exact .inr (.inr found)

section
variable (free : CollisionFree U X)
include free

theorem Informed.inv (verified : Verified U X storage)
    (inv : InformInv U X storage head done acc) (mem : u ∈ U)
    (informed : Informed storage acc u acc') : InformInv U X storage head (done ++ [u]) acc' := by
  cases informed with
  | skipped b found =>
    have stored : u ∈ stored storage := by
      obtain ⟨hb, same⟩ := (aum_eq_ok verified.consistent).1 found
      rwa [← free.injective (verified.known b hb).mem mem same]
    refine ⟨inv.states, inv.cached, inv.linked, ?_, fun head => nomatch head⟩
    rw [inv.contents, committed_concat]
    exact (Set.union_eq_self_of_subset_right (Set.singleton_subset_iff.2 (.inl stored))).symm
  | verified _ _ st next missing link state ok applied =>
    obtain ⟨n, p, hp, rfl, lineage⟩ := inv.parentState free verified state
    have next' : Lineage U X (n + 1) u next := .step lineage mem ok applied
    have child : (forks U X).child p u := ⟨⟨n, st, lineage⟩, ⟨_, _, next'⟩, link⟩
    have grow : committed storage acc.toCommit ⊆ committed storage (acc.toCommit ++ [u]) := by
      rw [committed_concat]
      exact Set.subset_union_left
    have here : u ∈ committed storage (acc.toCommit ++ [u]) := .inr (by simp)
    refine ⟨?_, ?_, ?_, ?_, ?_⟩
    · intro h st' found
      rcases lookup_cached found with ⟨rfl, rfl⟩ | ⟨rfl, rfl⟩ | found
      · exact ⟨n + 1, u, here, rfl, next'⟩
      · exact ⟨n, p, grow hp, rfl, lineage⟩
      · obtain ⟨m, b, hb, hash, old⟩ := inv.states found
        exact ⟨m, b, grow hb, hash, old⟩
    · intro b hb
      rw [mem_insert, mem_insert]
      rcases mem_append.1 hb with hb | hb
      · exact .inr (.inr (inv.cached b hb))
      · exact .inl (by rw [mem_singleton.1 hb])
    · intro b hb
      rcases mem_append.1 hb with hb | hb
      · obtain ⟨p', hp', child'⟩ := inv.linked b hb
        exact ⟨p', grow hp', child'⟩
      · rw [mem_singleton.1 hb]
        exact ⟨p, grow hp, child⟩
    · rw [committed_concat, inv.contents, ← committed_concat]
    · intro isHead
      obtain ⟨before, same⟩ := Bool.and_eq_true_iff.1 isHead
      obtain ⟨toCommit, fresh, m, q, t, trail, prev, -, final⟩ := inv.head before
      obtain rfl : p = q := free.injective lineage.mem final.mem ((beq_iff_eq.1 same).trans prev)
      refine ⟨by rw [toCommit], ?_, n + 1, u, next, trail.concat (Set.mem_univ u) child, rfl,
        lookup_insert _, next'⟩
      intro x hx
      rcases mem_append.1 hx with hx | hx
      · exact fresh x hx
      rw [mem_singleton.1 hx]
      intro stored
      have found : aum storage u.hash = .ok u := stored
      rw [found] at missing
      cases missing

theorem informLoop_inv (verified : Verified U X storage)
    (inv : InformInv U X storage head done acc) {k : Nat} (mem : ∀ u ∈ us, u ∈ U)
    (ok : informLoop storage acc (us.zipIdx k) = .ok acc') :
    InformInv U X storage head (done ++ us) acc' := by
  induction us generalizing acc done k with
  | nil =>
    obtain rfl := Except.ok.inj ok
    rwa [append_nil]
  | cons _ _ ih =>
    obtain ⟨here, rest⟩ := forall_mem_cons.1 mem
    rw [zipIdx_cons, informLoop, bind_eq_ok] at ok
    obtain ⟨acc₁, step, ok⟩ := ok
    have := ih ((informStep_ok.1 step).inv free verified inv here) rest ok
    rwa [append_assoc] at this

theorem Tree.grow (tree : Tree U X storage r)
    (consistent : Consistent storage') (contents : stored storage' = committed storage us)
    (linked : ∀ b ∈ us, ∃ p ∈ committed storage us, (forks U X).child p b) :
    Tree U X storage' r := by
  have laws := forks_graded free
  have known : ∀ a ∈ stored storage', Known U X a := by
    rw [contents]
    rintro a (ha | ha)
    · exact tree.verified.known a ha
    · obtain ⟨p, -, child⟩ := linked a ha
      exact child.2.1
  have connected : ∀ a ∈ stored storage', ∃ l, (forks U X).Trail (stored storage') r l a := by
    intro a ha
    induction rank : depth U X a using Nat.strongRecOn generalizing a with
    | ind _ ih =>
      have ha' := ha
      rw [contents] at ha'
      rcases ha' with old | new
      · obtain ⟨l, trail⟩ := tree.connected a old
        refine ⟨l, trail.restrict fun x hx => ?_⟩
        rw [contents]
        exact .inl (trail.mem x hx)
      · obtain ⟨p, hp, child⟩ := linked a new
        have := laws.rank_child child
        rw [← contents] at hp
        obtain ⟨l, trail⟩ := ih (depth U X p) (by omega) p hp rfl
        exact ⟨l ++ [a], trail.concat ha child⟩
  refine ⟨⟨consistent, known⟩, ⟨?_, fun p hp child => ?_⟩, tree.checkpoint, connected⟩
  · rw [contents]
    exact .inl tree.root.1
  · obtain ⟨l, trail⟩ := connected p hp
    have := trail.rank_eq laws
    have := laws.rank_child child
    omega

theorem Lineage.chain_primary (lineage : Lineage U X n p s)
    (trail : (forks U X).Trail S p us q) : ∃ t,
      (forks U X).Primary {x | x ∈ us} p s us q t ∧ Lineage U X (n + us.length) q t := by
  have laws := forks_graded free
  induction trail generalizing n s with
  | refl p => exact ⟨s, .refl p s, lineage⟩
  | @step _ _ _ _ mem child rest ih =>
    obtain ⟨s', -, applied, lineage'⟩ := lineage.child free child.2.1 child.2.2
    obtain ⟨t, primary, final⟩ := ih lineage'
    refine ⟨t, .step ⟨mem_cons_self, child, ?_⟩ (forks_apply.2 applied) ?_, ?_⟩
    · intro d hd child'
      rw [Trail.child_eq laws (.step mem child rest) child' (mem_cons_of_mem _ hd)]
    · exact primary.isolated laws (fun x hx => mem_cons_of_mem _ hx) fun x _ d hd _ => hd
    · rwa [length_cons, ← Nat.add_assoc, Nat.add_right_comm]

theorem HeadChain.leads (tree : Tree U X storage r)
    (grown : Tree U X storage' r) (contents : stored storage' = committed storage done)
    {path : List AUM} {t : State} (lineage : Lineage U X n r s)
    (leads : (forks U X).Leads (stored storage) r s path head t)
    (chain : HeadChain U X storage head done acc) : ∃ q t', acc.prevHash = q.hash ∧
      acc.stateAt.lookup q.hash = some t' ∧ (done.getLastD head) = q ∧
      (forks U X).Leads (stored storage') r s (path ++ done) q t' := by
  have laws := forks_graded free
  obtain ⟨-, fresh, m, q, t', trail, prev, found, final⟩ := chain
  obtain ⟨t'', primary, final'⟩ := (lineage.primary free leads.1).chain_primary free trail
  obtain rfl := (final.unique free final').2
  refine ⟨q, t', prev, found, trail.getLastD_eq, ?_⟩
  rw [contents]
  refine leads.extend laws tree.root.1 primary fresh fun x hx d hd child => ?_
  rcases tree.parent_stored free hd child with rfl | old
  · exact grown.root.2 x (by rw [contents]; exact .inr hx) child
  · exact fresh x hx old

theorem informIdempotent_cases (tree : Tree U X storage r)
    (lineage : Lineage U X n a.head a.state) (head : a.head ∈ stored storage)
    (mem : ∀ u ∈ us, u ∈ U) {result : Except Err Authority}
    (run : a.informIdempotent storage us = (result, storage')) :
    storage' = storage ∧ (∃ e, result = .error e) ∧
        (us = [] ∨ ∃ e, informLoop storage a.informStart us.zipIdx = .error e) ∨
      ∃ acc, informLoop storage a.informStart us.zipIdx = .ok acc ∧
        InformInv U X storage a.head us acc ∧ us ≠ [] ∧ Tree U X storage' r ∧
        stored storage' = committed storage us ∧
        lastActiveAncestor storage' = lastActiveAncestor storage ∧
        result = a.informFinish storage' acc us := by
  unfold informIdempotent at run
  split at run
  next empty =>
    obtain ⟨rfl, rfl⟩ := Prod.mk.inj run
    exact .inl ⟨rfl, ⟨_, rfl⟩, .inl (length_eq_zero_iff.1 empty)⟩
  next nonempty =>
    split at run
    next e loop =>
      obtain ⟨rfl, rfl⟩ := Prod.mk.inj run
      exact .inl ⟨rfl, ⟨_, rfl⟩, .inr ⟨e, loop⟩⟩
    next acc loop =>
      have inv : InformInv U X storage a.head us acc := by
        simpa using informLoop_inv free tree.verified (informStart_inv lineage head) mem loop
      have inPlay : ∀ x ∈ acc.toCommit, x ∈ U := by
        intro x hx
        obtain ⟨p, -, child⟩ := inv.linked x hx
        exact child.2.1.mem
      have injective : Set.InjOn AUM.hash (stored storage ∪ {x | x ∈ acc.toCommit}) :=
        free.injective.mono (Set.union_subset (fun x hx => (tree.verified.known x hx).mem) inPlay)
      obtain ⟨s', commit, consistent, contents, recorded⟩ := LawfulChonk.commitVerifiedAUMs
        tree.verified.consistent injective fun x hx => free.encoded x (inPlay x hx)
      rw [commit] at run
      obtain ⟨rfl, rfl⟩ := Prod.mk.inj run
      exact .inr ⟨acc, loop, inv, by simpa using nonempty, tree.grow free consistent contents inv.linked,
        contents.trans inv.contents, recorded, rfl⟩

end

structure InSync (U : Set AUM) (X : AUM) (storage : σ) (a : Authority) : Prop where
  tree : Tree U X storage a.oldestAncestor
  recorded : Chonk.lastActiveAncestor storage = .ok (some a.oldestAncestor.hash)
  active : ∃ n s path, Lineage U X n a.oldestAncestor s ∧
    (forks U X).Leads (stored storage) a.oldestAncestor s path a.head a.state

theorem InSync.lineage (free : CollisionFree U X) (sync : InSync U X storage a) :
    ∃ n, Lineage U X n a.head a.state := by
  obtain ⟨n, s, path, lineage, leads⟩ := sync.active
  exact ⟨_, lineage.primary free leads.1⟩

theorem InSync.head_mem (sync : InSync U X storage a) : a.head ∈ stored storage := by
  obtain ⟨n, s, path, -, leads⟩ := sync.active
  exact leads.1.trail.all_mem sync.tree.root.1 _ leads.1.trail.final_mem

theorem InSync.leaf (sync : InSync U X storage a) : (forks U X).Leaf (stored storage) a.head := by
  obtain ⟨n, s, path, -, leads⟩ := sync.active
  exact leads.2

theorem InSync.inform (free : CollisionFree U X) (sync : InSync U X storage a)
    (mem : ∀ u ∈ us, u ∈ U) {a' : Authority}
    (run : a.informIdempotent storage us = (.ok a', storage')) :
    InSync U X storage' a' ∧ a'.oldestAncestor = a.oldestAncestor ∧
      stored storage' = committed storage us := by
  obtain ⟨m, lineage⟩ := sync.lineage free
  rcases informIdempotent_cases free sync.tree lineage sync.head_mem mem run with
    ⟨-, ⟨e, failed⟩, -⟩ | ⟨acc, -, inv, nonempty, grown, contents, recorded, result⟩
  · cases failed
  have recorded' := recorded.trans sync.recorded
  unfold informFinish at result
  split at result
  next isHead =>
    obtain ⟨n, s, path, root, leads⟩ := sync.active
    obtain ⟨q, t, prev, found, last, leads'⟩ :=
      (inv.head isHead).leads free sync.tree grown contents root leads
    rw [prev, found, getD_some, Except.ok.injEq] at result
    rw [getLastD_of_ne_nil nonempty _ a.head, last] at result
    subst result
    exact ⟨⟨grown, recorded', n, s, path ++ us, root, leads'⟩, rfl, contents⟩
  · split at result
    · cases result
    next c computed =>
      obtain rfl := Except.ok.inj result
      obtain ⟨oldest, n, s, path, root, leads⟩ := grown.activeChain free computed
      have same : (ofChain c).oldestAncestor = a.oldestAncestor := oldest
      rw [← oldest] at grown root leads
      refine ⟨⟨grown, ?_, n, s, path, root, leads⟩, same, contents⟩
      rw [recorded', same]

def Applicable (U : Set AUM) (X : AUM) : Set AUM → List AUM → Prop
  | _, [] => True
  | S, u :: us => (u ∈ S ∨ ∃ p ∈ S, (forks U X).child p u) ∧ Applicable U X (S ∪ {u}) us

theorem Applicable.of_trail {T : Set AUM} {p : AUM} {m : List AUM} (hp : p ∈ S)
    (trail : (forks U X).Trail T p m q) : Applicable U X S m := by
  induction trail generalizing S with
  | refl => trivial
  | step _ child _ ih => exact ⟨.inr ⟨_, hp, child⟩, ih (.inr rfl)⟩

section
variable (free : CollisionFree U X) (tree : Tree U X storage r) (bounded : ∀ l b, (forks U
  X).Trail (stored storage) r l b → l.length < maxScanIterations) (inv : InformInv U X storage
  head done acc)
include free tree bounded inv

theorem InformInv.parentState_total (hp : p ∈ committed storage acc.toCommit)
    (lineage : Lineage U X n p s) : TKA.parentState storage acc p.hash = .ok s := by
  cases found : acc.stateAt.lookup p.hash with
  | some =>
    obtain ⟨m, b, -, hash, lineage'⟩ := inv.states found
    obtain rfl := free.injective lineage'.mem lineage.mem hash
    rw [TKA.parentState, found, (lineage'.unique free lineage).2]
  | none =>
    have old : p ∈ stored storage := by
      refine hp.resolve_right fun new => ?_
      exact lookup_eq_none.1 found (inv.cached p new)
    rw [TKA.parentState, found]
    exact tree.computeStateAt free bounded old lineage

theorem informStep_total (ready : u ∈ committed storage acc.toCommit ∨
      ∃ p ∈ committed storage acc.toCommit, (forks U X).child p u) :
    ∃ acc', Informed storage acc u acc' := by
  cases found : aum storage u.hash with
  | ok b => exact ⟨_, .skipped b found⟩
  | error e =>
    have child : ∃ p ∈ committed storage acc.toCommit, (forks U X).child p u := by
      rcases ready with (old | new) | child
      · have found' : aum storage u.hash = .ok u := old
        rw [found'] at found
        cases found
      · exact inv.linked u new
      · exact child
    obtain ⟨p, hp, ⟨m, st, lineage⟩, known, link⟩ := child
    obtain ⟨next, verified, applied, -⟩ := lineage.child free known link
    exact ⟨_, .verified e p.hash st next found link
      (inv.parentState_total free tree bounded hp lineage) verified applied⟩

theorem informLoop_total (k : Nat) (mem : ∀ u ∈ us, u ∈ U)
    (ready : Applicable U X (committed storage done) us) :
    ∃ acc', informLoop storage acc (us.zipIdx k) = .ok acc' := by
  induction us generalizing acc done k with
  | nil => exact ⟨acc, rfl⟩
  | cons _ _ ih =>
    obtain ⟨here, rest⟩ := ready
    obtain ⟨hu, others⟩ := forall_mem_cons.1 mem
    rw [← inv.contents] at here
    obtain ⟨acc₁, informed⟩ := informStep_total free tree bounded inv here
    rw [← committed_concat] at rest
    obtain ⟨acc', loop⟩ := ih (informed.inv free tree.verified inv hu) (k + 1) others rest
    exact ⟨acc', by rw [zipIdx_cons, informLoop, informStep_ok.2 informed, ok_bind, loop]⟩

end

section
variable (free : CollisionFree U X) (sync : InSync U X storage a)
include free sync

theorem InSync.inform_total
    (nonempty : us ≠ []) (mem : ∀ u ∈ us, u ∈ U) (ready : Applicable U X (stored storage) us)
    (bounded : ∀ l b, (forks U X).Trail (committed storage us) a.oldestAncestor l b →
      l.length < maxScanIterations) :
    ∃ a' storage', a.informIdempotent storage us = (.ok a', storage') := by
  obtain ⟨n, lineage⟩ := sync.lineage free
  have old : ∀ l b, (forks U X).Trail (stored storage) a.oldestAncestor l b →
      l.length < maxScanIterations := fun l b trail =>
    bounded l b (trail.restrict fun x hx => .inl (trail.mem x hx))
  have start := informStart_inv lineage sync.head_mem
  obtain ⟨acc, loop⟩ := informLoop_total free sync.tree old start 0 mem
    (by simpa [committed] using ready)
  cases run : a.informIdempotent storage us with
  | mk =>
    rcases informIdempotent_cases free sync.tree lineage sync.head_mem mem run with
      ⟨-, -, empty | ⟨e, failed⟩⟩ | ⟨acc, -, inv, -, grown, contents, -, rfl⟩
    · exact absurd empty nonempty
    · rw [loop] at failed
      cases failed
    · unfold informFinish
      split
      · exact ⟨_, _, rfl⟩
      rw [← contents] at bounded
      obtain ⟨c, computed⟩ := grown.activeChain_total free
        (some a.oldestAncestor.hash) bounded
      rw [computed]
      exact ⟨_, _, rfl⟩

theorem InSync.fresh (trail : (forks U X).Trail S a.head us q) : ∀ u ∈ us, u ∉ stored storage := by
  intro u hu old
  obtain ⟨m, path⟩ := sync.tree.trail_of_desc free sync.head_mem old
    (trail.desc u (mem_cons_of_mem _ hu))
  cases path with
  | refl => exact lt_irrefl _ (trail.lt_rank (forks_graded free) _ hu)
  | step mem child => exact sync.leaf _ mem child

theorem InSync.inform_chain (nonempty : us ≠ []) (mem : ∀ u ∈ us, u ∈ U)
    (trail : (forks U X).Trail S a.head us q) : ∃ storage' m t,
      a.informIdempotent storage us = (.ok ⟨q, a.oldestAncestor, t⟩, storage') ∧
        Lineage U X m q t := by
  obtain ⟨n, lineage⟩ := sync.lineage free
  have missing : ∀ u ∈ us, ∀ b, aum storage u.hash ≠ .ok b := by
    intro u hu b found
    obtain ⟨hb, same⟩ := (aum_eq_ok sync.tree.verified.consistent).1 found
    rw [free.injective (sync.tree.verified.known b hb).mem (mem u hu) same] at hb
    exact sync.fresh free trail u hu hb
  have cached : a.informStart.stateAt.lookup a.head.hash = some a.state := by
    rw [← headHash_eq lineage, ← mem_def, mem_lookup_iff]
    simp [informStart]
  obtain ⟨acc, loop, isHead, prev, m, t, found, final⟩ := informLoop_chain free 0 missing trail
    lineage cached rfl (headHash_eq lineage)
  cases run : a.informIdempotent storage us with
  | mk _ storage' =>
    rcases informIdempotent_cases free sync.tree lineage sync.head_mem mem run with
      ⟨-, -, empty | ⟨e, failed⟩⟩ | ⟨acc', loop', -, -, -, -, -, rfl⟩
    · exact absurd empty nonempty
    · rw [loop] at failed
      cases failed
    · obtain rfl := Except.ok.inj (loop.symm.trans loop')
      refine ⟨storage', m, t, ?_, final⟩
      rw [informFinish, if_pos isHead, prev, found, getD_some,
        getLastD_of_ne_nil nonempty _ a.head, trail.getLastD_eq]

theorem InSync.inform_long {f b : AUM}
    {l : List AUM} (hp : p ∈ U) (hf : f ∈ U) (link : f.parent = some p.hash) (inner : p ≠ a.head)
    (trail : (forks U X).Trail (stored storage) a.oldestAncestor l b)
    (leaf : (forks U X).Leaf (stored storage ∪ {f}) b) (long : maxScanIterations ≤ l.length) :
    ∃ e storage', a.informIdempotent storage [f] = (.error e, storage') := by
  obtain ⟨n, lineage⟩ := sync.lineage free
  have mem : ∀ u ∈ [f], u ∈ U := by simpa using hf
  cases run : a.informIdempotent storage [f] with
  | mk _ storage' =>
    rcases informIdempotent_cases free sync.tree lineage sync.head_mem mem run with
      ⟨-, ⟨e, rfl⟩, -⟩ | ⟨acc, -, inv, -, grown, contents, -, rfl⟩
    · exact ⟨e, storage', rfl⟩
    have slow : ¬ acc.isHeadChain = true := by
      intro isHead
      obtain ⟨-, -, m, q, t, chain, -⟩ := inv.head isHead
      cases chain with
      | step _ child =>
        rw [child.2.2, some.injEq] at link
        exact inner (free.injective hp lineage.mem link.symm)
    have contents' := contents.trans committed_singleton
    have trail' : (forks U X).Trail (stored storage') a.oldestAncestor l b :=
      trail.restrict fun x hx => by rw [contents']; exact .inl (trail.mem x hx)
    have last := trail'.all_mem grown.root.1 b trail'.final_mem
    rw [informFinish, if_neg slow, grown.activeChain_long free _ (by decide) trail' last
      (contents' ▸ leaf) long]
    exact ⟨_, _, rfl⟩

end

end

end ScaleTail.TKA
