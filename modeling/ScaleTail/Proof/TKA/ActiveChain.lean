import ScaleTail.Proof.TKA.FastForward

/-! # The active chain -/

namespace ScaleTail.TKA

open Lib ForkSystem LawfulChonk List Chonk

section
variable [Crypto] {σ : Type} [Chonk σ]

inductive Climbs (storage : σ) (lastKnownOldest : Option AUMHash) : Nat → Chain → Chain → Prop
  | stop {c : Chain} (stuck : climb storage lastKnownOldest c = .ok (c, false)) :
      Climbs storage lastKnownOldest 0 c c
  | step {k : Nat} {c c₁ c' : Chain} (up : climb storage lastKnownOldest c = .ok (c₁, true))
      (rest : Climbs storage lastKnownOldest k c₁ c') : Climbs storage lastKnownOldest (k + 1) c c'

variable {storage : σ} {lastKnownOldest : Option AUMHash} {n k maxIter : Nat} {c c' : Chain}

theorem climb_parent {p : AUM} (hp : p ∈ stored storage) (link : c.oldest.parent = some p.hash) :
    climb storage lastKnownOldest c = .ok ({ c with
      oldest := p
      chainsThroughActive := c.chainsThroughActive || lastKnownOldest == some p.hash }, true) := by
  have read : aum storage p.hash = .ok p := hp
  simp only [climb, link, read]

theorem Climbs.up (h : Climbs storage lastKnownOldest k c c') : ∃ c₁,
    climb storage lastKnownOldest c = .ok (c₁, decide (k ≠ 0)) ∧
      Climbs storage lastKnownOldest (k - 1) c₁ c' := by
  cases h with
  | stop stuck => exact ⟨c, stuck, .stop stuck⟩
  | step up rest => exact ⟨_, up, rest⟩

variable {cs : List Chain} {rs : List (Nat × Chain)}

theorem climbRound_spec
    (h : List.Forall₂ (fun c r => Climbs storage lastKnownOldest r.1 c r.2) cs rs) : ∃ cs₁,
      climbRound storage lastKnownOldest cs = .ok (cs₁, rs.any fun r => r.1 ≠ 0) ∧
        List.Forall₂ (fun c r => Climbs storage lastKnownOldest (r.1 - 1) c r.2) cs₁ rs := by
  induction h with
  | nil => exact ⟨[], rfl, .nil⟩
  | cons first _ ih =>
    obtain ⟨c₁, up, rest⟩ := first.up
    obtain ⟨cs₁, round, others⟩ := ih
    exact ⟨c₁ :: cs₁, by rw [climbRound, up, ok_bind, round]; rfl, .cons rest others⟩

theorem all_stuck
    (h : List.Forall₂ (fun c r => Climbs storage lastKnownOldest (r.1 - 1) c r.2) cs rs)
    (stuck : ∀ r ∈ rs, r.1 = 0) : cs = rs.map (·.2) := by
  induction h with
  | nil => rfl
  | @cons _ _ _ _ first _ ih =>
    obtain ⟨here, rest⟩ := forall_mem_cons.1 stuck
    rw [here] at first
    cases first
    rw [map_cons, ih rest]

theorem climbLoop_spec
    (h : List.Forall₂ (fun c r => Climbs storage lastKnownOldest r.1 c r.2) cs rs) (pos : 0 < n) :
    climbLoop storage lastKnownOldest maxIter n cs =
      if ∀ r ∈ rs, r.1 < n then .ok (rs.map (·.2)) else .error (iterationLimit maxIter) := by
  induction n generalizing cs rs with
  | zero => omega
  | succ n ih =>
    obtain ⟨cs₁, round, after⟩ := climbRound_spec h
    rw [climbLoop, round, ok_bind]
    dsimp only
    by_cases again : (rs.any fun r => r.1 ≠ 0) = true
    · rw [if_pos again]
      obtain ⟨r, hr, moved⟩ := List.any_eq_true.1 again
      have shorter : List.Forall₂ (fun c r => Climbs storage lastKnownOldest r.1 c r.2) cs₁
          (rs.map fun r => (r.1 - 1, r.2)) := forall₂_map_right_iff.2 after
      cases n with
      | zero =>
        rw [climbLoop, if_neg]
        intro all
        have := all r hr
        simp at moved
        omega
      | succ n =>
        rw [ih shorter (Nat.succ_pos n)]
        simp only [List.forall_mem_map, List.map_map, Function.comp_def]
        exact if_congr (forall₂_congr fun r _ => by omega) rfl rfl
    · rw [if_neg again]
      have stuck : ∀ r ∈ rs, r.1 = 0 := by simpa using again
      rw [if_pos fun r hr => by have := stuck r hr; omega]
      rw [all_stuck after stuck]

theorem computeChainCandidates_pos {storage : σ} {lastKnownOldest : Option AUMHash} {maxIter : Nat}
    {chains : List Chain}
    (ok : computeChainCandidates storage lastKnownOldest maxIter = .ok chains) : 0 < maxIter := by
  by_contra zero
  obtain rfl : maxIter = 0 := by omega
  unfold computeChainCandidates at ok
  split at ok <;> cases ok

def ChainsBelow (S : Set AUM) (n : Nat) : Prop :=
  ∀ l : List AUM, (∀ x ∈ l, x ∈ S) → l.IsChain (fun p c => c.parent = some p.hash) → l.length < n

theorem trail_isChain {U S : Set AUM} {X o a : AUM} {l : List AUM}
    (trail : (forks U X).Trail S o l a) : (o :: l).IsChain fun p c => c.parent = some p.hash := by
  induction trail with
  | refl => exact .singleton _
  | step _ child _ ih => exact .cons_cons child.2.2 ih

theorem ChainsBelow.trail {U S : Set AUM} {X o a : AUM} {l : List AUM} {n : Nat}
    (short : ChainsBelow S n) (mem : o ∈ S) (trail : (forks U X).Trail S o l a) :
    l.length + 1 < n :=
  short (o :: l) (trail.all_mem mem) (trail_isChain trail)

end

section
variable [Crypto] {σ : Type} [Chonk σ] [LawfulChonk σ]
variable {U : Set AUM} {X a o r : AUM} {storage : σ} {lastKnownOldest : Option AUMHash}
  {l : List AUM} {n maxIter : Nat} {s : State} {c : Chain}

theorem Verified.isChain_trail (verified : Verified U X storage)
    (mem : ∀ x ∈ o :: l, x ∈ stored storage)
    (chain : (o :: l).IsChain fun p c => c.parent = some p.hash) :
    ∃ q, (forks U X).Trail (stored storage) o l q := by
  induction l generalizing o with
  | nil => exact ⟨o, .refl o⟩
  | cons c _ ih =>
    obtain ⟨ho, rest⟩ := forall_mem_cons.1 mem
    have hc := rest c mem_cons_self
    obtain ⟨link, chain⟩ := isChain_cons_cons.1 chain
    obtain ⟨q, trail⟩ := ih rest chain
    exact ⟨q, .step hc ⟨verified.known o ho, verified.known c hc, link⟩ trail⟩

section
variable (free : CollisionFree U X) (verified : Verified U X storage)
include free verified

theorem Verified.chainsBelow
    {all : List AUM} (contents : ∀ x ∈ stored storage, x ∈ all) (short : all.length < n) :
    ChainsBelow (stored storage) n := by
  intro l mem chain
  cases l with
  | nil => exact Nat.zero_lt_of_lt short
  | cons o l =>
    obtain ⟨q, trail⟩ := verified.isChain_trail mem chain
    have subset : (o :: l) ⊆ all := fun x hx => contents x (mem x hx)
    exact (subperm_of_subset (trail.nodup (forks_graded free)) subset).length_le.trans_lt short

theorem Verified.chainsBelow_listed
    {hs : List AUMHash} (listed : ∀ x ∈ stored storage, x.hash ∈ hs) :
    ChainsBelow (stored storage) (hs.length + 1) := by
  have contents : ∀ x ∈ stored storage,
      x ∈ hs.filterMap fun h => (aum storage h).toOption := by
    intro x hx
    have read : aum storage x.hash = .ok x := hx
    exact mem_filterMap.2 ⟨x.hash, listed x hx, by rw [read]; rfl⟩
  exact verified.chainsBelow free contents (Nat.lt_succ_of_le (length_filterMap_le _ _))

theorem Verified.exists_leaf (finite : ChainsBelow (stored storage) n) (mem : a ∈ stored storage) :
    ∃ l q, (forks U X).Trail (stored storage) a l q ∧ (forks U X).Leaf (stored storage) q := by
  obtain ⟨k, s, lineage⟩ := verified.known a mem
  obtain ⟨path, q, t, leads⟩ := exists_leads free verified lineage
    fun path q trail => (Nat.lt_succ_self _).trans (finite.trail mem trail)
  exact ⟨path, q, leads.1.trail, leads.2⟩

end

theorem climb_stuck (verified : Verified U X storage) (root : (forks U X).Root (stored storage) o)
    (at_o : c.oldest = o) : climb storage lastKnownOldest c = .ok (c, false) := by
  subst at_o
  unfold climb
  cases link : c.oldest.parent with
  | none => rfl
  | some h =>
    have missing : aum storage h = .error .notExist := by
      rw [aum_eq_notExist verified.consistent]
      rintro p hp rfl
      exact root.2 p hp ⟨verified.known p hp, verified.known _ root.1, link⟩
    simp only [missing]

theorem climbs_trail (lastKnownOldest : Option AUMHash) (verified : Verified U X storage) (root : (forks U X).Root (stored storage) o)
    (trail : (forks U X).Trail (stored storage) o l a) (start : c.oldest = a) :
    Climbs storage lastKnownOldest l.length c { c with
      oldest := o
      chainsThroughActive := c.chainsThroughActive ||
        (o :: l).dropLast.any fun x => lastKnownOldest == some x.hash } := by
  induction k : l.length generalizing a c l with
  | zero =>
    obtain rfl := eq_nil_of_length_eq_zero k
    cases trail
    have stuck : climb storage lastKnownOldest c = .ok (c, false) :=
      climb_stuck verified root start
    subst start
    simpa using Climbs.stop stuck
  | succ k ih =>
    rcases trail.last_step with ⟨rfl, -⟩ | ⟨l', p, rfl, before, -, -, link⟩
    · cases k
    subst start
    have hp : p ∈ stored storage := before.all_mem root.1 p before.final_mem
    have rest := ih before (c := { c with
      oldest := p
      chainsThroughActive := c.chainsThroughActive || lastKnownOldest == some p.hash }) rfl
      (by simpa using k)
    have above : (o :: (l' ++ [c.oldest])).dropLast = (o :: l').dropLast ++ [p] := by
      rw [before.dropLast_append, ← cons_append, dropLast_concat]
    refine .step (climb_parent hp link) ?_
    rw [above]
    simpa [Bool.or_assoc, Bool.or_comm] using rest

structure Climbed (U : Set AUM) (X : AUM) (storage : σ) (lastKnownOldest : Option AUMHash)
    (l : List AUM) (c : Chain) : Prop where
  root : (forks U X).Root (stored storage) c.oldest
  head : c.head ∈ stored storage
  leaf : (forks U X).Leaf (stored storage) c.head
  trail : (forks U X).Trail (stored storage) c.oldest l c.head
  flag : c.chainsThroughActive =
    (c.oldest :: l).dropLast.any fun x => lastKnownOldest == some x.hash

theorem heads_spec (verified : Verified U X storage) : ∃ hs, heads storage = .ok hs ∧
    ∀ a, a ∈ hs ↔ a ∈ stored storage ∧ (forks U X).Leaf (stored storage) a := by
  obtain ⟨hs, ok, spec⟩ := LawfulChonk.heads verified.consistent
  refine ⟨hs, ok, fun a => (spec a).trans (and_congr_right fun ha => ?_)⟩
  refine forall₂_congr fun c hc => not_congr ⟨fun link => ?_, fun child => child.2.2⟩
  exact ⟨verified.known a ha, verified.known c hc, link⟩

structure Initial (U : Set AUM) (X : AUM) (storage : σ) (c : Chain) : Prop where
  oldest : c.oldest = c.head
  flag : c.chainsThroughActive = false
  head : c.head ∈ stored storage
  leaf : (forks U X).Leaf (stored storage) c.head

section
variable (free : CollisionFree U X) (verified : Verified U X storage)
include free verified

theorem climbs_all (lastKnownOldest : Option AUMHash) {cs : List Chain}
    (initial : ∀ c ∈ cs, Initial U X storage c) : ∃ rs : List (List AUM × Chain),
      List.Forall₂ (fun c r => Climbs storage lastKnownOldest r.1.length c r.2) cs rs ∧
        (∀ r ∈ rs, Climbed U X storage lastKnownOldest r.1 r.2) ∧
        rs.map (·.2.head) = cs.map (·.head) := by
  induction cs with
  | nil => exact ⟨[], .nil, by simp, rfl⟩
  | cons _ _ ih =>
    obtain ⟨here, rest⟩ := forall_mem_cons.1 initial
    obtain ⟨rs, climbs, climbed, heads⟩ := ih rest
    obtain ⟨o, l, root, trail⟩ := exists_root (forks_graded free) here.head
    have first := climbs_trail lastKnownOldest verified root trail here.oldest
    refine ⟨(l, _) :: rs, .cons first climbs, forall_mem_cons.2 ⟨?_, climbed⟩, ?_⟩
    · exact ⟨root, here.head, here.leaf, trail, by simp [here.flag]⟩
    · simp [heads]

structure Candidates (U : Set AUM) (X : AUM) (storage : σ) (lastKnownOldest : Option AUMHash)
    (rs : List (List AUM × Chain)) : Prop where
  climbed : ∀ r ∈ rs, Climbed U X storage lastKnownOldest r.1 r.2
  all : ∀ a ∈ stored storage, (forks U X).Leaf (stored storage) a → ∃ r ∈ rs, r.2.head = a
  sorted : rs.Pairwise fun r r' => r.2.head.hash ≤ r'.2.head.hash

theorem computeChainCandidates_spec (lastKnownOldest : Option AUMHash) (pos : 0 < maxIter) : ∃ rs,
      Candidates U X storage lastKnownOldest rs ∧
        computeChainCandidates storage lastKnownOldest maxIter =
          if ∀ r ∈ rs, r.1.length < maxIter then .ok (rs.map (·.2))
          else .error (iterationLimit maxIter) := by
  obtain ⟨hs, heads, spec⟩ := heads_spec verified
  let start := hs.map fun h => Chain.mk h h State.empty false
  let order : Chain → Chain → Prop := fun c d => c.oldest.hash ≤ d.oldest.hash
  have initial : ∀ c ∈ start.insertionSort order, Initial U X storage c := by
    intro c hc
    obtain ⟨h, hh, rfl⟩ := List.mem_map.1 ((mem_insertionSort order).1 hc)
    exact ⟨rfl, rfl, ((spec h).1 hh).1, ((spec h).1 hh).2⟩
  obtain ⟨rs, climbs, climbed, sameHeads⟩ := climbs_all free verified lastKnownOldest initial
  refine ⟨rs, ⟨climbed, fun a ha leaf => ?_, ?_⟩, ?_⟩
  · have : a ∈ (start.insertionSort order).map (·.head) :=
      List.mem_map.2 ⟨⟨a, a, State.empty, false⟩,
        (mem_insertionSort order).2 (List.mem_map_of_mem ((spec a).2 ⟨ha, leaf⟩)), rfl⟩
    rw [← sameHeads] at this
    exact List.mem_map.1 this
  · rw [← pairwise_map (f := fun r : List AUM × Chain => r.2.head)
      (R := fun a b : AUM => a.hash ≤ b.hash), sameHeads, pairwise_map]
    refine (pairwise_insertionSort order start).imp_of_mem fun hc hd le => ?_
    rwa [← (initial _ hc).oldest, ← (initial _ hd).oldest]
  · have climbs' : List.Forall₂ (fun c r => Climbs storage lastKnownOldest r.1 c r.2)
        (start.insertionSort order) (rs.map fun r => (r.1.length, r.2)) :=
      forall₂_map_right_iff.2 climbs
    simp only [computeChainCandidates, heads]
    refine (climbLoop_spec climbs' pos).trans ?_
    simp only [List.forall_mem_map, List.map_map, Function.comp_def]

theorem computeActiveChain_ok (computed : computeActiveChain storage lastKnownOldest maxIter = .ok c) :
    ∃ chains, computeChainCandidates storage lastKnownOldest maxIter = .ok chains ∧
      computeActiveAncestor chains = .ok c.oldest.hash ∧ c.oldest ∈ stored storage ∧
      ∃ n s path, computeStateAt storage maxIter c.oldest.hash = .ok s ∧
        Lineage U X n c.oldest s ∧
        (forks U X).Leads (stored storage) c.oldest s path c.head c.state := by
  unfold computeActiveChain at computed
  split at computed
  · cases computed
  rename_i chains candidates
  split at computed
  · cases computed
  split at computed
  · cases computed
  rename_i h ancestor
  split at computed
  · cases computed
  rename_i o read
  obtain ⟨ho, rfl⟩ := (aum_eq_ok verified.consistent).1 read
  split at computed
  · cases computed
  rename_i s stateAt
  obtain ⟨n, o', ho', same, lineage⟩ := computeStateAt_ok free verified stateAt
  obtain rfl := stored_injective ho' ho same
  split at computed
  · cases computed
  rename_i head t _ walked
  obtain rfl := Except.ok.inj computed
  obtain ⟨path, leads, -⟩ := (fastForward_eq_ok free verified ho lineage).1 walked
  exact ⟨chains, candidates, ancestor, ho, n, s, path, stateAt, lineage, leads⟩

end

variable {chains : List Chain} {h : AUMHash}

theorem computeActiveChain_total (free : CollisionFree U X) (verified : Verified U X storage)
    {q : AUM} {t : State} {path : List AUM}
    (candidates : computeChainCandidates storage lastKnownOldest maxIter = .ok chains)
    (nonempty : chains ≠ []) (ancestor : computeActiveAncestor chains = .ok o.hash)
    (mem : o ∈ stored storage) (checkpoint : o.messageKind = .checkpoint)
    (lineage : Lineage U X n o s) (leads : (forks U X).Leads (stored storage) o s path q t)
    (enough : path.length < maxIter) :
    computeActiveChain storage lastKnownOldest maxIter = .ok ⟨o, q, t, false⟩ := by
  have read : aum storage o.hash = .ok o := mem
  have stateAt : computeStateAt storage maxIter o.hash = .ok s :=
    computeStateAt_total free verified mem checkpoint (.refl o) (Nat.zero_lt_of_lt enough) lineage
  have walked : fastForward storage maxIter s neverDone () = .ok (q, t, _) :=
    (fastForward_eq_ok free verified mem lineage).2 ⟨path, leads, enough, rfl⟩
  simp [computeActiveChain, candidates, nonempty, ancestor, read, stateAt, walked]

structure Tree (U : Set AUM) (X : AUM) (storage : σ) (r : AUM) : Prop where
  verified : Verified U X storage
  root : (forks U X).Root (stored storage) r
  checkpoint : r.messageKind = .checkpoint
  connected : ∀ a ∈ stored storage, ∃ l, (forks U X).Trail (stored storage) r l a

theorem Tree.trails_below (tree : Tree U X storage r) (short : ChainsBelow (stored storage) n)
    (l : List AUM) (b : AUM) (trail : (forks U X).Trail (stored storage) r l b) : l.length < n :=
  (Nat.lt_succ_self _).trans (short.trail tree.root.1 trail)

theorem ancestors_foldl (b : Bool) (same : ∀ c ∈ chains, c.oldest.hash = h) : ∃ b', chains.foldl
      (fun (m : AList fun _ : AUMHash => Bool) c => m.insert c.oldest.hash c.chainsThroughActive)
      (AList.singleton h b) = AList.singleton h b' := by
  induction chains generalizing b with
  | nil => exact ⟨b, rfl⟩
  | cons _ _ ih =>
    obtain ⟨here, rest⟩ := forall_mem_cons.1 same
    rw [foldl_cons, here, AList.insert_singleton_eq]
    exact ih _ rest

theorem computeActiveAncestor_single (nonempty : chains ≠ [])
    (same : ∀ c ∈ chains, c.oldest.hash = h) : computeActiveAncestor chains = .ok h := by
  match chains, nonempty with
  | c :: cs, _ =>
    obtain ⟨here, rest⟩ := forall_mem_cons.1 same
    obtain ⟨b, folded⟩ := ancestors_foldl c.chainsThroughActive rest
    have single : ancestorsOf (c :: cs) = AList.singleton h b := by
      rw [ancestorsOf, foldl_cons, here, AList.insert_empty, folded]
    rw [computeActiveAncestor, single]
    rfl

namespace Tree

section
variable (free : CollisionFree U X) (tree : Tree U X storage r)
include free tree

theorem candidates
    {rs : List (List AUM × Chain)} (spec : Candidates U X storage lastKnownOldest rs) :
    ∀ p ∈ rs, p.2.oldest = r := by
  intro p hp
  have climbed := spec.climbed p hp
  obtain ⟨l, trail⟩ := tree.connected _ climbed.head
  exact climbed.root.unique (forks_graded free) climbed.trail tree.root trail

theorem parent_stored {p d : AUM}
    (mem : d ∈ stored storage) (child : (forks U X).child p d) : d = r ∨ p ∈ stored storage := by
  obtain ⟨l, trail⟩ := tree.connected d mem
  rcases trail.last_step with ⟨-, rfl⟩ | ⟨k, q, -, before, child'⟩
  · exact .inl rfl
  · rw [(forks_graded free).parent_unique child child']
    exact .inr (before.all_mem tree.root.1 q before.final_mem)

theorem leads (mem : a ∈ stored storage)
    (bounded : ∀ l b, (forks U X).Trail (stored storage) r l b → l.length < maxIter) :
    ∃ n s path q t, Lineage U X n a s ∧ (forks U X).Leads (stored storage) a s path q t ∧
      path.length < maxIter := by
  obtain ⟨l, trail⟩ := tree.connected a mem
  have below : ∀ path q, (forks U X).Trail (stored storage) a path q → path.length < maxIter := by
    intro path q rest
    have := bounded _ _ (trail.append rest)
    rw [length_append] at this
    omega
  obtain ⟨n, s, lineage⟩ := tree.verified.known a mem
  obtain ⟨path, q, t, leads⟩ := exists_leads free tree.verified lineage below
  exact ⟨n, s, path, q, t, lineage, leads, below _ _ leads.1.trail⟩

theorem computeStateAt
    (bounded : ∀ l b, (forks U X).Trail (stored storage) r l b → l.length < maxIter)
    (mem : a ∈ stored storage) (lineage : Lineage U X n a s) :
    TKA.computeStateAt storage maxIter a.hash = .ok s := by
  obtain ⟨l, trail⟩ := tree.connected a mem
  exact computeStateAt_total free tree.verified tree.root.1 tree.checkpoint trail
    (bounded l a trail) lineage

theorem activeChain (computed : computeActiveChain storage lastKnownOldest maxIter = .ok c) :
    c.oldest = r ∧ ∃ n s path, Lineage U X n r s ∧
      (forks U X).Leads (stored storage) r s path c.head c.state := by
  obtain ⟨chains, candidates, ancestor, mem, n, s, path, -, lineage, leads⟩ :=
    computeActiveChain_ok free tree.verified computed
  obtain ⟨rs, spec, value⟩ := computeChainCandidates_spec free tree.verified lastKnownOldest
    (computeChainCandidates_pos candidates)
  rw [value] at candidates
  split at candidates
  · obtain rfl := Except.ok.inj candidates
    have oldest := tree.candidates free spec
    have nonempty : rs.map (·.2) ≠ [] := by
      intro empty
      rw [empty] at ancestor
      cases ancestor
    rw [computeActiveAncestor_single nonempty (h := r.hash)
      (by simpa using fun l c hc => by rw [oldest _ hc]), Except.ok.injEq] at ancestor
    obtain rfl := stored_injective tree.root.1 mem ancestor
    exact ⟨rfl, n, s, path, lineage, leads⟩
  · cases candidates

theorem activeChain_total (lastKnownOldest : Option AUMHash)
    (bounded : ∀ l a, (forks U X).Trail (stored storage) r l a → l.length < maxIter) :
    ∃ c, computeActiveChain storage lastKnownOldest maxIter = .ok c := by
  obtain ⟨n, s, lineage⟩ := tree.verified.known r tree.root.1
  obtain ⟨path, q, t, leads⟩ := exists_leads free tree.verified lineage bounded
  obtain ⟨rs, spec, value⟩ := computeChainCandidates_spec free tree.verified lastKnownOldest
    (Nat.zero_lt_of_lt (bounded [] r (.refl r)))
  have oldest := tree.candidates free spec
  have short : ∀ p ∈ rs, p.1.length < maxIter := fun p hp =>
    bounded _ _ (oldest p hp ▸ (spec.climbed p hp).trail)
  rw [if_pos short] at value
  have nonempty : rs.map (·.2) ≠ [] := by
    have hq := leads.1.trail.all_mem tree.root.1 q leads.1.trail.final_mem
    obtain ⟨p, hp, -⟩ := spec.all q hq leads.2
    simpa using ne_nil_of_mem hp
  have ancestor := computeActiveAncestor_single (h := r.hash) nonempty
    (by simpa using fun l c hc => by rw [oldest _ hc])
  exact ⟨_, computeActiveChain_total free tree.verified value nonempty ancestor tree.root.1
    tree.checkpoint lineage leads (bounded _ _ leads.1.trail)⟩

theorem activeChain_long (lastKnownOldest : Option AUMHash) (pos : 0 < maxIter)
    (trail : (forks U X).Trail (stored storage) r l a) (mem : a ∈ stored storage)
    (leaf : (forks U X).Leaf (stored storage) a) (long : maxIter ≤ l.length) :
    computeActiveChain storage lastKnownOldest maxIter =
      .error (.wrap "computing candidates" (iterationLimit maxIter)) := by
  obtain ⟨rs, spec, value⟩ :=
    computeChainCandidates_spec free tree.verified lastKnownOldest pos
  obtain ⟨p, hp, rfl⟩ := spec.all a mem leaf
  have climbed := spec.climbed p hp
  have same : p.1.length = l.length := by
    have := climbed.trail.rank_eq (forks_graded free)
    rw [tree.candidates free spec p hp, trail.rank_eq (forks_graded free)] at this
    omega
  rw [if_neg fun short => by have := short p hp; omega] at value
  rw [computeActiveChain, value]

theorem trails_short {m : Nat} (finite : ChainsBelow (stored storage) m)
    (computed : computeActiveChain storage lastKnownOldest maxIter = .ok c) (l : List AUM) (b : AUM)
    (trail : (forks U X).Trail (stored storage) r l b) : l.length < maxIter := by
  by_contra long
  obtain ⟨path, q, after, leaf⟩ :=
    tree.verified.exists_leaf free finite (trail.all_mem tree.root.1 b trail.final_mem)
  have whole := trail.append after
  obtain ⟨chains, candidates, -⟩ := computeActiveChain_ok free tree.verified computed
  rw [tree.activeChain_long free lastKnownOldest (computeChainCandidates_pos candidates) whole
    (whole.all_mem tree.root.1 q whole.final_mem) leaf (by rw [length_append]; omega)] at computed
  cases computed

theorem trail_of_desc {b c : AUM}
    (hb : b ∈ stored storage) (hc : c ∈ stored storage) (desc : (forks U X).Desc b c) :
    ∃ m, (forks U X).Trail (stored storage) b m c := by
  have laws := forks_graded free
  obtain ⟨k, below⟩ := tree.connected b hb
  obtain ⟨l, trail⟩ := tree.connected c hc
  have := below.rank_eq laws
  obtain ⟨_, m, -, -, after⟩ := trail.cut (trail.mem_of_desc laws desc (by omega))
  exact ⟨m, after⟩

theorem between {b c d : AUM}
    (hb : b ∈ stored storage) (hd : d ∈ stored storage) (desc : (forks U X).Desc b c)
    (desc' : (forks U X).Desc c d) : c ∈ stored storage := by
  have laws := forks_graded free
  obtain ⟨m, trail⟩ := tree.trail_of_desc free hb hd (desc.trans desc')
  exact trail.all_mem hb c (trail.mem_of_desc laws desc' (Desc.rank_le laws desc))

end

theorem root_or_parent (tree : Tree U X storage r) (mem : a ∈ stored storage) :
    a = r ∨ ∃ p ∈ stored storage, (forks U X).child p a := by
  obtain ⟨l, trail⟩ := tree.connected a mem
  rcases trail.last_step with ⟨-, rfl⟩ | ⟨k, p, -, before, child⟩
  · exact .inl rfl
  · exact .inr ⟨p, before.all_mem tree.root.1 p before.final_mem, child⟩

end Tree

end

end ScaleTail.TKA
