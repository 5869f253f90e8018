import ScaleTail.Proof.TKA.Reachable

/-! # Batches of updates -/

namespace ScaleTail.TKA

open Lib ForkSystem LawfulChonk

section
variable [Crypto]

def ParentsFirst (us : List AUM) : Prop := us.Pairwise fun u v => u.parent ≠ some v.hash

instance (us : List AUM) : Decidable (ParentsFirst us) := inferInstanceAs (Decidable (us.Pairwise _))

section
variable {σ : Type} [Chonk σ]

def informAll (a : Authority) (storage : σ) : List (List AUM) → Except Err (Authority × σ)
  | [] => .ok (a, storage)
  | us :: rest =>
    match a.inform storage us with
    | (.error err, _, _) => .error err
    | (.ok (), a', storage') => informAll a' storage' rest

end

variable {U : Set AUM} {X : AUM}

variable {us : List AUM} {S : Set AUM}

theorem Applicable.append {vs : List AUM} (ready : Applicable U X S (us ++ vs)) :
    Applicable U X S us ∧ Applicable U X (S ∪ {x | x ∈ us}) vs := by
  induction us generalizing S with
  | nil => exact ⟨trivial, by simpa using ready⟩
  | cons u us ih =>
    obtain ⟨here, rest⟩ := ready
    obtain ⟨first, second⟩ := ih rest
    refine ⟨⟨here, first⟩, ?_⟩
    have same : S ∪ {u} ∪ {x | x ∈ us} = S ∪ {x | x ∈ u :: us} := by
      ext x
      simp only [Set.mem_union, Set.mem_singleton_iff, Set.mem_ofPred_eq, List.mem_cons, or_assoc]
    rwa [same] at second

theorem ParentsFirst.applicable (free : CollisionFree U X) (first : ParentsFirst us)
    (ready : ∀ u ∈ us, u ∈ S ∨ ∃ p, (p ∈ S ∨ p ∈ us) ∧ (forks U X).child p u) :
    Applicable U X S us := by
  induction us generalizing S with
  | nil => trivial
  | cons _ _ ih =>
    obtain ⟨here, later⟩ := List.pairwise_cons.1 first
    obtain ⟨now, rest⟩ := List.forall_mem_cons.1 ready
    refine ⟨now.imp_right ?_, ih later fun v hv => ?_⟩
    · rintro ⟨p, hp | hp, child⟩
      · exact ⟨p, hp, child⟩
      · rcases List.mem_cons.1 hp with rfl | hp
        · have := (forks_graded free).rank_child child
          omega
        · exact absurd child.2.2 (here p hp)
    · rcases rest v hv with hv | ⟨p, hp | hp, child⟩
      · exact .inl (.inl hv)
      · exact .inr ⟨p, .inl (.inl hp), child⟩
      · rcases List.mem_cons.1 hp with rfl | hp
        · exact .inr ⟨p, .inl (.inr rfl), child⟩
        · exact .inr ⟨p, .inr hp, child⟩

section
variable {σ : Type} [Chonk σ] [LawfulChonk σ] {storage storage' : σ} {a a' : Authority}
  {batches : List (List AUM)}

theorem committed_flatten {σ : Type} [Chonk σ] {storage storage' : σ}
    (contents : stored storage' = committed storage us) :
    committed storage' batches.flatten = committed storage (us :: batches).flatten := by
  rw [committed, contents, committed, committed]
  ext x
  simp only [Set.mem_union, Set.mem_ofPred_eq, List.flatten_cons, List.mem_append, or_assoc]

theorem InSync.informAll (free : CollisionFree U X) (sync : InSync U X storage a)
    (mem : ∀ u ∈ batches.flatten, u ∈ U)
    (ok : TKA.informAll a storage batches = .ok (a', storage')) :
    InSync U X storage' a' ∧ a'.oldestAncestor = a.oldestAncestor ∧
      stored storage' = committed storage batches.flatten := by
  induction batches generalizing a storage with
  | nil =>
    obtain ⟨rfl, rfl⟩ := Prod.mk.inj (Except.ok.inj ok)
    exact ⟨sync, rfl, by simp [committed]⟩
  | cons us _ ih =>
    obtain ⟨here, later⟩ := List.forall_mem_append.1 mem
    cases run : a.inform storage us with
    | mk result =>
      rw [TKA.informAll, run] at ok
      cases result with
      | error => cases ok
      | ok =>
        obtain ⟨sync₁, oldest₁, contents₁⟩ := sync.inform free here (inform_ok run)
        obtain ⟨sync', oldest, contents⟩ := ih sync₁ later ok
        exact ⟨sync', oldest.trans oldest₁, contents.trans (committed_flatten contents₁)⟩

theorem InSync.informAll_total (free : CollisionFree U X) (sync : InSync U X storage a)
    (nonempty : ∀ us ∈ batches, us ≠ []) (mem : ∀ u ∈ batches.flatten, u ∈ U)
    (ready : Applicable U X (stored storage) batches.flatten)
    (bounded : ChainsBelow (committed storage batches.flatten) (maxScanIterations + 1)) :
    ∃ a' storage', TKA.informAll a storage batches = .ok (a', storage') := by
  induction batches generalizing a storage with
  | nil => exact ⟨a, storage, rfl⟩
  | cons us rest ih =>
    obtain ⟨here, later⟩ := List.forall_mem_append.1 mem
    obtain ⟨full, others⟩ := List.forall_mem_cons.1 nonempty
    obtain ⟨now, next⟩ := ready.append
    have short : ∀ l b, (forks U X).Trail (committed storage us) a.oldestAncestor l b →
        l.length < maxScanIterations := by
      intro l b trail
      have grow : ∀ x ∈ committed storage us, x ∈ committed storage (us :: rest).flatten := by
        rintro x (hx | hx)
        · exact .inl hx
        · exact .inr (List.mem_append_left _ hx)
      exact Nat.lt_of_succ_lt_succ (bounded.trail (.inl sync.tree.root.1)
        (trail.restrict fun x hx => grow x (trail.mem x hx)))
    obtain ⟨a₁, storage₁, run⟩ := sync.inform_total free full here now short
    obtain ⟨sync₁, -, contents₁⟩ := sync.inform free here run
    rw [← committed_flatten contents₁] at bounded
    rw [← committed, ← contents₁] at next
    obtain ⟨a', storage', rest⟩ := ih sync₁ others later next bounded
    exact ⟨a', storage', by simp only [TKA.informAll, Authority.inform, run, rest]⟩

end

/-- Two splits of a set of updates into batches, with parents first, lead to the same authority and
the same stored AUMs, whatever the storages list first. -/
theorem inform_confluent {σ τ : Type} [Chonk σ] [LawfulChonk σ] [Chonk τ] [LawfulChonk τ]
    {storage storage' : σ} {remote : τ} {a a' : Authority} {batches batches' : List (List AUM)}
    (free : CollisionFree U X) (fed : Fed U X storage a) (fed' : Fed U X remote a)
    (start : stored storage = stored remote) (mem : ∀ u ∈ batches.flatten, u ∈ U)
    (same : ∀ u, u ∈ batches.flatten ↔ u ∈ batches'.flatten)
    (nonempty : ∀ us ∈ batches', us ≠ []) (first : ParentsFirst batches'.flatten)
    (bounded : ChainsBelow (stored storage ∪ {u | u ∈ batches.flatten}) (maxScanIterations + 1))
    (accepted : informAll a storage batches = .ok (a', storage')) :
    ∃ b' remote', informAll a remote batches' = .ok (b', remote') ∧ b'.head = a'.head ∧
      b'.headHash = a'.headHash ∧ b'.state = a'.state ∧ stored remote' = stored storage' := by
  have laws := forks_graded free
  obtain ⟨sync, oldest⟩ := fed.inSync free
  obtain ⟨sync', oldest'⟩ := fed'.inSync free
  obtain ⟨grown, oldest₁, contents⟩ := sync.informAll free mem accepted
  have all : committed remote batches'.flatten = committed storage batches.flatten := by
    ext x
    simp only [committed, start, Set.mem_union, Set.mem_ofPred_eq, same]
  have mem' : ∀ u ∈ batches'.flatten, u ∈ U := fun u hu => mem u ((same u).2 hu)
  have ready : Applicable U X (stored remote) batches'.flatten := by
    refine first.applicable free fun u hu => ?_
    have hu' : u ∈ stored storage' := by
      rw [contents]
      exact .inr ((same u).2 hu)
    rcases grown.tree.root_or_parent hu' with rfl | ⟨p, hp, child⟩
    · left
      rw [← start, oldest₁]
      exact sync.tree.root.1
    · rw [contents, ← all] at hp
      exact .inr ⟨p, hp, child⟩
  obtain ⟨b', remote', accepted'⟩ :=
    sync'.informAll_total free nonempty mem' ready (by rw [all]; exact bounded)
  obtain ⟨grown', oldest₁', contents'⟩ := sync'.informAll free mem' accepted'
  have equal : stored remote' = stored storage' := by rw [contents', contents, all]
  obtain ⟨n, s, path, lineage, leads⟩ := grown.active
  obtain ⟨m, t, path', lineage', leads'⟩ := grown'.active
  rw [oldest₁'] at lineage' leads'
  rw [oldest₁] at lineage leads
  obtain ⟨-, rfl⟩ := lineage.unique free lineage'
  rw [equal] at leads'
  obtain ⟨-, head, state⟩ := leads'.unique laws leads
  exact ⟨b', remote', accepted', head, by rw [Authority.headHash, state, Authority.headHash], state,
    equal⟩

end

section
open Sample

attribute [local instance] Sample.crypto

theorem inform_confluent_rivals : ∃ (storage storage' remote' : Mem) (a a' b' : Authority),
    informAll a storage [[first], [rival]] = .ok (a', storage') ∧
      informAll a storage [[rival, first]] = .ok (b', remote') ∧ b'.head = a'.head ∧
      b'.state = a'.state ∧ stored remote' = stored storage' := by
  have free : CollisionFree {x | x ∈ [genesis, first, rival]} genesis :=
    genesis_free (by decide) (by decide)
  have start := started_fed (U := {x | x ∈ [genesis, first, rival]}) (by simp)
  have mem : ∀ u ∈ [[first], [rival]].flatten, u ∈ {x | x ∈ [genesis, first, rival]} := by simp
  have accepted : informAll started (bootstrap memory genesis).2 [[first], [rival]] = .ok _ := rfl
  obtain ⟨sync, -, contents⟩ := (start.inSync free).1.informAll free mem accepted
  have verified := sync.tree.verified
  have bounded := verified.chainsBelow free (n := maxScanIterations + 1)
    (fun x hx => (verified.known x hx).mem) (by decide)
  rw [contents] at bounded
  have same : ∀ u, u ∈ [[first], [rival]].flatten ↔ u ∈ [[rival, first]].flatten := by
    simp [or_comm]
  obtain ⟨b', remote', accepted', head, -, state, equal⟩ :=
    inform_confluent free start start rfl mem same (by simp) (by decide) bounded accepted
  exact ⟨_, _, _, _, _, _, accepted, accepted', head, state, equal⟩

variable {n : Nat}

theorem span_parentsFirst (k : Nat) (small : n < 2 ^ 64) : ParentsFirst (span k n) := by
  rw [ParentsFirst, span, List.pairwise_map]
  refine List.Pairwise.imp_of_mem (fun {i j} hi hj lt => ?_) (List.pairwise_lt_range' 1)
  rw [List.mem_range'_1] at hi hj
  obtain ⟨i, rfl⟩ : ∃ i', i = i' + 1 := ⟨i - 1, by omega⟩
  rw [trunk_parent, ne_eq, Option.some.injEq]
  intro same
  have := trunk_injective (by omega) (by omega) same
  omega

theorem fork_first (lt : 1 < n) (small : n < 2 ^ 64) : ∃ result,
    informAll started (bootstrap memory genesis).2 [[first, rival], span 1 n] = .ok result := by
  have free := grove_free rival_branch small
  have batch : ∀ u ∈ [first, rival], u ∈ grove rival n := by
    simpa using ⟨trunk_mem lt.le, .inl rfl⟩
  obtain ⟨storage₁, step⟩ : ∃ storage₁, started.inform (bootstrap memory genesis).2 [first, rival] =
      (.ok (), atTrunk 1, storage₁) := ⟨_, Prod.ext rfl (Prod.ext rfl rfl)⟩
  obtain ⟨sync, -⟩ := ((started_fed (trunk_mem n.zero_le)).inSync free).1.inform free batch (inform_ok step)
  obtain ⟨storage', run⟩ := inform_span rival_branch small lt sync rfl rfl
  exact ⟨(atTrunk n, storage'), by simp only [informAll, step, run]⟩

theorem fork_last (long : maxScanIterations ≤ n) (small : n < 2 ^ 64) : ∃ e,
    informAll started (bootstrap memory genesis).2 [span 0 n, [rival]] = .error e := by
  obtain ⟨storage, run, -, e, storage', fails⟩ := branch_rejected rival_branch small long
  exact ⟨e, by simp only [informAll, run, fails]⟩

theorem inform_order_limit : ∃ (U : Set AUM) (storage : Mem) (a : Authority)
    (batches batches' : List (List AUM)), CollisionFree U genesis ∧ Fed U genesis storage a ∧
      (∀ u ∈ batches.flatten, u ∈ U) ∧ batches.flatten.Perm batches'.flatten ∧
      (∀ us ∈ batches ++ batches', us ≠ []) ∧
      ParentsFirst batches.flatten ∧ ParentsFirst batches'.flatten ∧
      (∃ result, informAll a storage batches = .ok result) ∧
      ∃ e, informAll a storage batches' = .error e := by
  have chain : span 0 2000 = first :: span 1 2000 := rfl
  have perm : ([first, rival] ++ (span 1 2000 ++ [])).Perm (span 0 2000 ++ ([rival] ++ [])) := by
    rw [chain, List.append_nil, List.append_nil]
    have swap : ([rival] ++ span 1 2000).Perm (span 1 2000 ++ [rival]) := List.perm_append_comm
    exact swap.cons first
  have rivalLast : ∀ u ∈ span 0 2000, u.parent ≠ some rival.hash := by
    intro u hu
    obtain ⟨i, above, le, rfl⟩ := mem_span.1 hu
    obtain ⟨i, rfl⟩ : ∃ i', i = i' + 1 := ⟨i - 1, by omega⟩
    rw [trunk_parent, ne_eq, Option.some.injEq]
    exact rival_branch.apart (by omega)
  have rootFirst : ∀ v ∈ span 1 2000, some (trunk 0).hash ≠ some v.hash := by
    intro v hv same
    obtain ⟨i, above, le, rfl⟩ := mem_span.1 hv
    have := trunk_injective (by decide) (by omega) (Option.some.inj same)
    omega
  have root : first.parent = some (trunk 0).hash := trunk_parent 0
  refine ⟨grove rival 2000, (bootstrap memory genesis).2, started, [[first, rival], span 1 2000],
    [span 0 2000, [rival]], grove_free rival_branch (by decide),
    started_fed (trunk_mem (Nat.zero_le _)), ?_, perm, ?_, ?_, ?_, fork_first (by decide) (by decide),
    fork_last (by decide) (by decide)⟩
  · intro u hu
    rcases List.mem_append.1 (perm.mem_iff.1 hu) with hu | hu
    · exact span_mem u hu
    · exact .inl (by simpa using hu)
  · simp [span]
  · rw [ParentsFirst, List.flatten_cons, List.flatten_singleton]
    refine .cons (List.forall_mem_cons.2 ⟨?_, ?_⟩) (.cons ?_ (span_parentsFirst 1 (by decide)))
    · exact rivalLast first (mem_span.2 ⟨1, by decide, by decide, rfl⟩)
    · exact rootFirst
    · exact rootFirst
  · refine List.pairwise_append.2 ⟨span_parentsFirst 0 (by decide), List.pairwise_singleton _ _, ?_⟩
    intro u hu v hv
    rw [List.mem_singleton.1 hv]
    exact rivalLast u hu

end

end ScaleTail.TKA
