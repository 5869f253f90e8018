import ScaleTail.Proof.TKA.Intersection

/-! # Compaction -/

namespace ScaleTail.TKA

open Lib ForkSystem LawfulChonk Verdict List

namespace Verdict

variable {all young act cand leaves : List AUMHash} {h : AUMHash}

def passed (all young act cand leaves : List AUMHash) : Verdict :=
  ((((ofHashes all).markAll young .setYoung).markAll act .setActive).markAll cand
    .setCandidate).markAll leaves .setLeaf

theorem passed_flags : (passed all young act cand leaves).flags h =
    ⟨h ∈ act, h ∈ young, h ∈ leaves, false, h ∈ cand⟩ := by
  have young' : ∀ s : RetainState, s.setYoung.setYoung = s.setYoung := fun _ => rfl
  have active' : ∀ s : RetainState, s.setActive.setActive = s.setActive := fun _ => rfl
  have candidate' : ∀ s : RetainState, s.setCandidate.setCandidate = s.setCandidate := fun _ => rfl
  have leaf' : ∀ s : RetainState, s.setLeaf.setLeaf = s.setLeaf := fun _ => rfl
  rw [passed, flags_markAll leaf', flags_markAll candidate', flags_markAll active',
    flags_markAll young']
  by_cases inAct : h ∈ act <;> by_cases inYoung : h ∈ young <;> by_cases inLeaves : h ∈ leaves <;>
    by_cases inCand : h ∈ cand <;>
    simp [inAct, inYoung, inLeaves, inCand, ofHashes, RetainState.none, RetainState.setYoung,
      RetainState.setActive, RetainState.setCandidate, RetainState.setLeaf]

theorem passed_retained : ((passed all young act cand []).flags h).retained = true ↔
    h ∈ act ∨ h ∈ young := by
  simp [passed_flags, RetainState.retained]

theorem mem_keys_passed : h ∈ (passed all young act cand leaves).keys ↔
    h ∈ all ∨ h ∈ young ∨ h ∈ act ∨ h ∈ cand ∨ h ∈ leaves := by
  rw [passed, mem_keys_markAll, mem_keys_markAll, mem_keys_markAll, mem_keys_markAll]
  simp only [ofHashes, or_assoc]

end Verdict

section
variable [Crypto] {σ : Type} [CompactableChonk σ]

structure Plan (U : Set AUM) (X : AUM) (storage : σ) (r head : AUM) (opts : CompactionOptions)
    (now : Time) (anchor : AUM) (toDelete : List AUMHash) : Prop where
  mem : anchor ∈ stored storage
  checkpoint : anchor.messageKind = .checkpoint
  active : ∃ l, (forks U X).Trail (stored storage) anchor l head ∧
    (∀ x ∈ anchor :: l, x.hash ∉ toDelete) ∧ (anchor = r ∨ opts.minChain ≤ l.length)
  linked : ∀ b ∈ stored storage, b.hash ∉ toDelete →
    b = anchor ∨ ∃ p ∈ stored storage, p.hash ∉ toDelete ∧ (forks U X).child p b
  young : ∀ b ∈ stored storage, ∃ t, CompactableChonk.commitTime storage b.hash = .ok t ∧
    (now - opts.minAge < t → b.hash ∉ toDelete)
  listed : ∀ h ∈ toDelete, (∃ b ∈ stored storage, b.hash = h) ∨ r.parent = some h
  outside : (∃ b ∈ stored storage, b.hash ∈ toDelete) → ∀ h, r.parent = some h → h ∈ toDelete

variable {U : Set AUM} {X r head anchor : AUM} {storage storage' : σ} {opts : CompactionOptions}
  {now : Time} {order : CompactionOrder} {toDelete : List AUMHash}

variable {T : Set AUM} {ancestor : AUMHash} {n : Nat}

theorem Plan.trail (plan : Plan U X storage r head opts now anchor toDelete)
    (kept : ∀ x ∈ stored storage, x.hash ∉ toDelete → x ∈ T) :
    anchor ∈ T ∧ ∃ l, (forks U X).Trail T anchor l head := by
  obtain ⟨l, active, retained, -⟩ := plan.active
  obtain ⟨here, rest⟩ := forall_mem_cons.1 retained
  exact ⟨kept anchor plan.mem here, l, active.restrict fun x hx => kept x (active.mem x hx) (rest x hx)⟩

variable [LawfulCompactableChonk σ]

structure Passed (U : Set AUM) (X : AUM) (storage : σ) (r head target : AUM)
    (opts : CompactionOptions) (now : Time) (v : Verdict) : Prop where
  marked : Marked U X storage r target head v
  deep : ∃ l, (forks U X).Trail (stored storage) target l head ∧
    (target = r ∨ opts.minChain ≤ l.length)
  young : ∀ b ∈ stored storage, ∃ t, CompactableChonk.commitTime storage b.hash = .ok t ∧
    (now - opts.minAge < t → (v.flags b.hash).retained = true)
  keys : ∀ h, h ∈ v.keys ↔ (∃ b ∈ stored storage, b.hash = h) ∨ (v.flags h).candidate = true

section
variable (free : CollisionFree U X) (tree : Tree U X storage r) {all : List AUMHash}
include free tree

theorem twoPasses_spec (mem : head ∈ stored storage) {v₁ v₂ : Verdict}
    (listed : ∀ h, h ∈ all ↔ ∃ b ∈ stored storage, b.hash = h)
    (pass₁ : markYoungAUMs storage (.ofHashes all) now opts.minAge order.young = .ok v₁)
    (pass₂ : markActiveChain storage v₁ opts.minChain head.hash n = .ok (ancestor, v₂)) :
    ∃ target ∈ stored storage, ∃ l young act cand, target.hash = ancestor ∧
      target.messageKind = .checkpoint ∧ (forks U X).Trail (stored storage) target l head ∧
      v₂ = .passed all young act cand [] ∧ Names act (target :: l) ∧
      (target = r ∧ cand = [] ∨
        opts.minChain ≤ l.length ∧ ∀ h, h ∈ cand ↔ Below U X storage target h) ∧
      (∀ b ∈ stored storage, ∃ t, CompactableChonk.commitTime storage b.hash = .ok t ∧
        (now - opts.minAge < t → b.hash ∈ young)) ∧
      ∀ h, h ∈ act ∨ h ∈ young → ∃ b ∈ stored storage, b.hash = h := by
  obtain ⟨young, rfl, sound, complete⟩ := markYoungLoop_spec pass₁
  obtain ⟨target, ht, l, act, cand, hash, kind, trail, rfl, names, shape⟩ :=
    markActiveChain_spec free tree mem pass₂
  have visited : ∀ h, h ∈ order.young.visit all ↔ ∃ b ∈ stored storage, b.hash = h := fun h =>
    (order.young.perm all).mem_iff.trans (listed h)
  refine ⟨target, ht, l, young, act, cand, hash, kind, trail, rfl, names, shape, ?_, ?_⟩
  · exact fun b hb => complete b.hash ((visited _).2 ⟨b, hb, rfl⟩)
  rintro h (hh | hh)
  · obtain ⟨x, hx, same⟩ := (names h).1 hh
    exact ⟨x, trail.all_mem ht x hx, same⟩
  · exact (visited h).1 (sound h hh)

theorem passes_spec (mem : head ∈ stored storage) {v₁ v₂ v₃ : Verdict}
    {m : Nat} (listed : ∀ h, h ∈ all ↔ ∃ b ∈ stored storage, b.hash = h)
    (pass₁ : markYoungAUMs storage (.ofHashes all) now opts.minAge order.young = .ok v₁)
    (pass₂ : markActiveChain storage v₁ opts.minChain head.hash n = .ok (ancestor, v₂))
    (pass₃ : markDescendantAUMs storage v₂ order.descendants m = .ok v₃) :
    ∃ target, target.hash = ancestor ∧ Passed U X storage r head target opts now v₃ := by
  obtain ⟨target, ht, l, young, act, cand, hash, kind, trail, rfl, names, shape, complete,
    keptStored⟩ := twoPasses_spec free tree mem listed pass₁ pass₂
  have keptListed : ∀ h, ((passed all young act cand []).flags h).retained = true →
      h ∈ (passed all young act cand []).keys := by
    intro h hh
    rw [mem_keys_passed]
    exact (passed_retained.1 hh).elim (fun hh => .inr (.inr (.inl hh))) fun hh => .inr (.inl hh)
  obtain ⟨leaves, rfl, seeds, leavesStored, closed⟩ := markDescendantAUMs_spec free tree.verified
    (by simp [passed_flags]) keptListed (fun h hh => keptStored h (passed_retained.1 hh))
    pass₃
  have after : (passed all young act cand []).markAll leaves .setLeaf =
      passed all young act cand leaves := rfl
  -- Every hash that was retained before is marked in the third pass as well.
  have retained : ∀ h, ((passed all young act cand leaves).flags h).retained = true ↔
      h ∈ leaves := by
    intro h
    have := seeds h
    rw [passed_retained] at this
    simp only [passed_flags, RetainState.retained, Bool.or_false, Bool.or_eq_true,
      decide_eq_true_eq]
    tauto
  refine ⟨target, hash, ⟨ht, kind, ⟨l, trail, fun h => ?_⟩, ?_, fun h => ?_, fun h hh => ?_, ?_⟩,
    ⟨l, trail, shape.imp And.left And.left⟩, fun b hb => ?_, fun h => ?_⟩
  · rw [after, passed_flags, decide_eq_true_eq]
    exact names h
  · rw [after]
    simp only [passed_flags, decide_eq_true_eq]
    refine shape.imp (fun whole => ⟨whole.1, ?_⟩) And.right
    simp [whole.2]
  · rw [after, passed_flags]
  · rw [after, retained] at hh
    exact leavesStored h hh
  · simp only [after, retained]
    exact closed
  · obtain ⟨t, time, late⟩ := complete b hb
    refine ⟨t, time, fun recent => ?_⟩
    rw [after, retained]
    exact seeds _ (passed_retained.2 (.inr (late recent)))
  · rw [after, mem_keys_passed, passed_flags, decide_eq_true_eq]
    constructor
    · rintro (hh | hh | hh | hh | hh)
      · exact .inl ((listed h).1 hh)
      · exact .inl (keptStored h (.inr hh))
      · exact .inl (keptStored h (.inl hh))
      · exact .inr hh
      · exact .inl (leavesStored h hh)
    · rintro (held | hh)
      · exact .inl ((listed h).2 held)
      · exact .inr (.inr (.inr (.inl hh)))

theorem Passed.plan {target anchor : AUM}
    {v v' : Verdict} (passed : Passed U X storage r head target opts now v)
    (anchored : Anchored U X storage target anchor v v') {visit : RangeOrder} :
    Plan U X storage r head opts now anchor
      ((visit.visit v'.keys).filter fun h => !(v'.flags h).retained) := by
  have laws := forks_graded free
  obtain ⟨marked, ⟨l, trail, deep⟩, young, keys⟩ := passed
  have deleted : ∀ h, h ∈ (visit.visit v'.keys).filter (fun h => !(v'.flags h).retained) ↔
      ((∃ b ∈ stored storage, b.hash = h) ∨ (v.flags h).candidate = true) ∧
        (v'.flags h).retained = false := by
    intro h
    rw [mem_filter, (visit.perm v'.keys).mem_iff, Bool.not_eq_true', anchored.keys, keys]
  have held : ∀ b ∈ stored storage,
      b.hash ∉ (visit.visit v'.keys).filter (fun h => !(v'.flags h).retained) ↔
        (v'.flags b.hash).retained = true := by
    intro b hb
    rw [deleted, and_iff_right (.inl ⟨b, hb, rfl⟩), Bool.not_eq_false]
  obtain ⟨m, down⟩ := tree.trail_of_desc free anchored.mem marked.mem anchored.desc
  refine ⟨anchored.mem, anchored.checkpoint, ⟨m ++ l, down.append trail, fun x hx => ?_, ?_⟩,
    fun b hb kept => ?_, fun b hb => ?_, fun h hh => ?_, fun ⟨b, hb, gone⟩ h link => ?_⟩
  · rw [held x ((down.append trail).all_mem anchored.mem x hx)]
    rw [← cons_append] at hx
    rcases mem_append.1 hx with hx | hx
    · exact anchored.path x (down.desc x hx) (down.desc_final x hx)
    · obtain ⟨_, _, -, before, -⟩ := trail.cut (mem_cons_of_mem _ hx)
      exact anchored.grow _ (marked.kept_along marked.mem marked.retained_target before)
  · rcases deep with rfl | deep
    · exact .inl (tree.desc_root free anchored.mem anchored.desc)
    · right
      rw [length_append]
      omega
  · refine (anchored.linked b hb ((held b hb).1 kept)).imp_right ?_
    rintro ⟨p, hp, kept, child⟩
    exact ⟨p, hp, (held p hp).2 kept, child⟩
  · obtain ⟨t, time, late⟩ := young b hb
    exact ⟨t, time, fun recent => (held b hb).2 (anchored.grow _ (late recent))⟩
  · by_cases kept : ∃ b ∈ stored storage, b.hash = h
    · exact .inl kept
    · have candidate := ((deleted h).1 hh).1.resolve_left kept
      push Not at kept
      exact .inr (marked.candidate_missing tree candidate kept)
  · rw [deleted]
    have missing : (v'.flags h).retained = false := by
      rw [Bool.eq_false_iff]
      intro kept
      obtain ⟨y, hy, rfl⟩ := anchored.kept h kept
      exact tree.root.2 y hy ⟨tree.verified.known y hy, tree.verified.known r tree.root.1, link⟩
    rcases marked.candidate with ⟨rfl, -⟩ | below
    · obtain ⟨k, path⟩ := tree.connected b hb
      have kept := anchored.grow _ (marked.kept_along tree.root.1 marked.retained_target path)
      exact absurd gone ((held b hb).2 kept)
    · obtain ⟨k, path⟩ := tree.connected target marked.mem
      exact ⟨.inr ((below h).2 ⟨r, tree.root.1, path.desc target path.final_mem, link⟩), missing⟩

theorem compactionPlan_spec (mem : head ∈ stored storage) {toDelete : List AUMHash}
    (ok : compactionPlan storage head.hash opts now order = .ok (ancestor, toDelete)) :
    ∃ anchor, anchor.hash = ancestor ∧ Plan U X storage r head opts now anchor toDelete := by
  obtain ⟨all, listed, spec⟩ := LawfulCompactableChonk.allAUMs tree.verified.consistent
  unfold compactionPlan at ok
  rw [ite_error_eq_ok, ite_error_eq_ok, listed] at ok
  obtain ⟨-, -, ok⟩ := ok
  dsimp only at ok
  split at ok
  · cases ok
  rename_i v₁ pass₁
  split at ok
  · cases ok
  rename_i ancestor₁ v₂ pass₂
  split at ok
  · cases ok
  rename_i v₃ pass₃
  split at ok
  · cases ok
  rename_i ancestor₂ v₄ pass₄
  obtain ⟨rfl, rfl⟩ := Prod.mk.inj (Except.ok.inj ok)
  obtain ⟨target, rfl, passed⟩ := passes_spec free tree mem spec pass₁ pass₂ pass₃
  obtain ⟨anchor, hash, anchored⟩ := markAncestorIntersectionAUMs_spec free tree passed.marked
    (fun h kept => (passed.keys h).2 (.inl (passed.marked.kept h kept))) pass₄
  exact ⟨anchor, hash, passed.plan free tree anchored⟩

end

theorem Plan.anchor_eq (tree : Tree U X storage r)
    (plan : Plan U X storage r head opts now anchor toDelete) (kept : r.hash ∉ toDelete) :
    anchor = r := by
  rcases plan.linked r tree.root.1 kept with same | ⟨p, hp, -, child⟩
  · exact same.symm
  · exact absurd child (tree.root.2 p hp)

theorem Tree.leads_within (free : CollisionFree U X) (tree : Tree U X storage r)
    {s t : State} {path l : List AUM} {o : AUM} (lineage : Lineage U X n r s)
    (leads : (forks U X).Leads (stored storage) r s path head t) (sub : T ⊆ stored storage)
    (mem : o ∈ T) (trail : (forks U X).Trail T o l head) :
    ∃ m u, Lineage U X m o u ∧ (forks U X).Leads T o u l head t := by
  have laws := forks_graded free
  obtain ⟨k, root⟩ := tree.connected o (sub mem)
  have onPath := leads.1.trail.mem_of_desc laws (trail.desc head trail.final_mem)
    (by rw [root.rank_eq laws]; omega)
  obtain ⟨u, k', m, rfl, before, after⟩ := leads.1.cut onPath
  obtain rfl := after.trail.unique laws trail
  exact ⟨_, u, lineage.primary free before, after.restrict sub trail.mem,
    fun c hc child => leads.2 c (sub hc) child⟩

theorem Plan.leads (free : CollisionFree U X) (tree : Tree U X storage r)
    (plan : Plan U X storage r head opts now anchor toDelete) {s t : State}
    {path : List AUM} (lineage : Lineage U X n r s)
    (leads : (forks U X).Leads (stored storage) r s path head t)
    (sub : T ⊆ stored storage) (kept : ∀ x ∈ stored storage, x.hash ∉ toDelete → x ∈ T) :
    ∃ m u k, Lineage U X m anchor u ∧ (forks U X).Leads T anchor u k head t := by
  obtain ⟨mem, k, trail⟩ := plan.trail kept
  obtain ⟨m, u, lineage', leads'⟩ := tree.leads_within free lineage leads sub mem trail
  exact ⟨m, u, k, lineage', leads'⟩

theorem Plan.tree (free : CollisionFree U X) (tree : Tree U X storage r)
    (plan : Plan U X storage r head opts now anchor toDelete) (consistent : Consistent storage')
    (contents : stored storage' = {a ∈ stored storage | a.hash ∉ toDelete}) :
    Tree U X storage' anchor := by
  have laws := forks_graded free
  have mem : ∀ x, x ∈ stored storage' ↔ x ∈ stored storage ∧ x.hash ∉ toDelete := by
    rw [contents]
    exact fun _ => Iff.rfl
  have connected : ∀ b ∈ stored storage', ∃ l, (forks U X).Trail (stored storage') anchor l b := by
    intro b hb
    induction rank : depth U X b using Nat.strongRecOn generalizing b with
    | ind _ ih =>
      obtain ⟨hb', kept⟩ := (mem b).1 hb
      rcases plan.linked b hb' kept with rfl | ⟨p, hp, kept', child⟩
      · exact ⟨[], .refl _⟩
      have := laws.rank_child child
      obtain ⟨l, trail⟩ := ih (depth U X p) (by omega) p ((mem p).2 ⟨hp, kept'⟩) rfl
      exact ⟨l ++ [b], trail.concat hb child⟩
  obtain ⟨l, -, retained, -⟩ := plan.active
  refine ⟨⟨consistent, fun b hb => tree.verified.known b ((mem b).1 hb).1⟩,
    ⟨(mem anchor).2 ⟨plan.mem, retained anchor mem_cons_self⟩, fun p hp child => ?_⟩,
    plan.checkpoint, connected⟩
  obtain ⟨k, trail⟩ := connected p hp
  have := trail.rank_eq laws
  have := laws.rank_child child
  omega

theorem compact_ok (free : CollisionFree U X) (tree : Tree U X storage r)
    (mem : head ∈ stored storage)
    (ok : compact storage head.hash opts now order = (.ok ancestor, storage')) :
    ∃ anchor toDelete, anchor.hash = ancestor ∧
      compactionPlan storage head.hash opts now order = .ok (ancestor, toDelete) ∧
      Plan U X storage r head opts now anchor toDelete ∧ Consistent storage' ∧
      stored storage' = {a ∈ stored storage | a.hash ∉ toDelete} ∧
      Chonk.lastActiveAncestor storage' = .ok (some ancestor) := by
  unfold compact at ok
  split at ok
  · cases (Prod.mk.inj ok).1
  rename_i ancestor₁ toDelete planned
  obtain ⟨anchor, rfl, plan⟩ := compactionPlan_spec free tree mem planned
  obtain ⟨s₁, set, consistent₁, contents₁, recorded₁⟩ :=
    LawfulChonk.setLastActiveAncestor tree.verified.consistent anchor.hash
  rw [set] at ok
  dsimp only at ok
  split at ok
  · cases (Prod.mk.inj ok).1
  rename_i s₂ purged
  obtain ⟨same, rfl⟩ := Prod.mk.inj ok
  obtain rfl := Except.ok.inj same
  obtain ⟨consistent₂, contents₂, recorded₂⟩ :=
    LawfulCompactableChonk.purgeAUMs consistent₁ purged
  rw [contents₁] at contents₂
  exact ⟨anchor, toDelete, rfl, planned, plan, consistent₂, contents₂, recorded₂.trans recorded₁⟩

end

end ScaleTail.TKA
