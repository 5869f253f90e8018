import ScaleTail.Proof.TKA.Restart

/-! # Crashes during a compaction -/

namespace ScaleTail.TKA

open Lib ForkSystem LawfulChonk List AList
open Prod (ext mk)

section
variable [Crypto] {chains : List Chain} {h : AUMHash}

theorem lookup_ancestorsOf : (ancestorsOf chains).lookup h =
    (chains.reverse.find? fun c => c.oldest.hash = h).map (·.chainsThroughActive) := by
  induction chains using List.reverseRecOn with
  | nil => simp [ancestorsOf]
  | append_singleton chains c ih =>
    have last : ancestorsOf (chains ++ [c]) =
        (ancestorsOf chains).insert c.oldest.hash c.chainsThroughActive := by
      rw [ancestorsOf, foldl_concat, ancestorsOf]
    rw [last, reverse_concat]
    by_cases here : c.oldest.hash = h
    · subst here
      simp
    · rw [lookup_insert_ne (Ne.symm here), ih]
      simp [here]

theorem mem_ancestorsOf : h ∈ (ancestorsOf chains).keys ↔ ∃ c ∈ chains, c.oldest.hash = h := by
  rw [← AList.mem_keys, ← AList.lookup_isSome, lookup_ancestorsOf]
  simp

theorem computeActiveAncestor_iff (occurs : ∃ c ∈ chains, c.oldest.hash = h)
    (flagged : ∀ c ∈ chains, c.chainsThroughActive = true → c.oldest.hash = h) (h' : AUMHash) :
    computeActiveAncestor chains = .ok h' ↔ h' = h ∧ ((∀ c ∈ chains, c.oldest.hash = h) ∨
      ∃ c, chains.reverse.find? (fun c => c.oldest.hash = h) = some c ∧
        c.chainsThroughActive = true) := by
  by_cases same : ∀ c ∈ chains, c.oldest.hash = h
  · obtain ⟨c, hc, -⟩ := occurs
    rw [computeActiveAncestor_single (ne_nil_of_mem hc) same, Except.ok.injEq,
      and_iff_left (.inl same), eq_comm]
  rw [or_iff_right same]
  have entry : ∀ e ∈ (ancestorsOf chains).entries, e.2 = true → e.1 = h ∧
      ∃ c, chains.reverse.find? (fun c => c.oldest.hash = h) = some c ∧
        c.chainsThroughActive = true := by
    intro e he flag
    have found := mem_lookup_iff.2 he
    rw [lookup_ancestorsOf, Option.mem_def, Option.map_eq_some_iff] at found
    obtain ⟨c, last, value⟩ := found
    have start : c.oldest.hash = e.1 := by simpa using find?_some last
    have start' := flagged c (mem_reverse.1 (mem_of_find?_eq_some last))
      (value.trans flag)
    rw [← start, start'] at last ⊢
    exact ⟨rfl, c, last, value.trans flag⟩
  unfold computeActiveAncestor
  split
  next e single =>
    have keys : ∀ k, (∃ c ∈ chains, c.oldest.hash = k) → k = e.1 := by
      intro k hk
      rw [← mem_ancestorsOf, AList.keys, single] at hk
      simpa using hk
    refine absurd (fun c hc => ?_) same
    rw [keys _ ⟨c, hc, rfl⟩, keys h occurs]
  · split
    next e found =>
      obtain ⟨rfl, last⟩ := entry e (mem_of_find?_eq_some found) (find?_some found)
      rw [Except.ok.injEq, and_iff_left last, eq_comm]
    next none =>
      refine iff_of_false (nomatch ·) ?_
      rintro ⟨-, c, last, flag⟩
      have listed : ⟨h, c.chainsThroughActive⟩ ∈ (ancestorsOf chains).entries := by
        rw [← mem_lookup_iff, lookup_ancestorsOf, last]
        rfl
      exact find?_eq_none.1 none _ listed flag

end

section
variable [Crypto] {σ : Type}

def Oldest [Chonk σ] (storage : σ) (b o : AUM) : Prop :=
  (∃ i, ancestorAt storage i b = some o) ∧ ancestorAt storage 1 o = none

def Childless [Chonk σ] (storage : σ) (b : AUM) : Prop :=
  b ∈ stored storage ∧ ∀ c ∈ stored storage, c.parent ≠ some b.hash

def Distinguished [Chonk σ] (storage : σ) (ancestor : AUMHash) (head : AUM) : Prop :=
  (∀ b o, Childless storage b → Oldest storage head o → Oldest storage b o) ∨
    ∀ b o, Childless storage b → Oldest storage head o → Oldest storage b o →
      (∀ c, Childless storage c → Oldest storage c o → c.hash ≤ b.hash) →
      ∃ i p, ancestorAt storage (i + 1) b = some p ∧ p.hash = ancestor

/-- The storage of an authority at `head` from which `Open` recovers it, where `ancestor` is the
recorded last active ancestor. -/
structure Recoverable [Chonk σ] (storage : σ) (ancestor : AUMHash) (head : AUM) : Prop where
  short : ChainsBelow (stored storage) (maxScanIterations + 1)
  checkpoint : ∀ o, Oldest storage head o → o.messageKind = .checkpoint
  distinguished : Distinguished storage ancestor head

variable [CompactableChonk σ] [LawfulCompactableChonk σ] {U : Set AUM} {X a b o : AUM} {storage : σ}
  {lastKnownOldest : Option AUMHash} {l : List AUM} {maxIter : Nat} {rs : List (List AUM × Chain)}

theorem Verified.oldest_iff (verified : Verified U X storage) (mem : b ∈ stored storage) :
    Oldest storage b o ↔ (forks U X).Root (stored storage) o ∧
      ∃ l, (forks U X).Trail (stored storage) o l b := by
  constructor
  · rintro ⟨⟨i, back⟩, stuck⟩
    obtain ⟨ho, l, trail, -⟩ := verified.ancestorAt_trail mem back
    refine ⟨⟨ho, fun p hp child => ?_⟩, l, trail⟩
    have up := trail_ancestorAt subset_rfl hp (.step ho child (.refl o))
    rw [length_singleton, stuck] at up
    cases up
  · rintro ⟨root, l, trail⟩
    refine ⟨⟨l.length, trail_ancestorAt subset_rfl root.1 trail⟩, ?_⟩
    rw [Option.eq_none_iff_forall_ne_some]
    intro p up
    obtain ⟨hp, k, step, length⟩ := verified.ancestorAt_trail root.1 up
    obtain ⟨c, rfl⟩ := length_eq_one_iff.1 length
    cases step with
    | step _ child rest =>
      cases rest
      exact root.2 p hp child

theorem Verified.childless_iff (verified : Verified U X storage) :
    Childless storage b ↔ b ∈ stored storage ∧ (forks U X).Leaf (stored storage) b := by
  refine and_congr_right fun hb => forall₂_congr fun c hc => not_congr ?_
  exact ⟨fun link => ⟨verified.known b hb, verified.known c hc, link⟩, fun child => child.2.2⟩

theorem Climbed.flag_iff (free : CollisionFree U X) (verified : Verified U X storage)
    {ancestor : AUMHash} {c : Chain} (climbed : Climbed U X storage (some ancestor) l c) :
    c.chainsThroughActive = true ↔
      ∃ i p, ancestorAt storage (i + 1) c.head = some p ∧ p.hash = ancestor := by
  have laws := forks_graded free
  have trail := climbed.trail
  rw [climbed.flag, List.any_eq_true]
  constructor
  · rintro ⟨x, hx, same⟩
    have below := trail.rank_lt laws x hx
    obtain ⟨k, m, -, -, after⟩ := trail.cut (dropLast_subset _ hx)
    have length := after.rank_eq laws
    have back := trail_ancestorAt subset_rfl (trail.all_mem climbed.root.1 x
      (dropLast_subset _ hx)) after
    refine ⟨m.length - 1, x, ?_, (Option.some.inj (beq_iff_eq.1 same)).symm⟩
    rwa [Nat.sub_add_cancel (by omega)]
  · rintro ⟨i, p, back, rfl⟩
    obtain ⟨hp, m, after, length⟩ := verified.ancestorAt_trail climbed.head back
    obtain ⟨o, k, root, before⟩ := exists_root laws hp
    obtain rfl := root.unique laws (before.append after) climbed.root trail
    refine ⟨p, ?_, beq_self_eq_true _⟩
    have on := trail.mem_of_desc laws (after.desc_final p mem_cons_self)
      (by have := before.rank_eq laws; omega)
    rw [← trail.dropLast_append, mem_append, mem_singleton] at on
    refine on.resolve_right ?_
    rintro rfl
    have := after.rank_eq laws
    omega

theorem Candidates.short_iff (free : CollisionFree U X) (verified : Verified U X storage)
    (spec : Candidates U X storage lastKnownOldest rs) :
    (∀ r ∈ rs, r.1.length < maxIter) ↔ ChainsBelow (stored storage) (maxIter + 1) := by
  have laws := forks_graded free
  constructor
  · intro short l mem chain
    cases l with
    | nil => exact Nat.succ_pos _
    | cons o =>
      obtain ⟨q, trail⟩ := verified.isChain_trail mem chain
      have ho := mem o mem_cons_self
      have hq := trail.all_mem ho q trail.final_mem
      obtain ⟨m, finite⟩ := verified.chains_finite free
      obtain ⟨k', q', after, leaf⟩ := verified.exists_leaf free finite hq
      obtain ⟨r, hr, rfl⟩ := spec.all q' (after.all_mem hq q' after.final_mem) leaf
      obtain ⟨o', k, root, before⟩ := exists_root laws ho
      have whole := (before.append trail).append after
      have climbed := spec.climbed r hr
      obtain rfl := root.unique laws whole climbed.root climbed.trail
      have := short r hr
      rw [← whole.unique laws climbed.trail, length_append, length_append] at this
      rw [length_cons]
      omega
  · intro short r hr
    have := short.trail (spec.climbed r hr).root.1 (spec.climbed r hr).trail
    omega

theorem head_le_last {chains : List Chain} {h : AUMHash} {c : Chain}
    (sorted : chains.Pairwise fun c d => c.head.hash ≤ d.head.hash)
    (last : chains.reverse.find? (fun c => c.oldest.hash = h) = some c) :
    ∀ d ∈ chains, d.oldest.hash = h → d.head.hash ≤ c.head.hash := by
  intro d hd start
  obtain ⟨-, after, before, split, others⟩ := find?_eq_some_iff_append.1 last
  rw [← mem_reverse, split] at hd
  rw [← pairwise_reverse, split, pairwise_append] at sorted
  rcases mem_append.1 hd with hd | hd
  · simpa [start] using others d hd
  rcases mem_cons.1 hd with rfl | hd
  · exact le_rfl
  · exact (pairwise_cons.1 sorted.2.1).1 d hd

structure Fragment (U : Set AUM) (X : AUM) (storage : σ) (anchor head o : AUM)
    (rs : List (List AUM × Chain)) : Prop where
  verified : Verified U X storage
  spec : Candidates U X storage (some anchor.hash) rs
  root : (forks U X).Root (stored storage) o
  before : ∃ l, (forks U X).Trail (stored storage) o l anchor
  after : ∃ l, (forks U X).Trail (stored storage) anchor l head
  leaf : (forks U X).Leaf (stored storage) head

namespace Fragment

variable {anchor head : AUM} {rs : List (List AUM × Chain)} {r : List AUM × Chain}

theorem mem (frag : Fragment U X storage anchor head o rs) :
    anchor ∈ stored storage ∧ head ∈ stored storage := by
  obtain ⟨l, before⟩ := frag.before
  obtain ⟨k, after⟩ := frag.after
  have held := before.all_mem frag.root.1 anchor before.final_mem
  exact ⟨held, after.all_mem held head after.final_mem⟩

section
variable (free : CollisionFree U X) (frag : Fragment U X storage anchor head o rs)
include free frag

theorem oldest_unique (hr : r ∈ rs) {o' : AUM} : Oldest storage r.2.head o' ↔ r.2.oldest = o' := by
  have climbed := frag.spec.climbed r hr
  rw [frag.verified.oldest_iff climbed.head]
  constructor
  · rintro ⟨root, l, trail⟩
    exact climbed.root.unique (forks_graded free) climbed.trail root trail
  · rintro rfl
    exact ⟨climbed.root, _, climbed.trail⟩

theorem oldest_head {o' : AUM} : Oldest storage head o' ↔ o' = o := by
  obtain ⟨l, before⟩ := frag.before
  obtain ⟨k, after⟩ := frag.after
  rw [frag.verified.oldest_iff frag.mem.2]
  constructor
  · rintro ⟨root, m, trail⟩
    exact root.unique (forks_graded free) trail frag.root (before.append after)
  · rintro rfl
    exact ⟨frag.root, _, before.append after⟩

end

theorem childless (frag : Fragment U X storage anchor head o rs) :
    Childless storage b ↔ ∃ r ∈ rs, r.2.head = b := by
  rw [frag.verified.childless_iff]
  constructor
  · exact fun ⟨hb, leaf⟩ => frag.spec.all b hb leaf
  · rintro ⟨r, hr, rfl⟩
    exact ⟨(frag.spec.climbed r hr).head, (frag.spec.climbed r hr).leaf⟩

theorem oldest_eq (frag : Fragment U X storage anchor head o rs) (hr : r ∈ rs) :
    r.2.oldest.hash = o.hash ↔ r.2.oldest = o :=
  ⟨fun same => stored_injective (frag.spec.climbed r hr).root.1 frag.root.1 same, fun same => by rw [same]⟩

section
variable (free : CollisionFree U X) (frag : Fragment U X storage anchor head o rs)
include free frag

theorem flagged (hr : r ∈ rs) (flag : r.2.chainsThroughActive = true) : r.2.oldest = o := by
  have climbed := frag.spec.climbed r hr
  obtain ⟨i, p, back, same⟩ := (climbed.flag_iff free frag.verified).1 flag
  obtain ⟨hp, l, after, -⟩ := frag.verified.ancestorAt_trail climbed.head back
  obtain rfl := stored_injective hp frag.mem.1 same
  obtain ⟨k, before⟩ := frag.before
  exact climbed.root.unique (forks_graded free) climbed.trail frag.root (before.append after)

theorem computeActiveAncestor_eq_ok (h : AUMHash) :
    computeActiveAncestor (rs.map (·.2)) = .ok h ↔
      h = o.hash ∧ Distinguished storage anchor.hash head := by
  have oldestEq := fun r hr => frag.oldest_eq (r := r) hr
  have own : ∃ r ∈ rs, r.2.head = head ∧ r.2.oldest = o := by
    obtain ⟨r, hr, same⟩ := frag.spec.all head frag.mem.2 frag.leaf
    refine ⟨r, hr, same, (frag.oldest_unique free hr).1 ?_⟩
    rw [same, frag.oldest_head free]
  have occurs : ∃ c ∈ rs.map (·.2), c.oldest.hash = o.hash := by
    obtain ⟨r, hr, -, oldest⟩ := own
    exact ⟨r.2, List.mem_map_of_mem hr, by rw [oldest]⟩
  have sorted : (rs.map (·.2)).Pairwise fun c d => c.head.hash ≤ d.head.hash :=
    pairwise_map.2 frag.spec.sorted
  rw [computeActiveAncestor_iff occurs (List.forall_mem_map.2 fun r hr flag =>
    (oldestEq r hr).2 (frag.flagged free hr flag))]
  refine and_congr_right fun _ => or_congr ?_ ?_
  · rw [List.forall_mem_map]
    constructor
    · intro same b o' childless oldest
      obtain ⟨r, hr, rfl⟩ := frag.childless.1 childless
      rw [(frag.oldest_head free).1 oldest, frag.oldest_unique free hr]
      exact (oldestEq r hr).1 (same r hr)
    · intro same r hr
      rw [oldestEq r hr, ← frag.oldest_unique free hr]
      exact same _ o (frag.childless.2 ⟨r, hr, rfl⟩) ((frag.oldest_head free).2 rfl)
  · have found : ∀ c, (rs.map (·.2)).reverse.find? (fun c => c.oldest.hash = o.hash) = some c →
        ∃ r ∈ rs, r.2 = c ∧ r.2.oldest = o := by
      intro c last
      obtain ⟨r, hr, rfl⟩ := List.mem_map.1 (mem_reverse.1 (mem_of_find?_eq_some last))
      exact ⟨r, hr, rfl, (oldestEq r hr).1 (by simpa using find?_some last)⟩
    constructor
    · rintro ⟨c, last, flag⟩ b o' childless oldest oldest' greatest
      obtain ⟨r, hr, rfl, start⟩ := found c last
      obtain ⟨r', hr', rfl⟩ := frag.childless.1 childless
      obtain rfl := (frag.oldest_head free).1 oldest
      have le := head_le_last sorted last r'.2 (List.mem_map_of_mem hr')
        ((oldestEq r' hr').2 ((frag.oldest_unique free hr').1 oldest'))
      have ge := greatest r.2.head (frag.childless.2 ⟨r, hr, rfl⟩)
        ((frag.oldest_unique free hr).2 start)
      rw [stored_injective (frag.spec.climbed r' hr').head (frag.spec.climbed r hr).head
        (le_antisymm le ge)]
      exact ((frag.spec.climbed r hr).flag_iff free frag.verified).1 flag
    · intro comesBy
      have some : ((rs.map (·.2)).reverse.find? fun c => c.oldest.hash = o.hash).isSome :=
        find?_isSome.2 (by simpa using occurs)
      obtain ⟨c, last⟩ := Option.isSome_iff_exists.1 some
      obtain ⟨r, hr, rfl, start⟩ := found c last
      refine ⟨r.2, last, ((frag.spec.climbed r hr).flag_iff free frag.verified).2 ?_⟩
      refine comesBy r.2.head o (frag.childless.2 ⟨r, hr, rfl⟩) ((frag.oldest_head free).2 rfl)
        ((frag.oldest_unique free hr).2 start) fun d childless oldest => ?_
      obtain ⟨r', hr', rfl⟩ := frag.childless.1 childless
      exact head_le_last sorted last r'.2 (List.mem_map_of_mem hr')
        ((oldestEq r' hr').2 ((frag.oldest_unique free hr').1 oldest))

end

end Fragment

variable {s₁ s₂ : σ} {a : Authority} {opts : CompactionOptions} {now : Time}
  {order : CompactionOrder} {ancestor : AUMHash} {toDelete deleted : List AUMHash}

theorem Fragment.open_iff (free : CollisionFree U X) {anchor head : AUM}
    (frag : Fragment U X storage anchor head o rs)
    (recorded : Chonk.lastActiveAncestor storage = .ok (some anchor.hash))
    (candidates : computeChainCandidates storage (some anchor.hash) maxScanIterations =
      if ∀ r ∈ rs, r.1.length < maxScanIterations then .ok (rs.map (·.2))
      else .error (iterationLimit maxScanIterations))
    {n : Nat} {s t : State} (lineage : Lineage U X n o s)
    (leads : (forks U X).Leads (stored storage) o s l head t) :
    (∃ b, openChonk storage = .ok b ∧ b.head = head ∧ b.state = t) ↔
      Recoverable storage anchor.hash head := by
  constructor
  · rintro ⟨b, opened, -, -⟩
    rw [openChonk, recorded] at opened
    dsimp only at opened
    split at opened
    · cases opened
    rename_i c computed
    obtain ⟨chains, ok, active, mem, _, _, _, stateAt, -⟩ :=
      computeActiveChain_ok free frag.verified computed
    rw [candidates] at ok
    split at ok
    next short =>
      obtain rfl := Except.ok.inj ok
      obtain ⟨same, distinguished⟩ := (frag.computeActiveAncestor_eq_ok free _).1 active
      rw [same] at stateAt
      refine ⟨(frag.spec.short_iff free frag.verified).1 short, fun o' oldest => ?_, distinguished⟩
      rw [(frag.oldest_head free).1 oldest]
      exact computeStateAt_root frag.verified frag.root stateAt
    · cases ok
  · rintro ⟨short, checkpoint, distinguished⟩
    rw [if_pos ((frag.spec.short_iff free frag.verified).2 short)] at candidates
    have active := (frag.computeActiveAncestor_eq_ok free _).2 ⟨rfl, distinguished⟩
    have nonempty : rs.map (·.2) ≠ [] := by
      intro empty
      rw [empty] at active
      cases active
    have enough := short.trail frag.root.1 leads.1.trail
    have computed := computeActiveChain_total free frag.verified candidates nonempty active
      frag.root.1 (checkpoint o ((frag.oldest_head free).2 rfl)) lineage leads (by omega)
    refine ⟨⟨head, o, t⟩, ?_, rfl, rfl⟩
    rw [openChonk, recorded]
    simp only [computed]
    rfl

/-- A compaction has recorded its ancestor and has purged some of the AUMs it decided to delete when
the process stops. -/
theorem open_after_crash (free : CollisionFree U X) (run : Reachable U X storage a)
    (planned : compactionPlan storage a.head.hash opts now order = .ok (ancestor, toDelete))
    (recorded : Chonk.setLastActiveAncestor storage ancestor = (.ok (), s₁))
    (subset : ∀ h ∈ deleted, h ∈ toDelete)
    (purged : CompactableChonk.purgeAUMs s₁ deleted = (.ok (), s₂)) :
    (∃ b, openChonk s₂ = .ok b ∧ b.head = a.head ∧ b.state = a.state) ↔
      Recoverable s₂ ancestor a.head := by
  have sync := run.inSync free
  obtain ⟨n, s, path, lineage, leads⟩ := sync.active
  obtain ⟨anchor, rfl, plan⟩ := compactionPlan_spec free sync.tree sync.head_mem planned
  obtain ⟨s₁', set, consistent₁, contents₁, recorded₁⟩ :=
    LawfulChonk.setLastActiveAncestor sync.tree.verified.consistent anchor.hash
  obtain rfl : s₁' = s₁ := (mk.inj (set.symm.trans recorded)).2
  obtain ⟨consistent₂, contents₂, recorded₂⟩ := LawfulCompactableChonk.purgeAUMs consistent₁ purged
  rw [contents₁] at contents₂
  have sub : stored s₂ ⊆ stored storage := by
    rw [contents₂]
    exact fun x hx => hx.1
  have kept : ∀ x ∈ stored storage, x.hash ∉ toDelete → x ∈ stored s₂ := by
    intro x hx held
    rw [contents₂]
    exact ⟨hx, fun gone => held (subset _ gone)⟩
  have verified : Verified U X s₂ :=
    ⟨consistent₂, fun x hx => sync.tree.verified.known x (sub hx)⟩
  obtain ⟨held, k, after⟩ := plan.trail kept
  obtain ⟨o, m, root, before⟩ := exists_root (forks_graded free) held
  obtain ⟨_, u, lineage', leads'⟩ :=
    sync.tree.leads_within free lineage leads sub root.1 (before.append after)
  obtain ⟨rs, spec, candidates⟩ := computeChainCandidates_spec free verified (some anchor.hash)
    (show 0 < maxScanIterations by decide)
  have frag : Fragment U X s₂ anchor a.head o rs :=
    ⟨verified, spec, root, ⟨m, before⟩, ⟨k, after⟩, leads'.2⟩
  exact frag.open_iff free (recorded₂.trans recorded₁) candidates lineage' leads'

end

section
open Sample

attribute [local instance] Sample.crypto

def onDisk : FS := (started.inform (bootstrap disk genesis).2 [first, middle, tip]).2.2

theorem onDisk_reachable :
    Reachable {x | x ∈ [genesis, first, middle, tip]} genesis onDisk atTip := by
  have start : Reachable {x | x ∈ [genesis, first, middle, tip]} genesis
      (bootstrap disk genesis).2 started :=
    .bootstrap disk_consistent disk_empty (by simp) (ext rfl rfl)
  have batch : ∀ u ∈ [first, middle, tip], u ∈ {x | x ∈ [genesis, first, middle, tip]} := by simp
  exact start.inform batch (ext rfl (ext rfl rfl))

theorem onDisk_plan : compactionPlan onDisk tip.hash ⟨1, 1⟩ 1000000000000 keyOrder =
    .ok (middle.hash, [first.hash, genesis.hash]) := rfl

def stopped (deleted : List AUMHash) : FS :=
  (FS.purgeAUMs (FS.setLastActiveAncestor onDisk middle.hash).2 deleted).2

theorem open_after_crash_first : Recoverable (stopped [first.hash]) middle.hash tip := by
  have subset : ∀ h ∈ [first.hash], h ∈ [first.hash, genesis.hash] := by simp
  refine (open_after_crash atTip_free onDisk_reachable onDisk_plan (ext rfl rfl) subset
    (ext rfl rfl)).1 ?_
  exact ⟨{ atTip with oldestAncestor := middle }, rfl, rfl, rfl⟩

/-- With the genesis purged and the `NoOp` after it still there, the oldest AUM is no checkpoint. -/
theorem crash_genesis_first :
    Reachable {x | x ∈ [genesis, first, middle, tip]} genesis onDisk atTip ∧
      compactionPlan onDisk atTip.head.hash ⟨1, 1⟩ 1000000000000 keyOrder =
        .ok (middle.hash, [first.hash, genesis.hash]) ∧
      (∃ s₁, Chonk.setLastActiveAncestor onDisk middle.hash = (.ok (), s₁) ∧
        CompactableChonk.purgeAUMs s₁ [genesis.hash] = (.ok (), stopped [genesis.hash])) ∧
      openChonk (stopped [genesis.hash]) = .error (.wrap "active chain"
        (.wrap "bootstrapping state"
          (.wrap s!"reading parent ({genesis.hash.string})" .notExist))) :=
  ⟨onDisk_reachable, onDisk_plan, ⟨_, ext rfl rfl, ext rfl rfl⟩, rfl⟩

end

end ScaleTail.TKA
