import ScaleTail.Proof.TKA.Reachable
import ScaleTail.Proof.TKA.Compaction

/-! # Restarts and compactions -/

namespace ScaleTail.TKA

open Lib ForkSystem LawfulChonk Authority
open Prod (ext)

section
variable [Crypto] {σ : Type}

def ancestorAt [Chonk σ] (storage : σ) : Nat → AUM → Option AUM
  | 0, a => some a
  | i + 1, a =>
    match a.parent with
    | none => none
    | some h =>
      match Chonk.aum storage h with
      | .error _ => none
      | .ok p => ancestorAt storage i p

theorem trail_ancestorAt [Chonk σ] {U S : Set AUM} {X b c : AUM} {l : List AUM} {storage : σ}
    (sub : S ⊆ stored storage) (hc : c ∈ S) (trail : (forks U X).Trail S c l b) :
    ancestorAt storage l.length b = some c := by
  induction h : l.length generalizing b l with
  | zero =>
    obtain rfl := List.length_eq_zero_iff.1 h
    cases trail
    rfl
  | succ _ ih =>
    rcases trail.last_step with ⟨rfl, -⟩ | ⟨k, p, rfl, before, child⟩
    · cases h
    have read : Chonk.aum storage p.hash = .ok p :=
      sub (before.all_mem hc p before.final_mem)
    simp only [List.length_append, List.length_singleton, Nat.add_right_cancel_iff] at h
    simp only [ancestorAt, child.2.2, read]
    exact ih before h

variable [CompactableChonk σ]

/-- `Bootstrap` from `X` on an empty storage, and successful `Inform` and `Compact` calls. -/
inductive Reachable [LawfulCompactableChonk σ] (U : Set AUM) (X : AUM) : σ → Authority → Prop
  | bootstrap {storage storage' : σ} {a : Authority} (consistent : Consistent storage)
      (empty : stored storage = ∅) (mem : X ∈ U)
      (ok : bootstrap storage X = (.ok a, storage')) : Reachable U X storage' a
  | inform {storage storage' : σ} {a a' : Authority} {us : List AUM}
      (before : Reachable U X storage a) (mem : ∀ u ∈ us, u ∈ U)
      (ok : a.inform storage us = (.ok (), a', storage')) : Reachable U X storage' a'
  | compact {storage storage' : σ} {a a' : Authority} {opts : CompactionOptions} {now : Time}
      {order : CompactionOrder} (before : Reachable U X storage a)
      (ok : a.compact storage opts now order = (.ok (), a', storage')) : Reachable U X storage' a'

variable [LawfulCompactableChonk σ] {U : Set AUM} {X r : AUM} {storage storage' : σ}
  {a a' : Authority} {opts : CompactionOptions} {now : Time} {order : CompactionOrder}

theorem Fed.reachable (fed : Fed U X storage a) : Reachable U X storage a := by
  induction fed with
  | bootstrap consistent empty mem ok => exact .bootstrap consistent empty mem ok
  | inform _ mem ok ih => exact ih.inform mem ok

omit [LawfulCompactableChonk σ] in
theorem Authority.compact_ok (ok : a.compact storage opts now order = (.ok (), a', storage')) :
    ∃ ancestor oldest, TKA.compact storage a.head.hash opts now order = (.ok ancestor, storage') ∧
      Chonk.aum storage' ancestor = .ok oldest ∧ a' = { a with oldestAncestor := oldest } := by
  unfold compact at ok
  split at ok
  · cases (Prod.mk.inj ok).1
  rename_i ancestor s₁ compacted
  split at ok
  · cases (Prod.mk.inj ok).1
  rename_i oldest read
  obtain ⟨rfl, rfl⟩ := ok
  exact ⟨ancestor, oldest, compacted, read, rfl⟩

theorem InSync.compact (free : CollisionFree U X) (sync : InSync U X storage a)
    (ok : a.compact storage opts now order = (.ok (), a', storage')) :
    InSync U X storage' a' ∧ a'.head = a.head ∧ a'.state = a.state := by
  obtain ⟨ancestor, oldest, compacted, read, rfl⟩ := Authority.compact_ok ok
  obtain ⟨anchor, toDelete, rfl, -, plan, consistent, contents, recorded⟩ :=
    compact_ok free sync.tree sync.head_mem compacted
  have tree := plan.tree free sync.tree consistent contents
  obtain rfl := Except.ok.inj (read.symm.trans tree.root.1)
  obtain ⟨n, s, path, lineage, leads⟩ := sync.active
  obtain ⟨m, u, k, lineage', leads'⟩ := plan.leads free sync.tree lineage leads
    (fun x hx => (contents ▸ hx : x ∈ {a ∈ stored storage | a.hash ∉ toDelete}).1)
    (fun x hx kept => by rw [contents]; exact ⟨hx, kept⟩)
  exact ⟨⟨tree, recorded, m, u, k, lineage', leads'⟩, rfl, rfl⟩

theorem Reachable.inSync (free : CollisionFree U X) (run : Reachable U X storage a) :
    InSync U X storage a := by
  induction run with
  | bootstrap consistent empty mem ok => exact (bootstrap_inSync free consistent empty mem ok).1
  | inform _ mem ok ih => exact (ih.inform free mem (inform_ok ok)).1
  | compact _ ok ih => exact (ih.compact free ok).1

theorem InSync.computeActiveChain (free : CollisionFree U X) (sync : InSync U X storage a)
    (bounded : ChainsBelow (stored storage) maxScanIterations)
    (lastKnownOldest : Option AUMHash) : ∃ c,
      TKA.computeActiveChain storage lastKnownOldest maxScanIterations = .ok c ∧
        ofChain c = a := by
  obtain ⟨c, computed⟩ := sync.tree.activeChain_total free lastKnownOldest
    (sync.tree.trails_below bounded)
  obtain ⟨oldest, n, s, path, lineage, leads⟩ := sync.tree.activeChain free computed
  obtain ⟨m, t, path', lineage', leads'⟩ := sync.active
  obtain ⟨-, rfl⟩ := lineage.unique free lineage'
  obtain ⟨-, head, state⟩ := leads.unique (forks_graded free) leads'
  exact ⟨c, computed, by rw [ofChain, head, oldest, state]⟩

/-- `Open` computes the authority that is in memory, and so does the slow path of
`InformIdempotent`. -/
theorem open_reachable (free : CollisionFree U X) (run : Reachable U X storage a)
    (bounded : ChainsBelow (stored storage) maxScanIterations) :
    openChonk storage = .ok a ∧ ∀ lastKnownOldest, ∃ c,
      computeActiveChain storage lastKnownOldest maxScanIterations = .ok c ∧
        Authority.ofChain c = a := by
  have sync := run.inSync free
  have slow := sync.computeActiveChain free bounded
  refine ⟨?_, slow⟩
  obtain ⟨c, computed, same⟩ := slow (some a.oldestAncestor.hash)
  rw [openChonk, sync.recorded]
  simp only [computed, same]

theorem Verified.ancestorAt_trail (verified : Verified U X storage) {b c : AUM} (hb : b ∈ stored storage)
    {i : Nat} (back : ancestorAt storage i b = some c) :
    c ∈ stored storage ∧ ∃ l, (forks U X).Trail (stored storage) c l b ∧ l.length = i := by
  induction i generalizing b with
  | zero =>
    obtain rfl := Option.some.inj back
    exact ⟨hb, [], .refl b, rfl⟩
  | succ _ ih =>
    rw [ancestorAt] at back
    split at back
    · cases back
    rename_i h link
    split at back
    · cases back
    rename_i p read
    obtain ⟨hp, rfl⟩ := (aum_eq_ok verified.consistent).1 read
    obtain ⟨hc, l, trail, length⟩ := ih hp back
    refine ⟨hc, l ++ [b], trail.concat hb ?_, by simp [length]⟩
    exact ⟨verified.known p hp, verified.known b hb, link⟩

theorem Verified.chains_finite (free : CollisionFree U X) (verified : Verified U X storage) :
    ∃ n, ChainsBelow (stored storage) n := by
  obtain ⟨all, -, listed⟩ := LawfulCompactableChonk.allAUMs verified.consistent
  exact ⟨_, verified.chainsBelow_listed free fun x hx => (listed x.hash).2 ⟨x, hx, rfl⟩⟩

structure Compacted (storage storage' : σ) (head : AUM) (opts : CompactionOptions) (now : Time)
    (anchor : AUM) : Prop where
  near : ∀ i : Nat, i ≤ opts.minChain → ∀ b, ancestorAt storage i head = some b → b ∈ stored storage'
  young : ∀ b ∈ stored storage, ∀ t, CompactableChonk.commitTime storage b.hash = .ok t →
    now - opts.minAge < t → b ∈ stored storage'
  subset : stored storage' ⊆ stored storage
  connected : ∀ b ∈ stored storage', ∃ i, ancestorAt storage' i b = some anchor
  parents : ∀ b ∈ stored storage', b ≠ anchor → ∃ p ∈ stored storage', b.parent = some p.hash

/-- Compaction keeps the AUMs near the head and the young ones, leaves no gap above the new
ancestor, and does not change the active chain. -/
theorem compact_safe (free : CollisionFree U X) (run : Reachable U X storage a) {ancestor : AUMHash}
    (ok : compact storage a.head.hash opts now order = (.ok ancestor, storage')) :
    ∃ anchor ∈ stored storage', anchor.hash = ancestor ∧
      Compacted storage storage' a.head opts now anchor ∧
      ∀ maxIter lastKnownOldest lastKnownOldest' c,
        computeActiveChain storage lastKnownOldest maxIter = .ok c → ∃ c',
          computeActiveChain storage' lastKnownOldest' maxIter = .ok c' ∧ c'.oldest = anchor ∧
            c'.head = c.head ∧ c'.state = c.state ∧ c'.head = a.head ∧ c'.state = a.state := by
  have laws := forks_graded free
  have sync := run.inSync free
  obtain ⟨anchor, toDelete, rfl, -, plan, consistent, contents, -⟩ :=
    compact_ok free sync.tree sync.head_mem ok
  have tree := plan.tree free sync.tree consistent contents
  have kept : ∀ b ∈ stored storage, b.hash ∉ toDelete → b ∈ stored storage' := by
    intro b hb held
    rw [contents]
    exact ⟨hb, held⟩
  have subset : stored storage' ⊆ stored storage := by
    rw [contents]
    exact fun b hb => hb.1
  refine ⟨anchor, tree.root.1, rfl, ⟨fun i near b back => ?_, fun b hb t time late => ?_, subset,
    fun b hb => ?_, fun b hb other => ?_⟩, fun maxIter known known' c computed => ?_⟩
  · obtain ⟨hb, k, trail, length⟩ := sync.tree.verified.ancestorAt_trail sync.head_mem back
    obtain ⟨l, active, held, deep⟩ := plan.active
    have below : depth U X anchor ≤ depth U X b := by
      rcases deep with rfl | deep
      · obtain ⟨m, root⟩ := sync.tree.connected b hb
        have := root.rank_eq laws
        omega
      · have := trail.rank_eq laws
        have := active.rank_eq laws
        omega
    exact kept b hb (held b (active.mem_of_desc laws (trail.desc _ trail.final_mem) below))
  · obtain ⟨t', time', young⟩ := plan.young b hb
    obtain rfl := Except.ok.inj (time.symm.trans time')
    exact kept b hb (young late)
  · obtain ⟨l, trail⟩ := tree.connected b hb
    exact ⟨l.length, trail_ancestorAt subset_rfl tree.root.1 trail⟩
  · obtain ⟨p, hp, child⟩ := (tree.root_or_parent hb).resolve_left other
    exact ⟨p, hp, child.2.2⟩
  · obtain ⟨m, finite⟩ := sync.tree.verified.chains_finite free
    have short := sync.tree.trails_short free finite computed
    obtain ⟨k, root⟩ := sync.tree.connected anchor plan.mem
    have short' : ∀ l b, (forks U X).Trail (stored storage') anchor l b → l.length < maxIter := by
      intro l b trail
      have := short _ _ (root.append (trail.restrict fun x hx => subset (trail.mem x hx)))
      rw [List.length_append] at this
      omega
    obtain ⟨c', computed'⟩ := tree.activeChain_total free known' short'
    obtain ⟨n, s, path, lineage, leads⟩ := sync.active
    obtain ⟨-, n₁, s₁, path₁, lineage₁, leads₁⟩ := sync.tree.activeChain free computed
    obtain ⟨oldest, n₂, s₂, path₂, lineage₂, leads₂⟩ := tree.activeChain free computed'
    obtain ⟨n₃, s₃, path₃, lineage₃, leads₃⟩ := plan.leads free sync.tree lineage leads subset kept
    obtain ⟨-, rfl⟩ := lineage.unique free lineage₁
    obtain ⟨-, rfl⟩ := lineage₂.unique free lineage₃
    obtain ⟨-, head, state⟩ := leads₁.unique laws leads
    obtain ⟨-, head', state'⟩ := leads₂.unique laws leads₃
    exact ⟨c', computed', oldest, head'.trans head.symm, state'.trans state.symm, head', state'⟩

end

section
open Sample

attribute [local instance] Sample.crypto

theorem started_reachable {U : Set AUM} (mem : genesis ∈ U) :
    Reachable U genesis (bootstrap memory genesis).2 started :=
  (started_fed mem).reachable

def uncompacted : Mem := (started.inform (bootstrap memory genesis).2 [first, middle, tip]).2.2

def atTip : Authority := ⟨tip, genesis, state.cloneForUpdate tip⟩

theorem atTip_free : CollisionFree {x | x ∈ [genesis, first, middle, tip]} genesis :=
  genesis_free (by decide) (by decide)

theorem atTip_reachable :
    Reachable {x | x ∈ [genesis, first, middle, tip]} genesis uncompacted atTip := by
  have batch : ∀ u ∈ [first, middle, tip], u ∈ {x | x ∈ [genesis, first, middle, tip]} := by simp
  exact (started_reachable (by simp)).inform batch (ext rfl (ext rfl rfl))

def compacted : Mem := (compact uncompacted tip.hash ⟨1, 1⟩ 1000000000000 keyOrder).2

theorem open_reachable_compacted : openChonk compacted = .ok { atTip with oldestAncestor := middle } := by
  have call : atTip.compact uncompacted ⟨1, 1⟩ 1000000000000 keyOrder =
      (.ok (), { atTip with oldestAncestor := middle }, compacted) := ext rfl (ext rfl rfl)
  have run := atTip_reachable.compact call
  have verified := (run.inSync atTip_free).tree.verified
  have bounded : ChainsBelow (stored compacted) maxScanIterations :=
    verified.chainsBelow atTip_free (fun x hx => (verified.known x hx).mem) (by decide)
  exact (open_reachable atTip_free run bounded).1

/-- `Open` reads the update without the map, and the key has its metadata again. -/
theorem cleared_reopened : Reachable namedAUMs namedGenesis clearedDisk atCleared ∧
    Set.InjOn AUM.hash namedAUMs ∧ ∃ a, openChonk clearedDisk = .ok a ∧ a.state ≠ atCleared.state := by
  refine ⟨cleared_fed.reachable, cleared_injective, _, rfl, fun same => ?_⟩
  have entries := congrArg (fun s => s.keys.map fun k => k.metadata.map (·.entries.length)) same
  exact absurd entries (by decide)

theorem compact_safe_middle :
    compact uncompacted tip.hash ⟨1, 1⟩ 1000000000000 keyOrder = (.ok middle.hash, compacted) ∧
      ∃ anchor, anchor.hash = middle.hash ∧
        Compacted uncompacted compacted tip ⟨1, 1⟩ 1000000000000 anchor := by
  have call : compact uncompacted tip.hash ⟨1, 1⟩ 1000000000000 keyOrder =
      (.ok middle.hash, compacted) := ext rfl rfl
  obtain ⟨anchor, -, hash, kept, -⟩ := compact_safe atTip_free atTip_reachable call
  exact ⟨call, anchor, hash, kept⟩

end

end ScaleTail.TKA
