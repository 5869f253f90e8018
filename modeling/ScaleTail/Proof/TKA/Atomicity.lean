import ScaleTail.Proof.TKA.Termination
import ScaleTail.Proof.TKA.Crash

/-! # Failing compactions on disk -/

namespace ScaleTail.TKA

open Lib ForkSystem LawfulChonk List

/-- The call succeeds, or it fails and leaves the stored AUMs and the recorded ancestor as they
were. -/
def Atomic [Crypto] {σ α : Type} [Chonk σ] (storage : σ) (outcome : Except Err α × σ) : Prop :=
  (∃ x, outcome.1 = .ok x) ∨
    (∃ err, outcome.1 = .error err ∧ ¬ err.OutOfFuel) ∧ stored outcome.2 = stored storage ∧
      Chonk.lastActiveAncestor outcome.2 = Chonk.lastActiveAncestor storage

def RangeOrder.starting (h : AUMHash) : RangeOrder where
  visit l := if h ∈ l then h :: l.erase h else l
  perm l := by
    split
    · rename_i mem
      exact (List.perm_cons_erase mem).symm
    · rfl

theorem RangeOrder.starting_filter {h : AUMHash} {l : List AUMHash} {keep : AUMHash → Bool}
    (mem : h ∈ l) (kept : keep h = true) :
    ((starting h).visit l).filter keep = h :: (l.erase h).filter keep := by
  change (if h ∈ l then h :: l.erase h else l).filter keep = _
  rw [if_pos mem, filter_cons_of_pos kept]

variable {opts : CompactionOptions} {toDelete : List AUMHash} {order : CompactionOrder}

theorem compactionPlan_starting [Crypto] {σ : Type} [CompactableChonk σ] {storage : σ}
    {head ancestor h : AUMHash} {now : Time}
    (planned : compactionPlan storage head opts now order = .ok (ancestor, toDelete))
    (mem : h ∈ toDelete) : ∃ rest,
      compactionPlan storage head opts now { order with deletion := .starting h } =
        .ok (ancestor, h :: rest) := by
  unfold compactionPlan at planned ⊢
  rw [ite_error_eq_ok, ite_error_eq_ok] at planned
  obtain ⟨minChain, minAge, planned⟩ := planned
  rw [if_neg minChain, if_neg minAge]
  split at planned
  · cases planned
  dsimp only at planned
  split at planned
  · cases planned
  rename_i v₁ pass₁
  split at planned
  · cases planned
  rename_i ancestor₁ v₂ pass₂
  split at planned
  · cases planned
  rename_i v₃ pass₃
  split at planned
  · cases planned
  rename_i ancestor₂ v₄ pass₄
  obtain ⟨rfl, rfl⟩ := Prod.mk.inj (Except.ok.inj planned)
  obtain ⟨visited, kept⟩ := mem_filter.1 mem
  have here := (order.deletion.perm v₄.keys).mem_iff.1 visited
  simp only [pass₁, pass₂, pass₃, pass₄]
  exact ⟨_, by rw [RangeOrder.starting_filter here kept]⟩

namespace FS

section
variable [Crypto] {c : FS} {a : AUM} {h : AUMHash}

theorem mem_files (consistent : c.Consistent) (mem : a ∈ stored c) : a.hash ∈ c.files := by
  obtain ⟨file, found, -⟩ := (mem_stored consistent).1 mem
  exact AList.lookup_isSome.1 (by rw [found]; rfl)

theorem commit_files (k : AUMHash) (updater : FsHashInfo → FsHashInfo) (mem : h ∈ c.files) :
    h ∈ (c.commit k updater).2.files := by
  unfold FS.commit
  split
  · exact mem
  dsimp only
  split
  · exact mem
  · exact (AList.mem_insert _).2 (.inr mem)

theorem commitLoop_files {us : List (AUM × Nat)} (mem : h ∈ c.files) :
    h ∈ (c.commitLoop us).2.files := by
  induction us generalizing c with
  | nil => exact mem
  | cons u _ ih =>
    have first := commit_files u.1.hash
      (fun info => { info with purgedUnix := 0, aum := some u.1 }) mem
    rw [commitLoop]
    split
    next c' step =>
      rw [step] at first
      exact ih first
    next err c' step =>
      rw [step] at first
      exact first

theorem inform_files {a a' : Authority} {c' : FS} {us : List AUM} (mem : h ∈ c.files)
    (ok : a.inform c us = (.ok (), a', c')) : h ∈ c'.files := by
  have run := inform_ok ok
  unfold Authority.informIdempotent at run
  split at run
  · cases (Prod.mk.inj run).1
  split at run
  · cases (Prod.mk.inj run).1
  rename_i acc _
  have committed : h ∈ (Chonk.commitVerifiedAUMs c acc.toCommit).2.files := commitLoop_files mem
  split at run
  · cases (Prod.mk.inj run).1
  rename_i c₁ commit
  rw [commit] at committed
  rwa [← (Prod.mk.inj run).2]

theorem compact_outcome (consistent : c.Consistent) {head ancestor : AUMHash} {now : Time}
    (planned : compactionPlan c head opts now order = .ok (ancestor, toDelete)) :
    ∃ c', (∀ h, h ∈ c'.files ↔ h ∈ c.files) ∧
      Chonk.lastActiveAncestor c' = .ok (some ancestor) ∧
      (compact c head opts now order = (.ok ancestor, c') ∧ (∀ h ∈ toDelete, h ∈ c.files) ∨
        ∃ context done h rest,
          compact c head opts now order = (.error (.wrap context .notExist), c') ∧
          toDelete = done ++ h :: rest ∧ h ∉ c.files ∧ stored c' = {a ∈ stored c | a.hash ∉ done}) := by
  let c₁ : FS := { c with lastActive := some ancestor.bytes }
  have consistent₁ : c₁.Consistent := ⟨consistent.named, consistent.encoded⟩
  have recorded₁ : FS.lastActiveAncestor c₁ = .ok (some ancestor) := by
    simp [c₁, FS.lastActiveAncestor, ancestor.size, AUMHash.copyFrom_bytes]
  obtain ⟨c', -, files, recorded, outcome⟩ := purgeLoop_spec c₁.now toDelete 0 consistent₁
  refine ⟨c', files, (lastActiveAncestor_congr recorded).trans recorded₁, ?_⟩
  have set : Chonk.setLastActiveAncestor c ancestor = (.ok (), c₁) := rfl
  rcases outcome with ⟨ok, present, -⟩ | ⟨context, done, h, rest, failed, split, absent, left⟩
  · have purged : CompactableChonk.purgeAUMs c₁ toDelete = (.ok (), c') := ok
    refine .inl ⟨?_, present⟩
    simp only [compact, planned, set, purged]
  · have purged : CompactableChonk.purgeAUMs c₁ toDelete = (.error (.wrap context .notExist), c') :=
      failed
    refine .inr ⟨context, done, h, rest, ?_, split, absent, left⟩
    simp only [compact, planned, set, purged]

end

end FS

section
variable [Crypto] {U : Set AUM} {X r : AUM} {c c' : FS} {a : Authority} {opts : CompactionOptions}
  {now : Time} {order : CompactionOrder} {ancestor h : AUMHash} {toDelete : List AUMHash}

structure Filed (X : AUM) (c : FS) (a : Authority) : Prop where
  parent : a.oldestAncestor = X ∨ ∃ h ∈ c.files, a.oldestAncestor.parent = some h
  rooted : (∃ h, X.parent = some h ∧ h ∉ c.files) → a.oldestAncestor = X

section
variable (free : CollisionFree U X) (run : Reachable U X c a)
include free run

theorem Reachable.filed : Filed X c a := by
  induction run with
  | bootstrap consistent empty mem ok =>
    have oldest := (bootstrap_inSync free consistent empty mem ok).2.1
    exact ⟨.inl oldest, fun _ => oldest⟩
  | @inform _ _ _ _ _ before mem ok ih =>
    have oldest := ((before.inSync free).inform free mem (inform_ok ok)).2.1
    constructor
    · rw [oldest]
      exact ih.parent.imp_right fun ⟨h, file, link⟩ => ⟨h, FS.inform_files file ok, link⟩
    · rintro ⟨h, link, missing⟩
      rw [oldest]
      exact ih.rooted ⟨h, link, fun file => missing (FS.inform_files file ok)⟩
  | @compact c _ _ _ _ _ _ before ok ih =>
    have sync := before.inSync free
    have consistent : c.Consistent := sync.tree.verified.consistent
    obtain ⟨ancestor, oldest, compacted, read, rfl⟩ := Authority.compact_ok ok
    obtain ⟨anchor, toDelete, rfl, planned, plan, consistent', contents, -⟩ :=
      compact_ok free sync.tree sync.head_mem compacted
    obtain rfl := Except.ok.inj
      (read.symm.trans (plan.tree free sync.tree consistent' contents).root.1)
    obtain ⟨c₁, files, -, ⟨succeeded, present⟩ | ⟨context, done, h, rest, failed, -⟩⟩ :=
      FS.compact_outcome consistent planned
    · obtain rfl := (Prod.mk.inj (succeeded.symm.trans compacted)).2
      constructor
      · rcases sync.tree.root_or_parent plan.mem with rfl | ⟨p, hp, child⟩
        · exact ih.parent.imp_right fun ⟨h, file, link⟩ => ⟨h, (files h).2 file, link⟩
        · exact .inr ⟨p.hash, (files _).2 (FS.mem_files consistent hp), child.2.2⟩
      · rintro ⟨h, link, missing⟩
        have root := ih.rooted ⟨h, link, fun file => missing ((files h).2 file)⟩
        rw [← root]
        refine plan.anchor_eq sync.tree fun deleted => missing ((files h).2 (present h ?_))
        exact plan.outside ⟨_, sync.tree.root.1, deleted⟩ h (root ▸ link)
    · cases (Prod.mk.inj (failed.symm.trans compacted)).1

theorem compact_atomic_of_files
    (files : ∀ h, X.parent = some h → h ∈ c.files) (opts : CompactionOptions) (now : Time)
    (order : CompactionOrder) : Atomic c (compact c a.head.hash opts now order) := by
  have sync := run.inSync free
  have consistent : c.Consistent := sync.tree.verified.consistent
  cases planned : compactionPlan c a.head.hash opts now order with
  | error err =>
    have real := compactionPlan_halts free sync.tree sync.head_mem opts now order err planned
    rw [compact, planned]
    exact .inr ⟨⟨err, rfl, real⟩, rfl, rfl⟩
  | ok result =>
    obtain ⟨ancestor, toDelete⟩ := result
    obtain ⟨anchor, rfl, plan⟩ := compactionPlan_spec free sync.tree sync.head_mem planned
    obtain ⟨c₁, -, -, ⟨succeeded, -⟩ | ⟨context, done, h, rest, -, split, missing, -⟩⟩ :=
      FS.compact_outcome consistent planned
    · rw [succeeded]
      exact .inl ⟨_, rfl⟩
    -- A hash on the list belongs to a stored AUM or is the parent of the oldest one.
    refine absurd ?_ missing
    rcases plan.listed h (by simp [split]) with ⟨b, hb, rfl⟩ | link
    · exact FS.mem_files consistent hb
    rcases (run.filed free).parent with root | ⟨h', file, link'⟩
    · exact files h (root ▸ link)
    · obtain rfl := Option.some.inj (link.symm.trans link')
      exact file

theorem compact_not_atomic (link : X.parent = some h) (missing : h ∉ c.files)
    (planned : compactionPlan c a.head.hash opts now order = .ok (ancestor, toDelete)) {b : AUM}
    (mem : b ∈ stored c) (deleted : b.hash ∈ toDelete) :
    ¬ Atomic c (compact c a.head.hash opts now { order with deletion := .starting b.hash }) := by
  have sync := run.inSync free
  have consistent : c.Consistent := sync.tree.verified.consistent
  have root := (run.filed free).rooted ⟨h, link, missing⟩
  obtain ⟨rest, planned'⟩ := compactionPlan_starting planned deleted
  obtain ⟨anchor, rfl, plan⟩ := compactionPlan_spec free sync.tree sync.head_mem planned'
  have listed := plan.outside ⟨b, mem, mem_cons_self⟩ h (root ▸ link)
  obtain ⟨c₁, -, -, ⟨-, present⟩ | ⟨context, done, k, later, failed, split, absent, left⟩⟩ :=
    FS.compact_outcome consistent planned'
  · exact absurd (present h listed) missing
  rw [failed]
  rintro (⟨x, impossible⟩ | ⟨-, same, -⟩)
  · cases impossible
  · have purged : b.hash ∈ done := by
      cases done with
      | nil =>
        obtain ⟨rfl, -⟩ := cons.inj split
        exact absurd (FS.mem_files consistent mem) absent
      | cons =>
        obtain ⟨rfl, -⟩ := cons.inj split
        exact mem_cons_self
    have still : b ∈ stored c₁ := same.symm ▸ mem
    rw [left] at still
    exact still.2 purged

end

/-- Compactions are atomic if the AUM of `Bootstrap` has no parent or a file for its parent is there.
Otherwise every compaction with something to delete can fail half way. -/
theorem compact_atomic (free : CollisionFree U X) (run : Reachable U X c a)
    (opts : CompactionOptions) (now : Time) :
    ((∀ h, X.parent = some h → h ∈ c.files) →
      ∀ order, Atomic c (compact c a.head.hash opts now order)) ∧
    ∀ h, X.parent = some h → h ∉ c.files → ∀ order ancestor toDelete,
      compactionPlan c a.head.hash opts now order = .ok (ancestor, toDelete) →
      ∀ b ∈ stored c, b.hash ∈ toDelete →
        ¬ Atomic c (compact c a.head.hash opts now { order with deletion := .starting b.hash }) :=
  ⟨fun files order => compact_atomic_of_files free run files opts now order,
    fun _ link missing _ _ _ planned _ mem deleted =>
      compact_not_atomic free run link missing planned mem deleted⟩

end

section
open Sample

attribute [local instance] Sample.crypto

set_option maxRecDepth 2000

def later : AUM := checkpoint tip 1

def last : AUM := noOp later 4 1

def fromMiddle : FS :=
  (Authority.inform ⟨middle, middle, state.cloneForUpdate middle⟩ (bootstrap disk middle).2
    [tip, later, last]).2.2

def atLast : Authority := ⟨last, middle, state.cloneForUpdate last⟩

theorem fromMiddle_free : CollisionFree {x | x ∈ [middle, tip, later, last]} middle := by
  have encoded : ∀ x ∈ [middle, tip, later, last], x.omitEmpty = x := by decide
  refine ⟨injOn_of_nodup (by decide), encoded, fun a known => ?_⟩
  have apart : ∀ x ∈ [middle, tip, later, last], middle.parent ≠ some x.hash := by decide
  exact apart a known.mem

theorem fromMiddle_reachable :
    Reachable {x | x ∈ [middle, tip, later, last]} middle fromMiddle atLast := by
  have start : Reachable {x | x ∈ [middle, tip, later, last]} middle
      (bootstrap disk middle).2 ⟨middle, middle, state.cloneForUpdate middle⟩ :=
    .bootstrap disk_consistent disk_empty (by simp) (Prod.ext rfl rfl)
  have batch : ∀ u ∈ [tip, later, last], u ∈ {x | x ∈ [middle, tip, later, last]} := by simp
  exact start.inform batch (Prod.ext rfl (Prod.ext rfl rfl))

theorem compact_atomic_genesis :
    (∀ order, Atomic onDisk (compact onDisk tip.hash ⟨1, 1⟩ 1000000000000 order)) ∧
      ¬ Atomic fromMiddle (compact fromMiddle last.hash ⟨1, 1⟩ 1000000000000
        { keyOrder with deletion := .starting tip.hash }) := by
  have planned : compactionPlan fromMiddle last.hash ⟨1, 1⟩ 1000000000000 keyOrder =
      .ok (later.hash, [tip.hash, middle.hash, first.hash]) := rfl
  have genesisOnly : ∀ h, genesis.parent = some h → h ∈ onDisk.files := by
    intro h link
    cases link
  refine ⟨(compact_atomic atTip_free onDisk_reachable ⟨1, 1⟩ _).1 genesisOnly, ?_⟩
  exact (compact_atomic fromMiddle_free fromMiddle_reachable ⟨1, 1⟩ _).2 first.hash rfl (by decide)
    keyOrder _ _ planned tip rfl (by simp)

/-- The compaction fails on the parent of `middle`, with the new ancestor recorded and `middle` and
`tip` purged. -/
theorem compact_half_way :
    Reachable {x | x ∈ [middle, tip, later, last]} middle fromMiddle atLast ∧
      Chonk.lastActiveAncestor fromMiddle = .ok (some middle.hash) ∧
      middle ∈ stored fromMiddle ∧
      ∃ err torn, compact fromMiddle atLast.head.hash ⟨1, 1⟩ 1000000000000 keyOrder =
          (.error err, torn) ∧
        Chonk.lastActiveAncestor torn = .ok (some later.hash) ∧ middle ∉ stored torn := by
  refine ⟨fromMiddle_reachable, rfl, rfl, _,
    (compact fromMiddle last.hash ⟨1, 1⟩ 1000000000000 keyOrder).2, Prod.ext rfl rfl, rfl, ?_⟩
  intro still
  cases still

end

end ScaleTail.TKA
