import ScaleTail.Proof.TKA.Inform
import ScaleTail.Proof.TKA.Sample

/-! # Runs of an authority -/

namespace ScaleTail.TKA

open Lib ForkSystem LawfulChonk

section
variable [Crypto] {σ : Type} [Chonk σ]
variable {U : Set AUM} {X : AUM} {storage storage' : σ} {a a' : Authority} {us : List AUM}

theorem inform_ok (ok : a.inform storage us = (.ok (), a', storage')) :
    a.informIdempotent storage us = (.ok a', storage') := by
  unfold Authority.inform at ok
  split at ok
  next run =>
    obtain ⟨rfl, rfl⟩ := ok
    exact run
  · simp at ok

theorem checkBootstrap_ok (ok : checkBootstrap storage X = .ok ()) :
    X.messageKind = .checkpoint ∧ ∃ st, X.state = some st ∧ aumVerify X st true = .ok () := by
  unfold checkBootstrap at ok
  split at ok
  · cases ok
  rw [ite_error_eq_ok, ite_error_eq_ok] at ok
  obtain ⟨-, kind, ok⟩ := ok
  split at ok
  · cases ok
  rename_i st field
  split at ok
  · cases ok
  next verified => exact ⟨not_not.1 kind, st, field, verified⟩

variable [LawfulChonk σ]

section
variable (free : CollisionFree U X)
include free

theorem single_tree (consistent : Consistent storage)
    (contents : stored storage = {X}) (known : Known U X X) (kind : X.messageKind = .checkpoint) :
    Tree U X storage X := by
  refine ⟨⟨consistent, ?_⟩, ⟨?_, fun p _ child => ?_⟩, kind, ?_⟩
  · rw [contents]
    rintro a rfl
    exact known
  · rw [contents]
    exact rfl
  · exact free.acyclic p child.1 child.2.2
  · rw [contents]
    rintro a rfl
    exact ⟨[], .refl a⟩

theorem bootstrap_inSync (consistent : Consistent storage)
    (empty : stored storage = ∅) (mem : X ∈ U) (ok : bootstrap storage X = (.ok a, storage')) :
    InSync U X storage' a ∧ a.oldestAncestor = X ∧ stored storage' = {X} := by
  unfold bootstrap at ok
  split at ok
  · cases (Prod.mk.inj ok).1
  rename_i checked
  obtain ⟨kind, st, field, verified⟩ := checkBootstrap_ok checked
  have root : Lineage U X 0 X (st.cloneForUpdate X) := .root mem kind field verified
  have single : Set.InjOn AUM.hash (stored storage ∪ {a | a ∈ [X]}) := by simp [empty]
  obtain ⟨s₁, commit, consistent₁, contents₁, -⟩ :=
    LawfulChonk.commitVerifiedAUMs consistent single (by simpa using free.encoded X mem)
  obtain ⟨s₂, set, consistent₂, contents₂, recorded⟩ :=
    LawfulChonk.setLastActiveAncestor consistent₁ X.hash
  have contents : stored s₂ = {X} := by
    rw [contents₂, contents₁, empty]
    ext x
    simp
  have tree := single_tree free consistent₂ contents ⟨_, _, root⟩ kind
  simp only [commit, set] at ok
  obtain ⟨opened, rfl⟩ := Prod.mk.inj ok
  unfold openChonk at opened
  rw [recorded] at opened
  dsimp only at opened
  split at opened
  · cases opened
  rename_i c computed
  obtain rfl := Except.ok.inj opened
  obtain ⟨oldest, n, s, path, lineage, leads⟩ := tree.activeChain free computed
  subst oldest
  exact ⟨⟨tree, recorded, n, s, path, lineage, leads⟩, rfl, contents⟩

inductive Fed (U : Set AUM) (X : AUM) : σ → Authority → Prop
  | bootstrap {storage storage' : σ} {a : Authority} (consistent : Consistent storage)
      (empty : stored storage = ∅) (mem : X ∈ U)
      (ok : bootstrap storage X = (.ok a, storage')) : Fed U X storage' a
  | inform {storage storage' : σ} {a a' : Authority} {us : List AUM} (before : Fed U X storage a)
      (mem : ∀ u ∈ us, u ∈ U) (ok : a.inform storage us = (.ok (), a', storage')) :
      Fed U X storage' a'

/-- `Bootstrap` from `X` on an empty storage, and `Inform` calls that succeed or fail. -/
inductive Attempted (U : Set AUM) (X : AUM) : σ → Authority → Prop
  | bootstrap {storage storage' : σ} {a : Authority} (consistent : Consistent storage)
      (empty : stored storage = ∅) (mem : X ∈ U)
      (ok : bootstrap storage X = (.ok a, storage')) : Attempted U X storage' a
  | inform {storage storage' : σ} {a a' : Authority} {us : List AUM} {result : Except Err Unit}
      (before : Attempted U X storage a) (mem : ∀ u ∈ us, u ∈ U)
      (call : a.inform storage us = (result, a', storage')) : Attempted U X storage' a'

omit free in
theorem Fed.attempted (fed : Fed U X storage a) : Attempted U X storage a := by
  induction fed with
  | bootstrap consistent empty mem ok => exact .bootstrap consistent empty mem ok
  | inform _ mem ok ih => exact ih.inform mem ok

theorem Fed.inSync (fed : Fed U X storage a) :
    InSync U X storage a ∧ a.oldestAncestor = X := by
  induction fed with
  | bootstrap consistent empty mem ok =>
    obtain ⟨sync, oldest, -⟩ := bootstrap_inSync free consistent empty mem ok
    exact ⟨sync, oldest⟩
  | inform _ mem ok ih =>
    obtain ⟨sync, oldest, -⟩ := ih.1.inform free mem (inform_ok ok)
    exact ⟨sync, oldest.trans ih.2⟩

/-- The stored AUMs are verified, and the head of the authority is one of them with its state. -/
structure Sound (U : Set AUM) (X : AUM) (storage : σ) (a : Authority) : Prop where
  tree : Tree U X storage X
  head : a.head ∈ stored storage
  lineage : ∃ n, Lineage U X n a.head a.state

theorem Sound.inform (sound : Sound U X storage a)
    (mem : ∀ u ∈ us, u ∈ U) {result : Except Err Unit}
    (call : a.inform storage us = (result, a', storage')) : Sound U X storage' a' := by
  obtain ⟨n, lineage⟩ := sound.lineage
  cases run : a.informIdempotent storage us with
  | mk outcome =>
    have cases := informIdempotent_cases free sound.tree lineage sound.head mem run
    rw [Authority.inform, run] at call
    cases outcome with
    | error =>
      obtain ⟨-, rfl, rfl⟩ := by simpa using call
      rcases cases with ⟨rfl, -⟩ | ⟨acc, -, -, -, grown, contents, -⟩
      · exact sound
      · exact ⟨grown, by rw [contents]; exact .inl sound.head, n, lineage⟩
    | ok =>
      obtain ⟨-, rfl, rfl⟩ := by simpa using call
      rcases cases with ⟨-, ⟨e, failed⟩, -⟩ |
        ⟨acc, -, inv, nonempty, grown, contents, -, result⟩
      · cases failed
      unfold Authority.informFinish at result
      split at result
      next isHead =>
        obtain ⟨-, -, m, q, t, trail, prev, found, final⟩ := inv.head isHead
        rw [prev, found, Option.getD_some, Except.ok.injEq,
          getLastD_of_ne_nil nonempty _ a.head, trail.getLastD_eq] at result
        subst result
        refine ⟨grown, ?_, m, final⟩
        have last : q ∈ us := by
          rcases trail.last_step with ⟨empty, -⟩ | ⟨k, p, rfl, -⟩
          · exact absurd empty nonempty
          · simp
        rw [contents]
        exact .inr last
      · split at result
        · cases result
        next c computed =>
          obtain rfl := Except.ok.inj result
          obtain ⟨oldest, m, s, path, root, leads⟩ := grown.activeChain free computed
          refine ⟨grown, ?_, _, root.primary free leads.1⟩
          exact leads.1.trail.all_mem grown.root.1 _ leads.1.trail.final_mem

theorem Attempted.sound (run : Attempted U X storage a) :
    Sound U X storage a := by
  induction run with
  | bootstrap consistent empty mem ok =>
    obtain ⟨sync, oldest, -⟩ := bootstrap_inSync free consistent empty mem ok
    exact ⟨oldest ▸ sync.tree, sync.head_mem, sync.lineage free⟩
  | inform _ mem call ih => exact ih.inform free mem call

end

structure Invariant (X a : AUM) (s : State) : Prop where
  nonempty : s.keys ≠ []
  keys : ∀ k ∈ s.keys, k.staticValidate = .ok ()
  distinct : s.keys.Pairwise fun k l => k.id ≠ l.id
  stateIDs : ∃ st, X.state = some st ∧ s.stateID1 = st.stateID1 ∧ s.stateID2 = st.stateID2
  last : s.lastAUMHash = some a.hash

theorem Lineage.invariant {n : Nat} {b : AUM} {s : State} (h : Lineage U X n b s) :
    Invariant X b s :=
  ⟨h.valid.nonempty, h.valid.keys, h.valid.distinct, h.stateIDs, h.last⟩

/-- In the state `s` after `b` fork resolution cannot fail: no stored AUM makes `Weight` panic, and
the candidates are verified. -/
structure Resolvable (storage : σ) (b : AUM) (s : State) : Prop where
  weight : ∀ c ∈ stored storage, ∃ w, c.weight s = .ok w
  verified : ∀ cs, Chonk.childAUMs storage b.hash = .ok cs → ∀ c ∈ cs,
    aumVerify c s false = .ok ()

theorem Verified.resolvable (free : CollisionFree U X) (verified : Verified U X storage) {n : Nat}
    {b : AUM} {s : State} (lineage : Lineage U X n b s) : Resolvable storage b s := by
  constructor
  · intro c hc
    obtain ⟨_, _, hk⟩ := verified.known c hc
    exact AUM.weight_ok hk.static lineage.valid.keys
  · intro cs children c hc
    obtain ⟨cs', children', spec⟩ := verified.childAUMs free ⟨n, s, lineage⟩
    obtain rfl := Except.ok.inj (children.symm.trans children')
    obtain ⟨-, -, known, link⟩ := (spec c).1 hc
    obtain ⟨_, ok, -⟩ := lineage.child free known link
    exact ok

/-- In every authority that `Bootstrap` and `Inform` calls lead to, the state at the head and the
state computed at every stored AUM satisfy the invariant, and fork resolution is safe in them. -/
theorem attempted_invariant (free : CollisionFree U X) (run : Attempted U X storage a) :
    (Invariant X a.head a.state ∧ Resolvable storage a.head a.state) ∧
      ∀ b ∈ stored storage, ∃ s, Invariant X b s ∧ Resolvable storage b s ∧
        (∃ enough, ∀ maxIter, enough ≤ maxIter → computeStateAt storage maxIter b.hash = .ok s) ∧
        ∀ maxIter s', computeStateAt storage maxIter b.hash = .ok s' → s' = s := by
  have sound := run.sound free
  obtain ⟨n, lineage⟩ := sound.lineage
  refine ⟨⟨lineage.invariant, sound.tree.verified.resolvable free lineage⟩, fun b hb => ?_⟩
  obtain ⟨m, s, known⟩ := sound.tree.verified.known b hb
  obtain ⟨l, trail⟩ := sound.tree.connected b hb
  refine ⟨s, known.invariant, sound.tree.verified.resolvable free known, ⟨l.length + 1, ?_⟩, ?_⟩
  · intro maxIter enough
    exact computeStateAt_total free sound.tree.verified sound.tree.root.1 sound.tree.checkpoint
      trail enough known
  · intro maxIter s' computed
    obtain ⟨k, b', hb', hash, lineage'⟩ := computeStateAt_ok free sound.tree.verified computed
    obtain rfl := stored_injective hb' hb hash
    exact (lineage'.unique free known).2

/-- A call of `Inform` that fails leaves the authority as it was, the batch is stored whole or not at
all, and every stored AUM is verified from the root on. -/
theorem inform_whole_batch (free : CollisionFree U X) (run : Attempted U X storage a)
    (mem : ∀ u ∈ us, u ∈ U) {result : Except Err Unit}
    (call : a.inform storage us = (result, a', storage')) :
    ((∃ e, result = .error e) → a' = a) ∧
    (storage' = storage ∧ (∃ e, result = .error e) ∨ stored storage' = committed storage us) ∧
    ∀ b ∈ stored storage', Known U X b := by
  have sound := run.sound free
  obtain ⟨n, lineage⟩ := sound.lineage
  refine ⟨?_, ?_, fun b stored => ?_⟩
  · rintro ⟨e, rfl⟩
    unfold Authority.inform at call
    split at call
    · cases call
    · exact (Prod.mk.inj (Prod.mk.inj call).2).1.symm
  · cases run : a.informIdempotent storage us with
    | mk outcome =>
      rw [Authority.inform, run] at call
      rcases informIdempotent_cases free sound.tree lineage sound.head mem run with
        ⟨rfl, ⟨e, rfl⟩, -⟩ | ⟨-, -, -, -, -, contents, -⟩
      · cases call
        exact .inl ⟨rfl, e, rfl⟩
      · cases outcome <;> cases call <;> exact .inr contents
  · exact (sound.inform free mem call).tree.verified.known b stored

end

section
open Sample

attribute [local instance] Sample.crypto

theorem started_fed {U : Set AUM} (mem : genesis ∈ U) :
    Fed U genesis (bootstrap memory genesis).2 started :=
  .bootstrap memory_consistent memory_empty mem (Prod.ext rfl rfl)

section
variable {r : AUM} {n : Nat} (branch : Branch r) (small : n < 2 ^ 64)
include branch small

theorem inform_span {storage : Mem} {a : Authority} {k : Nat} (lt : k < n)
    (sync : InSync (grove r n) genesis storage a) (head : a.head = trunk k)
    (oldest : a.oldestAncestor = genesis) :
    ∃ storage', a.inform storage (span k n) = (.ok (), atTrunk n, storage') := by
  have free := grove_free branch small
  have trail := span_trail (r := r) lt.le le_rfl
  rw [← head] at trail
  have nonempty : span k n ≠ [] := List.ne_nil_of_mem (mem_span.2 ⟨n, lt, le_rfl, rfl⟩)
  obtain ⟨storage', m, t, run, lineage⟩ := sync.inform_chain free nonempty span_mem trail
  obtain ⟨-, rfl⟩ := lineage.unique free (trunk_lineage le_rfl)
  exact ⟨storage', by rw [Authority.inform, run, oldest, atTrunk]⟩

/-- A branch is not accepted beside a trunk that is longer than the slow path of `Inform` follows. -/
theorem branch_rejected (long : maxScanIterations ≤ n) : ∃ storage : Mem,
    started.inform (bootstrap memory genesis).2 (span 0 n) = (.ok (), atTrunk n, storage) ∧
    (∀ i ≤ n, trunk i ∈ stored storage) ∧
    ∃ e storage', (atTrunk n).inform storage [r] = (.error e, atTrunk n, storage') := by
  have free := grove_free branch small
  have pos : 0 < n := Nat.zero_lt_of_lt long
  obtain ⟨sync, -⟩ := (started_fed (trunk_mem n.zero_le)).inSync free
  obtain ⟨storage, run⟩ := inform_span branch small pos sync rfl rfl
  obtain ⟨sync', -, contents⟩ := sync.inform free span_mem (inform_ok run)
  have kept : ∀ u ∈ span 0 n, u ∈ stored storage := by
    intro u hu
    rw [contents]
    exact .inr hu
  have inner : genesis ≠ trunk n := fun same =>
    pos.ne (trunk_injective (i := 0) (by decide) small (congrArg AUM.hash same))
  have trail := (span_trail (r := r) pos.le le_rfl).restrict kept
  have length : (span 0 n).length = n := by simp [span]
  obtain ⟨e, storage', rejected⟩ :=
    sync'.inform_long free (trunk_mem n.zero_le) (.inl rfl) branch.parent inner trail
      (trunk_leaf branch pos small _) (by rw [length]; exact long)
  refine ⟨storage, run, fun i le => ?_, e, storage', ?_⟩
  · cases i with
    | zero => exact sync'.tree.root.1
    | succ => exact kept _ (mem_span.2 ⟨_, Nat.succ_pos _, le, rfl⟩)
  · rw [Authority.inform, rejected]

end

theorem attempted_invariant_first : ∃ (storage : Mem) (a : Authority), a.head = first ∧
    Attempted {x | x ∈ [genesis, first]} genesis storage a ∧ Invariant genesis first a.state := by
  have free : CollisionFree {x | x ∈ [genesis, first]} genesis :=
    genesis_free (by decide) (by decide)
  have updates : ∀ u ∈ [first], u ∈ {x | x ∈ [genesis, first]} := by simp
  have run := (started_fed (by simp)).attempted.inform updates (Prod.ext rfl (Prod.ext rfl rfl))
  exact ⟨_, _, rfl, run, (attempted_invariant free run).1.1⟩

theorem named_fed : Fed namedAUMs namedGenesis namedDisk namedStart :=
  .bootstrap disk_consistent disk_empty (by simp [namedAUMs]) (Prod.ext rfl rfl)

theorem cleared_fed : Fed namedAUMs namedGenesis clearedDisk atCleared := by
  have updates : ∀ u ∈ [cleared], u ∈ namedAUMs := by simp [namedAUMs]
  exact named_fed.inform updates (Prod.ext rfl (Prod.ext rfl rfl))

/-- The update that was accepted is not verified when it is read back. -/
theorem cleared_unverified : Attempted namedAUMs namedGenesis clearedDisk atCleared ∧
    Set.InjOn AUM.hash namedAUMs ∧
      ∃ c s, computeStateAt clearedDisk maxScanIterations namedGenesis.hash = .ok s ∧
        Chonk.childAUMs clearedDisk namedGenesis.hash = .ok [c] ∧
        aumVerify c s false = .error (.wrap "invalid" (.errorf
          "UpdateKey AUMs must contain an update to votes or key metadata")) :=
  ⟨cleared_fed.attempted, cleared_injective, _, _, rfl, rfl, rfl⟩

theorem inform_whole_batch_first : ∃ (a : Authority) (storage : Mem),
    started.inform (bootstrap memory genesis).2 [first] = (.ok (), a, storage) ∧
      stored storage = committed (bootstrap memory genesis).2 [first] := by
  have start := (started_fed (U := {x | x ∈ [genesis, first]}) (by simp)).attempted
  have call : started.inform (bootstrap memory genesis).2 [first] = (.ok (), _, _) :=
    Prod.ext rfl (Prod.ext rfl rfl)
  have whole := inform_whole_batch (genesis_free (by decide) (by decide)) start (by simp) call
  exact ⟨_, _, call, whole.2.1.resolve_left (by simp)⟩

end

end ScaleTail.TKA
