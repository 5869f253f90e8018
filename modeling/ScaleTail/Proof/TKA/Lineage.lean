import ScaleTail.Lib.ForkChoice
import ScaleTail.Proof.TKA.State

/-! # The tree of verified updates -/

namespace ScaleTail.TKA

open Lib Option

theorem AUMHash.copyFrom_bytes (h h' : AUMHash) : h.copyFrom h'.bytes = h' := by
  obtain ⟨bytes, size⟩ := h'
  have all : bytes.take 32 = bytes := List.take_of_length_le size.le
  simp [copyFrom, size, all, h.size]

variable {h : AUMHash} {a : AUM}

theorem AUM.parent_of_prev (prev : a.prevAUMHash = some h.bytes) : a.parent = some h := by
  obtain ⟨x, rest, cons⟩ := List.exists_cons_of_length_pos (by rw [h.size]; omega : 0 < h.bytes.length)
  rw [parent, prev, cons]
  dsimp only
  rw [← cons, AUMHash.copyFrom_bytes]

theorem AUM.prev_of_bytes (bytes : a.prevAUMHash.getD [] = h.bytes) :
    a.prevAUMHash = some h.bytes := by
  cases prev : a.prevAUMHash with
  | none =>
    rw [prev, getD_none] at bytes
    have := h.size
    simp [← bytes] at this
  | some => rw [← bytes, prev, getD_some]

theorem AUM.prev_of_parentMatches {s : State}
    (last : s.lastAUMHash = some h) (parent : s.parentMatches a = true) :
    a.prevAUMHash = some h.bytes := by
  simp only [State.parentMatches, last, decide_eq_true_eq] at parent
  exact prev_of_bytes parent.symm

section
variable [Crypto]

inductive Lineage (U : Set AUM) (X : AUM) : Nat → AUM → State → Prop
  | root {st : State} (mem : X ∈ U) (kind : X.messageKind = .checkpoint)
      (field : X.state = some st) (verified : aumVerify X st true = .ok ()) :
      Lineage U X 0 X (st.cloneForUpdate X)
  | step {n : Nat} {p c : AUM} {s s' : State} (before : Lineage U X n p s) (mem : c ∈ U)
      (verified : aumVerify c s false = .ok ()) (applied : s.applyVerifiedAUM c = .ok s') :
      Lineage U X (n + 1) c s'

def Known (U : Set AUM) (X a : AUM) : Prop := ∃ n s, Lineage U X n a s

/-- What BLAKE2s guarantees of the AUMs in play: no two of them have the same digest, and the tree
of verified updates does not lead back to the digest that its root names as parent. An AUM that is not
what its encoding is read back as shares its digest with another one. -/
structure CollisionFree (U : Set AUM) (X : AUM) : Prop where
  injective : Set.InjOn AUM.hash U
  encoded : ∀ a ∈ U, a.omitEmpty = a
  acyclic : ∀ a, Known U X a → X.parent ≠ some a.hash

variable {U : Set AUM} {X a p c : AUM} {s s' : State} {n m : Nat}

namespace Lineage

theorem mem (h : Lineage U X n a s) : a ∈ U := by
  cases h with
  | root mem | step _ mem => exact mem

theorem last (h : Lineage U X n a s) : s.lastAUMHash = some a.hash := by
  cases h with
  | root => rfl
  | step _ _ _ applied => exact State.applyVerifiedAUM_last applied

theorem static (h : Lineage U X n a s) : a.staticValidate = .ok () := by
  cases h with
  | root _ _ _ verified | step _ _ verified => exact (aumVerify_ok.1 verified).1

theorem valid (h : Lineage U X n a s) : s.Valid := by
  induction h with
  | root _ _ field verified =>
    exact (State.Valid.of_checkpoint (aumVerify_ok.1 verified).1 field).cloneForUpdate
  | step _ _ verified applied ih => exact ih.apply verified applied

theorem stateIDs (h : Lineage U X n a s) :
    ∃ st, X.state = some st ∧ s.stateID1 = st.stateID1 ∧ s.stateID2 = st.stateID2 := by
  induction h with
  | root _ _ field => exact ⟨_, field, rfl, rfl⟩
  | step _ _ _ applied ih =>
    obtain ⟨st, field, id1, id2⟩ := ih
    obtain ⟨same1, same2⟩ := State.applyVerifiedAUM_ids applied
    exact ⟨st, field, same1.trans id1, same2.trans id2⟩

theorem checkpoint (h : Lineage U X n a s) (kind : a.messageKind = .checkpoint) :
    ∃ st, a.state = some st ∧ s = st.cloneForUpdate a := by
  cases h with
  | root _ _ field => exact ⟨_, field, rfl⟩
  | step _ _ _ applied =>
    cases (State.applyVerifiedAUM_cases applied).2 with
    | checkpoint st _ field => exact ⟨st, field, rfl⟩
    | kept other => exact absurd kind other
    | added _ _ _ other | updated _ _ _ other | removed _ other => rw [kind] at other; cases other

theorem prev (h : Lineage U X n p s) (applied : s.applyVerifiedAUM c = .ok s') :
    c.prevAUMHash = some p.hash.bytes :=
  AUM.prev_of_parentMatches h.last (State.applyVerifiedAUM_cases applied).1

theorem unique (free : CollisionFree U X) (h : Lineage U X n a s) (h' : Lineage U X m a s') :
    n = m ∧ s = s' := by
  induction h generalizing m s' with
  | root _ _ field =>
    cases h' with
    | root _ _ field' =>
      rw [field, some.injEq] at field'
      exact ⟨rfl, by rw [field']⟩
    | step before _ _ applied =>
      exact absurd (AUM.parent_of_prev (before.prev applied)) (free.acyclic _ ⟨_, _, before⟩)
  | step before _ _ applied ih =>
    cases h' with
    | root =>
      exact absurd (AUM.parent_of_prev (before.prev applied)) (free.acyclic _ ⟨_, _, before⟩)
    | step before' _ _ applied' =>
      have hash := AUM.parent_of_prev (before.prev applied)
      rw [AUM.parent_of_prev (before'.prev applied'), some.injEq] at hash
      obtain rfl := free.injective before'.mem before.mem hash
      obtain ⟨rfl, rfl⟩ := ih before'
      rw [applied, Except.ok.injEq] at applied'
      exact ⟨rfl, applied'⟩

theorem child (free : CollisionFree U X) (h : Lineage U X n p s) (known : Known U X c)
    (link : c.parent = some p.hash) :
    ∃ s', aumVerify c s false = .ok () ∧ s.applyVerifiedAUM c = .ok s' ∧
      Lineage U X (n + 1) c s' := by
  obtain ⟨m, t, hc⟩ := known
  cases hc with
  | root => exact absurd link (free.acyclic _ ⟨_, _, h⟩)
  | step before mem verified applied =>
    rw [AUM.parent_of_prev (before.prev applied), some.injEq] at link
    obtain rfl := free.injective before.mem h.mem link
    obtain ⟨rfl, rfl⟩ := before.unique free h
    exact ⟨t, verified, applied, .step before mem verified applied⟩

theorem parent (h : Lineage U X (n + 1) c s) : ∃ p, Known U X p ∧ c.parent = some p.hash := by
  cases h with
  | step before _ _ applied => exact ⟨_, ⟨_, _, before⟩, AUM.parent_of_prev (before.prev applied)⟩

end Lineage

theorem Known.mem (h : Known U X a) : a ∈ U := h.choose_spec.choose_spec.mem

open Classical in
noncomputable def depth (U : Set AUM) (X a : AUM) : Nat :=
  if h : Known U X a then h.choose else 0

theorem Lineage.depth_eq (free : CollisionFree U X) (h : Lineage U X n a s) : depth U X a = n := by
  have known : Known U X a := ⟨n, s, h⟩
  rw [depth, dif_pos known]
  exact (known.choose_spec.choose_spec.unique free h).1

abbrev ForkKey := Natᵒᵈ ×ₗ Bool ×ₗ AUMHash

def weightIn (s : State) (a : AUM) : UInt64 :=
  match a.weight s with
  | .ok w => w
  | .error _ => 0

def forkKey (s : State) (a : AUM) : ForkKey :=
  toLex (OrderDual.toDual (weightIn s a).toNat,
    toLex (decide (a.messageKind ≠ .removeKey), a.hash))

def forks (U : Set AUM) (X : AUM) : ForkSystem AUM State ForkKey where
  child p c := Known U X p ∧ Known U X c ∧ c.parent = some p.hash
  key := forkKey
  apply s c := (s.applyVerifiedAUM c).toOption

theorem forks_apply : (forks U X).apply s c = some s' ↔ s.applyVerifiedAUM c = .ok s' := by
  cases applied : s.applyVerifiedAUM c <;> simp [forks, applied, Except.toOption]

theorem forkKey_hash {s : State} {a b : AUM} (same : forkKey s a = forkKey s b) :
    a.hash = b.hash := by
  simp only [forkKey, EmbeddingLike.apply_eq_iff_eq, Prod.mk.injEq] at same
  exact same.2.2

theorem forks_graded (free : CollisionFree U X) : (forks U X).Graded (depth U X) where
  parent_unique := by
    rintro p p' c ⟨hp, _, link⟩ ⟨hp', _, link'⟩
    exact free.injective hp.mem hp'.mem (some.inj (link.symm.trans link'))
  rank_child := by
    rintro p c ⟨⟨n, s, hp⟩, hc, link⟩
    obtain ⟨s', -, -, lineage⟩ := hp.child free hc link
    rw [hp.depth_eq free, lineage.depth_eq free]
  key_injective := by
    rintro p c d s ⟨_, hc, _⟩ ⟨_, hd, _⟩ same
    exact free.injective hc.mem hd.mem (forkKey_hash same)

end

end ScaleTail.TKA
