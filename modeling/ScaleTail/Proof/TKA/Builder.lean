import ScaleTail.TKA.Builder
import ScaleTail.Proof.TKA.Restart

/-! # What the builder builds is accepted -/

namespace ScaleTail.TKA

open Lib ForkSystem LawfulChonk UpdateBuilder List State Authority

theorem trusts_ok {s : State} {id : Bytes} (trusted : trusts s id = true) :
    ∃ key ∈ s.keys, s.getKey id = .ok key := by
  unfold trusts at trusted
  split at trusted
  next key found => exact ⟨key, (getKeyIn_ok found).1, found⟩
  · cases trusted

theorem Key.kind_of_id {k : Key} {id : Bytes} (ids : k.id = .ok id) : k.kind = .key25519 := by
  unfold Key.id at ids
  split at ids
  · assumption
  · cases ids

structure SingleKey [Crypto] where
  keyID : Bytes
  sign : AUMHash → Bytes
  keySize : keyID.length = publicKeySize
  size : ∀ h, (sign h).length = signatureSize
  verifies : ∀ h, Crypto.verify keyID h (sign h) = true

section
variable [Crypto]

def SingleKey.signAUM (signer : SingleKey) : Signer :=
  fun h => .ok [⟨signer.keyID, signer.sign h⟩]

inductive Call
  | addKey (key : Key)
  | removeKey (keyID : Bytes)
  | setKeyVote (keyID : Bytes) (votes : UInt64)
  | setKeyMeta (keyID : Bytes) (metadata : Option Meta)

def UpdateBuilder.call (b : UpdateBuilder) : Call → Except Err UpdateBuilder
  | .addKey key => b.addKey key
  | .removeKey keyID => b.removeKey keyID
  | .setKeyVote keyID votes => b.setKeyVote keyID votes
  | .setKeyMeta keyID metadata => b.setKeyMeta keyID metadata

inductive Built (signer : SingleKey) (a : Authority) : UpdateBuilder → Prop
  | start : Built signer a (a.newUpdater (some signer.signAUM))
  | call {b b' : UpdateBuilder} {c : Call} (before : Built signer a b)
      (trusted : Authority.trusts b.state signer.keyID = true) (ok : b.call c = .ok b') :
      Built signer a b'

variable {signer : SingleKey} {a : Authority} {b b' : UpdateBuilder} {u : AUM} {s s' : State}

structure Emitted (signer : SingleKey) (b b' : UpdateBuilder) (u : AUM) : Prop where
  prev : u.prevAUMHash = some b.parent.bytes
  signed : u.signatures = [⟨signer.keyID, signer.sign u.sigHash⟩]
  static : u.staticValidate = .ok ()
  applied : b.state.applyVerifiedAUM u = .ok b'.state
  next : b' = { b with state := b'.state, parent := u.hash, out := b.out ++ [u] }

def SingleKey.complete (signer : SingleKey) (b : UpdateBuilder) (u : AUM) : AUM :=
  let u := { u with prevAUMHash := some b.parent.bytes, signatures := [] }
  { u with signatures := [⟨signer.keyID, signer.sign u.sigHash⟩] }

theorem mkUpdate_ok (signs : b.signer = some signer.signAUM) (unsigned : u.signatures = []) :
    b.mkUpdate u = .ok b' ↔ Emitted signer b b' (signer.complete b u) := by
  have signatures : b.signatures { u with prevAUMHash := some b.parent.bytes } =
      .ok (signer.complete b u).signatures := by
    simp only [UpdateBuilder.signatures, signs, SingleKey.signAUM, unsigned]
    rfl
  have update : ({ u with
      prevAUMHash := some b.parent.bytes
      signatures := (signer.complete b u).signatures } : AUM) = signer.complete b u := rfl
  unfold mkUpdate
  simp only [signatures, ok_bind, update]
  constructor
  · intro ok
    split at ok
    · cases ok
    rename_i static
    split at ok
    · cases ok
    rename_i state applied
    obtain rfl := Except.ok.inj ok
    exact ⟨rfl, rfl, static, applied, rfl⟩
  · intro emitted
    simp only [emitted.static, emitted.applied]
    rw [← emitted.next]

theorem changeKey_ok {keyID : Bytes} (signs : b.signer = some signer.signAUM)
    (unsigned : u.signatures = []) (ok : b.changeKey keyID u = .ok b') :
    Emitted signer b b' (signer.complete b u) := by
  unfold changeKey at ok
  split at ok
  · cases ok
  · exact (mkUpdate_ok signs unsigned).1 ok

theorem call_ok {c : Call} (signs : b.signer = some signer.signAUM) (ok : b.call c = .ok b') :
    ∃ u, Emitted signer b b' u := by
  cases c with
  | addKey key =>
    change b.addKey key = _ at ok
    rw [UpdateBuilder.addKey, bind_eq_ok] at ok
    obtain ⟨keyID, -, ok⟩ := ok
    split at ok
    · cases ok
    · rw [ite_error_eq_ok] at ok
      exact ⟨_, (mkUpdate_ok signs rfl).1 ok.2⟩
  | removeKey | setKeyVote | setKeyMeta =>
    exact ⟨_, changeKey_ok signs rfl ok⟩

theorem removesLastKey_keys (applied : s.applyVerifiedAUM u = .ok s')
    (last : removesLastKey u s = true) : s'.keys = [] := by
  unfold removesLastKey at last
  split at last
  next key kind single =>
    split at last
    next kid ids =>
      have same : u.keyID.getD [] = kid := by simpa using last
      rw [applyVerifiedAUM, ite_error_eq_ok] at applied
      obtain ⟨-, applied⟩ := applied
      simp only [kind, single, removeKeyIn, ids, ok_bind, if_pos same, Except.ok.injEq] at applied
      rw [← applied]
    · cases last
  · cases last

section
variable (emitted : Emitted signer b b' u) (trusted : trusts b.state signer.keyID = true)
include emitted trusted

theorem Emitted.signature :
    ∀ sig ∈ u.signatures.zipIdx, verifySignatureOf u b.state sig = .ok () := by
  obtain ⟨key, -, found⟩ := trusts_ok trusted
  have ids := (getKeyIn_ok found).2
  intro sig hsig
  rw [emitted.signed] at hsig
  obtain rfl : sig = (⟨signer.keyID, signer.sign u.sigHash⟩, 0) := by simpa using hsig
  have verified : signatureVerify ⟨signer.keyID, signer.sign u.sigHash⟩ u.sigHash key = .ok () := by
    simp [signatureVerify, Key.kind_of_id ids, ← Key.id_ok ids, signer.keySize, signer.verifies]
  simp only [verifySignatureOf, found, verified]

theorem Emitted.verify (last : b.state.lastAUMHash = some b.parent) (left : b'.state.keys ≠ []) :
    aumVerify u b.state false = .ok () := by
  refine aumVerify_ok.2 ⟨emitted.static, fun _ => ?_, ?_, emitted.signature trusted, ?_⟩
  · exact checkParent_ok.2 ⟨b.parent, AUM.parent_of_prev emitted.prev, last⟩
  · simp [emitted.signed]
  · rw [Bool.eq_false_iff]
    exact fun removes => left (removesLastKey_keys emitted.applied removes)

end

theorem replay_append {us vs : List (AUM × Nat)} (first : replay s us = .ok s') :
    replay s (us ++ vs) = replay s' vs := by
  induction us generalizing s with
  | nil =>
    obtain rfl := Except.ok.inj first
    rfl
  | cons u _ ih =>
    obtain ⟨u, i⟩ := u
    rw [cons_append, replay]
    rw [replay] at first
    split at first
    · cases first
    · exact ih first

structure BuildInv (signer : SingleKey) (a : Authority) (b : UpdateBuilder) : Prop where
  signs : b.signer = some signer.signAUM
  last : b.state.lastAUMHash = some b.parent
  replayed : replay a.state b.out.zipIdx = .ok b.state
  start : b.out = [] → b.parent = a.headHash
  based : ∀ first rest, b.out = first :: rest → first.parent = some a.headHash

theorem Emitted.inv (inv : BuildInv signer a b) (emitted : Emitted signer b b' u) :
    BuildInv signer a b' := by
  rw [emitted.next]
  refine ⟨inv.signs, applyVerifiedAUM_last emitted.applied, ?_, by simp, ?_⟩
  · rw [zipIdx_append, replay_append inv.replayed, zipIdx_singleton]
    simp only [replay, emitted.applied]
  · intro first rest split
    cases out : b.out with
    | nil =>
      rw [out] at split
      obtain ⟨rfl, -⟩ := List.cons.inj split
      rw [AUM.parent_of_prev emitted.prev, inv.start out]
    | cons =>
      rw [out] at split
      obtain ⟨rfl, -⟩ := List.cons.inj split
      exact inv.based _ _ out

theorem Built.inv (last : a.state.lastAUMHash = some a.headHash) (built : Built signer a b) :
    BuildInv signer a b := by
  induction built with
  | start => exact ⟨rfl, last, rfl, fun _ => rfl, fun _ _ impossible => nomatch impossible⟩
  | call _ _ ok ih =>
    obtain ⟨u, emitted⟩ := call_ok ih.signs ok
    exact emitted.inv ih

theorem Built.valid (valid : a.state.Valid) (last : a.state.lastAUMHash = some a.headHash)
    (built : Built signer a b) (left : b.state.keys ≠ []) : b.state.Valid := by
  induction built with
  | start => exact valid
  | call before trusted ok ih =>
    have inv := before.inv last
    obtain ⟨u, emitted⟩ := call_ok inv.signs ok
    obtain ⟨key, held, -⟩ := trusts_ok trusted
    exact (ih (ne_nil_of_mem held)).apply (emitted.verify trusted inv.last left) emitted.applied

variable {U : Set AUM} {X : AUM}

def Chained (U : Set AUM) (X : AUM) (a : Authority) (b : UpdateBuilder) : Prop :=
  ∃ n q, (forks U X).Trail Set.univ a.head b.out q ∧ Lineage U X n q b.state

theorem Emitted.chained (inv : BuildInv signer a b) (emitted : Emitted signer b b' u)
    (trusted : trusts b.state signer.keyID = true) (left : b'.state.keys ≠ [])
    (mem : u ∈ U) (chained : Chained U X a b) : Chained U X a b' := by
  obtain ⟨n, q, trail, lineage⟩ := chained
  have step : Lineage U X (n + 1) u b'.state :=
    .step lineage mem (emitted.verify trusted inv.last left) emitted.applied
  have link : u.parent = some q.hash := by
    rw [AUM.parent_of_prev emitted.prev, ← inv.last, lineage.last]
  have out : b'.out = b.out ++ [u] := by rw [emitted.next]
  refine ⟨n + 1, u, ?_, step⟩
  rw [out]
  exact trail.concat trivial ⟨⟨_, _, lineage⟩, ⟨_, _, step⟩, link⟩

theorem Built.chained {n : Nat} (lineage : Lineage U X n a.head a.state) (built : Built signer a b)
    (left : b.state.keys ≠ []) (mem : ∀ u ∈ b.out, u ∈ U) : Chained U X a b := by
  induction built with
  | start => exact ⟨n, a.head, .refl _, lineage⟩
  | @call b b' _ before trusted ok ih =>
    have inv := before.inv (by rw [lineage.last, headHash_eq lineage])
    obtain ⟨u, emitted⟩ := call_ok inv.signs ok
    have out : b'.out = b.out ++ [u] := by rw [emitted.next]
    rw [out] at mem
    obtain ⟨key, held, -⟩ := trusts_ok trusted
    refine emitted.chained inv trusted left (mem u (by simp)) (ih (ne_nil_of_mem held) ?_)
    exact fun v hv => mem v (by simp [hv])

theorem checkHead_ok (inv : BuildInv signer a b) : b.checkHead a = .ok b.out := by
  unfold checkHead
  split
  next out => rw [out]
  next first rest out => simp [inv.based first rest out, out]

def checkpointOf (s : State) : AUM :=
  { AUM.zero with messageKind := .checkpoint, state := some { s with lastAUMHash := none } }

theorem checkpoint_static : (signer.complete b (checkpointOf s)).staticValidate = .ok () ↔
    s.keys.length ≤ maxKeys ∧ s.Valid := by
  have parent : b.parent.bytes ≠ [] := by
    rw [← length_pos_iff_ne_nil, b.parent.size]
    decide
  have valid : State.Valid { s with lastAUMHash := none } ↔ s.Valid :=
    ⟨fun h => ⟨h.1, h.2, h.3, h.4⟩, fun h => ⟨h.1, h.2, h.3, h.4⟩⟩
  rw [AUM.staticValidate_ok]
  constructor
  · rintro ⟨-, -, -, state, -⟩
    obtain ⟨-, few, whole⟩ := staticValidateCheckpoint_ok.1 (state _ rfl)
    exact ⟨few, valid.1 whole⟩
  · rintro ⟨few, whole⟩
    refine ⟨?_, ?_, ?_, ?_, rfl⟩
    · rintro k ⟨⟩
    · simpa [SingleKey.complete] using parent
    · intro sig hsig
      rw [mem_singleton.1 hsig]
      exact ⟨signer.keySize, signer.size _⟩
    · rintro st ⟨⟩
      exact staticValidateCheckpoint_ok.2 ⟨rfl, few, valid.2 whole⟩

theorem checkpoint_applied (inv : BuildInv signer a b) :
    b.state.applyVerifiedAUM (signer.complete b (checkpointOf b.state)) = .ok { b.state with
      lastAUMHash := some (signer.complete b (checkpointOf b.state)).hash } := by
  have matching : b.state.parentMatches (signer.complete b (checkpointOf b.state)) = true := by
    simp [parentMatches, inv.last, SingleKey.complete]
  rw [applyVerifiedAUM, if_neg (by simp [matching])]
  simp [SingleKey.complete, checkpointOf, cloneForUpdate]

theorem checkpoint_emitted (inv : BuildInv signer a b) (few : b.state.keys.length ≤ maxKeys)
    (valid : b.state.Valid) :
    ∃ b', Emitted signer b b' (signer.complete b (checkpointOf b.state)) ∧
      { b'.state with lastAUMHash := none } = { b.state with lastAUMHash := none } := by
  let u := signer.complete b (checkpointOf b.state)
  let state := { b.state with lastAUMHash := some u.hash }
  exact ⟨{ b with state, parent := u.hash, out := b.out ++ [u] },
    ⟨rfl, rfl, checkpoint_static.2 ⟨few, valid⟩, checkpoint_applied inv, rfl⟩, rfl⟩

theorem generateCheckpoint_ok (inv : BuildInv signer a b) :
    b.generateCheckpoint a = .ok b' ↔ Emitted signer b b' (signer.complete b (checkpointOf b.state)) := by
  rw [generateCheckpoint, inv.replayed, ok_bind]
  exact mkUpdate_ok inv.signs rfl

variable {σ : Type} [CompactableChonk σ] {storage : σ}

theorem finalize_out (inv : BuildInv signer a b) (checked : b.needCheckpoint a storage = .ok false) :
    b.finalize a storage = (.ok b.out, b) := by
  simp only [finalize, checked, checkHead_ok inv]

theorem finalize_checkpoint (inv : BuildInv signer a b)
    (checked : b.needCheckpoint a storage = .ok true) {aums : List AUM} :
    b.finalize a storage = (.ok aums, b') ↔
      Emitted signer b b' (signer.complete b (checkpointOf b.state)) ∧ aums = b'.out := by
  rw [← generateCheckpoint_ok inv]
  simp only [finalize, checked]
  constructor
  · intro finalized
    split at finalized
    · cases (Prod.mk.inj finalized).1
    rename_i b₁ generated
    obtain ⟨head, rfl⟩ := Prod.mk.inj finalized
    rw [checkHead_ok (((generateCheckpoint_ok inv).1 generated).inv inv)] at head
    exact ⟨generated, (Except.ok.inj head).symm⟩
  · rintro ⟨generated, rfl⟩
    simp only [generated, checkHead_ok (((generateCheckpoint_ok inv).1 generated).inv inv)]

variable [LawfulCompactableChonk σ]

theorem findCheckpoint_total (consistent : Consistent storage) (n : Nat) (cursor : AUMHash) :
    ∃ need, findCheckpoint storage n cursor = .ok need := by
  induction n generalizing cursor with
  | zero => exact ⟨true, rfl⟩
  | succ _ ih =>
    rw [findCheckpoint]
    cases read : Chonk.aum storage cursor with
    | error =>
      obtain rfl := aum_error consistent read
      exact ⟨false, rfl⟩
    | ok =>
      dsimp only
      split
      · exact ⟨false, rfl⟩
      split
      · exact ⟨false, rfl⟩
      · exact ih _

/-- `Finalize` and `Inform` succeed and the authority has the state of the builder, up to the digest
of a checkpoint that `Finalize` has added. -/
def Accepted (b : UpdateBuilder) (a : Authority) (storage : σ) : Prop :=
  ∃ aums b' a' storage', b.finalize a storage = (.ok aums, b') ∧
    a.inform storage aums = (.ok (), a', storage') ∧
    { a'.state with lastAUMHash := none } = { b.state with lastAUMHash := none } ∧
    (b.needCheckpoint a storage = .ok false → a'.state = b.state)

theorem Chained.inform (free : CollisionFree U X) (sync : InSync U X storage a)
    (chained : Chained U X a b) (nonempty : b.out ≠ []) (mem : ∀ u ∈ b.out, u ∈ U) :
    ∃ a' storage', a.inform storage b.out = (.ok (), a', storage') ∧ a'.state = b.state := by
  obtain ⟨n, q, trail, lineage⟩ := chained
  obtain ⟨storage', m, t, run, lineage'⟩ := sync.inform_chain free nonempty mem trail
  exact ⟨_, storage', by rw [Authority.inform, run], (lineage'.unique free lineage).2⟩

theorem builder_accepted (free : CollisionFree U X) (run : Reachable U X storage a)
    (built : Built signer a b)
    (trusted : b.needCheckpoint a storage = .ok true →
      Authority.trusts b.state signer.keyID = true)
    (mem : ∀ aums b', b.finalize a storage = (.ok aums, b') → ∀ u ∈ aums, u ∈ U) :
    Accepted b a storage ↔
      (b.out ≠ [] ∨ b.needCheckpoint a storage = .ok true) ∧ b.state.keys ≠ [] ∧
        (b.needCheckpoint a storage = .ok true → b.state.keys.length ≤ maxKeys) := by
  have sync := run.inSync free
  obtain ⟨n, lineage⟩ := sync.lineage free
  have inv := built.inv (by rw [lineage.last, headHash_eq lineage])
  obtain ⟨need, checked⟩ : ∃ need, b.needCheckpoint a storage = .ok need :=
    findCheckpoint_total sync.tree.verified.consistent _ _
  constructor
  · rintro ⟨aums, b', a', storage', finalized, informed, same, -⟩
    have keys : a'.state.keys = b.state.keys := (mk.inj same).2.2.1
    have sync' := (run.inform (mem aums b' finalized) informed).inSync free
    obtain ⟨_, lineage'⟩ := sync'.lineage free
    refine ⟨?_, keys ▸ lineage'.valid.nonempty, fun needed => ?_⟩
    · cases need with
      | true => exact .inr checked
      | false =>
        rw [finalize_out inv checked, Prod.mk.injEq, Except.ok.injEq] at finalized
        obtain ⟨rfl, rfl⟩ := finalized
        refine .inl fun empty => ?_
        rw [empty] at informed
        cases (Prod.mk.inj informed).1
    · exact (checkpoint_static.1 ((finalize_checkpoint inv needed).1 finalized).1.static).1
  · rintro ⟨nonempty, left, few⟩
    cases need with
    | false =>
      have finalized := finalize_out inv checked
      have members := mem _ _ finalized
      obtain ⟨a', storage', informed, state⟩ :=
        (built.chained lineage left members).inform free sync
          (nonempty.resolve_right (by rw [checked]; nofun)) members
      exact ⟨b.out, b, a', storage', finalized, informed, by rw [state], fun _ => state⟩
    | true =>
      have valid := built.valid lineage.valid (by rw [lineage.last, headHash_eq lineage]) left
      obtain ⟨b', emitted, same⟩ := checkpoint_emitted inv (few checked) valid
      have out : b'.out = b.out ++ [signer.complete b (checkpointOf b.state)] := by
        rw [emitted.next]
      have keys : b'.state.keys = b.state.keys := (mk.inj same).2.2.1
      have finalized := (finalize_checkpoint inv checked).2 ⟨emitted, rfl⟩
      have members := mem _ _ finalized
      have chained := built.chained lineage left fun u hu => members u (by simp [out, hu])
      obtain ⟨a', storage', informed, state⟩ :=
        (emitted.chained inv (trusted checked) (keys ▸ left) (members _ (by simp [out]))
          chained).inform free sync (by simp [out]) members
      refine ⟨b'.out, b', a', storage', finalized, informed, by rw [state, same], ?_⟩
      rw [checked]
      nofun

end

section
open Sample

attribute [local instance] Sample.crypto

def firstKey : SingleKey where
  keyID := pub 1
  sign h := pub 1 ++ h.bytes
  keySize := rfl
  size h := by rw [length_append, h.size]; rfl
  verifies h := beq_self_eq_true _

def removal (p : AUM) (i : UInt8) : AUM :=
  sign [1] { AUM.zero with
    messageKind := .removeKey
    keyID := some (pub i)
    prevAUMHash := some p.hash.bytes }

def oneLeft : UpdateBuilder where
  signer := some firstKey.signAUM
  state := { Sample.state with keys := [key 1 2], lastAUMHash := some (removal genesis 2).hash }
  parent := (removal genesis 2).hash
  out := [removal genesis 2]

def noneLeft : UpdateBuilder where
  signer := some firstKey.signAUM
  state := { Sample.state with keys := [], lastAUMHash := some (removal (removal genesis 2) 1).hash }
  parent := (removal (removal genesis 2) 1).hash
  out := [removal genesis 2, removal (removal genesis 2) 1]

theorem oneLeft_built : Built firstKey started oneLeft :=
  .call .start (c := .removeKey (pub 2)) rfl rfl

theorem builder_accepted_one : Accepted oneLeft started (bootstrap memory genesis).2 := by
  have free : CollisionFree {x | x ∈ [genesis, removal genesis 2]} genesis :=
    genesis_free (by decide) (by decide)
  have run := started_reachable (U := {x | x ∈ [genesis, removal genesis 2]}) (by simp)
  have checked : oneLeft.needCheckpoint started (bootstrap memory genesis).2 = .ok false := rfl
  refine (builder_accepted free run oneLeft_built (by rw [checked]; nofun) ?_).2
    ⟨.inl (cons_ne_nil _ _), cons_ne_nil _ _, by rw [checked]; nofun⟩
  intro aums b' finalized
  have value : oneLeft.finalize started (bootstrap memory genesis).2 = (.ok oneLeft.out, oneLeft) := rfl
  rw [value, Prod.mk.injEq, Except.ok.injEq] at finalized
  rw [← finalized.1]
  simp [oneLeft]

/-- All calls and `Finalize` succeed, but `Inform` refuses to remove the last key. -/
theorem builder_removes_last_key :
    Reachable {x | x ∈ [genesis]} genesis (bootstrap memory genesis).2 started ∧
      Built firstKey started noneLeft ∧
      noneLeft.finalize started (bootstrap memory genesis).2 = (.ok noneLeft.out, noneLeft) ∧
      started.inform (bootstrap memory genesis).2 noneLeft.out =
        (.error (.wrap "update 1 invalid" (.errorf "cannot remove the last key in the state")),
          started, (bootstrap memory genesis).2) :=
  ⟨started_reachable (by simp),
    .call oneLeft_built (c := .removeKey (pub 1)) rfl rfl, rfl,
    Prod.ext rfl (Prod.ext rfl rfl)⟩

end

end ScaleTail.TKA
