import ScaleTail.Proof.TKA.NodeKey
import ScaleTail.Proof.TKA.Sample

/-! # Rotation of node keys -/

namespace ScaleTail.TKA

open Lib NodeKeyCrypto List Except

section
variable [NodeKeyCrypto]

open NodeKeySignature

/-- The CBOR decoder undoes the encoder up to its limit, and counts one level for each nested map. -/
structure NestingLimited : Prop where
  bounded : ∀ {nks s}, unserialize nks = .ok s → s.nesting ≤ maxNestedLevels
  roundTrip : ∀ s, s.nesting ≤ maxNestedLevels → unserialize (serialize s) = .ok s
  rejected : ∀ s, maxNestedLevels < s.nesting → ∃ e, unserialize (serialize s) = .error e

def NLPrivate.Exclusive (priv : NLPrivate) : Prop :=
  ∀ pub h, NodeKeyCrypto.verify pub h (priv.sign h) = true → pub = priv.pub

structure Held (a : Authority) (key : Key) (priv : NLPrivate) (r : NodeKeySignature)
    (nks : MarshaledSignature) (node : NodePublic) (s : NodeKeySignature) (j : Nat) : Prop where
  decoded : unserialize nks = .ok s
  authorized : Authorized a key node s
  wrapping : s.wrappingPublic = some priv.pub
  root : s.root = r
  rotations : s.rotations = j

variable {a : Authority} {key : Key} {priv : NLPrivate} {r s : NodeKeySignature}
  {nks : MarshaledSignature} {node : NodePublic} {j : Nat}

section
variable (limited : NestingLimited)
include limited

theorem Held.short (held : Held a key priv r nks node s j) :
    j ≤ maxPrevKeys := by
  have bounded := limited.bounded held.decoded
  rw [held.authorized.certified.layered.nesting_eq, held.rotations] at bounded
  exact Nat.le_of_succ_le_succ bounded

theorem Held.of_authorized (authorized : Authorized a key node s)
    (wrapping : s.wrappingPublic = some priv.pub) (short : s.rotations ≤ maxPrevKeys) :
    Held a key priv s.root (serialize s) node s s.rotations := by
  refine ⟨limited.roundTrip s ?_, authorized, wrapping, rfl, rfl⟩
  rw [authorized.certified.layered.nesting_eq]
  exact Nat.succ_le_succ short

theorem Held.rotate (held : Held a key priv r nks node s j)
    {inner : NodeKeySignature} (certified : Certified key inner) (same : inner.root = r)
    (wrapping : inner.wrappingPublic = some priv.pub) (room : inner.rotations < maxPrevKeys)
    (node' : NodePublic) :
    Held a key priv r (serialize (NodeKeySignature.rotate priv node'.marshalBinary (some inner))) node'
      (NodeKeySignature.rotate priv node'.marshalBinary (some inner)) (inner.rotations + 1) := by
  have next := held.authorized.rotate certified (same.trans held.root.symm) wrapping node'
  rw [← same]
  exact .of_authorized limited next wrapping room

def Retrimmable (priv : NLPrivate) (r : NodeKeySignature) : Prop :=
  0 < r.pubkey.length ∧ r.wrappingPubkey = priv.pub

def change (node node' : NodePublic) : Nat := if node' = node then 0 else 1

theorem Held.resign (held : Held a key priv r nks node s j)
    (node' : NodePublic) (room : j + change node node' ≤ maxPrevKeys ∨ Retrimmable priv r) :
    ∃ nks' s' j', resignNKS priv node' nks = .ok nks' ∧ Held a key priv r nks' node' s' j' ∧
      (j + change node node' ≤ maxPrevKeys → j' = j + change node node') := by
  have certified := held.authorized.certified
  have short := held.short limited
  have counted := certified.layered.pubkeys_length
  rw [held.rotations, held.root] at counted
  rw [resignNKS_eq _ held.decoded certified.layered]
  by_cases same : node' = node
  · subst same
    rw [if_pos held.authorized.named.symm]
    exact ⟨nks, s, j, rfl, held, fun _ => by simp [change]⟩
  have changed : node'.marshalBinary ≠ s.pubkey := by
    rw [held.authorized.named]
    exact fun marshal => same (NodePublic.marshal_injective marshal)
  rw [change, if_neg same] at room ⊢
  rw [if_neg changed, trimmed]
  by_cases few : s.pubkeys.length ≤ maxPrevKeys
  · -- The old signature is wrapped as it is.
    have fits : j < maxPrevKeys := by
      rcases room with room | retrim
      · exact room
      · rw [if_pos retrim.1] at counted
        omega
    rw [if_pos few]
    exact ⟨_, _, _, rfl, held.rotate limited certified held.root held.wrapping
      (held.rotations ▸ fits) node', fun _ => by rw [held.rotations]⟩
  · -- The chain is full, and a shorter one is signed.
    have full : ¬ j + 1 ≤ maxPrevKeys := by
      split at counted <;> omega
    obtain ⟨-, names⟩ := room.resolve_left full
    have kinds := certified.layered.root_layered.2
    have wrapping := (root_wrappingPublic (not_rotation kinds)).2 (held.root ▸ names)
    have named : ∀ pubkey ∈ s.pubkeys.take (maxPrevKeys - 1), ∃ node : NodePublic,
        pubkey = node.marshalBinary := by
      intro pubkey mem
      refine certified.pubkeys_named pubkey ?_
      rw [held.rotations]
      exact take_subset_take_left _ (by omega) mem
    obtain ⟨rebuilt, wrapping'⟩ := stack_spec wrapping certified.root_certified named
    obtain ⟨rooted, size⟩ := stack_trimmed priv certified.layered few
    rw [if_neg few]
    exact ⟨_, _, _, rfl, held.rotate limited rebuilt (rooted.trans held.root) wrapping'
      (by rw [size]; decide) node', fun fits => absurd fits full⟩

end

def changes : NodePublic → List NodePublic → Nat
  | _, [] => 0
  | node, node' :: nodes => change node node' + changes node' nodes

variable {nodes : List NodePublic} {pubkeys : List Bytes} {nks' : MarshaledSignature} {node' :
  NodePublic}

theorem Held.resignAll (limited : NestingLimited) (held : Held a key priv r nks node s j)
    (room : j + changes node nodes ≤ maxPrevKeys ∨ Retrimmable priv r) :
    ∃ nks' s' j', TKA.resignAll priv nodes nks = .ok nks' ∧
      Held a key priv r nks' (nodes.getLastD node) s' j' := by
  induction nodes generalizing nks node s j with
  | nil => exact ⟨nks, s, j, rfl, held⟩
  | cons node' nodes ih =>
    rw [changes] at room
    obtain ⟨nks₁, s₁, j₁, step, held₁, grown⟩ :=
      held.resign limited node' (room.imp_left (by omega))
    have room₁ : j₁ + changes node' nodes ≤ maxPrevKeys ∨ Retrimmable priv r := by
      refine room.imp_left fun room => ?_
      omega
    obtain ⟨nks', s', j', rest, held'⟩ := ih held₁ room₁
    refine ⟨nks', s', j', ?_, ?_⟩
    · rw [TKA.resignAll, step, ok_bind, rest]
    · rwa [getLastD_cons]

def Spoiled (priv : NLPrivate) (r : NodeKeySignature) (nks : MarshaledSignature) : Prop :=
  (∃ e, unserialize nks = .error e) ∨
    0 < r.pubkey.length ∧ r.wrappingPubkey ≠ priv.pub ∧ ∃ pubkeys : List Bytes,
      pubkeys.length = maxPrevKeys ∧ (∀ pubkey ∈ pubkeys, 0 < pubkey.length) ∧
        unserialize nks = .ok (stack priv r pubkeys)

theorem Certified.stack_signed (nonempty : pubkeys ≠ [])
    (certified : Certified key (stack priv r pubkeys)) :
    ∃ pubkey, (NodeKeySignature.rotate priv pubkey (some r)).verifyWrapping r = .ok () := by
  induction pubkeys with
  | nil => exact absurd rfl nonempty
  | cons pubkey pubkeys ih =>
    cases certified with
    | root kind => rcases kind with kind | kind <;> cases kind
    | rotation _ signed rest =>
      cases pubkeys with
      | nil => exact ⟨pubkey, signed⟩
      | cons => exact ih (cons_ne_nil _ _) rest

theorem verifyWrapping_exclusive (exclusive : priv.Exclusive) {pubkey : Bytes}
    (signed : (NodeKeySignature.rotate priv pubkey (some r)).verifyWrapping r = .ok ()) :
    r.wrappingPublic = some priv.pub := by
  unfold verifyWrapping at signed
  split at signed
  · cases signed
  rename_i pub wrapping
  rw [ite_error_eq_ok] at signed
  obtain ⟨-, signed⟩ := signed
  split at signed
  next valid => rw [wrapping, exclusive _ _ valid]
  · cases signed

theorem Spoiled.unauthorized (exclusive : priv.Exclusive) (root : r.sigKind ≠ .rotation)
    (spoiled : Spoiled priv r nks) : a.nodeKeyAuthorized node nks ≠ .ok () := by
  intro accepted
  obtain ⟨s, key, decoded, authorized⟩ := nodeKeyAuthorized_ok.1 accepted
  rcases spoiled with ⟨e, failed⟩ | ⟨-, other, pubkeys, full, -, decoded'⟩
  · rw [decoded] at failed
    cases failed
  · rw [decoded, ok.injEq] at decoded'
    have nonempty : pubkeys ≠ [] := ne_nil_of_length_pos (by rw [full]; decide)
    obtain ⟨pubkey, signed⟩ := Certified.stack_signed nonempty (decoded' ▸ authorized.certified)
    exact other ((root_wrappingPublic root).1 (verifyWrapping_exclusive exclusive signed))

section
variable (limited : NestingLimited) (chain : Layered r) (root : r.sigKind ≠ .rotation)
include limited chain root

theorem Spoiled.of_stack (named : 0 < r.pubkey.length) (other : r.wrappingPubkey ≠ priv.pub)
    (size : pubkeys.length = maxPrevKeys - 1) (nonempty : ∀ pubkey ∈ pubkeys, 0 < pubkey.length)
    (node' : NodePublic) :
    Spoiled priv r (serialize (NodeKeySignature.rotate priv node'.marshalBinary (some (stack priv r pubkeys)))) := by
  have all : ∀ pubkey ∈ node'.marshalBinary :: pubkeys, 0 < pubkey.length :=
    forall_mem_cons.2 ⟨node'.marshal_ne_nil, nonempty⟩
  refine .inr ⟨named, other, node'.marshalBinary :: pubkeys, ?_, all, limited.roundTrip _ ?_⟩
  · rw [length_cons, size]
    rfl
  · change (stack priv r (node'.marshalBinary :: pubkeys)).nesting ≤ _
    rw [(chain.stack all).nesting_eq, (stack_chain priv r _).2, (root_eq root).2.1, length_cons, size]
    decide

theorem Spoiled.resign (spoiled : Spoiled priv r nks)
    (resigned : resignNKS priv node' nks = .ok nks') : Spoiled priv r nks' := by
  rcases spoiled with ⟨e, failed⟩ | ⟨named, other, pubkeys, full, nonempty, decoded⟩
  · rw [resignNKS, failed] at resigned
    cases resigned
  rw [resignNKS_eq _ decoded (chain.stack nonempty), ok.injEq] at resigned
  split at resigned
  · subst resigned
    exact .inr ⟨named, other, pubkeys, full, nonempty, decoded⟩
  have long : ¬ (stack priv r pubkeys).pubkeys.length ≤ maxPrevKeys := by
    rw [stack_pubkeys, (root_eq root).2.2, if_pos named, length_append, full]
    simp
  have front : (stack priv r pubkeys).pubkeys.take (maxPrevKeys - 1) =
      pubkeys.take (maxPrevKeys - 1) := by
    rw [stack_pubkeys, take_append_of_le_length (by rw [full]; decide)]
  rw [trimmed, if_neg long, (stack_chain priv r pubkeys).1, (root_eq root).1, front] at resigned
  subst resigned
  refine .of_stack limited chain root named other ?_ ?_ node'
  · rw [length_take, full]
    decide
  · exact fun pubkey mem => nonempty pubkey (mem_of_mem_take mem)

theorem Spoiled.resignAll (spoiled : Spoiled priv r nks)
    (resigned : TKA.resignAll priv nodes nks = .ok nks') : Spoiled priv r nks' := by
  induction nodes generalizing nks with
  | nil =>
    obtain rfl := ok.inj resigned
    exact spoiled
  | cons _ _ ih =>
    rw [TKA.resignAll, bind_eq_ok] at resigned
    obtain ⟨nks₁, step, rest⟩ := resigned
    exact ih (spoiled.resign limited chain root step) rest

end

theorem Held.spoiled (limited : NestingLimited) (held : Held a key priv r nks node s maxPrevKeys)
    (lost : ¬ Retrimmable priv r) (differ : node' ≠ node)
    (resigned : resignNKS priv node' nks = .ok nks') : Spoiled priv r nks' := by
  have certified := held.authorized.certified
  have chain := certified.layered
  have counted := chain.pubkeys_length
  have changed : node'.marshalBinary ≠ s.pubkey := by
    rw [held.authorized.named]
    exact fun marshal => differ (NodePublic.marshal_injective marshal)
  rw [held.rotations, held.root] at counted
  rw [resignNKS_eq _ held.decoded chain, if_neg changed, ok.injEq] at resigned
  subst resigned
  by_cases named : 0 < r.pubkey.length
  · rw [if_pos named] at counted
    obtain ⟨rootChain, kinds⟩ := chain.root_layered
    rw [held.root] at rootChain kinds
    have long : ¬ s.pubkeys.length ≤ maxPrevKeys := by omega
    rw [trimmed, if_neg long, held.root]
    refine .of_stack limited rootChain (not_rotation kinds) named (fun names => lost ⟨named, names⟩) ?_ ?_ node'
    · rw [length_take, counted]
      decide
    · intro pubkey mem
      have some : pubkey ∈ s.pubkeys.take s.rotations := by
        rw [held.rotations]
        exact take_subset_take_left _ (by decide) mem
      obtain ⟨node, rfl⟩ := certified.pubkeys_named pubkey some
      exact node.marshal_ne_nil
  · rw [if_neg named] at counted
    rw [trimmed, if_pos (by omega)]
    refine .inl (limited.rejected _ ?_)
    rw [(certified.rotate held.wrapping node').layered.nesting_eq, rotate_rotations, held.rotations]
    decide

theorem Held.resignAll_spoiled (limited : NestingLimited) (lost : ¬ Retrimmable priv r)
    (held : Held a key priv r nks node s j) (many : maxPrevKeys < j + changes node nodes)
    (resigned : TKA.resignAll priv nodes nks = .ok nks') : Spoiled priv r nks' := by
  obtain ⟨rootChain, kinds⟩ := held.authorized.certified.layered.root_layered
  rw [held.root] at rootChain kinds
  induction nodes generalizing nks node s j with
  | nil =>
    have := held.short limited
    rw [changes] at many
    omega
  | cons node' _ ih =>
    rw [changes] at many
    rw [TKA.resignAll, bind_eq_ok] at resigned
    obtain ⟨nks₁, step, rest⟩ := resigned
    by_cases fits : j + change node node' ≤ maxPrevKeys
    · obtain ⟨nks₂, s₂, j₂, step', held₂, grown⟩ := held.resign limited node' (.inl fits)
      obtain rfl := ok.inj (step.symm.trans step')
      exact ih held₂ (by rw [grown fits]; omega) rest
    · have short := held.short limited
      have differ : node' ≠ node := by
        rintro rfl
        rw [change, if_pos rfl] at fits
        omega
      rw [change, if_neg differ] at fits
      obtain rfl : j = maxPrevKeys := by omega
      exact (held.spoiled limited lost differ step).resignAll limited rootChain (not_rotation kinds) rest

/-- Rotation keeps a node key authorized exactly while the chain has room for all the changes, or
when its root has a node key and names the key pair that signs the rotations. -/
theorem resign_authorized (limited : NestingLimited) (exclusive : priv.Exclusive)
    (decoded : unserialize nks = .ok s) (accepted : a.nodeKeyAuthorized node nks = .ok ())
    (wrapping : s.wrappingPublic = some priv.pub) (nodes : List NodePublic) :
    (∃ nks' s', resignAll priv nodes nks = .ok nks' ∧ unserialize nks' = .ok s' ∧
      a.nodeKeyAuthorized (nodes.getLastD node) nks' = .ok ()) ↔
    s.rotations + changes node nodes ≤ maxPrevKeys ∨
      0 < s.root.pubkey.length ∧ s.root.wrappingPubkey = priv.pub := by
  obtain ⟨s', key, decoded', authorized⟩ := nodeKeyAuthorized_ok.1 accepted
  obtain rfl := ok.inj (decoded.symm.trans decoded')
  have held : Held a key priv s.root nks node s s.rotations := ⟨decoded, authorized, wrapping, rfl, rfl⟩
  constructor
  · rintro ⟨nks', s', resigned, -, accepted'⟩
    by_contra none
    obtain ⟨many, lost⟩ := not_or.1 none
    have spoiled := held.resignAll_spoiled limited lost (by omega) resigned
    have kinds := authorized.certified.layered.root_layered.2
    exact spoiled.unauthorized exclusive (not_rotation kinds) accepted'
  · intro room
    obtain ⟨nks', s', j, resigned, held'⟩ := held.resignAll limited room
    exact ⟨nks', s', resigned, held'.decoded,
      nodeKeyAuthorized_ok.2 ⟨s', key, held'.decoded, held'.authorized⟩⟩

end

section
open Sample NodeKeySignature

def flat : NodeKeySignature → Bytes
  | ⟨_, pubkey, keyID, signature, none, wrappingPubkey⟩ =>
    pubkey ++ keyID ++ signature ++ wrappingPubkey
  | ⟨_, pubkey, keyID, signature, some inner, wrappingPubkey⟩ =>
    pubkey ++ keyID ++ signature ++ flat inner ++ wrappingPubkey

@[reducible]
def nodeKeyCrypto : NodeKeyCrypto where
  Marshaled := NodeKeySignature
  serialize s := s
  unserialize s :=
    if s.nesting ≤ maxNestedLevels then .ok s
    else .error (.errorf "cbor: exceeded max nested level 16")
  hashNKS := flat
  verify pub h sig := sig == pub ++ h
  verifyConsensus pub h sig := sig == pub ++ h

attribute [local instance] nodeKeyCrypto

theorem nodeKeyCrypto_limited : NestingLimited where
  bounded := by
    intro nks s decoded
    change (if nks.nesting ≤ maxNestedLevels then _ else _) = ok s at decoded
    split at decoded
    next few =>
      obtain rfl := ok.inj decoded
      exact few
    · cases decoded
  roundTrip s few := if_pos few
  rejected s many := ⟨_, if_neg (not_le.2 many)⟩

def pair (i : UInt8) : NLPrivate :=
  ⟨pub i, length_replicate, fun h => pub i ++ h, fun _ => beq_self_eq_true _⟩

theorem pair_exclusive (i : UInt8) : (pair i).Exclusive := by
  intro pub h valid
  exact (append_cancel_right (beq_iff_eq.1 valid)).symm

def nodeKey (i : UInt8) : NodePublic := ⟨pub i, length_replicate⟩

def signedRoot (kind : SigKind) (pubkey : Bytes) (wrapping : UInt8) : NodeKeySignature :=
  let s : NodeKeySignature := ⟨kind, pubkey, pub 1, [], none, pub wrapping⟩
  { s with signature := pub 1 ++ s.sigHash }

theorem signedRoot_verified (kind : SigKind) (pubkey : Bytes) (wrapping : UInt8) :
    (signedRoot kind pubkey wrapping).verifyRoot (key 1 2) = .ok () := by
  have valid : (pub 1 ++ (signedRoot kind pubkey wrapping).sigHash ==
      pub 1 ++ (signedRoot kind pubkey wrapping).sigHash) = true := beq_self_eq_true _
  rw [verifyRoot, if_neg (by simp [signedRoot])]
  exact (if_neg (by decide)).trans (if_pos valid)

def direct : NodeKeySignature := signedRoot .direct (nodeKey 0).marshalBinary 7

theorem direct_accepted : started.nodeKeyAuthorized (nodeKey 0) direct = .ok () := by
  have certified : Certified (key 1 2) direct :=
    .root (.inl rfl) (fun _ => ⟨nodeKey 0, rfl⟩) (signedRoot_verified _ _ _)
  exact nodeKeyAuthorized_ok.2 ⟨direct, key 1 2, rfl, nofun, ⟨pub 1, rfl, rfl⟩, certified, rfl,
    fun _ => ⟨nodeKey 0, rfl⟩⟩

theorem resign_authorized_direct : ∃ nks s, resignAll (pair 7) ((List.range' 1 40).map fun i =>
    nodeKey (UInt8.ofNat i)) direct = .ok nks ∧ unserialize nks = .ok s ∧
      started.nodeKeyAuthorized (nodeKey 40) nks = .ok () := by
  have room := (resign_authorized nodeKeyCrypto_limited (pair_exclusive 7) rfl direct_accepted rfl
    ((List.range' 1 40).map fun i => nodeKey (UInt8.ofNat i))).2 (.inr ⟨by decide, rfl⟩)
  exact room

def nodeKeys : Nat → List Bytes
  | 0 => []
  | n + 1 => (nodeKey (UInt8.ofNat n)).marshalBinary :: nodeKeys n

theorem nodeKeys_named (n : Nat) :
    ∀ pubkey ∈ nodeKeys n, ∃ node : NodePublic, pubkey = node.marshalBinary := by
  induction n with
  | zero => exact nofun
  | succ _ ih => exact forall_mem_cons.2 ⟨⟨_, rfl⟩, ih⟩

theorem stack_held {r : NodeKeySignature} (certified : Certified (key 1 2) r)
    (wrapping : r.wrappingPublic = some (pair 7).pub)
    (keyID : r.root.authorizingKeyID = .ok (pub 1))
    (readable : 0 < r.root.pubkey.length → ∃ node : NodePublic, r.root.pubkey = node.marshalBinary)
    {n : Nat} (full : n + 1 + r.rotations = maxPrevKeys) :
    Held started (key 1 2) (pair 7) r.root (serialize (stack (pair 7) r (nodeKeys (n + 1))))
      (nodeKey (UInt8.ofNat n)) (stack (pair 7) r (nodeKeys (n + 1))) maxPrevKeys := by
  obtain ⟨certified', wrapping'⟩ := stack_spec wrapping certified (nodeKeys_named (n + 1))
  obtain ⟨rooted, size⟩ := stack_chain (pair 7) r (nodeKeys (n + 1))
  have length : (nodeKeys (n + 1)).length = n + 1 := by
    clear * -
    induction n with
    | zero => rfl
    | succ _ ih => rw [nodeKeys, length_cons, ih]
  rw [length, full] at size
  have authorized : Authorized started (key 1 2) (nodeKey (UInt8.ofNat n))
      (stack (pair 7) r (nodeKeys (n + 1))) :=
    ⟨nofun, ⟨pub 1, rooted ▸ keyID, rfl⟩, certified', rfl, rooted ▸ readable⟩
  have held := Held.of_authorized nodeKeyCrypto_limited authorized wrapping' size.le
  rwa [rooted, size] at held

def credential : NodeKeySignature := signedRoot .credential [] 7

theorem credential_held : Held started (key 1 2) (pair 7) credential.root
    (serialize (stack (pair 7) credential (nodeKeys 15))) (nodeKey 14)
    (stack (pair 7) credential (nodeKeys 15)) maxPrevKeys := by
  have root : Certified (key 1 2) credential :=
    .root (.inr rfl) (fun direct => absurd direct (by decide)) (signedRoot_verified _ _ _)
  exact stack_held root rfl rfl (fun named => absurd named (by decide)) rfl

def handed : NodeKeySignature :=
  let s : NodeKeySignature := ⟨.rotation, (nodeKey 15).marshalBinary, [], [],
    some (signedRoot .direct (nodeKey 16).marshalBinary 8), pub 7⟩
  { s with signature := pub 8 ++ s.sigHash }

theorem handed_certified : Certified (key 1 2) handed := by
  have root : Certified (key 1 2) (signedRoot .direct (nodeKey 16).marshalBinary 8) :=
    .root (.inl rfl) (fun _ => ⟨nodeKey 16, rfl⟩) (signedRoot_verified _ _ _)
  have valid : (pub 8 ++ handed.sigHash == pub 8 ++ handed.sigHash) = true := beq_self_eq_true _
  have wrapping : (signedRoot .direct (nodeKey 16).marshalBinary 8).wrappingPublic = some (pub 8) := rfl
  exact .rotation ⟨nodeKey 15, rfl⟩ (verifyWrapping_ok wrapping length_replicate valid) root

/-- Two authorized signatures for which the next node key is not authorized: after fifteen rotations of
a credential the new signature cannot be decoded, and after fifteen rotations of which the first one
hands over to another key the shorter chain is not valid. -/
theorem resign_loses_authorization :
    (∃ nks node s, unserialize nks = .ok s ∧ s.wrappingPublic = some (pair 7).pub ∧
      started.nodeKeyAuthorized node nks = .ok () ∧
      ∃ nks' e, resignNKS (pair 7) (nodeKey 20) nks = .ok nks' ∧ unserialize nks' = .error e) ∧
    ∃ nks node s, unserialize nks = .ok s ∧ s.wrappingPublic = some (pair 7).pub ∧
      started.nodeKeyAuthorized node nks = .ok () ∧
      ∃ nks', resignNKS (pair 7) (nodeKey 20) nks = .ok nks' ∧
        started.nodeKeyAuthorized (nodeKey 20) nks' ≠ .ok () := by
  constructor
  · have held := credential_held
    have layered := held.authorized.certified.layered
    have changed : (nodeKey 20).marshalBinary ≠ (stack (pair 7) credential (nodeKeys 15)).pubkey := by
      decide
    have few : (stack (pair 7) credential (nodeKeys 15)).pubkeys.length ≤ maxPrevKeys := by
      decide
    have resigned := resignNKS_eq (pair 7) held.decoded layered (nodeKey 20)
    obtain ⟨e, rejected⟩ := nodeKeyCrypto_limited.rejected
      (rotate (pair 7) (nodeKey 20).marshalBinary (some (stack (pair 7) credential (nodeKeys 15)))) (by
        rw [(held.authorized.certified.rotate held.wrapping (nodeKey 20)).layered.nesting_eq,
          rotate_rotations, held.rotations]
        decide)
    exact ⟨_, _, _, held.decoded, held.wrapping,
      nodeKeyAuthorized_ok.2 ⟨_, _, held.decoded, held.authorized⟩, _, e, resigned, rejected⟩
  · have held := stack_held (n := 13) handed_certified rfl rfl (fun _ => ⟨nodeKey 16, rfl⟩) rfl
    have resigned := resignNKS_eq (pair 7) held.decoded held.authorized.certified.layered (nodeKey 20)
    have lost : ¬ Retrimmable (pair 7) handed.root := fun retrim => absurd retrim.2 (by decide)
    have spoiled := held.spoiled nodeKeyCrypto_limited lost (by decide) resigned
    exact ⟨_, _, _, held.decoded, held.wrapping,
      nodeKeyAuthorized_ok.2 ⟨_, _, held.decoded, held.authorized⟩, _, resigned,
      spoiled.unauthorized (pair_exclusive 7) (by decide)⟩

end

end ScaleTail.TKA
