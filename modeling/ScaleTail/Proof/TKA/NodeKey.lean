import ScaleTail.Lib.Validation
import ScaleTail.TKA.NodeKey

/-! # Chains of node-key signatures -/

namespace ScaleTail.TKA

open Lib NodeKeyCrypto List

theorem NodePublic.unmarshal_marshal (node : NodePublic) :
    unmarshalBinary node.marshalBinary = .ok node := by
  have size : node.marshalBinary.length = 34 := by
    simp [marshalBinary, binaryPrefix, node.size]
  rw [unmarshalBinary, if_neg (by simp [marshalBinary, binaryPrefix]), dif_pos size]
  rfl

theorem NodePublic.marshal_unmarshal {data : Bytes} {node : NodePublic}
    (read : unmarshalBinary data = .ok node) : data = node.marshalBinary := by
  unfold unmarshalBinary at read
  rw [ite_error_eq_ok, not_not] at read
  obtain ⟨start, read⟩ := read
  split at read
  · obtain rfl := Except.ok.inj read
    rw [marshalBinary, ← start, take_append_drop]
  · cases read

theorem NodePublic.marshal_ne_nil (node : NodePublic) : 0 < node.marshalBinary.length := by
  simp [marshalBinary, binaryPrefix]

theorem NodePublic.marshal_injective {node node' : NodePublic}
    (same : node.marshalBinary = node'.marshalBinary) : node = node' := by
  have read := unmarshal_marshal node
  rw [same, unmarshal_marshal, Except.ok.injEq] at read
  exact read.symm

namespace NodeKeySignature

def rotations : NodeKeySignature → Nat
  | ⟨.rotation, _, _, _, some inner, _⟩ => inner.rotations + 1
  | _ => 0

def root : NodeKeySignature → NodeKeySignature
  | ⟨.rotation, _, _, _, some inner, _⟩ => inner.root
  | s => s

def nesting : NodeKeySignature → Nat
  | ⟨_, _, _, _, none, _⟩ => 1
  | ⟨_, _, _, _, some inner, _⟩ => inner.nesting + 1

def pubkeys : NodeKeySignature → List Bytes
  | ⟨.rotation, pubkey, _, _, some inner, _⟩ => pubkey :: inner.pubkeys
  | s => if 0 < s.pubkey.length then [s.pubkey] else []

variable {s : NodeKeySignature}

theorem root_eq (kind : s.sigKind ≠ .rotation) : s.root = s ∧ s.rotations = 0 ∧
    s.pubkeys = if 0 < s.pubkey.length then [s.pubkey] else [] := by
  obtain ⟨kind', pubkey, keyID, signature, nested, wrappingPubkey⟩ := s
  cases kind' with
  | rotation => exact absurd rfl kind
  | direct | credential | invalid | other => simp [root, rotations, pubkeys]

theorem not_rotation
    (kind : s.sigKind = .direct ∨ s.sigKind = .credential) : s.sigKind ≠ .rotation := by
  rcases kind with kind | kind <;> simp [kind]

inductive Layered : NodeKeySignature → Prop
  | root {s : NodeKeySignature} (kind : s.sigKind = .direct ∨ s.sigKind = .credential)
      (single : s.nested = none) : Layered s
  | rotation {pubkey keyID signature wrappingPubkey : Bytes} {inner : NodeKeySignature}
      (named : 0 < pubkey.length) (rest : Layered inner) :
      Layered ⟨.rotation, pubkey, keyID, signature, some inner, wrappingPubkey⟩

namespace Layered
variable {s : NodeKeySignature}

theorem nesting_eq (chain : Layered s) : s.nesting = s.rotations + 1 := by
  induction chain with
  | @root s kind single =>
    rw [(root_eq (not_rotation kind)).2.1]
    obtain ⟨kind', pubkey, keyID, signature, nested, wrappingPubkey⟩ := s
    obtain rfl : nested = none := single
    rfl
  | rotation _ _ ih => rw [nesting, rotations, ih]

theorem root_layered (chain : Layered s) :
    Layered s.root ∧ (s.root.sigKind = .direct ∨ s.root.sigKind = .credential) := by
  induction chain with
  | root kind single =>
    rw [(root_eq (not_rotation kind)).1]
    exact ⟨.root kind single, kind⟩
  | rotation _ _ ih =>
    exact ih

theorem prevPubkeysLoop_eq (chain : Layered s) (prev : List Bytes) :
    s.prevPubkeysLoop prev = (prev ++ s.pubkeys, some s.root) := by
  induction chain generalizing prev with
  | @root s kind =>
    obtain ⟨same, -, keys⟩ := root_eq (not_rotation kind)
    rw [same, keys]
    obtain ⟨kind', pubkey, keyID, signature, nested, wrappingPubkey⟩ := s
    rcases kind with rfl | rfl <;> by_cases empty : 0 < pubkey.length <;>
      simp [prevPubkeysLoop, empty]
  | rotation named _ ih =>
    rw [prevPubkeysLoop, if_pos named, ih, pubkeys, NodeKeySignature.root, append_assoc,
      singleton_append]

theorem pubkeys_length (chain : Layered s) :
    s.pubkeys.length = s.rotations + if 0 < s.root.pubkey.length then 1 else 0 := by
  induction chain with
  | root kind =>
    obtain ⟨same, none, keys⟩ := root_eq (not_rotation kind)
    rw [same, none, keys]
    split <;> simp
  | rotation _ _ ih =>
    rw [pubkeys, length_cons, ih, rotations, NodeKeySignature.root]
    omega

end Layered

theorem nestedPublic_total {inner : NodeKeySignature} (named : inner.sigKind ≠ .credential → ∃ node : NodePublic,
    inner.pubkey = node.marshalBinary) : ∃ node, inner.nestedPublic = .ok node ∧
      (inner.sigKind ≠ .credential → inner.pubkey = node.marshalBinary) := by
  by_cases kind : inner.sigKind = .credential
  · exact ⟨NodePublic.zero, by rw [nestedPublic, if_neg (not_not.2 kind)], fun other => absurd kind other⟩
  obtain ⟨node, same⟩ := named kind
  refine ⟨node, ?_, fun _ => same⟩
  rw [nestedPublic, if_pos kind, same, mapError_eq_ok, NodePublic.unmarshal_marshal]

inductive Certified [NodeKeyCrypto] (key : Key) : NodeKeySignature → Prop
  | root {s : NodeKeySignature} (kind : s.sigKind = .direct ∨ s.sigKind = .credential)
      (named : s.sigKind = .direct → ∃ node : NodePublic, s.pubkey = node.marshalBinary)
      (verified : s.verifyRoot key = .ok ()) : Certified key s
  | rotation {pubkey keyID signature wrappingPubkey : Bytes} {inner : NodeKeySignature}
      (named : ∃ node : NodePublic, pubkey = node.marshalBinary)
      (signed : verifyWrapping ⟨.rotation, pubkey, keyID, signature, some inner, wrappingPubkey⟩ inner =
        .ok ())
      (rest : Certified key inner) :
      Certified key ⟨.rotation, pubkey, keyID, signature, some inner, wrappingPubkey⟩

section
variable [NodeKeyCrypto] {s inner r : NodeKeySignature} {key : Key} {node : NodePublic}

theorem verifySignature_rotation {pubkey keyID signature wrappingPubkey : Bytes} :
    verifySignature ⟨.rotation, pubkey, keyID, signature, some inner, wrappingPubkey⟩ node key =
      .ok () ↔ pubkey = node.marshalBinary ∧
        verifyWrapping ⟨.rotation, pubkey, keyID, signature, some inner, wrappingPubkey⟩ inner =
          .ok () ∧
        ∃ nestedPub, inner.nestedPublic = .ok nestedPub ∧ inner.verifySignature nestedPub key = .ok () := by
  rw [verifySignature, ite_error_eq_ok, seq_eq_ok, bind_eq_ok]
  simp only [mapError_eq_ok]
  refine and_congr_left fun _ => ?_
  simp [eq_comm]

theorem verifySignature_root (notRotation : s.sigKind ≠ .rotation ∨ s.nested = none) :
    s.verifySignature node key = .ok () ↔ (s.sigKind = .direct ∨ s.sigKind = .credential) ∧
      (s.sigKind ≠ .credential → s.pubkey = node.marshalBinary) ∧ s.verifyRoot key = .ok () := by
  obtain ⟨kind, pubkey, keyID, signature, nested, wrappingPubkey⟩ := s
  have same_comm : node.marshalBinary = pubkey ↔ pubkey = node.marshalBinary := eq_comm
  cases kind with
  | direct =>
    rw [verifySignature, ite_error_eq_ok]
    simp [same_comm]
  | credential =>
    rw [verifySignature, ite_error_eq_ok]
    simp
  | rotation =>
    obtain rfl : nested = none := notRotation.resolve_left (not_not.2 rfl)
    simp [verifySignature, ite_error_eq_ok]
  | invalid | other => simp [verifySignature, ite_error_eq_ok]

theorem Certified.named (certified : Certified key s) (kind : s.sigKind ≠ .credential) :
    ∃ node : NodePublic, s.pubkey = node.marshalBinary := by
  cases certified with
  | root kinds named => exact named (kinds.resolve_right kind)
  | rotation named => exact named

theorem verifySignature_ok : s.verifySignature node key = .ok () ↔
    Certified key s ∧ (s.sigKind ≠ .credential → s.pubkey = node.marshalBinary) := by
  induction s using rotations.induct generalizing node with
  | case1 _ _ _ _ _ ih =>
    rw [verifySignature_rotation]
    constructor
    · rintro ⟨named, signed, nestedPub, -, rest⟩
      exact ⟨.rotation ⟨node, named⟩ signed (ih.1 rest).1, fun _ => named⟩
    · rintro ⟨certified, named⟩
      cases certified with
      | root kinds => rcases kinds with kind | kind <;> cases kind
      | rotation _ signed rest =>
        obtain ⟨nestedPub, read, same⟩ := nestedPublic_total rest.named
        exact ⟨named nofun, signed, nestedPub, read, ih.2 ⟨rest, same⟩⟩
  | case2 s other =>
    have notRotation : s.sigKind ≠ .rotation ∨ s.nested = none := by
      obtain ⟨kind, pubkey, keyID, signature, nested, wrappingPubkey⟩ := s
      cases nested with
      | none => exact .inr rfl
      | some =>
        refine .inl fun kind => ?_
        subst kind
        exact other _ _ _ _ _ rfl
    rw [verifySignature_root notRotation]
    constructor
    · rintro ⟨kinds, named, verified⟩
      exact ⟨.root kinds (fun direct => ⟨node, named (by simp [direct])⟩) verified, named⟩
    · rintro ⟨certified, named⟩
      cases certified with
      | root kinds _ verified => exact ⟨kinds, named, verified⟩
      | rotation => exact absurd rfl (other _ _ _ _ _)

theorem verifyRoot_nested (verified : s.verifyRoot key = .ok ()) : s.nested = none := by
  rw [verifyRoot, ite_error_eq_ok] at verified
  simpa using verified.1

namespace Certified

section
variable (certified : Certified key s)
include certified

theorem layered : Layered s := by
  induction certified with
  | root kind _ verified => exact .root kind (verifyRoot_nested verified)
  | rotation named _ _ ih =>
    obtain ⟨node, rfl⟩ := named
    exact .rotation node.marshal_ne_nil ih

theorem root_certified : Certified key s.root := by
  induction certified with
  | root kind named verified =>
    rw [(root_eq (not_rotation kind)).1]
    exact .root kind named verified
  | rotation _ _ _ ih =>
    exact ih

theorem authorizingKeyID_eq :
    s.authorizingKeyID = s.root.authorizingKeyID := by
  induction certified with
  | root kind => rw [(root_eq (not_rotation kind)).1]
  | rotation _ _ _ ih => rw [authorizingKeyID, NodeKeySignature.root, ih]

theorem pubkeys_named :
    ∀ pubkey ∈ s.pubkeys.take s.rotations, ∃ node : NodePublic, pubkey = node.marshalBinary := by
  induction certified with
  | root kind =>
    rw [(root_eq (not_rotation kind)).2.1]
    simp
  | rotation named _ _ ih =>
    exact forall_mem_cons.2 ⟨named, ih⟩

theorem rotationLoop_ok (prev : List NodePublic) :
    (∃ details, s.rotationLoop prev = .ok details) ↔
      (0 < s.root.pubkey.length → ∃ node : NodePublic, s.root.pubkey = node.marshalBinary) := by
  induction certified generalizing prev with
  | @root s kind =>
    rw [(root_eq (not_rotation kind)).1]
    have unmarshal (pubkey : Bytes) : (∃ node, NodePublic.unmarshalBinary pubkey = .ok node) ↔
        ∃ node : NodePublic, pubkey = node.marshalBinary :=
      ⟨fun ⟨node, read⟩ => ⟨node, NodePublic.marshal_unmarshal read⟩,
        fun ⟨node, same⟩ => ⟨node, same ▸ node.unmarshal_marshal⟩⟩
    obtain ⟨kind', pubkey, keyID, signature, nested, wrappingPubkey⟩ := s
    rcases kind with rfl | rfl <;> by_cases empty : 0 < pubkey.length <;>
      simp [rotationLoop, empty, bind_eq_ok, ← unmarshal]
  | rotation named _ _ ih =>
    obtain ⟨node, rfl⟩ := named
    rw [rotationLoop, if_pos node.marshal_ne_nil, node.unmarshal_marshal, NodeKeySignature.root]
    exact ih _

end

end Certified

structure Authorized (a : Authority) (key : Key) (node : NodePublic) (s : NodeKeySignature) : Prop where
  kind : s.sigKind ≠ .credential
  keyID : ∃ kID, s.root.authorizingKeyID = .ok kID ∧ a.state.getKey kID = .ok key
  certified : Certified key s
  named : s.pubkey = node.marshalBinary
  readable : 0 < s.root.pubkey.length → ∃ node : NodePublic, s.root.pubkey = node.marshalBinary

variable {a : Authority}

theorem rotationDetails_ok (certified : Certified key s) (kind : s.sigKind ≠ .credential) :
    (∃ details, s.rotationDetails = .ok details) ↔
      (0 < s.root.pubkey.length → ∃ node : NodePublic, s.root.pubkey = node.marshalBinary) := by
  cases certified with
  | root kinds named =>
    have direct := kinds.resolve_right kind
    rw [(root_eq (not_rotation kinds)).1, rotationDetails, if_pos (not_rotation kinds)]
    exact iff_of_true ⟨_, rfl⟩ fun _ => named direct
  | rotation _ _ rest =>
    rw [NodeKeySignature.root, ← rest.rotationLoop_ok [], rotationDetails, if_neg (not_not.2 rfl)]
    simp [bind_eq_ok]

theorem decodedAuthorized_ok :
    (∃ details, a.decodedAuthorized node s = .ok details) ↔ ∃ key, Authorized a key node s := by
  simp only [Authority.decodedAuthorized, ite_error_eq_ok, bind_eq_ok, mapError_eq_ok]
  constructor
  · rintro ⟨details, kind, kID, keyID, key, found, _, verified, ok⟩
    obtain ⟨certified, named⟩ := verifySignature_ok.1 verified
    rw [certified.authorizingKeyID_eq] at keyID
    exact ⟨key, kind, ⟨kID, keyID, found⟩, certified, named kind,
      (rotationDetails_ok certified kind).1 ⟨details, ok⟩⟩
  · rintro ⟨key, kind, ⟨kID, keyID, found⟩, certified, named, readable⟩
    obtain ⟨details, ok⟩ := (rotationDetails_ok certified kind).2 readable
    rw [← certified.authorizingKeyID_eq] at keyID
    exact ⟨details, kind, kID, keyID, key, found, (), verifySignature_ok.2 ⟨certified, fun _ => named⟩, ok⟩

variable {nks : MarshaledSignature} {pubkeys : List Bytes}

theorem nodeKeyAuthorized_ok : a.nodeKeyAuthorized node nks = .ok () ↔
    ∃ s key, unserialize nks = .ok s ∧ Authorized a key node s := by
  have details : a.nodeKeyAuthorized node nks = .ok () ↔
      ∃ details, a.nodeKeyAuthorizedWithDetails node nks = .ok details := by
    simp [Authority.nodeKeyAuthorized, bind_eq_ok]
  rw [details]
  simp only [Authority.nodeKeyAuthorizedWithDetails, bind_eq_ok, mapError_eq_ok]
  rw [exists_comm]
  refine exists_congr fun s => ?_
  rw [exists_and_left, exists_and_left, decodedAuthorized_ok]

variable {priv : NLPrivate}

def stack (priv : NLPrivate) (r : NodeKeySignature) (pubkeys : List Bytes) : NodeKeySignature :=
  pubkeys.foldr (fun pubkey s => rotate priv pubkey (some s)) r

theorem rotate_root (pubkey : Bytes) : (rotate priv pubkey (some s)).root = s.root := rfl

theorem rotate_rotations (pubkey : Bytes) :
    (rotate priv pubkey (some s)).rotations = s.rotations + 1 := rfl

theorem verifyWrapping_ok {pub : Bytes} (wrapping : inner.wrappingPublic = some pub)
    (size : pub.length = publicKeySize)
    (valid : NodeKeyCrypto.verify pub s.sigHash s.signature = true) :
    s.verifyWrapping inner = .ok () := by
  rw [verifyWrapping, wrapping]
  dsimp only
  rw [if_neg (not_not.2 size), if_pos valid]

theorem rotate_signed (pubkey : Bytes) (wrapping : s.wrappingPublic = some priv.pub) :
    (rotate priv pubkey (some s)).verifyWrapping s = .ok () :=
  verifyWrapping_ok wrapping priv.size (priv.verifies (rotate priv pubkey (some s)).sigHash)

theorem Certified.rotate (certified : Certified key s) (wrapping : s.wrappingPublic = some priv.pub)
    (node : NodePublic) : Certified key (rotate priv node.marshalBinary (some s)) :=
  .rotation ⟨node, rfl⟩ (rotate_signed _ wrapping) certified

theorem stack_spec (wrapping : r.wrappingPublic = some priv.pub) (certified : Certified key r)
    (named : ∀ pubkey ∈ pubkeys, ∃ node : NodePublic, pubkey = node.marshalBinary) :
    Certified key (stack priv r pubkeys) ∧ (stack priv r pubkeys).wrappingPublic = some priv.pub := by
  induction pubkeys with
  | nil => exact ⟨certified, wrapping⟩
  | cons _ _ ih =>
    obtain ⟨⟨node, rfl⟩, rest⟩ := forall_mem_cons.1 named
    obtain ⟨before, wrapping'⟩ := ih rest
    exact ⟨before.rotate wrapping' node, wrapping'⟩

theorem stack_chain (priv : NLPrivate) (r : NodeKeySignature) (pubkeys : List Bytes) :
    (stack priv r pubkeys).root = r.root ∧
      (stack priv r pubkeys).rotations = pubkeys.length + r.rotations := by
  induction pubkeys with
  | nil => simp [stack]
  | cons _ _ ih =>
    refine ⟨ih.1, ?_⟩
    rw [stack, foldr_cons, ← stack, rotate_rotations, ih.2, length_cons]
    omega

theorem rebuildLoop_eq (prev : List Bytes) {i : Nat} (le : i ≤ prev.length) :
    rebuildLoop priv prev i (some r) = some (stack priv r (prev.take i)) := by
  induction i generalizing r with
  | zero => rfl
  | succ i ih =>
    rw [rebuildLoop, ih (by omega), ← take_append_getElem (by omega : i < prev.length), stack,
      stack, foldr_append, getD_eq_getElem _ _ (by omega)]
    rfl

theorem stack_pubkeys : (stack priv r pubkeys).pubkeys = pubkeys ++ r.pubkeys := by
  induction pubkeys with
  | nil => rfl
  | cons _ _ ih =>
    rw [cons_append, ← ih]
    rfl

theorem Layered.stack (chain : Layered r)
    (nonempty : ∀ pubkey ∈ pubkeys, 0 < pubkey.length) : Layered (stack priv r pubkeys) := by
  induction pubkeys with
  | nil => exact chain
  | cons _ _ ih =>
    obtain ⟨here, rest⟩ := forall_mem_cons.1 nonempty
    exact .rotation here (ih rest)

def trimmed (priv : NLPrivate) (s : NodeKeySignature) : NodeKeySignature :=
  if s.pubkeys.length ≤ maxPrevKeys then s
  else stack priv s.root (s.pubkeys.take (maxPrevKeys - 1))

theorem Layered.trim (chain : Layered s) : s.maybeTrimRotationSignatureChain priv = .ok (trimmed priv s) := by
  cases chain with
  | root kind =>
    rw [maybeTrimRotationSignatureChain, if_pos (not_rotation kind), trimmed, if_pos]
    rw [(root_eq (not_rotation kind)).2.2]
    split <;> simp [maxPrevKeys]
  | @rotation _ _ _ _ _ _ rest =>
    rw [maybeTrimRotationSignatureChain, if_neg (not_not.2 rfl)]
    dsimp only
    rw [rest.prevPubkeysLoop_eq, trimmed, pubkeys, NodeKeySignature.root, singleton_append]
    split
    · rfl
    next long => rw [rebuildLoop_eq _ (by simp only [maxPrevKeys] at long ⊢; omega)]

theorem stack_trimmed (priv : NLPrivate) (chain : Layered s) (long : ¬ s.pubkeys.length ≤ maxPrevKeys) :
    (stack priv s.root (s.pubkeys.take (maxPrevKeys - 1))).root = s.root ∧
      (stack priv s.root (s.pubkeys.take (maxPrevKeys - 1))).rotations = maxPrevKeys - 1 := by
  obtain ⟨same, none, -⟩ := root_eq (not_rotation chain.root_layered.2)
  obtain ⟨rooted, size⟩ := stack_chain priv s.root (s.pubkeys.take (maxPrevKeys - 1))
  refine ⟨rooted.trans same, ?_⟩
  rw [size, none, length_take]
  omega

theorem resignNKS_eq (priv : NLPrivate) (decoded : unserialize nks = .ok s) (chain : Layered s)
    (node : NodePublic) : resignNKS priv node nks = .ok (if node.marshalBinary = s.pubkey then nks
      else serialize (rotate priv node.marshalBinary (some (trimmed priv s)))) := by
  rw [resignNKS, mapError_eq_ok.2 decoded, ok_bind]
  split
  · rfl
  · rw [mapError_eq_ok.2 chain.trim, ok_bind]

theorem Authorized.rotate (authorized : Authorized a key node s)
    (certified : Certified key inner) (same : inner.root = s.root)
    (wrapping : inner.wrappingPublic = some priv.pub) (node' : NodePublic) :
    Authorized a key node' (NodeKeySignature.rotate priv node'.marshalBinary (some inner)) where
  kind := nofun
  keyID := by
    rw [rotate_root, same]
    exact authorized.keyID
  certified := certified.rotate wrapping node'
  named := rfl
  readable := by
    rw [rotate_root, same]
    exact authorized.readable

theorem root_wrappingPublic (kind : r.sigKind ≠ .rotation) :
    r.wrappingPublic = some priv.pub ↔ r.wrappingPubkey = priv.pub := by
  have only : r.wrappingPublic = if 0 < r.wrappingPubkey.length then some r.wrappingPubkey else none := by
    obtain ⟨kind', pubkey, keyID, signature, nested, wrappingPubkey⟩ := r
    cases kind' with
    | rotation => exact absurd rfl kind
    | direct | credential | invalid | other => simp [wrappingPublic]
  rw [only]
  split
  · rw [Option.some.injEq]
  rename_i empty
  refine iff_of_false nofun fun same => empty ?_
  rw [same, priv.size]
  decide

end

end NodeKeySignature

end ScaleTail.TKA
