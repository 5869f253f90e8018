import ScaleTail.Proof.TKA.Rotation

/-! # What an accepted node-key signature certifies -/

namespace ScaleTail.TKA

open Lib NodeKeyCrypto List NodeKeySignature

/-- `s` rests on the layer `innermost`, which a trusted key has signed. `wrapping` is the wrapping key
of the nearest layer that carries one, and `keys` are the node keys of the layers that have one. -/
inductive Signed [NodeKeyCrypto] (a : Authority) :
    NodeKeySignature → Bytes → List Bytes → NodeKeySignature → Prop
  | root {s : NodeKeySignature} {key : Key}
      (kind : s.sigKind = .direct ∨ s.sigKind = .credential) (single : s.nested = none)
      (trusted : key ∈ a.state.keys) (id : key.id = .ok s.keyID)
      (valid : verifyConsensus key.pub s.sigHash s.signature = true) :
      Signed a s s.wrappingPubkey ([s.pubkey].filter (· ≠ [])) s
  | rotation {s inner innermost : NodeKeySignature} {wrapping : Bytes} {keys : List Bytes}
      (kind : s.sigKind = .rotation) (nested : s.nested = some inner)
      (rest : Signed a inner wrapping keys innermost) (carried : wrapping ≠ [])
      (valid : verify wrapping s.sigHash s.signature = true) :
      Signed a s (if s.wrappingPubkey = [] then wrapping else s.wrappingPubkey)
        ([s.pubkey].filter (· ≠ []) ++ keys) innermost

namespace NodeKeySignature
variable [NodeKeyCrypto] {s inner : NodeKeySignature} {key : Key} {a : Authority}

theorem verifyWrapping_valid {wrapping : Bytes} (signed : s.verifyWrapping inner = .ok ())
    (carries : inner.wrappingPublic = if wrapping = [] then none else some wrapping) :
    wrapping ≠ [] ∧ verify wrapping s.sigHash s.signature = true := by
  unfold verifyWrapping at signed
  split at signed
  · cases signed
  next pub found =>
    rw [carries] at found
    split at found <;> cases found
    rw [ite_error_eq_ok] at signed
    exact ⟨‹_›, by simpa using signed.2⟩

theorem verifyRoot_valid (verified : s.verifyRoot key = .ok ()) :
    verifyConsensus key.pub s.sigHash s.signature = true := by
  rw [verifyRoot, ite_error_eq_ok] at verified
  obtain ⟨-, verified⟩ := verified
  split at verified
  · rw [ite_error_eq_ok] at verified
    simpa using verified.2
  · cases verified

omit [NodeKeyCrypto] in
theorem rotationLoop_root {prev : List NodePublic} {details : RotationDetails}
    (kind : s.sigKind = .direct ∨ s.sigKind = .credential)
    (ok : s.rotationLoop prev = .ok details) :
    details.prevNodeKeys.map NodePublic.marshalBinary =
        prev.map NodePublic.marshalBinary ++ [s.pubkey].filter (· ≠ []) ∧
      details.initialSig = some s := by
  obtain ⟨kind', pubkey, keyID, signature, nested, wrappingPubkey⟩ := s
  by_cases empty : pubkey = []
  · rw [rotationLoop, if_neg (by simp [empty])] at ok
    rcases kind with rfl | rfl <;> cases ok <;> simp [empty]
  rw [rotationLoop, if_pos (length_pos_iff.2 empty)] at ok
  cases read : NodePublic.unmarshalBinary pubkey with
  | error =>
    rw [read] at ok
    cases ok
  | ok =>
    rw [read] at ok
    obtain rfl := NodePublic.marshal_unmarshal read
    rcases kind with rfl | rfl <;> cases ok <;> simp [empty]

theorem Certified.signed (certified : Certified key s) (trusted : key ∈ a.state.keys)
    (id : key.id = .ok s.root.keyID) : ∃ wrapping keys, Signed a s wrapping keys s.root ∧
      s.wrappingPublic = (if wrapping = [] then none else some wrapping) ∧
      ∀ prev details, s.rotationLoop prev = .ok details →
        details.prevNodeKeys.map NodePublic.marshalBinary =
            prev.map NodePublic.marshalBinary ++ keys ∧
          details.initialSig = some s.root := by
  induction certified with
  | @root s kind _ verified =>
    rw [(root_eq (not_rotation kind)).1] at id ⊢
    refine ⟨_, _, .root kind (verifyRoot_nested verified) trusted id (verifyRoot_valid verified), ?_,
      fun _ _ => rotationLoop_root kind⟩
    obtain ⟨kind', pubkey, keyID, signature, nested, wrappingPubkey⟩ := s
    rcases kind with rfl | rfl <;> cases wrappingPubkey <;> simp [wrappingPublic]
  | @rotation _ _ _ wrappingPubkey _ named signed _ ih =>
    obtain ⟨wrapping, keys, inside, carries, loop⟩ := ih id
    obtain ⟨carried, valid⟩ := verifyWrapping_valid signed carries
    obtain ⟨node, rfl⟩ := named
    refine ⟨_, _, .rotation rfl rfl inside carried valid, ?_, fun prev details ok => ?_⟩
    · cases wrappingPubkey <;> simp [wrappingPublic, carries, carried]
    · rw [rotationLoop, if_pos node.marshal_ne_nil, node.unmarshal_marshal] at ok
      obtain ⟨prevs, initial⟩ := loop _ _ ok
      refine ⟨?_, initial⟩
      simp [prevs, length_pos_iff.1 node.marshal_ne_nil]

end NodeKeySignature

theorem nodeKeyAuthorized_sound [NodeKeyCrypto] {a : Authority} {node : NodePublic}
    {nks : MarshaledSignature} {details : Option RotationDetails}
    (accepted : a.nodeKeyAuthorizedWithDetails node nks = .ok details) :
    ∃ s wrapping prev innermost, unserialize nks = .ok s ∧ s.pubkey = node.marshalBinary ∧
      s.sigKind ≠ .credential ∧ Signed a s wrapping (node.marshalBinary :: prev) innermost ∧
      details.map (fun d => (d.prevNodeKeys.map NodePublic.marshalBinary, d.initialSig)) =
        if s.sigKind = .rotation then some (prev, some innermost) else none := by
  simp only [Authority.nodeKeyAuthorizedWithDetails, Authority.decodedAuthorized, ite_error_eq_ok,
    bind_eq_ok, mapError_eq_ok] at accepted
  obtain ⟨s, decoded, kind, kID, keyID, key, found, _, verified, ok⟩ := accepted
  obtain ⟨certified, named⟩ := verifySignature_ok.1 verified
  obtain ⟨mem, ids⟩ := State.getKeyIn_ok found
  have same : kID = s.root.keyID := by
    have kinds := certified.layered.root_layered.2
    rw [certified.authorizingKeyID_eq] at keyID
    generalize s.root = r at keyID kinds
    obtain ⟨kind', pubkey, keyID', signature, nested, wrappingPubkey⟩ := r
    rcases kinds with rfl | rfl <;> simp [authorizingKeyID, ite_error_eq_ok] at keyID <;>
      exact keyID.2.symm
  have read : [s.pubkey].filter (· ≠ []) = [node.marshalBinary] := by
    simp [named kind, length_pos_iff.1 node.marshal_ne_nil]
  subst same
  cases certified with
  | root kinds _ verified =>
    rw [rotationDetails, if_pos (not_rotation kinds)] at ok
    cases ok
    rw [(root_eq (not_rotation kinds)).1] at ids
    have whole := Signed.root kinds (verifyRoot_nested verified) mem ids (verifyRoot_valid verified)
    rw [read] at whole
    exact ⟨s, _, [], s, decoded, named kind, kind, whole, by simp [not_rotation kinds]⟩
  | rotation _ signed rest =>
    rw [rotationDetails, if_neg (not_not.2 rfl), bind_eq_ok] at ok
    obtain ⟨details, loop, ⟨⟩⟩ := ok
    obtain ⟨wrapping, keys, inside, carries, loops⟩ := rest.signed mem ids
    obtain ⟨carried, valid⟩ := verifyWrapping_valid signed carries
    obtain ⟨prevs, initial⟩ := loops _ _ loop
    have whole := Signed.rotation rfl rfl inside carried valid
    rw [read] at whole
    exact ⟨_, _, keys, _, decoded, named kind, kind, whole, by simp [prevs, initial]⟩

section
open Sample

attribute [local instance] nodeKeyCrypto

theorem credential_sound : ∃ nks details s wrapping prev innermost,
    started.nodeKeyAuthorizedWithDetails (nodeKey 14) nks = .ok details ∧
      unserialize nks = .ok s ∧
      Signed started s wrapping ((nodeKey 14).marshalBinary :: prev) innermost := by
  obtain ⟨details, accepted⟩ := decodedAuthorized_ok.2 ⟨_, credential_held.authorized⟩
  have whole : started.nodeKeyAuthorizedWithDetails (nodeKey 14)
      (serialize (stack (pair 7) credential (nodeKeys 15))) = .ok details := by
    rw [Authority.nodeKeyAuthorizedWithDetails, bind_eq_ok]
    exact ⟨_, mapError_eq_ok.2 credential_held.decoded, accepted⟩
  obtain ⟨s, wrapping, prev, innermost, decoded, -, -, signed, -⟩ := nodeKeyAuthorized_sound whole
  exact ⟨_, details, s, wrapping, prev, innermost, whole, decoded, signed⟩

end

end ScaleTail.TKA
