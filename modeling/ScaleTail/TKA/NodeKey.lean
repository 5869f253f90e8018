import ScaleTail.TKA.Authority

/-!
# Node-key signatures

`NodeKeySignature` of `tka/sig.go`: how a node key is authorized by the Tailnet Key Authority, and
how a node signs its next key with `ResignNKS`.
-/

namespace ScaleTail.TKA

inductive SigKind
  | invalid
  | direct
  | rotation
  | credential
  | other (code : UInt8) (unknown : 4 ≤ code)
  deriving DecidableEq

def SigKind.string : SigKind → String
  | .invalid => "invalid"
  | .direct => "direct"
  | .rotation => "rotation"
  | .credential => "credential"
  | .other code _ => s!"Sig?<{code.toNat}>"

structure NodeKeySignature where
  sigKind : SigKind
  pubkey : Bytes
  keyID : Bytes
  signature : Bytes
  nested : Option NodeKeySignature
  wrappingPubkey : Bytes

@[ext]
structure NodePublic where
  k : Bytes
  size : k.length = 32

namespace NodePublic

instance : DecidableEq NodePublic := fun a b => decidable_of_iff (a.k = b.k) NodePublic.ext_iff.symm

theorem zero_size : (List.replicate 32 (0 : UInt8)).length = 32 := List.length_replicate

def zero : NodePublic := ⟨List.replicate 32 0, zero_size⟩

def binaryPrefix : Bytes := [0x6e, 0x70]

def marshalBinary (k : NodePublic) : Bytes := binaryPrefix ++ k.k

def unmarshalBinary (data : Bytes) : Except Err NodePublic :=
  if data.take 2 ≠ binaryPrefix then .error (.errorf "missing/incorrect type prefix np")
  else if size : data.length = 34 then
    .ok ⟨data.drop 2, by rw [List.length_drop, size]⟩
  else .error (.errorf s!"incorrect len for NodePublic ({data.length} != {34})")

end NodePublic

def maxNestedLevels : Nat := 16

/-- What the code takes from third-party packages: the CTAP2 CBOR codec, BLAKE2s of the encoding,
`ed25519.Verify` and `ed25519consensus.Verify`. -/
class NodeKeyCrypto where
  Marshaled : Type
  serialize : NodeKeySignature → Marshaled
  unserialize : Marshaled → Except Err NodeKeySignature
  hashNKS : NodeKeySignature → Bytes
  verify : Bytes → Bytes → Bytes → Bool
  verifyConsensus : Bytes → Bytes → Bytes → Bool

section
variable [NodeKeyCrypto]

abbrev MarshaledSignature : Type := NodeKeyCrypto.Marshaled

structure NLPrivate where
  pub : Bytes
  size : pub.length = publicKeySize
  sign : Bytes → Bytes
  verifies : ∀ h, NodeKeyCrypto.verify pub h (sign h) = true

namespace NodeKeySignature

def sigHash (s : NodeKeySignature) : Bytes := NodeKeyCrypto.hashNKS { s with signature := [] }

end NodeKeySignature

end

namespace NodeKeySignature

def wrappingPublic : NodeKeySignature → Option Bytes
  | ⟨sigKind, _, _, _, nested, wrappingPubkey⟩ =>
    if 0 < wrappingPubkey.length then some wrappingPubkey
    else match sigKind, nested with
      | .rotation, some s => s.wrappingPublic
      | _, _ => none

def authorizingKeyID : NodeKeySignature → Except Err Bytes
  | ⟨sigKind, _, keyID, _, nested, _⟩ =>
    match sigKind with
    | .direct | .credential =>
      if keyID.length = 0 then .error (.errorf "invalid signature: no keyID present")
      else .ok keyID
    | .rotation =>
      match nested with
      | none =>
        .error (.errorf "invalid signature: rotation signature missing nested signature")
      | some s => s.authorizingKeyID
    | kind => .error (.errorf s!"unhandled signature type: {kind.string}")

section
variable [NodeKeyCrypto]

def verifyRoot (s : NodeKeySignature) (verificationKey : Key) : Except Err Unit :=
  if s.nested.isSome then .error (.errorf
    s!"invalid signature: signatures of type {s.sigKind.string} cannot nest another signature")
  else match verificationKey.kind with
    | .key25519 =>
      if verificationKey.pub.length ≠ publicKeySize then
        .error (.errorf s!"ed25519 key has wrong length: {verificationKey.pub.length}")
      else if NodeKeyCrypto.verifyConsensus verificationKey.pub s.sigHash s.signature then .ok ()
      else .error (.errorf "invalid signature")
    | kind => .error (.errorf s!"unhandled key type: {kind.string}")

def verifyWrapping (s nested : NodeKeySignature) : Except Err Unit :=
  match nested.wrappingPublic with
  | none => .error (.errorf "missing rotation key")
  | some verifyPub =>
    if verifyPub.length ≠ publicKeySize then
      .error (.errorf s!"bad rotation key length: {verifyPub.length}")
    else if NodeKeyCrypto.verify verifyPub s.sigHash s.signature then .ok ()
    else .error (.errorf "invalid signature")

def nestedPublic (nested : NodeKeySignature) : Except Err NodePublic :=
  if nested.sigKind ≠ .credential then
    (NodePublic.unmarshalBinary nested.pubkey).mapError (.wrap "nested pubkey")
  else .ok NodePublic.zero

def verifySignature : NodeKeySignature → NodePublic → Key → Except Err Unit
  | ⟨sigKind, pubkey, keyID, signature, nested, wrappingPubkey⟩, nodeKey, verificationKey =>
    let s : NodeKeySignature := ⟨sigKind, pubkey, keyID, signature, nested, wrappingPubkey⟩
    if sigKind ≠ .credential ∧ nodeKey.marshalBinary ≠ pubkey then
      .error (.errorf "signature does not authorize nodeKey")
    else match sigKind with
      | .rotation =>
        match nested with
        | none => .error (.errorf "nested signatures must nest a signature")
        | some inner => do
            s.verifyWrapping inner
            let nestedPub ← inner.nestedPublic
            (inner.verifySignature nestedPub verificationKey).mapError (.wrap "nested")
      | .direct | .credential => s.verifyRoot verificationKey
      | kind => .error (.errorf s!"unhandled signature type: {kind.string}")

end

structure RotationDetails where
  prevNodeKeys : List NodePublic
  initialSig : Option NodeKeySignature

def rotationLoop : NodeKeySignature → List NodePublic → Except Err RotationDetails
  | ⟨sigKind, pubkey, keyID, signature, nested, wrappingPubkey⟩, prev => do
      let prev ←
        if 0 < pubkey.length then do
          let nestedPub ← (NodePublic.unmarshalBinary pubkey).mapError (.wrap "nested pubkey")
          .ok (prev ++ [nestedPub])
        else .ok prev
      match sigKind, nested with
      | .rotation, some inner => inner.rotationLoop prev
      | .rotation, none => .ok ⟨prev, none⟩
      | _, _ => .ok ⟨prev, some ⟨sigKind, pubkey, keyID, signature, nested, wrappingPubkey⟩⟩

def rotationDetails (s : NodeKeySignature) : Except Err (Option RotationDetails) :=
  if s.sigKind ≠ .rotation then .ok none
  else match s.nested with
    | none => .ok (some ⟨[], none⟩)
    | some nested => do
        let details ← nested.rotationLoop []
        .ok (some details)

end NodeKeySignature

section
variable [NodeKeyCrypto]

open NodeKeyCrypto

namespace Authority

def decodedAuthorized (a : Authority) (nodeKey : NodePublic) (decoded : NodeKeySignature) :
    Except Err (Option NodeKeySignature.RotationDetails) :=
  if decoded.sigKind = .credential then
    .error (.errorf "credential signatures cannot authorize nodes on their own")
  else do
    let kID ← decoded.authorizingKeyID
    let key ← (a.state.getKey kID).mapError (.wrap "key")
    decoded.verifySignature nodeKey key
    decoded.rotationDetails

def nodeKeyAuthorizedWithDetails (a : Authority) (nodeKey : NodePublic)
    (nodeKeySignature : MarshaledSignature) :
    Except Err (Option NodeKeySignature.RotationDetails) := do
  let decoded ← (unserialize nodeKeySignature).mapError (.wrap "unserialize")
  a.decodedAuthorized nodeKey decoded

def nodeKeyAuthorized (a : Authority) (nodeKey : NodePublic)
    (nodeKeySignature : MarshaledSignature) : Except Err Unit := do
  let _ ← a.nodeKeyAuthorizedWithDetails nodeKey nodeKeySignature
  .ok ()

end Authority

namespace NodeKeySignature

def rotate (priv : NLPrivate) (pubkey : Bytes) (nested : Option NodeKeySignature) :
    NodeKeySignature :=
  let s : NodeKeySignature := ⟨.rotation, pubkey, [], [], nested, []⟩
  { s with signature := priv.sign s.sigHash }

def prevPubkeysLoop : NodeKeySignature → List Bytes → List Bytes × Option NodeKeySignature
  | ⟨sigKind, pubkey, keyID, signature, nested, wrappingPubkey⟩, prev =>
    let prev := if 0 < pubkey.length then prev ++ [pubkey] else prev
    match sigKind, nested with
    | .rotation, some inner => inner.prevPubkeysLoop prev
    | .rotation, none => (prev, none)
    | _, _ => (prev, some ⟨sigKind, pubkey, keyID, signature, nested, wrappingPubkey⟩)

def maxPrevKeys : Nat := 15

def rebuildLoop (priv : NLPrivate) (prevPubkeys : List Bytes) :
    Nat → Option NodeKeySignature → Option NodeKeySignature
  | 0, result => result
  | i + 1, result => rebuildLoop priv prevPubkeys i (some (rotate priv (prevPubkeys.getD i []) result))

def maybeTrimRotationSignatureChain (sig : NodeKeySignature) (priv : NLPrivate) :
    Except Err NodeKeySignature :=
  if sig.sigKind ≠ .rotation then .ok sig
  else
    let (prevPubkeys, nested) := match sig.nested with
      | none => ([sig.pubkey], none)
      | some nested => nested.prevPubkeysLoop [sig.pubkey]
    if prevPubkeys.length ≤ maxPrevKeys then .ok sig
    else match rebuildLoop priv prevPubkeys (maxPrevKeys - 1) nested with
      | none => .error (.panic "invalid memory address or nil pointer dereference")
      | some result => .ok result

end NodeKeySignature

def resignNKS (priv : NLPrivate) (nodeKey : NodePublic) (oldNKS : MarshaledSignature) :
    Except Err MarshaledSignature := do
  let oldSig ← (unserialize oldNKS).mapError (.wrap "decoding NKS")
  if nodeKey.marshalBinary = oldSig.pubkey then .ok oldNKS
  else do
    let nested ← (oldSig.maybeTrimRotationSignatureChain priv).mapError
      (.wrap "trimming rotation signature chain")
    .ok (serialize (NodeKeySignature.rotate priv nodeKey.marshalBinary (some nested)))

def resignAll (priv : NLPrivate) : List NodePublic → MarshaledSignature →
    Except Err MarshaledSignature
  | [], nks => .ok nks
  | nodeKey :: nodeKeys, nks => do
      let nks ← resignNKS priv nodeKey nks
      resignAll priv nodeKeys nks

end

end ScaleTail.TKA
