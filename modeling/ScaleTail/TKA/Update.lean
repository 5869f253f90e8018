import ScaleTail.TKA.Types

/-!
# Update messages and the state they act on

`tka/key.go`, `tka/state.go`, `tka/aum.go`, `tka/verify.go` and the verification half of
`tka/tka.go` (`aumVerify`, `checkParent`).
-/

namespace ScaleTail.TKA

def maxDisablementValues : Nat := 32
def maxKeys : Nat := 512
def maxMetaBytes : Nat := 512
def disablementLength : Nat := 32
def publicKeySize : Nat := 32
def signatureSize : Nat := 64

def KeyKind.string : KeyKind → String
  | .invalid => "invalid"
  | .key25519 => "25519"
  | .other code _ => s!"Key?<{code}>"

namespace Key

def id (k : Key) : Except Err Bytes :=
  match k.kind with
  | .key25519 => .ok k.pub
  | kind => .error (.errorf s!"unknown key kind: {kind.string}")

def metaBytes (k : Key) : Nat :=
  match k.metadata with
  | none => 0
  | some m => (m.entries.map fun e => e.1.utf8ByteSize + e.2.utf8ByteSize).sum

def staticValidate (k : Key) : Except Err Unit :=
  if 4096 < k.votes then .error (.errorf s!"excessive key weight: {k.votes} > 4096")
  else if k.votes = 0 then .error (.errorf "key votes must be non-zero")
  else if maxMetaBytes < k.metaBytes then
    .error (.errorf s!"key metadata too big ({k.metaBytes} > {maxMetaBytes})")
  else match k.kind with
    | .key25519 => .ok ()
    | kind => .error (.errorf s!"unrecognized key kind: {kind.string}")

end Key

namespace State

def empty : State := ⟨none, [], [], 0, 0⟩

def getKeyIn (id : Bytes) : List Key → Except Err Key
  | [] => .error .noSuchKey
  | k :: ks => do
      let keyID ← k.id
      if keyID = id then .ok k else getKeyIn id ks

def getKey (s : State) (id : Bytes) : Except Err Key := getKeyIn id s.keys

section
variable [Crypto]

def cloneForUpdate (s : State) (update : AUM) : State :=
  { s with lastAUMHash := some update.hash }

end

def parentMatches (s : State) (update : AUM) : Bool :=
  match s.lastAUMHash with
  | none => true
  | some h => h.bytes = update.prevAUMHash.getD []

def removeKeyIn (id : Bytes) : List Key → Except Err (List Key)
  | [] => .error .noSuchKey
  | k :: ks => do
      let keyID ← k.id
      if id = keyID then .ok ks
      else do
        let rest ← removeKeyIn id ks
        .ok (k :: rest)

def replaceKeyIn (id : Bytes) (k' : Key) : List Key → Except Err (List Key)
  | [] => .ok []
  | k :: ks => do
      let keyID ← k.id
      let rest ← replaceKeyIn id k' ks
      .ok ((if keyID = id then k' else k) :: rest)

section
variable [Crypto]

def applyVerifiedAUM (s : State) (update : AUM) : Except Err State :=
  if s.parentMatches update = false then .error (.errorf "parent AUMHash mismatch")
  else match update.messageKind with
  | .noOp => .ok (s.cloneForUpdate update)
  | .checkpoint =>
    match update.state with
    | none => .error (.errorf "missing checkpoint state")
    | some st =>
      if st.stateID1 = s.stateID1 ∧ st.stateID2 = s.stateID2 then .ok (st.cloneForUpdate update)
      else .error (.errorf "checkpointed state has an incorrect stateID")
  | .addKey =>
    match update.key with
    | none => .error (.errorf "no key to add provided")
    | some key => do
        let keyID ← key.id
        match s.getKey keyID with
        | .ok _ => .error (.errorf "key already exists")
        | .error _ => .ok { s.cloneForUpdate update with keys := s.keys ++ [key] }
  | .updateKey => do
      let k ← s.getKey (update.keyID.getD [])
      let k := { k with
        votes := update.votes.getD k.votes
        metadata := update.metadata <|> k.metadata }
      match k.staticValidate with
      | .error err => .error (.wrap "updated key fails validation" err)
      | .ok () => do
          let keys ← replaceKeyIn (update.keyID.getD []) k s.keys
          .ok { s.cloneForUpdate update with keys }
  | .removeKey => do
      let keys ← removeKeyIn (update.keyID.getD []) s.keys
      .ok { s.cloneForUpdate update with keys }
  | _ => .ok (s.cloneForUpdate update)

end

def validateDisablement (all : List Bytes) (ds : Bytes × Nat) : Except Err Unit :=
  if ds.1.length ≠ disablementLength then
    .error (.errorf
      s!"disablement[{ds.2}]: invalid length (got {ds.1.length}, want {disablementLength})")
  else all.zipIdx.forM fun ds2 =>
    if ds.2 = ds2.2 then .ok ()
    else if ds.1 = ds2.1 then .error (.errorf s!"disablement[{ds.2}]: duplicates disablement[{ds2.2}]")
    else .ok ()

def validateKey (k : Key × Nat) : Except Err Unit :=
  match k.1.staticValidate with
  | .ok () => .ok ()
  | .error err => .error (.wrap s!"key[{k.2}]" err)

def validateDistinct (all : List Key) (k : Key × Nat) : Except Err Unit :=
  all.zipIdx.forM fun k2 =>
    if k.2 = k2.2 then .ok ()
    else match k.1.id, k2.1.id with
      | .error err, _ => .error (.wrap s!"key[{k.2}]" err)
      | _, .error err => .error (.wrap s!"key[{k2.2}]" err)
      | .ok id1, .ok id2 =>
        if id1 = id2 then .error (.errorf s!"key[{k.2}]: duplicates key[{k2.2}]") else .ok ()

def staticValidateCheckpoint (s : State) : Except Err Unit :=
  if s.lastAUMHash.isSome then .error (.errorf "cannot specify a parent AUM")
  else if s.disablementValues.length = 0 then
    .error (.errorf "at least one disablement secret required")
  else if maxDisablementValues < s.disablementValues.length then
    .error (.errorf
      s!"too many disablement values ({s.disablementValues.length}, max {maxDisablementValues})")
  else do
    s.disablementValues.zipIdx.forM (validateDisablement s.disablementValues)
    if s.keys.length = 0 then .error (.errorf "at least one key is required")
    else if maxKeys < s.keys.length then
      .error (.errorf s!"too many keys ({s.keys.length}, max {maxKeys})")
    else do
      s.keys.zipIdx.forM validateKey
      s.keys.zipIdx.forM (validateDistinct s.keys)

end State

namespace AUM

def validateFields (a : AUM) : Except Err Unit :=
  match a.messageKind with
  | .addKey =>
    if a.key.isNone then .error (.errorf "AddKey AUMs must contain a key")
    else if a.keyID.isSome || a.state.isSome || a.votes.isSome || a.metadata.isSome then
      .error (.errorf "AddKey AUMs may only specify a Key")
    else .ok ()
  | .removeKey =>
    if (a.keyID.getD []).length = 0 then .error (.errorf "RemoveKey AUMs must specify a key ID")
    else if a.key.isSome || a.state.isSome || a.votes.isSome || a.metadata.isSome then
      .error (.errorf "RemoveKey AUMs may only specify a KeyID")
    else .ok ()
  | .updateKey =>
    if (a.keyID.getD []).length = 0 then .error (.errorf "UpdateKey AUMs must specify a key ID")
    else if a.metadata.isNone && a.votes.isNone then
      .error (.errorf "UpdateKey AUMs must contain an update to votes or key metadata")
    else if a.key.isSome || a.state.isSome then
      .error (.errorf "UpdateKey AUMs may only specify KeyID, Votes, and Meta")
    else .ok ()
  | .checkpoint =>
    if a.state.isNone then .error (.errorf "Checkpoint AUMs must specify the state")
    else if a.keyID.isSome || a.key.isSome || a.votes.isSome || a.metadata.isSome then
      .error (.errorf "Checkpoint AUMs may only specify State")
    else .ok ()
  | _ => .ok ()

def validateSignature (sig : Signature × Nat) : Except Err Unit :=
  if sig.1.keyID.length ≠ 32 ∨ sig.1.signature.length ≠ signatureSize then
    .error (.errorf s!"signature {sig.2} has missing keyID or malformed signature")
  else .ok ()

def staticValidate (a : AUM) : Except Err Unit := do
  match a.key with
  | none => .ok ()
  | some k => k.staticValidate
  if a.prevAUMHash = some [] then
    .error (.errorf "absent parent must be represented by a nil slice")
  a.signatures.zipIdx.forM validateSignature
  match a.state with
  | none => .ok ()
  | some st =>
    match st.staticValidateCheckpoint with
    | .ok () => .ok ()
    | .error err => .error (.wrap "checkpoint state" err)
  a.validateFields

def weightLoop (state : State) : List Signature → List Bytes → UInt64 → Except Err UInt64
  | [], _, weight => .ok weight
  | sig :: sigs, seen, weight =>
    if sig.keyID.length ≠ 32 then .error (.panic "unexpected: keyIDs are 32 bytes")
    else match state.getKey sig.keyID with
      | .error .noSuchKey => weightLoop state sigs seen weight
      | .error _ => .error (.panic "unknown key kind")
      | .ok key =>
        if sig.keyID ∈ seen then weightLoop state sigs seen weight
        else weightLoop state sigs (sig.keyID :: seen) (weight + key.votes)

def weight (a : AUM) (state : State) : Except Err UInt64 := weightLoop state a.signatures [] 0

end AUM

section
variable [Crypto]

def signatureVerify (sig : Signature) (aumDigest : AUMHash) (key : Key) : Except Err Unit :=
  match key.kind with
  | .key25519 =>
    if key.pub.length ≠ publicKeySize then
      .error (.errorf s!"ed25519 key has wrong length: {key.pub.length}")
    else if Crypto.verify key.pub aumDigest sig.signature then .ok ()
    else .error (.errorf "invalid signature")
  | kind => .error (.errorf s!"unhandled key type: {kind.string}")

def checkParent (aum : AUM) (state : State) : Except Err Unit :=
  match aum.parent with
  | none => .error (.errorf "aum has no parent")
  | some parent =>
    match state.lastAUMHash with
    | none =>
      .error (.errorf "cannot check update parent hash against a state with no previous AUM")
    | some last =>
      if last = parent then .ok ()
      else .error (.errorf
        s!"aum with parent {last.hex} cannot be applied to a state with parent {parent.hex}")

def verifySignatureOf (aum : AUM) (state : State) (sig : Signature × Nat) : Except Err Unit :=
  match state.getKey sig.1.keyID with
  | .error err => .error (.wrap s!"bad keyID on signature {sig.2}" err)
  | .ok key =>
    match signatureVerify sig.1 aum.sigHash key with
    | .ok () => .ok ()
    | .error err => .error (.wrap s!"signature {sig.2}" err)

def removesLastKey (aum : AUM) (state : State) : Bool :=
  match aum.messageKind, state.keys with
  | .removeKey, [key] =>
    match key.id with
    | .ok kid => aum.keyID.getD [] = kid
    | .error _ => false
  | _, _ => false

def aumVerify (aum : AUM) (state : State) (isGenesisAUM : Bool) : Except Err Unit := do
  match aum.staticValidate with
  | .ok () => .ok ()
  | .error err => .error (.wrap "invalid" err)
  if isGenesisAUM then .ok () else checkParent aum state
  if aum.signatures = [] then .error (.errorf "unsigned AUM")
  aum.signatures.zipIdx.forM (verifySignatureOf aum state)
  if removesLastKey aum state then .error (.errorf "cannot remove the last key in the state")

end

end ScaleTail.TKA
