import ScaleTail.TKA.Authority

/-! # The update builder -/

namespace ScaleTail.TKA

def checkpointEvery : Nat := 50

abbrev Signer := AUMHash → Except Err (List Signature)

structure UpdateBuilder where
  signer : Option Signer
  state : State
  parent : AUMHash
  out : List AUM

def Authority.newUpdater (a : Authority) (signer : Option Signer) : UpdateBuilder :=
  ⟨signer, a.state, a.headHash, []⟩

namespace UpdateBuilder

section
variable [Crypto]

def signatures (b : UpdateBuilder) (update : AUM) : Except Err (List Signature) :=
  match b.signer with
  | none => .ok update.signatures
  | some signAUM =>
    match signAUM update.sigHash with
    | .error err => .error (.wrap "signing failed" err)
    | .ok sigs => .ok (update.signatures ++ sigs)

def mkUpdate (b : UpdateBuilder) (update : AUM) : Except Err UpdateBuilder := do
  let update := { update with prevAUMHash := some b.parent.bytes }
  let signatures ← b.signatures update
  let update := { update with signatures }
  match update.staticValidate with
  | .error err => .error (.wrap "generated update was invalid" err)
  | .ok () =>
    match b.state.applyVerifiedAUM update with
    | .error err => .error (.wrap "update cannot be applied" err)
    | .ok state => .ok { b with state, parent := update.hash, out := b.out ++ [update] }

def addKey (b : UpdateBuilder) (key : Key) : Except Err UpdateBuilder := do
  let keyID ← key.id
  match b.state.getKey keyID with
  | .ok _ => .error (.errorf s!"cannot add key tlpub:{hexEncode lowerHex key.pub}: already exists")
  | .error _ =>
    if maxKeys ≤ b.state.keys.length then
      .error (.errorf
        s!"cannot add key tlpub:{hexEncode lowerHex key.pub}: maximum number of keys reached")
    else b.mkUpdate { AUM.zero with messageKind := .addKey, key := some key }

def changeKey (b : UpdateBuilder) (keyID : Bytes) (update : AUM) : Except Err UpdateBuilder :=
  match b.state.getKey keyID with
  | .error err => .error (.wrap s!"failed reading key {hexEncode lowerHex keyID}" err)
  | .ok _ => b.mkUpdate update

def removeKey (b : UpdateBuilder) (keyID : Bytes) : Except Err UpdateBuilder :=
  b.changeKey keyID { AUM.zero with messageKind := .removeKey, keyID := some keyID }

def setKeyVote (b : UpdateBuilder) (keyID : Bytes) (votes : UInt64) : Except Err UpdateBuilder :=
  b.changeKey keyID
    { AUM.zero with messageKind := .updateKey, votes := some votes, keyID := some keyID }

def setKeyMeta (b : UpdateBuilder) (keyID : Bytes) (metadata : Option Meta) :
    Except Err UpdateBuilder :=
  b.changeKey keyID { AUM.zero with messageKind := .updateKey, metadata, keyID := some keyID }

def replay (state : State) : List (AUM × Nat) → Except Err State
  | [] => .ok state
  | (update, i) :: rest =>
    match state.applyVerifiedAUM update with
    | .error err => .error (.wrap s!"applying update {i}" err)
    | .ok state => replay state rest

def generateCheckpoint (b : UpdateBuilder) (a : Authority) : Except Err UpdateBuilder := do
  let state ← replay a.state b.out.zipIdx
  b.mkUpdate
    { AUM.zero with messageKind := .checkpoint, state := some { state with lastAUMHash := none } }

section
variable {σ : Type} [Chonk σ]

def findCheckpoint (storage : σ) : Nat → AUMHash → Except Err Bool
  | 0, _ => .ok true
  | n + 1, cursor =>
    match Chonk.aum storage cursor with
    | .error .notExist => .ok false
    | .error err => .error (.wrap s!"reading AUM ({cursor.string})" err)
    | .ok aum =>
      if aum.messageKind = .checkpoint then .ok false
      else match aum.parent with
        | none => .ok false
        | some parent => findCheckpoint storage n parent

def needCheckpoint (b : UpdateBuilder) (a : Authority) (storage : σ) : Except Err Bool :=
  findCheckpoint storage (checkpointEvery - b.out.length) a.headHash

def checkHead (b : UpdateBuilder) (a : Authority) : Except Err (List AUM) :=
  match b.out with
  | [] => .ok []
  | first :: rest =>
    let parent := first.parent.getD AUMHash.zero
    if parent ≠ a.headHash then
      .error (.errorf s!"updates no longer apply to head: based on {parent.hex} but head is {a.headHash.hex}")
    else .ok (first :: rest)

def finalize (b : UpdateBuilder) (a : Authority) (storage : σ) :
    Except Err (List AUM) × UpdateBuilder :=
  match b.needCheckpoint a storage with
  | .error err => (.error err, b)
  | .ok false => (b.checkHead a, b)
  | .ok true =>
    match b.generateCheckpoint a with
    | .error err => (.error (.wrap "generating checkpoint" err), b)
    | .ok b => (b.checkHead a, b)

end

end

end UpdateBuilder

end ScaleTail.TKA
