import ScaleTail.TKA.Update
import ScaleTail.TKA.Chonk

/-! # The key authority -/

namespace ScaleTail.TKA

def maxSyncIter : Nat := 2000
def maxSyncHeadIntersectionIter : Nat := 400
def maxScanIterations : Nat := 2000

structure Authority where
  head : AUM
  oldestAncestor : AUM
  state : State
  deriving DecidableEq

structure Chain where
  oldest : AUM
  head : AUM
  state : State
  chainsThroughActive : Bool

def iterationLimit (maxIter : Nat) : Err := .errorf s!"iteration limit exceeded ({maxIter})"

section
variable [Crypto] {σ : Type} [Chonk σ]

/-- Move the oldest AUM of a candidate to its parent, if the parent is stored. The flag is
`iterAgain`. -/
def climb (storage : σ) (lastKnownOldest : Option AUMHash) (c : Chain) :
    Except Err (Chain × Bool) :=
  match c.oldest.parent with
  | none => .ok (c, false)
  | some parentHash =>
    match Chonk.aum storage parentHash with
    | .error .notExist => .ok (c, false)
    | .error err => .error (.wrap s!"reading parent {parentHash.string}" err)
    | .ok parent => .ok ({ c with
        oldest := parent
        chainsThroughActive :=
          c.chainsThroughActive || lastKnownOldest == some parent.hash }, true)

def climbRound (storage : σ) (lastKnownOldest : Option AUMHash) :
    List Chain → Except Err (List Chain × Bool)
  | [] => .ok ([], false)
  | c :: cs => do
      let (c', again) ← climb storage lastKnownOldest c
      let (cs', againRest) ← climbRound storage lastKnownOldest cs
      .ok (c' :: cs', again || againRest)

def climbLoop (storage : σ) (lastKnownOldest : Option AUMHash) (maxIter : Nat) :
    Nat → List Chain → Except Err (List Chain)
  | 0, _ => .error (iterationLimit maxIter)
  | n + 1, cs => do
      let (cs', iterAgain) ← climbRound storage lastKnownOldest cs
      if iterAgain then climbLoop storage lastKnownOldest maxIter n cs' else .ok cs'

def computeChainCandidates (storage : σ) (lastKnownOldest : Option AUMHash) (maxIter : Nat) :
    Except Err (List Chain) :=
  match Chonk.heads storage with
  | .error err => .error (.wrap "reading heads" err)
  | .ok heads =>
    let candidates := heads.map fun h => Chain.mk h h State.empty false
    climbLoop storage lastKnownOldest maxIter maxIter
      (candidates.insertionSort fun c d => c.oldest.hash ≤ d.oldest.hash)

def sortsBefore (j i : UInt64 × AUM) : Bool :=
  if i.1 ≠ j.1 then i.1 < j.1
  else if i.2.messageKind ≠ j.2.messageKind ∧
      (i.2.messageKind = .removeKey ∨ j.2.messageKind = .removeKey) then
    j.2.messageKind = .removeKey
  else j.2.hash < i.2.hash

/-- Every candidate is compared when there are two or more, so one candidate whose weight panics
makes the sort panic. -/
def weigh (state : State) : List AUM → Except Err (List (UInt64 × AUM))
  | [] => .ok []
  | c :: cs => do
      let w ← c.weight state
      let rest ← weigh state cs
      .ok ((w, c) :: rest)

def pickNextAUM (state : State) : List AUM → Except Err AUM
  | [] => .error (.panic "pickNextAUM called with empty candidate set")
  | [c] => .ok c
  | candidates => do
      let weighed ← weigh state candidates
      match weighed.insertionSort fun a b => sortsBefore b a = false with
      | [] => .error (.panic "index out of range")
      | best :: _ => .ok best.2

def advanceByPrimary (state : State) (candidates : List AUM) : Except Err (Option AUM × State) :=
  if candidates.length = 0 then .ok (none, state)
  else do
    let aum ← pickNextAUM state candidates
    match state.applyVerifiedAUM aum with
    | .error err => .error (.wrap "advancing state" err)
    | .ok state => .ok (some aum, state)

/-- The loop of `fastForwardWithAdvancer`. The source passes closures for `done` that may record
what they see; what they record is `acc`. -/
def fastForwardLoop {γ : Type} (storage : σ)
    (advancer : State → List AUM → Except Err (Option AUM × State))
    (done : γ → AUM → State → Bool × γ) (maxIter : Nat) :
    Nat → AUM → State → γ → Except Err (AUM × State × γ)
  | 0, _, _, _ => .error (iterationLimit maxIter)
  | n + 1, curs, state, acc =>
    match done acc curs state with
    | (true, acc) => .ok (curs, state, acc)
    | (false, acc) =>
      match Chonk.childAUMs storage curs.hash with
      | .error err => .error (.wrap s!"getting children of {curs.hash.hexUpper}" err)
      | .ok children =>
        match advancer state children with
        | .error err => .error (.wrap s!"advance {curs.hash.hexUpper}" err)
        | .ok (none, _) => .ok (curs, state, acc)
        | .ok (some next, nextState) =>
          fastForwardLoop storage advancer done maxIter n next nextState acc

def fastForwardWithAdvancer {γ : Type} (storage : σ) (maxIter : Nat) (startState : State)
    (advancer : State → List AUM → Except Err (Option AUM × State))
    (done : γ → AUM → State → Bool × γ) (acc : γ) : Except Err (AUM × State × γ) :=
  match startState.lastAUMHash with
  | none => .error (.errorf "invalid initial state")
  | some last =>
    match Chonk.aum storage last with
    | .error err => .error (.wrap s!"reading next ({last.string})" err)
    | .ok nextAUM =>
      fastForwardLoop storage advancer done maxIter maxIter nextAUM startState acc

def fastForward {γ : Type} (storage : σ) (maxIter : Nat) (startState : State)
    (done : γ → AUM → State → Bool × γ) (acc : γ) : Except Err (AUM × State × γ) :=
  fastForwardWithAdvancer storage maxIter startState advanceByPrimary done acc

def neverDone (acc : Unit) (_ : AUM) (_ : State) : Bool × Unit := (false, acc)

def doneAt (h : AUMHash) (acc : Unit) (curs : AUM) (_ : State) : Bool × Unit :=
  (decide (curs.hash = h), acc)

def findStart (storage : σ) (maxIter : Nat) :
    Nat → AUM → List AUMHash → Except Err (State × List AUMHash)
  | 0, _, _ => .error (iterationLimit maxIter)
  | n + 1, curs, path =>
    if curs.messageKind = .checkpoint then
      match curs.state with
      | none => .error (.panic "nil pointer dereference")
      | some st => .ok (st.cloneForUpdate curs, curs.hash :: path)
    else match curs.parent with
      | none =>
        if curs.messageKind = .noOp ∨ curs.messageKind = .addKey then
          match State.empty.applyVerifiedAUM curs with
          | .error err => .error (.wrap "applying genesis" err)
          | .ok state => .ok (state, curs.hash :: path)
        else .error (.errorf "invalid genesis update")
      | some parent =>
        match Chonk.aum storage parent with
        | .error err => .error (.wrap s!"reading parent ({parent.string})" err)
        | .ok a => findStart storage maxIter n a (curs.hash :: path)

def advanceAlong (path : List AUMHash) (state : State) (candidates : List AUM) :
    Except Err (Option AUM × State) :=
  match candidates.find? fun c => c.hash ∈ path with
  | none => .error (.errorf "no candidate matching path")
  | some c =>
    match state.applyVerifiedAUM c with
    | .error err => .error (.wrap "advancing state" err)
    | .ok state => .ok (some c, state)

def computeStateAt (storage : σ) (maxIter : Nat) (wantHash : AUMHash) : Except Err State :=
  match Chonk.aum storage wantHash with
  | .error err => .error err
  | .ok topAUM => do
      let (state, path) ← findStart storage maxIter (maxIter + 1) topAUM []
      let (_, state, _) ←
        fastForwardWithAdvancer storage maxIter state (advanceAlong path) (doneAt wantHash) ()
      match state.lastAUMHash with
      | none => .error (.panic "nil pointer dereference")
      | some last =>
        if last = wantHash then .ok state
        else .error (.errorf "unexpected fastForward outcome")

def ancestorsOf (chains : List Chain) : AList fun _ : AUMHash => Bool :=
  chains.foldl (fun m c => m.insert c.oldest.hash c.chainsThroughActive) ∅

def computeActiveAncestor (chains : List Chain) : Except Err AUMHash :=
  match (ancestorsOf chains).entries with
  | [e] => .ok e.1
  | es =>
    match es.find? fun e => e.2 with
    | some e => .ok e.1
    | none => .error (.errorf "multiple distinct chains")

def computeActiveChain (storage : σ) (lastKnownOldest : Option AUMHash) (maxIter : Nat) :
    Except Err Chain :=
  match computeChainCandidates storage lastKnownOldest maxIter with
  | .error err => .error (.wrap "computing candidates" err)
  | .ok chains =>
    if chains.length = 0 then .error (.errorf "no chain candidates in AUM storage")
    else match computeActiveAncestor chains with
    | .error err => .error (.wrap "computing ancestor" err)
    | .ok oldestHash =>
      match Chonk.aum storage oldestHash with
      | .error err => .error err
      | .ok ancestor =>
        match computeStateAt storage maxIter oldestHash with
        | .error err => .error (.wrap "bootstrapping state" err)
        | .ok state =>
          match fastForward storage maxIter state neverDone () with
          | .error err => .error (.wrap "fast forward" err)
          | .ok (head, state, _) => .ok ⟨ancestor, head, state, false⟩

/-- `Head`: the hash of the head. The source dereferences `LastAUMHash`, which every `Authority` it
builds has set. -/
def Authority.headHash (a : Authority) : AUMHash := a.state.lastAUMHash.getD AUMHash.zero

def Authority.ofChain (c : Chain) : Authority := ⟨c.head, c.oldest, c.state⟩

def openChonk (storage : σ) : Except Err Authority :=
  match Chonk.lastActiveAncestor storage with
  | .error err => .error (.wrap "reading last ancestor" err)
  | .ok a =>
    match computeActiveChain storage a maxScanIterations with
    | .error err => .error (.wrap "active chain" err)
    | .ok c => .ok (.ofChain c)

def AUMKind.string : AUMKind → String
  | .invalid => "invalid"
  | .addKey => "add-key"
  | .removeKey => "remove-key"
  | .noOp => "no-op"
  | .checkpoint => "checkpoint"
  | .updateKey => "update-key"
  | .other code _ => s!"AUM?<{code}>"

def checkBootstrap (storage : σ) (bootstrap : AUM) : Except Err Unit :=
  match Chonk.heads storage with
  | .error err => .error (.wrap "reading heads" err)
  | .ok heads =>
    if heads.length ≠ 0 then .error (.errorf "tailchonk is not empty")
    else if bootstrap.messageKind ≠ .checkpoint then
      .error (.errorf
        s!"bootstrap AUMs must be checkpoint messages, got {bootstrap.messageKind.string}")
    else match bootstrap.state with
      | none => .error (.errorf "bootstrap AUM is missing state")
      | some st =>
        match aumVerify bootstrap st true with
        | .error err => .error (.wrap "invalid bootstrap" err)
        | .ok () => .ok ()

def bootstrap (storage : σ) (bootstrap : AUM) : Except Err Authority × σ :=
  match checkBootstrap storage bootstrap with
  | .error err => (.error err, storage)
  | .ok () =>
    match Chonk.commitVerifiedAUMs storage [bootstrap] with
    | (.error err, storage) => (.error (.wrap "commit" err), storage)
    | (.ok (), storage) =>
      match Chonk.setLastActiveAncestor storage bootstrap.hash with
      | (.error err, storage) => (.error (.wrap "set ancestor" err), storage)
      | (.ok (), storage) => (openChonk storage, storage)

structure InformAcc where
  stateAt : AList fun _ : AUMHash => State
  toCommit : List AUM
  prevHash : AUMHash
  isHeadChain : Bool

def parentState (storage : σ) (acc : InformAcc) (parent : AUMHash) : Except Err State :=
  match acc.stateAt.lookup parent with
  | some state => .ok state
  | none => computeStateAt storage maxScanIterations parent

def informStep (storage : σ) (acc : InformAcc) (i : Nat) (update : AUM) : Except Err InformAcc :=
  match Chonk.aum storage update.hash with
  | .ok _ => .ok { acc with isHeadChain := false }
  | .error _ =>
    match update.parent with
    | none => .error (.errorf s!"update {i}: missing parent")
    | some parent =>
      match parentState storage acc parent with
      | .error err => .error (.wrap s!"update {i} computing state" err)
      | .ok state =>
        match aumVerify update state false with
        | .error err => .error (.wrap s!"update {i} invalid" err)
        | .ok () =>
          match state.applyVerifiedAUM update with
          | .error err => .error (.wrap s!"update {i} cannot be applied" err)
          | .ok next => .ok {
              stateAt := (acc.stateAt.insert parent state).insert update.hash next
              toCommit := acc.toCommit ++ [update]
              prevHash := update.hash
              isHeadChain := acc.isHeadChain && parent == acc.prevHash }

def informLoop (storage : σ) : InformAcc → List (AUM × Nat) → Except Err InformAcc
  | acc, [] => .ok acc
  | acc, (update, i) :: rest => do
      let acc ← informStep storage acc i update
      informLoop storage acc rest

namespace Authority

def informStart (a : Authority) : InformAcc :=
  ⟨AList.singleton a.headHash a.state, [], a.headHash, true⟩

def informFinish (a : Authority) (storage : σ) (acc : InformAcc) (updates : List AUM) :
    Except Err Authority :=
  if acc.isHeadChain then
    .ok ⟨updates.getLastD AUM.zero, a.oldestAncestor, (acc.stateAt.lookup acc.prevHash).getD .empty⟩
  else match computeActiveChain storage (some a.oldestAncestor.hash) maxScanIterations with
    | .error err => .error (.wrap "recomputing active chain" err)
    | .ok c => .ok (ofChain c)

def informIdempotent (a : Authority) (storage : σ) (updates : List AUM) :
    Except Err Authority × σ :=
  if updates.length = 0 then (.error (.errorf "inform called with empty slice"), storage)
  else match informLoop storage a.informStart updates.zipIdx with
    | .error err => (.error err, storage)
    | .ok acc =>
      match Chonk.commitVerifiedAUMs storage acc.toCommit with
      | (.error err, storage) => (.error (.wrap "commit" err), storage)
      | (.ok (), storage) => (a.informFinish storage acc updates, storage)

def inform (a : Authority) (storage : σ) (updates : List AUM) : Except Err Unit × Authority × σ :=
  match a.informIdempotent storage updates with
  | (.ok a', storage) => (.ok (), a', storage)
  | (.error err, storage) => (.error err, a, storage)

def keyTrusted (a : Authority) (keyID : Bytes) : Bool :=
  match a.state.getKey keyID with
  | .ok _ => true
  | .error _ => false

def trusts (state : State) (keyID : Bytes) : Bool :=
  match state.getKey keyID with
  | .ok _ => true
  | .error _ => false

def findParentLoop (a : Authority) (storage : σ) (removeKeys : List Bytes) (ourKey : Bytes) :
    Nat → AUMHash → Except Err AUMHash
  | 0, _ => .error .outOfFuel
  | n + 1, cursor =>
    if cursor = a.oldestAncestor.hash then .ok cursor
    else match Chonk.aum storage cursor with
      | .error err => .error (.wrap s!"reading AUM {cursor.string}" err)
      | .ok aum =>
        match computeStateAt storage maxScanIterations cursor with
        | .error err => .error (.wrap s!"computing state for {cursor.string}" err)
        | .ok state =>
          if removeKeys.any (trusts state) = false ∧ trusts state ourKey = true then .ok cursor
          else match aum.parent with
            | none => .ok cursor
            | some parent => findParentLoop a storage removeKeys ourKey n parent

def findParentForRewrite (a : Authority) (storage : σ) (removeKeys : List Bytes) (ourKey : Bytes)
    (fuel : Nat) : Except Err AUMHash :=
  findParentLoop a storage removeKeys ourKey fuel a.headHash

def revokeIn (id : Bytes) : List Key → Except Err (List Key)
  | [] => .ok []
  | k :: ks =>
    match k.id with
    | .error err => .error (.wrap "computing keyID" err)
    | .ok keyID =>
      if id = keyID then .ok ks
      else do
        let rest ← revokeIn id ks
        .ok (k :: rest)

def revokeAll : List Bytes → List Key → Except Err (List Key)
  | [], keys => .ok keys
  | id :: ids, keys => do
      let keys ← revokeIn id keys
      revokeAll ids keys

def rewriteParent (a : Authority) (storage : σ) (removeKeys : List Bytes) (ourKey : Bytes)
    (forkFrom : AUMHash) (fuel : Nat) : Except Err AUMHash :=
  if forkFrom = AUMHash.zero then
    if removeKeys.any (trusts a.state) = false then
      .error (.errorf "no provided key is currently trusted")
    else match a.findParentForRewrite storage removeKeys ourKey fuel with
      | .error err => .error (.wrap "finding parent" err)
      | .ok p => .ok p
  else .ok forkFrom

def makeRetroactiveRevocation (a : Authority) (storage : σ) (removeKeys : List Bytes)
    (ourKey : Bytes) (forkFrom : AUMHash) (fuel : Nat) : Except Err AUM := do
  let parent ← a.rewriteParent storage removeKeys ourKey forkFrom fuel
  let keys ← revokeAll removeKeys a.state.keys
  if keys.length = 0 then .error (.errorf "cannot revoke all trusted keys")
  else
    let state := { a.state with keys, lastAUMHash := none }
    let forkingAUM : AUM :=
      { AUM.zero with messageKind := .checkpoint, state := some state, prevAUMHash := some parent.bytes }
    match forkingAUM.staticValidate with
    | .error err => .error err
    | .ok () => .ok forkingAUM

end Authority

end

end ScaleTail.TKA
