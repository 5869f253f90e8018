import ScaleTail.TKA.Authority

/-! # Synchronization of two authorities (`tka/sync.go`) -/

namespace ScaleTail.TKA

structure SyncOffer where
  head : AUMHash
  ancestors : List AUMHash
  deriving DecidableEq

def ancestorsSkipStart : Nat := 4
def ancestorsSkipShift : Nat := 2

structure Intersection where
  upToDate : Bool
  headIntersection : Option AUMHash
  tailIntersection : Option AUMHash

section
variable [Crypto] {σ : Type} [Chonk σ]

def offerLoop (storage : σ) (oldest : AUMHash) :
    Nat → Nat → Nat → AUMHash → List AUMHash → Except Err (List AUMHash)
  | 0, _, _, _, ancestors => .ok ancestors
  | n + 1, i, skipAmount, curs, ancestors =>
    let listed := 0 < i ∧ i % skipAmount = 0
    let ancestors := if listed then ancestors ++ [curs] else ancestors
    let skipAmount := if listed then skipAmount <<< ancestorsSkipShift else skipAmount
    match Chonk.aum storage curs with
    | .error .notExist => .ok ancestors
    | .error err => .error err
    | .ok parent =>
      if parent.hash = oldest then .ok ancestors
      else offerLoop storage oldest n (i + 1) skipAmount (parent.copyPrev curs) ancestors

def Authority.syncOffer (a : Authority) (storage : σ) : Except Err SyncOffer := do
  let oldest := a.oldestAncestor.hash
  let ancestors ←
    offerLoop storage oldest maxSyncHeadIntersectionIter 0 ancestorsSkipStart a.headHash []
  .ok ⟨a.headHash, ancestors ++ [oldest]⟩

def hasAUM (storage : σ) (h : AUMHash) : Except Err Bool :=
  match Chonk.aum storage h with
  | .error .notExist => .ok false
  | .error err => .error err
  | .ok _ => .ok true

def searchHead (storage : σ) (remoteHead : AUMHash) : Nat → AUMHash → Except Err Bool
  | 0, _ => .ok false
  | n + 1, curs =>
    match Chonk.aum storage curs with
    | .error .notExist => .ok false
    | .error err => .error err
    | .ok parent =>
      if parent.hash = remoteHead then .ok true
      else searchHead storage remoteHead n (parent.copyPrev curs)

def searchTail (storage : σ) (localHead : AUMHash) : List AUMHash → Except Err AUMHash
  | [] => .error .noIntersection
  | a :: rest =>
    match computeStateAt storage maxSyncIter a with
    | .error .notExist => searchTail storage localHead rest
    | .error err => .error (.wrap "computeStateAt" err)
    | .ok state => do
        let (final, _, _) ← fastForward storage maxSyncIter state (doneAt localHead) ()
        if final.hash = localHead then .ok a else searchTail storage localHead rest

def computeSyncIntersection (storage : σ) (localOffer remoteOffer : SyncOffer) :
    Except Err Intersection :=
  if remoteOffer.head = localOffer.head then .ok ⟨true, some localOffer.head, none⟩
  else do
    let hasRemoteHead ← hasAUM storage remoteOffer.head
    let found ←
      if hasRemoteHead then
        searchHead storage remoteOffer.head maxSyncHeadIntersectionIter localOffer.head
      else .ok false
    if found then .ok ⟨false, some remoteOffer.head, none⟩
    else do
      let a ← searchTail storage localOffer.head remoteOffer.ancestors
      .ok ⟨false, none, some a⟩

def collectAfter (start : AUMHash) (out : List AUM) (curs : AUM) (_ : State) : Bool × List AUM :=
  (false, if curs.hash ≠ start then out ++ [curs] else out)

def aumsSince (storage : σ) (start : AUMHash) : Except Err (List AUM) := do
  let state ← computeStateAt storage maxSyncIter start
  let (_, _, out) ← fastForward storage maxSyncIter state (collectAfter start) []
  .ok out

def Authority.missingAUMs (a : Authority) (storage : σ) (remoteOffer : SyncOffer) :
    Except Err (List AUM) :=
  match a.syncOffer storage with
  | .error err => .error (.wrap "local syncOffer" err)
  | .ok localOffer =>
    match computeSyncIntersection storage localOffer remoteOffer with
    | .error err => .error (.wrap "intersection" err)
    | .ok ⟨true, _, _⟩ => .ok []
    | .ok ⟨false, some h, _⟩ => aumsSince storage h
    | .ok ⟨false, none, some t⟩ => aumsSince storage t
    | .ok ⟨false, none, none⟩ => .error (.panic "unreachable")

end

end ScaleTail.TKA
