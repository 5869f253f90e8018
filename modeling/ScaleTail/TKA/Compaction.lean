import ScaleTail.TKA.Authority

/-!
# Compaction

`Compact` of `tka/tailchonk.go`: four passes over a map of verdicts decide which AUMs to keep, the
new ancestor is recorded, and the rest is purged.
-/

namespace ScaleTail.TKA

structure CompactionOptions where
  minChain : Int
  minAge : Time

structure RetainState where
  active : Bool
  young : Bool
  leaf : Bool
  ancestor : Bool
  candidate : Bool
  deriving DecidableEq

namespace RetainState

def none : RetainState := ⟨false, false, false, false, false⟩

def retained (v : RetainState) : Bool := v.active || v.young || v.leaf || v.ancestor

def setActive (v : RetainState) : RetainState := { v with active := true }
def setYoung (v : RetainState) : RetainState := { v with young := true }
def setLeaf (v : RetainState) : RetainState := { v with leaf := true }
def setAncestor (v : RetainState) : RetainState := { v with ancestor := true }
def setCandidate (v : RetainState) : RetainState := { v with candidate := true }

end RetainState

/-- The map `verdict`: the hashes that have an entry, and the flags of each hash. -/
structure Verdict where
  keys : List AUMHash
  flags : AUMHash → RetainState

namespace Verdict

def ofHashes (all : List AUMHash) : Verdict := ⟨all, fun _ => .none⟩

def mark (v : Verdict) (h : AUMHash) (set : RetainState → RetainState) : Verdict :=
  ⟨if h ∈ v.keys then v.keys else v.keys ++ [h], Function.update v.flags h (set (v.flags h))⟩

end Verdict

structure RangeOrder where
  visit : List AUMHash → List AUMHash
  perm : ∀ l, (visit l).Perm l

/-- One order for each of the four `range verdict` statements of a compaction. -/
structure CompactionOrder where
  young : RangeOrder
  descendants : RangeOrder
  ancestors : RangeOrder
  deletion : RangeOrder

section
variable [Crypto] {σ : Type} [CompactableChonk σ]

def markYoungLoop (storage : σ) (minTime : Time) : Verdict → List AUMHash → Except Err Verdict
  | v, [] => .ok v
  | v, h :: hs => do
      let commitTime ← CompactableChonk.commitTime storage h
      markYoungLoop storage minTime (if minTime < commitTime then v.mark h .setYoung else v) hs

def markYoungAUMs (storage : σ) (v : Verdict) (now : Time) (minAge : Time) (order : RangeOrder) :
    Except Err Verdict :=
  markYoungLoop storage (now - minAge) v (order.visit v.keys)

def markMinChain (storage : σ) :
    Nat → Nat → AUM → Verdict → Except Err (Verdict × (AUMHash ⊕ AUM))
  | 0, _, next, v => .ok (v, .inr next)
  | n + 1, i, next, v =>
    let v := v.mark next.hash .setActive
    match next.parent with
    | none => .ok (v, .inl next.hash)
    | some parent =>
      match Chonk.aum storage parent with
      | .error .notExist => .ok (v, .inl next.hash)
      | .error err =>
        .error (.wrap s!"reading active chain (retainStateActive) ({i}, {parent.string})" err)
      | .ok next => markMinChain storage n (i + 1) next v

/-- The second loop: keep going until a checkpoint that is old enough, or the genesis AUM. Without a
parent the source reads the zero hash. -/
def findTarget (storage : σ) : Nat → AUM → Verdict → Except Err (Verdict × AUM)
  | 0, _, _ => .error .outOfFuel
  | n + 1, next, v =>
    let v := v.mark next.hash .setActive
    if next.messageKind = .checkpoint ∧ ((v.flags next.hash).young = false ∨ next.parent = none)
    then .ok (v, next)
    else
      let parent := next.parent.getD AUMHash.zero
      match Chonk.aum storage parent with
      | .error err => .error (.wrap s!"searching for compaction target ({parent.string})" err)
      | .ok next => findTarget storage n next v

/-- The third loop: mark the ancestors of the target, including one that is not stored. -/
def markCandidates (storage : σ) : Nat → AUM → Verdict → Except Err Verdict
  | 0, _, _ => .error .outOfFuel
  | n + 1, next, v =>
    match next.parent with
    | none => .ok v
    | some parent =>
      let v := v.mark parent .setCandidate
      match Chonk.aum storage parent with
      | .error .notExist => .ok v
      | .error err =>
        .error (.wrap s!"reading active chain (retainStateCandidate, {parent.string})" err)
      | .ok next => markCandidates storage n next v

def markActiveChain (storage : σ) (v : Verdict) (minChain : Int) (head : AUMHash) (fuel : Nat) :
    Except Err (AUMHash × Verdict) := do
  let next ← Chonk.aum storage head
  let (v, stop) ← markMinChain storage minChain.toNat 0 next v
  match stop with
  | .inl h => .ok (h, v)
  | .inr next => do
      let (v, target) ← findTarget storage fuel next v
      let v ← markCandidates storage fuel target v
      .ok (target.hash, v)

def markDescendantsOf (storage : σ) :
    Verdict → List AUMHash → List AUMHash → Except Err (Verdict × List AUMHash)
  | v, [], nextIterScan => .ok (v, nextIterScan)
  | v, h :: hs, nextIterScan =>
    if (v.flags h).leaf then markDescendantsOf storage v hs nextIterScan
    else do
      let children ← Chonk.childAUMs storage h
      markDescendantsOf storage (v.mark h .setLeaf) hs (nextIterScan ++ children.map AUM.hash)

def markDescendantsLoop (storage : σ) : Nat → Verdict → List AUMHash → Except Err Verdict
  | _, v, [] => .ok v
  | 0, _, _ :: _ => .error .outOfFuel
  | n + 1, v, h :: hs => do
      let (v, toScan) ← markDescendantsOf storage v (h :: hs) []
      markDescendantsLoop storage n v toScan

def markDescendantAUMs (storage : σ) (v : Verdict) (order : RangeOrder) (fuel : Nat) :
    Except Err Verdict :=
  markDescendantsLoop storage fuel v ((order.visit v.keys).filter fun h => (v.flags h).retained)

def markChildren (storage : σ) : Nat → AUMHash → Verdict → Except Err Verdict
  | 0, _, _ => .error .outOfFuel
  | n + 1, next, v =>
    match Chonk.childAUMs storage next with
    | .error err => .error (.wrap s!"reading children {next.string}" err)
    | .ok children =>
      match children.find? fun a =>
          (v.flags a.hash).candidate && !(v.flags a.hash).active with
      | none => .ok v
      | some a => markChildren storage n a.hash (v.mark a.hash .setAncestor)

structure ScanAcc where
  verdict : Verdict
  candidateAncestor : AUMHash
  didAdjust : Bool
  nextIterScan : List AUMHash

def scanOne (storage : σ) (fuel : Nat) (acc : ScanAcc) (h : AUMHash) : Except Err ScanAcc :=
  if (acc.verdict.flags h).ancestor then .ok acc
  else
    let v := acc.verdict.mark h .setAncestor
    match Chonk.aum storage h with
    | .error err => .error (.wrap s!"reading {h.string}" err)
    | .ok a =>
      match a.parent with
      | none =>
        .error (.errorf "reached genesis AUM without intersecting with candidate ancestor")
      | some parent =>
        if (v.flags parent).retained then .ok { acc with verdict := v }
        else if (v.flags parent).candidate then do
          let v ← markChildren storage fuel parent (v.mark parent .setAncestor)
          .ok ⟨v, parent, true, acc.nextIterScan ++ [parent]⟩
        else .ok { acc with verdict := v, nextIterScan := acc.nextIterScan ++ [parent] }

def scanRound (storage : σ) (fuel : Nat) : ScanAcc → List AUMHash → Except Err ScanAcc
  | acc, [] => .ok acc
  | acc, h :: hs => do
      let acc ← scanOne storage fuel acc h
      scanRound storage fuel acc hs

def scanLoop (storage : σ) (fuel : Nat) : Nat → ScanAcc → List AUMHash → Except Err ScanAcc
  | _, acc, [] => .ok acc
  | 0, _, _ :: _ => .error .outOfFuel
  | n + 1, acc, h :: hs => do
      let acc ← scanRound storage fuel { acc with nextIterScan := [] } (h :: hs)
      scanLoop storage fuel n acc acc.nextIterScan

def backToCheckpoint (storage : σ) : Nat → AUM → Verdict → Except Err (AUMHash × Verdict)
  | 0, _, _ => .error .outOfFuel
  | n + 1, next, v =>
    let v := v.mark next.hash .setActive
    if next.messageKind = .checkpoint then .ok (next.hash, v)
    else match next.parent with
      | none => .error
          (.errorf "reached genesis AUM without finding an appropriate candidateAncestor")
      | some parent =>
        match Chonk.aum storage parent with
        | .error err => .error (.wrap s!"searching for compaction target ({parent.string})" err)
        | .ok next => backToCheckpoint storage n next v

def adjustAncestor (storage : σ) (fuel : Nat) (acc : ScanAcc) : Except Err (AUMHash × Verdict) :=
  if acc.didAdjust then
    match Chonk.aum storage acc.candidateAncestor with
    | .error err => .error
        (.wrap s!"searching for compaction target ({acc.candidateAncestor.string})" err)
    | .ok next => backToCheckpoint storage fuel next acc.verdict
  else .ok (acc.candidateAncestor, acc.verdict)

def markAncestorIntersectionAUMs (storage : σ) (v : Verdict) (candidateAncestor : AUMHash)
    (order : RangeOrder) (fuel : Nat) : Except Err (AUMHash × Verdict) := do
  let toScan := (order.visit v.keys).filter fun h => (v.flags h).retained && h ≠ candidateAncestor
  let acc ← scanLoop storage fuel fuel ⟨v, candidateAncestor, false, []⟩ toScan
  adjustAncestor storage fuel acc

/-- The first half of `Compact`: the new last active ancestor and the hashes to delete. A loop
without an iteration limit gets one step more than there are stored AUMs. -/
def compactionPlan (storage : σ) (head : AUMHash) (opts : CompactionOptions) (now : Time)
    (order : CompactionOrder) : Except Err (AUMHash × List AUMHash) :=
  if opts.minChain = 0 then .error (.errorf "opts.MinChain must be set")
  else if opts.minAge = 0 then .error (.errorf "opts.MinAge must be set")
  else match CompactableChonk.allAUMs storage with
  | .error err => .error (.wrap "AllAUMs" err)
  | .ok all =>
    let fuel := all.length + 1
    match markYoungAUMs storage (.ofHashes all) now opts.minAge order.young with
    | .error err => .error (.wrap "marking young AUMs" err)
    | .ok v =>
      match markActiveChain storage v opts.minChain head fuel with
      | .error err => .error (.wrap "marking active chain" err)
      | .ok (lastActiveAncestor, v) =>
        match markDescendantAUMs storage v order.descendants fuel with
        | .error err => .error (.wrap "marking descendant AUMs" err)
        | .ok v =>
          match markAncestorIntersectionAUMs storage v lastActiveAncestor order.ancestors fuel with
          | .error err => .error (.wrap "marking ancestor intersection" err)
          | .ok (lastActiveAncestor, v) => .ok (lastActiveAncestor,
              (order.deletion.visit v.keys).filter fun h => !(v.flags h).retained)

def compact (storage : σ) (head : AUMHash) (opts : CompactionOptions) (now : Time)
    (order : CompactionOrder) : Except Err AUMHash × σ :=
  match compactionPlan storage head opts now order with
  | .error err => (.error err, storage)
  | .ok (lastActiveAncestor, toDelete) =>
    match Chonk.setLastActiveAncestor storage lastActiveAncestor with
    | (.error err, storage) => (.error err, storage)
    | (.ok (), storage) =>
      match CompactableChonk.purgeAUMs storage toDelete with
      | (.error err, storage) => (.error err, storage)
      | (.ok (), storage) => (.ok lastActiveAncestor, storage)

def Authority.compact (a : Authority) (storage : σ) (opts : CompactionOptions) (now : Time)
    (order : CompactionOrder) : Except Err Unit × Authority × σ :=
  match TKA.compact storage a.head.hash opts now order with
  | (.error err, storage) => (.error err, a, storage)
  | (.ok newAncestor, storage) =>
    match Chonk.aum storage newAncestor with
    | .error err => (.error err, a, storage)
    | .ok ancestor => (.ok (), { a with oldestAncestor := ancestor }, storage)

end

end ScaleTail.TKA
