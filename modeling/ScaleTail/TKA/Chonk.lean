import ScaleTail.TKA.Types

/-! # Storage of update messages -/

namespace ScaleTail.TKA

abbrev Time := Int

class Chonk (σ : Type) where
  aum : σ → AUMHash → Except Err AUM
  childAUMs : σ → AUMHash → Except Err (List AUM)
  commitVerifiedAUMs : σ → List AUM → Except Err Unit × σ
  heads : σ → Except Err (List AUM)
  setLastActiveAncestor : σ → AUMHash → Except Err Unit × σ
  lastActiveAncestor : σ → Except Err (Option AUMHash)

class CompactableChonk (σ : Type) extends Chonk σ where
  allAUMs : σ → Except Err (List AUMHash)
  commitTime : σ → AUMHash → Except Err Time
  purgeAUMs : σ → List AUMHash → Except Err Unit × σ

def AUM.zero : AUM := ⟨.invalid, none, none, none, none, none, none, []⟩

structure Mem where
  aums : AList fun _ : AUMHash => AUM
  commitTimes : AList fun _ : AUMHash => Time
  parentIndex : AList fun _ : AUMHash => List AUMHash
  lastActiveAncestor : Option AUMHash
  clock : Nat → Time
  reads : Nat

namespace Mem

def chonkMem (clock : Nat → Time) : Mem := ⟨∅, ∅, ∅, none, clock, 0⟩

def index (c : Mem) (h : AUMHash) : List AUMHash := (c.parentIndex.lookup h).getD []

def aum (c : Mem) (h : AUMHash) : Except Err AUM :=
  match c.aums.lookup h with
  | some a => .ok a
  | none => .error .notExist

def childAUMs (c : Mem) (prev : AUMHash) : Except Err (List AUM) :=
  .ok ((c.index prev).map fun entry => (c.aums.lookup entry).getD AUM.zero)

def allAUMs (c : Mem) : Except Err (List AUMHash) := .ok c.aums.keys

def commitTime (c : Mem) (h : AUMHash) : Except Err Time :=
  match c.commitTimes.lookup h with
  | some t => .ok t
  | none => .error .notExist

def setLastActiveAncestor (c : Mem) (h : AUMHash) : Except Err Unit × Mem :=
  (.ok (), { c with lastActiveAncestor := some h })

def unindex (c : Mem) (h : AUMHash) : AList fun _ : AUMHash => List AUMHash :=
  match (c.aums.lookup h).bind AUM.parent with
  | none => c.parentIndex
  | some parent =>
    let rest := (c.index parent).filter (· ≠ h)
    if rest = [] then c.parentIndex.erase parent else c.parentIndex.insert parent rest

def purgeOne (c : Mem) (h : AUMHash) : Mem :=
  { c with
    parentIndex := c.unindex h
    aums := c.aums.erase h
    commitTimes := c.commitTimes.erase h }

def purgeAUMs (c : Mem) (hashes : List AUMHash) : Except Err Unit × Mem :=
  (.ok (), hashes.foldl purgeOne c)

section
variable [Crypto]

def heads (c : Mem) : Except Err (List AUM) :=
  .ok ((c.aums.entries.map (·.2)).filter fun a => (c.index a.hash).length = 0)

def indexed (c : Mem) (a : AUM) : AList fun _ : AUMHash => List AUMHash :=
  match a.parent with
  | none => c.parentIndex
  | some parent =>
    if a.hash ∈ c.index parent then c.parentIndex
    else c.parentIndex.insert parent (c.index parent ++ [a.hash])

def commitOne (c : Mem) (a : AUM) : Mem :=
  { c with
    aums := c.aums.insert a.hash a
    commitTimes := c.commitTimes.insert a.hash (c.clock c.reads)
    parentIndex := c.indexed a
    reads := c.reads + 1 }

def commitVerifiedAUMs (c : Mem) (updates : List AUM) : Except Err Unit × Mem :=
  (.ok (), updates.foldl commitOne c)

instance : CompactableChonk Mem where
  aum := aum
  childAUMs := childAUMs
  commitVerifiedAUMs := commitVerifiedAUMs
  heads := heads
  setLastActiveAncestor := setLastActiveAncestor
  lastActiveAncestor c := .ok c.lastActiveAncestor
  allAUMs := allAUMs
  commitTime := commitTime
  purgeAUMs := purgeAUMs

end

end Mem

structure FsHashInfo where
  aum : Option AUM
  createdUnix : Int
  purgedUnix : Int

def FsHashInfo.omitEmpty (info : FsHashInfo) : FsHashInfo :=
  { info with aum := info.aum.map AUM.omitEmpty }

structure FsFile where
  info : FsHashInfo
  modTime : Time

structure WallTime where
  nanos : Time
  afterEpoch : 1000000000 ≤ nanos

def WallTime.unix (t : WallTime) : Int := t.nanos / 1000000000

/-- The storage directory: one file for each hash, named by it, and `last_active_ancestor`. A file is
what is read back of the CBOR encoding of its `fsHashInfo`, and operations on existing files
succeed. -/
structure FS where
  files : AList fun _ : AUMHash => FsFile
  lastActive : Option Bytes
  clock : Nat → WallTime
  reads : Nat

namespace FS

def chonkDir (clock : Nat → WallTime) : FS := ⟨∅, none, clock, 0⟩

def now (c : FS) : WallTime := c.clock c.reads

section
variable [Crypto]

def get (c : FS) (h : AUMHash) : Except Err FsFile :=
  match c.files.lookup h with
  | none => .error .notExist
  | some file =>
    match file.info.aum with
    | none => .ok file
    | some a =>
      if a.hash = h then .ok file
      else .error (.errorf
        s!"{h.string}: AUM does not match file name hash {a.hash.string}")

def aum (c : FS) (h : AUMHash) : Except Err AUM :=
  match c.get h with
  | .error err => .error err
  | .ok file =>
    match file.info.aum with
    | none => .error .notExist
    | some a => if 0 < file.info.purgedUnix then .error .notExist else .ok a

def commitTime (c : FS) (h : AUMHash) : Except Err Time :=
  match c.get h with
  | .error err => .error err
  | .ok file =>
    if 0 < file.info.purgedUnix then .error .notExist
    else if 0 < file.info.createdUnix then .ok (file.info.createdUnix * 1000000000)
    else .ok file.modTime

def scanFiles (c : FS) : List AUMHash → Except Err (List FsHashInfo)
  | [] => .ok []
  | h :: hs =>
    match c.get h with
    | .error err => .error (.wrap s!"reading {h.hex}" err)
    | .ok file => do
        let rest ← scanFiles c hs
        .ok (if 0 < file.info.purgedUnix then rest else file.info :: rest)

def scanHashes (c : FS) : Except Err (List FsHashInfo) := c.scanFiles c.files.keys

def childAUMs (c : FS) (prev : AUMHash) : Except Err (List AUM) := do
  let infos ← c.scanHashes
  .ok ((infos.filterMap (·.aum)).filter fun a => a.prevAUMHash.getD [] = prev.bytes)

def allAUMs (c : FS) : Except Err (List AUMHash) := do
  let infos ← c.scanHashes
  .ok ((infos.filterMap (·.aum)).map AUM.hash)

def readAll (c : FS) : List AUMHash → Except Err (List AUM)
  | [] => .ok []
  | h :: hs => do
      let a ← c.aum h
      let rest ← readAll c hs
      .ok (a :: rest)

def heads (c : FS) : Except Err (List AUM) := do
  let all ← c.allAUMs
  let aums ← c.readAll all
  let parentHashes := aums.filterMap AUM.parent
  c.readAll (all.filter fun h => h ∉ parentHashes)

def setLastActiveAncestor (c : FS) (h : AUMHash) : Except Err Unit × FS :=
  (.ok (), { c with lastActive := some h.bytes })

def lastActiveAncestor (c : FS) : Except Err (Option AUMHash) :=
  match c.lastActive with
  | none => .ok none
  | some hash =>
    if hash.length ≠ 32 then
      .error (.errorf s!"stored hash is of wrong length: {hash.length} != 32")
    else .ok (some (AUMHash.zero.copyFrom hash))

def existing (c : FS) (h : AUMHash) : Except Err FsHashInfo :=
  match c.get h with
  | .ok file => .ok file.info
  | .error .notExist => .ok ⟨none, c.now.unix, 0⟩
  | .error err => .error err

def commit (c : FS) (h : AUMHash) (updater : FsHashInfo → FsHashInfo) : Except Err Unit × FS :=
  match c.existing h with
  | .error err => (.error err, c)
  | .ok info =>
    let toCommit := updater info
    match toCommit.aum.filter (·.hash ≠ h) with
    | some a =>
      (.error (.errorf s!"cannot commit AUM with hash {a.hash.hex} to {h.hex}"), c)
    | none => (.ok (), { c with
        files := c.files.insert h ⟨toCommit.omitEmpty, c.now.nanos⟩
        reads := c.reads + 1 })

def commitLoop (c : FS) : List (AUM × Nat) → Except Err Unit × FS
  | [] => (.ok (), c)
  | (a, i) :: rest =>
    match c.commit a.hash fun info => { info with purgedUnix := 0, aum := some a } with
    | (.ok (), c') => commitLoop c' rest
    | (.error err, c') =>
      (.error (.wrap s!"committing update[{i}] ({a.hash.hex})" err), c')

def commitVerifiedAUMs (c : FS) (updates : List AUM) : Except Err Unit × FS :=
  c.commitLoop updates.zipIdx

def purgeLoop (now : WallTime) (c : FS) : List (AUMHash × Nat) → Except Err Unit × FS
  | [] => (.ok (), c)
  | (h, i) :: rest =>
    match c.get h with
    | .error err => (.error (.wrap s!"reading {i} ({h.hex})" err), c)
    | .ok stored =>
      if stored.info.aum = none ∨ 0 < stored.info.purgedUnix then purgeLoop now c rest
      else match c.commit h fun info => { info with purgedUnix := now.unix } with
        | (.ok (), c') => purgeLoop now c' rest
        | (.error err, c') =>
          (.error (.wrap s!"committing purge[{i}] ({h.hex})" err), c')

def purgeAUMs (c : FS) (hashes : List AUMHash) : Except Err Unit × FS :=
  purgeLoop c.now c hashes.zipIdx

instance : CompactableChonk FS where
  aum := aum
  childAUMs := childAUMs
  commitVerifiedAUMs := commitVerifiedAUMs
  heads := heads
  setLastActiveAncestor := setLastActiveAncestor
  lastActiveAncestor := lastActiveAncestor
  allAUMs := allAUMs
  commitTime := commitTime
  purgeAUMs := purgeAUMs

end

end FS

end ScaleTail.TKA
