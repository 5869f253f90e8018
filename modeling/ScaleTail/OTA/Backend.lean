import ScaleTail.OTA.Manifest

/-!
# The update policy in the daemon

`ipn/ipnlocal/scaletail_update.go`, over the state file of `ipn/store`, and what `local.go` does
with the preference that the network should run.
-/

namespace ScaleTail.OTA

open Go

structure UpdateState where
  schema : Nat
  policy : Policy
  resumePending : Bool
  deriving DecidableEq

def UpdateState.zero : UpdateState := ⟨0, ⟨0, [], [], [], [], 0, [], []⟩, false⟩

def policySchema : Nat := 1

def maxPolicyStateBytes : Nat := 64 * 2 ^ 10

class Build where
  currentPlatform : Bytes
  encodedLen : UpdateState → Nat
  encodedLen_pos : ∀ s, 0 < encodedLen s

/-- The part of a `FileStore` that holds the policy: the map in memory and the file. -/
structure FileStore where
  cache : Option UpdateState
  disk : Option UpdateState
  deriving DecidableEq

namespace FileStore

def write (s : FileStore) (state : UpdateState) (failure : Option Bytes) : FileStore × Option Bytes :=
  if s.cache = some state then (s, none)
  else
    match failure with
    | none => (⟨some state, some state⟩, none)
    | some e => ({ s with cache := some state }, some e)

def flush (s : FileStore) : FileStore := { s with disk := s.cache }

def reopen (s : FileStore) : FileStore := { s with cache := s.disk }

end FileStore

structure Prefs (β : Type) where
  wantRunning : Bool
  other : β
  deriving DecidableEq

structure Backend (β : Type) where
  version : Bytes
  store : Option FileStore
  loaded : Bool
  update : UpdateState
  prefs : Prefs β
  overrideAlwaysOn : Bool
  configLocked : Bool
  deriving DecidableEq

inductive Saving
  | denied
  | failed
  | saved
  deriving DecidableEq

/-- What a change of the preferences meets: the other checks of `checkPrefsLocked`, the system
policies, what becomes of the other preferences and whether that is reported as a change, and how
they are saved. -/
structure Setting (β : Type) where
  checks : Prefs β → List Bytes
  alwaysOn : Bool
  sysPolicy : β → β × Bool
  saving : Saving
  flushes : Bool

structure MaskedPrefs (β : Type) where
  wantRunning : Option Bool
  other : β → β

def MaskedPrefs.apply {β : Type} (mp : MaskedPrefs β) (p : Prefs β) : Prefs β :=
  ⟨mp.wantRunning.getD p.wantRunning, mp.other p.other⟩

structure UpdateStatus where
  active : Bool
  currentVersion : Bytes
  resumePending : Bool
  policy : Policy
  deriving DecidableEq

def UpdateStatus.zero : UpdateStatus := ⟨false, [], false, UpdateState.zero.policy⟩

/-- A status of the control client that is neither from an old client nor an error. Reading it
changes other preferences, and the network profile may have to be saved. -/
structure ClientStatus (β : Type) where
  loggedIn : Bool
  authInProgress : Bool
  other : β → β × Bool
  profileChanged : Bool

def joinErrors (errs : List Bytes) : Option Bytes :=
  if errs = [] then none else some ((bytes "\n").intercalate errs)

def quoted (s : Bytes) : Bytes := 34 :: s ++ [34]

namespace Backend

variable {β : Type}

def new (version : Bytes) (store : Option FileStore) (prefs : Prefs β) (configLocked : Bool) :
    Backend β :=
  ⟨version, store, false, .zero, prefs, false, configLocked⟩

def isActive (b : Backend β) (policy : Policy) : Bool :=
  policy.action = actionForced ∧ ¬ versionAtLeast b.version policy.version

def forcedUpdateRequired (b : Backend β) : Bool := b.loaded ∧ b.isActive b.update.policy

def updateRequiredError (b : Backend β) : Bytes :=
  bytes "ScaleTail " ++ b.update.policy.version ++
    bytes " is required by forced update policy revision " ++ itoa b.update.policy.revision

def savePrefs (b : Backend β) (p : Prefs β) (s : Setting β) : Backend β :=
  { b with
    prefs := if s.saving = .denied then b.prefs else p
    store := if s.flushes then b.store.map FileStore.flush else b.store }

def checkPrefs (b : Backend β) (p : Prefs β) (s : Setting β) : Option Bytes :=
  if b.configLocked then
    some (bytes "can't reconfigure scaletaild when using a config file; config file is locked")
  else
    joinErrors ((if p.wantRunning ∧ b.forcedUpdateRequired then [b.updateRequiredError] else []) ++
      s.checks p)

def reconcilePrefs (b : Backend β) (p : Prefs β) (s : Setting β) : Prefs β × Bool :=
  let (other, changed) := s.sysPolicy p.other
  let turnedOn := s.alwaysOn ∧ ¬ b.overrideAlwaysOn ∧ ¬ p.wantRunning
  let wantRunning : Bool := p.wantRunning ∨ turnedOn
  let turnedOff := wantRunning ∧ b.forcedUpdateRequired
  (⟨wantRunning ∧ ¬ turnedOff, other⟩, changed ∨ turnedOn ∨ turnedOff)

def setPrefs (b : Backend β) (p : Prefs β) (s : Setting β) : Backend β :=
  let p := (b.reconcilePrefs p s).1
  let saved := b.savePrefs p s
  if s.saving = .saved ∧ p.wantRunning then { saved with overrideAlwaysOn := false } else saved

def updateStatus (b : Backend β) : UpdateStatus :=
  ⟨b.forcedUpdateRequired, b.version, b.update.resumePending, b.update.policy⟩

def nextState (b : Backend β) (policy : Policy) : UpdateState :=
  ⟨policySchema, policy, b.update.resumePending ∨ (b.isActive policy ∧ b.prefs.wantRunning)⟩

def refuseLogging (b : Backend β) (s : Setting β) : Backend β :=
  b.savePrefs { b.prefs with wantRunning := false } s

def setClientStatus (b : Backend β) (st : ClientStatus β) (s : Setting β) : Backend β :=
  let (other, changed) := st.other b.prefs.other
  let finished := st.loggedIn ∧ st.authInProgress ∧ ¬ b.prefs.wantRunning
  let (p, reconciled) := b.reconcilePrefs ⟨b.prefs.wantRunning ∨ finished, other⟩ s
  if changed ∨ finished ∨ reconciled ∨ st.profileChanged then b.savePrefs p s else b

def sysPolicyChanged (b : Backend β) (alwaysOnChanged : Bool) (s : Setting β) : Backend β :=
  let b := if alwaysOnChanged then { b with overrideAlwaysOn := false } else b
  let (p, changed) := b.reconcilePrefs b.prefs s
  if changed then b.setPrefs p s else b

variable [DecidableEq β]

def editPrefs (b : Backend β) (access : List Bytes) (mp : MaskedPrefs β) (s : Setting β) :
    Backend β × Option Bytes :=
  match joinErrors access with
  | some e => (b, some e)
  | none =>
    let p := mp.apply b.prefs
    match b.checkPrefs p s with
    | some e => (b, some e)
    | none =>
      if p = b.prefs then (b, none)
      else
        let disconnects := mp.wantRunning = some false ∧ b.prefs.wantRunning
        (setPrefs { b with overrideAlwaysOn := b.overrideAlwaysOn ∨ disconnects } p s, none)

def stopNetwork (b : Backend β) (s : Setting β) : Backend β × Option Bytes :=
  b.editPrefs [] ⟨some false, id⟩ s

end Backend

inductive UpdateError
  | verify (text : Bytes)
  | platform (policy : Bytes)
  | load (text : Bytes)
  | stale (revision current : Nat)
  | conflict (revision : Nat)
  | persist (text : Bytes)
  | write (text : Bytes)
  | stop (text : Bytes)
  deriving DecidableEq

/-- What `Start` meets: a new attestation key, a machine key that cannot be had, a cached network
map, and a control client that cannot be made. -/
structure Starting (β : Type) where
  setting : Setting β
  newKey : Bool
  machineKey : Option Bytes
  cached : Option (ClientStatus β × Setting β)
  client : Option Bytes

section
variable [Build]

namespace Backend
variable {β : Type}

def writeUpdateState (b : Backend β) (state : UpdateState) (failure : Option Bytes) :
    Backend β × Option Bytes :=
  match b.store with
  | none => (b, some (bytes "OTA policy state store is unavailable"))
  | some store =>
    if Build.encodedLen state > maxPolicyStateBytes then
      (b, some (bytes "OTA policy state is too large"))
    else
      let (store, e) := store.write state failure
      ({ b with store := some store }, e)

def applyVerified [DecidableEq β] (b : Backend β) (policy : Policy) (failure : Option Bytes) (s : Setting β) :
    Backend β × UpdateStatus × Option UpdateError :=
  let current := b.update.policy
  if policy.revision < current.revision then
    (b, b.updateStatus, some (.stale policy.revision current.revision))
  else if current.revision = policy.revision then
    if current ≠ policy then (b, b.updateStatus, some (.conflict policy.revision))
    else (b, b.updateStatus, none)
  else
    match b.writeUpdateState (b.nextState policy) failure with
    | (b', some e) => (b', b'.updateStatus, some (.persist e))
    | (b', none) =>
      let b' := { b' with update := b.nextState policy }
      if b.isActive policy ∧ b.prefs.wantRunning then
        match b'.stopNetwork s with
        | (b'', some e) => (b'', b''.updateStatus, some (.stop e))
        | (b'', none) => (b'', b''.updateStatus, none)
      else (b', b'.updateStatus, none)

end Backend

end

namespace Backend
variable [Unicode] [Netip] [Signing] [Build] {β : Type}

def load (b : Backend β) : Backend β × Option Bytes :=
  if b.loaded then (b, none)
  else
    match b.store.bind FileStore.cache with
    | none => ({ b with loaded := true }, none)
    | some state =>
      if Build.encodedLen state = 0 ∨ Build.encodedLen state > maxPolicyStateBytes then
        (b, some (bytes "invalid OTA policy state size"))
      else if state.schema ≠ policySchema then (b, some (bytes "invalid OTA policy state"))
      else
        match verify state.policy with
        | .error e => (b, some (bytes "verify persisted OTA policy: " ++ e))
        | .ok canonical =>
          if canonical.platform ≠ Build.currentPlatform then
            (b, some (bytes "persisted OTA policy platform " ++ quoted canonical.platform ++
              bytes " does not match " ++ quoted Build.currentPlatform))
          else ({ b with loaded := true, update := { state with policy := canonical } }, none)

def readUpdateStatus (b : Backend β) : Backend β × UpdateStatus × Option UpdateError :=
  match b.load with
  | (b', some e) => (b', .zero, some (.load e))
  | (b', none) => (b', b'.updateStatus, none)

def acknowledgeResume (b : Backend β) (failure : Option Bytes) : Backend β × Option UpdateError :=
  match b.load with
  | (b', some e) => (b', some (.load e))
  | (b', none) =>
    if b'.forcedUpdateRequired ∨ ¬ b'.update.resumePending then (b', none)
    else
      let next := { b'.update with resumePending := false }
      match b'.writeUpdateState next failure with
      | (b'', some e) => (b'', some (.write e))
      | (b'', none) => ({ b'' with update := next }, none)

def start (b : Backend β) (updatePrefs : Option (Prefs β)) (s : Starting β) :
    Backend β × Option Bytes :=
  match b.load with
  | (b, some e) => (b, some e)
  | (b, none) =>
    if b.forcedUpdateRequired ∧ (updatePrefs.getD b.prefs).wantRunning then
      (b, some b.updateRequiredError)
    else
      match updatePrefs.bind (b.checkPrefs · s.setting) with
      | some e => (b, some e)
      | none =>
        let (p, reconciled) := b.reconcilePrefs (updatePrefs.getD b.prefs) s.setting
        let b :=
          if updatePrefs.isSome ∨ reconciled ∨ s.newKey then b.savePrefs p s.setting else b
        let b := { b with overrideAlwaysOn := false }
        match if p.wantRunning then s.machineKey else none with
        | some e => (b, some e)
        | none =>
          match s.cached with
          | none => (b, s.client)
          | some (status, setting) => (b.setClientStatus status setting, s.client)

def applyUpdatePolicy [DecidableEq β] (b : Backend β) (policy : Policy) (failure : Option Bytes) (s : Setting β) :
    Backend β × UpdateStatus × Option UpdateError :=
  match verify policy with
  | .error e => (b, .zero, some (.verify e))
  | .ok canonical =>
    if canonical.platform ≠ Build.currentPlatform then
      (b, .zero, some (.platform canonical.platform))
    else
      match b.load with
      | (b', some e) => (b', .zero, some (.load e))
      | (b', none) => b'.applyVerified canonical failure s

end Backend

end ScaleTail.OTA
