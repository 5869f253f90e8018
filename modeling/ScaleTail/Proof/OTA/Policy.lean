import ScaleTail.Lib.Runs
import ScaleTail.OTA.Backend
import ScaleTail.Proof.OTA.Canonical

/-! # Policies over restarts and failing writes -/

namespace ScaleTail.OTA

open Go Lib Backend FileStore Build

variable {β : Type}

/-- What a run is made of. Whatever else the daemon does may change the preferences, and may save the
state file. -/
inductive PolicyOp (β : Type)
  | apply (policy : Policy) (failure : Option Bytes) (setting : Setting β)
  | acknowledge (failure : Option Bytes)
  | status
  | restart (version : Bytes) (prefs : Prefs β) (configLocked : Bool)
  | other (prefs : Prefs β) (flushes : Bool)

def Backend.restart (b : Backend β) (version : Bytes) (prefs : Prefs β) (configLocked : Bool) :
    Backend β :=
  .new version (b.store.map FileStore.reopen) prefs configLocked

def Backend.persisted (b : Backend β) : UpdateState := (b.store.bind FileStore.disk).getD .zero

abbrev Backend.reread (b : Backend β) : Backend β := { b with loaded := true, update := b.persisted }

def FileStore.Stranded (s : FileStore) (x : UpdateState) : Prop := s.cache = some x ∧ s.disk ≠ some x

def Backend.Stops (b : Backend β) (s : Setting β) : Prop :=
  ¬ b.configLocked ∧ s.checks ⟨false, b.prefs.other⟩ = []

instance (b : Backend β) (s : Setting β) : Decidable (b.Stops s) :=
  inferInstanceAs (Decidable (_ ∧ _))

theorem joinErrors_eq_none {errs : List Bytes} : joinErrors errs = none ↔ errs = [] := by
  unfold joinErrors
  split_ifs with empty <;> simp [empty]

theorem Backend.checkPrefs_stop (b : Backend β) (s : Setting β) :
    b.checkPrefs ⟨false, b.prefs.other⟩ s = none ↔ b.Stops s := by
  unfold checkPrefs Backend.Stops
  by_cases locked : b.configLocked
  · simp [locked]
  · simp [locked, joinErrors_eq_none]

theorem Backend.stopNetwork_cases [DecidableEq β] (b : Backend β) (s : Setting β) (running : b.prefs.wantRunning) :
    (¬ b.Stops s ∧ ∃ e, b.stopNetwork s = (b, some e)) ∨
      b.Stops s ∧ b.stopNetwork s =
        (setPrefs { b with overrideAlwaysOn := true } ⟨false, b.prefs.other⟩ s, none) := by
  have edited : (⟨some false, id⟩ : MaskedPrefs β).apply b.prefs = ⟨false, b.prefs.other⟩ := rfl
  have ne : (⟨false, b.prefs.other⟩ : Prefs β) ≠ b.prefs := by
    intro same
    rw [← same] at running
    cases running
  unfold stopNetwork editPrefs
  rw [joinErrors_eq_none.2 rfl]
  dsimp only
  rw [edited]
  cases check : b.checkPrefs ⟨false, b.prefs.other⟩ s with
  | some e =>
    refine .inl ⟨fun stops => ?_, e, rfl⟩
    rw [(b.checkPrefs_stop s).2 stops] at check
    cases check
  | none =>
    refine .inr ⟨(b.checkPrefs_stop s).1 check, ?_⟩
    simp [ne, running]

theorem Backend.setPrefs_fields (b : Backend β) (p : Prefs β) (s : Setting β) :
    ∃ q o, b.setPrefs p s = { b with
      prefs := q, overrideAlwaysOn := o
      store := if s.flushes then b.store.map flush else b.store } := by
  unfold setPrefs
  by_cases on : s.saving = .saved ∧ (b.reconcilePrefs p s).1.wantRunning
  · rw [if_pos on]
    exact ⟨_, _, rfl⟩
  · rw [if_neg on]
    exact ⟨_, _, rfl⟩

theorem Backend.stopNetwork_fields [DecidableEq β] (b : Backend β) (s : Setting β)
    (running : b.prefs.wantRunning) :
    ∃ q o, (b.stopNetwork s).1 = { b with
        prefs := q, overrideAlwaysOn := o
        store := if b.Stops s ∧ s.flushes then b.store.map flush else b.store } := by
  rcases b.stopNetwork_cases s running with ⟨no, e, same⟩ | ⟨stops, same⟩
  · refine ⟨b.prefs, b.overrideAlwaysOn, ?_⟩
    simp [same, no]
  · obtain ⟨q, o, set⟩ := setPrefs_fields { b with overrideAlwaysOn := true }
      ⟨false, b.prefs.other⟩ s
    refine ⟨q, o, ?_⟩
    rw [same, set]
    by_cases flushes : s.flushes <;> simp [stops, flushes]

def UpdateError.Refusal : UpdateError → Prop
  | stop _ => False
  | _ => True

theorem stopped_eq (r : Backend β × Option Bytes) :
    (match r with
      | (b, some e) => (b, b.updateStatus, some (UpdateError.stop e))
      | (b, none) => (b, b.updateStatus, none)) = (r.1, r.1.updateStatus, r.2.map .stop) := by
  obtain ⟨b, _ | e⟩ := r <;> rfl

theorem stopped_refusal {o : Option Bytes} {e : UpdateError} (mem : e ∈ o.map .stop) : ¬ e.Refusal := by
  obtain ⟨text, -, rfl⟩ := Option.map_eq_some_iff.1 mem
  exact id

section
variable [Unicode] [Netip] [Signing] [Build] {x : UpdateState} {s : FileStore} {b : Backend β}

structure UpdateState.Valid (x : UpdateState) : Prop where
  schema : x.schema = policySchema
  policy : verify x.policy = .ok x.policy
  platform : x.policy.platform = Build.currentPlatform
  short : Build.encodedLen x ≤ maxPolicyStateBytes

structure Kept (b : Backend β) : Prop where
  memory : b.loaded → b.update = b.persisted
  fresh : ¬ b.loaded → b.update = .zero ∧ ∀ s ∈ b.store, s.cache = s.disk
  cached : ∀ s ∈ b.store, s.cache = none → s.disk = none
  valid : ∀ s ∈ b.store, ∀ x, s.cache = some x ∨ s.disk = some x → x.Valid

namespace Kept

variable {b : Backend β}

theorem persisted (h : Kept b) : b.persisted = .zero ∨ b.persisted.Valid := by
  unfold Backend.persisted
  cases disk : b.store.bind (·.disk) with
  | none => exact .inl rfl
  | some x =>
    obtain ⟨s, store, disk⟩ := Option.bind_eq_some_iff.1 disk
    exact .inr (h.valid s store x (.inr disk))

theorem load (h : Kept b) : b.load = (b.reread, none) := by
  unfold Backend.load Backend.reread
  by_cases loaded : b.loaded
  · rw [if_pos loaded, ← h.memory loaded, ← loaded]
  obtain ⟨zero, same⟩ := h.fresh loaded
  rw [if_neg loaded]
  cases store : b.store with
  | none => simp [Backend.persisted, store, zero]
  | some s =>
    have same := same s store
    cases cache : s.cache with
    | none => simp [Backend.persisted, store, ← same, cache, zero]
    | some x =>
      have valid := h.valid s store x (.inl cache)
      have pos := encodedLen_pos x
      have size : ¬ (encodedLen x = 0 ∨ encodedLen x > maxPolicyStateBytes) := by
        have := valid.short
        omega
      simp only [Option.bind_some, cache, if_neg size, valid.schema, ne_eq, not_true_eq_false,
        if_false, valid.policy, valid.platform, Backend.persisted, store, ← same,
        Option.getD_some]
      rw [← valid.schema]

theorem restart (h : Kept b) (version : Bytes) (prefs : Prefs β) (configLocked : Bool) :
    Kept (b.restart version prefs configLocked) ∧
      (b.restart version prefs configLocked).persisted = b.persisted := by
  have same : (b.restart version prefs configLocked).persisted = b.persisted := by
    unfold Backend.persisted Backend.restart Backend.new
    cases b.store <;> rfl
  refine ⟨⟨nofun, fun _ => ⟨rfl, ?_⟩, ?_, ?_⟩, same⟩
  all_goals
    intro t reopened
    obtain ⟨s, store, rfl⟩ := Option.map_eq_some_iff.1 reopened
  · rfl
  · exact id
  · exact fun x which => h.valid s store x (.inr (which.elim id id))

theorem reload (h : Kept b) (version : Bytes) (prefs : Prefs β) (configLocked : Bool) :
    (b.restart version prefs configLocked).load =
      ({ b.restart version prefs configLocked with loaded := true, update := b.persisted }, none) := by
  obtain ⟨kept, same⟩ := h.restart version prefs configLocked
  rw [kept.load, Backend.reread, same]

theorem read (h : Kept b) : Kept b.reread :=
  { h with memory := fun _ => rfl, fresh := fun no => absurd rfl no }

theorem strand (h : Kept b) (loaded : b.loaded) {s : FileStore} (store : b.store = some s)
    {x : UpdateState} (valid : x.Valid) :
    Kept { b with store := some { s with cache := some x } } ∧
      { b with store := some { s with cache := some x } }.persisted = b.persisted := by
  have same : { b with store := some { s with cache := some x } }.persisted = b.persisted := by
    simp [Backend.persisted, store]
  refine ⟨⟨fun _ => (h.memory loaded).trans same.symm, fun no => absurd loaded no, ?_, ?_⟩, same⟩
  · intro t ht none
    obtain rfl := Option.some.inj ht
    cases none
  · intro t ht y which
    obtain rfl := Option.some.inj ht
    rcases which with cached | saved
    · obtain rfl := Option.some.inj cached
      exact valid
    · exact h.valid s store y (.inr saved)

end Kept

theorem kept_saved (loaded : b.loaded)
    (store : b.store = some ⟨some x, some x⟩) (memory : b.update = x) (valid : x.Valid) : Kept b where
  memory _ := by simp [memory, Backend.persisted, store]
  fresh no := absurd loaded no
  cached s hs none := by
    obtain rfl := Option.some.inj (store.symm.trans hs)
    cases none
  valid s hs y which := by
    obtain rfl := Option.some.inj (store.symm.trans hs)
    simp only [or_self, Option.some.injEq] at which
    exact which ▸ valid

theorem UpdateState.Valid.ne_zero (valid : x.Valid) : x ≠ .zero := by
  rintro rfl
  exact absurd valid.schema (by decide)

theorem Kept.write (h : Kept b) (loaded : b.loaded)
    (valid : encodedLen x ≤ maxPolicyStateBytes → x.Valid) (failure : Option Bytes)
    (new : ∀ s ∈ b.store, s.cache ≠ some x) :
    (∃ e b', b.writeUpdateState x failure = (b', some e) ∧ Kept b' ∧ b'.loaded ∧
        b'.persisted = b.persisted) ∨
      x.Valid ∧ b.writeUpdateState x failure =
        ({ b with store := some ⟨some x, some x⟩ }, none) := by
  unfold writeUpdateState
  cases store : b.store with
  | none => exact .inl ⟨_, b, rfl, h, loaded, rfl⟩
  | some s =>
    dsimp only
    by_cases long : encodedLen x > maxPolicyStateBytes
    · rw [if_pos long]
      exact .inl ⟨_, b, rfl, h, loaded, rfl⟩
    have valid := valid (not_lt.1 long)
    rw [if_neg long]
    unfold FileStore.write
    rw [if_neg (new s store)]
    cases failure with
    | none => exact .inr ⟨valid, rfl⟩
    | some e =>
      obtain ⟨kept, same⟩ := h.strand loaded store valid
      exact .inl ⟨e, _, rfl, kept, loaded, same⟩

theorem Kept.write_cached (h : Kept b) (store : b.store = some s)
    (cached : s.cache = some x) (failure : Option Bytes) :
    b.writeUpdateState x failure = (b, none) := by
  have short := (h.valid s store x (.inl cached)).short
  unfold writeUpdateState
  rw [store]
  dsimp only
  rw [if_neg (not_lt.2 short)]
  unfold FileStore.write
  rw [if_pos cached, ← store]

def Exposes (b : Backend β) : PolicyOp β → Prop
  | .apply policy _ setting =>
    ∃ c s, verify policy = .ok c ∧ c.platform = Build.currentPlatform ∧
      b.update.policy.revision < c.revision ∧ b.store = some s ∧ s.Stranded (b.nextState c) ∧
      ¬ (b.isActive c ∧ b.prefs.wantRunning ∧ b.Stops setting ∧ setting.flushes)
  | .acknowledge _ =>
    ∃ s, ¬ b.forcedUpdateRequired ∧ b.update.resumePending ∧ b.store = some s ∧
      s.Stranded { b.update with resumePending := false }
  | .other _ flushes => flushes ∧ ∃ s x, b.store = some s ∧ s.Stranded x
  | .status => False
  | .restart _ _ _ => False

theorem Kept.loaded_of_stranded (h : Kept b) (store : b.store = some s)
    (stranded : s.Stranded x) : b.loaded := by
  by_contra no
  have same := (h.fresh no).2 s store
  exact stranded.2 (same.symm.trans stranded.1)

theorem Kept.stranded (h : Kept b) (loaded : b.loaded) (store : b.store = some s)
    (cached : s.cache = some x) (ne : b.update ≠ x) : s.Stranded x := by
  refine ⟨cached, fun saved => ne ?_⟩
  rw [h.memory loaded, Backend.persisted, store, Option.bind_some, saved, Option.getD_some]

theorem kept_new (version : Bytes) (store : Option FileStore) (prefs : Prefs β) (configLocked : Bool)
    (empty : ∀ s ∈ store, s = ⟨none, none⟩) : Kept (Backend.new version store prefs configLocked) where
  memory loaded := by cases loaded
  fresh _ := ⟨rfl, fun s hs => by rw [empty s hs]⟩
  cached s hs _ := by rw [empty s hs]
  valid s hs x which := by
    rw [empty s hs] at which
    rcases which with which | which <;> cases which

variable [DecidableEq β]

def PolicyOp.run (b : Backend β) : PolicyOp β → Backend β × Option UpdateError
  | apply policy failure setting =>
    let (b, _, e) := b.applyUpdatePolicy policy failure setting
    (b, e)
  | acknowledge failure => b.acknowledgeResume failure
  | status =>
    let (b, _, e) := b.readUpdateStatus
    (b, e)
  | restart version prefs configLocked => (b.restart version prefs configLocked, none)
  | other prefs flushes =>
    ({ b with prefs, store := if flushes then b.store.map FileStore.flush else b.store }, none)

/-- What is asked of a step: the revision in the file does not go back, memory and file agree, a
refused call changes neither, and a restart reads the file without an error and as it is. -/
structure StepSound (b : Backend β) (op : PolicyOp β) : Prop where
  revision : b.persisted.policy.revision ≤ (op.run b).1.persisted.policy.revision
  memory : (op.run b).1.loaded → (op.run b).1.update = (op.run b).1.persisted
  refused : ∀ e ∈ (op.run b).2, e.Refusal →
    (op.run b).1.persisted = b.persisted ∧ (b.loaded → (op.run b).1.update = b.update)
  reload : ∀ version prefs configLocked,
    ((op.run b).1.restart version prefs configLocked).load =
      ({ (op.run b).1.restart version prefs configLocked with
          loaded := true, update := (op.run b).1.persisted }, none)

section
variable {b : Backend β}

theorem stepSound_of_kept {op : PolicyOp β} (kept : Kept (op.run b).1)
    (revision : b.persisted.policy.revision ≤ (op.run b).1.persisted.policy.revision)
    (refused : ∀ e ∈ (op.run b).2, e.Refusal →
      (op.run b).1.persisted = b.persisted ∧ (b.loaded → (op.run b).1.update = b.update)) :
    StepSound b op :=
  ⟨revision, kept.memory, refused, kept.reload⟩

theorem Kept.apply_new (h : Kept b) (loaded : b.loaded) {c : Policy} (good : verify c = .ok c)
    (platform : c.platform = currentPlatform)
    (newer : b.update.policy.revision < c.revision) (failure : Option Bytes) (setting : Setting β)
    (new : ∀ s ∈ b.store, s.cache ≠ some (b.nextState c)) :
    (∃ e b' st, b.applyVerified c failure setting = (b', st, some e) ∧ Kept b' ∧ b'.loaded ∧
        b'.persisted = b.persisted) ∨
      ∃ b' st e, b.applyVerified c failure setting = (b', st, e) ∧ Kept b' ∧
        b'.persisted = b.nextState c ∧ ∀ e' ∈ e, ¬ e'.Refusal := by
  have valid : encodedLen (b.nextState c) ≤ maxPolicyStateBytes → (b.nextState c).Valid :=
    fun short => ⟨rfl, good, platform, short⟩
  unfold applyVerified
  rw [if_neg (not_lt.2 newer.le), if_neg newer.ne]
  rcases h.write loaded valid failure new with ⟨e, b', write, kept, loaded', same⟩ | ⟨valid, write⟩
  · rw [write]
    exact .inl ⟨_, b', _, rfl, kept, loaded', same⟩
  right
  rw [write]
  have saved : ∀ b' : Backend β, b'.loaded → b'.update = b.nextState c →
      b'.store = some ⟨some (b.nextState c), some (b.nextState c)⟩ →
      Kept b' ∧ b'.persisted = b.nextState c := by
    intro b' loaded memory store
    exact ⟨kept_saved loaded store memory valid, by simp [Backend.persisted, store]⟩
  split_ifs with running
  · obtain ⟨q, o, fields⟩ := stopNetwork_fields { b with
      store := some ⟨some (b.nextState c), some (b.nextState c)⟩, update := b.nextState c }
      setting running.2
    refine ⟨_, _, _, stopped_eq _, and_assoc.1 ⟨saved _ ?_ ?_ ?_, fun e he => stopped_refusal he⟩⟩
    all_goals rw [fields]
    · exact loaded
    · simp [flush]
  · exact ⟨_, _, none, rfl, and_assoc.1 ⟨saved _ loaded rfl rfl, nofun⟩⟩

theorem Kept.apply_stranded (h : Kept b) (loaded : b.loaded) {c : Policy}
    (newer : b.update.policy.revision < c.revision) (failure : Option Bytes) (setting : Setting β)
    (store : b.store = some s) (cached : s.cache = some (b.nextState c)) :
    ∃ b' st e, b.applyVerified c failure setting = (b', st, e) ∧ b'.loaded ∧
      b'.update = b.nextState c ∧ (∀ e' ∈ e, ¬ e'.Refusal) ∧
      if b.isActive c ∧ b.prefs.wantRunning ∧ b.Stops setting ∧ setting.flushes then Kept b'
      else b'.persisted = b.persisted := by
  have valid := h.valid s store _ (.inl cached)
  unfold applyVerified
  rw [if_neg (not_lt.2 newer.le), if_neg newer.ne, h.write_cached store cached]
  dsimp only
  by_cases running : b.isActive c ∧ b.prefs.wantRunning
  · rw [if_pos running]
    obtain ⟨q, o, fields⟩ := stopNetwork_fields { b with update := b.nextState c } setting
      running.2
    refine ⟨_, _, _, stopped_eq _, by rw [fields]; exact loaded, by rw [fields], ?_, ?_⟩
    · exact fun e he => stopped_refusal he
    rw [fields]
    by_cases saved : Backend.Stops { b with update := b.nextState c } setting ∧ setting.flushes
    · rw [if_pos ⟨running.1, running.2, saved⟩]
      refine kept_saved loaded ?_ rfl valid
      rw [if_pos saved, store, Option.map_some, flush, cached]
    · rw [if_neg fun all => saved all.2.2]
      dsimp only [Backend.persisted]
      rw [if_neg saved]
  · rw [if_neg running]
    refine ⟨_, _, none, rfl, loaded, rfl, nofun, ?_⟩
    rw [if_neg fun all => running ⟨all.1, all.2.1⟩]
    rfl

def Settled (b : Backend β) (op : PolicyOp β) : Prop :=
  (StepSound b op ↔ ¬ Exposes b op) ∧ (¬ Exposes b op → Kept (op.run b).1)

section
variable {op : PolicyOp β} {r : Backend β × Option UpdateError} (run : op.run b = r)
include run

theorem settled_of_read (h : Kept b) (safe : ¬ Exposes b op) (kept : Kept r.1)
    (persisted : r.1.persisted = b.persisted) (loaded : b.loaded → r.1.loaded) : Settled b op := by
  subst run
  refine ⟨iff_of_true (stepSound_of_kept kept (by rw [persisted]) fun e _ _ =>
    ⟨persisted, fun before => ?_⟩) safe, fun _ => kept⟩
  rw [kept.memory (loaded before), h.memory before, persisted]

theorem settled_of_saved (safe : ¬ Exposes b op) (kept : Kept r.1)
    (revision : b.persisted.policy.revision ≤ r.1.persisted.policy.revision)
    (accepted : ∀ e ∈ r.2, ¬ e.Refusal) : Settled b op := by
  subst run
  exact ⟨iff_of_true (stepSound_of_kept kept revision fun e he no => absurd no (accepted e he)) safe,
    fun _ => kept⟩

theorem settled_of_exposed (exposes : Exposes b op) (loaded : r.1.loaded) (ne : r.1.update ≠ r.1.persisted) :
    Settled b op := by
  subst run
  exact ⟨iff_of_false (fun sound => ne (sound.memory loaded)) (not_not.2 exposes),
    fun safe => absurd exposes safe⟩

end

theorem Kept.apply_refused (h : Kept b) {policy : Policy}
    (refused : ∀ c, verify policy = .ok c → c.platform ≠ currentPlatform)
    (failure : Option Bytes) (setting : Setting β) : Settled b (.apply policy failure setting) := by
  have run : ((PolicyOp.apply policy failure setting).run b).1 = b := by
    cases verified : verify policy with
    | error e => simp [PolicyOp.run, applyUpdatePolicy, verified]
    | ok c => simp [PolicyOp.run, applyUpdatePolicy, verified, refused c verified]
  refine settled_of_read (r := (b, _)) (Prod.ext run rfl) h ?_ h rfl id
  rintro ⟨c, s, ok, platform, -⟩
  exact refused c ok platform

theorem Kept.apply_loaded (h : Kept b) (loaded : b.loaded) {policy c : Policy}
    (verified : verify policy = .ok c) (platform : c.platform = currentPlatform)
    (failure : Option Bytes) (setting : Setting β) : Settled b (.apply policy failure setting) := by
  have load : b.load = (b, none) := by rw [Backend.load, if_pos loaded]
  have run : (PolicyOp.apply policy failure setting).run b =
      ((b.applyVerified c failure setting).1, (b.applyVerified c failure setting).2.2) := by
    simp [PolicyOp.run, applyUpdatePolicy, verified, platform, load]
  by_cases newer : b.update.policy.revision < c.revision
  · have ne : b.update ≠ b.nextState c := by
      intro same
      rw [same] at newer
      exact lt_irrefl _ newer
    by_cases cached : ∃ s, b.store = some s ∧ s.cache = some (b.nextState c)
    · obtain ⟨s, store, cached⟩ := cached
      obtain ⟨b', st, e, same, loaded', memory, accepted, saved⟩ :=
        h.apply_stranded loaded newer failure setting store cached
      rw [same] at run
      by_cases flush : b.isActive c ∧ b.prefs.wantRunning ∧ b.Stops setting ∧ setting.flushes
      · rw [if_pos flush] at saved
        refine settled_of_saved run ?_ saved ?_ accepted
        · rintro ⟨c', s', ok, -, -, -, -, no⟩
          obtain rfl := Except.ok.inj (verified.symm.trans ok)
          exact no flush
        · rw [← saved.memory loaded', memory, ← h.memory loaded]
          exact newer.le
      · rw [if_neg flush] at saved
        have stranded := h.stranded loaded store cached ne
        refine settled_of_exposed run ⟨c, s, verified, platform, newer, store, stranded, flush⟩ loaded' ?_
        rw [memory, saved, ← h.memory loaded]
        exact ne.symm
    · have safe : ¬ Exposes b (.apply policy failure setting) := by
        rintro ⟨c', s, ok, -, -, store, stranded, -⟩
        obtain rfl := Except.ok.inj (verified.symm.trans ok)
        exact cached ⟨s, store, stranded.1⟩
      have new : ∀ s ∈ b.store, s.cache ≠ some (b.nextState c) :=
        fun s store same => cached ⟨s, store, same⟩
      rcases h.apply_new loaded (verify_verified verified) platform newer failure setting new with
        ⟨e, b', st, same, kept, loaded', persisted⟩ | ⟨b', st, e, same, kept, persisted, accepted⟩
      · rw [same] at run
        exact settled_of_read run h safe kept persisted fun _ => loaded'
      · rw [same] at run
        refine settled_of_saved run safe kept ?_ accepted
        rw [persisted, ← h.memory loaded]
        exact newer.le
  · have unchanged : (b.applyVerified c failure setting).1 = b := by
      unfold applyVerified
      by_cases stale : c.revision < b.update.policy.revision
      · rw [if_pos stale]
      · rw [if_neg stale, if_pos (by omega)]
        split_ifs <;> rfl
    rw [unchanged] at run
    refine settled_of_read run h ?_ h rfl id
    rintro ⟨c', s, ok, -, newer', -⟩
    obtain rfl := Except.ok.inj (verified.symm.trans ok)
    exact newer newer'

theorem Kept.acknowledge_loaded (h : Kept b) (loaded : b.loaded) (failure : Option Bytes) :
    Settled b (.acknowledge failure) := by
  have load : b.load = (b, none) := by rw [Backend.load, if_pos loaded]
  by_cases idle : b.forcedUpdateRequired ∨ ¬ b.update.resumePending
  · have run : (PolicyOp.acknowledge failure).run b = (b, none) := by
      simp only [PolicyOp.run, acknowledgeResume, load, if_pos idle]
    refine settled_of_read run h ?_ h rfl id
    rintro ⟨s, required, pending, -⟩
    exact idle.elim required fun no => no pending
  · obtain ⟨required, pending⟩ := not_or.1 idle
    rw [not_not] at pending
    obtain ⟨x, next⟩ : ∃ x, x = { b.update with resumePending := false } := ⟨_, rfl⟩
    have ne : b.update ≠ x := by
      intro same
      rw [same, next] at pending
      cases pending
    -- The state has been read from the file, so it is valid without its mark, too.
    have valid (short : encodedLen x ≤ maxPolicyStateBytes) : x.Valid := by
      rw [h.memory loaded] at pending next
      rcases h.persisted with zero | valid
      · rw [zero] at pending
        cases pending
      · subst next
        exact { valid with short }
    by_cases cached : ∃ s, b.store = some s ∧ s.cache = some x
    · obtain ⟨s, store, cached⟩ := cached
      have run : (PolicyOp.acknowledge failure).run b = ({ b with update := x }, none) := by
        simp only [PolicyOp.run, acknowledgeResume, load, if_neg idle, ← next,
          h.write_cached store cached]
      have stranded := h.stranded loaded store cached ne
      refine settled_of_exposed run ⟨s, required, pending, store, next ▸ stranded⟩ loaded fun same => ?_
      exact ne ((h.memory loaded).trans same.symm)
    · have safe : ¬ Exposes b (.acknowledge failure) := by
        rintro ⟨s, -, -, store, stranded⟩
        exact cached ⟨s, store, next ▸ stranded.1⟩
      rcases h.write loaded valid failure fun s store same => cached ⟨s, store, same⟩ with
        ⟨e, b', write, kept, loaded', persisted⟩ | ⟨valid, write⟩
      · have run : (PolicyOp.acknowledge failure).run b = (b', some (.write e)) := by
          simp only [PolicyOp.run, acknowledgeResume, load, if_neg idle, ← next, write]
        exact settled_of_read run h safe kept persisted fun _ => loaded'
      · have run : (PolicyOp.acknowledge failure).run b =
            ({ b with store := some ⟨some x, some x⟩, update := x }, none) := by
          simp only [PolicyOp.run, acknowledgeResume, load, if_neg idle, ← next, write]
        refine settled_of_saved run safe (kept_saved loaded rfl rfl valid) ?_ nofun
        rw [← h.memory loaded, next]
        exact le_rfl

theorem Kept.other (h : Kept b) (prefs : Prefs β) (flushes : Bool) :
    Settled b (.other prefs flushes) := by
  cases flushes with
  | false =>
    refine settled_of_read rfl h (fun exposes => by cases exposes.1) ?_ rfl id
    exact { h with }
  | true =>
    by_cases stranded : ∃ s x, b.store = some s ∧ s.Stranded x
    · obtain ⟨s, x, store, stranded⟩ := id stranded
      have loaded := h.loaded_of_stranded store stranded
      refine settled_of_exposed rfl ⟨rfl, s, x, store, stranded⟩ loaded ?_
      have valid := h.valid s store x (.inl stranded.1)
      have persisted : ((PolicyOp.other prefs true).run b).1.persisted = x := by
        simp [PolicyOp.run, Backend.persisted, store, flush, stranded.1]
      rw [persisted]
      intro same
      have memory : x = b.persisted := same.symm.trans (h.memory loaded)
      unfold Backend.persisted at memory
      rw [store, Option.bind_some] at memory
      cases disk : s.disk with
      | none =>
        rw [disk] at memory
        exact valid.ne_zero memory
      | some y =>
        rw [disk, Option.getD_some] at memory
        exact stranded.2 (disk.trans (congrArg some memory.symm))
    · have same : b.store.map flush = b.store := by
        cases store : b.store with
        | none => rfl
        | some s =>
          have level : s.cache = s.disk := by
            cases cache : s.cache with
            | none => exact (h.cached s store cache).symm
            | some x =>
              by_contra ne
              exact stranded ⟨s, x, store, cache, fun saved => ne saved.symm⟩
          exact congrArg (fun d => some (⟨s.cache, d⟩ : FileStore)) level
      have run : (PolicyOp.other prefs true).run b = ({ b with prefs }, none) := by
        simp only [PolicyOp.run, if_true, same]
      refine settled_of_read run h (fun exposes => stranded exposes.2) ?_ rfl id
      exact { h with }

theorem settled_of_unread (unread : ¬ b.loaded) {op : PolicyOp β} (run : op.run b = op.run b.reread)
    (level : ∀ b' : Backend β, b'.store = b.store → ¬ Exposes b' op)
    (settled : Settled b.reread op) : Settled b op := by
  have sound := settled.1.2 (level _ rfl)
  have kept := settled.2 (level _ rfl)
  rw [← run] at kept
  refine ⟨iff_of_true (stepSound_of_kept kept ?_ fun e he no => ⟨?_, fun loaded => absurd loaded unread⟩)
    (level b rfl), fun _ => kept⟩
  · rw [run]
    exact sound.revision
  · rw [run]
    exact (sound.refused e (run ▸ he) no).1

theorem Kept.settled (h : Kept b) (op : PolicyOp β) : Settled b op := by
  have load := h.load
  have again : b.reread.load = (b.reread, none) := rfl
  have unstranded : ¬ b.loaded → ∀ s x, b.store = some s → ¬ s.Stranded x :=
    fun unread s x store stranded => unread (h.loaded_of_stranded store stranded)
  cases op with
  | apply policy failure setting =>
    by_cases accepted : ∃ c, verify policy = .ok c ∧ c.platform = currentPlatform
    · obtain ⟨c, verified, platform⟩ := accepted
      by_cases loaded : b.loaded
      · exact h.apply_loaded loaded verified platform failure setting
      refine settled_of_unread loaded ?_ ?_
        (h.read.apply_loaded rfl verified platform failure setting)
      · simp [PolicyOp.run, applyUpdatePolicy, verified, platform, load, again]
      · rintro b' same ⟨c, s, -, -, -, store, stranded, -⟩
        exact unstranded loaded s _ (same.symm.trans store) stranded
    · exact h.apply_refused (fun c ok platform => accepted ⟨c, ok, platform⟩) failure setting
  | acknowledge failure =>
    by_cases loaded : b.loaded
    · exact h.acknowledge_loaded loaded failure
    refine settled_of_unread loaded ?_ ?_ (h.read.acknowledge_loaded rfl failure)
    · simp only [PolicyOp.run, acknowledgeResume, load, again]
    · rintro b' same ⟨s, -, -, store, stranded⟩
      exact unstranded loaded s _ (same.symm.trans store) stranded
  | status =>
    have run : PolicyOp.status.run b = (b.reread, none) := by
      simp only [PolicyOp.run, readUpdateStatus, load]
    exact settled_of_read run h id h.read rfl fun _ => rfl
  | restart version prefs configLocked =>
    obtain ⟨kept, same⟩ := h.restart version prefs configLocked
    have revision := congrArg (fun x => x.policy.revision) same
    exact ⟨iff_of_true (stepSound_of_kept kept revision.ge nofun) id,
      fun _ => kept⟩
  | other prefs flushes => exact h.other prefs flushes

end

/-- Along a run from an empty state file every step is sound if and only if no step exposes a
state that is stranded in the store. -/
theorem policy_sound_iff (version : Bytes) (stored : Bool) (prefs : Prefs β) (configLocked : Bool)
    (ops : List (PolicyOp β)) :
    let first : Backend β :=
      .new version (if stored then some ⟨none, none⟩ else none) prefs configLocked
    Along (fun b op => (PolicyOp.run b op).1) StepSound first ops ↔
      Along (fun b op => (PolicyOp.run b op).1) (fun b op => ¬ Exposes b op) first ops := by
  intro first
  have start : Kept first := by
    refine kept_new version _ prefs configLocked fun s hs => ?_
    cases stored with
    | false => cases hs
    | true => exact (Option.some.inj hs).symm
  exact along_iff (fun b op h => (h.settled op).1) (fun b op h => (h.settled op).2) start ops

end

namespace Sample

@[reducible]
def signing : Signing where
  base64Decode s := some (List.replicate (if s = publicKeyBase64 then 32 else 64) 0)
  verify _ _ _ := true

@[reducible]
def build : Build := ⟨bytes "windows-amd64", fun _ => 1, fun _ => Nat.one_pos⟩

def forced : Policy where
  revision := 1
  action := actionForced
  version := bytes "2.0.0"
  platform := bytes "windows-amd64"
  sha256 := List.replicate 64 48
  fileSize := 1
  downloadURL := bytes "https://a.example/x"
  signature := bytes "v3.x"

def setting : Setting Unit := ⟨fun _ => [], false, fun u => (u, false), .saved, true⟩

attribute [local instance] Unicode.ascii Netip.none signing build

def stopped : Backend Unit := .new (bytes "1.0.0") (some ⟨none, none⟩ ) ⟨false, ()⟩ false

def applyForced : PolicyOp Unit := .apply forced (some (bytes "disk full")) setting

/-- A forced policy that cannot be written is accepted at the second attempt, and is gone after a
restart. -/
theorem forced_policy_lost :
    let once := applyForced.run stopped
    let twice := applyForced.run once.1
    let again := PolicyOp.status.run (twice.1.restart (bytes "1.0.0") ⟨false, ()⟩ false)
    once.2 = some (.persist (bytes "disk full")) ∧ twice.2 = none ∧
      twice.1.forcedUpdateRequired ∧ twice.1.update.policy = forced ∧
      twice.1.persisted = .zero ∧ again.2 = none ∧ ¬ again.1.forcedUpdateRequired ∧
      ¬ Along (fun b op => (PolicyOp.run b op).1) StepSound stopped [applyForced, applyForced] := by
  have run : (applyForced.run (applyForced.run stopped).1).1.loaded ∧
      (applyForced.run (applyForced.run stopped).1).1.update ≠
        (applyForced.run (applyForced.run stopped).1).1.persisted := by decide +kernel
  refine ⟨by decide +kernel, by decide +kernel, by decide +kernel, by decide +kernel,
    by decide +kernel, by decide +kernel, by decide +kernel, ?_⟩
  exact fun sound => run.2 (sound.2.1.memory run.1)

end Sample

end ScaleTail.OTA
