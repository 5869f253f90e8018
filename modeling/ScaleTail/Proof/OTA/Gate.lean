import ScaleTail.Proof.OTA.Policy

/-! # The gate of a forced update -/

namespace ScaleTail.OTA

open Go Lib Option Backend

variable {β : Type}

inductive GateOp (β : Type)
  | apply (policy : Policy) (failure : Option Bytes) (setting : Setting β)
  | editPrefs (access : List Bytes) (edits : MaskedPrefs β) (setting : Setting β)
  | start (updatePrefs : Option (Prefs β)) (starting : Starting β)
  | sysPolicyChanged (alwaysOnChanged : Bool) (setting : Setting β)
  | clientStatus (status : Option (ClientStatus β)) (setting : Setting β)
  | refuseLogging (setting : Setting β)

def Backend.Gate (b : Backend β) : Prop := b.forcedUpdateRequired → ¬ b.prefs.wantRunning

section
variable {b : Backend β} {p : Prefs β} {s : Setting β}

@[simp]
theorem setPrefs_required : (b.setPrefs p s).forcedUpdateRequired = b.forcedUpdateRequired := by
  unfold setPrefs
  dsimp only
  split_ifs <;> rfl

theorem setPrefs_prefs : (b.setPrefs p s).prefs =
    if s.saving = .denied then b.prefs else (b.reconcilePrefs p s).1 := by
  unfold setPrefs
  dsimp only
  split_ifs with _ denied denied <;> simp [savePrefs, denied]

theorem reconcile_off (required : b.forcedUpdateRequired) :
    (b.reconcilePrefs p s).1.wantRunning = false := by
  cases on : p.wantRunning <;> simp [reconcilePrefs, required, on]

theorem checkPrefs_allows (check : b.checkPrefs p s = none) :
    p.wantRunning → ¬ b.forcedUpdateRequired := by
  intro on required
  unfold checkPrefs at check
  by_cases locked : b.configLocked
  · rw [if_pos locked] at check
    cases check
  · rw [if_neg locked, if_pos ⟨on, required⟩] at check
    exact absurd (joinErrors_eq_none.1 check) (List.cons_ne_nil _ _)

theorem gate_saved {b' : Backend β} {q : Prefs β}
    (required : b'.forcedUpdateRequired = b.forcedUpdateRequired)
    (prefs : b'.prefs = if s.saving = .denied then b.prefs else q)
    (off : b.forcedUpdateRequired → q.wantRunning = false) :
    b'.Gate ↔ ¬ (b.prefs.wantRunning ∧ b.forcedUpdateRequired ∧ s.saving = .denied) := by
  unfold Backend.Gate
  rw [required, prefs]
  split_ifs with denied
  · exact ⟨fun gate all => gate all.2.1 all.1, fun no r w => no ⟨w, r, denied⟩⟩
  refine iff_of_true (fun r w => ?_) fun all => denied all.2.2
  rw [off r] at w
  cases w

theorem reconcile_reports (required : b.forcedUpdateRequired) (on : p.wantRunning) :
    (b.reconcilePrefs p s).2 = true := by
  simp [reconcilePrefs, required, on]

theorem edit_gate [DecidableEq β] (access : List Bytes) (edits : MaskedPrefs β) :
    (b.editPrefs access edits s).1.Gate ↔ ¬ (b.prefs.wantRunning ∧ b.forcedUpdateRequired ∧
      ¬ (access = [] ∧ b.checkPrefs (edits.apply b.prefs) s = none ∧ s.saving ≠ .denied)) := by
  have unchanged : ∀ refused : ¬ (access = [] ∧ b.checkPrefs (edits.apply b.prefs) s = none ∧
      s.saving ≠ .denied), b.Gate ↔ ¬ (b.prefs.wantRunning ∧ b.forcedUpdateRequired ∧
        ¬ (access = [] ∧ b.checkPrefs (edits.apply b.prefs) s = none ∧ s.saving ≠ .denied)) :=
    fun refused => ⟨fun gate all => gate all.2.1 all.1, fun no r w => no ⟨w, r, refused⟩⟩
  unfold editPrefs
  cases denied : joinErrors access with
  | some =>
    apply unchanged
    rintro ⟨empty, -⟩
    rw [joinErrors_eq_none.2 empty] at denied
    cases denied
  | none =>
    have empty := joinErrors_eq_none.1 denied
    cases check : b.checkPrefs (edits.apply b.prefs) s with
    | some =>
      simp only [check]
      rw [check] at unchanged
      exact unchanged fun all => by cases all.2.1
    | none =>
      have allowed := checkPrefs_allows check
      simp only [check]
      split_ifs with same
      · rw [same] at allowed
        exact iff_of_true (fun r w => allowed w r) fun all => allowed all.1 all.2.1
      · have denied : ¬ (access = [] ∧ True ∧ s.saving ≠ .denied) ↔
            s.saving = .denied := by simp [empty]
        rw [denied]
        exact gate_saved setPrefs_required setPrefs_prefs fun r => reconcile_off r

theorem sysPolicy_gate (alwaysOnChanged : Bool) :
    (b.sysPolicyChanged alwaysOnChanged s).Gate ↔
      ¬ (b.prefs.wantRunning ∧ b.forcedUpdateRequired ∧ s.saving = .denied) := by
  have each : ∀ b' : Backend β, b'.prefs = b.prefs →
      b'.forcedUpdateRequired = b.forcedUpdateRequired →
      ((if (b'.reconcilePrefs b'.prefs s).2 then b'.setPrefs (b'.reconcilePrefs b'.prefs s).1 s
        else b').Gate ↔
        ¬ (b.prefs.wantRunning ∧ b.forcedUpdateRequired ∧ s.saving = .denied)) := by
    intro b' prefs required
    rw [← prefs, ← required]
    split_ifs with changed
    · exact gate_saved setPrefs_required setPrefs_prefs fun r => reconcile_off r
    have off : b'.forcedUpdateRequired → ¬ b'.prefs.wantRunning :=
      fun r w => changed (reconcile_reports r w)
    exact iff_of_true off fun all => off all.2.1 all.1
  apply each
  · split_ifs <;> rfl
  · split_ifs <;> rfl

theorem clientStatus_gate (status : ClientStatus β) :
    (b.setClientStatus status s).Gate ↔
      ¬ (b.prefs.wantRunning ∧ b.forcedUpdateRequired ∧ s.saving = .denied) := by
  unfold setClientStatus
  dsimp only
  split_ifs with changed
  · exact gate_saved rfl rfl fun r => reconcile_off r
  have off : b.forcedUpdateRequired → ¬ b.prefs.wantRunning := by
    intro r w
    refine changed (.inr (.inr (.inl (reconcile_reports r ?_))))
    simp [w]
  exact iff_of_true off fun all => off all.2.1 all.1

theorem started_gate {p : Prefs β} (starting : Starting β) (required : b.forcedUpdateRequired)
    (off : p.wantRunning = false) :
    ((match if p.wantRunning then starting.machineKey else none with
      | some e => (b, some e)
      | none =>
        match starting.cached with
        | none => (b, starting.client)
        | some (status, setting) => (b.setClientStatus status setting, starting.client)).1.Gate) ↔
      ¬ (b.prefs.wantRunning ∧ ¬ ∃ status setting, starting.cached = some (status, setting) ∧
        setting.saving ≠ .denied) := by
  simp only [off, Bool.false_eq_true, if_false]
  cases cached : starting.cached with
  | none =>
    simp only [reduceCtorEq, false_and, exists_false, not_false_eq_true, and_true]
    exact ⟨fun gate => gate required, fun no _ => no⟩
  | some pair =>
    obtain ⟨status, setting⟩ := pair
    simp only [clientStatus_gate, required, true_and]
    have same : (∃ st se, some (status, setting) = some (st, se) ∧ se.saving ≠ .denied) ↔
        setting.saving ≠ .denied := by
      constructor
      · rintro ⟨st, se, same, saved⟩
        obtain ⟨rfl, rfl⟩ := Prod.mk.inj (some.inj same)
        exact saved
      · exact fun saved => ⟨status, setting, rfl, saved⟩
    rw [same, not_not]

theorem clientStatus_required (status : ClientStatus β) :
    (b.setClientStatus status s).forcedUpdateRequired = b.forcedUpdateRequired := by
  unfold setClientStatus
  dsimp only
  split_ifs <;> rfl

end

section
variable [Unicode] [Netip] [Signing] [Build]

theorem load_cases (b : Backend β) :
    (∃ update, b.load = ({ b with loaded := true, update }, none)) ∨
      ∃ e, b.load = (b, some e) ∧ ¬ b.loaded := by
  unfold load
  by_cases loaded : b.loaded
  · rw [if_pos loaded]
    exact .inl ⟨b.update, by rw [← loaded]⟩
  rw [if_neg loaded]
  split
  · exact .inl ⟨b.update, rfl⟩
  split_ifs
  · exact .inr ⟨_, rfl, loaded⟩
  · exact .inr ⟨_, rfl, loaded⟩
  · split
    · exact .inr ⟨_, rfl, loaded⟩
    · split_ifs
      · exact .inr ⟨_, rfl, loaded⟩
      · exact .inl ⟨_, rfl⟩

def Takes (b : Backend β) (policy : Policy) (failure : Option Bytes) (c : Policy) : Prop :=
  verify policy = .ok c ∧ c.platform = Build.currentPlatform ∧ b.load.2 = none ∧
    b.load.1.update.policy.revision < c.revision ∧
    (b.load.1.writeUpdateState (b.load.1.nextState c) failure).2 = none

def consulted (b : Backend β) (policy : Policy) : Backend β :=
  match verify policy with
  | .error _ => b
  | .ok c => if c.platform = Build.currentPlatform then b.load.1 else b

/-- The network runs, a forced policy is in force after the operation, and the operation does not get
to turn the preference off. -/
def Slips (b : Backend β) (op : GateOp β) : Prop :=
  b.prefs.wantRunning ∧
    match op with
    | .apply policy failure setting =>
      (∃ c, Takes b policy failure c ∧ b.isActive c ∧
          ¬ (b.Stops setting ∧ setting.saving ≠ .denied)) ∨
        (¬ ∃ c, Takes b policy failure c) ∧ (consulted b policy).forcedUpdateRequired
    | .editPrefs access edits setting =>
      b.forcedUpdateRequired ∧ ¬ (access = [] ∧
        b.checkPrefs (edits.apply b.prefs) setting = none ∧ setting.saving ≠ .denied)
    | .start updatePrefs starting =>
      b.load.1.forcedUpdateRequired ∧ ¬ ∃ p, updatePrefs = some p ∧ ¬ p.wantRunning ∧
        b.load.1.checkPrefs p starting.setting = none ∧
        (starting.setting.saving ≠ .denied ∨
          ∃ status setting, starting.cached = some (status, setting) ∧ setting.saving ≠ .denied)
    | .sysPolicyChanged _ setting => b.forcedUpdateRequired ∧ setting.saving = .denied
    | .clientStatus status setting =>
      b.forcedUpdateRequired ∧ (status = none ∨ setting.saving = .denied)
    | .refuseLogging setting => b.forcedUpdateRequired ∧ setting.saving = .denied

section
variable {b : Backend β} (loaded : b.load = (b, none)) (updatePrefs : Option (Prefs β))
  (starting : Starting β)
include loaded updatePrefs starting

theorem start_gate (required : b.forcedUpdateRequired) :
    (b.start updatePrefs starting).1.Gate ↔ ¬ (b.prefs.wantRunning ∧
      ¬ ∃ p, updatePrefs = some p ∧ ¬ p.wantRunning ∧ b.checkPrefs p starting.setting = none ∧
        (starting.setting.saving ≠ .denied ∨
          ∃ status setting, starting.cached = some (status, setting) ∧
            setting.saving ≠ .denied)) := by
  have unchanged : b.Gate ↔ ¬ b.prefs.wantRunning := ⟨fun gate => gate required, fun no _ => no⟩
  unfold start
  rw [loaded]
  dsimp only
  by_cases on : (updatePrefs.getD b.prefs).wantRunning
  · rw [if_pos ⟨required, on⟩, unchanged]
    have none : ¬ ∃ p, updatePrefs = some p ∧ ¬ p.wantRunning ∧
        b.checkPrefs p starting.setting = none ∧ (starting.setting.saving ≠ .denied ∨
          ∃ status setting, starting.cached = some (status, setting) ∧
            setting.saving ≠ .denied) := by
      rintro ⟨p, rfl, off, -⟩
      exact off on
    simp only [none, not_false_eq_true, and_true]
  · rw [if_neg fun all => on all.2]
    have off : (b.reconcilePrefs (updatePrefs.getD b.prefs) starting.setting).1.wantRunning = false :=
      reconcile_off required
    cases updatePrefs with
    | none =>
      have stopped : b.prefs.wantRunning = false := by simpa using on
      refine (started_gate starting ?_ off).trans (iff_of_true (fun all => ?_) fun all => ?_)
      · split_ifs <;> exact required
      · have still := all.1
        split_ifs at still
        · rw [savePrefs] at still
          dsimp only at still
          split_ifs at still
          · rw [stopped] at still
            cases still
          · rw [off] at still
            cases still
        · rw [stopped] at still
          cases still
      · rw [stopped] at all
        cases all.1
    | some p =>
      have stopped : p.wantRunning = false := by simpa using on
      simp only [some.injEq, exists_eq_left', bind_some, stopped,
        Bool.false_eq_true, not_false_eq_true, true_and]
      cases check : b.checkPrefs p starting.setting with
      | some =>
        simp only [reduceCtorEq, false_and, not_false_eq_true, and_true]
        exact unchanged
      | none =>
        refine (started_gate starting ?_ off).trans ?_
        · exact required
        simp only [isSome_some, true_or, if_true, savePrefs, true_and]
        by_cases denied : starting.setting.saving = .denied
        · simp only [denied, if_true, ne_eq, not_true_eq_false, false_or]
        · simp only [denied, if_false, off, Bool.false_eq_true, false_and, not_false_eq_true,
            ne_eq, true_or, not_true_eq_false, and_false]

theorem start_required :
    (b.start updatePrefs starting).1.forcedUpdateRequired = b.forcedUpdateRequired := by
  unfold start
  rw [loaded]
  dsimp only
  by_cases refused : b.forcedUpdateRequired ∧ (updatePrefs.getD b.prefs).wantRunning
  · rw [if_pos refused]
  rw [if_neg refused]
  split
  · rfl
  split
  · split_ifs <;> rfl
  · split
    · split_ifs <;> rfl
    · refine (clientStatus_required _).trans ?_
      split_ifs <;> rfl

end

variable [DecidableEq β]

def GateOp.step (b : Backend β) : GateOp β → Backend β
  | apply policy failure setting => (b.applyUpdatePolicy policy failure setting).1
  | editPrefs access edits setting => (b.editPrefs access edits setting).1
  | start updatePrefs starting => (b.start updatePrefs starting).1
  | sysPolicyChanged alwaysOnChanged setting => b.sysPolicyChanged alwaysOnChanged setting
  | clientStatus none _ => b
  | clientStatus (some status) setting => b.setClientStatus status setting
  | refuseLogging setting => b.refuseLogging setting

section
variable {b : Backend β} {s : Setting β}

omit [Unicode] [Netip] [Signing] [DecidableEq β] in
theorem write_fields (x : UpdateState) (failure : Option Bytes) :
    ∃ store, (b.writeUpdateState x failure).1 = { b with store } := by
  unfold writeUpdateState
  split
  · exact ⟨_, rfl⟩
  split_ifs
  · exact ⟨_, rfl⟩
  · exact ⟨_, rfl⟩

omit [Unicode] [Netip] [Signing] in
theorem applyVerified_gate (loaded : b.loaded) {c : Policy}
    (newer : b.update.policy.revision < c.revision) (failure : Option Bytes) :
    (b.applyVerified c failure s).1.Gate ↔ ¬ (b.prefs.wantRunning ∧
      if (b.writeUpdateState (b.nextState c) failure).2 = none then
        b.isActive c ∧ ¬ (b.Stops s ∧ s.saving ≠ .denied)
      else b.forcedUpdateRequired) := by
  obtain ⟨store, fields⟩ := write_fields (b := b) (b.nextState c) failure
  unfold applyVerified
  rw [if_neg (not_lt.2 newer.le), if_neg newer.ne]
  cases write : b.writeUpdateState (b.nextState c) failure with
  | mk _ e =>
    rw [write] at fields
    subst fields
    cases e with
    | some =>
      exact ⟨fun gate all => gate all.2 all.1, fun no r w => no ⟨w, r⟩⟩
    | none =>
      simp only [if_true]
      split_ifs with running
      · refine (iff_of_eq (congrArg Backend.Gate (congrArg Prod.fst (stopped_eq _)))).trans ?_
        refine (edit_gate [] ⟨some false, id⟩).trans ?_
        have required : forcedUpdateRequired
            { b with store, update := b.nextState c } := decide_eq_true ⟨loaded, running.1⟩
        have check := checkPrefs_stop { b with store, update := b.nextState c } s
        have stops : Backend.Stops { b with store, update := b.nextState c } s ↔ b.Stops s := Iff.rfl
        have same : (checkPrefs { b with store, update := b.nextState c }
            ((⟨some false, id⟩ : MaskedPrefs β).apply b.prefs) s = none) ↔ b.Stops s := check
        simp only [required, same, running.1, true_and]
      · refine iff_of_true (fun required w => ?_) fun all => running ⟨all.2.1, all.1⟩
        have active := (of_decide_eq_true required).2
        exact running ⟨active, w⟩

theorem apply_gate (policy : Policy) (failure : Option Bytes) :
    (b.applyUpdatePolicy policy failure s).1.Gate ↔ ¬ Slips b (.apply policy failure s) := by
  have unchanged : ∀ b' : Backend β, b'.prefs = b.prefs → (¬ ∃ c, Takes b policy failure c) →
      consulted b policy = b' → (b'.Gate ↔ ¬ Slips b (.apply policy failure s)) := by
    intro b' prefs no same
    unfold Slips Backend.Gate
    dsimp only
    rw [same, prefs]
    constructor
    · rintro gate ⟨w, taken | ⟨-, required⟩⟩
      · exact no ⟨taken.choose, taken.choose_spec.1⟩
      · exact gate required w
    · exact fun safe required w => safe ⟨w, .inr ⟨no, required⟩⟩
  unfold applyUpdatePolicy
  cases verified : verify policy with
  | error =>
    refine unchanged b rfl ?_ (by simp [consulted, verified])
    rintro ⟨c, ok, -⟩
    rw [verified] at ok
    cases ok
  | ok c =>
    have only : ∀ c', verify policy = .ok c' → c' = c := fun c' ok =>
      Except.ok.inj (ok.symm.trans verified)
    by_cases platform : c.platform = Build.currentPlatform
    · have consulted : consulted b policy = b.load.1 := by simp [consulted, verified, platform]
      simp only [ne_eq, platform, not_true_eq_false, if_false]
      rcases load_cases b with ⟨update, load⟩ | ⟨e, load, -⟩
      · rw [load]
        by_cases newer : update.policy.revision < c.revision
        · refine (applyVerified_gate rfl newer failure).trans ?_
          have taken : ∀ c', Takes b policy failure c' ↔ c' = c ∧
              (writeUpdateState { b with loaded := true, update }
                (nextState { b with loaded := true, update } c) failure).2 = none := by
            intro c'
            unfold Takes
            rw [load]
            constructor
            · rintro ⟨ok, -, -, -, none⟩
              obtain rfl := only c' ok
              exact ⟨rfl, none⟩
            · rintro ⟨rfl, none⟩
              exact ⟨verified, platform, rfl, newer, none⟩
          unfold Slips
          simp only [taken, consulted, load]
          split_ifs with none
          · simp only [none, and_true, exists_eq_left, exists_eq, not_true_eq_false, false_and,
              or_false]
            exact Iff.rfl
          · simp only [none, and_false, false_and, exists_false, not_false_eq_true, true_and,
              false_or]
        · have same : (applyVerified { b with loaded := true, update } c failure s).1 =
              { b with loaded := true, update } := by
            unfold applyVerified
            dsimp only
            by_cases stale : c.revision < update.policy.revision
            · rw [if_pos stale]
            · rw [if_neg stale, if_pos (by omega)]
              split_ifs <;> rfl
          rw [same]
          refine unchanged _ rfl ?_ (by rw [consulted, load])
          rintro ⟨c', ok, -, -, newer', -⟩
          rw [load, only c' ok] at newer'
          exact newer newer'
      · rw [load]
        refine unchanged b rfl ?_ (by rw [consulted, load])
        rintro ⟨c', -, -, none, -⟩
        rw [load] at none
        cases none
    · simp only [ne_eq, platform, not_false_eq_true, if_true]
      refine unchanged b rfl ?_ (by simp [consulted, verified, platform])
      rintro ⟨c', ok, same, -⟩
      exact platform (only c' ok ▸ same)

theorem step_gate (op : GateOp β) : (op.step b).Gate ↔ ¬ Slips b op := by
  cases op with
  | apply policy failure => exact apply_gate policy failure
  | editPrefs access edits => exact edit_gate access edits
  | start updatePrefs starting =>
    unfold Slips GateOp.step
    dsimp only
    rcases load_cases b with ⟨update, load⟩ | ⟨e, load, unread⟩
    · have start : b.start updatePrefs starting =
          start { b with loaded := true, update } updatePrefs starting := by
        unfold start
        rw [load]
        rfl
      rw [start, load]
      by_cases required : forcedUpdateRequired { b with loaded := true, update }
      · simp only [required, true_and]
        exact start_gate rfl updatePrefs starting required
      · have idle := start_required (b := { b with loaded := true, update }) rfl updatePrefs starting
        refine iff_of_true (fun on => ?_) fun all => required all.2.1
        exact absurd (idle.symm.trans on) required
    · have refused : (b.start updatePrefs starting).1 = b := by
        unfold start
        rw [load]
      have idle : ¬ b.forcedUpdateRequired := fun required => unread (of_decide_eq_true required).1
      rw [refused, load]
      exact iff_of_true (fun required => absurd required idle) fun all => idle all.2.1
  | sysPolicyChanged alwaysOnChanged => exact sysPolicy_gate alwaysOnChanged
  | clientStatus status =>
    cases status with
    | none =>
      exact ⟨fun gate all => gate all.2.1 all.1, fun no r w => no ⟨w, r, .inl rfl⟩⟩
    | some status =>
      unfold Slips
      simp only [reduceCtorEq, false_or]
      exact clientStatus_gate status
  | refuseLogging => exact gate_saved rfl rfl fun _ => rfl

end

/-- From any state, the gate is closed after every operation of a run if and only if no operation
slips. -/
theorem gate_iff (b : Backend β) (ops : List (GateOp β)) :
    Along GateOp.step (fun b op => (GateOp.step b op).Gate) b ops ↔
      Along GateOp.step (fun b op => ¬ Slips b op) b ops :=
  along_iff (fun _ op _ => step_gate op) (fun _ _ _ _ => trivial) (I := fun _ => True) trivial ops

end

namespace Sample

attribute [local instance] Unicode.ascii Netip.none signing build

def running : Backend Unit := .new (bytes "1.0.0") (some ⟨none, none⟩ ) ⟨true, ()⟩ true

/-- With a locked configuration file a forced policy comes into force without the network being
stopped, and applying it again succeeds without stopping it either. -/
theorem forced_while_running :
    let once := running.applyUpdatePolicy forced none setting
    let twice := once.1.applyUpdatePolicy forced none setting
    once.2.2 = some (.stop
        (bytes "can't reconfigure scaletaild when using a config file; config file is locked")) ∧
      once.1.forcedUpdateRequired ∧ once.1.prefs.wantRunning ∧
      twice.2.2 = none ∧ twice.1.forcedUpdateRequired ∧ twice.1.prefs.wantRunning := by
  decide +kernel

end Sample

end ScaleTail.OTA
