import ScaleTail.Lib.Runs
import ScaleTail.Proof.Natc.IPPool

/-! # The replicas of the log -/

namespace ScaleTail.Natc
open Go Net Netipx Lib List Option PeerState State

structure Entry where
  command : Command
  createdAt : Time
  appliedAt : Time
  deriving DecidableEq

def Entry.Issued (e : Entry) : Prop :=
  match e.command with
  | .checkoutAddr _ _ reuseDeadline updatedAt =>
    updatedAt = e.createdAt ∧ reuseDeadline = e.createdAt - lifetime
  | .markLastUsed _ _ _ updatedAt => updatedAt = e.createdAt
  | .readDomainForIP .. => True

instance (e : Entry) : Decidable e.Issued := by
  unfold Entry.Issued
  split <;> infer_instance

/-- The times of a log are those of one clock, and a command is applied within 12 hours. -/
def Timed (log : List Entry) : Prop :=
  (∀ e ∈ log, e.Issued ∧ e.createdAt ≤ e.appliedAt ∧ e.appliedAt ≤ e.createdAt + 12 * hour) ∧
    log.Pairwise fun e e' => e.appliedAt ≤ e'.appliedAt

instance (log : List Entry) : Decidable (Timed log) := inferInstanceAs (Decidable (_ ∧ _))

def step (ipSet : IPSet) (s : State) (e : Entry) : Option State :=
  (s.apply ipSet e.command).map (·.2)

def State.record (s : State) (nid : NodeID) (addr : IP) : Option WhereWhen :=
  (s.peer nid).addrToDomain.lookup addr

def State.Assigned (s : State) (nid : NodeID) (domain : Bytes) (addr : IP) : Prop :=
  (s.record nid addr).map (·.domain) = some domain ∧
    ∀ d, (s.peer nid).domainToAddr.lookup d = some addr ↔ d = domain

def Forward (s : State) (e : Entry) : Prop :=
  match e.command with
  | .checkoutAddr nid domain _ updatedAt =>
    ∀ addr ∈ (s.peer nid).domainToAddr.lookup domain, ∀ ww ∈ s.record nid addr,
      ww.lastUsed ≤ updatedAt
  | _ => True

def Used (ipSet : IPSet) (s : State) (e : Entry) (nid : NodeID) (addr : IP) : Prop :=
  match e.command with
  | .checkoutAddr from_ .. => from_ = nid ∧ (s.apply ipSet e.command).map (·.1) = some (.addr addr)
  | .markLastUsed from_ marked domain _ =>
    from_ = nid ∧ marked = addr ∧ (s.record nid addr).map (·.domain) = some domain
  | .readDomainForIP .. => False

structure Sound (ipSet : IPSet) (log : List Entry) (s : State) : Prop where
  inverse : ∀ nid domain addr, (s.peer nid).domainToAddr.lookup domain = some addr ↔
    (s.record nid addr).map (·.domain) = some domain
  member : ∀ nid addr ww, s.record nid addr = some ww → ∃ a ∈ ipSet, addr = .valid a
  replica : ∀ before p, before <+: log → Run (step ipSet) ∅ before p →
    ∀ nid domain now addr mark, (∀ e ∈ log, e.appliedAt ≤ now) →
      p.localIP nid domain now = some (addr, mark) → s.Assigned nid domain addr
  consensus : ∀ nid domain now, ∃ result s', s.apply ipSet (checkout nid domain now) = some (result, s') ∧
    ((∃ addr, result = .addr addr ∧ s'.Assigned nid domain addr) ∨
      result = .exhausted ∧
        ∀ a ∈ ipSet, ∃ ww, s.record nid (.valid a) = some ww ∧ now - lifetime ≤ ww.lastUsed)
  moved : ∀ e s', e.Issued → step ipSet s e = some s' →
    ∀ nid addr, (s'.record nid addr).map (·.domain) ≠ (s.record nid addr).map (·.domain) →
      ∀ before use after p, log = before ++ use :: after → Run (step ipSet) ∅ before p →
        Used ipSet p use nid addr → use.createdAt + lifetime < e.createdAt

variable {ipSet : IPSet} {s s' t p : State} {e : Entry} {log before more : List Entry} {nid : NodeID}
  {addr : IP} {domain : Bytes} {ww : WhereWhen} {ps ps' : PeerState} {mark : Option Command}

theorem changes_of_step (taken : step ipSet s e = some s') :
    ∃ result, s.apply ipSet e.command = some (result, s') ∧ s.Changes ipSet e.command result s' := by
  obtain ⟨⟨result, t⟩, applied, same⟩ := map_eq_some_iff.1 taken
  subst same
  exact ⟨result, applied, changes_of_apply applied⟩

def State.Ok (ipSet : IPSet) (s : State) : Prop := ∀ nid, (s.peer nid).Ok ipSet

theorem State.Ok.changes {command : Command} {result : Result} (interior : Interior ipSet)
    (ok : s.Ok ipSet) (changes : s.Changes ipSet command result s') : s'.Ok ipSet := by
  intro nid
  by_cases same : nid = command.peer
  · subst same
    exact (ok _).effect interior changes.1
  · rw [changes.2 nid same]
    exact ok nid

theorem State.ok_of_run (interior : Interior ipSet) (run : Run (step ipSet) ∅ log s) : s.Ok ipSet := by
  induction run with
  | refl => exact fun nid => ok_empty
  | snoc _ taken ih =>
    obtain ⟨result, -, changes⟩ := changes_of_step taken
    exact ih.changes interior changes

theorem State.Ok.mapped_iff (ok : s.Ok ipSet) :
    (s.peer nid).domainToAddr.lookup domain = some addr ↔
      (s.record nid addr).map (·.domain) = some domain := by
  rw [(ok nid).inverse, map_eq_some_iff]
  rfl

theorem State.Ok.assigned (ok : s.Ok ipSet) (found : s.record nid addr = some ww)
    (same : ww.domain = domain) : s.Assigned nid domain addr := by
  have stored : (s.record nid addr).map (·.domain) = some domain := by
    rw [found, map_some, same]
  refine ⟨stored, fun d => ?_⟩
  rw [ok.mapped_iff, stored, some_inj, eq_comm]

def Later (forward : Prop) (ww : WhereWhen) (createdAt : Time) (ww' : WhereWhen) : Prop :=
  (forward → ww.lastUsed ≤ ww'.lastUsed) ∧
    (ww'.domain = ww.domain ∨ ww.lastUsed + lifetime < createdAt)

theorem Later.refl {forward : Prop} {createdAt : Time} : Later forward ww createdAt ww :=
  ⟨fun _ => le_rfl, .inl rfl⟩

theorem later_touch {forward : Prop} {t createdAt : Time} {found : WhereWhen} {other : IP}
    (stored : ps.addrToDomain.lookup other = some found) (ordered : forward → found.lastUsed ≤ t)
    (before : ps.addrToDomain.lookup addr = some ww) :
    ∃ ww', (ps.touch other found t).addrToDomain.lookup addr = some ww' ∧
      Later forward ww createdAt ww' := by
  rw [lookup_touch]
  split
  next same =>
    subst same
    cases stored.symm.trans before
    exact ⟨_, rfl, ordered, .inl rfl⟩
  · exact ⟨ww, before, .refl⟩

theorem later_assign {forward : Prop} {createdAt : Time} {other : IP} {previous : Option Bytes}
    (free : ps.Free (createdAt - lifetime) other previous)
    (before : ps.addrToDomain.lookup addr = some ww) :
    ∃ ww', (ps.assign domain other previous createdAt).addrToDomain.lookup addr = some ww' ∧
      Later forward ww createdAt ww' := by
  rw [lookup_assign]
  split
  next same =>
    subst same
    rcases free with ⟨missing, -⟩ | ⟨found, stored, expired, -⟩
    · cases missing.symm.trans before
    cases stored.symm.trans before
    have positive : 0 < lifetime := by decide
    refine ⟨_, rfl, fun _ => ?_, .inr (by linarith)⟩
    linarith
  · exact ⟨ww, before, .refl⟩

theorem later_of_step (taken : step ipSet s e = some s') (issued : e.Issued)
    (before : s.record nid addr = some ww) :
    ∃ ww', s'.record nid addr = some ww' ∧ Later (Forward s e) ww e.createdAt ww' := by
  obtain ⟨result, -, effect, others⟩ := changes_of_step taken
  by_cases other : nid = e.command.peer
  case neg =>
    refine ⟨ww, ?_, .refl⟩
    rw [record, others nid other]
    exact before
  subst other
  obtain ⟨command, createdAt, appliedAt⟩ := e
  dsimp only at effect issued before ⊢
  unfold record at before ⊢
  generalize s'.peer command.peer = ps' at effect ⊢
  cases effect with
  | renewed mapped found => exact later_touch found (fun forward => forward _ mapped _ found) before
  | taken _ _ free =>
    have created : _ = createdAt := issued.1
    have due : _ = createdAt - lifetime := issued.2
    subst created due
    exact later_assign free before
  | exhausted | ignored | read => exact ⟨ww, before, .refl⟩
  | marked found ordered => exact later_touch found (fun _ => ordered) before

theorem later_of_run (run : Run (step ipSet) p more s)
    (issued : ∀ e ∈ more, e.Issued) (forward : Throughout (step ipSet) Forward p more)
    (before : p.record nid addr = some ww) :
    ∃ ww', s.record nid addr = some ww' ∧ ww.lastUsed ≤ ww'.lastUsed ∧
      (ww'.domain = ww.domain ∨ ∃ e ∈ more, ww.lastUsed + lifetime < e.createdAt) := by
  induction run with
  | refl => exact ⟨ww, before, le_rfl, .inl rfl⟩
  | @snoc ops _ _ e run taken ih =>
    obtain ⟨all, last⟩ := (throughout_snoc run).1 forward
    have member : e ∈ ops ++ [e] := mem_append_right _ mem_cons_self
    obtain ⟨ww₁, found, ordered, kept⟩ :=
      ih (fun e' earlier => issued e' (mem_append_left _ earlier)) all
    obtain ⟨ww₂, found', ordered', kept'⟩ := later_of_step taken (issued e member) found
    refine ⟨ww₂, found', ordered.trans (ordered' last), ?_⟩
    cases kept with
    | inr earlier =>
      obtain ⟨e', inside, expired⟩ := earlier
      exact .inr ⟨e', mem_append_left _ inside, expired⟩
    | inl same =>
      cases kept' with
      | inl same' => exact .inl (same'.trans same)
      | inr => exact .inr ⟨e, member, by linarith⟩

theorem record_of_used (taken : step ipSet s e = some s') (issued : e.Issued)
    (used : Used ipSet s e nid addr) :
    ∃ ww, s'.record nid addr = some ww ∧ e.createdAt ≤ ww.lastUsed := by
  obtain ⟨result, applied, effect, -⟩ := changes_of_step taken
  obtain ⟨command, createdAt, appliedAt⟩ := e
  unfold record
  cases command with
  | checkoutAddr from_ =>
    obtain ⟨rfl, -⟩ := issued
    obtain ⟨same, answered⟩ := used
    subst same
    rw [applied, map_some, some_inj] at answered
    change Effect ipSet (s.peer from_) _ _ (s'.peer from_) at effect
    generalize s'.peer from_ = ps' at effect ⊢
    cases effect with
    | renewed =>
      cases answered
      exact ⟨_, by rw [lookup_touch, if_pos rfl], le_rfl⟩
    | taken =>
      cases answered
      exact ⟨_, by rw [lookup_assign, if_pos rfl], le_rfl⟩
    | exhausted => cases answered
  | markLastUsed from_ marked domain updatedAt =>
    have created : updatedAt = createdAt := issued
    subst created
    obtain ⟨same, same', stored⟩ := used
    subst same same'
    obtain ⟨ww, found, domain⟩ := map_eq_some_iff.1 stored
    change Effect ipSet (s.peer from_) _ _ (s'.peer from_) at effect
    generalize s'.peer from_ = ps' at effect ⊢
    cases effect with
    | marked => exact ⟨_, by rw [lookup_touch, if_pos rfl], le_rfl⟩
    | ignored reason => exact ⟨ww, found, (reason ww found domain).le⟩
  | readDomainForIP => exact used.elim

theorem localIP_eq_some {now : Time} (answered : s.localIP nid domain now = some (addr, mark)) :
    (s.peer nid).domainToAddr.lookup domain = some addr ∧
      ∃ ww, s.record nid addr = some ww ∧ |now - ww.lastUsed| ≤ lifetime / 2 := by
  dsimp only [localIP] at answered
  split at answered
  · cases answered
  next found mapped =>
    split at answered
    · cases answered
    next ww stored =>
      obtain ⟨close, ⟨⟩⟩ := ite_none_left_eq_some.1 answered
      exact ⟨mapped, ww, stored, by simpa [isCloseToExpiry] using close⟩

theorem replica_of_run (interior : Interior ipSet) (run : Run (step ipSet) ∅ log s) (timed : Timed log)
    (forward : Throughout (step ipSet) Forward ∅ log) (applied : before <+: log)
    (reached : Run (step ipSet) ∅ before p) {now : Time}
    (past : ∀ e ∈ log, e.appliedAt ≤ now) (answered : p.localIP nid domain now = some (addr, mark)) :
    s.Assigned nid domain addr := by
  obtain ⟨more, rfl⟩ := applied
  have rest := run.rest reached
  obtain ⟨mapped, ww, stored, close⟩ := localIP_eq_some answered
  have same : ww.domain = domain := by
    have both := (ok_of_run interior reached).mapped_iff.1 mapped
    rw [stored] at both
    exact some_inj.1 both
  obtain ⟨ww', found, ordered, kept⟩ := later_of_run rest
    (fun e member => (timed.1 e (mem_append_right _ member)).1)
    ((throughout_append reached rest).1 forward).2 stored
  have ok := ok_of_run interior run
  cases kept with
  | inl kept => exact ok.assigned found (kept.trans same)
  | inr reused =>
    -- a reuse takes a lifetime, and half of it has not passed
    obtain ⟨e, member, expired⟩ := reused
    have inside := mem_append_right before member
    have created := (timed.1 e inside).2.1
    have applied := past e inside
    have bound := (abs_le.1 close).2
    have half : lifetime / 2 ≤ lifetime := by decide
    linarith

theorem consensus_of_ok (interior : Interior ipSet) (ok : s.Ok ipSet) (now : Time) :
    ∃ result s', s.apply ipSet (checkout nid domain now) = some (result, s') ∧
      ((∃ addr, result = .addr addr ∧ s'.Assigned nid domain addr) ∨
        result = .exhausted ∧
          ∀ a ∈ ipSet, ∃ ww, s.record nid (.valid a) = some ww ∧ now - lifetime ≤ ww.lastUsed) := by
  obtain ⟨result, s', answer⟩ : ∃ result s', s.apply ipSet (checkout nid domain now) = some (result, s') :=
    applyCheckoutAddr_total interior ..
  refine ⟨result, s', answer, ?_⟩
  have changes := changes_of_apply answer
  have ok' := ok.changes interior changes
  have effect := changes.1
  change Effect ipSet (s.peer nid) _ _ (s'.peer nid) at effect
  generalize after : s'.peer nid = ps' at effect
  cases effect with
  | @renewed _ _ _ _ addr _ mapped found =>
    refine .inl ⟨addr, rfl, ok'.assigned (by rw [record, after, lookup_touch, if_pos rfl]) ?_⟩
    obtain ⟨ww', found', same⟩ := ((ok nid).inverse domain addr).1 mapped
    cases found.symm.trans found'
    exact same
  | @taken _ _ _ _ addr =>
    exact .inl ⟨addr, rfl, ok'.assigned (by rw [record, after, lookup_assign, if_pos rfl]) rfl⟩
  | exhausted all => exact .inr ⟨rfl, all interior⟩

theorem moved_of_run (run : Run (step ipSet) ∅ log s)
    (issued : ∀ e ∈ log, e.Issued) (forward : Throughout (step ipSet) Forward ∅ log)
    (next : e.Issued) (taken : step ipSet s e = some s')
    (moves : (s'.record nid addr).map (·.domain) ≠ (s.record nid addr).map (·.domain))
    {use : Entry} {after : List Entry} (split : log = before ++ use :: after)
    (reached : Run (step ipSet) ∅ before p) (used : Used ipSet p use nid addr) :
    use.createdAt + lifetime < e.createdAt := by
  subst split
  rw [append_cons] at run forward issued
  obtain ⟨u, first, rest⟩ := run.split
  obtain ⟨p', reached', step'⟩ := run_snoc.1 first
  cases reached.unique reached'
  have member : use ∈ before ++ [use] ++ after :=
    mem_append_left _ (mem_append_right _ mem_cons_self)
  obtain ⟨ww, found, ordered⟩ := record_of_used step' (issued use member) used
  obtain ⟨ww', found', ordered', -⟩ := later_of_run rest
    (fun e later => issued e (mem_append_right _ later))
    ((throughout_append first rest).1 forward).2 found
  obtain ⟨ww'', found'', -, kept⟩ := later_of_step taken next found'
  rw [found', found'', map_some, map_some] at moves
  cases kept with
  | inl same => exact absurd (congrArg some same) moves
  | inr => linarith

theorem pool_sound_of_run (interior : Interior ipSet) (run : Run (step ipSet) ∅ log s) (timed : Timed log)
    (forward : Throughout (step ipSet) Forward ∅ log) : Sound ipSet log s := by
  have ok := ok_of_run interior run
  have issued e (member : e ∈ log) : e.Issued := (timed.1 e member).1
  constructor
  case inverse => exact fun nid domain addr => ok.mapped_iff
  case member => exact fun nid => (ok nid).member
  case replica =>
    intro before p applied reached nid domain now addr mark past answered
    exact replica_of_run interior run timed forward applied reached past answered
  case consensus => exact fun nid domain now => consensus_of_ok interior ok now
  case moved =>
    intro e s' next taken nid addr moves before use after p split reached used
    exact moved_of_run run issued forward next taken moves split reached used

namespace Sample

theorem v4_valid {low high : BitVec 32} (valid : low.toNat ≤ high.toNat) :
    (Addr.v4 low).bitLen = (Addr.v4 high).bitLen ∧ (Addr.v4 low).toNat ≤ (Addr.v4 high).toNat :=
  ⟨rfl, valid⟩

def v4Range (low high : BitVec 32) (valid : low.toNat ≤ high.toNat) : IPRange :=
  ⟨.v4 low, .v4 high, v4_valid valid⟩

def v4Set (low high : BitVec 32) (valid : low.toNat ≤ high.toNat) : IPSet :=
  ⟨[v4Range low high valid], pairwise_singleton _ _⟩

def pair : IPSet := v4Set 0x64410000 0x64410001 (by decide)

def handOut (domain : Bytes) (created applied : Time) : Entry :=
  ⟨checkout 1 domain created, created, applied⟩

/-- Two domains of a peer, and a third one after one of them was not used for more than a lifetime. -/
def reuses : List Entry :=
  [handOut [97] 0 0, handOut [98] hour hour, handOut [97] (2 * hour) (2 * hour),
    handOut [99] (50 * hour) (50 * hour)]

def forward (s : State) (e : Entry) : Bool :=
  match e.command with
  | .checkoutAddr nid domain _ updatedAt =>
    ((s.peer nid).domainToAddr.lookup domain).all fun addr =>
      (s.record nid addr).all fun ww => ww.lastUsed ≤ updatedAt
  | _ => true

theorem forward_sound (s : State) (e : Entry) (checked : forward s e = true) : Forward s e := by
  unfold forward at checked
  unfold Forward
  split
  next command =>
    rw [command] at checked
    intro addr mapped ww found
    rw [mem_def] at mapped found
    simpa [mapped, found] using checked
  · trivial

theorem reuses_sound : ∃ s, Run (step pair) ∅ reuses s ∧ Timed reuses ∧
    s.record 1 (.valid (.v4 0x64410001)) = some ⟨[99], 50 * hour⟩ ∧ Sound pair reuses s := by
  obtain ⟨s, run, all, record⟩ : ∃ s, Run (step pair) ∅ reuses s ∧
      Throughout (step pair) Forward ∅ reuses ∧
      s.record 1 (.valid (.v4 0x64410001)) = some ⟨[99], 50 * hour⟩ :=
    throughout_of_found forward_sound (by decide +kernel)
  have timed : Timed reuses := by decide +kernel
  exact ⟨s, run, timed, record, pool_sound_of_run (by decide) run timed all⟩

def last : IPSet := v4Set 0xffffffff 0xffffffff (by decide)

def overflows : List Entry := [handOut [97] 0 0, handOut [98] hour hour]

def overtaken : List Entry :=
  [handOut [97] 0 0, handOut [98] 0 0, handOut [97] (10 * hour) (10 * hour),
    handOut [97] hour (10 * hour)]

def steals : Entry := handOut [99] (50 * hour) (50 * hour)

/-- After the last address of its family, the loop hands out one that is not valid. A checkout that is
applied late sets the time of use back, and the address moves 40 hours after its last use. -/
theorem not_sound :
    (∃ s, Run (step last) ∅ overflows s ∧ Timed overflows ∧ ¬ Sound last overflows s) ∧
      ∃ s, Run (step pair) ∅ overtaken s ∧ Timed overtaken ∧ ¬ Sound pair overtaken s := by
  constructor
  · obtain ⟨s, run, record⟩ : ∃ s, Run (step last) ∅ overflows s ∧
        s.record 1 (.invalid 0) = some ⟨[98], hour⟩ := run_of_found (by decide +kernel)
    refine ⟨s, run, by decide +kernel, fun sound => ?_⟩
    obtain ⟨a, -, same⟩ := sound.member 1 _ _ record
    cases same
  · obtain ⟨s, run, s', stolen, first, second⟩ : ∃ s, Run (step pair) ∅ overtaken s ∧
        ∃ s' ∈ step pair s steals, (s.record 1 (.valid (.v4 0x64410000))).map (·.domain) = some [97] ∧
          (s'.record 1 (.valid (.v4 0x64410000))).map (·.domain) = some [99] :=
      run_of_found (by decide +kernel)
    obtain ⟨p, reached, answer⟩ : ∃ p, Run (step pair) ∅ (overtaken.take 2) p ∧
        (p.apply pair (handOut [97] (10 * hour) (10 * hour)).command).map (·.1) =
          some (.addr (.valid (.v4 0x64410000))) := run_of_found (by decide +kernel)
    refine ⟨s, run, by decide +kernel, fun sound => ?_⟩
    have early := sound.moved steals s' ⟨rfl, rfl⟩ stolen 1 (.valid (.v4 0x64410000))
      (by rw [first, second]; decide) (overtaken.take 2) (handOut [97] (10 * hour) (10 * hour)) _ p
      rfl reached ⟨rfl, answer⟩
    exact absurd early (by decide)

end Sample

end ScaleTail.Natc
