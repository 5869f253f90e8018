import ScaleTail.Proof.Conn25.Assign
import ScaleTail.Proof.Conn25.Pool

/-! # Calls that are refused -/

namespace ScaleTail.Conn25
open Go Net Lib Option Client

variable {c : Client} {p : Pools} {dst : Addr} {t t₁ t₂ : Time}

def Client.Live (c : Client) (t : Time) (as : Addrs) : Prop :=
  c.assignments.lookupByMagicIP as.magic t = some as

def Client.MagicTaken (c : Client) (t : Time) (a : Addr) : Prop := ∃ as, c.Live t as ∧ as.magic = a

def Client.TransitTaken (c : Client) (t : Time) (a : Addr) : Prop := ∃ as, c.Live t as ∧ as.transit = a

/-- The queue is full, or all addresses of one of the two pools belong to unexpired assignments. -/
def Client.Excused (c : Client) (p : Pools) (t : Time) : Prop :=
  ¬ c.addrsCh.length < queueSize ∨ (∀ a ∈ p.magic.ipSet, c.MagicTaken t a) ∨
    ∀ a ∈ p.transit.ipSet, c.TransitTaken t a

/-- Both pools have an address that is not in use, and the next one belongs to no unexpired
assignment. -/
def Client.Offered (c : Client) (p : Pools) (t : Time) : Prop :=
  (∃ a ∈ p.magic.firstFree, ¬ c.MagicTaken t a) ∧ ∃ a ∈ p.transit.firstFree, ¬ c.TransitTaken t a

theorem magicTaken_iff (consistent : c.assignments.Consistent t) {a : Addr} :
    c.MagicTaken t a ↔ c.assignments.lookupByMagicIP a t ≠ none := by
  rw [ne_none_iff_exists']
  constructor
  · rintro ⟨as, live, rfl⟩
    exact ⟨as, live⟩
  · rintro ⟨as, found⟩
    have key := consistent.magic a as found
    refine ⟨as, ?_, key⟩
    rw [Client.Live, key]
    exact found

theorem transitTaken_iff (consistent : c.assignments.Consistent t) {a : Addr} :
    c.TransitTaken t a ↔ c.assignments.lookupByTransitIP a t ≠ none := by
  rw [ne_none_iff_exists']
  constructor
  · rintro ⟨as, live, rfl⟩
    exact ⟨as, (consistent.agreeTransit as).1 live⟩
  · rintro ⟨as, found⟩
    have key := consistent.transit a as found
    exact ⟨as, (consistent.agreeTransit as).2 (key ▸ found), key⟩

theorem lookupByDomainDst_later {a : AddrAssignments} {k : DomainDst} (ordered : t₁ ≤ t₂)
    (missing : a.lookupByDomainDst k t₁ = none) : a.lookupByDomainDst k t₂ = none := by
  rw [eq_none_iff_forall_ne_some] at missing ⊢
  intro as found
  obtain ⟨stored, unexpired⟩ := AddrAssignments.unexpired_eq_some.1 found
  exact missing as (AddrAssignments.unexpired_eq_some.2 ⟨stored, ordered.trans unexpired⟩)

theorem assign_ok_iff {as : Addrs} (unset : as.expiresAt = 0) :
    (∃ as', (c.assign as t).1 = .ok as') ↔
      c.assignments.Vacant as t ∧ c.addrsCh.length < queueSize := by
  by_cases vacant : c.assignments.Vacant as t
  · rw [assign, AddrAssignments.insert_eq unset vacant]
    by_cases room : c.addrsCh.length < queueSize
    · simp [enqueueAddressAssignment, room, vacant]
    · simp [enqueueAddressAssignment, room]
  · rw [assign]
    cases inserted : c.assignments.insert as t with
    | error => simp [vacant]
    | ok => exact absurd (AddrAssignments.insert_eq_ok inserted).1 fun v => vacant ⟨v.1, v.2, v.3⟩

@[simp] theorem Client.assignments_setPools : (c.setPools dst p).assignments = c.assignments := by
  unfold setPools
  split <;> rfl

@[simp] theorem Client.addrsCh_setPools : (c.setPools dst p).addrsCh = c.addrsCh := by
  unfold setPools
  split <;> rfl

theorem reserve_ok_iff (consistent : c.assignments.Consistent t₂) (pools : c.pools dst = some p)
    (ordered : t₁ ≤ t₂) (appName domain : Bytes) :
    ∃ result c', c.reserveAddresses appName domain (some dst) t₁ t₂ = some (result, c') ∧
      ((∃ as, result = .ok as) ↔ (c.assignments.lookupByDomainDst ⟨domain, dst⟩ t₁).isSome ∨
        c.Offered p t₂ ∧ c.addrsCh.length < queueSize) := by
  unfold reserveAddresses
  cases missing : c.assignments.lookupByDomainDst ⟨domain, dst⟩ t₁ with
  | some existing => exact ⟨.ok existing, c, by simp [missing]⟩
  | none =>
    obtain ⟨magic, nextMagic⟩ := p.magic.next_eq
    obtain ⟨transit, nextTransit⟩ := p.transit.next_eq
    simp only [missing, pools, nextMagic, bind_eq_bind, bind_some]
    cases free : p.magic.firstFree with
    | none =>
      refine ⟨_, _, rfl, ?_⟩
      simp [Client.Offered, free]
    | some mip =>
      simp only [IPPool.answer, nextTransit, bind_some]
      cases free' : p.transit.firstFree with
      | none =>
        refine ⟨_, _, rfl, ?_⟩
        simp [Client.Offered, free']
      | some tip =>
        let as : Addrs := ⟨dst, mip, tip, domain, appName, 0⟩
        refine ⟨_, ((c.setPools dst ⟨magic, transit⟩).assign as t₂).2, rfl, ?_⟩
        refine (assign_ok_iff (rfl : as.expiresAt = 0)).trans ?_
        rw [assignments_setPools, addrsCh_setPools]
        simp only [isSome_none, Bool.false_eq_true, false_or]
        refine and_congr_left' ?_
        simp only [Client.Offered, free, free', mem_some_iff, exists_eq_left',
          magicTaken_iff consistent, transitTaken_iff consistent, not_not]
        constructor
        · intro vacant
          exact ⟨vacant.magic, vacant.transit⟩
        · rintro ⟨magic, transit⟩
          exact ⟨magic, lookupByDomainDst_later ordered missing, transit⟩

/-- A call fails only with a full queue or with a pool whose addresses are all taken, exactly if it
finds an assignment, or its pools offer it two addresses, or there is such a reason. -/
theorem excused_iff_of_run {ops : List Op} (run : Run step .newClient ops c) (pools : c.pools dst = some p)
    (later : c.now ≤ t₁) (ordered : t₁ ≤ t₂) (appName domain : Bytes) :
    ∃ result c', c.reserveAddresses appName domain (some dst) t₁ t₂ = some (result, c') ∧
      ((∀ e, result = .error e → c.Excused p t₂) ↔
        (c.assignments.lookupByDomainDst ⟨domain, dst⟩ t₁).isSome ∨ c.Offered p t₂ ∨ c.Excused p t₂) := by
  have consistent := ((indexed_of_run run).later (later.trans ordered)).consistent
  obtain ⟨result, c', returned, succeeds⟩ := reserve_ok_iff consistent pools ordered appName domain
  refine ⟨result, c', returned, ?_⟩
  cases result with
  | ok as =>
    have found := succeeds.1 ⟨as, rfl⟩
    simp only [reduceCtorEq, false_implies, implies_true, true_iff]
    exact found.imp_right fun offered => .inl offered.1
  | error e =>
    have failed : ¬ _ := mt succeeds.2 (by simp)
    constructor
    · exact fun excused => .inr (.inr (excused e rfl))
    rintro (existing | offered | excused) e' -
    · exact absurd (.inl existing) failed
    · exact .inl fun room => failed (.inr ⟨offered, room⟩)
    · exact excused

namespace Sample

def fewSets : IPSets where
  v4Magic := v4Set 0x64400000 0x64400001 (by decide)
  v4Transit := v4Set 0xa9fe0000 0xa9fe0001 (by decide)
  v6Magic := .empty
  v6Transit := .empty

def reconfigured : List Op := [.reconfig fewSets, reserve 0, .reconfig fewSets]

def other : Addr := .v4 0x0a000001

def secondMagic : Addr := .v4 0x64400001

def secondTransit : Addr := .v4 0xa9fe0001

def afterReconfig : Option (Client × Pools) :=
  (reconfigured.foldlM step .newClient).bind fun c => (c.pools other).map fun p => (c, p)

def errorOf (returned : Option (Except ReserveError Addrs × Client)) : Option ReserveError :=
  returned.bind fun (result, _) =>
    match result with
    | .error e => some e
    | .ok _ => none

theorem afterReconfig_facts :
    afterReconfig.map (fun (c, p) => decide (c.now = 1 ∧
      errorOf (c.reserveAddresses [97] [1] (some other) 1 1) = some .magicExists ∧
      c.addrsCh.length < queueSize ∧ secondMagic ∈ p.magic.ipSet ∧ secondTransit ∈ p.transit.ipSet ∧
      c.assignments.lookupByMagicIP secondMagic 1 = none ∧
      c.assignments.lookupByTransitIP secondTransit 1 = none)) = some true := by
  decide +kernel

theorem afterReconfig_run {c : Client} {p : Pools} (reached : afterReconfig = some (c, p)) :
    Run step .newClient reconfigured c ∧ c.pools other = some p := by
  obtain ⟨c', taken, rest⟩ := bind_eq_some_iff.1 reached
  obtain ⟨p', pools, same⟩ := map_eq_some_iff.1 rest
  cases same
  exact ⟨run_of_foldlM taken, pools⟩

theorem reconfigured_excused_iff : ∃ c p, Run step .newClient reconfigured c ∧ c.pools other = some p ∧
    ∃ result c', c.reserveAddresses [97] [1] (some other) 1 1 = some (result, c') ∧
      ((∀ e, result = .error e → c.Excused p 1) ↔
        (c.assignments.lookupByDomainDst ⟨[1], other⟩ 1).isSome ∨ c.Offered p 1 ∨ c.Excused p 1) := by
  obtain ⟨⟨c, p⟩, reached, facts⟩ := map_eq_some_iff.1 afterReconfig_facts
  obtain ⟨run, pools⟩ := afterReconfig_run reached
  have now : c.now = 1 := (of_decide_eq_true facts).1
  exact ⟨c, p, run, pools, excused_iff_of_run run pools now.le le_rfl [97] [1]⟩

/-- A call is refused although the queue has room and each pool has an address that belongs to no
assignment. -/
theorem refused_with_free_addresses : ∃ c p c' e, Run step .newClient reconfigured c ∧
    c.pools other = some p ∧
    c.reserveAddresses [97] [1] (some other) 1 1 = some (.error e, c') ∧ ¬ c.Excused p 1 := by
  obtain ⟨⟨c, p⟩, reached, facts⟩ := map_eq_some_iff.1 afterReconfig_facts
  obtain ⟨run, pools⟩ := afterReconfig_run reached
  obtain ⟨now, failed, room, magic, transit, noMagic, noTransit⟩ := of_decide_eq_true facts
  have consistent := ((indexed_of_run run).later now.le).consistent
  obtain ⟨⟨result, c'⟩, returned, failed⟩ := bind_eq_some_iff.1 failed
  cases result with
  | ok as => cases failed
  | error e =>
    refine ⟨c, p, c', e, run, pools, returned, ?_⟩
    rintro (full | taken | taken)
    · exact full room
    · exact (magicTaken_iff consistent).1 (taken _ magic) noMagic
    · exact (transitTaken_iff consistent).1 (taken _ transit) noTransit

end Sample

end ScaleTail.Conn25
