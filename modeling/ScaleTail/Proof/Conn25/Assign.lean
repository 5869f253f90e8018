import ScaleTail.Conn25.Client
import ScaleTail.Lib.Lookup
import ScaleTail.Lib.Runs

/-! # Assignments and their announcement -/

namespace ScaleTail.Conn25
open Go Net Lib List Option AList AddrAssignments Client

variable {c c' : Client} {as as' : Addrs} {now t t₁ t₂ : Time} {result : Except ReserveError Addrs}
  {dst : Option Addr}

def Addrs.stamped (as : Addrs) (now : Time) : Addrs := { as with expiresAt := now + defaultExpiry }

namespace AddrAssignments
variable {a b : AddrAssignments}

theorem unexpired_eq_some {entry : Option Addrs} :
    unexpired entry t = some as ↔ entry = some as ∧ t ≤ as.expiresAt := by
  rw [unexpired, filter_eq_some_iff, decide_eq_true_iff, Nat.not_lt]

def put (a : AddrAssignments) (as : Addrs) : AddrAssignments where
  byMagicIP := a.byMagicIP.insert as.magic as
  byTransitIP := a.byTransitIP.insert as.transit as
  byDomainDst := a.byDomainDst.insert as.domainDst as

structure Vacant (a : AddrAssignments) (as : Addrs) (now : Time) : Prop where
  magic : a.lookupByMagicIP as.magic now = none
  domainDst : a.lookupByDomainDst as.domainDst now = none
  transit : a.lookupByTransitIP as.transit now = none

theorem insert_eq (unset : as.expiresAt = 0) (vacant : a.Vacant as now) :
    a.insert as now = .ok (a.put (as.stamped now)) := by
  rw [insert, insertWithExpiry, if_neg (not_not.2 unset)]
  show (if (a.lookupByMagicIP as.magic now).isSome then _ else
    if (a.lookupByDomainDst as.domainDst now).isSome then _ else
    if (a.lookupByTransitIP as.transit now).isSome then _ else _) = _
  rw [vacant.magic, vacant.domainDst, vacant.transit]
  rfl

theorem insert_eq_ok (inserted : a.insert as now = .ok b) :
    a.Vacant (as.stamped now) now ∧ b = a.put (as.stamped now) := by
  unfold insert insertWithExpiry at inserted
  split at inserted
  · cases inserted
  dsimp only at inserted
  split at inserted
  · cases inserted
  next magic =>
  split at inserted
  · cases inserted
  next domainDst =>
  split at inserted
  · cases inserted
  next transit =>
  rw [not_isSome_iff_eq_none] at magic domainDst transit
  cases inserted
  exact ⟨⟨magic, domainDst, transit⟩, rfl⟩

section
variable {κ : Type} [DecidableEq κ] {m : AList fun _ : κ => Addrs} {key : Addrs → κ}

theorem lookup_insert_iff (vacant : unexpired (m.lookup (key as)) now = none) (unexpired : now ≤ as'.expiresAt) :
    (m.insert (key as) as).lookup (key as') = some as' ↔ as' = as ∨ m.lookup (key as') = some as' := by
  by_cases same : key as' = key as
  · have gone : m.lookup (key as') ≠ some as' := by
      intro found
      rw [same] at found
      rw [unexpired_eq_some.2 ⟨found, unexpired⟩] at vacant
      cases vacant
    rw [same, lookup_insert, ← same, some_inj, eq_comm]
    exact ⟨.inl, fun h => h.resolve_right gone⟩
  · rw [lookup_insert_ne same]
    refine ⟨.inr, fun h => h.resolve_left fun equal => same (congrArg key equal)⟩

structure Indexed (a : AddrAssignments) (now : Time) : Prop where
  magic : ∀ k as, a.byMagicIP.lookup k = some as → as.magic = k
  transit : ∀ k as, a.byTransitIP.lookup k = some as → as.transit = k
  domainDst : ∀ k as, a.byDomainDst.lookup k = some as → as.domainDst = k
  agreeTransit : ∀ as : Addrs, now ≤ as.expiresAt →
    (a.byMagicIP.lookup as.magic = some as ↔ a.byTransitIP.lookup as.transit = some as)
  agreeDomainDst : ∀ as : Addrs, now ≤ as.expiresAt →
    (a.byMagicIP.lookup as.magic = some as ↔ a.byDomainDst.lookup as.domainDst = some as)

theorem key_of_insert {k : κ} (keys : ∀ k as, m.lookup k = some as → key as = k)
    (found : (m.insert (key as) as).lookup k = some as') : key as' = k := by
  obtain ⟨rfl, rfl⟩ | ⟨-, found⟩ := lookup_insert_eq_some.1 found
  · rfl
  · exact keys k as' found

end

namespace Indexed

theorem empty : Indexed .empty now := by
  constructor <;> simp [AddrAssignments.empty, lookup_empty]

theorem later (indexed : Indexed a now) (later : now ≤ t) : Indexed a t :=
  { indexed with
    agreeTransit := fun as unexpired => indexed.agreeTransit as (later.trans unexpired)
    agreeDomainDst := fun as unexpired => indexed.agreeDomainDst as (later.trans unexpired) }

theorem put (indexed : Indexed a now) (vacant : a.Vacant as now) : Indexed (a.put as) now where
  magic _ _ found := key_of_insert indexed.magic found
  transit _ _ found := key_of_insert indexed.transit found
  domainDst _ _ found := key_of_insert indexed.domainDst found
  agreeTransit as' unexpired := by
    refine (lookup_insert_iff vacant.magic unexpired).trans
      (.trans ?_ (lookup_insert_iff vacant.transit unexpired).symm)
    rw [indexed.agreeTransit as' unexpired]
  agreeDomainDst as' unexpired := by
    refine (lookup_insert_iff vacant.magic unexpired).trans
      (.trans ?_ (lookup_insert_iff vacant.domainDst unexpired).symm)
    rw [indexed.agreeDomainDst as' unexpired]

end Indexed

structure Consistent (a : AddrAssignments) (t : Time) : Prop where
  magic : ∀ k as, a.lookupByMagicIP k t = some as → as.magic = k
  transit : ∀ k as, a.lookupByTransitIP k t = some as → as.transit = k
  domainDst : ∀ k as, a.lookupByDomainDst k t = some as → as.domainDst = k
  agreeTransit : ∀ as : Addrs,
    a.lookupByMagicIP as.magic t = some as ↔ a.lookupByTransitIP as.transit t = some as
  agreeDomainDst : ∀ as : Addrs,
    a.lookupByMagicIP as.magic t = some as ↔ a.lookupByDomainDst as.domainDst t = some as
  apart : ∀ as as' : Addrs, a.lookupByMagicIP as.magic t = some as →
    a.lookupByMagicIP as'.magic t = some as' →
    as.magic = as'.magic ∨ as.transit = as'.transit ∨ as.domainDst = as'.domainDst → as = as'

theorem Indexed.consistent (indexed : Indexed a t) : a.Consistent t := by
  have agreeTransit : ∀ as : Addrs,
      a.lookupByMagicIP as.magic t = some as ↔ a.lookupByTransitIP as.transit t = some as := by
    intro as
    rw [lookupByMagicIP, lookupByTransitIP, unexpired_eq_some, unexpired_eq_some]
    exact and_congr_left fun unexpired => indexed.agreeTransit as unexpired
  have agreeDomainDst : ∀ as : Addrs,
      a.lookupByMagicIP as.magic t = some as ↔ a.lookupByDomainDst as.domainDst t = some as := by
    intro as
    rw [lookupByMagicIP, lookupByDomainDst, unexpired_eq_some, unexpired_eq_some]
    exact and_congr_left fun unexpired => indexed.agreeDomainDst as unexpired
  refine ⟨?_, ?_, ?_, agreeTransit, agreeDomainDst, ?_⟩
  · exact fun k as found => indexed.magic k as (unexpired_eq_some.1 found).1
  · exact fun k as found => indexed.transit k as (unexpired_eq_some.1 found).1
  · exact fun k as found => indexed.domainDst k as (unexpired_eq_some.1 found).1
  · rintro as as' first second (same | same | same)
    · rw [same, second] at first
      exact (Option.some.inj first).symm
    · rw [agreeTransit] at first second
      rw [same, second] at first
      exact (Option.some.inj first).symm
    · rw [agreeDomainDst] at first second
      rw [same, second] at first
      exact (Option.some.inj first).symm

end AddrAssignments

inductive Effect (c : Client) (domain : Bytes) (t₁ t₂ : Time) :
    Option Addr → Except ReserveError Addrs → Client → Prop
  | refused {dst : Option Addr} (e : ReserveError) (v4 v6 : Option Pools) :
      Effect c domain t₁ t₂ dst (.error e) { c with v4, v6 }
  | existing {dst : Addr} {as : Addrs}
      (found : c.assignments.lookupByDomainDst ⟨domain, dst⟩ t₁ = some as) :
      Effect c domain t₁ t₂ (some dst) (.ok as) c
  | dropped {dst : Addr} {as : Addrs} (v4 v6 : Option Pools)
      (missing : c.assignments.lookupByDomainDst ⟨domain, dst⟩ t₁ = none)
      (full : ¬ c.addrsCh.length < queueSize) (key : as.domainDst = ⟨domain, dst⟩)
      (vacant : c.assignments.Vacant (as.stamped t₂) t₂) :
      Effect c domain t₁ t₂ (some dst) (.error .queueFull)
        { c with v4, v6, assignments := c.assignments.put (as.stamped t₂) }
  | placed {dst : Addr} {as : Addrs} (v4 v6 : Option Pools) (key : as.domainDst = ⟨domain, dst⟩)
      (vacant : c.assignments.Vacant (as.stamped t₂) t₂) :
      Effect c domain t₁ t₂ (some dst) (.ok as)
        { c with
          v4, v6
          assignments := c.assignments.put (as.stamped t₂)
          addrsCh := c.addrsCh ++ [as]
          placed := c.placed ++ [as.stamped t₂] }

theorem Client.setPools_eq (dst : Addr) (p : Pools) : ∃ v4 v6, c.setPools dst p = { c with v4, v6 } := by
  unfold setPools
  split
  · exact ⟨_, _, rfl⟩
  · exact ⟨_, _, rfl⟩

theorem effect_of_assign {domain : Bytes} {dst : Addr}
    (v4 v6 : Option Pools) (missing : c.assignments.lookupByDomainDst ⟨domain, dst⟩ t₁ = none)
    (key : as.domainDst = ⟨domain, dst⟩)
    (assigned : ({ c with v4, v6 } : Client).assign as t₂ = (result, c')) :
    Effect c domain t₁ t₂ (some dst) result c' := by
  unfold assign at assigned
  cases inserted : c.assignments.insert as t₂ with
  | error e =>
    rw [inserted] at assigned
    cases assigned
    exact .refused e v4 v6
  | ok =>
    obtain ⟨vacant, rfl⟩ := insert_eq_ok inserted
    rw [inserted] at assigned
    unfold enqueueAddressAssignment at assigned
    by_cases room : c.addrsCh.length < queueSize
    · have stored : (c.assignments.put (as.stamped t₂)).byDomainDst.lookup as.domainDst =
          some (as.stamped t₂) := lookup_insert _
      simp only [if_pos room, stored, toList_some] at assigned
      cases assigned
      exact .placed v4 v6 key vacant
    · simp only [if_neg room] at assigned
      cases assigned
      exact .dropped v4 v6 missing room key vacant

theorem effect_of_reserve {appName domain : Bytes}
    (returned : c.reserveAddresses appName domain dst t₁ t₂ = some (result, c')) :
    Effect c domain t₁ t₂ dst result c' := by
  unfold reserveAddresses at returned
  cases dst with
  | none =>
    cases returned
    exact .refused .dstNotValid c.v4 c.v6
  | some dst =>
    cases missing : c.assignments.lookupByDomainDst ⟨domain, dst⟩ t₁ with
    | some =>
      simp only [missing] at returned
      cases returned
      exact .existing missing
    | none =>
      simp only [missing, bind_eq_bind, bind_eq_some_iff] at returned
      obtain ⟨p, -, ⟨mip, magic⟩, -, returned⟩ := returned
      cases mip with
      | error e =>
        cases e
        obtain ⟨v4, v6, pools⟩ := c.setPools_eq dst { p with magic }
        simp only [pools] at returned
        cases returned
        exact .refused _ v4 v6
      | ok =>
        simp only [bind_eq_some_iff] at returned
        obtain ⟨⟨tip, transit⟩, -, returned⟩ := returned
        obtain ⟨v4, v6, pools⟩ := c.setPools_eq dst ⟨magic, transit⟩
        cases tip with
        | error e =>
          cases e
          simp only [pools] at returned
          cases returned
          exact .refused _ v4 v6
        | ok =>
          simp only [pools] at returned
          exact effect_of_assign v4 v6 missing rfl (Option.some.inj returned)

section Record
variable (c : Client) (domain : Bytes) (dst : Option Addr) (t : Time) (result : Except ReserveError Addrs)

@[simp] theorem Client.assignments_record : (c.record domain dst t result).assignments = c.assignments := by
  cases result <;> rfl

@[simp] theorem Client.now_record : (c.record domain dst t result).now = t := by
  cases result <;> rfl

end Record

theorem step_cases {op : Op} (taken : step c op = some c') :
    (∃ appName domain dst t₁ t₂ result c'', op = .reserveAddresses appName domain dst t₁ t₂ ∧
      c.now ≤ t₁ ∧ t₁ ≤ t₂ ∧ Effect c domain t₁ t₂ dst result c'' ∧
      c' = c''.record domain dst t₂ result) ∨
    (∃ v4 v6 addrsCh, c' = { c with v4, v6, addrsCh }) := by
  cases op with
  | reserveAddresses appName domain dst t₁ t₂ =>
    rw [step] at taken
    split at taken
    next ordered =>
      obtain ⟨⟨result, c''⟩, returned, rfl⟩ := map_eq_some_iff.1 taken
      exact .inl ⟨appName, domain, dst, t₁, t₂, result, c'', rfl, ordered.1, ordered.2,
        effect_of_reserve returned, rfl⟩
    · cases taken
  | reconfig =>
    cases taken
    exact .inr ⟨_, _, _, rfl⟩
  | dequeue =>
    obtain ⟨⟨as, c''⟩, received, rfl⟩ := map_eq_some_iff.1 taken
    rw [dequeue] at received
    split at received
    · cases received
    · cases received
      exact .inr ⟨_, _, _, rfl⟩

theorem Effect.indexed {domain : Bytes}
    (effect : Effect c domain t₁ t₂ dst result c') (indexed : c.assignments.Indexed t₂) :
    c'.assignments.Indexed t₂ := by
  cases effect with
  | refused | existing => exact indexed
  | dropped _ _ _ _ _ vacant | placed _ _ _ vacant => exact indexed.put vacant

theorem indexed_of_run {ops : List Op} (run : Run step .newClient ops c) :
    c.assignments.Indexed c.now := by
  induction run with
  | refl => exact .empty
  | snoc _ taken ih =>
    rcases step_cases taken with
      ⟨_, domain, dst, t₁, t₂, result, c'', rfl, first, second, effect, rfl⟩ | ⟨_, _, _, rfl⟩
    · rw [assignments_record, now_record]
      exact effect.indexed (ih.later (first.trans second))
    · exact ih

def Client.hasRoom (c : Client) : Op → Bool
  | .reserveAddresses _ domain (some dst) t₁ _ =>
    (c.assignments.lookupByDomainDst ⟨domain, dst⟩ t₁).isSome || c.addrsCh.length < queueSize
  | _ => true

structure Client.Announced (c : Client) : Prop where
  stored : ∀ k as, c.assignments.byDomainDst.lookup k = some as → as ∈ c.placed
  kept : ∀ as ∈ c.placed, c.now ≤ as.expiresAt →
    c.assignments.byDomainDst.lookup as.domainDst = some as
  nodup : c.placed.Nodup
  returned : ∀ as ∈ c.returned, as ∈ c.placed

namespace Client.Announced

theorem newClient : newClient.Announced where
  stored k as found := by cases found
  kept _ member := by cases member
  nodup := .nil
  returned _ member := by cases member

section
variable (announced : c.Announced)
include announced

theorem later (later : c.now ≤ t) : ({ c with now := t } : Client).Announced :=
  { announced with kept := fun as member unexpired => announced.kept as member (later.trans unexpired) }

theorem pools (v4 v6 : Option Pools) (addrsCh : List Addrs) :
    ({ c with v4, v6, addrsCh } : Client).Announced :=
  { announced with }

theorem put (later : c.now ≤ t)
    (vacant : c.assignments.Vacant as t) (unexpired : t ≤ as.expiresAt) (v4 v6 : Option Pools)
    (addrsCh : List Addrs) :
    ({ c with
      v4, v6, addrsCh, assignments := c.assignments.put as, placed := c.placed ++ [as], now := t } :
      Client).Announced where
  stored k as' found := by
    change (c.assignments.byDomainDst.insert as.domainDst as).lookup k = some as' at found
    obtain ⟨-, rfl⟩ | ⟨-, found⟩ := lookup_insert_eq_some.1 found
    · exact mem_append_right _ (mem_singleton_self _)
    · exact mem_append_left _ (announced.stored k as' found)
  kept as' member unexpired' := by
    apply (lookup_insert_iff vacant.domainDst unexpired').2
    rcases mem_append.1 member with old | new
    · exact .inr (announced.kept as' old (later.trans unexpired'))
    · exact .inl (mem_singleton.1 new)
  nodup := by
    -- a second placement would find the first one unexpired
    refine nodup_append.2 ⟨announced.nodup, nodup_singleton _, ?_⟩
    intro as' old last new same
    have again := announced.kept as' old
    rw [same, mem_singleton.1 new] at again
    have found := vacant.domainDst
    rw [lookupByDomainDst, unexpired_eq_some.2
      ⟨again (later.trans unexpired), unexpired⟩] at found
    cases found
  returned as' member := mem_append_left _ (announced.returned as' member)

theorem record (later : c.now ≤ t) (domain : Bytes) (dst : Option Addr)
    (result : Except ReserveError Addrs) : (c.record domain dst t result).Announced := by
  cases result with
  | error => exact announced.later later
  | ok =>
    refine { announced.later later with returned := ?_ }
    intro as' member
    rcases mem_append.1 member with old | new
    · exact announced.returned as' old
    · obtain ⟨d, -, found⟩ := bind_eq_some_iff.1 (mem_toList.1 new)
      exact announced.stored _ as' found

end

end Client.Announced

theorem Effect.announced {domain appName : Bytes}
    (effect : Effect c domain t₁ t₂ dst result c') (later : c.now ≤ t₂)
    (room : c.hasRoom (.reserveAddresses appName domain dst t₁ t₂) = true) (announced : c.Announced) :
    (c'.record domain dst t₂ result).Announced := by
  cases effect with
  | refused _ v4 v6 => exact (announced.pools v4 v6 c.addrsCh).record later domain dst _
  | existing => exact announced.record later domain _ _
  | dropped _ _ missing full =>
    rw [hasRoom, missing] at room
    exact absurd (of_decide_eq_true room) full
  | @placed dst as v4 v6 _ vacant =>
    have entered := announced.put later vacant (Nat.le_add_right _ _) v4 v6 (c.addrsCh ++ [as])
    exact entered.record (le_refl t₂) domain (some dst) (.ok as)

theorem announced_of_run {ops : List Op} (run : Run step .newClient ops c)
    (room : Throughout step (fun c op => c.hasRoom op) .newClient ops) : c.Announced := by
  induction run with
  | refl => exact .newClient
  | snoc before taken ih =>
    obtain ⟨earlier, room⟩ := (throughout_snoc before).1 room
    rcases step_cases taken with
      ⟨_, domain, dst, t₁, t₂, result, c'', rfl, first, second, effect, rfl⟩ | ⟨v4, v6, addrsCh, rfl⟩
    · exact effect.announced (first.trans second) room (ih earlier)
    · exact (ih earlier).pools v4 v6 addrsCh

/-- In a run in which no assignment is made while the queue is full, the indexes agree on the
unexpired assignments and keep them apart, and each assignment returned was placed once. -/
theorem placed_once_of_run {ops : List Op} (run : Run step .newClient ops c)
    (room : Throughout step (fun c op => c.hasRoom op) .newClient ops) :
    (∀ t, c.now ≤ t → c.assignments.Consistent t) ∧ ∀ as ∈ c.returned, c.placed.count as = 1 := by
  have announced := announced_of_run run room
  constructor
  · intro t later
    exact ((indexed_of_run run).later later).consistent
  · intro as member
    exact count_eq_one_of_mem announced.nodup (announced.returned as member)

/-- Also when the queue was full, and at any later time. -/
theorem consistent_of_run {ops : List Op} (run : Run step .newClient ops c) (later : c.now ≤ t) :
    c.assignments.Consistent t :=
  ((indexed_of_run run).later later).consistent

namespace Sample

def v4Range (low high : BitVec 32) (valid : low.toNat ≤ high.toNat) : Netipx.IPRange :=
  ⟨.v4 low, .v4 high, rfl, valid⟩

def v4Set (low high : BitVec 32) (valid : low.toNat ≤ high.toNat) : Netipx.IPSet :=
  ⟨[v4Range low high valid], pairwise_singleton _ _⟩

def ipSets : IPSets where
  v4Magic := v4Set 0x64400000 0x6440007f (by decide)
  v4Transit := v4Set 0xa9fe0000 0xa9fe007f (by decide)
  v6Magic := .empty
  v6Transit := .empty

def reserve (n : Nat) : Op :=
  .reserveAddresses [97] [UInt8.ofNat n] (some (.v4 (0x0a000000 + BitVec.ofNat 32 n))) 1 1

/-- As many calls as the queue has places, and one more that is made again after a receive. -/
def overrun : List Op := .reconfig ipSets :: (List.range 65).map reserve ++ [.dequeue, reserve 64]

def repeated : List Op := [.reconfig ipSets, reserve 0, reserve 1, .dequeue, reserve 0]

theorem repeated_placed_once : ∃ c, Run step .newClient repeated c ∧ c.returned.length = 3 ∧
    (∀ t, c.now ≤ t → c.assignments.Consistent t) ∧ ∀ as ∈ c.returned, c.placed.count as = 1 := by
  obtain ⟨c, run, room, three⟩ : ∃ c, Run step .newClient repeated c ∧
      Throughout step (fun c op => hasRoom c op = true) .newClient repeated ∧
      c.returned.length = 3 := throughout_of_found (fun _ _ room => room) (by decide +kernel)
  exact ⟨c, run, three, placed_once_of_run run room⟩

theorem repeated_consistent :
    ∃ c, Run step .newClient repeated c ∧ c.assignments.Consistent c.now := by
  obtain ⟨c, run, -⟩ : ∃ c, Run step .newClient repeated c ∧ c.returned.length = 3 :=
    run_of_found (by decide +kernel)
  exact ⟨c, run, consistent_of_run run le_rfl⟩

/-- The second call for the last destination returns an assignment that was never placed. -/
theorem returned_unplaced :
    ∃ c, Run step .newClient overrun c ∧ ∃ as ∈ c.returned, c.placed.count as = 0 :=
  run_of_found (by decide +kernel)

end Sample

end ScaleTail.Conn25
