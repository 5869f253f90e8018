import ScaleTail.Lib.Lookup
import ScaleTail.Natc.IPPool

/-! # What a command does to the pool -/

namespace ScaleTail.Natc
open Go Net Netipx

variable {ps ps' : PeerState} {ipSet : IPSet} {deadline : Time} {r : IPRange} {a : Addr}
  {addr : IP} {domain : Bytes} {nid : NodeID}

def PeerState.Kept (ps : PeerState) (deadline : Time) (addr : IP) : Prop :=
  ∃ ww, ps.addrToDomain.lookup addr = some ww ∧ deadline ≤ ww.lastUsed

def PeerState.Free (ps : PeerState) (deadline : Time) (addr : IP) (previous : Option Bytes) : Prop :=
  ps.addrToDomain.lookup addr = none ∧ previous = none ∨
    ∃ ww, ps.addrToDomain.lookup addr = some ww ∧ ww.lastUsed < deadline ∧ previous = some ww.domain

def Interior (ipSet : IPSet) : Prop := ∀ r ∈ ipSet.ranges, r.to_.next ≠ none

instance (ipSet : IPSet) : Decidable (Interior ipSet) :=
  inferInstanceAs (Decidable (∀ r ∈ ipSet.ranges, _))

theorem IP.beyond_of_mem (member : a ∈ r) : IP.beyond r.to_ (.valid a) = false := by
  have valid := r.valid.1
  have family := member.1
  have high := member.2.2
  refine decide_eq_false ?_
  rintro (less | ⟨-, less⟩)
  · omega
  · omega

theorem IP.beyond_next (interior : r.to_.next ≠ none) :
    IP.beyond r.to_ (IP.next (.valid r.to_)) = true := by
  have bound := r.to_.toNat_lt
  unfold Addr.next at interior
  split at interior
  · exact absurd rfl interior
  next inside =>
    have found : r.to_.next = some (r.to_.add 1) := if_neg inside
    have value : (r.to_.add 1).toNat = r.to_.toNat + 1 := by
      apply Addr.toNat_add
      omega
    rw [IP.next, found]
    refine decide_eq_true (Or.inr ⟨(Addr.bitLen_add ..).symm, ?_⟩)
    rw [value]
    exact Nat.lt_succ_self _

theorem IP.next_of_lt (member : a ∈ r) (less : a.toNat < r.to_.toNat) :
    IP.next (.valid a) = .valid (a.add 1) := by
  rw [IP.next, Addr.next_eq (member.1.trans r.valid.1) less]
  rfl

def PeerState.Answers (ps : PeerState) (deadline : Time) (addrs : Addr → Prop)
    (found : Option (IP × Option Bytes)) : Prop :=
  match found with
  | none => ∀ a, addrs a → ps.Kept deadline (.valid a)
  | some (addr, _) => ∃ a, addrs a ∧ addr = .valid a

theorem PeerState.Answers.mono {P Q : Addr → Prop} {found : Option (IP × Option Bytes)}
    (answers : ps.Answers deadline P found) (sub : ∀ a, P a → Q a)
    (rest : ∀ a, Q a → P a ∨ ps.Kept deadline (.valid a)) : ps.Answers deadline Q found := by
  cases found with
  | none =>
    intro a member
    cases rest a member with
    | inl inside => exact answers a inside
    | inr kept => exact kept
  | some =>
    obtain ⟨a, inside, same⟩ := answers
    exact ⟨a, sub a inside, same⟩

theorem PeerState.unusedIn_free {toIP : Addr} {rounds : Nat} {ip : IP} {previous : Option Bytes}
    (answer : ps.unusedIn deadline toIP rounds ip = some (some (addr, previous))) :
    ps.Free deadline addr previous := by
  induction rounds generalizing ip with
  | zero => cases answer
  | succ _ ih =>
    rw [unusedIn] at answer
    split at answer
    · cases answer
    split at answer
    next missing =>
      cases answer
      exact .inl ⟨missing, rfl⟩
    next ww found =>
      split at answer
      next expired =>
        cases answer
        exact .inr ⟨ww, found, expired, rfl⟩
      · exact ih answer

theorem PeerState.unusedIPV4_free {ranges : List IPRange} {previous : Option Bytes}
    (answer : ps.unusedIPV4 deadline ranges = some (some (addr, previous))) :
    ps.Free deadline addr previous := by
  induction ranges with
  | nil => cases answer
  | cons _ _ ih =>
    rw [unusedIPV4] at answer
    split at answer
    · cases answer
    · exact ih answer
    next found =>
      cases answer
      exact unusedIn_free found

theorem PeerState.unusedIn_answers (ps : PeerState) (deadline : Time)
    (interior : r.to_.next ≠ none) {rounds : Nat} (member : a ∈ r)
    (enough : r.to_.toNat - a.toNat + 2 ≤ rounds) :
    ∃ found, ps.unusedIn deadline r.to_ rounds (.valid a) = some found ∧
      ps.Answers deadline (fun b => b ∈ r ∧ a.toNat ≤ b.toNat) found := by
  induction rounds generalizing a with
  | zero => omega
  | succ rounds ih =>
    rw [unusedIn, IP.beyond_of_mem member, if_neg Bool.false_ne_true]
    cases assigned : ps.addrToDomain.lookup (.valid a) with
    | none => exact ⟨_, rfl, a, ⟨member, le_rfl⟩, rfl⟩
    | some ww =>
      by_cases expired : ww.lastUsed < deadline
      · exact ⟨_, if_pos expired, a, ⟨member, le_rfl⟩, rfl⟩
      simp only [if_neg expired]
      have kept : ps.Kept deadline (.valid a) := ⟨ww, assigned, not_lt.1 expired⟩
      have same {b : Addr} (other : b ∈ r) (equal : b.toNat = a.toNat) : b = a :=
        Addr.ext_toNat (other.1.trans member.1.symm) equal
      by_cases less : a.toNat < r.to_.toNat
      · -- a round more, from the address after this one
        obtain ⟨inside, value⟩ := IPRange.add_one_mem member less
        obtain ⟨found, answer, answers⟩ := ih inside (by omega)
        rw [IP.next_of_lt member less]
        refine ⟨found, answer, answers.mono ?_ ?_⟩
        · rintro b ⟨other, high⟩
          exact ⟨other, by omega⟩
        · rintro b ⟨other, high⟩
          by_cases equal : b.toNat = a.toNat
          · rw [same other equal]
            exact .inr kept
          · exact .inl ⟨other, by omega⟩
      · -- the last address of the range, so the next round stops
        have last : a = r.to_ := by
          by_contra differ
          exact less (IPRange.lt_to member differ)
        subst last
        obtain ⟨rounds, rfl⟩ : ∃ n, rounds = n + 1 := ⟨rounds - 1, by omega⟩
        refine ⟨none, ?_, ?_⟩
        · rw [unusedIn, if_pos (IP.beyond_next interior)]
        rintro b ⟨other, high⟩
        rw [same other (le_antisymm other.2.2 high)]
        exact kept

theorem PeerState.unusedIPV4_answers (ps : PeerState) (deadline : Time) {ranges : List IPRange}
    (interior : ∀ r ∈ ranges, r.to_.next ≠ none) :
    ∃ found, ps.unusedIPV4 deadline ranges = some found ∧
      ps.Answers deadline (fun a => ∃ r ∈ ranges, a ∈ r) found := by
  induction ranges with
  | nil =>
    refine ⟨none, rfl, ?_⟩
    rintro a ⟨r, member, -⟩
    simp at member
  | cons r _ ih =>
    obtain ⟨first, inside⟩ := List.forall_mem_cons.1 interior
    have enough : r.to_.toNat - r.from_.toNat + 2 ≤ r.size + ps.addrToDomain.entries.length + 1 := by
      have valid := r.valid.2
      unfold IPRange.size
      omega
    obtain ⟨found, answer, answers⟩ := ps.unusedIn_answers deadline first r.from_mem enough
    rw [unusedIPV4, answer]
    cases found with
    | none =>
      obtain ⟨found, answer, rest⟩ := ih inside
      refine ⟨found, answer, rest.mono ?_ ?_⟩
      · rintro a ⟨s, member, other⟩
        exact ⟨s, List.mem_cons_of_mem _ member, other⟩
      · rintro a ⟨s, member, other⟩
        cases List.mem_cons.1 member with
        | inl same =>
          subst same
          exact .inr (answers a ⟨other, other.2.1⟩)
        | inr later => exact .inl ⟨s, later, other⟩
    | some found =>
      obtain ⟨a, ⟨member, -⟩, same⟩ := answers
      exact ⟨some found, rfl, a, ⟨r, List.mem_cons_self, member⟩, same⟩

def Command.peer : Command → NodeID
  | .checkoutAddr nid .. => nid
  | .markLastUsed nid .. => nid
  | .readDomainForIP nid _ => nid

def PeerState.touch (ps : PeerState) (addr : IP) (ww : WhereWhen) (updatedAt : Time) : PeerState :=
  { ps with addrToDomain := ps.addrToDomain.insert addr { ww with lastUsed := updatedAt } }

inductive Effect (ipSet : IPSet) (ps : PeerState) : Command → Result → PeerState → Prop
  | renewed {nid domain deadline updatedAt addr ww} :
      ps.domainToAddr.lookup domain = some addr → ps.addrToDomain.lookup addr = some ww →
      Effect ipSet ps (.checkoutAddr nid domain deadline updatedAt) (.addr addr)
        (ps.touch addr ww updatedAt)
  | taken {nid domain deadline updatedAt addr previous} :
      (∀ addr, ps.domainToAddr.lookup domain = some addr → ps.addrToDomain.lookup addr = none) →
      (Interior ipSet → ∃ a ∈ ipSet, addr = .valid a) → ps.Free deadline addr previous →
      Effect ipSet ps (.checkoutAddr nid domain deadline updatedAt) (.addr addr)
        (ps.assign domain addr previous updatedAt)
  | exhausted {nid domain deadline updatedAt} :
      (Interior ipSet → ∀ a ∈ ipSet, ps.Kept deadline (.valid a)) →
      Effect ipSet ps (.checkoutAddr nid domain deadline updatedAt) .exhausted ps
  | marked {nid addr ww updatedAt} :
      ps.addrToDomain.lookup addr = some ww → ww.lastUsed ≤ updatedAt →
      Effect ipSet ps (.markLastUsed nid addr ww.domain updatedAt) .marked (ps.touch addr ww updatedAt)
  | ignored {nid addr domain updatedAt} :
      (∀ ww, ps.addrToDomain.lookup addr = some ww → ww.domain = domain → updatedAt < ww.lastUsed) →
      Effect ipSet ps (.markLastUsed nid addr domain updatedAt) .marked ps
  | read {nid addr d} : Effect ipSet ps (.readDomainForIP nid addr) (.domain d) ps

namespace State
variable {s s' : State} {command : Command} {result : Result}

@[simp] theorem peer_insert_self : peer (s.insert nid ps) nid = ps := by
  simp [peer]

@[simp] theorem peer_insert_of_ne {other : NodeID} (differ : other ≠ nid) :
    peer (s.insert nid ps) other = s.peer other := by
  simp [peer, AList.lookup_insert_ne differ]

def Changes (ipSet : IPSet) (s : State) (command : Command) (result : Result) (s' : State) : Prop :=
  Effect ipSet (s.peer command.peer) command result (s'.peer command.peer) ∧
    ∀ other, other ≠ command.peer → s'.peer other = s.peer other

theorem changes_insert (effect : Effect ipSet (s.peer command.peer) command result ps) :
    s.Changes ipSet command result (s.insert command.peer ps) := by
  refine ⟨?_, fun other differ => peer_insert_of_ne differ⟩
  rw [peer_insert_self]
  exact effect

theorem applyCheckoutAddr_changes {deadline updatedAt : Time}
    (applied : s.applyCheckoutAddr ipSet nid domain deadline updatedAt = some (result, s')) :
    s.Changes ipSet (.checkoutAddr nid domain deadline updatedAt) result s' := by
  dsimp only [applyCheckoutAddr] at applied
  split at applied
  next existing ww found =>
    obtain ⟨addr, mapped, both⟩ := Option.bind_eq_some_iff.1 found
    obtain ⟨ww, back, same⟩ := Option.map_eq_some_iff.1 both
    cases same
    cases applied
    exact changes_insert (.renewed mapped back)
  next missing =>
    have fresh addr (mapped : (s.peer nid).domainToAddr.lookup domain = some addr) :
        (s.peer nid).addrToDomain.lookup addr = none := by
      rw [mapped] at missing
      simpa using missing
    have answers {found} (answer : (s.peer nid).unusedIPV4 deadline ipSet.ranges = some found)
        (interior : Interior ipSet) : (s.peer nid).Answers deadline (· ∈ ipSet) found := by
      obtain ⟨found', answer', answers⟩ := (s.peer nid).unusedIPV4_answers deadline interior
      cases answer.symm.trans answer'
      exact answers
    split at applied
    · cases applied
    next answer =>
      cases applied
      exact changes_insert (.exhausted (answers answer))
    next answer =>
      cases applied
      exact changes_insert (.taken fresh (answers answer) (PeerState.unusedIPV4_free answer))

theorem applyMarkLastUsed_changes (updatedAt : Time) :
    s.Changes ipSet (.markLastUsed nid addr domain updatedAt) .marked
      (s.applyMarkLastUsed nid addr domain updatedAt) := by
  dsimp only [applyMarkLastUsed]
  split
  next missing =>
    refine ⟨.ignored ?_, fun _ _ => rfl⟩
    intro ww found
    cases missing.symm.trans found
  next ww found =>
    split
    next refused =>
      refine ⟨.ignored ?_, fun _ _ => rfl⟩
      intro ww' found' same
      cases found.symm.trans found'
      cases refused with
      | inl differ => exact absurd same differ
      | inr later => exact later
    next accepted =>
      obtain ⟨same, ordered⟩ := not_or.1 accepted
      obtain rfl := not_not.1 same
      exact changes_insert (.marked found (not_lt.1 ordered))

theorem changes_of_apply (applied : s.apply ipSet command = some (result, s')) :
    s.Changes ipSet command result s' := by
  cases command with
  | checkoutAddr => exact applyCheckoutAddr_changes applied
  | markLastUsed _ _ _ updatedAt =>
    cases applied
    exact applyMarkLastUsed_changes updatedAt
  | readDomainForIP =>
    cases applied
    exact ⟨.read, fun _ _ => rfl⟩

theorem applyCheckoutAddr_total (interior : Interior ipSet) (deadline updatedAt : Time) :
    ∃ result s', s.applyCheckoutAddr ipSet nid domain deadline updatedAt = some (result, s') := by
  dsimp only [applyCheckoutAddr]
  split
  · exact ⟨_, _, rfl⟩
  · obtain ⟨found, answer, -⟩ := (s.peer nid).unusedIPV4_answers deadline interior
    rw [answer]
    cases found <;> exact ⟨_, _, rfl⟩

end State

structure PeerState.Ok (ipSet : IPSet) (ps : PeerState) : Prop where
  inverse : ∀ domain addr, ps.domainToAddr.lookup domain = some addr ↔
    ∃ ww, ps.addrToDomain.lookup addr = some ww ∧ ww.domain = domain
  member : ∀ addr ww, ps.addrToDomain.lookup addr = some ww → ∃ a ∈ ipSet, addr = .valid a

namespace PeerState

theorem ok_empty : PeerState.empty.Ok ipSet := by
  constructor
  · simp [empty]
  · simp [empty]

variable {t : Time} {ww : WhereWhen} {previous : Option Bytes}

theorem lookup_touch (other : IP) :
    (ps.touch addr ww t).addrToDomain.lookup other =
      if other = addr then some { ww with lastUsed := t } else ps.addrToDomain.lookup other :=
  Lib.lookup_insert_ite

theorem Ok.touch (ok : ps.Ok ipSet)
    (found : ps.addrToDomain.lookup addr = some ww) : (ps.touch addr ww t).Ok ipSet := by
  constructor
  · intro domain other
    rw [lookup_touch, PeerState.touch, ok.inverse]
    split
    next same =>
      subst same
      simp [found]
    · rfl
  · intro other ww' stored
    rw [lookup_touch] at stored
    split at stored
    next same => exact same ▸ ok.member addr ww found
    · exact ok.member other ww' stored

theorem lookup_assign (other : IP) :
    (ps.assign domain addr previous t).addrToDomain.lookup other =
      if other = addr then some ⟨domain, t⟩ else ps.addrToDomain.lookup other :=
  Lib.lookup_insert_ite

theorem domainToAddr_assign (other : Bytes) :
    (ps.assign domain addr previous t).domainToAddr.lookup other =
      if previous = some other then none
      else if other = domain then some addr else ps.domainToAddr.lookup other := by
  have inserted : (ps.domainToAddr.insert domain addr).lookup other =
      if other = domain then some addr else ps.domainToAddr.lookup other := Lib.lookup_insert_ite
  cases previous with
  | none => exact inserted
  | some previous =>
    by_cases same : previous = other
    · subst same
      rw [if_pos rfl]
      exact AList.lookup_erase previous _
    · rw [if_neg fun equal => same (Option.some.inj equal), ← inserted]
      exact AList.lookup_erase_ne (Ne.symm same)

theorem Free.previous_eq (ok : ps.Ok ipSet) (free : ps.Free deadline addr previous) (d : Bytes) :
    previous = some d ↔ ps.domainToAddr.lookup d = some addr := by
  rw [ok.inverse]
  rcases free with ⟨missing, rfl⟩ | ⟨ww, found, -, rfl⟩
  · simp [missing]
  · simp [found]

theorem Ok.assign (ok : ps.Ok ipSet)
    (fresh : ∀ addr, ps.domainToAddr.lookup domain = some addr → ps.addrToDomain.lookup addr = none)
    (member : ∃ a ∈ ipSet, addr = .valid a) (free : ps.Free deadline addr previous) :
    (ps.assign domain addr previous t).Ok ipSet := by
  have unmapped : ps.domainToAddr.lookup domain = none := by
    rw [Option.eq_none_iff_forall_ne_some]
    intro addr mapped
    obtain ⟨ww, found, -⟩ := (ok.inverse domain addr).1 mapped
    cases (fresh addr mapped).symm.trans found
  have unrelated : previous ≠ some domain := by
    rw [Ne, free.previous_eq ok, unmapped]
    exact (Option.some_ne_none _).symm
  constructor
  · intro d other
    rw [domainToAddr_assign, lookup_assign]
    by_cases same : d = domain
    · subst same
      rw [if_neg unrelated, if_pos rfl]
      split
      next equal => simp [equal]
      next differ =>
        rw [← ok.inverse, unmapped]
        simpa using Ne.symm differ
    · split
      next lost =>
        -- the domain that had the address has none now
        have mapped := (free.previous_eq ok d).1 lost
        split
        next equal => simpa using Ne.symm same
        next differ =>
          rw [← ok.inverse, mapped]
          simpa using Ne.symm differ
      next keeps =>
        split
        next equal =>
          subst equal
          rw [← free.previous_eq ok]
          simp [keeps, Ne.symm same]
        · exact ok.inverse d other
  · intro other ww stored
    rw [lookup_assign] at stored
    split at stored
    next same => exact same ▸ member
    · exact ok.member other ww stored

theorem Ok.effect {command : Command} {result : Result} (interior : Interior ipSet) (ok : ps.Ok ipSet)
    (effect : Effect ipSet ps command result ps') : ps'.Ok ipSet := by
  cases effect with
  | renewed _ found | marked found => exact ok.touch found
  | taken fresh member free => exact ok.assign fresh (member interior) free
  | exhausted | ignored | read => exact ok

end PeerState

end ScaleTail.Natc
