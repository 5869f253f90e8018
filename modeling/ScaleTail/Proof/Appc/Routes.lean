import ScaleTail.Proof.Appc.Maps
import ScaleTail.Proof.Net.Rules
import ScaleTail.Lib.Runs

/-! # Advertised routes -/

namespace ScaleTail.Appc
open Go Net Lib List

variable {s s' : State} {d : Bytes} {a : Addr} {p r : Prefix}

variable {routes advertised : List Prefix} {rest : List Action} {picks : List (Option Addr)}
  {domains : List Bytes} {chain : Chain} {rounds : Nat}

theorem mem_advertiseRoute :
    p ∈ advertiseRoute advertised routes ↔ p ∈ advertised ∨ p ∈ routes := by
  simp only [advertiseRoute, mem_append, mem_filter, decide_eq_true_eq]
  tauto

theorem mem_unadvertiseRoute :
    p ∈ unadvertiseRoute advertised routes ↔ p ∈ advertised ∧ p ∉ routes := by
  simp [unadvertiseRoute]

def settle (advertised : List Prefix) : Action → List Prefix
  | .advertise routes => advertiseRoute advertised routes
  | .unadvertise routes => unadvertiseRoute advertised routes
  | _ => advertised

def enter (domains : Domains) : Action → Domains
  | .record d routes => recordRoutes domains d routes
  | _ => domains

def State.final (s : State) : List Prefix := s.queue.foldl settle s.advertised

def Pending (queue : List Action) (d : Bytes) (a : Addr) : Prop :=
  ∃ routes, .record d routes ∈ queue ∧ Prefix.single a ∈ routes

def Known (s : State) (d : Bytes) (a : Addr) : Prop :=
  Recorded s.domains d a ∨ Pending s.queue d a

def Wide (routes : List Prefix) (a : Addr) : Prop :=
  ∃ r ∈ routes, r.contains a = true ∧ r ≠ Prefix.single a

def Tracked (s : State) (d : Bytes) : Prop :=
  d ∈ s.configured ∨ s.wildcards.any (hasSuffix d) = true

structure Inv (s : State) : Prop where
  covered : ∀ d a, Known s d a →
    (∃ r ∈ s.controlRoutes, r.contains a = true) ∨ Prefix.single a ∈ s.final
  control : ∀ r ∈ s.controlRoutes,
    r ∈ s.final ∨ ∃ a, r = Prefix.single a ∧ Wide s.controlRoutes a
  singles : ∀ a, Prefix.single a ∈ s.final →
    Prefix.single a ∈ s.controlRoutes ∨ ∃ d, Known s d a ∧ ¬ Wide s.controlRoutes a
  domains : ∀ d ∈ s.domains, Tracked s d
  records : ∀ d routes, .record d routes ∈ s.queue → Tracked s d

theorem Inv.init : Inv State.init where
  covered := by
    rintro d a (recorded | ⟨routes, mem, -⟩)
    · exact absurd recorded recorded_empty
    · simp [State.init] at mem
  control := by simp [State.init]
  singles := by simp [State.init, State.final]
  domains := by simp [State.init]
  records := by simp [State.init]

theorem Inv.same (inv : Inv s) (final : s'.final = s.final) (known : ∀ d a, Known s' d a ↔ Known s d a)
    (control : s'.controlRoutes = s.controlRoutes) (wildcards : s'.wildcards = s.wildcards)
    (configured : s'.configured = s.configured) (domains : ∀ d ∈ s'.domains, Tracked s d)
    (records : ∀ d routes, .record d routes ∈ s'.queue → .record d routes ∈ s.queue) : Inv s' where
  covered := by
    rw [control, final]
    exact fun d a k => inv.covered d a ((known d a).1 k)
  control := by
    rw [control, final]
    exact inv.control
  singles := by
    rw [control, final]
    intro a mem
    exact (inv.singles a mem).imp_right fun ⟨d, k, narrow⟩ => ⟨d, (known d a).2 k, narrow⟩
  domains := by
    unfold Tracked
    rw [wildcards, configured]
    exact domains
  records := by
    unfold Tracked
    rw [wildcards, configured]
    exact fun d routes mem => inv.records d routes (records d routes mem)

theorem pending_append {q q' : List Action} : Pending (q ++ q') d a ↔ Pending q d a ∨ Pending q' d a := by
  simp only [Pending, mem_append, or_and_right, exists_or]

theorem Inv.enqueue (inv : Inv s) {more : List Action}
    (updates : ∀ x ∈ more, (∃ routes, x = .updateRoutes routes) ∨ ∃ domains, x = .updateDomains domains) :
    Inv { s with queue := s.queue ++ more } := by
  have records : ∀ d routes, .record d routes ∉ more := by
    intro d routes mem
    obtain ⟨_, same⟩ | ⟨_, same⟩ := updates _ mem <;> cases same
  have settles : ∀ adv, more.foldl settle adv = adv := by
    clear records
    induction more with
    | nil => exact fun _ => rfl
    | cons x _ ih =>
      intro adv
      have this : settle adv x = adv := by
        obtain ⟨_, rfl⟩ | ⟨_, rfl⟩ := updates x mem_cons_self <;> rfl
      rw [foldl_cons, this]
      exact ih (fun y mem => updates y (mem_cons_of_mem _ mem)) adv
  refine inv.same ?_ ?_ rfl rfl rfl inv.domains ?_
  · simp only [State.final, foldl_append, settles]
  · intro d a
    unfold Known
    rw [pending_append, or_iff_left (a := Pending s.queue d a)]
    rintro ⟨routes, mem, -⟩
    exact records d routes mem
  · intro d routes mem
    exact (mem_append.1 mem).resolve_right (records d routes)

theorem recorded_enter {m : Domains} {x : Action} :
    Recorded (enter m x) d a ↔ Recorded m d a ∨ ∃ routes, .record d routes = x ∧ .single a ∈ routes := by
  cases x with
  | record => simp [enter, recorded_recordRoutes, eq_comm]
  | _ => simp [enter]

theorem Inv.pop (inv : Inv s) {x : Action} (queue : s.queue = x :: rest) : Inv { s with
    queue := rest, advertised := settle s.advertised x, domains := enter s.domains x } := by
  refine inv.same (by simp [State.final, queue]) (fun d a => ?_) rfl rfl rfl (fun d mem => ?_) ?_
  · simp only [Known, Pending, queue, mem_cons, recorded_enter, or_and_right, exists_or, or_assoc]
  · cases x with
    | record d' routes =>
      obtain rfl | mem := mem_recordRoutes mem
      · exact inv.records d routes (by simp [queue])
      · exact inv.domains d mem
    | _ => exact inv.domains d mem
  · intro d routes mem
    rw [queue]
    exact mem_cons_of_mem _ mem

structure RoutesSafe (s : State) (routes : List Prefix) : Prop where
  gone : ∀ d a, Known s d a → (∃ r ∈ s.controlRoutes, r ∉ routes ∧ r.contains a = true) →
    ∃ r ∈ routes, r.contains a = true
  recorded : ∀ d a, Recorded s.domains d a → Wide routes a → ¬ Wide s.controlRoutes a →
    ∃ r ∈ routes, r.contains a = true ∧ r ≠ Prefix.single a ∧
      ∀ d' b, Recorded s.domains d' b → r.contains b = true → r ≠ Prefix.single b → b = a
  pending : ∀ d a, Pending s.queue d a → ¬ Wide routes a

theorem mem_inside : a ∈ s.inside r ↔
    (∃ d, Recorded s.domains d a) ∧ r.contains a = true ∧ r ≠ Prefix.single a := by
  simp only [State.inside, mem_filter, mem_flatMap, Bool.and_eq_true, decide_eq_true_eq,
    ne_comm]
  refine and_congr_left fun _ => ⟨?_, ?_⟩
  · rintro ⟨e, mem, ha⟩
    exact ⟨e.1, recorded_of_entry mem ha⟩
  · rintro ⟨d, recorded⟩
    obtain ⟨e, mem, -, ha⟩ := recorded.entry
    exact ⟨e, mem, ha⟩

theorem picksOk_mem
    (ok : picksOk s routes picks = true) (mem : some a ∈ picks) : ∃ r ∈ routes, a ∈ s.inside r := by
  induction routes generalizing picks with
  | nil =>
    cases picks with
    | nil => cases mem
    | cons => cases ok
  | cons r _ ih =>
    cases picks with
    | nil => cases ok
    | cons =>
      obtain ⟨first, rest⟩ := Bool.and_eq_true_iff.1 ok
      obtain same | mem := mem_cons.1 mem
      · subst same
        exact ⟨r, mem_cons_self, by simpa using first⟩
      · obtain ⟨r', mem', inside⟩ := ih rest mem
        exact ⟨r', mem_cons_of_mem _ mem', inside⟩

theorem picksOk_some
    (ok : picksOk s routes picks = true) (mem : r ∈ routes) (inside : a ∈ s.inside r) :
    ∃ b ∈ s.inside r, some b ∈ picks := by
  induction routes generalizing picks with
  | nil => cases mem
  | cons _ _ ih =>
    cases picks with
    | nil => cases ok
    | cons pick =>
      obtain ⟨first, rest⟩ := Bool.and_eq_true_iff.1 ok
      obtain rfl | mem := mem_cons.1 mem
      · cases pick with
        | none =>
          rw [List.isEmpty_iff.1 first] at inside
          cases inside
        | some b => exact ⟨b, by simpa using first, mem_cons_self⟩
      · obtain ⟨b, inside, picked⟩ := ih rest mem
        exact ⟨b, inside, mem_cons_of_mem _ picked⟩

structure UpdatedRoutes (s : State) (routes : List Prefix) (picks : List (Option Addr)) (s' : State) :
    Prop where
  ok : picksOk s routes picks = true
  domains : s'.domains = s.domains
  wildcards : s'.wildcards = s.wildcards
  configured : s'.configured = s.configured
  control : s'.controlRoutes = routes
  records : ∀ d rs, .record d rs ∈ s'.queue ↔ .record d rs ∈ s.queue
  final : ∀ p, p ∈ s'.final ↔ (p ∈ s.final ∨ p ∈ routes) ∧ (p ∈ s.controlRoutes → p ∈ routes) ∧
    ∀ a, some a ∈ picks → Prefix.single a ≠ p

theorem updateRoutes_cases (taken : s.updateRoutes routes picks = some s') :
    s' = s ∨ s.controlRoutes ≠ routes ∧ UpdatedRoutes s routes picks s' := by
  unfold State.updateRoutes at taken
  split at taken
  next => exact .inl (Option.some.inj taken).symm
  next changed =>
    obtain ⟨ok, ⟨⟩⟩ := Option.ite_none_right_eq_some.1 taken
    refine .inr ⟨changed, ok, rfl, rfl, rfl, rfl, by simp, fun p => ?_⟩
    simp [State.final, settle, mem_unadvertiseRoute, mem_advertiseRoute, routesWithout]

theorem UpdatedRoutes.known
    (update : UpdatedRoutes s routes picks s') (d : Bytes) (a : Addr) : Known s' d a ↔ Known s d a := by
  simp only [Known, Pending, update.domains, update.records]

theorem Inv.updatedRoutes (inv : Inv s)
    (safe : RoutesSafe s routes) (update : UpdatedRoutes s routes picks s') : Inv s' where
  covered := by
    intro d a known
    rw [update.known] at known
    rw [update.control, update.final]
    by_cases inside : ∃ r ∈ routes, r.contains a = true
    · exact .inl inside
    right
    have outside : ¬ ∃ r ∈ s.controlRoutes, r.contains a = true := by
      rintro ⟨r, mem, contains⟩
      by_cases stays : r ∈ routes
      · exact inside ⟨r, stays, contains⟩
      · exact inside (safe.gone d a known ⟨r, mem, stays, contains⟩)
    have single := (inv.covered d a known).resolve_left outside
    refine ⟨.inl single, fun mem => absurd ⟨_, mem, (Prefix.contains_single a a).2 rfl⟩ outside, ?_⟩
    intro b picked same
    obtain ⟨r, mem, within⟩ := picksOk_mem update.ok picked
    cases single_inj same
    exact inside ⟨r, mem, (mem_inside.1 within).2.1⟩
  control := by
    intro r mem
    rw [update.control] at mem ⊢
    rw [update.final]
    by_cases picked : ∃ a, some a ∈ picks ∧ Prefix.single a = r
    · obtain ⟨a, picked, rfl⟩ := picked
      obtain ⟨r, mem', within⟩ := picksOk_mem update.ok picked
      exact .inr ⟨a, rfl, r, mem', (mem_inside.1 within).2⟩
    · exact .inl ⟨.inr mem, fun _ => mem, fun a some same => picked ⟨a, some, same⟩⟩
  singles := by
    intro a single
    rw [update.control]
    obtain ⟨was, stays, unpicked⟩ := (update.final _).1 single
    by_cases listed : Prefix.single a ∈ routes
    · exact .inl listed
    right
    obtain control | ⟨d, known, narrow⟩ := inv.singles a (was.resolve_right listed)
    · exact absurd (stays control) listed
    refine ⟨d, (update.known d a).2 known, fun wide => ?_⟩
    obtain recorded | pending := known
    · obtain ⟨r, mem, contains, other, only⟩ := safe.recorded d a recorded wide narrow
      obtain ⟨b, within, picked⟩ :=
        picksOk_some update.ok mem (mem_inside.2 ⟨⟨d, recorded⟩, contains, other⟩)
      obtain ⟨⟨d', recorded'⟩, contains', other'⟩ := mem_inside.1 within
      exact unpicked b picked (by rw [only d' b recorded' contains' other'])
    · exact safe.pending d a pending wide
  domains := by
    unfold Tracked
    rw [update.wildcards, update.configured, update.domains]
    exact inv.domains
  records := by
    unfold Tracked
    rw [update.wildcards, update.configured]
    exact fun d rs mem => inv.records d rs ((update.records d rs).1 mem)

structure DomainsSafe [Unicode] (s : State) (domains : List Bytes) : Prop where
  nodup : (namesOf domains).Nodup
  gone : ∀ d a, ¬ Keeps domains d → Recorded s.domains d a → Wide s.controlRoutes a ∨
    Prefix.single a ∉ s.controlRoutes ∧ ∀ d', Keeps domains d' → ¬ Known s d' a
  records : ∀ d routes, .record d routes ∈ s.queue → Keeps domains d

theorem mem_queue_updateDomains [Unicode] :
    .record d routes ∈ (s.updateDomains domains).queue ↔ .record d routes ∈ s.queue := by
  show .record d routes ∈ (if s.dropped domains = [] then s.queue
    else s.queue ++ [.unadvertise (s.dropped domains)]) ↔ _
  split <;> simp

theorem mem_final_updateDomains [Unicode] :
    p ∈ (s.updateDomains domains).final ↔ p ∈ s.final ∧ p ∉ s.dropped domains := by
  show p ∈ (if s.dropped domains = [] then s.queue
    else s.queue ++ [.unadvertise (s.dropped domains)]).foldl settle s.advertised ↔ _
  split
  next none => simp [none, State.final]
  next => simp [settle, mem_unadvertiseRoute, State.final]

theorem Inv.updateDomains [Unicode] (inv : Inv s)
    (safe : DomainsSafe s domains) : Inv (s.updateDomains domains) := by
  have pending : ∀ d a, Pending (s.updateDomains domains).queue d a ↔ Pending s.queue d a := by
    intro d a
    simp only [Pending, mem_queue_updateDomains]
  have known : ∀ d a, Known (s.updateDomains domains) d a ↔ Keeps domains d ∧ Known s d a := by
    intro d a
    rw [Known, Known, recorded_updateDomains safe.nodup, pending]
    have waits : Pending s.queue d a → Keeps domains d := fun ⟨routes, mem, _⟩ => safe.records d routes mem
    tauto
  have gone := fun p => mem_dropped (s := s) (p := p) safe.nodup
  constructor
  case covered =>
    intro d a now
    obtain ⟨keeps, before⟩ := (known d a).1 now
    obtain control | single := inv.covered d a before
    · exact .inl control
    by_cases dropped : Prefix.single a ∈ s.dropped domains
    · obtain ⟨d', a', drops, recorded, same⟩ := (gone _).1 dropped
      cases single_inj same
      obtain ⟨r, mem, contains, -⟩ | ⟨-, only⟩ := safe.gone d' a drops recorded
      · exact .inl ⟨r, mem, contains⟩
      · exact absurd before (only d keeps)
    · exact .inr (mem_final_updateDomains.2 ⟨single, dropped⟩)
  case control =>
    intro r mem
    obtain final | wide := inv.control r mem
    · by_cases dropped : r ∈ s.dropped domains
      · obtain ⟨d', a', drops, recorded, rfl⟩ := (gone _).1 dropped
        obtain wide | ⟨absent, -⟩ := safe.gone d' a' drops recorded
        · exact .inr ⟨a', rfl, wide⟩
        · exact absurd mem absent
      · exact .inl (mem_final_updateDomains.2 ⟨final, dropped⟩)
    · exact .inr wide
  case singles =>
    intro a single
    obtain ⟨final, stays⟩ := mem_final_updateDomains.1 single
    obtain control | ⟨d, before, narrow⟩ := inv.singles a final
    · exact .inl control
    by_cases keeps : Keeps domains d
    · exact .inr ⟨d, (known d a).2 ⟨keeps, before⟩, narrow⟩
    obtain recorded | ⟨routes, mem, -⟩ := before
    · exact absurd ((gone _).2 ⟨d, a, keeps, recorded, rfl⟩) stays
    · exact absurd (safe.records d routes mem) keeps
  case domains => exact fun d mem => keeps_of_mem safe.nodup mem
  case records => exact fun d routes mem => safe.records d routes (mem_queue_updateDomains.1 mem)

theorem findRoutedDomain_spec {wildcards : List Bytes} {m m' : Domains}
    {domain domain' : Bytes} {isRouted : Bool}
    (found : findRoutedDomain wildcards chain rounds m domain = some (m', domain', isRouted)) :
    (∀ x a, Recorded m' x a ↔ Recorded m x a) ∧
    (∀ x ∈ m', x ∈ m ∨ wildcards.any (hasSuffix x) = true) ∧ (isRouted = true → domain' ∈ m') := by
  induction rounds generalizing m domain with
  | zero => cases found
  | succ _ ih =>
    rw [findRoutedDomain] at found
    split at found
    next known =>
      cases found
      exact ⟨fun _ _ => Iff.rfl, fun _ => Or.inl, fun _ => known⟩
    next unknown =>
      have entered : ∀ x a, Recorded (m.insert domain []) x a ↔ Recorded m x a := by
        intro x a
        rw [recorded_insert]
        have : Recorded m x a → x ≠ domain := fun recorded same => unknown (same ▸ recorded.mem)
        simp only [not_mem_nil, and_false, false_or, and_iff_right_iff_imp]
        exact this
      have keys (routed : wildcards.any (hasSuffix domain) = true) :
          ∀ x ∈ m.insert domain [], x ∈ m ∨ wildcards.any (hasSuffix x) = true := by
        intro x mem
        obtain rfl | mem := (AList.mem_insert _).1 mem
        · exact .inr routed
        · exact .inl mem
      cases routed : wildcards.any (hasSuffix domain) with
      | false =>
        simp only [routed, Bool.false_eq_true, if_false] at found
        split at found
        next =>
          cases found
          exact ⟨fun _ _ => Iff.rfl, fun _ => Or.inl, by simp⟩
        next next' => exact ih found
      | true =>
        simp only [routed, if_true] at found
        split at found
        next =>
          cases found
          exact ⟨entered, keys routed, fun _ => by simp⟩
        next next' =>
          obtain ⟨same, more, last⟩ := ih found
          exact ⟨fun x a => (same x a).trans (entered x a),
            fun x mem => (more x mem).elim (keys routed x) .inr, last⟩

structure Knows (control : List Prefix) (domain : Bytes) (m : Domains) (l : List Prefix) (m' : Domains)
    (l' : List Prefix) : Prop where
  kept : ∀ x a, Recorded m x a → Recorded m' x a
  new : ∀ x a, Recorded m' x a →
    Recorded m x a ∨ (x = domain ∧ ∃ r ∈ control, r.contains a = true)
  keys : ∀ x ∈ m', x ∈ m ∨ x = domain
  routes : ∀ p ∈ l', p ∈ l ∨ ∃ a, p = Prefix.single a ∧ ∀ r ∈ control, r.contains a = false

theorem foldl_knowAddr (control : List Prefix) (domain : Bytes) (addrs : List Addr) (m : Domains)
    (l : List Prefix) : Knows control domain m l (addrs.foldl (knowAddr control domain) (m, l)).1
      (addrs.foldl (knowAddr control domain) (m, l)).2 := by
  induction addrs generalizing m l with
  | nil => exact ⟨fun _ _ => id, fun _ _ => Or.inl, fun _ => Or.inl, fun _ => Or.inl⟩
  | cons a _ ih =>
    rw [foldl_cons, knowAddr]
    split
    next => exact ih m l
    next =>
      split
      next covered =>
        have inside : ∃ r ∈ control, r.contains a = true := List.any_eq_true.1 covered
        obtain ⟨kept, new, keys, routes⟩ := ih (addDomainAddr m domain a) l
        refine ⟨fun x b recorded => kept x b (recorded_addDomainAddr.2 (.inl recorded)), ?_, ?_, routes⟩
        · intro x b recorded
          obtain recorded | covered := new x b recorded
          · obtain recorded | ⟨rfl, rfl⟩ := recorded_addDomainAddr.1 recorded
            · exact .inl recorded
            · exact .inr ⟨rfl, inside⟩
          · exact .inr covered
        · intro x mem
          obtain mem | same := keys x mem
          · exact (mem_addDomainAddr.1 mem).symm
          · exact .inr same
      next uncovered =>
        obtain ⟨kept, new, keys, routes⟩ := ih m (l ++ [Prefix.single a])
        refine ⟨kept, new, keys, fun p mem => ?_⟩
        obtain mem | single := routes p mem
        · obtain mem | mem := mem_append.1 mem
          · exact .inl mem
          · right
            refine ⟨a, mem_singleton.1 mem, fun r hr => ?_⟩
            by_contra contains
            exact uncovered (List.any_eq_true.2 ⟨r, hr, by simpa using contains⟩)
        · exact .inr single

theorem Inv.schedule (inv : Inv s) {domain : Bytes} {m : Domains}
    (knows : Knows s.controlRoutes domain s.domains [] m routes) (mem : domain ∈ s.domains) :
    Inv { s with domains := m, queue := if routes = [] then s.queue
      else s.queue ++ [.advertise routes, .record domain routes] } := by
  generalize queue : (if routes = [] then s.queue
    else s.queue ++ [.advertise routes, .record domain routes]) = q
  have final : ∀ p, p ∈ q.foldl settle s.advertised ↔ p ∈ s.final ∨ p ∈ routes := by
    intro p
    subst queue
    split
    next none => simp [none, State.final]
    next => simp [State.final, settle, mem_advertiseRoute]
  have records : ∀ x rs, .record x rs ∈ q ↔
      .record x rs ∈ s.queue ∨ (x = domain ∧ rs = routes ∧ routes ≠ []) := by
    intro x rs
    subst queue
    split
    next none => simp [none]
    next some => simp [some]
  have pending : ∀ x a, Pending q x a ↔ Pending s.queue x a ∨ (x = domain ∧ Prefix.single a ∈ routes) := by
    intro x a
    simp only [Pending, records, or_and_right, exists_or]
    refine or_congr_right ⟨?_, fun ⟨same, single⟩ => ⟨_, ⟨same, rfl, ne_nil_of_mem single⟩, single⟩⟩
    rintro ⟨rs, ⟨same, rfl, -⟩, single⟩
    exact ⟨same, single⟩
  constructor
  case covered =>
    rintro x a (recorded | waits)
    · obtain recorded | ⟨-, inside⟩ := knows.new x a recorded
      · exact (inv.covered x a (.inl recorded)).imp_right fun single => (final _).2 (.inl single)
      · exact .inl inside
    · obtain waits | ⟨-, single⟩ := (pending x a).1 waits
      · exact (inv.covered x a (.inr waits)).imp_right fun single => (final _).2 (.inl single)
      · exact .inr ((final _).2 (.inr single))
  case control => exact fun r mem => (inv.control r mem).imp_left fun single => (final _).2 (.inl single)
  case singles =>
    intro a single
    obtain old | new := (final _).1 single
    · refine (inv.singles a old).imp_right fun ⟨x, known, narrow⟩ => ⟨x, ?_, narrow⟩
      exact known.imp (knows.kept x a) fun waits => (pending x a).2 (.inl waits)
    · right
      refine ⟨domain, .inr ((pending domain a).2 (.inr ⟨rfl, new⟩)), ?_⟩
      rintro ⟨r, hr, contains, -⟩
      obtain ⟨b, same, outside⟩ := (knows.routes _ new).resolve_left (not_mem_nil)
      cases single_inj same
      simp [outside r hr] at contains
  case domains =>
    intro x now
    obtain old | rfl := knows.keys x now
    · exact inv.domains x old
    · exact inv.domains x mem
  case records =>
    intro x rs now
    obtain old | ⟨rfl, -, -⟩ := (records x rs).1 now
    · exact inv.records x rs old
    · exact inv.domains x mem

theorem Inv.observeRecord (inv : Inv s)
    {e : Sigma fun _ : Bytes => List Addr} (taken : s.observeRecord rounds chain e = some s') : Inv s' := by
  unfold State.observeRecord at taken
  split at taken
  next => cases taken
  next m domain isRouted found =>
    obtain ⟨same, keys, last⟩ := findRoutedDomain_spec found
    have entered : Inv { s with domains := m } := by
      refine inv.same rfl (fun x a => ?_) rfl rfl rfl (fun x mem => ?_) (fun _ _ => id)
      · simp only [Known, same]
      · exact (keys x mem).elim (inv.domains x) Or.inr
    split at taken
    next routed =>
      cases taken
      exact entered.schedule (foldl_knowAddr s.controlRoutes domain e.2 m []) (last routed)
    next =>
      cases taken
      exact entered

theorem Inv.observeRecords (inv : Inv s) {order : List (Sigma fun _ : Bytes => List Addr)}
    (taken : order.foldlM (State.observeRecord rounds chain) s = some s') : Inv s' := by
  induction order generalizing s with
  | nil =>
    cases taken
    exact inv
  | cons _ _ ih =>
    obtain ⟨t, first, rest⟩ := Option.bind_eq_some_iff.1 taken
    exact ih (inv.observeRecord first) rest

section Runs
variable [Unicode]

def Safe (s : State) : Op → Prop
  | .run _ =>
    match s.queue with
    | .updateRoutes routes :: _ => s.controlRoutes ≠ routes → RoutesSafe s routes
    | .updateDomains domains :: _ => DomainsSafe s domains
    | _ => True
  | _ => True

theorem Inv.run (inv : Inv s) (safe : Safe s (.run picks))
    (taken : s.step (.run picks) = some s') : Inv s' := by
  unfold State.step at taken
  dsimp only at taken
  split at taken
  next => cases taken
  next x rest queue =>
    have known : ∀ d a, Pending rest d a → Pending s.queue d a := by
      rintro d a ⟨routes, mem, single⟩
      exact ⟨routes, by simp [queue, mem], single⟩
    cases x with
    | updateRoutes =>
      simp only [Safe, queue] at safe
      have inv : Inv { s with queue := rest } := inv.pop queue
      obtain rfl | ⟨changed, update⟩ := updateRoutes_cases taken
      · exact inv
      obtain ⟨gone, recorded, pending⟩ := safe changed
      refine inv.updatedRoutes ⟨fun d a k => gone d a (k.imp_right (known d a)), recorded, ?_⟩ update
      exact fun d a waits => pending d a (known d a waits)
    | updateDomains =>
      simp only [Safe, queue] at safe
      have inv : Inv { s with queue := rest } := inv.pop queue
      cases taken
      obtain ⟨nodup, gone, records⟩ := safe
      refine inv.updateDomains ⟨nodup, fun d a drops r => ?_, fun d routes mem => ?_⟩
      · refine (gone d a drops r).imp_right fun ⟨absent, only⟩ => ⟨absent, fun d' keeps k => ?_⟩
        exact only d' keeps (k.imp_right (known d' a))
      · exact records d routes (by simp [queue, mem])
    | advertise | unadvertise | record =>
      cases taken
      exact inv.pop queue

theorem Inv.step (inv : Inv s) {op : Op} (safe : Safe s op) (taken : s.step op = some s') : Inv s' := by
  cases op with
  | updateDomainsAndRoutes | updateDomains =>
    cases taken
    exact inv.enqueue (by simp)
  | observeDNSResponse =>
    unfold State.step State.observeDNSResponse at taken
    dsimp only at taken
    split at taken
    next => cases taken
    next chain records parsed =>
      split at taken
      next => exact inv.observeRecords taken
      next => cases taken
  | run => exact inv.run safe taken

theorem inv_of_run {ops : List Op} (run : Run State.step State.init ops s)
    (safe : Throughout State.step Safe State.init ops) : Inv s := by
  induction run with
  | refl => exact .init
  | snoc run taken ih =>
    obtain ⟨before, now⟩ := (throughout_snoc run).1 safe
    exact (ih before).step now taken

structure Serves (s : State) : Prop where
  recorded : ∀ d a, Tracked s d → Recorded s.domains d a → ∃ p ∈ s.advertised, p.contains a = true
  control : ∀ r ∈ s.controlRoutes, ∃ p ∈ s.advertised, ∀ x, r.contains x = true → p.contains x = true
  singles : ∀ p ∈ s.advertised, p.isSingleIP = true →
    p ∈ s.controlRoutes ∨
      ∃ d, Tracked s d ∧ Recorded s.domains d p.addr ∧ ¬ Wide s.controlRoutes p.addr

/-- In every run in which updates are run in states that they leave in order, the routes advertised
are as the configuration asks whenever the queue has been run. -/
theorem serves_of_run {ops : List Op} (run : Run State.step State.init ops s)
    (safe : Throughout State.step Safe State.init ops) (idle : s.queue = []) : Serves s := by
  have inv := inv_of_run run safe
  have final : s.final = s.advertised := by simp [State.final, idle]
  have known : ∀ d a, Known s d a ↔ Recorded s.domains d a := by
    intro d a
    simp [Known, Pending, idle]
  have control : ∀ r ∈ s.controlRoutes, ∃ p ∈ s.advertised, ∀ x, r.contains x = true → p.contains x = true := by
    intro r mem
    obtain listed | ⟨a, rfl, r, mem, contains, other⟩ := inv.control r mem
    · exact ⟨r, final ▸ listed, fun x => id⟩
    obtain listed | ⟨b, rfl, -⟩ := inv.control r mem
    · refine ⟨r, final ▸ listed, fun x single => ?_⟩
      rw [(Prefix.contains_single a x).1 single]
      exact contains
    · rw [(Prefix.contains_single b a).1 contains] at other
      exact absurd rfl other
  refine ⟨fun d a _ recorded => ?_, control, fun p listed one => ?_⟩
  · obtain ⟨r, mem, contains⟩ | single := inv.covered d a ((known d a).2 recorded)
    · obtain ⟨p, listed, covers⟩ := control r mem
      exact ⟨p, listed, covers a contains⟩
    · exact ⟨_, final ▸ single, (Prefix.contains_single a a).2 rfl⟩
  · have same := single_of_isSingleIP one
    obtain control | ⟨d, recorded, narrow⟩ := inv.singles p.addr (by rw [final, same]; exact listed)
    · exact .inl (same ▸ control)
    · have recorded := (known d p.addr).1 recorded
      exact .inr ⟨d, inv.domains d recorded.mem, recorded, narrow⟩

end Runs

namespace Sample
attribute [local instance] Unicode.ascii

def isRecord : Action → Bool
  | .record _ _ => true
  | _ => false

def fresh (s : State) : Bool := s.domains.entries.isEmpty && !s.queue.any isRecord

def calm (s : State) (op : Op) : Bool :=
  match op with
  | .run _ =>
    match s.queue with
    | .updateRoutes _ :: _ => fresh s
    | .updateDomains domains :: _ => decide (namesOf domains).Nodup && fresh s
    | _ => true
  | _ => true

theorem fresh_unknown (none : fresh s = true) :
    (∀ d a, ¬ Recorded s.domains d a) ∧ ∀ d routes, .record d routes ∉ s.queue := by
  obtain ⟨empty, none⟩ := Bool.and_eq_true_iff.1 none
  constructor
  · intro d a recorded
    obtain ⟨e, mem, -⟩ := recorded.entry
    rw [List.isEmpty_iff.1 empty] at mem
    cases mem
  · intro d routes mem
    rw [Bool.not_eq_true'] at none
    simpa [isRecord] using List.any_eq_false.1 none _ mem

theorem calm_sound (s : State) (op : Op) (checked : calm s op = true) : Safe s op := by
  cases op with
  | run =>
    unfold calm at checked
    unfold Safe
    dsimp only at checked ⊢
    split
    next queue =>
      rw [queue] at checked
      obtain ⟨none, waits⟩ := fresh_unknown checked
      have unknown d a : ¬ Pending s.queue d a := fun ⟨routes, mem, _⟩ => waits d routes mem
      exact fun _ => ⟨fun d a known => absurd known (not_or.2 ⟨none d a, unknown d a⟩),
        fun d a recorded => absurd recorded (none d a), fun d a waits => absurd waits (unknown d a)⟩
    next queue =>
      rw [queue] at checked
      obtain ⟨nodup, checked⟩ := Bool.and_eq_true_iff.1 checked
      obtain ⟨none, waits⟩ := fresh_unknown checked
      exact ⟨of_decide_eq_true nodup, fun d a _ recorded => absurd recorded (none d a),
        fun d routes mem => absurd mem (waits d routes)⟩
    next => trivial
  | _ => trivial

def one : Addr := .v4 0x0a000001
def two : Addr := .v4 0x0a000002
def name : Bytes := [97]
def other : Bytes := [98]

def range : Prefix := ⟨.v4 0x0a000000, 24, by decide⟩

/-- A range comes from control, and a domain resolves to an address in it. -/
def ranged : List Op :=
  [.updateDomainsAndRoutes [name] [range], .run [none], .run [], .run [], .run [],
    .observeDNSResponse [.addr name one] [⟨name, [one]⟩] 1]

theorem ranged_serves : ∃ s, Run State.step State.init ranged s ∧ s.advertised = [range] ∧ Serves s := by
  obtain ⟨s, run, all, idle, advertised⟩ : ∃ s, Run State.step State.init ranged s ∧
      Throughout State.step Safe State.init ranged ∧ s.queue = [] ∧ s.advertised = [range] :=
    throughout_of_found calm_sound (by decide +kernel)
  exact ⟨s, run, advertised, serves_of_run run all idle⟩

def shared : List Op :=
  [.updateDomains [name, other], .run [], .observeDNSResponse [.addr name two] [⟨name, [two]⟩] 1, .run [], .run [],
    .observeDNSResponse [.addr other two] [⟨other, [two]⟩] 1, .run [], .run [], .updateDomains [other], .run [],
    .run []]

def halved : List Op :=
  [.updateDomains [name], .run [], .observeDNSResponse [.addr name one, .addr name two] [⟨name, [one, two]⟩] 1,
    .run [], .run [], .updateDomainsAndRoutes [name] [range], .run [some one], .run [], .run [], .run []]

theorem not_serves :
    (∃ s, Run State.step State.init shared s ∧ s.queue = [] ∧ ¬ Serves s) ∧
    ∃ s, Run State.step State.init halved s ∧ s.queue = [] ∧ ¬ Serves s := by
  constructor
  · obtain ⟨s, run, idle, advertised, configured, found⟩ : ∃ s, Run State.step State.init shared s ∧
        s.queue = [] ∧ s.advertised = [] ∧ s.configured = [other] ∧
        hasDomainAddr s.domains other two = true := run_of_found (by decide +kernel)
    refine ⟨s, run, idle, fun serves => ?_⟩
    obtain ⟨p, mem, -⟩ :=
      serves.recorded other two (.inl (by simp [configured])) (hasDomainAddr_iff.1 found)
    simp [advertised] at mem
  · obtain ⟨s, run, idle, advertised, control⟩ : ∃ s, Run State.step State.init halved s ∧
        s.queue = [] ∧ s.advertised = [.single two, range] ∧ s.controlRoutes = [range] :=
      run_of_found (by decide +kernel)
    refine ⟨s, run, idle, fun serves => ?_⟩
    obtain listed | ⟨d, -, -, narrow⟩ :=
      serves.singles (.single two) (by simp [advertised]) isSingleIP_single
    · rw [control] at listed
      exact absurd (mem_singleton.1 listed) (by decide +kernel)
    · exact narrow ⟨range, by simp [control], by decide +kernel, by decide +kernel⟩

end Sample

end ScaleTail.Appc
