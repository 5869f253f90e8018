import ScaleTail.Proof.Eventbus.Steps
import ScaleTail.Lib.Runs

/-! # Delivery in order -/

namespace ScaleTail.Eventbus
open Lib List Bus

variable {ι T E : Type} [DecidableEq ι] [DecidableEq T] {ty : E → T} {g : Growth}
  {s s' : Bus ι T E} {op : Op ι T E} {c : ι} {t : T}

def Bus.pending (s : Bus ι T E) (c : ι) : List E :=
  match s.route with
  | .delivers dests => if c ∈ dests then s.queue.list else s.queue.list.tail
  | _ => s.queue.list

inductive Seen (ty : E → T) (s : Bus ι T E) (op : Op ι T E) (s' : Bus ι T E) (c : ι) : Prop
  | same (accepted : s'.accepted = s.accepted) (routed : s'.pending c = s.pending c)
      (client : s'.client c = s.client c)
  | acts (accepted : s'.accepted = s.accepted) (routed : s'.pending c = s.pending c)
      (same : (s.client c).Same (s'.client c)) (effect : (s.client c).Effect ty (s'.client c))
  | subscribes {t : T} {kind : Kind} (accepted : s'.accepted = s.accepted)
      (routed : s'.pending c = s.pending c) (fresh : (s.client c).since t = none)
      (client : s'.client c = (s.client c).addSubscriber t kind s.accepted.length)
  | closes {t : T} (closing : op = .close c t) (known : (s.client c).since t ≠ none)
      (accepted : s'.accepted = s.accepted) (routed : s'.pending c = s.pending c)
      (client : s'.client c = (s.client c).deleteSubscriber t)
  | publishes {e : E} (accepted : s'.accepted = s.accepted ++ [e])
      (routed : s'.pending c = s.pending c ++ [e]) (client : s'.client c = s.client c)
  | passes {e : E} (accepted : s'.accepted = s.accepted) (routed : s.pending c = e :: s'.pending c)
      (client : s'.client c = s.client c)
      (idle : (s.client c).outputs (ty e) = none ∨ (s.client c).isStopped = true)
  | sends {e : E} (accepted : s'.accepted = s.accepted) (routed : s.pending c = e :: s'.pending c)
      (known : (s.client c).since (ty e) ≠ none) (taken : (s.client c).Accepted e (s'.client c))

theorem Moves.seen (moves : Moves ty s op s') (shape : Shape ty s) (c : ι) : Seen ty s op s' c := by
  cases moves with
  | @subscribe d t kind fresh =>
    by_cases same : c = d
    · subst same
      have client : (s.setClient c ((s.client c).addSubscriber t kind s.accepted.length)).client c =
          (s.client c).addSubscriber t kind s.accepted.length := by simp [setClient]
      exact .subscribes rfl rfl fresh client
    · exact .same rfl rfl (by simp [setClient, same])
  | @close d _ known =>
    by_cases same : c = d
    · subst same
      exact .closes rfl known rfl rfl (by simp [setClient])
    · exact .same rfl rfl (by simp [setClient, same])
  | @act d _ _ moves =>
    by_cases same : c = d
    · subst same
      exact .acts rfl rfl (by simpa [setClient] using moves.same)
        (by simpa [setClient] using moves.effect)
    · exact .same rfl rfl (by simp [setClient, same])
  | publish waiting list =>
    exact .publishes rfl (by simp [pending, waiting, list]) rfl
  | @publishMore e q d dests delivers list =>
    have some : s.queue.list ≠ [] := shape.routing (by simp [delivers])
    have routed : (if c ∈ d :: dests then q.list else q.list.tail) =
        (if c ∈ d :: dests then s.queue.list else s.queue.list.tail) ++ [e] := by
      split
      next => exact list
      next => rw [list, tail_append_of_ne_nil some]
    exact .publishes rfl (by simpa only [pending, delivers] using routed) rfl
  | @look e _ looks head =>
    by_cases mem : c ∈ s.topics (ty e)
    · exact .same rfl (by simp [pending, looks, mem]) rfl
    have none : (s.client c).outputs (ty e) = none := by
      by_contra some
      exact mem ((shape.mem_topics c (ty e)).2 some)
    exact .passes rfl (by simp [pending, looks, mem, head]) rfl (.inl none)
  | @send e _ d dests _ delivers head accepted =>
    have new : d ∉ dests := (nodup_cons.1 (shape.dests_nodup _ delivers)).1
    by_cases same : c = d
    · subst same
      have known := shape.dests_known _ e delivers (by simp [head]) c mem_cons_self
      exact .sends rfl (by simp [pending, setClient, delivers, head, new]) known
        (by simpa [setClient] using accepted)
    · exact .same rfl (by simp [pending, setClient, delivers, same])
        (by simp [setClient, same])
  | @skip d dests delivers stopped =>
    have new : d ∉ dests := (nodup_cons.1 (shape.dests_nodup _ delivers)).1
    by_cases same : c = d
    · subst same
      obtain ⟨e, rest, head⟩ := exists_cons_of_ne_nil (shape.routing (by simp [delivers]))
      exact .passes (e := e) rfl (by simp [pending, delivers, head, new]) rfl (.inr stopped)
    · exact .same rfl (by simp [pending, delivers, same]) rfl
  | @drop route delivers next =>
    cases route with
    | waiting | looks => exact .same rfl (by simp [pending, delivers]) rfl
    | delivers => split at next <;> cases next
  | halt => exact .same rfl rfl rfl

def Ordered (s : Bus ι T E) (c : ι) : Prop :=
  ((s.client c).received ++ (s.client c).pending ++ s.pending c).Sublist s.accepted

theorem Seen.ordered (seen : Seen ty s op s' c) (ordered : Ordered s c) : Ordered s' c := by
  unfold Ordered at *
  cases seen with
  | same accepted routed client | subscribes accepted routed _ client
  | closes _ _ accepted routed client => rwa [accepted, routed, client]
  | acts accepted routed _ effect =>
    rw [accepted, routed]
    cases effect with
    | quiet received pending
    | find received pending => rwa [received, pending]
    | miss received pending =>
      rw [pending] at ordered
      rw [received]
      refine List.Sublist.trans ?_ ordered
      simp
    | receive received pending =>
      rw [pending] at ordered
      simpa [received] using ordered
    | halt received pending =>
      rw [received]
      exact (((List.Sublist.refl _).append pending).append (List.Sublist.refl _)).trans ordered
  | publishes accepted routed client =>
    rw [accepted, routed, client, ← append_assoc]
    exact ordered.append (List.Sublist.refl _)
  | passes accepted routed client =>
    rw [routed] at ordered
    rw [accepted, client]
    refine List.Sublist.trans ?_ ordered
    simp
  | sends accepted routed _ taken =>
    rw [routed] at ordered
    simpa [accepted, taken.received, taken.pending] using ordered

def Typed (ty : E → T) (cl : Client T E) : Prop :=
  ∀ e ∈ cl.received ++ cl.pending, cl.since (ty e) ≠ none

theorem Seen.typed (seen : Seen ty s op s' c) (typed : Typed ty (s.client c)) :
    Typed ty (s'.client c) := by
  unfold Typed at *
  cases seen with
  | same _ _ client | publishes _ _ client
  | passes _ _ client => rwa [client]
  | acts _ _ same effect =>
    rw [same.since]
    intro e mem
    apply typed
    cases effect with
    | quiet received pending
    | find received pending => rwa [received, pending] at mem
    | miss received pending =>
      rw [received, mem_append] at mem
      rw [pending, mem_append]
      exact mem.imp_right (mem_cons_of_mem _)
    | receive received pending => simpa [received, pending, or_assoc] using mem
    | halt received pending =>
      rw [received, mem_append] at mem
      exact mem_append.2 (mem.imp_right fun mem => pending.subset mem)
  | @subscribes t _ _ _ _ client =>
    intro e mem
    rw [client] at mem ⊢
    have known := typed e mem
    by_cases same : ty e = t <;> simp [Client.addSubscriber, same, known]
  | closes _ _ _ _ client =>
    rw [client]
    exact typed
  | @sends _ _ _ known taken =>
    rw [taken.same.since, taken.received, taken.pending]
    intro e' mem
    rw [← append_assoc, mem_append] at mem
    cases mem with
    | inl old => exact typed e' old
    | inr new =>
      cases mem_singleton.1 new
      exact known

def ofType (ty : E → T) (t : T) (l : List E) : List E :=
  l.filter fun e => ty e = t

omit [DecidableEq ι] in
@[simp] theorem ofType_append (t : T) (l l' : List E) :
    ofType ty t (l ++ l') = ofType ty t l ++ ofType ty t l' :=
  filter_append ..

theorem ofType_cons_of_ne {e : E} (other : ty e ≠ t) (l : List E) :
    ofType ty t (e :: l) = ofType ty t l := by
  simp [ofType, other]

theorem ofType_eq_nil {l : List E} (none : ∀ e ∈ l, ty e ≠ t) : ofType ty t l = [] := by
  simpa [ofType] using none

theorem ofType_take_le (t : T) (n : Nat) (l : List E) :
    (ofType ty t (l.take n)).length ≤ (ofType ty t l).length :=
  ((take_sublist n l).filter _).length_le

def Live (cl : Client T E) (t : T) : Prop :=
  cl.outputs t ≠ none ∧ cl.isStopped = false

structure Account (ty : E → T) (s : Bus ι T E) (c : ι) (t : T) (k : Nat) : Prop where
  got : ofType ty t ((s.client c).received ++ (s.client c).held) <+: (ofType ty t s.accepted).drop k
  all : Live (s.client c) t →
    ofType ty t ((s.client c).received ++ (s.client c).pending ++ s.pending c) =
      (ofType ty t s.accepted).drop k

theorem Account.of_all {k : Nat}
    (all : ofType ty t ((s.client c).received ++ (s.client c).pending ++ s.pending c) =
      (ofType ty t s.accepted).drop k) : Account ty s c t k := by
  refine ⟨?_, fun _ => all⟩
  obtain ⟨rest, pending⟩ := (s.client c).held_pending
  rw [← all, pending]
  exact ⟨ofType ty t (rest ++ s.pending c), by simp⟩

theorem Seen.account (seen : Seen ty s op s' c) {k : Nat}
    (known : (s.client c).since t ≠ none) (le : k ≤ (ofType ty t s.accepted).length)
    (account : Account ty s c t k) : Account ty s' c t k := by
  obtain ⟨got, all⟩ := account
  cases seen with
  | same accepted routed client => exact ⟨by rwa [accepted, client], by rwa [accepted, client, routed]⟩
  | acts accepted routed same effect =>
    have live : ∀ {stopped}, (s'.client c).isStopped = stopped → (s.client c).isStopped = stopped →
        Live (s'.client c) t → Live (s.client c) t := by
      rintro stopped after before ⟨output, running⟩
      exact ⟨same.outputs ▸ output, before.trans (after.symm.trans running)⟩
    cases effect with
    | quiet received pending held stopped =>
      constructor
      · rwa [received, held, accepted]
      · rw [received, pending, accepted, routed]
        exact fun open' => all (live stopped rfl open')
    | @miss e received pending held stopped none =>
      constructor
      · rw [received, held, accepted]
        refine List.IsPrefix.trans ?_ got
        exact ⟨ofType ty t (s.client c).held, by simp⟩
      · intro open'
        have was := live stopped rfl open'
        have other : ty e ≠ t := fun eq => was.1 (eq ▸ none)
        rw [received, accepted, routed, ← all was, pending]
        simp [ofType_cons_of_ne other]
    | @find e received pending held before running stopped some =>
      by_cases was : Live (s.client c) t
      · exact .of_all (by rw [received, pending, accepted, routed, all was])
      have other : ty e ≠ t := fun eq => was ⟨eq ▸ some, running⟩
      constructor
      · rw [before, append_nil] at got
        rw [received, held, accepted, ofType_append, ofType_cons_of_ne other]
        simpa [ofType] using got
      · exact fun open' => absurd (live stopped running open') was
    | receive received pending held after stopped =>
      constructor
      · rw [held] at got
        rwa [received, after, accepted, append_nil]
      · intro open'
        rw [received, accepted, routed, ← all (live stopped rfl open'), pending]
        simp
    | halt received _ held _ stopped =>
      constructor
      · rw [received, accepted]
        obtain ⟨rest, eq⟩ := held
        refine List.IsPrefix.trans ?_ got
        exact ⟨ofType ty t rest, by rw [← eq]; simp⟩
      · intro open'
        exact absurd (stopped.symm.trans open'.2) (by simp)
  | @subscribes t' _ accepted routed fresh client =>
    have other : t ≠ t' := fun eq => known (eq ▸ fresh)
    constructor
    · rw [accepted, client]
      exact got
    · rw [accepted, client, routed]
      rintro ⟨output, running⟩
      exact all ⟨by simpa [Client.addSubscriber, other] using output, running⟩
  | @closes t' _ _ accepted routed client =>
    constructor
    · rw [accepted, client]
      exact got
    · rw [accepted, client, routed]
      rintro ⟨output, running⟩
      by_cases same : t = t'
      · simp [Client.deleteSubscriber, same] at output
      · exact all ⟨by simpa [Client.deleteSubscriber, same] using output, running⟩
  | @publishes e accepted routed client =>
    have more : (ofType ty t (s.accepted ++ [e])).drop k =
        (ofType ty t s.accepted).drop k ++ ofType ty t [e] := by
      rw [ofType_append, drop_append_of_le_length le]
    constructor
    · rw [accepted, client, more]
      exact got.trans (prefix_append _ _)
    · rw [accepted, client, routed, more, ← append_assoc, ofType_append _ _ [e]]
      exact fun open' => by rw [all open']
  | @passes e accepted routed client idle =>
    constructor
    · rwa [accepted, client]
    rw [accepted, client]
    intro open'
    have none := idle.resolve_right (by simp [open'.2])
    have other : ty e ≠ t := fun eq => open'.1 (eq ▸ none)
    rw [← all open', routed]
    simp [ofType_cons_of_ne other]
  | sends accepted routed _ taken =>
    constructor
    · rwa [accepted, taken.received, taken.held]
    rintro ⟨output, running⟩
    rw [accepted, taken.received, taken.pending, ← all ⟨taken.same.outputs ▸ output, taken.running⟩,
      routed]
    simp

omit [DecidableEq T] in
theorem Shape.pending_suffix (shape : Shape ty s) (c : ι) : s.pending c <:+ s.accepted := by
  have tail := (tail_suffix s.queue.list).trans shape.list_accepted
  unfold pending
  split
  next => split <;> [exact shape.list_accepted; exact tail]
  next => exact shape.list_accepted

theorem account_of_subscribe {kind : Kind} (shape : Shape ty s)
    (typed : Typed ty (s.client c)) (fresh : (s.client c).since t = none)
    (accepted : s'.accepted = s.accepted) (routed : s'.pending c = s.pending c)
    (client : s'.client c = (s.client c).addSubscriber t kind s.accepted.length) :
    ∃ k ≤ (ofType ty t s.accepted).length, Account ty s' c t k := by
  obtain ⟨gone, eq⟩ := shape.pending_suffix c
  have nothing : ofType ty t ((s.client c).received ++ (s.client c).pending) = [] :=
    ofType_eq_nil fun e mem same => typed e mem (same ▸ fresh)
  refine ⟨(ofType ty t gone).length, ?_, .of_all ?_⟩
  · simp [← eq]
  show ofType ty t ((s'.client c).received ++ (s'.client c).pending ++ s'.pending c) = _
  rw [client, routed, accepted, ofType_append]
  rw [show ofType ty t (((s.client c).addSubscriber t kind s.accepted.length).received ++
    ((s.client c).addSubscriber t kind s.accepted.length).pending) = [] from nothing]
  simp [← eq]

structure Delivers (ty : E → T) (s : Bus ι T E) (c : ι) : Prop where
  ordered : Ordered s c
  typed : Typed ty (s.client c)
  accounts : ∀ t n, (s.client c).since t = some n → n ≤ s.accepted.length ∧
    ∃ k ≤ (ofType ty t (s.accepted.take n)).length, Account ty s c t k

theorem Delivers.new : Delivers ty (Bus.new : Bus ι T E) c where
  ordered := nil_sublist _
  typed := by simp [Typed, Bus.new, Client.new, Client.pending]
  accounts := by simp [Bus.new, Client.new]

theorem Seen.since (seen : Seen ty s op s' c) {n : Nat} (now : (s'.client c).since t = some n) :
    (s.client c).since t = some n ∧ (∃ new, s'.accepted = s.accepted ++ new) ∨
    n = s.accepted.length ∧ s'.accepted = s.accepted ∧ s'.pending c = s.pending c ∧
      (s.client c).since t = none ∧
      ∃ kind, s'.client c = (s.client c).addSubscriber t kind s.accepted.length := by
  cases seen with
  | same accepted _ client | passes accepted _ client =>
    exact .inl ⟨client ▸ now, [], by simp [accepted]⟩
  | acts accepted _ same => exact .inl ⟨same.since ▸ now, [], by simp [accepted]⟩
  | @subscribes t' kind accepted routed fresh client =>
    by_cases same : t = t'
    · subst same
      rw [client] at now
      exact .inr ⟨by simpa [Client.addSubscriber, eq_comm] using now, accepted, routed, fresh, kind, client⟩
    · rw [client] at now
      exact .inl ⟨by simpa [Client.addSubscriber, same] using now, [], by simp [accepted]⟩
  | closes _ _ accepted _ client =>
    rw [client] at now
    exact .inl ⟨now, [], by simp [accepted]⟩
  | publishes accepted _ client => exact .inl ⟨client ▸ now, _, accepted⟩
  | sends accepted _ _ taken => exact .inl ⟨taken.same.since ▸ now, [], by simp [accepted]⟩

theorem Delivers.step (delivers : Delivers ty s c) (shape : Shape ty s) (seen : Seen ty s op s' c) :
    Delivers ty s' c where
  ordered := seen.ordered delivers.ordered
  typed := seen.typed delivers.typed
  accounts := by
    intro t n now
    obtain ⟨was, new, more⟩ | ⟨rfl, accepted, routed, fresh, kind, client⟩ := seen.since now
    · obtain ⟨le, k, bound, account⟩ := delivers.accounts t n was
      have kept : s'.accepted.take n = s.accepted.take n := by
        rw [more, take_append_of_le_length le]
      refine ⟨le.trans (by simp [more]), k, kept ▸ bound, ?_⟩
      exact seen.account (by simp [was]) (bound.trans (ofType_take_le t n _)) account
    · obtain ⟨k, bound, account⟩ :=
        account_of_subscribe shape delivers.typed fresh accepted routed client
      exact ⟨by rw [accepted], k, by rwa [accepted, take_length], account⟩

theorem shape_and_delivers_of_run {ops : List (Op ι T E)} (run : Run (step ty g) Bus.new ops s) :
    Shape ty s ∧ ∀ c, Delivers ty s c := by
  induction run with
  | refl => exact ⟨Shape.new, fun _ => Delivers.new⟩
  | snoc _ taken ih =>
    obtain ⟨shape, delivers⟩ := ih
    have moves := shape.step_moves taken
    exact ⟨moves.shape shape, fun c => (delivers c).step shape (moves.seen shape c)⟩

/-- In every run, with whatever the growth of slices is: the publish queue never panics. -/
theorem delivery_of_run {ops : List (Op ι T E)} (run : Run (Bus.step ty g) Bus.new ops s) :
    s.panicked = false ∧
    (∀ c t n, (s.client c).since t = some n → ∃ before after,
      ofType ty t s.accepted = before ++ ofType ty t (s.client c).received ++ after ∧
      before.length ≤ (ofType ty t (s.accepted.take n)).length) ∧
    (∀ c, (s.client c).received.Sublist s.accepted ∧
      (∀ e ∈ (s.client c).received, (s.client c).since (ty e) ≠ none) ∧
      (s.client c).active ≤ 1) := by
  obtain ⟨shape, delivers⟩ := shape_and_delivers_of_run run
  refine ⟨shape.sane, fun c t n subscribed => ?_, fun c => ⟨?_, fun e mem => ?_, ?_⟩⟩
  · obtain ⟨le, k, bound, account⟩ := (delivers c).accounts t n subscribed
    obtain ⟨after, eq⟩ := account.got
    rw [ofType_append, append_assoc] at eq
    refine ⟨(ofType ty t s.accepted).take k, ofType ty t (s.client c).held ++ after, ?_, ?_⟩
    · rw [append_assoc, eq, take_append_drop]
    · exact (length_take_le _ _).trans bound
  · refine List.Sublist.trans ?_ (delivers c).ordered
    rw [append_assoc]
    exact sublist_append_left _ _
  · exact (delivers c).typed e (mem_append_left _ mem)
  · exact (shape.client c).active_le

/-- An open subscription misses nothing: from a point that is not later than its start, the events
of its type are those received, then those queued at the client, then those queued at the bus. -/
theorem complete_of_run {ops : List (Op ι T E)} (run : Run (Bus.step ty g) Bus.new ops s) {n : Nat}
    (subscribed : (s.client c).since t = some n) (live : Live (s.client c) t) :
    ∃ before, before.length ≤ (ofType ty t (s.accepted.take n)).length ∧
      ofType ty t s.accepted = before ++ ofType ty t (s.client c).received ++
        ofType ty t (s.client c).pending ++ ofType ty t (s.pending c) := by
  obtain ⟨-, k, bound, account⟩ := ((shape_and_delivers_of_run run).2 c).accounts t n subscribed
  refine ⟨(ofType ty t s.accepted).take k, (length_take_le _ _).trans bound, ?_⟩
  have all := account.all live
  rw [ofType_append, ofType_append] at all
  rw [append_assoc, append_assoc, ← append_assoc (ofType ty t (s.client c).received), all,
    take_append_drop]

namespace Sample

def doubling : Growth := ⟨fun n => 2 * n + 1, fun n => by omega⟩

abbrev kindOf : Bool × Nat → Bool := Prod.fst

/-- Client 0 takes both types. An event of each is published before the callback of the first runs,
and client 1 subscribes when the first has been routed. -/
def twoTypes : List (Op Nat Bool (Bool × Nat)) :=
  [.subscribe 0 true .func, .subscribe 0 false .chan, .publish (true, 1), .look,
    .subscribe 1 true .chan, .publish (false, 2), .send, .act 0 .lookup, .drop, .look,
    .publish (true, 3), .act 0 .dispatch, .send, .act 0 .start, .act 0 .done, .drop, .look, .act 0 .lookup,
    .act 0 .dispatch, .send, .send, .act 1 .lookup, .act 1 .dispatch, .act 1 .read, .act 0 .read]

theorem twoTypes_delivery : ∃ s : Bus Nat Bool (Bool × Nat),
    Run (Bus.step kindOf doubling) Bus.new twoTypes s ∧
    (s.client 0).received = [(true, 1), (false, 2)] ∧ s.panicked = false ∧
    (∀ c t n, (s.client c).since t = some n → ∃ before after,
      ofType kindOf t s.accepted = before ++ ofType kindOf t (s.client c).received ++ after ∧
      before.length ≤ (ofType kindOf t (s.accepted.take n)).length) ∧
    (∀ c, (s.client c).received.Sublist s.accepted ∧
      (∀ e ∈ (s.client c).received, (s.client c).since (kindOf e) ≠ none) ∧
      (s.client c).active ≤ 1) := by
  obtain ⟨s, run, received⟩ : ∃ s, Run (step kindOf doubling) Bus.new twoTypes s ∧
      (s.client 0).received = [(true, 1), (false, 2)] := run_of_found ⟨_, rfl, rfl⟩
  exact ⟨s, run, received, delivery_of_run run⟩

theorem twoTypes_complete : ∃ s : Bus Nat Bool (Bool × Nat),
    Run (Bus.step kindOf doubling) Bus.new twoTypes s ∧ ofType kindOf true s.accepted =
      ofType kindOf true (s.client 0).received ++ ofType kindOf true (s.client 0).pending ++
        ofType kindOf true (s.pending 0) := by
  obtain ⟨s, run, subscribed, live⟩ : ∃ s, Run (step kindOf doubling) Bus.new twoTypes s ∧
      (s.client 0).since true = some 0 ∧ (s.client 0).outputs true ≠ none ∧
        (s.client 0).isStopped = false := run_of_found ⟨_, rfl, rfl, nofun, rfl⟩
  obtain ⟨before, bound, all⟩ := complete_of_run run subscribed live
  obtain rfl := length_eq_zero_iff.1 (Nat.le_zero.1 bound)
  exact ⟨s, run, all⟩

end Sample

end ScaleTail.Eventbus
