import ScaleTail.Proof.Eventbus.Delivery

/-! # Closing a subscription -/

namespace ScaleTail.Eventbus
open Lib Client

variable {ι T E : Type} [DecidableEq ι] [DecidableEq T] {ty : E → T} {g : Growth}
  {s s' : Bus ι T E} {op : Op ι T E} {c : ι} {ops : List (Op ι T E)}

/-- The pump does not have the closed subscriber in hand, between its lookup and the start of its
callback or the end of its dispatch. -/
def Clear (ty : E → T) (s : Bus ι T E) (op : Op ι T E) : Prop :=
  match op with
  | .close c t => ∀ e ∈ (s.client c).held, ty e ≠ t
  | _ => True

/-- A callback that a step starts belongs to a subscriber whose `Close` has not returned. -/
def StartsOpen (ty : E → T) (g : Growth) (s : Bus ι T E) (op : Op ι T E) : Prop :=
  ∀ c s' e, op = .act c .start → s.step ty g op = some s' →
    (s'.client c).received = (s.client c).received ++ [e] → (s.client c).closed (ty e) = false

/-- An event of a closed subscriber at the head of the queue of a running client is discarded by a
step of the client's pump, without anybody reading it. -/
def Discards (ty : E → T) (g : Growth) (s : Bus ι T E) : Prop :=
  ∀ c e rest, (s.client c).isStopped = false → (s.client c).queue.list = e :: rest →
    (s.client c).closed (ty e) = true →
    ∃ a s', a ≠ .read ∧ s.step ty g (.act c a) = some s' ∧ (s'.client c).queue.list = rest

def Retired (ty : E → T) (cl : Client T E) : Prop :=
  ∀ t, cl.closed t = true → cl.outputs t = none ∧ cl.since t ≠ none ∧ ∀ e ∈ cl.held, ty e ≠ t

omit [DecidableEq T] in
theorem Retired.effect {cl cl' : Client T E} (retired : Retired ty cl) (same : cl.Same cl')
    (effect : cl.Effect ty cl') : Retired ty cl' := by
  intro t closed
  rw [same.closed] at closed
  obtain ⟨none, known, clear⟩ := retired t closed
  refine ⟨same.outputs ▸ none, same.since ▸ known, fun e mem => ?_⟩
  cases effect with
  | quiet _ _ held => exact clear e (held ▸ mem)
  | miss _ _ held => simp [held] at mem
  | find _ _ held _ _ _ output =>
    rw [held, List.mem_singleton] at mem
    subst mem
    exact fun eq => output (eq ▸ none)
  | receive _ _ _ after => simp [after] at mem
  | halt _ _ held => exact clear e (held.subset mem)

theorem Seen.retired (seen : Seen ty s op s' c) (clear : Clear ty s op)
    (retired : Retired ty (s.client c)) : Retired ty (s'.client c) := by
  cases seen with
  | same _ _ client | publishes _ _ client
  | passes _ _ client => rwa [client]
  | acts _ _ same effect => exact retired.effect same effect
  | @subscribes t _ _ _ fresh client =>
    rw [client]
    intro t' closed
    obtain ⟨none, known, clear⟩ := retired t' closed
    have other : t' ≠ t := fun eq => known (eq ▸ fresh)
    exact ⟨by simpa [addSubscriber, other] using none,
      by simpa [addSubscriber, other] using known, clear⟩
  | @closes t closing subscribed _ _ client =>
    subst closing
    rw [client]
    intro t' closed
    by_cases same : t' = t
    · subst same
      exact ⟨by simp [deleteSubscriber], subscribed, clear⟩
    · have before : (s.client c).closed t' = true := by
        simpa [deleteSubscriber, same] using closed
      obtain ⟨none, known, clear⟩ := retired t' before
      exact ⟨by simpa [deleteSubscriber, same] using none, known, clear⟩
  | sends _ _ _ taken =>
    intro t closed
    rw [taken.same.closed] at closed
    rw [taken.same.outputs, taken.same.since, taken.held]
    exact retired t closed

theorem retired_of_run (run : Run (Bus.step ty g) Bus.new ops s)
    (clear : Throughout (Bus.step ty g) (Clear ty) Bus.new ops) (c : ι) : Retired ty (s.client c) := by
  induction run with
  | refl => exact fun t closed => absurd closed (by simp [Bus.new, new])
  | snoc run taken ih =>
    obtain ⟨before, now⟩ := (throughout_snoc run).1 clear
    obtain ⟨shape, -⟩ := shape_and_delivers_of_run run
    exact ((shape.step_moves taken).seen shape c).retired now (ih before)

theorem Retired.startsOpen (shape : Shape ty s) (retired : ∀ c, Retired ty (s.client c)) :
    StartsOpen ty g s op := by
  rintro c s' e rfl taken received
  by_contra closed
  obtain ⟨-, -, clear⟩ := retired c (ty e) (by simpa using closed)
  apply clear e _ rfl
  generalize same : Op.act c .start = op at taken
  cases shape.step_moves taken with
  | @act _ _ cl moves =>
    cases same
    rw [show (s.setClient c cl).client c = cl by simp [Bus.setClient]] at received
    cases moves with
    | start | late => simp_all [held]
  | _ => cases same

theorem Retired.discards (shape : Shape ty s) (retired : ∀ c, Retired ty (s.client c)) :
    Discards ty g s := by
  intro c e rest running list closed
  obtain ⟨none, -, clear⟩ := retired c (ty e) closed
  have step : ∀ a cl, a ≠ Act.read → (s.client c).act ty a = some cl → cl.queue.list = rest →
      ∃ a s', a ≠ Act.read ∧ s.step ty g (.act c a) = some s' ∧ (s'.client c).queue.list = rest := by
    intro a cl unread acts list
    exact ⟨a, s.setClient c cl, unread, by simp [Bus.step, shape.sane, acts],
      by simp [Bus.setClient, list]⟩
  cases pump : (s.client c).pump with
  | ready =>
    apply step .lookup { s.client c with queue := (s.client c).queue.drop } (by simp)
    · show (s.client c).lookup ty = _
      simp [lookup, pump, list, none]
    · simp [list]
  | calls started =>
    cases started with
    | true =>
      apply step .done { s.client c with
        pump := .ready, queue := (s.client c).queue.drop, active := (s.client c).active - 1 } (by simp)
      · show (s.client c).done = _
        simp [done, pump]
      · simp [list]
    | false => exact absurd rfl (clear e (by simp [held, pump, list]))
  | found | offers => exact absurd rfl (clear e (by simp [held, pump, list]))
  | stopped => simp [isStopped, pump] at running

/-- In every run in which each `Close` finds its subscriber out of the hands of the client's pump, a
callback is not started after its `Close`, and an event of a closed subscriber is always discarded. -/
theorem closed_of_run (run : Run (Bus.step ty g) Bus.new ops s)
    (clear : Throughout (Bus.step ty g) (Clear ty) Bus.new ops) :
    Throughout (Bus.step ty g) (StartsOpen ty g) Bus.new ops ∧ Discards ty g s := by
  constructor
  · rintro before op after rfl t first
    have rest := run.rest first
    have clear := (throughout_append first rest).1 clear
    obtain ⟨shape, -⟩ := shape_and_delivers_of_run first
    exact Retired.startsOpen shape fun c => retired_of_run first clear.1 c
  · obtain ⟨shape, -⟩ := shape_and_delivers_of_run run
    exact Retired.discards shape fun c => retired_of_run run clear c

def Offering (s : Bus ι T E) (c : ι) (e : E) : Prop :=
  (s.client c).pump = .offers ∧ (s.client c).queue.list.head? = some e

theorem Offering.step {e : E} (offering : Offering s c e) (shape : Shape ty s)
    (unread : op ≠ .act c .read) (runs : op ≠ .act c .halt) (taken : s.step ty g op = some s') :
    Offering s' c e := by
  obtain ⟨offers, head⟩ := offering
  cases shape.step_moves taken with
  | @subscribe d | @close d =>
    exact client_setClient_cases (P := fun d cl => d = c → cl.pump = .offers ∧ cl.queue.list.head? = some e)
      (by rintro rfl; exact ⟨offers, head⟩) (by rintro d - rfl; exact ⟨offers, head⟩) c rfl
  | @act d _ _ moves =>
    by_cases same : d = c
    · cases moves <;> simp_all
    · simpa [Offering, Bus.setClient, Ne.symm same] using And.intro offers head
  | publish | publishMore | look | skip | drop | halt => exact ⟨offers, head⟩
  | @send _ _ d _ _ _ _ accepted =>
    by_cases same : d = c
    · subst same
      have some : (s.client d).queue.list ≠ [] := by
        intro none
        simp [none] at head
      simp [Offering, Bus.setClient, accepted.pump, accepted.list, offers,
        List.head?_append_of_ne_nil _ some, head]
    · simpa [Offering, Bus.setClient, Ne.symm same] using And.intro offers head

theorem Offering.run {e : E} {more : List (Op ι T E)} (run : Run (Bus.step ty g) Bus.new ops s)
    (offering : Offering s c e) (rest : Run (Bus.step ty g) s more s')
    (unread : .act c .read ∉ more) (runs : .act c .halt ∉ more) : Offering s' c e := by
  induction rest with
  | refl => exact offering
  | snoc rest taken ih =>
    simp only [List.mem_append, List.mem_singleton, not_or] at unread runs
    obtain ⟨shape, -⟩ := shape_and_delivers_of_run (run.trans rest)
    exact (ih unread.1 runs.1).step shape (Ne.symm unread.2) (Ne.symm runs.2) taken

namespace Sample

def clear (s : Bus Nat Bool (Bool × Nat)) (op : Op Nat Bool (Bool × Nat)) : Bool :=
  match op with
  | .close c t => (s.client c).held.all fun e => kindOf e ≠ t
  | _ => true

theorem clear_sound (s : Bus Nat Bool (Bool × Nat)) (op : Op Nat Bool (Bool × Nat))
    (checked : clear s op = true) : Clear kindOf s op := by
  cases op with
  | close =>
    intro e mem
    simpa using List.all_eq_true.1 checked e mem
  | _ => trivial

/-- Both subscribers are closed with events in the queue: one while its callback runs. -/
def closesClear : List (Op Nat Bool (Bool × Nat)) :=
  [.subscribe 0 true .func, .subscribe 0 false .chan, .publish (true, 1), .look, .send,
    .act 0 .lookup, .act 0 .dispatch, .drop, .publish (false, 4), .look, .send, .act 0 .start,
    .close 0 true, .close 0 false, .act 0 .done]

theorem closesClear_closed : ∃ s : Bus Nat Bool (Bool × Nat),
    Run (Bus.step kindOf doubling) Bus.new closesClear s ∧
    (s.client 0).queue.list = [(false, 4)] ∧ (s.client 0).closed false = true ∧
    Throughout (Bus.step kindOf doubling) (StartsOpen kindOf doubling) Bus.new closesClear ∧
    Discards kindOf doubling s := by
  obtain ⟨s, run, all, list, closed⟩ : ∃ s, Run (Bus.step kindOf doubling) Bus.new closesClear s ∧
      Throughout (Bus.step kindOf doubling) (Clear kindOf) Bus.new closesClear ∧
      (s.client 0).queue.list = [(false, 4)] ∧ (s.client 0).closed false = true :=
    throughout_of_found clear_sound (by decide +kernel)
  exact ⟨s, run, list, closed, closed_of_run run all⟩

def closesFound : List (Op Nat Bool (Bool × Nat)) :=
  [.subscribe 0 true .func, .publish (true, 1), .look, .send, .act 0 .lookup, .close 0 true,
    .act 0 .dispatch]

/-- `Close` of a `Subscriber` while its event is offered, with an event of another type behind it. -/
def closesOffered : List (Op Nat Bool (Bool × Nat)) :=
  [.subscribe 0 true .func, .subscribe 0 false .chan, .publish (false, 5), .look, .send,
    .act 0 .lookup, .act 0 .dispatch, .drop, .publish (true, 6), .look, .send, .close 0 false]

theorem started_and_stuck :
    (∃ s, Run (Bus.step kindOf doubling) Bus.new closesFound s ∧
      ¬ StartsOpen kindOf doubling s (.act 0 .start)) ∧
    (∃ s, Run (Bus.step kindOf doubling) Bus.new closesOffered s ∧ ¬ Discards kindOf doubling s ∧
      ∀ more s', Run (Bus.step kindOf doubling) s more s' → .act 0 .read ∉ more →
        .act 0 .halt ∉ more → (s'.client 0).queue.list.head? = some (false, 5)) := by
  constructor
  · obtain ⟨s, run, s', start, closed, before, after⟩ :
        ∃ s, Run (Bus.step kindOf doubling) Bus.new closesFound s ∧
          ∃ s' ∈ s.step kindOf doubling (.act 0 .start), (s.client 0).closed true = true ∧
            (s.client 0).received = [] ∧ (s'.client 0).received = [(true, 1)] :=
      run_of_found ⟨_, rfl, _, rfl, rfl, rfl, rfl⟩
    refine ⟨s, run, fun starts => ?_⟩
    have again := starts 0 s' (true, 1) rfl start (by rw [before, after]; rfl)
    exact absurd (closed.symm.trans again) (by simp)
  · obtain ⟨s, run, closed, offers, list⟩ :
        ∃ s, Run (Bus.step kindOf doubling) Bus.new closesOffered s ∧ (s.client 0).closed false = true ∧
          (s.client 0).pump = .offers ∧ (s.client 0).queue.list = [(false, 5), (true, 6)] :=
      run_of_found ⟨_, rfl, rfl, rfl, rfl⟩
    have offering : Offering s 0 (false, 5) := ⟨offers, by rw [list]; rfl⟩
    refine ⟨s, run, fun discards => ?_, fun more s' rest unread runs =>
      (offering.run run rest unread runs).2⟩
    obtain ⟨a, s', unread, taken, gone⟩ := discards 0 (false, 5) [(true, 6)]
      (by simp [isStopped, offers]) list closed
    obtain ⟨shape, -⟩ := shape_and_delivers_of_run run
    cases shape.step_moves taken with
    | act moves => cases moves <;> simp_all [Bus.setClient]

end Sample

end ScaleTail.Eventbus
