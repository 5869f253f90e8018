import ScaleTail.Proof.Eventbus.Client

namespace ScaleTail.Eventbus

variable {ι T E : Type} {ty : E → T} {g : Growth} {s s' : Bus ι T E} {op : Op ι T E} {c : ι}

structure Shape (ty : E → T) (s : Bus ι T E) : Prop where
  sane : s.panicked = false
  waiting : s.route = .waiting → s.queue.list = []
  routing : s.route ≠ .waiting → s.queue.list ≠ []
  dests_nodup : ∀ dests, s.route = .delivers dests → dests.Nodup
  dests_known : ∀ dests e, s.route = .delivers dests → s.queue.list.head? = some e →
    ∀ c ∈ dests, (s.client c).since (ty e) ≠ none
  topics_nodup : ∀ t, (s.topics t).Nodup
  mem_topics : ∀ c t, c ∈ s.topics t ↔ (s.client c).outputs t ≠ none
  outputs : ∀ c t, (s.client c).outputs t ≠ none → (s.client c).since t ≠ none
  client : ∀ c, ClientShape (s.client c)
  list_accepted : s.queue.list <:+ s.accepted

theorem Shape.new : Shape ty (Bus.new : Bus ι T E) where
  sane := rfl
  waiting := fun _ => rfl
  routing := fun no => absurd rfl no
  dests_nodup := by simp [Bus.new]
  dests_known := by simp [Bus.new]
  topics_nodup := by simp [Bus.new]
  mem_topics := by simp [Bus.new, Client.new]
  outputs := by simp [Bus.new, Client.new]
  client := fun _ => ClientShape.new
  list_accepted := List.suffix_refl _

theorem add_eq {e : E} (room : s.queue.full = false) : ∃ q : Queue E,
    s.add g e = { s with queue := q, accepted := s.accepted ++ [e] } ∧
    q.list = s.queue.list ++ [e] ∧ q.capacity = s.queue.capacity := by
  obtain ⟨q, added⟩ := Queue.exists_add (g := g) (v := e) room
  exact ⟨q, by simp [Bus.add, added], Queue.add_eq_some added⟩

variable [DecidableEq ι] [DecidableEq T]

inductive Moves (ty : E → T) (s : Bus ι T E) : Op ι T E → Bus ι T E → Prop
  | subscribe {c : ι} {t : T} {kind : Kind} (fresh : (s.client c).since t = none)
      (running : (s.client c).isStopped = false) :
      Moves ty s (.subscribe c t kind)
        { s.setClient c ((s.client c).addSubscriber t kind s.accepted.length) with
          topics := Function.update s.topics t (s.topics t ++ [c]) }
  | close {c : ι} {t : T} (known : (s.client c).since t ≠ none) :
      Moves ty s (.close c t)
        { s.setClient c ((s.client c).deleteSubscriber t) with
          topics := Function.update s.topics t ((s.topics t).erase c) }
  | act {c : ι} {a : Act} {cl : Client T E} (moves : (s.client c).Moves ty a cl) :
      Moves ty s (.act c a) (s.setClient c cl)
  | publish {e : E} {q : Queue E} (waiting : s.route = .waiting)
      (list : q.list = s.queue.list ++ [e]) (capacity : q.capacity = s.queue.capacity) :
      Moves ty s (.publish e)
        { s with queue := q, accepted := s.accepted ++ [e], route := .looks }
  | publishMore {e : E} {q : Queue E} {d : ι} {dests : List ι}
      (delivers : s.route = .delivers (d :: dests))
      (list : q.list = s.queue.list ++ [e]) (capacity : q.capacity = s.queue.capacity) :
      Moves ty s (.publish e) { s with queue := q, accepted := s.accepted ++ [e] }
  | look {e : E} {rest : List E} (looks : s.route = .looks) (head : s.queue.list = e :: rest) :
      Moves ty s .look { s with route := .delivers (s.topics (ty e)) }
  | send {e : E} {rest : List E} {d : ι} {dests : List ι} {cl : Client T E}
      (delivers : s.route = .delivers (d :: dests)) (head : s.queue.list = e :: rest)
      (accepted : (s.client d).Accepted e cl) :
      Moves ty s .send { s.setClient d cl with route := .delivers dests }
  | skip {d : ι} {dests : List ι} (delivers : s.route = .delivers (d :: dests))
      (stopped : (s.client d).isStopped = true) :
      Moves ty s .skip { s with route := .delivers dests }
  | drop {route : Route ι} (delivers : s.route = .delivers [])
      (next : route = if s.queue.list.tail = [] then .waiting else .looks) :
      Moves ty s .drop { s with queue := s.queue.drop, route := route }
  | halt : Moves ty s .halt { s with halted := true }

theorem Shape.publish_moves (shape : Shape ty s) {e : E} (taken : s.publish g e = some s') :
    Moves ty s (.publish e) s' := by
  unfold Bus.publish at taken
  split at taken
  next waiting =>
    obtain ⟨q, same, list, capacity⟩ :=
      add_eq (s := s) (g := g) (e := e) (Queue.not_full_of_list_nil (shape.waiting waiting))
    rw [same] at taken
    cases taken
    exact .publish waiting list capacity
  next d dests delivers =>
    split at taken
    next => cases taken
    next room =>
      obtain ⟨q, same, list, capacity⟩ := add_eq (g := g) (e := e) (Bool.eq_false_of_not_eq_true room)
      rw [same] at taken
      cases taken
      exact .publishMore delivers list capacity
  next => cases taken

theorem look_moves (taken : s.look ty = some s') : Moves ty s .look s' := by
  unfold Bus.look at taken
  split at taken
  next e looks head =>
    obtain ⟨rest, head⟩ := Queue.peek_eq_some.1 head
    cases taken
    exact .look looks head
  next => cases taken

theorem Shape.send_moves (shape : Shape ty s) (taken : s.send g = some s') : Moves ty s .send s' := by
  unfold Bus.send at taken
  split at taken
  next d dests e delivers head =>
    obtain ⟨rest, head⟩ := Queue.peek_eq_some.1 head
    obtain ⟨cl, accepted, rfl⟩ := Option.map_eq_some_iff.1 taken
    exact .send delivers head (Client.accepted (shape.client d) accepted)
  next => cases taken

theorem skip_moves (taken : s.skip = some s') : Moves ty s .skip s' := by
  unfold Bus.skip at taken
  split at taken
  next d dests delivers =>
    obtain ⟨stopped, ⟨⟩⟩ := Option.ite_none_right_eq_some.1 taken
    exact .skip delivers stopped
  next => cases taken

theorem drop_moves (taken : s.drop = some s') : Moves ty s .drop s' := by
  unfold Bus.drop at taken
  split at taken
  next delivers =>
    cases taken
    exact .drop delivers (by simp [List.isEmpty_iff])
  next => cases taken

theorem halt_moves (taken : s.halt = some s') : Moves ty s .halt s' := by
  unfold Bus.halt at taken
  split at taken
  next =>
    cases taken
    exact .halt
  next =>
    cases taken
    exact .halt
  next => cases taken

theorem Shape.pump_moves (shape : Shape ty s) (taken : s.pump ty g op = some s') :
    Moves ty s op s' := by
  unfold Bus.pump at taken
  split at taken
  next => cases taken
  next =>
    split at taken
    next e => exact shape.publish_moves taken
    next => exact look_moves taken
    next => exact shape.send_moves taken
    next => exact skip_moves taken
    next => exact drop_moves taken
    next => exact halt_moves taken
    next => cases taken

theorem Shape.step_moves (shape : Shape ty s) (taken : s.step ty g op = some s') :
    Moves ty s op s' := by
  unfold Bus.step at taken
  rw [if_neg (by simp [shape.sane])] at taken
  split at taken
  next c t kind =>
    obtain ⟨ok, ⟨⟩⟩ := Option.ite_none_right_eq_some.1 taken
    exact .subscribe ok.1 ok.2
  next c t =>
    obtain ⟨known, ⟨⟩⟩ := Option.ite_none_left_eq_some.1 taken
    exact .close known
  next c a =>
    obtain ⟨cl, acted, rfl⟩ := Option.map_eq_some_iff.1 taken
    exact .act (Client.act_moves acted)
  next => exact shape.pump_moves taken

omit [DecidableEq T] in
theorem client_setClient_cases {cl : Client T E} {P : ι → Client T E → Prop}
    (this : P c cl) (others : ∀ d ≠ c, P d (s.client d)) (d : ι) : P d ((s.setClient c cl).client d) := by
  by_cases same : d = c
  · subst same
    simpa [Bus.setClient] using this
  · simpa [Bus.setClient, same] using others d same

section
variable (shape : Shape ty s) {cl : Client T E} {t : T}
include shape

omit [DecidableEq T] in
/-- A client and the topics are replaced together: the topics change for this client only. -/
theorem Shape.replace {topics : T → List ι} (ok : ClientShape cl)
    (since : ∀ t, (s.client c).since t ≠ none → cl.since t ≠ none)
    (each : ∀ t, (cl.outputs t ≠ none → cl.since t ≠ none) ∧ (topics t).Nodup ∧
      (c ∈ topics t ↔ cl.outputs t ≠ none) ∧ ∀ d ≠ c, d ∈ topics t ↔ d ∈ s.topics t) :
    Shape ty { s.setClient c cl with topics := topics } where
  sane := shape.sane
  waiting := shape.waiting
  routing := shape.routing
  dests_nodup := shape.dests_nodup
  dests_known := by
    intro dests e delivers head d mem
    have known := shape.dests_known dests e delivers head
    revert mem
    apply client_setClient_cases (P := fun d cl => d ∈ dests → cl.since (ty e) ≠ none)
    · exact fun mem => since (ty e) (known c mem)
    · exact fun d _ => known d
  topics_nodup t := (each t).2.1
  mem_topics := by
    intro d t
    apply client_setClient_cases (P := fun d cl => d ∈ topics t ↔ cl.outputs t ≠ none)
    · exact (each t).2.2.1
    · exact fun d other => ((each t).2.2.2 d other).trans (shape.mem_topics d t)
  outputs := by
    intro d t
    apply client_setClient_cases (P := fun _ cl => cl.outputs t ≠ none → cl.since t ≠ none)
    · exact (each t).1
    · exact fun d _ => shape.outputs d t
  client := client_setClient_cases (P := fun _ cl => ClientShape cl) ok (fun d _ => shape.client d)
  list_accepted := shape.list_accepted

omit [DecidableEq T] in
theorem Shape.setClient (same : (s.client c).Same cl) (ok : ClientShape cl) :
    Shape ty (s.setClient c cl) := by
  refine shape.replace ok ?_ fun t => ⟨?_, shape.topics_nodup t, ?_, fun _ _ => Iff.rfl⟩
  · rw [same.since]
    exact fun _ => id
  · rw [same.outputs, same.since]
    exact shape.outputs c t
  · rw [same.outputs]
    exact shape.mem_topics c t

theorem Shape.subscribe {kind : Kind} {n : Nat} (fresh : (s.client c).since t = none) :
    Shape ty { s.setClient c ((s.client c).addSubscriber t kind n) with
      topics := Function.update s.topics t (s.topics t ++ [c]) } := by
  have ok := shape.client c
  have new : c ∉ s.topics t := fun mem => shape.outputs c t ((shape.mem_topics c t).1 mem) fresh
  refine shape.replace { ok with } ?_ fun t' => ?_
  · intro t' known
    by_cases same : t' = t <;> simp [Client.addSubscriber, same, known]
  by_cases same : t' = t
  · have nodup := (shape.topics_nodup t).concat new
    simp_all [Client.addSubscriber]
  · simpa [same, Client.addSubscriber] using
      ⟨shape.outputs c t', shape.topics_nodup t', shape.mem_topics c t'⟩

theorem Shape.close : Shape ty { s.setClient c ((s.client c).deleteSubscriber t) with
    topics := Function.update s.topics t ((s.topics t).erase c) } := by
  have ok := shape.client c
  have nodup := shape.topics_nodup t
  refine shape.replace { ok with } (fun _ => id) fun t' => ?_
  by_cases same : t' = t
  · simp_all [Client.deleteSubscriber, nodup.mem_erase_iff, nodup.erase c]
  · simpa [same, Client.deleteSubscriber] using
      ⟨shape.outputs c t', shape.topics_nodup t', shape.mem_topics c t'⟩

omit [DecidableEq ι] [DecidableEq T] in
theorem Shape.next {d : ι} {dests : List ι} (delivers : s.route = .delivers (d :: dests)) :
    Shape ty { s with route := .delivers dests } := by
  have nodup := shape.dests_nodup _ delivers
  exact { shape with
    waiting := by simp
    routing := fun _ => shape.routing (by simp [delivers])
    dests_nodup := by
      rintro dests' ⟨⟩
      exact nodup.of_cons
    dests_known := by
      rintro dests' e' ⟨⟩ head' d' mem
      exact shape.dests_known _ e' delivers head' d' (List.mem_cons_of_mem d mem) }

end

theorem Moves.shape (moves : Moves ty s op s') (shape : Shape ty s) : Shape ty s' := by
  cases moves with
  | subscribe fresh => exact shape.subscribe fresh
  | close => exact shape.close
  | act moves => exact shape.setClient moves.same (moves.shape (shape.client _))
  | @publish _ _ waiting list =>
    exact { shape with
      waiting := by simp
      routing := by simp [list]
      dests_nodup := by simp
      dests_known := by simp
      list_accepted := by
        rw [list, shape.waiting waiting]
        exact List.suffix_append _ _ }
  | @publishMore e q _ _ delivers list =>
    have some : s.queue.list ≠ [] := shape.routing (by simp [delivers])
    exact { shape with
      waiting := by simp [delivers]
      routing := by simp [list]
      dests_known := by
        intro dests' e' delivers' head
        have same : q.list.head? = s.queue.list.head? := by
          rw [list, List.head?_append_of_ne_nil _ some]
        exact shape.dests_known dests' e' delivers' (same ▸ head)
      list_accepted := by
        show q.list <:+ s.accepted ++ [e]
        rw [list]
        obtain ⟨gone, same⟩ := shape.list_accepted
        exact ⟨gone, by rw [← same, List.append_assoc]⟩ }
  | @look e _ _ head =>
    exact { shape with
      waiting := by simp
      routing := fun _ => by simp [head]
      dests_nodup := by
        rintro dests ⟨⟩
        exact shape.topics_nodup (ty e)
      dests_known := by
        rintro dests e' ⟨⟩ head' d mem
        have same : e = e' := by simpa [head] using head'
        subst same
        exact shape.outputs d (ty e) ((shape.mem_topics d (ty e)).1 mem) }
  | send delivers _ accepted => exact (shape.setClient accepted.same accepted.shape).next delivers
  | skip delivers => exact shape.next delivers
  | @drop _ _ next =>
    exact { shape with
      waiting := by
        rintro rfl
        by_contra some
        simp_all
      routing := by
        intro other none
        simp_all
      dests_nodup := by
        rintro dests rfl
        split at next <;> cases next
      dests_known := by
        rintro dests e rfl
        split at next <;> cases next
      list_accepted := by
        rw [Queue.list_drop]
        exact (List.tail_suffix _).trans shape.list_accepted }
  | halt => exact { shape with }

end ScaleTail.Eventbus
