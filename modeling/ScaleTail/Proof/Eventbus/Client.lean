import ScaleTail.Eventbus.Bus

namespace ScaleTail.Eventbus

variable {T E : Type} {ty : E → T} {g : Growth} {cl cl' : Client T E} {a : Act} {e : E}

def Client.pending (cl : Client T E) : List E :=
  match cl.pump with
  | .calls true => cl.queue.list.tail
  | .stopped late => late.toList
  | _ => cl.queue.list

def Client.held (cl : Client T E) : List E :=
  match cl.pump with
  | .ready => []
  | .calls true => []
  | .stopped late => late.toList
  | _ => cl.queue.list.head?.toList

def Client.busy (cl : Client T E) : Bool :=
  match cl.pump with
  | .ready => false
  | .stopped _ => false
  | _ => true

structure ClientShape (cl : Client T E) : Prop where
  unbounded : cl.queue.capacity = 0
  busy : cl.busy = true → cl.queue.list ≠ []
  active_le : cl.active ≤ 1
  active : cl.active ≠ 0 → cl.pump = .calls true ∨ cl.pump = .stopped none

theorem ClientShape.new : ClientShape (Client.new : Client T E) where
  unbounded := rfl
  busy := by simp [Client.busy, Client.new]
  active_le := Nat.zero_le 1
  active := fun no => absurd rfl no

theorem ClientShape.idle (shape : ClientShape cl)
    (at_ : ¬ (cl.pump = .calls true ∨ cl.pump = .stopped none)) : cl.active = 0 := by
  by_contra active
  exact at_ (shape.active active)

inductive Client.Moves (ty : E → T) (cl : Client T E) : Act → Client T E → Prop
  | miss {e : E} {rest : List E} (ready : cl.pump = .ready) (head : cl.queue.list = e :: rest)
      (none : cl.outputs (ty e) = none) : Moves ty cl .lookup { cl with queue := cl.queue.drop }
  | find {e : E} {rest : List E} {kind : Kind} (ready : cl.pump = .ready) (head : cl.queue.list = e :: rest)
      (output : cl.outputs (ty e) = some kind) : Moves ty cl .lookup { cl with pump := .found kind }
  | offer (found : cl.pump = .found .chan) : Moves ty cl .dispatch { cl with pump := .offers }
  | call (found : cl.pump = .found .func) : Moves ty cl .dispatch { cl with pump := .calls false }
  | start {e : E} {rest : List E} (calls : cl.pump = .calls false) (head : cl.queue.list = e :: rest) :
      Moves ty cl .start
        { cl with pump := .calls true, received := cl.received ++ [e], active := cl.active + 1 }
  | late {e : E} (stopped : cl.pump = .stopped (some e)) :
      Moves ty cl .start
        { cl with pump := .stopped none, received := cl.received ++ [e], active := cl.active + 1 }
  | read {e : E} {rest : List E} (offers : cl.pump = .offers) (head : cl.queue.list = e :: rest) :
      Moves ty cl .read
        { cl with pump := .ready, queue := cl.queue.drop, received := cl.received ++ [e] }
  | done (calls : cl.pump = .calls true) :
      Moves ty cl .done
        { cl with pump := .ready, queue := cl.queue.drop, active := cl.active - 1 }
  | returned {late : Option E} (stopped : cl.pump = .stopped late) (active : cl.active ≠ 0) :
      Moves ty cl .done { cl with active := cl.active - 1 }
  | haltReady (ready : cl.pump = .ready) (head : cl.queue.list = []) :
      Moves ty cl .halt { cl with pump := .stopped none }
  | haltOffers (offers : cl.pump = .offers) : Moves ty cl .halt { cl with pump := .stopped none }
  | haltCalls {started : Bool} (calls : cl.pump = .calls started) :
      Moves ty cl .halt
        { cl with pump := .stopped (if started then none else cl.queue.list.head?) }

theorem Client.lookup_moves (taken : cl.lookup ty = some cl') : cl.Moves ty .lookup cl' := by
  unfold Client.lookup at taken
  split at taken
  next e ready head =>
    obtain ⟨rest, head⟩ := Queue.peek_eq_some.1 head
    split at taken
    next none =>
      cases taken
      exact .miss ready head none
    next kind output =>
      cases taken
      exact .find ready head output
  next => cases taken

theorem Client.start_moves (taken : cl.start = some cl') : cl.Moves ty .start cl' := by
  unfold Client.start at taken
  split at taken
  next e calls head =>
    obtain ⟨rest, head⟩ := Queue.peek_eq_some.1 head
    cases taken
    exact .start calls head
  next e stopped =>
    cases taken
    exact .late stopped
  next => cases taken

theorem Client.read_moves (taken : cl.read = some cl') : cl.Moves ty .read cl' := by
  unfold Client.read at taken
  split at taken
  next e offers head =>
    obtain ⟨rest, head⟩ := Queue.peek_eq_some.1 head
    cases taken
    exact .read offers head
  next => cases taken

theorem Client.done_moves (taken : cl.done = some cl') : cl.Moves ty .done cl' := by
  unfold Client.done at taken
  split at taken
  next calls =>
    cases taken
    exact .done calls
  next late stopped =>
    obtain ⟨active, ⟨⟩⟩ := Option.ite_none_left_eq_some.1 taken
    exact .returned stopped active
  next => cases taken

theorem Client.halt_moves (taken : cl.halt = some cl') : cl.Moves ty .halt cl' := by
  unfold Client.halt at taken
  split at taken
  next ready =>
    obtain ⟨empty, ⟨⟩⟩ := Option.ite_none_right_eq_some.1 taken
    exact .haltReady ready (Queue.empty_iff.1 empty)
  next offers =>
    cases taken
    exact .haltOffers offers
  next started calls =>
    cases taken
    rw [Queue.peek_eq]
    exact .haltCalls calls
  next => cases taken

theorem Client.dispatch_moves (taken : cl.dispatch = some cl') : cl.Moves ty .dispatch cl' := by
  unfold Client.dispatch at taken
  split at taken
  next found =>
    cases taken
    exact .offer found
  next found =>
    cases taken
    exact .call found
  next => cases taken

theorem Client.act_moves (taken : cl.act ty a = some cl') : cl.Moves ty a cl' := by
  cases a with
  | lookup => exact Client.lookup_moves taken
  | dispatch => exact Client.dispatch_moves taken
  | start => exact Client.start_moves taken
  | read => exact Client.read_moves taken
  | done => exact Client.done_moves taken
  | halt => exact Client.halt_moves taken

inductive Client.Effect (ty : E → T) (cl cl' : Client T E) : Prop
  | quiet (received : cl'.received = cl.received) (pending : cl'.pending = cl.pending)
      (held : cl'.held = cl.held) (stopped : cl'.isStopped = cl.isStopped)
  | miss {e : E} (received : cl'.received = cl.received) (pending : cl.pending = e :: cl'.pending)
      (held : cl'.held = []) (stopped : cl'.isStopped = cl.isStopped) (none : cl.outputs (ty e) = none)
  | find {e : E} (received : cl'.received = cl.received) (pending : cl'.pending = cl.pending)
      (held : cl'.held = [e]) (before : cl.held = []) (running : cl.isStopped = false)
      (stopped : cl'.isStopped = false) (some : cl.outputs (ty e) ≠ none)
  | receive {e : E} (received : cl'.received = cl.received ++ [e])
      (pending : cl.pending = e :: cl'.pending) (held : cl.held = [e]) (after : cl'.held = [])
      (stopped : cl'.isStopped = cl.isStopped)
  | halt (received : cl'.received = cl.received) (pending : cl'.pending.Sublist cl.pending)
      (held : cl'.held <+: cl.held) (running : cl.isStopped = false) (stopped : cl'.isStopped = true)

structure Client.Same (cl cl' : Client T E) : Prop where
  outputs : cl'.outputs = cl.outputs
  since : cl'.since = cl.since
  closed : cl'.closed = cl.closed

theorem Client.Moves.same (moves : cl.Moves ty a cl') : cl.Same cl' := by
  cases moves <;> exact ⟨rfl, rfl, rfl⟩

theorem Client.Moves.effect (moves : cl.Moves ty a cl') : cl.Effect ty cl' := by
  cases moves with
  | @miss e _ ready head none =>
    apply Effect.miss (e := e) <;> simp [pending, held, isStopped, ready, head, none]
  | @find e _ _ ready head output =>
    apply Effect.find (e := e) <;> simp [pending, held, isStopped, ready, head, output]
  | offer found | call found => apply Effect.quiet <;> simp [pending, held, isStopped, found]
  | @start e _ at_ head | @read e _ at_ head =>
    apply Effect.receive (e := e) <;> simp [pending, held, isStopped, at_, head]
  | @late e stopped => apply Effect.receive (e := e) <;> simp [pending, held, isStopped, stopped]
  | done calls => apply Effect.quiet <;> simp [pending, held, isStopped, calls]
  | returned => apply Effect.quiet <;> simp [pending, held, isStopped]
  | haltReady at_ | haltOffers at_ => apply Effect.halt <;> simp [pending, held, isStopped, at_]
  | @haltCalls started calls =>
    have sublist : (cl.queue.list.head?.toList).Sublist cl.queue.list := by
      cases cl.queue.list <;> simp
    apply Effect.halt <;> cases started <;> simp [pending, held, isStopped, calls, sublist]

theorem Client.Moves.shape (moves : cl.Moves ty a cl') (shape : ClientShape cl) : ClientShape cl' := by
  have idle := shape.idle
  have busy := shape.busy
  have less : cl.active - 1 = 0 := Nat.sub_eq_zero_of_le shape.active_le
  cases moves with
  | miss ready =>
    exact ⟨by simpa using shape.unbounded, by simp [Client.busy, ready], shape.active_le, shape.active⟩
  | find ready head =>
    have none := idle (by simp [ready])
    exact ⟨shape.unbounded, by simp [head], shape.active_le, by simp [none]⟩
  | offer found | call found =>
    have none := idle (by simp [found])
    exact ⟨shape.unbounded, fun _ => busy (by simp [Client.busy, found]), shape.active_le,
      by simp [none]⟩
  | start calls head =>
    have none := idle (by simp [calls])
    exact ⟨shape.unbounded, by simp [head], by simp [none], by simp⟩
  | late stopped =>
    have none := idle (by simp [stopped])
    exact ⟨shape.unbounded, by simp [Client.busy], by simp [none], by simp⟩
  | read offers =>
    have none := idle (by simp [offers])
    exact ⟨by simpa using shape.unbounded, by simp [Client.busy], shape.active_le, by simp [none]⟩
  | done =>
    exact ⟨by simpa using shape.unbounded, by simp [Client.busy], by simp [less], by simp [less]⟩
  | returned stopped =>
    exact ⟨shape.unbounded, by simp [Client.busy, stopped], by simp [less], by simp [less]⟩
  | haltReady | haltOffers =>
    exact ⟨shape.unbounded, by simp [Client.busy], shape.active_le, by simp⟩
  | @haltCalls started calls =>
    refine ⟨shape.unbounded, by simp [Client.busy], shape.active_le, ?_⟩
    cases started with
    | true => simp
    | false =>
      intro active
      exact absurd (idle (by simp [calls])) active

structure Client.Accepted (cl : Client T E) (e : E) (cl' : Client T E) : Prop where
  pump : cl'.pump = cl.pump
  list : cl'.queue.list = cl.queue.list ++ [e]
  received : cl'.received = cl.received
  pending : cl'.pending = cl.pending ++ [e]
  held : cl'.held = cl.held
  running : cl.isStopped = false
  stopped : cl'.isStopped = false
  same : cl.Same cl'
  shape : ClientShape cl'

theorem Client.running_of_accepts (room : cl.accepts = true) : cl.isStopped = false := by
  cases pump : cl.pump <;> simp_all [accepts, isStopped]

theorem Client.pending_add (shape : ClientShape cl) (running : cl.isStopped = false) {q : Queue E}
    (list : q.list = cl.queue.list ++ [e]) :
    ({ cl with queue := q } : Client T E).pending = cl.pending ++ [e] := by
  have busy := shape.busy
  cases pump : cl.pump with
  | ready | found | offers => simp [pending, pump, list]
  | calls started =>
    have some := busy (by simp [Client.busy, pump])
    cases started with
    | true => simp [pending, pump, list, List.tail_append_of_ne_nil some]
    | false => simp [pending, pump, list]
  | stopped => simp [isStopped, pump] at running

theorem Client.held_add (shape : ClientShape cl) {q : Queue E}
    (list : q.list = cl.queue.list ++ [e]) :
    ({ cl with queue := q } : Client T E).held = cl.held := by
  by_cases busy : cl.busy = true
  · have head : q.list.head? = cl.queue.list.head? := by
      rw [list, List.head?_append_of_ne_nil _ (shape.busy busy)]
    simp [held, head]
  · cases pump : cl.pump with
    | ready | stopped => simp [held, pump]
    | found | calls | offers => simp [Client.busy, pump] at busy

theorem Client.accepted (shape : ClientShape cl) (taken : cl.accept g e = some cl') :
    cl.Accepted e cl' := by
  obtain ⟨room, taken⟩ := Option.ite_none_right_eq_some.1 taken
  obtain ⟨q, added, rfl⟩ := Option.map_eq_some_iff.1 taken
  obtain ⟨list, capacity⟩ := Queue.add_eq_some added
  have running := running_of_accepts room
  exact {
    pump := rfl
    list := list
    received := rfl
    pending := pending_add shape running list
    held := held_add shape list
    running := running
    stopped := running
    same := ⟨rfl, rfl, rfl⟩
    shape := ⟨capacity.trans shape.unbounded, fun _ => by simp [list], shape.active_le,
      shape.active⟩ }

theorem Client.held_pending (cl : Client T E) : ∃ rest, cl.pending = cl.held ++ rest := by
  cases pump : cl.pump with
  | ready => exact ⟨cl.queue.list, by simp [pending, held, pump]⟩
  | found | offers => cases list : cl.queue.list <;> simp [pending, held, pump, list]
  | calls started =>
    cases started with
    | true => exact ⟨cl.queue.list.tail, by simp [pending, held, pump]⟩
    | false => cases list : cl.queue.list <;> simp [pending, held, pump, list]
  | stopped => exact ⟨[], by simp [pending, held, pump]⟩

end ScaleTail.Eventbus
