import ScaleTail.Eventbus.Queue

/-! # The event bus -/

namespace ScaleTail.Eventbus

inductive Kind
  | chan
  | func
  deriving DecidableEq, Repr

/-- Where `subscribeState.pump` is: at the head of its loop, with the subscriber it looked up, with
the callback of the head event (which its goroutine may have started or not), offering the head
event on the channel of its subscriber, or gone. -/
inductive Pump (E : Type)
  | ready
  | found (kind : Kind)
  | calls (started : Bool)
  | offers
  | stopped (late : Option E)
  deriving DecidableEq, Repr

/-- Where `Bus.pump` is: waiting for an event, before it reads the destinations of the head event,
or delivering the head event to the destinations that are left. -/
inductive Route (ι : Type)
  | waiting
  | looks
  | delivers (dests : List ι)
  deriving DecidableEq, Repr

/-- A client with its `subscribeState`. The last three fields record what happened: how many events
the bus had accepted at a subscription, what the subscribers received, and how many callbacks are
running. -/
structure Client (T E : Type) where
  queue : Queue E
  outputs : T → Option Kind
  closed : T → Bool
  pump : Pump E
  since : T → Option Nat
  received : List E
  active : Nat

structure Bus (ι T E : Type) where
  queue : Queue E
  route : Route ι
  halted : Bool
  panicked : Bool
  topics : T → List ι
  client : ι → Client T E
  accepted : List E

inductive Act
  | lookup
  | dispatch
  | start
  | read
  | done
  | halt
  deriving DecidableEq, Repr

inductive Op (ι T E : Type)
  | subscribe (c : ι) (t : T) (kind : Kind)
  | close (c : ι) (t : T)
  | publish (e : E)
  | look
  | send
  | skip
  | drop
  | act (c : ι) (a : Act)
  | halt
  deriving DecidableEq, Repr

section Client
variable {T E : Type} (ty : E → T) (g : Growth) (cl : Client T E)

def Client.new : Client T E where
  queue := Queue.new 0
  outputs := fun _ => none
  closed := fun _ => false
  pump := .ready
  since := fun _ => none
  received := []
  active := 0

def Client.isStopped : Bool :=
  match cl.pump with
  | .stopped _ => true
  | _ => false

def Client.accepts : Bool :=
  match cl.pump with
  | .ready => cl.queue.empty
  | .calls _ => !cl.queue.full
  | .offers => !cl.queue.full
  | _ => false

def Client.accept (e : E) : Option (Client T E) :=
  if cl.accepts then (cl.queue.add g e).map fun q => { cl with queue := q } else none

def Client.lookup : Option (Client T E) :=
  match cl.pump, cl.queue.peek with
  | .ready, some e =>
    match cl.outputs (ty e) with
    | none => some { cl with queue := cl.queue.drop }
    | some kind => some { cl with pump := .found kind }
  | _, _ => none

def Client.dispatch : Option (Client T E) :=
  match cl.pump with
  | .found .chan => some { cl with pump := .offers }
  | .found .func => some { cl with pump := .calls false }
  | _ => none

def Client.start : Option (Client T E) :=
  match cl.pump, cl.queue.peek with
  | .calls false, some e =>
    some { cl with pump := .calls true, received := cl.received ++ [e], active := cl.active + 1 }
  | .stopped (some e), _ =>
    some { cl with pump := .stopped none, received := cl.received ++ [e], active := cl.active + 1 }
  | _, _ => none

def Client.read : Option (Client T E) :=
  match cl.pump, cl.queue.peek with
  | .offers, some e =>
    some { cl with pump := .ready, queue := cl.queue.drop, received := cl.received ++ [e] }
  | _, _ => none

def Client.done : Option (Client T E) :=
  match cl.pump with
  | .calls true => some { cl with pump := .ready, queue := cl.queue.drop, active := cl.active - 1 }
  | .stopped _ => if cl.active = 0 then none else some { cl with active := cl.active - 1 }
  | _ => none

/-- `ctx.Done()`, in a select. In the dispatch of a callback the pump waits for it, not forever. -/
def Client.halt : Option (Client T E) :=
  match cl.pump with
  | .ready => if cl.queue.empty then some { cl with pump := .stopped none } else none
  | .offers => some { cl with pump := .stopped none }
  | .calls started => some { cl with pump := .stopped (if started then none else cl.queue.peek) }
  | _ => none

def Client.act : Act → Option (Client T E)
  | .lookup => cl.lookup ty
  | .dispatch => cl.dispatch
  | .start => cl.start
  | .read => cl.read
  | .done => cl.done
  | .halt => cl.halt

variable [DecidableEq T]

def Client.addSubscriber (t : T) (kind : Kind) (accepted : Nat) : Client T E :=
  { cl with
    outputs := Function.update cl.outputs t (some kind)
    since := Function.update cl.since t (some accepted) }

def Client.deleteSubscriber (t : T) : Client T E :=
  { cl with
    outputs := Function.update cl.outputs t none
    closed := Function.update cl.closed t true }

end Client

section Bus
variable {ι T E : Type} (ty : E → T) (g : Growth) (s : Bus ι T E)

def maxPublishedEvents : Nat := 16

def Bus.new : Bus ι T E where
  queue := Queue.new maxPublishedEvents
  route := .waiting
  halted := false
  panicked := false
  topics := fun _ => []
  client := fun _ => Client.new
  accepted := []

def Bus.add (e : E) : Bus ι T E :=
  match s.queue.add g e with
  | some q => { s with queue := q, accepted := s.accepted ++ [e] }
  | none => { s with panicked := true }

/-- While waiting, the pump accepts unconditionally; while delivering, unless the queue is full. -/
def Bus.publish (e : E) : Option (Bus ι T E) :=
  match s.route with
  | .waiting => some { s.add g e with route := .looks }
  | .delivers (_ :: _) => if s.queue.full then none else some (s.add g e)
  | _ => none

def Bus.look : Option (Bus ι T E) :=
  match s.route, s.queue.peek with
  | .looks, some e => some { s with route := .delivers (s.topics (ty e)) }
  | _, _ => none

def Bus.skip : Option (Bus ι T E) :=
  match s.route with
  | .delivers (c :: dests) =>
    if (s.client c).isStopped then some { s with route := .delivers dests } else none
  | _ => none

def Bus.drop : Option (Bus ι T E) :=
  match s.route with
  | .delivers [] =>
    some { s with
      queue := s.queue.drop
      route := if s.queue.drop.empty then .waiting else .looks }
  | _ => none

def Bus.halt : Option (Bus ι T E) :=
  match s.route with
  | .waiting => some { s with halted := true }
  | .delivers (_ :: _) => some { s with halted := true }
  | _ => none

variable [DecidableEq ι]

def Bus.setClient (c : ι) (cl : Client T E) : Bus ι T E :=
  { s with client := Function.update s.client c cl }

def Bus.send : Option (Bus ι T E) :=
  match s.route, s.queue.peek with
  | .delivers (c :: dests), some e =>
    ((s.client c).accept g e).map fun cl => { s.setClient c cl with route := .delivers dests }
  | _, _ => none

def Bus.pump (op : Op ι T E) : Option (Bus ι T E) :=
  if s.halted then none
  else match op with
    | .publish e => s.publish g e
    | .look => s.look ty
    | .send => s.send g
    | .skip => s.skip
    | .drop => s.drop
    | .halt => s.halt
    | _ => none

variable [DecidableEq T]

def Bus.subscribe (c : ι) (t : T) (kind : Kind) : Option (Bus ι T E) :=
  if (s.client c).since t = none ∧ (s.client c).isStopped = false then
    some { s.setClient c ((s.client c).addSubscriber t kind s.accepted.length) with
      topics := Function.update s.topics t (s.topics t ++ [c]) }
  else none

/-- `unsubscribe` replaces the slice of the topic: the pump goes on with the one it read. -/
def Bus.close (c : ι) (t : T) : Option (Bus ι T E) :=
  if (s.client c).since t = none then none
  else some { s.setClient c ((s.client c).deleteSubscriber t) with
    topics := Function.update s.topics t ((s.topics t).erase c) }

end Bus

def Bus.step {ι T E : Type} [DecidableEq ι] [DecidableEq T] (ty : E → T) (g : Growth)
    (s : Bus ι T E) (op : Op ι T E) : Option (Bus ι T E) :=
  if s.panicked then none
  else match op with
    | .subscribe c t kind => s.subscribe c t kind
    | .close c t => s.close c t
    | .act c a => ((s.client c).act ty a).map (s.setClient c)
    | op => s.pump ty g op

end ScaleTail.Eventbus
