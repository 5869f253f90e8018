import ScaleTail.Netmap.Session

/-!
# The change queue of a map session

`control/controlclient`: responses of the server and disco keys of peers are sent on one unbuffered
channel, under a lock, to the loop that handles them.
-/

namespace ScaleTail.Netmap

structure ResponseWithSource where
  response : MapResponse
  viaTSMP : Bool

def errChangeQueueClosed : String := "change queue closed"

inductive Call
  | updateDiscoForNode (u : DiscoUpdate)
  | handleNonKeepAliveMapResponse (resp : MapResponse)
  | close

namespace Call

def change : Call → Option ResponseWithSource
  | .updateDiscoForNode u => some ⟨u.response, true⟩
  | .handleNonKeepAliveMapResponse resp => some ⟨resp, false⟩
  | .close => none

def errWaited : Call → Option String
  | .close => none
  | _ => some errChangeQueueClosed

end Call

inductive CallPC
  | start
  | locked
  | checked
  | sending
  | sent
  | refused
  | waiting
  | returned (err : Option String)
  | panicked
  deriving DecidableEq

structure Goroutine where
  call : Call
  pc : CallPC

inductive LoopPC
  | select
  | handling (change : ResponseWithSource) (inner : Bool)
  | locking
  | setClosed
  | unlocking
  | draining
  | emptied
  | leaving
  | exited

inductive Holder
  | loop
  | call (i : Nat)
  deriving DecidableEq

structure MapSession where
  peers : Peers
  cqmu : Option Holder
  changeQueueClosed : Bool
  queueClosed : Bool
  cancelled : Bool
  loop : LoopPC
  calls : List Goroutine

def newMapSession : MapSession := ⟨.empty, none, false, false, false, .select, []⟩

/-- The calls move by `lock`, where they take `cqmu`, and by `call`, which is each later step of
theirs; the loop moves by `receive` and `done`, its choices in a `select`, by `handled`, when a
handler returns, and by `loop`. -/
inductive Step
  | spawn (call : Call)
  | lock (i : Nat)
  | call (i : Nat)
  | receive (i : Nat)
  | handled (now : Time)
  | done
  | loop

namespace MapSession

variable (ms : MapSession)

def move (i : Nat) (pc : CallPC) : MapSession :=
  { ms with calls := ms.calls.modify i ({ · with pc }) }

def lockStep (i : Nat) (g : Goroutine) : Option MapSession :=
  match g.call, g.pc with
  | .close, _ => none
  | _, .start => if ms.cqmu = none then some { ms.move i .locked with cqmu := some (.call i) } else none
  | _, _ => none

def callStep (i : Nat) (g : Goroutine) : Option MapSession :=
  match g.pc with
  | .start =>
    match g.call with
    | .close => some { ms.move i .waiting with cancelled := true }
    | _ => none
  | .locked => some (ms.move i (if ms.changeQueueClosed then .refused else .checked))
  | .checked => some (ms.move i (if ms.queueClosed then .panicked else .sending))
  -- the loop is the one that moves: the channel has no buffer
  | .sending => none
  | .sent => some { ms.move i (.returned none) with cqmu := none }
  | .refused => some { ms.move i .waiting with cqmu := none }
  | .waiting =>
    match ms.loop with
    | .exited => some (ms.move i (.returned g.call.errWaited))
    | _ => none
  | .returned _ | .panicked => none

def receiveStep (i : Nat) (g : Goroutine) : Option MapSession :=
  match g.pc, g.call.change, ms.loop with
  | .sending, some change, .select => some { ms.move i .sent with loop := .handling change false }
  | .sending, some change, .draining => some { ms.move i .sent with loop := .handling change true }
  | _, _, _ => none

def handle (peers : Peers) (change : ResponseWithSource) (now : Time) : Peers :=
  (handleMapResponse peers change.response change.viaTSMP now).1

def handledStep (now : Time) : Option MapSession :=
  match ms.loop with
  | .handling change inner =>
    some { ms with
      peers := handle ms.peers change now
      loop := if inner then .draining else .select }
  | _ => none

def wake (g : Goroutine) : Goroutine := if g.pc = .sending then { g with pc := .panicked } else g

def loopStep : Option MapSession :=
  match ms.loop with
  | .select | .handling _ _ | .exited => none
  | .locking => if ms.cqmu = none then some { ms with cqmu := some .loop, loop := .setClosed } else none
  | .setClosed => some { ms with changeQueueClosed := true, loop := .unlocking }
  | .unlocking => some { ms with cqmu := none, loop := .draining }
  -- the default branch, which is for when nobody is sending
  | .draining => if ∃ g ∈ ms.calls, g.pc = .sending then none else some { ms with loop := .emptied }
  | .emptied => some { ms with queueClosed := true, calls := ms.calls.map wake, loop := .leaving }
  | .leaving => some { ms with loop := .exited }

def step : Step → Option MapSession
  | .spawn call => some { ms with calls := ms.calls ++ [⟨call, .start⟩] }
  | .lock i => ms.calls[i]?.bind (ms.lockStep i)
  | .call i => ms.calls[i]?.bind (ms.callStep i)
  | .receive i => ms.calls[i]?.bind (ms.receiveStep i)
  | .handled now => ms.handledStep now
  | .done =>
    match ms.loop, ms.cancelled with
    | .select, true => some { ms with loop := .locking }
    | _, _ => none
  | .loop => ms.loopStep

end MapSession

end ScaleTail.Netmap
