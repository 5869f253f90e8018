import ScaleTail.Go.Strings

/-!
# The file deleter

The queue of files to delete, and the calls and goroutines that work on it: each step takes or
releases the mutex, runs what stands between the two, or is a choice of a `select`.
-/

namespace ScaleTail.Taildrop
open Go

abbrev Time := Int

def deleteDelay : Time := 3600 * 1000000000

structure DeleteFile where
  name : Bytes
  inserted : Time
  deriving DecidableEq

abbrev Queue := List DeleteFile

namespace Queue

def queued (q : Queue) (name : Bytes) : Bool := q.any (·.name == name)

def remove (q : Queue) (name : Bytes) : Queue := q.filter (·.name != name)

def expired (q : Queue) (now : Time) : Queue := q.takeWhile (deleteDelay ≤ now - ·.inserted)

def sweep (q : Queue) (now : Time) (fails : Bytes → Bool) : Queue :=
  q.dropWhile (deleteDelay ≤ now - ·.inserted) ++
    ((q.expired now).filter (fails ·.name)).map ({ · with inserted := now })

end Queue

namespace Deleter

inductive Call
  | insert (name : Bytes)
  | remove (name : Bytes)
  | shutdown
  deriving DecidableEq

inductive Section
  | call (c : Call)
  | delete (now : Time)
  deriving DecidableEq

def Section.isGoroutine : Section → Bool
  | .call _ => false
  | .delete _ => true

inductive Thread
  | wants (w : Section)
  | holds (w : Section)
  | signals
  | leaves (goroutine : Bool)
  | cancels
  | awaits
  | waits (due : Time)
  deriving DecidableEq

def Thread.isGoroutine : Thread → Bool
  | .wants w => w.isGoroutine
  | .holds w => w.isGoroutine
  | .leaves goroutine => goroutine
  | .waits _ => true
  | _ => false

structure State where
  mu : Option Nat
  queue : Queue
  shutdown : Bool
  threads : AList fun _ : Nat => Thread

namespace State

def init : State := ⟨none, [], false, ∅⟩

def thread (s : State) (id : Nat) : Option Thread := s.threads.lookup id

def set (s : State) (id : Nat) (th : Thread) : State := { s with threads := s.threads.insert id th }

def finish (s : State) (id : Nat) : State := { s with threads := s.threads.erase id }

end State

/-- What a section leaves: the queue, whether the deleter is shut down, where its thread goes on, and
the time of the timer of a goroutine that it starts. -/
structure Outcome where
  queue : Queue
  shutdown : Bool
  thread : Thread
  started : Option Time

def Section.body (w : Section) (queue : Queue) (shutdown : Bool) (now : Time) (fails : Bytes → Bool) :
    Outcome :=
  match w with
  | .call (.insert name) =>
    if shutdown || queue.queued name then ⟨queue, shutdown, .leaves false, none⟩
    else
      let pushed := queue ++ [⟨name, now⟩]
      ⟨pushed, shutdown, .leaves false, if pushed.length = 1 then some (now + deleteDelay) else none⟩
  | .call (.remove name) =>
    if queue.queued name then
      let rest := queue.remove name
      ⟨rest, shutdown, if rest = [] then .signals else .leaves false, none⟩
    else ⟨queue, shutdown, .leaves false, none⟩
  | .call .shutdown => ⟨queue, true, .cancels, none⟩
  | .delete fired =>
    let rest := queue.sweep fired fails
    ⟨rest, shutdown, .leaves true,
      if shutdown then none
      else rest.head?.map fun file => now + (deleteDelay - (fired - file.inserted))⟩

inductive Op
  | call (id : Nat) (c : Call)
  | lock (id : Nat)
  | run (id started : Nat) (now : Time) (fails : Bytes → Bool)
  | signal (sender receiver : Nat)
  | cancelled (id : Nat)
  | fire (id : Nat) (now : Time)
  | unlock (id : Nat)
  | waited (id : Nat)

def Op.isCall : Op → Bool
  | .call .. => true
  | _ => false

def State.step (s : State) : Op → Option State
  | .call id c => if s.thread id = none then some (s.set id (.wants (.call c))) else none
  | .lock id =>
    match s.mu, s.thread id with
    | none, some (.wants w) => some ({ s with mu := some id }.set id (.holds w))
    | _, _ => none
  | .run id started now fails =>
    match s.thread id with
    | some (.holds w) =>
      let out := w.body s.queue s.shutdown now fails
      let s' := { s with queue := out.queue, shutdown := out.shutdown }.set id out.thread
      if s.thread started = none then
        some (out.started.elim s' fun due => s'.set started (.waits due))
      else none
    | _ => none
  | .signal sender receiver =>
    match s.thread sender, s.thread receiver with
    | some .signals, some (.waits _) => some ((s.set sender (.leaves false)).finish receiver)
    | _, _ => none
  | .cancelled id =>
    if s.shutdown then
      match s.thread id with
      | some .signals => some (s.set id (.leaves false))
      | some (.waits _) => some (s.finish id)
      | _ => none
    else none
  | .fire id now =>
    match s.thread id with
    | some (.waits due) => if due ≤ now then some (s.set id (.wants (.delete now))) else none
    | _ => none
  | .unlock id =>
    match s.thread id with
    | some (.leaves _) => some ({ s with mu := none }.finish id)
    | some .cancels => some ({ s with mu := none }.set id .awaits)
    | _ => none
  | .waited id =>
    match s.thread id with
    | some .awaits =>
      if s.threads.entries.all (!·.2.isGoroutine) then some (s.finish id) else none
    | _ => none

end Deleter

end ScaleTail.Taildrop
