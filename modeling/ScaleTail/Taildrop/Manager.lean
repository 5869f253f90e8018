import ScaleTail.Taildrop.Deleter
import ScaleTail.Taildrop.Disk
import ScaleTail.Taildrop.Transfer

/-!
# Calls of `PutFile` and the deleter

Each step is one file operation, one step on the map of incoming files, or one section of the deleter
with its mutex held; while a sweep holds the mutex, the other sections wait for it.
-/

namespace ScaleTail.Taildrop.Manager
open Go

inductive Pc
  | starts
  | opens
  | opened (file pos : Nat)
  | copies (file pos : Nat)
  | moves (retries : Nat) (dst : Bytes)
  | placed (dst : Bytes)
  | done (err : Bool)
  | failed
  | refused
  deriving DecidableEq

structure Call where
  key : IncomingFileKey
  offset : Int
  pc : Pc
  clean : Bool
  deriving DecidableEq

def Call.file (c : Call) : Bytes := c.key.partialName

/-- The section of `waitAndDelete` after its timer fired. The queue of the state holds the files that
it has not come to. -/
structure Sweep where
  now : Time
  failed : Queue
  gone : Bool

structure Scan where
  todo : List Bytes
  gone : Bool

structure State where
  disk : Disk
  incoming : List IncomingFileKey
  queue : Queue
  shutdown : Bool
  running : Bool
  sweep : Option Sweep
  scan : Option Scan
  calls : AList fun _ : Nat => Call

namespace State

def call (s : State) (id : Nat) : Option Call := s.calls.lookup id

def content (s : State) (name : Bytes) : Option Bytes := s.disk.content name

def advance (s s' : State) (id : Nat) (c : Call) (pc : Pc) : State :=
  let clean := c.clean && s'.content c.file = s.content c.file && s'.queue = s.queue
  { s' with calls := s.calls.insert id ⟨c.key, c.offset, pc, clean⟩ }

def endCall (s : State) (id : Nat) : State := { s with calls := s.calls.erase id }

def enqueue (s : State) (name : Bytes) (now : Time) : Option State :=
  if s.sweep.isSome then none
  else if s.shutdown || s.queue.queued name then some s
  else some { s with queue := s.queue ++ [⟨name, now⟩] }

end State

inductive Op
  | begin (id : Nat) (key : IncomingFileKey) (offset : Int)
  | remove (id : Nat)
  | openWriter (id : Nat)
  | openError (id : Nat)
  | register (id : Nat)
  | write (id : Nat) (p : Bytes)
  | close (id : Nat)
  | error (id : Nat)
  | stat (id : Nat)
  | rename (id : Nat)
  | finish (id : Nat)
  | insert (id : Nat) (now : Time)
  | fire (now : Time)
  | unlink (ok : Bool)
  | release
  | list
  | visit (ok : Bool) (now : Time)
  | shutdown
  | stopped
  deriving DecidableEq

def Op.call : Op → Option Nat
  | .begin id .. | .remove id | .openWriter id | .openError id | .register id | .write id _ | .close id
  | .error id | .stat id | .rename id | .finish id | .insert id _ => some id
  | _ => none

variable {H : Type} [DecidableEq H] (hash : Bytes → H) (wellFormed : Bytes → Bool)

namespace State

def openStep (s : State) (id : Nat) (c : Call) : State :=
  let (disk, file) := s.disk.openFile c.file
  match openWriter (disk.data file) c.offset with
  | none => { s with disk := disk }.endCall id
  | some (content, pos) => s.advance { s with disk := disk.write file content } id c (.opened file pos)

def statStep (s : State) (id : Nat) (c : Call) (retries : Nat) (dst : Bytes) : Option State :=
  match s.content dst, s.content c.file with
  | none, _ => some (s.advance s id c (.placed dst))
  | some _, none => none
  | some other, some mine =>
    if other.length = mine.length ∧ hash other = hash mine then
      some (s.advance { s with disk := s.disk.unlink c.file } id c (.done false))
    else
      match nextFilename dst with
      | some next => some (s.advance s id c (.moves retries next))
      -- a panic, with the deferred calls and no error
      | none => some (s.advance s id c (.done false))

def callStep (s : State) (op : Op) (id : Nat) (c : Call) : Option State :=
  match op, c.pc with
  | .remove _, .starts =>
    if s.sweep.isSome then none
    else some (s.advance { s with queue := s.queue.remove c.key.name } id c .opens)
  | .openWriter _, .opens => some (s.openStep id c)
  | .openError _, .opens => some (s.endCall id)
  | .register _, .opened file pos =>
    if s.incoming.contains c.key then some (s.advance s id c .refused)
    else some (s.advance { s with incoming := c.key :: s.incoming } id c (.copies file pos))
  | .write _ p, .copies file pos =>
    some (s.advance { s with disk := s.disk.write file (writeAt (s.disk.data file) pos p) } id c
      (.copies file (pos + p.length)))
  | .close _, .copies _ _ => some (s.advance s id c (.moves maxRetries c.key.name))
  | .error _, .copies _ _ => some (s.advance s id c (.done true))
  | .error _, .moves _ _ => some (s.advance s id c (.done true))
  | .error _, .placed _ => some (s.advance s id c (.done true))
  | .stat _, .moves 0 _ => some (s.advance s id c (.done true))
  | .stat _, .moves (retries + 1) dst =>
    -- `renameMu`
    if s.calls.entries.any fun entry => entry.2.pc matches .placed _ then none
    else s.statStep hash id c retries dst
  | .rename _, .placed dst =>
    if (s.disk.dir.lookup c.file).isSome then
      some (s.advance { s with disk := s.disk.rename c.file dst } id c (.done false))
    else none
  | .finish _, .done err =>
    let s' := { s with incoming := s.incoming.erase c.key }
    some (if err then s.advance s' id c .failed else s'.endCall id)
  | .insert _ now, .failed => (s.enqueue c.file now).map (·.endCall id)
  | .insert _ now, .refused => (s.enqueue c.file now).map (·.endCall id)
  | _, _ => none

def unlinkStep (s : State) (ok : Bool) (w : Sweep) (f : DeleteFile) (rest : Queue) : State :=
  if !ok then { s with queue := rest, sweep := some ⟨w.now, w.failed ++ [f], false⟩ }
  else if hasSuffix f.name deletedSuffix && !w.gone then
    { s with
        disk := s.disk.unlink (trimSuffix f.name deletedSuffix)
        sweep := some ⟨w.now, w.failed, true⟩ }
  else
    { s with
        disk := s.disk.unlink f.name
        queue := rest
        sweep := some ⟨w.now, w.failed, false⟩ }

def visitStep (s : State) (ok : Bool) (now : Time) (gone : Bool) (f : Bytes) (todo : List Bytes) :
    Option State :=
  let next := { s with scan := some ⟨todo, false⟩ }
  if s.shutdown then some { s with scan := none }
  else if hasSuffix f partialSuffix then
    match IncomingFileKey.ofPartial f with
    | some key => if s.incoming.contains key then some next else next.enqueue f now
    | none => next.enqueue f now
  else if hasSuffix f deletedSuffix then
    if !ok then next.enqueue f now
    else if gone then some { next with disk := s.disk.unlink f }
    else
      some { s with
        disk := s.disk.unlink (trimSuffix f deletedSuffix)
        scan := some ⟨f :: todo, true⟩ }
  else some next

def step (s : State) (op : Op) : Option State :=
  match op with
  | .begin id key offset =>
    if s.call id = none ∧ validateBaseName wellFormed key.name then
      some { s with calls := s.calls.insert id ⟨key, offset, .starts, true⟩ }
    else none
  | .fire now =>
    if s.running && s.sweep.isNone then some { s with sweep := some ⟨now, [], false⟩ } else none
  | .unlink ok =>
    match s.sweep, s.queue with
    | some w, f :: rest =>
      if deleteDelay ≤ w.now - f.inserted then some (s.unlinkStep ok w f rest) else none
    | _, _ => none
  | .release =>
    match s.sweep with
    | some w =>
      if s.queue.expired w.now = [] then
        some { s with
          queue := s.queue ++ w.failed.map ({ · with inserted := w.now })
          sweep := none }
      else none
    | none => none
  | .list =>
    if s.running && s.scan.isNone then some { s with scan := some ⟨s.disk.dir.keys, false⟩ } else none
  | .visit ok now =>
    match s.scan with
    | some v =>
      match v.todo with
      | f :: todo => s.visitStep ok now v.gone f todo
      | [] => some { s with scan := none }
    | none => none
  | .shutdown => some { s with shutdown := true }
  | .stopped =>
    if s.shutdown && s.sweep.isNone && s.scan.isNone then some { s with running := false } else none
  | op => op.call.bind fun id => (s.call id).bind (s.callStep hash op id)

end State

def start (disk : Disk) : State where
  disk := disk
  incoming := []
  queue := []
  shutdown := false
  running := true
  sweep := none
  scan := none
  calls := ∅

end ScaleTail.Taildrop.Manager
