import ScaleTail.Taildrop.Manager

/-! # What a step of the manager does -/

namespace ScaleTail.Taildrop.Manager
open Go Option

variable {H : Type} [DecidableEq H] {hash : Bytes → H} {wellFormed : Bytes → Bool}
  {s s' t : State} {op : Op} {id i j : Nat} {c d : Call} {pc : Pc}

def Pc.Registered : Pc → Prop
  | .copies .. | .moves .. | .placed _ | .done _ => True
  | _ => False

def Pc.Early : Pc → Prop
  | .starts | .opens | .opened .. | .refused => True
  | _ => False

theorem Pc.Registered.not_early (registered : pc.Registered) : ¬ pc.Early := by
  cases pc <;> simp_all [Pc.Registered, Pc.Early]

namespace State

@[simp] theorem call_advance : (s.advance t id c pc).call i =
    if i = id then some ⟨c.key, c.offset, pc,
      c.clean && t.content c.file = s.content c.file && t.queue = s.queue⟩ else s.call i :=
  Lib.lookup_insert_ite

@[simp] theorem call_endCall : (s.endCall id).call i = if i = id then none else s.call i :=
  Lib.lookup_erase_ite

@[simp] theorem disk_advance : (s.advance t id c pc).disk = t.disk := rfl
@[simp] theorem queue_advance : (s.advance t id c pc).queue = t.queue := rfl
@[simp] theorem shutdown_advance : (s.advance t id c pc).shutdown = t.shutdown := rfl
@[simp] theorem running_advance : (s.advance t id c pc).running = t.running := rfl
@[simp] theorem sweep_advance : (s.advance t id c pc).sweep = t.sweep := rfl
@[simp] theorem scan_advance : (s.advance t id c pc).scan = t.scan := rfl

end State

def State.Enqueued (s : State) (name : Bytes) (now : Time) (queue : Queue) : Prop :=
  queue = s.queue ∨ s.sweep = none ∧ s.shutdown = false ∧ queue = s.queue ++ [⟨name, now⟩]

theorem enqueue_cases {name : Bytes} {now : Time} (enqueued : s.enqueue name now = some t) :
    ∃ queue, t = { s with queue := queue } ∧ s.Enqueued name now queue := by
  obtain ⟨free, enqueued⟩ := ite_none_left_eq_some.1 enqueued
  have free : s.sweep = none := by simpa using free
  split at enqueued
  · cases enqueued
    exact ⟨s.queue, rfl, .inl rfl⟩
  next new =>
    cases enqueued
    simp only [Bool.or_eq_true, not_or, Bool.not_eq_true] at new
    exact ⟨_, rfl, .inr ⟨free, new.1, rfl⟩⟩

inductive CallTaken (s : State) (id : Nat) (c : Call) : Op → State → Prop
  | remove {k} : c.pc = .starts → s.sweep = none → CallTaken s id c (.remove k)
      (s.advance { s with queue := s.queue.remove c.key.name } id c .opens)
  | openWriter {k content pos} : c.pc = .opens → openWriter
        ((s.disk.openFile c.file).1.data (s.disk.openFile c.file).2) c.offset = some (content, pos) →
      CallTaken s id c (.openWriter k) (s.advance
        { s with disk := (s.disk.openFile c.file).1.write (s.disk.openFile c.file).2 content } id c
        (.opened (s.disk.openFile c.file).2 pos))
  | openFail {k} : c.pc = .opens → CallTaken s id c (.openWriter k)
      ({ s with disk := (s.disk.openFile c.file).1 }.endCall id)
  | openError {k} : c.pc = .opens → CallTaken s id c (.openError k) (s.endCall id)
  | refuse {k file pos} : c.pc = .opened file pos → c.key ∈ s.incoming →
      CallTaken s id c (.register k) (s.advance s id c .refused)
  | register {k file pos} : c.pc = .opened file pos → c.key ∉ s.incoming →
      CallTaken s id c (.register k)
        (s.advance { s with incoming := c.key :: s.incoming } id c (.copies file pos))
  | write {k p file pos} : c.pc = .copies file pos → CallTaken s id c (.write k p)
      (s.advance { s with disk := s.disk.write file (writeAt (s.disk.data file) pos p) } id c
        (.copies file (pos + p.length)))
  | close {k file pos} : c.pc = .copies file pos → CallTaken s id c (.close k)
      (s.advance s id c (.moves maxRetries c.key.name))
  | error {o} : c.pc.Registered → CallTaken s id c o (s.advance s id c (.done true))
  | place {k retries dst} : c.pc = .moves (retries + 1) dst →
      CallTaken s id c (.stat k) (s.advance s id c (.placed dst))
  | same {k retries dst} : c.pc = .moves (retries + 1) dst → CallTaken s id c (.stat k)
      (s.advance { s with disk := s.disk.unlink c.file } id c (.done false))
  | next {k retries dst next} : c.pc = .moves (retries + 1) dst → nextFilename dst = some next →
      CallTaken s id c (.stat k) (s.advance s id c (.moves retries next))
  | abort {k retries dst} : c.pc = .moves (retries + 1) dst →
      CallTaken s id c (.stat k) (s.advance s id c (.done false))
  | rename {k dst} : c.pc = .placed dst → CallTaken s id c (.rename k)
      (s.advance { s with disk := s.disk.rename c.file dst } id c (.done false))
  | fail {k} : c.pc = .done true → CallTaken s id c (.finish k)
      (s.advance { s with incoming := s.incoming.erase c.key } id c .failed)
  | finish {k} : c.pc = .done false → CallTaken s id c (.finish k)
      ({ s with incoming := s.incoming.erase c.key }.endCall id)
  | insert {k now queue} : c.pc = .failed ∨ c.pc = .refused → s.Enqueued c.file now queue →
      CallTaken s id c (.insert k now) ({ s with queue := queue }.endCall id)

theorem callTaken (taken : s.callStep hash op id c = some s') : CallTaken s id c op s' := by
  unfold State.callStep at taken
  split at taken
  next pc =>
    obtain ⟨free, ⟨⟩⟩ := ite_none_left_eq_some.1 taken
    exact .remove pc (by simpa using free)
  next pc =>
    cases taken
    dsimp only [State.openStep]
    split
    · exact .openFail pc
    next opened => exact .openWriter pc opened
  next pc =>
    cases taken
    exact .openError pc
  next pc =>
    split at taken
    next known =>
      cases taken
      exact .refuse pc (by simpa using known)
    next new =>
      cases taken
      exact .register pc (by simpa using new)
  next pc =>
    cases taken
    exact .write pc
  next pc =>
    cases taken
    exact .close pc
  iterate 4
    next pc =>
      cases taken
      exact .error (by rw [pc]; trivial)
  next pc =>
    split at taken
    · cases taken
    unfold State.statStep at taken
    split at taken
    · cases taken
      exact .place pc
    · cases taken
    · split at taken
      · cases taken
        exact .same pc
      · split at taken
        next found =>
          cases taken
          exact .next pc found
        · cases taken
          exact .abort pc
  next pc =>
    split at taken
    · cases taken
      exact .rename pc
    · cases taken
  next err pc =>
    cases taken
    cases err with
    | true => exact .fail pc
    | false => exact .finish pc
  next pc =>
    obtain ⟨t, enqueued, rfl⟩ := map_eq_some_iff.1 taken
    obtain ⟨queue, rfl, added⟩ := enqueue_cases enqueued
    exact .insert (.inl pc) added
  next pc =>
    obtain ⟨t, enqueued, rfl⟩ := map_eq_some_iff.1 taken
    obtain ⟨queue, rfl, added⟩ := enqueue_cases enqueued
    exact .insert (.inr pc) added
  · cases taken

def State.beginCall (s : State) (id : Nat) (key : IncomingFileKey) (offset : Int) : State :=
  { s with calls := s.calls.insert id ⟨key, offset, .starts, true⟩ }

@[simp] theorem State.call_beginCall {key : IncomingFileKey} {offset : Int} :
    (s.beginCall id key offset).call i =
      if i = id then some ⟨key, offset, .starts, true⟩ else s.call i :=
  Lib.lookup_insert_ite

inductive Unlinked (s : State) (w : Sweep) (f : DeleteFile) (rest : Queue) : Disk → Queue → Sweep → Prop
  | failed : Unlinked s w f rest s.disk rest ⟨w.now, w.failed ++ [f], false⟩
  | target : hasSuffix f.name deletedSuffix = true → Unlinked s w f rest
      (s.disk.unlink (trimSuffix f.name deletedSuffix)) s.queue ⟨w.now, w.failed, true⟩
  | file : Unlinked s w f rest (s.disk.unlink f.name) rest ⟨w.now, w.failed, false⟩

inductive Visited (s : State) (f : Bytes) (now : Time) : Disk → Queue → Prop
  | skip : Visited s f now s.disk s.queue
  | partly {q} : hasSuffix f partialSuffix = true →
      (∀ key ∈ s.incoming, IncomingFileKey.ofPartial f ≠ some key) → s.Enqueued f now q →
      Visited s f now s.disk q
  | marker {q} : hasSuffix f deletedSuffix = true → s.Enqueued f now q → Visited s f now s.disk q
  | target : hasSuffix f deletedSuffix = true →
      Visited s f now (s.disk.unlink (trimSuffix f deletedSuffix)) s.queue
  | unlinked : hasSuffix f deletedSuffix = true → Visited s f now (s.disk.unlink f) s.queue

inductive Taken (s : State) : Op → State → Prop
  | begin {k key offset} : s.call k = none → isPartialOrDeleted key.name = false →
      Taken s (.begin k key offset) (s.beginCall k key offset)
  | call {o k b u} : o.call = some k → s.call k = some b → CallTaken s k b o u → Taken s o u
  | fire {now} : s.running = true → s.sweep = none →
      Taken s (.fire now) { s with sweep := some ⟨now, [], false⟩ }
  | unlink {ok w f rest disk queue w'} : s.sweep = some w → s.queue = f :: rest →
      Unlinked s w f rest disk queue w' →
      Taken s (.unlink ok) { s with disk := disk, queue := queue, sweep := some w' }
  | release {w} : s.sweep = some w → Taken s .release
      { s with
        queue := s.queue ++ w.failed.map ({ · with inserted := w.now })
        sweep := none }
  | list : s.running = true → Taken s .list { s with scan := some ⟨s.disk.dir.keys, false⟩ }
  | visit {ok now v f todo disk queue scan} : s.scan = some v → v.todo = f :: todo →
      Visited s f now disk queue →
      Taken s (.visit ok now) { s with disk := disk, queue := queue, scan := scan }
  | visited {ok now} : Taken s (.visit ok now) { s with scan := none }
  | shutdown : Taken s .shutdown { s with shutdown := true }
  | stopped : s.shutdown = true → s.sweep = none → s.scan = none →
      Taken s .stopped { s with running := false }

theorem taken_call (taken : (op.call.bind fun id => (s.call id).bind (s.callStep hash op id)) = some s') :
    Taken s op s' := by
  obtain ⟨id, own, rest⟩ := bind_eq_some_iff.1 taken
  obtain ⟨c, found, rest⟩ := bind_eq_some_iff.1 rest
  exact .call own found (callTaken rest)

theorem taken_visit {ok : Bool} {now : Time} {v : Scan} {f : Bytes} {todo : List Bytes}
    (scan : s.scan = some v) (list : v.todo = f :: todo)
    (visits : s.visitStep ok now v.gone f todo = some s') : Taken s (.visit ok now) s' := by
  have queued {next : Option Scan} (enqueued : { s with scan := next }.enqueue f now = some s')
      (visited : ∀ {queue}, s.Enqueued f now queue → Visited s f now s.disk queue) :
      Taken s (.visit ok now) s' := by
    obtain ⟨queue, rfl, added⟩ := enqueue_cases enqueued
    exact .visit scan list (visited added)
  dsimp only [State.visitStep] at visits
  split at visits
  · cases visits
    exact .visit scan list .skip
  split at visits
  next suffix =>
    split at visits
    next key named =>
      split at visits
      · cases visits
        exact .visit scan list .skip
      next missing =>
        refine queued visits (.partly suffix ?_)
        rintro key' member named'
        cases named.symm.trans named'
        exact missing (by simpa using member)
    next unnamed =>
      refine queued visits (.partly suffix ?_)
      intro key' member named'
      cases unnamed.symm.trans named'
  · split at visits
    next suffix =>
      split at visits
      · exact queued visits (.marker suffix)
      · split at visits
        · cases visits
          exact .visit scan list (.unlinked suffix)
        · cases visits
          exact .visit scan list (.target suffix)
    · cases visits
      exact .visit scan list .skip

theorem taken_of_step (taken : s.step hash wellFormed op = some s') : Taken s op s' := by
  cases op with
  | begin =>
    obtain ⟨fresh, ⟨⟩⟩ := ite_none_right_eq_some.1 taken
    have valid := fresh.2
    simp only [validateBaseName, Bool.and_eq_true, Bool.not_eq_true'] at valid
    exact .begin fresh.1 valid.2
  | fire =>
    obtain ⟨ready, ⟨⟩⟩ := ite_none_right_eq_some.1 taken
    simp only [Bool.and_eq_true, isNone_iff_eq_none] at ready
    exact .fire ready.1 ready.2
  | unlink =>
    dsimp only [State.step] at taken
    split at taken
    next sweep queue =>
      obtain ⟨-, ⟨⟩⟩ := ite_none_right_eq_some.1 taken
      unfold State.unlinkStep
      split
      · exact .unlink sweep queue .failed
      split
      next marker => exact .unlink sweep queue (.target (Bool.and_eq_true_iff.1 marker).1)
      · exact .unlink sweep queue .file
    · cases taken
  | release =>
    dsimp only [State.step] at taken
    split at taken
    next w sweep =>
      obtain ⟨-, ⟨⟩⟩ := ite_none_right_eq_some.1 taken
      exact .release sweep
    · cases taken
  | list =>
    obtain ⟨ready, ⟨⟩⟩ := ite_none_right_eq_some.1 taken
    simp only [Bool.and_eq_true] at ready
    exact .list ready.1
  | visit =>
    dsimp only [State.step] at taken
    split at taken
    next v scan =>
      split at taken
      next list => exact taken_visit scan list taken
      · cases taken
        exact .visited
    · cases taken
  | shutdown =>
    cases taken
    exact .shutdown
  | stopped =>
    obtain ⟨ready, ⟨⟩⟩ := ite_none_right_eq_some.1 taken
    simp only [Bool.and_eq_true, isNone_iff_eq_none] at ready
    exact .stopped ready.1.1 ready.1.2 ready.2
  | _ => exact taken_call taken

def State.deletions (s : State) : Queue := s.queue ++ s.sweep.elim [] (·.failed)

def State.Spared (s : State) (file : Bytes) : Prop :=
  ∀ f ∈ s.deletions, f.name ≠ file ∧ f.name ≠ file ++ deletedSuffix

def Proper (s : State) : Op → Prop
  -- the partial file is not queued, and another call on it has its entry after the deleter stopped
  | .begin _ key _ =>
    (s.running = true → s.Spared key.partialName) ∧
    ∀ i d, s.call i = some d → d.file = key.partialName →
      s.running = false ∧ d.key = key ∧ d.pc.Registered
  -- a partial file of another call is opened as it is
  | .openWriter id => ∀ c, s.call id = some c →
      ∀ i d, i ≠ id → s.call i = some d → d.file = c.file →
        ∃ x, s.content c.file = some x ∧ (c.offset = 0 ∨ c.offset = x.length)
  -- a partial file of another call is not renamed
  | .stat id | .rename id => ∀ c, s.call id = some c →
      ∀ i d, i ≠ id → s.call i = some d → d.file ≠ c.file
  -- the scan finds the entry of a call on the file it visits
  | .visit _ _ => ∀ v f todo, s.scan = some v → v.todo = f :: todo → ∀ i d, s.call i = some d →
      (d.file = f → ∃ key ∈ s.incoming, IncomingFileKey.ofPartial f = some key) ∧
        d.file ++ deletedSuffix ≠ f
  | _ => True

end ScaleTail.Taildrop.Manager
