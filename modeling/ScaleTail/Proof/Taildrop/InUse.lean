import ScaleTail.Lib.Runs
import ScaleTail.Proof.Taildrop.Calls

/-! # Partial files in use -/

namespace ScaleTail.Taildrop.Manager
open Go Lib List Option State Function

variable {H : Type} [DecidableEq H] {hash : Bytes → H} {wellFormed : Bytes → Bool}
  {s s' t : State} {op : Op} {id i j : Nat} {c d : Call} {pc : Pc} {name other : Bytes}

def Keeps (d d' : Disk) (name : Bytes) : Prop :=
  ∀ file, d.dir.lookup name = some file →
    d'.dir.lookup name = some file ∧ (d.data file).length ≤ (d'.data file).length

theorem Keeps.refl (d : Disk) (name : Bytes) : Keeps d d name := fun _ found => ⟨found, le_rfl⟩

theorem keeps_unlink {d : Disk} (differ : name ≠ other) :
    Keeps d (d.unlink other) name := by
  intro file found
  refine ⟨?_, le_rfl⟩
  show (d.dir.erase other).lookup name = _
  rw [Dir.lookup_erase_eq, if_neg differ, found]

theorem keeps_rename {d : Disk} {name old dst : Bytes} (aside : name ≠ dst) (differ : name ≠ old) :
    Keeps d (d.rename old dst) name := by
  intro file found
  exact ⟨(Disk.lookup_rename aside differ).trans found, le_rfl⟩

theorem length_writeAt (content p : Bytes) (pos : Nat) :
    content.length ≤ (writeAt content pos p).length := by
  simp only [writeAt, length_append, length_take, length_replicate, length_drop]
  omega

theorem keeps_write {d : Disk} {name p : Bytes} {i pos : Nat} :
    Keeps d (d.write i (writeAt (d.data i) pos p)) name := by
  intro file found
  refine ⟨found, ?_⟩
  show _ ≤ (update d.data i _ file).length
  rw [update_apply]
  split
  next same =>
    rw [same]
    exact length_writeAt ..
  · exact le_rfl

theorem keeps_open {d : Disk} (differ : name ≠ other) (content : Bytes) :
    Keeps d (d.openFile other).1 name ∧
      Keeps d ((d.openFile other).1.write (d.openFile other).2 content) name := by
  have opened : Keeps d (d.openFile other).1 name := by
    intro file found
    refine ⟨by rw [Disk.lookup_openFile, if_neg differ, found], ?_⟩
    have old := d.placed.bound name file found
    unfold Disk.openFile
    split
    · exact le_rfl
    · show _ ≤ (update d.data d.next [] file).length
      rw [update_of_ne old.ne]
  refine ⟨opened, fun file found => ?_⟩
  obtain ⟨found', length⟩ := opened file found
  refine ⟨found', ?_⟩
  show _ ≤ (update (d.openFile other).1.data (d.openFile other).2 content file).length
  rw [update_of_ne]
  · exact length
  rintro rfl
  have own : (d.openFile other).1.dir.lookup other = some (d.openFile other).2 := by
    rw [Disk.lookup_openFile, if_pos rfl]
  exact differ ((d.openFile other).1.placed.distinct name other _ found' own)

theorem openWriter_same {x : Bytes} {offset : Int} (same : offset = 0 ∨ offset = x.length) :
    ∃ pos, openWriter x offset = some (x, pos) := by
  unfold openWriter
  rcases same with rfl | rfl
  · exact ⟨0, if_neg (not_not.2 rfl)⟩
  split
  · rw [if_neg (by omega), Int.toNat_natCast, take_length]
    exact ⟨_, rfl⟩
  · exact ⟨0, rfl⟩

theorem openFile_same {x : Bytes} (stored : s.content c.file = some x) :
    ∃ file, s.disk.openFile c.file = (s.disk, file) ∧ s.disk.data file = x := by
  obtain ⟨file, found, data⟩ := map_eq_some_iff.1 stored
  exact ⟨file, Disk.openFile_found found, data⟩

theorem reopen_same {x content : Bytes} {pos : Nat} (stored : s.content c.file = some x)
    (same : c.offset = 0 ∨ c.offset = x.length)
    (opened : openWriter ((s.disk.openFile c.file).1.data (s.disk.openFile c.file).2) c.offset =
      some (content, pos)) :
    (s.disk.openFile c.file).1.write (s.disk.openFile c.file).2 content = s.disk := by
  obtain ⟨file, found, rfl⟩ := openFile_same stored
  obtain ⟨pos', unchanged⟩ := openWriter_same same
  rw [found] at opened ⊢
  cases unchanged.symm.trans opened
  rw [Disk.write, update_eq_self]

def Pc.handle : Pc → Option Nat
  | .opened file _ | .copies file _ => some file
  | _ => none

def Pc.dst : Pc → Option Bytes
  | .moves _ dst | .placed dst => some dst
  | _ => none

structure Call.Held (c : Call) (disk : Disk) : Prop where
  handle : ∀ file, c.pc.handle = some file → disk.dir.lookup c.file = some file
  dst : ∀ dst, c.pc.dst = some dst → hasSuffix dst partialSuffix = false

def Held (s : State) : Prop := ∀ i c, s.call i = some c → c.Held s.disk

theorem ne_of_suffix {a b : Bytes} (partly : hasSuffix a partialSuffix = true)
    (proper : hasSuffix b partialSuffix = false) : a ≠ b := by
  rintro rfl
  cases proper.symm.trans partly

theorem eq_append_of_trimSuffix {f file : Bytes} (suffix : hasSuffix f deletedSuffix = true)
    (trimmed : trimSuffix f deletedSuffix = file) : f = file ++ deletedSuffix := by
  rw [hasSuffix] at suffix
  rw [trimSuffix, if_pos suffix] at trimmed
  rw [← trimmed]
  exact (suffix_iff_eq_append.1 (isSuffixOf_iff_suffix.1 suffix)).symm

theorem keeps_callTaken (held : Held s) (proper : Proper s op) (own : op.call = some id)
    (found : s.call id = some c) (taken : CallTaken s id c op s') (other : s.call i = some d)
    (differ : i ≠ id) : Keeps s.disk s'.disk d.file := by
  cases taken with
  | openWriter _ opened =>
    cases own
    by_cases same : d.file = c.file
    · obtain ⟨x, stored, harmless⟩ := proper c found i d differ other same
      rw [disk_advance, reopen_same stored harmless opened]
      exact Keeps.refl _ _
    · exact (keeps_open same _).2
  | openFail =>
    cases own
    by_cases same : d.file = c.file
    · obtain ⟨x, stored, -⟩ := proper c found i d differ other same
      obtain ⟨file, here, -⟩ := openFile_same stored
      show Keeps _ (s.disk.openFile c.file).1 _
      rw [here]
      exact Keeps.refl _ _
    · exact (keeps_open same []).1
  | write => exact keeps_write
  | same =>
    cases own
    exact keeps_unlink (proper c found i d differ other)
  | rename placed =>
    cases own
    have aside := ne_of_suffix (file_hasSuffix d) ((held id c found).dst _ (by rw [placed]; rfl))
    exact keeps_rename aside (proper c found i d differ other)
  | _ => exact Keeps.refl _ _

theorem keeps_step (guarded : Guarded s) (held : Held s) (proper : Proper s op) (taken : Taken s op s')
    (other : s.call i = some d) (differ : op.call ≠ some i) : Keeps s.disk s'.disk d.file := by
  cases taken with
  | call own found taken =>
    exact keeps_callTaken held proper own found taken other fun same => differ (same ▸ own)
  | @unlink _ _ f _ _ _ _ sweep queue unlinked =>
    have runs : s.running = true := by
      by_contra stops
      cases sweep.symm.trans (guarded.stopped (by simpa using stops)).2.1
    have member : f ∈ s.deletions := by
      rw [deletions, queue]
      exact mem_cons_self
    obtain ⟨plain, marked⟩ := guarded.spared runs i d other f member
    cases unlinked with
    | failed => exact Keeps.refl _ _
    | target marker =>
      apply keeps_unlink
      exact fun same => marked (eq_append_of_trimSuffix marker same.symm)
    | file => exact keeps_unlink plain.symm
  | @visit _ _ v f todo _ _ _ scan list visited =>
    have own := proper v f todo scan list i d other
    cases visited with
    | skip | partly | marker => exact Keeps.refl _ _
    | target suffix =>
      apply keeps_unlink
      exact fun same => own.2 (eq_append_of_trimSuffix suffix same.symm).symm
    | unlinked suffix => exact keeps_unlink (partial_ne_deleted (file_hasSuffix d) suffix)
  | _ => exact Keeps.refl _ _

theorem call_of_taken (taken : Taken s op s') (other : op.call ≠ some i) : s'.call i = s.call i := by
  cases taken with
  | begin =>
    rw [call_beginCall, if_neg]
    rintro rfl
    exact other rfl
  | @call _ k _ _ own _ taken =>
    have differ : i ≠ k := fun same => other (same ▸ own)
    cases taken with
    | openFail | openError | finish | insert => exact call_endCall.trans (if_neg differ)
    | _ => rw [call_advance, if_neg differ]
  | _ => rfl

theorem not_partial_of_valid (valid : isPartialOrDeleted c.key.name = false) :
    hasSuffix c.key.name partialSuffix = false := by
  rw [isPartialOrDeleted, Bool.or_eq_false_iff] at valid
  exact valid.2

theorem goes (after : (s.advance t id c pc).call id = some d) :
    d.pc = pc ∧ d.file = c.file ∧ d.key = c.key ∧
    (c.clean = true → t.content c.file = s.content c.file → t.queue = s.queue → d.clean = true) := by
  rw [call_advance, if_pos rfl] at after
  cases after
  exact ⟨rfl, rfl, rfl, fun clean content queue => by simp [clean, content, queue]⟩

theorem ended (after : (t.endCall id).call id = some d) : False := by
  rw [call_endCall, if_pos rfl] at after
  cases after

theorem own_of_callTaken (tracked : Tracked s) (held : Held s) (found : s.call id = some c)
    (taken : CallTaken s id c op s') (after : s'.call id = some d) : d.Held s'.disk := by
  have before := held id c found
  cases taken with
  | openFail | openError | finish | insert => exact (ended after).elim
  | openWriter =>
    obtain ⟨pc, file, -⟩ := goes after
    refine ⟨?_, by simp [pc, Pc.dst]⟩
    rw [pc, file]
    rintro _ ⟨⟩
    show (s.disk.openFile c.file).1.dir.lookup c.file = _
    rw [Disk.lookup_openFile, if_pos rfl]
  | register at_ | write at_ =>
    obtain ⟨pc, file, -⟩ := goes after
    refine ⟨?_, by simp [pc, Pc.dst]⟩
    rw [pc, file]
    rintro _ ⟨⟩
    exact before.handle _ (by rw [at_]; rfl)
  | close =>
    refine ⟨by simp [(goes after).1, Pc.handle], ?_⟩
    rw [(goes after).1]
    rintro _ ⟨⟩
    exact not_partial_of_valid (tracked.valid id c found)
  | place moves =>
    refine ⟨by simp [(goes after).1, Pc.handle], ?_⟩
    rw [(goes after).1]
    rintro _ ⟨⟩
    exact before.dst _ (by rw [moves]; rfl)
  | next moves named =>
    refine ⟨by simp [(goes after).1, Pc.handle], ?_⟩
    rw [(goes after).1]
    rintro _ ⟨⟩
    exact not_hasSuffix_nextFilename named (by decide) (before.dst _ (by rw [moves]; rfl))
  | _ => exact ⟨by simp [(goes after).1, Pc.handle], by simp [(goes after).1, Pc.dst]⟩

theorem Held.step (tracked : Tracked s) (guarded : Guarded s) (held : Held s) (proper : Proper s op)
    (taken : Taken s op s') : Held s' := by
  intro i d after
  by_cases actor : op.call = some i
  · cases taken with
    | begin =>
      cases actor
      rw [call_beginCall, if_pos rfl] at after
      cases after
      exact ⟨by simp [Pc.handle], by simp [Pc.dst]⟩
    | call own found taken =>
      cases own.symm.trans actor
      exact own_of_callTaken tracked held found taken after
    | _ => cases actor
  · have found := (call_of_taken taken actor).symm.trans after
    have keeps := keeps_step guarded held proper taken found actor
    have before := held i d found
    exact ⟨fun file opened => (keeps file (before.handle file opened)).1, before.dst⟩

/-- A call that is or will be refused has changed nothing, and the deleter has stopped. -/
structure Call.Harmless (c : Call) (s : State) : Prop where
  early : c.pc = .starts ∨ c.pc = .opens → c.clean = true
  opened : ∀ file pos, c.pc = .opened file pos → c.key ∈ s.incoming → c.clean = true
  refused : c.pc = .refused → c.clean = true ∧ s.running = false

def Harmless (s : State) : Prop := ∀ i c, s.call i = some c → c.Harmless s

theorem running_of_taken (taken : Taken s op s') (stopped : s.running = false) : s'.running = false := by
  cases taken with
  | call _ _ taken => cases taken <;> exact stopped
  | stopped => rfl
  | _ => exact stopped

theorem Tracked.rival (tracked : Tracked s) (found : s.call id = some c) (early : c.pc.Early)
    (member : c.key ∈ s.incoming) :
    ∃ j e, j ≠ id ∧ s.call j = some e ∧ e.file = c.file ∧ s.running = false := by
  obtain ⟨j, e, stored, same, registered⟩ := tracked.incoming c.key member
  have differ : j ≠ id := by
    rintro rfl
    cases found.symm.trans stored
    exact registered.not_early early
  have file : e.file = c.file := congrArg IncomingFileKey.partialName same
  exact ⟨j, e, differ, stored, file, (tracked.pairs j id e c differ stored found file).1⟩

theorem incoming_of_taken (tracked : Tracked s) (taken : Taken s op s') (other : op.call ≠ some i)
    (found : s.call i = some d) (early : d.pc.Early) (member : d.key ∈ s'.incoming) :
    d.key ∈ s.incoming := by
  cases taken with
  | @call _ k b _ own stored taken =>
    cases taken with
    | register opened =>
      rcases mem_cons.1 member with same | old
      · have differ : i ≠ k := fun same => other (same ▸ own)
        have file : d.file = b.file := congrArg IncomingFileKey.partialName same
        have early' : b.pc.Early := by
          rw [opened]
          trivial
        exact absurd ⟨early, early'⟩ (tracked.pairs i k d b differ found stored file).2.2
      · exact old
    | fail | finish => exact mem_of_mem_erase member
    | _ => exact member
  | _ => exact member

theorem remove_eq {q : Queue} {name : Bytes} (names : ∀ f ∈ q, isPartialOrDeleted f.name = true)
    (valid : isPartialOrDeleted name = false) : q.remove name = q := by
  apply filter_eq_self.2
  intro f member
  rw [bne_iff_ne]
  rintro rfl
  cases valid.symm.trans (names f member)

section
variable (tracked : Tracked s) (guarded : Guarded s) (harmless : Harmless s) (proper : Proper s op)
include tracked guarded harmless proper

theorem clean_of_callTaken (own : op.call = some id) (found : s.call id = some c)
    (taken : CallTaken s id c op s') (after : s'.call id = some d) : d.Harmless s' := by
  have before := harmless id c found
  cases taken with
  | openFail | openError | finish | insert => exact (ended after).elim
  | remove starts =>
    obtain ⟨pc, -, -, clean⟩ := goes after
    refine ⟨fun _ => clean (before.early (.inl starts)) rfl ?_, by simp [pc], by simp [pc]⟩
    have names f (member : f ∈ s.queue) : isPartialOrDeleted f.name = true :=
      guarded.names f (mem_append_left _ member)
    exact remove_eq names (tracked.valid id c found)
  | openWriter opens opened =>
    cases own
    obtain ⟨pc, -, key, clean⟩ := goes after
    refine ⟨by simp [pc], fun file' pos' _ member => ?_, by simp [pc]⟩
    -- the file belongs to another call, so it is opened as it is
    have early : c.pc.Early := by
      rw [opens]
      trivial
    obtain ⟨j, e, differ, stored, file, -⟩ := tracked.rival found early (key ▸ member)
    obtain ⟨x, exists_, same⟩ := proper c found j e differ stored file
    refine clean (before.early (.inr opens)) ?_ rfl
    rw [State.content, reopen_same exists_ same opened, State.content]
  | refuse opened member =>
    obtain ⟨pc, -, -, clean⟩ := goes after
    have early : c.pc.Early := by
      rw [opened]
      trivial
    obtain ⟨-, -, -, -, -, stopped⟩ := tracked.rival found early member
    refine ⟨by simp [pc], by simp [pc], fun _ => ⟨clean ?_ rfl rfl, stopped⟩⟩
    exact before.opened _ _ opened member
  | _ =>
    obtain ⟨pc, -, -, -⟩ := goes after
    exact ⟨by simp [pc], by simp [pc], by simp [pc]⟩

theorem Harmless.step (taken : Taken s op s') : Harmless s' := by
  intro i d after
  by_cases actor : op.call = some i
  · cases taken with
    | begin =>
      cases actor
      rw [call_beginCall, if_pos rfl] at after
      cases after
      exact ⟨fun _ => rfl, by simp, by simp⟩
    | call own found taken =>
      cases own.symm.trans actor
      exact clean_of_callTaken tracked guarded harmless proper own found taken after
    | _ => cases actor
  · have found := (call_of_taken taken actor).symm.trans after
    have before := harmless i d found
    refine ⟨before.early, fun file pos pc member => before.opened file pos pc ?_, fun pc => ?_⟩
    · exact incoming_of_taken tracked taken actor found (by rw [pc]; trivial) member
    · exact (before.refused pc).imp_right (running_of_taken taken)

end

structure Safe (s : State) : Prop where
  tracked : Tracked s
  guarded : Guarded s
  held : Held s
  harmless : Harmless s

theorem safe_start (disk : Disk) : Safe (start disk) := by
  have none i : (start disk).call i = none := rfl
  have incoming : (start disk).incoming = [] := rfl
  have running : (start disk).running = true := rfl
  have deletions : (start disk).deletions = [] := rfl
  constructor
  · constructor <;> simp [none, incoming]
  · constructor <;> simp [none, running, deletions]
  · simp [Held, none]
  · simp [Harmless, none]

theorem Safe.step (safe : Safe s) (proper : Proper s op) (taken : Taken s op s') : Safe s' where
  tracked := safe.tracked.step proper taken
  guarded := safe.guarded.step safe.tracked proper taken
  held := safe.held.step safe.tracked safe.guarded proper taken
  harmless := safe.harmless.step safe.tracked safe.guarded proper taken

/-- No call loses its partial file or a part of it by a step of another, and a call that is refused has
left its partial file and the deletion queue as they were. -/
structure Undisturbed (s : State) (op : Op) (s' : State) : Prop where
  kept : ∀ i c x, s.call i = some c → op.call ≠ some i → s.content c.file = some x →
    ∃ y, s'.content c.file = some y ∧ x.length ≤ y.length
  refused : ∀ i now c, op = .insert i now → s.call i = some c → c.pc = .refused →
    c.clean = true ∧ s'.content c.file = s.content c.file ∧ s'.queue = s.queue

theorem Safe.undisturbed (safe : Safe s) (proper : Proper s op) (taken : Taken s op s') :
    Undisturbed s op s' := by
  constructor
  · intro i c x found other stored
    obtain ⟨file, named, data⟩ := map_eq_some_iff.1 stored
    obtain ⟨named', length⟩ := keeps_step safe.guarded safe.held proper taken found other file named
    exact ⟨_, Disk.content_eq named', data ▸ length⟩
  · rintro i now c rfl found pc
    obtain ⟨clean, stopped⟩ := (safe.harmless i c found).refused pc
    refine ⟨clean, ?_⟩
    cases taken with
    | call own stored taken =>
      cases own
      cases found.symm.trans stored
      cases taken with
      | insert _ enqueued =>
        rcases enqueued with same | ⟨-, running, -⟩
        · exact ⟨rfl, same⟩
        · cases (safe.guarded.stopped stopped).1.symm.trans running
      | error registered =>
        rw [pc] at registered
        exact registered.elim

theorem undisturbed_of_run (hash : Bytes → H) (wellFormed : Bytes → Bool) {disk : Disk} {ops : List Op}
    (run : Run (State.step hash wellFormed) (start disk) ops s)
    (proper : Throughout (State.step hash wellFormed) Proper (start disk) ops) :
    Throughout (State.step hash wellFormed)
      (fun t op => ∀ t', t.step hash wellFormed op = some t' → Undisturbed t op t') (start disk) ops := by
  have safe : Safe s ∧ Throughout (State.step hash wellFormed)
      (fun t op => ∀ t', t.step hash wellFormed op = some t' → Undisturbed t op t') (start disk) ops := by
    induction run with
    | refl => exact ⟨safe_start disk, throughout_nil⟩
    | snoc run taken ih =>
      obtain ⟨all, last⟩ := (throughout_snoc run).1 proper
      obtain ⟨safe, undisturbed⟩ := ih all
      refine ⟨safe.step last (taken_of_step taken), (throughout_snoc run).2 ⟨undisturbed, ?_⟩⟩
      exact fun t' next => safe.undisturbed last (taken_of_step next)
  exact safe.2

namespace Sample

def registered : Pc → Bool
  | .copies .. | .moves .. | .placed _ | .done _ => true
  | _ => false

def proper (s : State) : Op → Bool
  | .begin _ key _ =>
    (!s.running || s.deletions.all fun f =>
      f.name ≠ key.partialName ∧ f.name ≠ key.partialName ++ deletedSuffix) &&
    s.calls.entries.all fun e =>
      e.2.file ≠ key.partialName ∨ s.running = false ∧ e.2.key = key ∧ registered e.2.pc
  | .openWriter id =>
    (s.call id).all fun c => s.calls.entries.all fun e => e.1 = id ∨ e.2.file ≠ c.file ∨
      ((s.content c.file).any fun x => c.offset = 0 ∨ c.offset = x.length)
  | .stat _ | .rename _ | .visit .. => false
  | _ => true

theorem mem_entries (found : s.call i = some c) : ⟨i, c⟩ ∈ s.calls.entries := AList.mem_lookup_iff.1 found

theorem proper_sound (s : State) (op : Op) (checked : proper s op = true) : Proper s op := by
  cases op with
  | begin =>
    simp only [proper, Bool.and_eq_true, Bool.or_eq_true, Bool.not_eq_true', List.all_eq_true,
      decide_eq_true_eq] at checked
    refine ⟨fun runs f member => ?_, fun i d found same => ?_⟩
    · rcases checked.1 with stopped | free
      · cases runs.symm.trans stopped
      · exact free f member
    · rcases checked.2 _ (mem_entries found) with differ | ⟨stopped, keys, known⟩
      · exact absurd same differ
      · refine ⟨stopped, keys, ?_⟩
        generalize d.pc = pc at known
        cases pc <;> trivial
  | openWriter =>
    intro c found i d differ stored same
    simp only [proper, found, all_some, List.all_eq_true, decide_eq_true_eq] at checked
    rcases checked _ (mem_entries stored) with equal | other | harmless
    · exact absurd equal differ
    · exact absurd same other
    · obtain ⟨x, found, offset⟩ := Option.any_eq_true .. |>.1 harmless
      exact ⟨x, found, by simpa using offset⟩
  | stat | rename | visit => cases checked
  | _ => trivial

abbrev step : State → Op → Option State := State.step (fun b : Bytes => b) fun _ => true

def key : IncomingFileKey := ⟨bytes "n1", bytes "foo"⟩

def copying (id : Nat) (offset : Int) : List Op :=
  [.begin id key offset, .remove id, .openWriter id, .register id]

def second : List Op :=
  copying 0 0 ++ [.write 0 [1, 2], .shutdown, .stopped] ++ copying 1 0 ++ [.insert 1 0]

theorem second_undisturbed : ∃ s, Run step (start .empty) second s ∧
    s.content key.partialName = some [1, 2] ∧
    Throughout step (fun t op => ∀ t', step t op = some t' → Undisturbed t op t') (start .empty) second := by
  obtain ⟨s, run, all, content⟩ : ∃ s, Run step (start .empty) second s ∧
      Throughout step Proper (start .empty) second ∧ s.content key.partialName = some [1, 2] :=
    throughout_of_found proper_sound (by decide +kernel)
  exact ⟨s, run, content, undisturbed_of_run _ _ run all⟩

def resumed : List Op :=
  copying 0 0 ++ [.write 0 [1], .error 0, .finish 0, .insert 0 0] ++ copying 1 1 ++ [.fire deleteDelay]

def concurrent : List Op := copying 0 0 ++ [.write 0 [1, 2], .begin 1 key 1, .remove 1]

def refusal : List Op := concurrent ++ [.openWriter 1, .register 1]

/-- The partial file of a resumed transfer is deleted, the one of a transfer in progress is cut by a
second call, and this call, when it is refused, queues the file for deletion. -/
theorem disturbed :
    (∃ s s', Run step (start .empty) resumed s ∧ step s (.unlink true) = some s' ∧
      ¬ Undisturbed s (.unlink true) s') ∧
    (∃ s s', Run step (start .empty) concurrent s ∧ step s (.openWriter 1) = some s' ∧
      ¬ Undisturbed s (.openWriter 1) s') ∧
    ∃ s s', Run step (start .empty) refusal s ∧ step s (.insert 1 0) = some s' ∧
      ¬ Undisturbed s (.insert 1 0) s' := by
  refine ⟨?_, ?_, ?_⟩
  · obtain ⟨s, run, c, found, s', next, file, before, after⟩ : ∃ s, Run step (start .empty) resumed s ∧
        ∃ c ∈ s.call 1, ∃ s' ∈ step s (.unlink true), c.file = key.partialName ∧
          s.content key.partialName = some [1] ∧ s'.content key.partialName = none :=
      run_of_found (by decide +kernel)
    refine ⟨s, s', run, next, fun undisturbed => ?_⟩
    obtain ⟨y, kept, -⟩ := undisturbed.kept 1 c [1] found (by decide) (file ▸ before)
    rw [file, after] at kept
    cases kept
  · obtain ⟨s, run, c, found, s', next, file, before, after⟩ : ∃ s, Run step (start .empty) concurrent s ∧
        ∃ c ∈ s.call 0, ∃ s' ∈ step s (.openWriter 1), c.file = key.partialName ∧
          s.content key.partialName = some [1, 2] ∧ s'.content key.partialName = some [1] :=
      run_of_found (by decide +kernel)
    refine ⟨s, s', run, next, fun undisturbed => ?_⟩
    obtain ⟨y, kept, length⟩ := undisturbed.kept 0 c [1, 2] found (by decide) (file ▸ before)
    rw [file, after] at kept
    cases kept
    exact absurd length (by decide)
  · obtain ⟨s, run, c, found, s', next, pc, before, after⟩ : ∃ s, Run step (start .empty) refusal s ∧
        ∃ c ∈ s.call 1, ∃ s' ∈ step s (.insert 1 0), c.pc = .refused ∧ s.queue = [] ∧
          s'.queue = [⟨key.partialName, 0⟩] := run_of_found (by decide +kernel)
    refine ⟨s, s', run, next, fun undisturbed => ?_⟩
    have same := (undisturbed.refused 1 0 c rfl found pc).2.2
    rw [before, after] at same
    cases same

end Sample

end ScaleTail.Taildrop.Manager
