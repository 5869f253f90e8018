import ScaleTail.Proof.Taildrop.Steps
import ScaleTail.Proof.Taildrop.Transfer

/-! # Calls and the deletion queue -/

namespace ScaleTail.Taildrop.Manager
open Go List State

variable {s s' t : State} {op : Op} {id i j : Nat} {c d : Call} {pc : Pc}

structure Tracked (s : State) : Prop where
  pairs : ∀ i j c d, i ≠ j → s.call i = some c → s.call j = some d → c.file = d.file →
    s.running = false ∧ c.key = d.key ∧ ¬ (c.pc.Early ∧ d.pc.Early)
  incoming : ∀ key ∈ s.incoming, ∃ i c, s.call i = some c ∧ c.key = key ∧ c.pc.Registered
  nodup : s.incoming.Nodup
  valid : ∀ i c, s.call i = some c → isPartialOrDeleted c.key.name = false

theorem Tracked.of_calls (tracked : Tracked s) (running : s.running = false → t.running = false)
    (calls : ∀ i d, t.call i = some d →
      ∃ d', s.call i = some d' ∧ d'.key = d.key ∧ (d.pc.Early → d'.pc.Early))
    (incoming : ∀ key ∈ t.incoming, ∃ i c, t.call i = some c ∧ c.key = key ∧ c.pc.Registered)
    (nodup : t.incoming.Nodup) : Tracked t := by
  refine ⟨?_, incoming, nodup, ?_⟩
  · intro i j c₁ c₂ differ first second file
    obtain ⟨d₁, first, key₁, early₁⟩ := calls i c₁ first
    obtain ⟨d₂, second, key₂, early₂⟩ := calls j c₂ second
    simp only [Call.file, ← key₁, ← key₂] at file ⊢
    obtain ⟨stopped, keys, notBoth⟩ := tracked.pairs i j d₁ d₂ differ first second file
    exact ⟨running stopped, keys, fun both => notBoth ⟨early₁ both.1, early₂ both.2⟩⟩
  · intro i d stored
    obtain ⟨d', stored, key, -⟩ := calls i d stored
    rw [← key]
    exact tracked.valid i d' stored

theorem Tracked.advance (tracked : Tracked s) (found : s.call id = some c)
    (running : t.running = s.running) (early : pc.Early → c.pc.Early)
    (entries : ∀ key ∈ t.incoming, key ∈ s.incoming ∨ key = c.key ∧ pc.Registered)
    (kept : c.pc.Registered → pc.Registered ∨ c.key ∉ t.incoming) (nodup : t.incoming.Nodup) :
    Tracked (s.advance t id c pc) := by
  refine tracked.of_calls (fun stopped => running.trans stopped) ?_ ?_ nodup
  · intro i d stored
    rw [call_advance] at stored
    split at stored
    next equal =>
      cases stored
      exact ⟨c, equal ▸ found, rfl, early⟩
    · exact ⟨d, stored, rfl, fun early => early⟩
  · intro key member
    have own (registered : pc.Registered) (equal : key = c.key) :
        ∃ i d, (s.advance t id c pc).call i = some d ∧ d.key = key ∧ d.pc.Registered :=
      ⟨id, _, call_advance.trans (if_pos rfl), equal.symm, registered⟩
    rcases entries key member with old | ⟨equal, registered⟩
    · obtain ⟨i, d, stored, equal, registered⟩ := tracked.incoming key old
      by_cases other : i = id
      · subst other
        cases found.symm.trans stored
        rcases kept registered with registered | gone
        · exact own registered equal.symm
        · exact absurd (equal ▸ member) gone
      · exact ⟨i, d, by rw [call_advance, if_neg other, stored], equal, registered⟩
    · exact own registered equal

theorem Tracked.endCall (tracked : Tracked s) (found : s.call id = some c)
    (calls : t.calls = s.calls) (running : t.running = s.running)
    (entries : ∀ key ∈ t.incoming, key ∈ s.incoming)
    (kept : c.pc.Registered → c.key ∉ t.incoming) (nodup : t.incoming.Nodup) :
    Tracked (t.endCall id) := by
  have calls i : t.call i = s.call i := by rw [call, calls, call]
  refine tracked.of_calls (fun stopped => running.trans stopped) ?_ ?_ nodup
  · intro i d stored
    rw [call_endCall] at stored
    split at stored
    · cases stored
    · exact ⟨d, calls i ▸ stored, rfl, fun early => early⟩
  · intro key member
    obtain ⟨i, d, stored, equal, registered⟩ := tracked.incoming key (entries key member)
    refine ⟨i, d, ?_, equal, registered⟩
    rw [call_endCall, if_neg, calls, stored]
    rintro rfl
    cases found.symm.trans stored
    exact kept registered (equal ▸ member)

section
variable (tracked : Tracked s) (found : s.call id = some c)
include tracked found

theorem Tracked.move (running : t.running = s.running) (incoming : t.incoming = s.incoming)
    (early : pc.Early → c.pc.Early) (kept : c.pc.Registered → pc.Registered) :
    Tracked (s.advance t id c pc) := by
  apply tracked.advance found running early
  · rw [incoming]
    exact fun key member => .inl member
  · exact fun registered => .inl (kept registered)
  · rw [incoming]
    exact tracked.nodup

theorem Tracked.callTaken (taken : CallTaken s id c op s') : Tracked s' := by
  have erased : c.key ∉ s.incoming.erase c.key := tracked.nodup.not_mem_erase
  cases taken with
  | remove at_ | openWriter at_ | refuse at_ =>
    exact tracked.move found rfl rfl (by rw [at_]; exact fun _ => trivial) (by rw [at_]; exact False.elim)
  | openFail opens | openError opens =>
    refine tracked.endCall found rfl rfl (fun _ member => member) ?_ tracked.nodup
    rw [opens]
    exact False.elim
  | register opened new =>
    refine tracked.advance found rfl False.elim ?_ (by rw [opened]; exact False.elim)
      (nodup_cons.2 ⟨new, tracked.nodup⟩)
    intro key member
    rcases mem_cons.1 member with same | old
    · exact .inr ⟨same, trivial⟩
    · exact .inl old
  | write | close | error | place | same | next | abort | rename =>
    exact tracked.move found rfl rfl False.elim fun _ => trivial
  | fail =>
    exact tracked.advance found rfl False.elim (fun _ member => .inl (mem_of_mem_erase member))
      (fun _ => .inr erased) (tracked.nodup.erase _)
  | finish =>
    exact tracked.endCall found rfl rfl (fun _ member => mem_of_mem_erase member)
      (fun _ => erased) (tracked.nodup.erase _)
  | insert pcs =>
    refine tracked.endCall found rfl rfl (fun _ member => member) ?_ tracked.nodup
    rcases pcs with failed | refused
    · rw [failed]
      exact False.elim
    · rw [refused]
      exact False.elim

end

theorem Tracked.begin {key : IncomingFileKey} {offset : Int} (tracked : Tracked s)
    (fresh : s.call id = none) (valid : isPartialOrDeleted key.name = false)
    (others : ∀ i d, s.call i = some d → d.file = key.partialName →
      s.running = false ∧ d.key = key ∧ d.pc.Registered) : Tracked (s.beginCall id key offset) := by
  constructor
  · intro i j c d differ first second file
    rw [call_beginCall] at first second
    split at first
    next same =>
      cases first
      rw [if_neg fun same' => differ (same.trans same'.symm)] at second
      obtain ⟨stopped, keys, registered⟩ := others j d second file.symm
      exact ⟨stopped, keys.symm, fun both => registered.not_early both.2⟩
    next =>
      split at second
      · cases second
        obtain ⟨stopped, keys, registered⟩ := others i c first file
        exact ⟨stopped, keys, fun both => registered.not_early both.1⟩
      · exact tracked.pairs i j c d differ first second file
  · intro key' member
    obtain ⟨i, c, found, rest⟩ := tracked.incoming key' member
    refine ⟨i, c, ?_, rest⟩
    rw [call_beginCall, if_neg, found]
    rintro rfl
    cases fresh.symm.trans found
  · exact tracked.nodup
  · intro i c found
    rw [call_beginCall] at found
    split at found
    · cases found
      exact valid
    · exact tracked.valid i c found

theorem Tracked.step (tracked : Tracked s) (proper : Proper s op) (taken : Taken s op s') : Tracked s' := by
  cases taken with
  | begin fresh valid => exact tracked.begin fresh valid proper.2
  | call _ found taken => exact tracked.callTaken found taken
  | stopped =>
    exact tracked.of_calls (fun _ => rfl) (fun _ d stored => ⟨d, stored, rfl, fun early => early⟩)
      tracked.incoming tracked.nodup
  | _ =>
    exact tracked.of_calls (fun stopped => stopped)
      (fun _ d stored => ⟨d, stored, rfl, fun early => early⟩) tracked.incoming tracked.nodup

structure Guarded (s : State) : Prop where
  stopped : s.running = false → s.shutdown = true ∧ s.sweep = none ∧ s.scan = none
  names : ∀ f ∈ s.deletions, isPartialOrDeleted f.name = true
  spared : s.running = true → ∀ i c, s.call i = some c → s.Spared c.file

theorem partial_ne_deleted {a b : Bytes} (partly : hasSuffix a partialSuffix = true)
    (deleted : hasSuffix b deletedSuffix = true) : a ≠ b := by
  rintro rfl
  rw [hasSuffix, isSuffixOf_iff_suffix] at partly deleted
  have inside := suffix_of_suffix_length_le partly deleted (by decide)
  exact absurd inside (by decide)

theorem file_hasSuffix (c : Call) : hasSuffix c.file partialSuffix = true := partialName_hasSuffix c.key

theorem deleted_hasSuffix (a : Bytes) : hasSuffix (a ++ deletedSuffix) deletedSuffix = true := by
  rw [hasSuffix, isSuffixOf_iff_suffix]
  exact suffix_append ..

theorem Guarded.of_subset (guarded : Guarded s)
    (stopped : t.running = false → t.shutdown = true ∧ t.sweep = none ∧ t.scan = none)
    (running : t.running = true → s.running = true)
    (names : ∀ f ∈ t.deletions, ∃ g ∈ s.deletions, g.name = f.name)
    (calls : ∀ i d, t.call i = some d → ∃ d', s.call i = some d' ∧ d'.file = d.file) : Guarded t := by
  constructor
  · exact stopped
  · intro f member
    obtain ⟨g, member, same⟩ := names f member
    rw [← same]
    exact guarded.names g member
  · intro runs i d found f member
    obtain ⟨d', found, file⟩ := calls i d found
    obtain ⟨g, member, same⟩ := names f member
    rw [← same, ← file]
    exact guarded.spared (running runs) i d' found g member

theorem Guarded.enqueue {name : Bytes} {now : Time} {queue : Queue} (guarded : Guarded s)
    (enqueued : s.Enqueued name now queue) (known : isPartialOrDeleted name = true)
    (same : t.queue = queue) (sweep : t.sweep = s.sweep) (running : t.running = s.running)
    (stopped : t.running = false → t.shutdown = true ∧ t.sweep = none ∧ t.scan = none)
    (calls : ∀ i d, t.call i = some d → ∃ d', s.call i = some d' ∧ d'.file = d.file)
    (free : s.running = true → ∀ i d, t.call i = some d → name ≠ d.file ∧ name ≠ d.file ++ deletedSuffix) :
    Guarded t := by
  have deletions f (member : f ∈ t.deletions) : f ∈ s.deletions ∨ f.name = name := by
    rw [deletions, same, sweep] at member
    rcases enqueued with rfl | ⟨idle, -, rfl⟩
    · exact .inl member
    rw [idle, Option.elim_none, append_nil, mem_append, mem_singleton] at member
    rcases member with old | rfl
    · exact .inl (mem_append_left _ old)
    · exact .inr rfl
  constructor
  · exact stopped
  · intro f member
    rcases deletions f member with old | new
    · exact guarded.names f old
    · rw [new]
      exact known
  · intro runs i d found f member
    rw [running] at runs
    rcases deletions f member with old | new
    · obtain ⟨d', found, file⟩ := calls i d found
      rw [← file]
      exact guarded.spared runs i d' found f old
    · rw [new]
      exact free runs i d found

theorem mem_remove {q : Queue} {f : DeleteFile} {name : Bytes} (member : f ∈ q.remove name) : f ∈ q :=
  mem_of_mem_filter member

theorem Guarded.advance (guarded : Guarded s) (found : s.call id = some c)
    (queue : ∀ f ∈ t.queue, f ∈ s.queue) (running : t.running = s.running)
    (shutdown : t.shutdown = s.shutdown) (sweep : t.sweep = s.sweep) (scan : t.scan = s.scan) :
    Guarded (s.advance t id c pc) := by
  apply guarded.of_subset
  · simpa [running, shutdown, sweep, scan] using guarded.stopped
  · simp [running]
  · intro f member
    refine ⟨f, ?_, rfl⟩
    rw [deletions, queue_advance, sweep_advance, sweep, mem_append] at member
    exact mem_append.2 (member.imp_left (queue f))
  · intro i d stored
    rw [call_advance] at stored
    split at stored
    next same =>
      cases stored
      exact ⟨c, same ▸ found, rfl⟩
    · exact ⟨d, stored, rfl⟩

theorem Guarded.endCall (guarded : Guarded s) (deletions : t.deletions = s.deletions)
    (calls : ∀ i, t.call i = s.call i) (running : t.running = s.running)
    (shutdown : t.shutdown = s.shutdown) (sweep : t.sweep = s.sweep) (scan : t.scan = s.scan) :
    Guarded (t.endCall id) := by
  apply guarded.of_subset
  · have stopped := guarded.stopped
    rw [← running, ← shutdown, ← sweep, ← scan] at stopped
    exact stopped
  · exact fun runs => running ▸ runs
  · intro f member
    exact ⟨f, deletions ▸ member, rfl⟩
  · intro i d stored
    rw [call_endCall] at stored
    split at stored
    · cases stored
    · exact ⟨d, (calls i).symm.trans stored, rfl⟩

theorem Guarded.callTaken (guarded : Guarded s) (tracked : Tracked s) (found : s.call id = some c)
    (taken : CallTaken s id c op s') : Guarded s' := by
  cases taken with
  | remove => exact guarded.advance found (fun _ member => mem_remove member) rfl rfl rfl rfl
  | openFail | openError | finish => exact guarded.endCall rfl (fun _ => rfl) rfl rfl rfl rfl
  | @insert _ _ queue _ enqueued =>
    have kept i d (stored : ({ s with queue := queue }.endCall id).call i = some d) :
        i ≠ id ∧ s.call i = some d := by
      rw [call_endCall] at stored
      split at stored
      · cases stored
      next differ => exact ⟨differ, stored⟩
    refine guarded.enqueue enqueued ?_ rfl rfl rfl guarded.stopped ?_ ?_
    · rw [isPartialOrDeleted, file_hasSuffix, Bool.or_true]
    · intro i d stored
      exact ⟨d, (kept i d stored).2, rfl⟩
    · intro runs i d stored
      obtain ⟨differ, stored⟩ := kept i d stored
      refine ⟨fun equal => ?_, partial_ne_deleted (file_hasSuffix c) (deleted_hasSuffix _)⟩
      -- two calls on one file need a deleter that has stopped
      have stopped := (tracked.pairs id i c d differ.symm found stored equal).1
      cases runs.symm.trans stopped
  | _ => exact guarded.advance found (fun _ member => member) rfl rfl rfl rfl

theorem Guarded.runs (guarded : Guarded s) (busy : s.sweep ≠ none ∨ s.scan ≠ none) : s.running = true := by
  by_contra stops
  have idle := (guarded.stopped (by simpa using stops)).2
  exact busy.elim (· idle.1) (· idle.2)

/-- A step of the deleter leaves the calls as they are. -/
theorem Guarded.deletes (guarded : Guarded s) (runs : s.running = true) (running : t.running = s.running)
    (calls : t.call = s.call) (names : ∀ f ∈ t.deletions, ∃ g ∈ s.deletions, g.name = f.name) :
    Guarded t := by
  refine guarded.of_subset ?_ (fun _ => runs) names fun _ d found => ⟨d, calls ▸ found, rfl⟩
  intro stopped
  cases runs.symm.trans (running.symm.trans stopped)

theorem Guarded.visit {f : Bytes} {now : Time} {disk : Disk} {queue : Queue} {scan : Option Scan}
    (guarded : Guarded s) (runs : s.running = true)
    (own : ∀ i d, s.call i = some d →
      (d.file = f → ∃ key ∈ s.incoming, IncomingFileKey.ofPartial f = some key) ∧
        d.file ++ deletedSuffix ≠ f)
    (visited : Visited s f now disk queue) : Guarded { s with disk, queue, scan } := by
  have enqueues (enqueued : s.Enqueued f now queue) (known : isPartialOrDeleted f = true)
      (free : ∀ i d, s.call i = some d → f ≠ d.file) : Guarded { s with disk, queue, scan } := by
    refine guarded.enqueue enqueued known rfl rfl rfl ?_ (fun _ d found => ⟨d, found, rfl⟩) ?_
    · intro stopped
      cases runs.symm.trans stopped
    · exact fun _ i d found => ⟨free i d found, (own i d found).2.symm⟩
  cases visited with
  | skip | target | unlinked => exact guarded.deletes runs rfl rfl fun g member => ⟨g, member, rfl⟩
  | partly suffix missing enqueued =>
    apply enqueues enqueued
    · rw [isPartialOrDeleted, suffix, Bool.or_true]
    rintro i d found rfl
    obtain ⟨key, member, named⟩ := (own i d found).1 rfl
    exact missing key member named
  | marker suffix enqueued =>
    apply enqueues enqueued
    · rw [isPartialOrDeleted, suffix, Bool.true_or]
    · exact fun i d found => (partial_ne_deleted (file_hasSuffix d) suffix).symm

theorem Guarded.step (guarded : Guarded s) (tracked : Tracked s) (proper : Proper s op)
    (taken : Taken s op s') : Guarded s' := by
  cases taken with
  | @begin =>
    refine { guarded with spared := fun runs i d found => ?_ }
    rw [call_beginCall] at found
    split at found
    · cases found
      exact proper.1 runs
    · exact guarded.spared runs i d found
  | call _ found taken => exact guarded.callTaken tracked found taken
  | fire runs idle =>
    refine guarded.deletes runs rfl rfl fun f member => ⟨f, ?_, rfl⟩
    rw [deletions, idle]
    exact member
  | @unlink _ w f rest _ _ _ sweep queue unlinked =>
    have deletions : s.deletions = f :: rest ++ w.failed := by
      rw [deletions, queue, sweep]
      rfl
    refine guarded.deletes (guarded.runs (by simp [sweep])) rfl rfl fun g member => ⟨g, ?_, rfl⟩
    rw [deletions]
    cases unlinked with
    | failed =>
      simp only [State.deletions, Option.elim_some, mem_append, mem_cons] at member ⊢
      tauto
    | target => rwa [State.deletions, queue] at member
    | file => exact mem_cons_of_mem _ member
  | @release _ sweep =>
    refine guarded.deletes (guarded.runs (by simp [sweep])) rfl rfl fun f member => ?_
    rw [deletions, Option.elim_none, append_nil, mem_append, List.mem_map] at member
    rw [deletions, sweep, Option.elim_some]
    rcases member with old | ⟨g, failed, rfl⟩
    · exact ⟨f, mem_append_left _ old, rfl⟩
    · exact ⟨g, mem_append_right _ failed, rfl⟩
  | list runs => exact guarded.deletes runs rfl rfl fun f member => ⟨f, member, rfl⟩
  | visit scan list visited =>
    exact guarded.visit (guarded.runs (by simp [scan])) (proper _ _ _ scan list) visited
  | visited =>
    refine { guarded with stopped := fun stopped => ?_ }
    exact ⟨(guarded.stopped stopped).1, (guarded.stopped stopped).2.1, rfl⟩
  | shutdown => exact { guarded with stopped := fun stopped => ⟨rfl, (guarded.stopped stopped).2⟩ }
  | stopped shut idle done =>
    refine { guarded with stopped := fun _ => ⟨shut, idle, done⟩, spared := fun runs => ?_ }
    cases runs

end ScaleTail.Taildrop.Manager
