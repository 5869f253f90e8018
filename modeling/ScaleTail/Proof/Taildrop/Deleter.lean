import ScaleTail.Lib.Lookup
import ScaleTail.Lib.Runs
import ScaleTail.Taildrop.Deleter

/-! # Deadlocks of the deleter -/

namespace ScaleTail.Taildrop.Deleter
open Go Lib Option AList Function State

variable {s s' : State} {op : Op} {th : Thread}

namespace State
variable {id : Nat}

@[simp] theorem thread_set (i : Nat) :
    (s.set id th).thread i = if i = id then some th else s.thread i :=
  Lib.lookup_insert_ite

@[simp] theorem thread_finish (i : Nat) :
    (s.finish id).thread i = if i = id then none else s.thread i :=
  Lib.lookup_erase_ite

@[simp] theorem shutdown_set : (s.set id th).shutdown = s.shutdown := rfl
@[simp] theorem shutdown_finish : (s.finish id).shutdown = s.shutdown := rfl

end State

def Thread.Inside : Thread → Prop
  | .holds _ => True
  | .signals => True
  | .leaves _ => True
  | .cancels => True
  | _ => False

inductive Taken (s : State) : Op → State → Prop
  | call {id c} : s.thread id = none → Taken s (.call id c) (s.set id (.wants (.call c)))
  | lock {id w} : s.mu = none → s.thread id = some (.wants w) →
      Taken s (.lock id) ({ s with mu := some id }.set id (.holds w))
  | run {id started now fails w} (out : Outcome) :
      s.thread id = some (.holds w) → s.thread started = none →
      w.body s.queue s.shutdown now fails = out →
      Taken s (.run id started now fails)
        (let s' := { s with queue := out.queue, shutdown := out.shutdown }.set id out.thread
        out.started.elim s' fun due => s'.set started (.waits due))
  | signal {sender receiver due} : s.thread sender = some .signals →
      s.thread receiver = some (.waits due) →
      Taken s (.signal sender receiver) ((s.set sender (.leaves false)).finish receiver)
  | released {id} : s.shutdown = true → s.thread id = some .signals →
      Taken s (.cancelled id) (s.set id (.leaves false))
  | stopped {id due} : s.shutdown = true → s.thread id = some (.waits due) →
      Taken s (.cancelled id) (s.finish id)
  | fire {id now due} : s.thread id = some (.waits due) → due ≤ now →
      Taken s (.fire id now) (s.set id (.wants (.delete now)))
  | unlock {id goroutine} : s.thread id = some (.leaves goroutine) →
      Taken s (.unlock id) ({ s with mu := none }.finish id)
  | unlocked {id} : s.thread id = some .cancels →
      Taken s (.unlock id) ({ s with mu := none }.set id .awaits)
  | waited {id} : s.thread id = some .awaits →
      (s.threads.entries.all fun entry => !entry.2.isGoroutine) = true →
      Taken s (.waited id) (s.finish id)

theorem taken_of_step (taken : s.step op = some s') : Taken s op s' := by
  cases op with
  | call =>
    obtain ⟨fresh, ⟨⟩⟩ := ite_none_right_eq_some.1 taken
    exact .call fresh
  | lock =>
    dsimp only [step] at taken
    split at taken
    next free wants =>
      cases taken
      exact .lock free wants
    · cases taken
  | run =>
    dsimp only [step] at taken
    split at taken
    next holds =>
      obtain ⟨fresh, ⟨⟩⟩ := ite_none_right_eq_some.1 taken
      exact .run _ holds fresh rfl
    · cases taken
  | signal =>
    dsimp only [step] at taken
    split at taken
    next signals waits =>
      cases taken
      exact .signal signals waits
    · cases taken
  | cancelled =>
    obtain ⟨shut, taken⟩ := ite_none_right_eq_some.1 taken
    split at taken
    next signals =>
      cases taken
      exact .released shut signals
    next waits =>
      cases taken
      exact .stopped shut waits
    · cases taken
  | fire =>
    dsimp only [step] at taken
    split at taken
    next waits =>
      obtain ⟨due, ⟨⟩⟩ := ite_none_right_eq_some.1 taken
      exact .fire waits due
    · cases taken
  | unlock =>
    dsimp only [step] at taken
    split at taken
    next leaves =>
      cases taken
      exact .unlock leaves
    next cancels =>
      cases taken
      exact .unlocked cancels
    · cases taken
  | waited =>
    dsimp only [step] at taken
    split at taken
    next awaits =>
      obtain ⟨quiet, ⟨⟩⟩ := ite_none_right_eq_some.1 taken
      exact .waited awaits quiet
    · cases taken

structure Locked (s : State) : Prop where
  mutex : ∀ id th, s.thread id = some th → (th.Inside ↔ s.mu = some id)
  holder : ∀ id, s.mu = some id → s.thread id ≠ none
  cancelled : ∀ id th, s.thread id = some th → th = .cancels ∨ th = .awaits → s.shutdown = true

variable {id : Nat}

section
variable {mu : Option Nat} (locked : Locked s) (others : ∀ i ≠ id, mu = some i ↔ s.mu = some i)
include locked others

theorem Locked.set (inside : th.Inside ↔ mu = some id)
    (shut : th = .cancels ∨ th = .awaits → s.shutdown = true) :
    Locked ({ s with mu := mu }.set id th) := by
  constructor
  · intro i t found
    rw [thread_set] at found
    split at found
    next same =>
      cases found
      rw [same]
      exact inside
    next differ => exact (locked.mutex i t found).trans (others i differ).symm
  · intro i held
    rw [thread_set]
    split
    · exact some_ne_none _
    next differ => exact locked.holder i ((others i differ).1 held)
  · intro i t found
    rw [thread_set] at found
    split at found
    · cases found
      exact shut
    · exact locked.cancelled i t found

theorem Locked.finish (outside : mu ≠ some id) : Locked ({ s with mu := mu }.finish id) := by
  have kept i t (found : ({ s with mu := mu }.finish id).thread i = some t) :
      i ≠ id ∧ s.thread i = some t := by
    rw [thread_finish] at found
    split at found
    · cases found
    next differ => exact ⟨differ, found⟩
  constructor
  · intro i t found
    obtain ⟨differ, found⟩ := kept i t found
    exact (locked.mutex i t found).trans (others i differ).symm
  · intro i held
    have differ : i ≠ id := by
      rintro rfl
      exact outside held
    rw [thread_finish, if_neg differ]
    exact locked.holder i ((others i differ).1 held)
  · intro i t found
    exact locked.cancelled i t (kept i t found).2

end

theorem Section.body_thread (w : Section) (queue : Queue) (shutdown : Bool) (now : Time)
    (fails : Bytes → Bool) :
    (w.body queue shutdown now fails).thread.Inside ∧
      (w.body queue shutdown now fails).thread ≠ .awaits ∧
      ((w.body queue shutdown now fails).thread = .cancels ∨ shutdown = true →
        (w.body queue shutdown now fails).shutdown = true) := by
  cases w with
  | delete => exact ⟨trivial, by simp [body], by simp [body]⟩
  | call c =>
    cases c with
    | shutdown => exact ⟨trivial, by simp [body], by simp [body]⟩
    | insert =>
      dsimp only [body]
      split <;> exact ⟨trivial, by simp, by simp⟩
    | remove =>
      dsimp only [body]
      split
      · split <;> exact ⟨trivial, by simp, by simp⟩
      · exact ⟨trivial, by simp, by simp⟩

variable {w : Section} {now : Time} {fails : Bytes → Bool} {out : Outcome} {ops : List Op}

theorem Locked.run (locked : Locked s) (holds : s.thread id = some (.holds w))
    (does : w.body s.queue s.shutdown now fails = out) :
    Locked ({ s with queue := out.queue, shutdown := out.shutdown }.set id out.thread) := by
  obtain ⟨inside, notAwaits, shut⟩ := w.body_thread s.queue s.shutdown now fails
  rw [does] at inside notAwaits shut
  have base : Locked { s with queue := out.queue, shutdown := out.shutdown } :=
    ⟨locked.mutex, locked.holder, fun i t found past => shut (.inr (locked.cancelled i t found past))⟩
  refine base.set (fun _ _ => .rfl) (iff_of_true inside ((locked.mutex id _ holds).1 trivial)) ?_
  rintro (past | past)
  · exact shut (.inl past)
  · exact absurd past notAwaits

theorem Locked.step (locked : Locked s) (taken : Taken s op s') : Locked s' := by
  cases taken with
  | @call i _ fresh =>
    exact locked.set (fun _ _ => .rfl) (iff_of_false id fun held => locked.holder i held fresh) (by simp)
  | lock free =>
    refine locked.set (fun i differ => ?_) (iff_of_true trivial rfl) (by simp)
    simp [free, differ.symm]
  | @run _ started _ _ _ out holds fresh does =>
    have ran := locked.run holds does
    cases out.started with
    | none => exact ran
    | some =>
      refine ran.set (fun _ _ => .rfl) (iff_of_false id fun held => ?_) (by simp)
      exact locked.holder started held fresh
  | @signal _ _ _ signals waits =>
    refine (locked.set (fun _ _ => .rfl) ?_ (by simp)).finish (fun _ _ => .rfl) ?_
    · exact iff_of_true trivial ((locked.mutex _ _ signals).1 trivial)
    · exact fun held => (locked.mutex _ _ waits).2 held
  | released _ signals =>
    exact locked.set (fun _ _ => .rfl) (iff_of_true trivial ((locked.mutex _ _ signals).1 trivial))
      (by simp)
  | stopped _ waits | waited waits =>
    exact locked.finish (fun _ _ => .rfl) fun held => (locked.mutex _ _ waits).2 held
  | fire waits =>
    exact locked.set (fun _ _ => .rfl) (iff_of_false id fun held => (locked.mutex _ _ waits).2 held)
      (by simp)
  | unlock leaves =>
    have held := (locked.mutex _ _ leaves).1 trivial
    exact locked.finish (fun i differ => by simp [held, differ.symm]) (by simp)
  | unlocked cancels =>
    have held := (locked.mutex _ _ cancels).1 trivial
    have shut := locked.cancelled _ _ cancels (.inl rfl)
    exact locked.set (fun i differ => by simp [held, differ.symm]) (iff_of_false id (by simp))
      fun _ => shut

inductive Role
  | other
  | waits
  | fired
  | signals
  deriving DecidableEq

def Role.Active (r : Role) : Prop := r = .waits ∨ r = .fired

instance (r : Role) : Decidable r.Active := inferInstanceAs (Decidable (_ ∨ _))

def Section.role (w : Section) : Role := if w.isGoroutine then .fired else .other

def Thread.role : Thread → Role
  | .wants w => w.role
  | .holds w => w.role
  | .signals => .signals
  | .waits _ => .waits
  | _ => .other

def State.role (s : State) (id : Nat) : Role := (s.thread id).elim .other Thread.role

@[simp] theorem State.role_set (id : Nat) : (s.set id th).role = update s.role id th.role := by
  funext i
  rw [update_apply, role, thread_set]
  split <;> rfl

@[simp] theorem State.role_finish (id : Nat) : (s.finish id).role = update s.role id .other := by
  funext i
  rw [update_apply, role, thread_finish]
  split <;> rfl

theorem State.role_eq (found : s.thread id = some th) : s.role id = th.role := by
  rw [role, found]
  rfl

theorem State.role_none (missing : s.thread id = none) : s.role id = .other := by
  rw [role, missing]
  rfl

theorem State.role_signals : s.role id = .signals ↔ s.thread id = some .signals := by
  rw [role]
  cases s.thread id with
  | none => simp
  | some th => cases th <;> simp [Thread.role, Section.role] <;> split <;> simp

theorem State.role_waits : s.role id = .waits ↔ ∃ due, s.thread id = some (.waits due) := by
  rw [role]
  cases s.thread id with
  | none => simp
  | some th => cases th <;> simp [Thread.role, Section.role] <;> split <;> simp

structure Moving (role : Nat → Role) (queue : Queue) (shutdown : Bool) : Prop where
  one : ∀ i j, (role i).Active → (role j).Active → i = j
  present : queue ≠ [] → shutdown = false → ∃ i, (role i).Active
  absent : queue = [] → shutdown = false → (∀ i, role i ≠ .signals) → ∀ i, ¬ (role i).Active
  heard : ∀ i, role i = .signals → shutdown = false → queue = [] ∧ ∃ j, role j = .waits

section Moving
variable {role : Nat → Role} {queue queue' : Queue} {shutdown : Bool} {id : Nat} {r : Role}

theorem Moving.idle (moving : Moving role queue shutdown) (active : (role id).Active) (i : Nat) :
    ¬ (update role id .other i).Active := by
  rw [update_apply]
  split
  · decide
  next differ => exact fun other => differ (moving.one i id other active)

section
variable (idle : ∀ i, ¬ (role i).Active) (quiet : ∀ i, role i ≠ .signals)
include idle quiet

theorem moving_idle (empty : shutdown = false → queue = []) : Moving role queue shutdown where
  one i _ active := absurd active (idle i)
  present some shut := absurd (empty shut) some
  absent _ _ _ := idle
  heard i signals := absurd signals (quiet i)

theorem moving_start (some : queue ≠ []) : Moving (update role id .waits) queue shutdown := by
  have only i (active : (update role id .waits i).Active) : i = id := by
    by_contra differ
    rw [update_of_ne differ] at active
    exact idle i active
  constructor
  · intro i j first second
    rw [only i first, only j second]
  · exact fun _ _ => ⟨id, by rw [update_self]; exact .inl rfl⟩
  · exact fun empty => absurd empty some
  · intro i signals
    rw [update_apply] at signals
    split at signals
    · cases signals
    · exact absurd signals (quiet i)

end

theorem Moving.requeue (moving : Moving role queue shutdown) (quiet : ∀ i, role i ≠ .signals)
    (same : shutdown = false → (queue' = [] ↔ queue = [])) : Moving role queue' shutdown where
  one := moving.one
  present some shut := moving.present (fun empty => some ((same shut).2 empty)) shut
  absent empty shut := moving.absent ((same shut).1 empty) shut
  heard i signals := absurd signals (quiet i)

theorem Moving.cancel (moving : Moving role queue shutdown) : Moving role queue true where
  one := moving.one
  present _ shut := absurd shut (by decide)
  absent _ shut := absurd shut (by decide)
  heard _ _ shut := absurd shut (by decide)

theorem update_active {i : Nat} (new : r.Active → (role id).Active)
    (active : (update role id r i).Active) : (role i).Active := by
  rw [update_apply] at active
  split at active
  next same => exact same ▸ new active
  · exact active

theorem Moving.retire (moving : Moving role queue true) (new : ¬ r.Active) :
    Moving (update role id r) queue true where
  one i j first second := moving.one i j (update_active (fun active => absurd active new) first)
    (update_active (fun active => absurd active new) second)
  present _ shut := absurd shut (by decide)
  absent _ shut := absurd shut (by decide)
  heard _ _ shut := absurd shut (by decide)

theorem Moving.tell (moving : Moving role queue shutdown) (idle : role id = .other) (waiting : shutdown = false → ∃ j, role j = .waits) :
    Moving (update role id .signals) [] shutdown := by
  have new (active : Role.signals.Active) : (role id).Active := absurd active (by decide)
  constructor
  · exact fun i j first second => moving.one i j (update_active new first) (update_active new second)
  · exact fun some => absurd rfl some
  · intro empty shut silent
    exact absurd (update_self ..) (silent id)
  · intro i signals shut
    obtain ⟨j, waits⟩ := waiting shut
    refine ⟨rfl, j, ?_⟩
    rw [update_of_ne, waits]
    rintro rfl
    cases idle.symm.trans waits

theorem Moving.fire (moving : Moving role queue shutdown) (waits : role id = .waits)
    (quiet : shutdown = false → ∀ i, role i ≠ .signals) :
    Moving (update role id .fired) queue shutdown := by
  have new : Role.fired.Active → (role id).Active := fun _ => .inl waits
  constructor
  · exact fun i j first second => moving.one i j (update_active new first) (update_active new second)
  · exact fun _ _ => ⟨id, by rw [update_self]; exact .inr rfl⟩
  · intro empty shut
    exact absurd (.inl waits) (moving.absent empty shut (quiet shut) id)
  · intro i signals shut
    rw [update_apply] at signals
    split at signals
    · cases signals
    · exact absurd signals (quiet shut i)

end Moving

theorem Locked.quiet (locked : Locked s) (found : s.thread id = some th)
    (inside : th.Inside) (i : Nat) (differ : i ≠ id) : s.role i ≠ .signals := by
  intro signals
  have held := (locked.mutex id th found).1 inside
  have own := (locked.mutex i _ (role_signals.1 signals)).1 trivial
  exact differ (Option.some.inj (own.symm.trans held))

/-- A `Remove` that empties the queue finds the goroutine at its `select`, and the timer does not fire
before the signal. -/
def Heard (s : State) : Op → Prop
  | .run id .. => ∀ name, s.thread id = some (.holds (.call (.remove name))) →
      s.queue.queued name = true → s.queue.remove name = [] → s.shutdown = false →
        ∃ j due, s.thread j = some (.waits due)
  | .fire .. => s.shutdown = false → ∀ i, s.thread i ≠ some .signals
  | _ => True

def State.Moving (s : State) : Prop := Deleter.Moving s.role s.queue s.shutdown

theorem Locked.silent (locked : Locked s)
    (holds : s.thread id = some (.holds w)) (i : Nat) : s.role i ≠ .signals := by
  by_cases same : i = id
  · rw [same, role_eq holds, Thread.role, Section.role]
    split <;> simp
  · exact locked.quiet holds trivial i same

theorem update_silent {role : Nat → Role} {r : Role} (silent : ∀ i, role i ≠ .signals)
    (new : r ≠ .signals) (i : Nat) : update role id r i ≠ .signals := by
  rw [update_apply]
  split
  · exact new
  · exact silent i

theorem Queue.ne_nil_of_queued {q : Queue} {name : Bytes} (queued : q.queued name = true) : q ≠ [] := by
  rintro rfl
  cases queued

theorem Moving.run {id started : Nat}
    (locked : Locked s) (moving : s.Moving) (heard : Heard s (.run id started now fails))
    (holds : s.thread id = some (.holds w)) (does : w.body s.queue s.shutdown now fails = out) :
    Moving (out.started.elim (update s.role id out.thread.role) fun _ =>
      update (update s.role id out.thread.role) started .waits) out.queue out.shutdown := by
  have silent := locked.silent holds
  have role := role_eq holds
  subst does
  cases w with
  | delete fired =>
    have idle := moving.idle (.inr role)
    have quiet : ∀ i, update s.role id .other i ≠ .signals := update_silent silent (by decide)
    dsimp only [Section.body]
    split
    next shut => exact moving_idle idle quiet (by simp [shut])
    next =>
      cases head : (s.queue.sweep fired fails).head? with
      | none => exact moving_idle idle quiet fun _ => List.head?_eq_none_iff.1 head
      | some => exact moving_start idle quiet fun empty => by simp [empty] at head
  | call c =>
    -- the thread is no goroutine, so its role changes only if it signals
    have same : update s.role id .other = s.role := update_eq_self_iff.2 role.symm
    have stay {queue : Queue} {shutdown : Bool} (moving : Moving s.role queue shutdown) :
        Moving (update s.role id .other) queue shutdown := by rwa [same]
    cases c with
    | shutdown => exact stay moving.cancel
    | insert name =>
      dsimp only [Section.body]
      split
      · exact stay moving
      next new =>
        dsimp only
        split
        next one =>
          have empty : s.queue = [] := by simpa using one
          have shut : s.shutdown = false := by
            simp only [Bool.or_eq_true, not_or, Bool.not_eq_true] at new
            exact new.1
          show Moving (update (update s.role id .other) started .waits) _ _
          rw [same]
          exact moving_start (moving.absent empty shut silent) silent (by simp)
        next more => exact stay (moving.requeue silent fun shut => by simpa using more)
    | remove name =>
      dsimp only [Section.body]
      split
      next queued =>
        show Moving (update s.role id (Thread.role _)) (s.queue.remove name) s.shutdown
        split
        next empty =>
          rw [empty]
          refine moving.tell role fun shut => ?_
          obtain ⟨j, due, waits⟩ := heard name holds queued empty shut
          exact ⟨j, role_waits.2 ⟨due, waits⟩⟩
        next some =>
          exact stay (moving.requeue silent fun _ =>
            iff_of_false some (Queue.ne_nil_of_queued queued))
      · exact stay moving

theorem State.Moving.step (locked : Locked s) (moving : s.Moving) (heard : Heard s op)
    (taken : Taken s op s') : s'.Moving := by
  unfold State.Moving
  cases taken with
  | call fresh =>
    rw [role_set, update_eq_self_iff.2 (role_none fresh).symm]
    exact moving
  | lock _ other | unlocked other =>
    rw [role_set, update_eq_self_iff.2 (role_eq other).symm]
    exact moving
  | run out holds _ does =>
    have next := Deleter.Moving.run locked moving heard holds does
    cases started : out.started with
    | none =>
      rw [started] at next
      rw [Option.elim_none, role_set]
      exact next
    | some =>
      rw [started] at next
      rw [Option.elim_some, role_set, role_set]
      exact next
  | @signal sender receiver due signals waits =>
    rw [role_finish, role_set]
    have waiting := role_waits.2 ⟨due, waits⟩
    have differ : sender ≠ receiver := by
      rintro rfl
      cases signals.symm.trans waits
    show Deleter.Moving (update (update s.role sender .other) receiver .other) _ _
    rw [update_comm differ]
    apply moving_idle
    · intro i active
      exact moving.idle (.inl waiting) i (update_active (fun new => absurd new (by decide)) active)
    · intro i
      rw [update_apply]
      split
      · decide
      next other =>
        rw [update_apply]
        split
        · decide
        · exact locked.quiet signals trivial i other
    · exact fun shut => (moving.heard sender (role_signals.2 signals) shut).1
  | released shut =>
    rw [role_set, shutdown_set, shut]
    exact moving.cancel.retire (by decide)
  | stopped shut =>
    rw [role_finish, shutdown_finish, shut]
    exact moving.cancel.retire (by decide)
  | fire waits =>
    rw [role_set]
    refine Deleter.Moving.fire moving (role_waits.2 ⟨_, waits⟩) fun shut i signals => ?_
    exact heard shut i (role_signals.1 signals)
  | unlock other | waited other =>
    rw [role_finish, update_eq_self_iff.2 (role_eq other).symm]
    exact moving

def Stuck (s : State) : Prop :=
  (∃ id, s.thread id ≠ none) ∧ ∀ op, op.isCall = false → s.step op = none

theorem exists_fresh (s : State) : ∃ id, s.thread id = none := by
  obtain ⟨id, fresh⟩ := Infinite.exists_notMem_finset s.threads.keys.toFinset
  refine ⟨id, lookup_eq_none.2 fun member => fresh ?_⟩
  exact List.mem_toFinset.2 member

theorem step_outside (free : s.mu = none) (found : s.thread id = some th)
    (outside : ¬ th.Inside) (ready : th ≠ .awaits) : ∃ op, op.isCall = false ∧ s.step op ≠ none := by
  cases th with
  | wants => exact ⟨.lock id, rfl, by simp [step, free, found]⟩
  | waits due => exact ⟨.fire id due, rfl, by simp [step, found]⟩
  | awaits => exact absurd rfl ready
  | holds | signals | leaves | cancels => exact absurd trivial outside

theorem not_stuck_free (locked : Locked s) (free : s.mu = none)
    (found : s.thread id = some th) : ∃ op, op.isCall = false ∧ s.step op ≠ none := by
  have outside {i : Nat} {t : Thread} (found : s.thread i = some t) : ¬ t.Inside := by
    rw [locked.mutex i t found, free]
    exact (some_ne_none i).symm
  by_cases awaits : th = .awaits
  case neg => exact step_outside free found (outside found) awaits
  subst awaits
  by_cases quiet : (s.threads.entries.all fun entry => !entry.2.isGoroutine) = true
  · exact ⟨.waited id, rfl, by simp [step, found, quiet]⟩
  -- a goroutine that `Shutdown` waits for
  obtain ⟨⟨i, t⟩, member, goroutine⟩ : ∃ entry ∈ s.threads.entries, entry.2.isGoroutine = true := by
    simpa using quiet
  have found : s.thread i = some t := mem_lookup_iff.2 member
  refine step_outside free found (outside found) ?_
  rintro rfl
  cases goroutine

theorem stuck_iff (locked : Locked s) : Stuck s ↔ s.shutdown = false ∧
    (∃ i, s.thread i = some .signals) ∧ ∀ j due, s.thread j ≠ some (.waits due) := by
  constructor
  · rintro ⟨⟨id, some⟩, stuck⟩
    have disabled op (internal : op.isCall = false) : ¬ s.step op ≠ none :=
      fun enabled => enabled (stuck op internal)
    cases held : s.mu with
    | none =>
      obtain ⟨th, found⟩ := ne_none_iff_exists'.1 some
      obtain ⟨op, internal, enabled⟩ := not_stuck_free locked held found
      exact absurd enabled (disabled op internal)
    | some i =>
      obtain ⟨th, found⟩ := ne_none_iff_exists'.1 (locked.holder i held)
      have inside := (locked.mutex i th found).2 held
      cases th with
      | holds =>
        obtain ⟨started, fresh⟩ := exists_fresh s
        have enabled := disabled (.run i started 0 fun _ => false) rfl
        simp [step, found, fresh] at enabled
      | leaves | cancels =>
        exact absurd (by simp [step, found]) (disabled (.unlock i) rfl)
      | signals =>
        refine ⟨?_, ⟨i, found⟩, fun j due waits => ?_⟩
        · by_contra shut
          have enabled := disabled (.cancelled i) rfl
          simp [step, found, shut] at enabled
        · exact absurd (by simp [step, found, waits]) (disabled (.signal i j) rfl)
      | wants | awaits | waits => exact inside.elim
  · rintro ⟨open_, ⟨i, signals⟩, none⟩
    refine ⟨⟨i, by simp [signals]⟩, fun op internal => ?_⟩
    have held := (locked.mutex i _ signals).1 trivial
    by_contra enabled
    obtain ⟨s', taken⟩ := ne_none_iff_exists'.1 enabled
    have only {j : Nat} {t : Thread} (found : s.thread j = some t) (inside : t.Inside) :
        t = .signals := by
      have same := held.symm.trans ((locked.mutex j t found).1 inside)
      cases same
      exact Option.some.inj (found.symm.trans signals)
    cases taken_of_step taken with
    | call => cases internal
    | lock free => cases held.symm.trans free
    | run _ holds => cases only holds trivial
    | signal _ waits | fire waits => exact none _ _ waits
    | released shut | stopped shut => cases open_.symm.trans shut
    | unlock leaves => cases only leaves trivial
    | unlocked cancels => cases only cancels trivial
    | waited awaits => cases open_.symm.trans (locked.cancelled _ _ awaits (.inr rfl))

theorem locked_of_run (run : Run step .init ops s) : Locked s := by
  induction run with
  | refl =>
    have none i : init.thread i = none := rfl
    exact ⟨by simp [none], by simp [init], by simp [none]⟩
  | snoc _ taken ih => exact ih.step (taken_of_step taken)

theorem moving_of_run (run : Run step .init ops s)
    (heard : Throughout step Heard .init ops) : s.Moving := by
  induction run with
  | refl =>
    have idle i : init.role i = .other := rfl
    exact moving_idle (fun i => by rw [idle]; decide) (fun i => by rw [idle]; decide) fun _ => rfl
  | snoc run taken ih =>
    obtain ⟨all, last⟩ := (throughout_snoc run).1 heard
    exact (ih all).step (locked_of_run run) last (taken_of_step taken)

theorem progress_of_run {ops : List Op} (run : Run State.step .init ops s)
    (heard : Throughout State.step Heard .init ops) :
    ¬ Stuck s ∧
      (∀ i j th th', s.thread i = some th → s.thread j = some th' → th.role.Active → th'.role.Active →
        i = j) ∧
      (s.queue ≠ [] → s.shutdown = false → ∃ i th, s.thread i = some th ∧ th.role.Active) := by
  have moving := moving_of_run run heard
  refine ⟨?_, ?_, ?_⟩
  · rw [stuck_iff (locked_of_run run)]
    rintro ⟨shut, ⟨i, signals⟩, none⟩
    obtain ⟨-, j, waits⟩ := moving.heard i (role_signals.2 signals) shut
    obtain ⟨due, waits⟩ := role_waits.1 waits
    exact none j due waits
  · intro i j th th' first second active active'
    rw [← role_eq first] at active
    rw [← role_eq second] at active'
    exact moving.one i j active active'
  · intro some shut
    obtain ⟨i, active⟩ := moving.present some shut
    cases found : s.thread i with
    | none => simp [role, found, Role.Active] at active
    | some th => exact ⟨i, th, found, role_eq found ▸ active⟩

namespace Sample

def insertFile : List Op := [.call 0 (.insert [97]), .lock 0, .run 0 1 0 (fun _ => false), .unlock 0]

def removeFile : List Op := [.call 2 (.remove [97]), .lock 2, .run 2 3 deleteDelay (fun _ => false)]

def heard (s : State) (op : Op) : Bool :=
  match op with
  | .run id .. =>
    match s.thread id with
    | some (.holds (.call (.remove name))) =>
      !(s.queue.queued name && (s.queue.remove name).isEmpty && !s.shutdown) ||
        s.threads.entries.any fun entry => entry.2.role = .waits
    | _ => true
  | .fire .. => s.shutdown || s.threads.entries.all fun entry => entry.2.role ≠ .signals
  | _ => true

theorem heard_sound (s : State) (op : Op) (checked : heard s op = true) : Heard s op := by
  cases op with
  | run =>
    intro name holds queued empty shut
    simp only [heard, holds, queued, empty, shut, List.isEmpty_nil, Bool.not_false, Bool.and_self,
      Bool.not_true, Bool.false_or, List.any_eq_true, decide_eq_true_eq] at checked
    obtain ⟨⟨j, th⟩, member, waits⟩ := checked
    have found : s.thread j = some th := mem_lookup_iff.2 member
    exact ⟨j, role_waits.1 ((role_eq found).trans waits)⟩
  | fire =>
    intro shut i signals
    simp only [heard, shut, Bool.false_or, List.all_eq_true, decide_eq_true_eq] at checked
    exact checked ⟨i, .signals⟩ (mem_lookup_iff.1 signals) rfl
  | _ => trivial

def withdrawn : List Op := insertFile ++ removeFile ++ [.signal 2 1]

theorem withdrawn_progress : ∃ s, Run State.step .init withdrawn s ∧ s.mu = some 2 ∧ ¬ Stuck s := by
  obtain ⟨s, run, all, held⟩ : ∃ s, Run step .init withdrawn s ∧
      Throughout step Heard .init withdrawn ∧ s.mu = some 2 :=
    throughout_of_found heard_sound (by decide +kernel)
  exact ⟨s, run, held, (progress_of_run run all).1⟩

def overtaken : List Op := insertFile ++ [.fire 1 deleteDelay] ++ removeFile

theorem overtaken_stuck : ∃ s, Run State.step .init overtaken s ∧ Stuck s := by
  obtain ⟨s, run, shut, signals, none⟩ : ∃ s, Run step .init overtaken s ∧ s.shutdown = false ∧
      s.thread 2 = some .signals ∧ ∀ entry ∈ s.threads.entries, entry.2.role ≠ .waits :=
    run_of_found (by decide +kernel)
  refine ⟨s, run, (stuck_iff (locked_of_run run)).2 ⟨shut, ⟨2, signals⟩, fun j due waits => ?_⟩⟩
  exact none ⟨j, .waits due⟩ (mem_lookup_iff.1 waits) rfl

end Sample

end ScaleTail.Taildrop.Deleter
