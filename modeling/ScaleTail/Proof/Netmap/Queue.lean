import ScaleTail.Lib.Runs
import ScaleTail.Netmap.Queue

/-! # The change queue of a map session -/

namespace ScaleTail.Netmap
open Lib MapSession List
open Option (any_some bind_eq_some_iff map_some some)

inductive MapSession.Moves (ms : MapSession) : Step → MapSession → Prop
  | spawn (call : Call) : Moves ms (.spawn call) { ms with calls := ms.calls ++ [⟨call, .start⟩] }
  | lock {i : Nat} {call : Call} (at_ : ms.calls[i]? = some ⟨call, .start⟩)
      (sends : call.change.isSome) (free : ms.cqmu = none) :
      Moves ms (.lock i) { ms.move i .locked with cqmu := some (.call i) }
  | cancel {i : Nat} (at_ : ms.calls[i]? = some ⟨.close, .start⟩) :
      Moves ms (.call i) { ms.move i .waiting with cancelled := true }
  | check {i : Nat} {call : Call} (at_ : ms.calls[i]? = some ⟨call, .locked⟩) :
      Moves ms (.call i) (ms.move i (if ms.changeQueueClosed then .refused else .checked))
  | send {i : Nat} {call : Call} (at_ : ms.calls[i]? = some ⟨call, .checked⟩) :
      Moves ms (.call i) (ms.move i (if ms.queueClosed then .panicked else .sending))
  | returnNil {i : Nat} {call : Call} (at_ : ms.calls[i]? = some ⟨call, .sent⟩) :
      Moves ms (.call i) { ms.move i (.returned none) with cqmu := none }
  | refuse {i : Nat} {call : Call} (at_ : ms.calls[i]? = some ⟨call, .refused⟩) :
      Moves ms (.call i) { ms.move i .waiting with cqmu := none }
  | wait {i : Nat} {call : Call} (at_ : ms.calls[i]? = some ⟨call, .waiting⟩)
      (gone : ms.loop = .exited) : Moves ms (.call i) (ms.move i (.returned call.errWaited))
  | receive {i : Nat} {call : Call} {change : ResponseWithSource} (inner : Bool)
      (at_ : ms.calls[i]? = some ⟨call, .sending⟩) (sends : call.change = some change)
      (ready : ms.loop = if inner then .draining else .select) :
      Moves ms (.receive i) { ms.move i .sent with loop := .handling change inner }
  | handled {change : ResponseWithSource} {inner : Bool} (now : Time)
      (busy : ms.loop = .handling change inner) :
      Moves ms (.handled now)
        { ms with peers := handle ms.peers change now, loop := if inner then .draining else .select }
  | done (ready : ms.loop = .select) (cancelled : ms.cancelled = true) :
      Moves ms .done { ms with loop := .locking }
  | loopLock (ready : ms.loop = .locking) (free : ms.cqmu = none) :
      Moves ms .loop { ms with cqmu := some .loop, loop := .setClosed }
  | setClosed (ready : ms.loop = .setClosed) :
      Moves ms .loop { ms with changeQueueClosed := true, loop := .unlocking }
  | loopUnlock (ready : ms.loop = .unlocking) : Moves ms .loop { ms with cqmu := none, loop := .draining }
  | default (ready : ms.loop = .draining) (empty : ¬ ∃ g ∈ ms.calls, g.pc = .sending) :
      Moves ms .loop { ms with loop := .emptied }
  | close (ready : ms.loop = .emptied) :
      Moves ms .loop { ms with queueClosed := true, calls := ms.calls.map wake, loop := .leaving }
  | exit (ready : ms.loop = .leaving) : Moves ms .loop { ms with loop := .exited }

variable {ms ms' : MapSession} {op : Step} {i : Nat} {g : Goroutine} {ops : List Step}

theorem moves_lock (at_ : ms.calls[i]? = some g)
    (taken : ms.lockStep i g = some ms') : ms.Moves (.lock i) ms' := by
  obtain ⟨call, pc⟩ := g
  cases pc with
  | start =>
    cases call with
    | close => cases taken
    | updateDiscoForNode | handleNonKeepAliveMapResponse =>
      obtain ⟨free, same⟩ := Option.ite_none_right_eq_some.1 taken
      cases same
      exact .lock at_ rfl free
  | _ => cases call <;> cases taken

theorem moves_call (at_ : ms.calls[i]? = some g)
    (taken : ms.callStep i g = some ms') : ms.Moves (.call i) ms' := by
  obtain ⟨call, pc⟩ := g
  cases pc with
  | start =>
    cases call with
    | close =>
      cases taken
      exact .cancel at_
    | _ => cases taken
  | locked =>
    cases taken
    exact .check at_
  | checked =>
    cases taken
    exact .send at_
  | sent =>
    cases taken
    exact .returnNil at_
  | refused =>
    cases taken
    exact .refuse at_
  | waiting =>
    unfold callStep at taken
    dsimp only at taken
    split at taken
    next gone =>
      cases taken
      exact .wait at_ gone
    · cases taken
  | _ => cases taken

theorem moves_receive (at_ : ms.calls[i]? = some g)
    (taken : ms.receiveStep i g = some ms') : ms.Moves (.receive i) ms' := by
  obtain ⟨call, pc⟩ := g
  unfold receiveStep at taken
  split at taken
  next sending sends ready =>
    cases taken
    cases sending
    exact .receive false at_ sends ready
  next sending sends ready =>
    cases taken
    cases sending
    exact .receive true at_ sends ready
  · cases taken

theorem moves_loop (taken : ms.loopStep = some ms') : ms.Moves .loop ms' := by
  unfold loopStep at taken
  split at taken
  · cases taken
  · cases taken
  · cases taken
  next ready =>
    obtain ⟨free, same⟩ := Option.ite_none_right_eq_some.1 taken
    cases same
    exact .loopLock ready free
  next ready =>
    cases taken
    exact .setClosed ready
  next ready =>
    cases taken
    exact .loopUnlock ready
  next ready =>
    obtain ⟨empty, same⟩ := Option.ite_none_left_eq_some.1 taken
    cases same
    exact .default ready empty
  next ready =>
    cases taken
    exact .close ready
  next ready =>
    cases taken
    exact .exit ready

theorem moves_of_step (taken : ms.step op = some ms') : ms.Moves op ms' := by
  cases op with
  | spawn call =>
    cases taken
    exact .spawn call
  | lock =>
    obtain ⟨g, at_, taken⟩ := bind_eq_some_iff.1 taken
    exact moves_lock at_ taken
  | call =>
    obtain ⟨g, at_, taken⟩ := bind_eq_some_iff.1 taken
    exact moves_call at_ taken
  | receive =>
    obtain ⟨g, at_, taken⟩ := bind_eq_some_iff.1 taken
    exact moves_receive at_ taken
  | handled now =>
    simp only [step, handledStep] at taken
    split at taken
    next busy =>
      cases taken
      exact .handled now busy
    · cases taken
  | done =>
    simp only [step] at taken
    split at taken
    next ready cancelled =>
      cases taken
      exact .done ready cancelled
    · cases taken
  | loop => exact moves_loop taken

theorem MapSession.Moves.step (moves : ms.Moves op ms') : ms.step op = some ms' := by
  cases moves with
  | @lock _ call at_ sends free =>
    cases call with
    | close => cases sends
    | _ => simp [MapSession.step, at_, lockStep, free]
  | receive inner at_ sends ready =>
    cases inner <;> simp [MapSession.step, at_, receiveStep, sends, ready]
  | default ready empty =>
    simp only [MapSession.step, loopStep, ready]
    rw [if_neg empty]
  | done ready cancelled => simp [MapSession.step, ready, cancelled]
  | handled _ busy => simp [MapSession.step, handledStep, busy]
  | loopLock ready free => simp [MapSession.step, loopStep, ready, free]
  | setClosed ready | loopUnlock ready | close ready | exit ready =>
    simp [MapSession.step, loopStep, ready]
  | wait at_ gone => simp [MapSession.step, at_, callStep, gone]
  | cancel at_ | check at_ | send at_ | returnNil at_ | refuse at_ =>
    simp [MapSession.step, at_, callStep]
  | spawn => rfl

def CallPC.holds : CallPC → Bool
  | .locked | .checked | .sending | .sent | .refused => true
  | _ => false

def Goroutine.Fits (cqmu : Option Holder) (closed cancelled : Bool) (i : Nat) (g : Goroutine) : Prop :=
  (g.pc.holds → cqmu = some (.call i) ∧ g.call.change.isSome) ∧
  match g.pc with
  | .start | .locked | .returned _ => True
  | .checked | .sending | .sent => closed = false
  | .refused => closed = true
  | .waiting => if g.call.change.isSome then closed = true else cancelled = true
  | .panicked => False

namespace LoopPC

def owns : LoopPC → Bool
  | .setClosed | .unlocking => true
  | _ => false

def closed : LoopPC → Bool
  | .unlocking | .draining | .handling _ true | .emptied | .leaving | .exited => true
  | _ => false

def queueClosed : LoopPC → Bool
  | .leaving | .exited => true
  | _ => false

end LoopPC

structure MapSession.Sound (ms : MapSession) : Prop where
  calls : ∀ (i : Nat) (g : Goroutine), ms.calls[i]? = some g →
    g.Fits ms.cqmu ms.changeQueueClosed ms.cancelled i
  held : ∀ i, ms.cqmu = some (.call i) → ∃ g, ms.calls[i]? = some g ∧ g.pc.holds
  owns : ms.cqmu = some .loop ↔ ms.loop.owns
  closed : ms.changeQueueClosed = ms.loop.closed
  queueClosed : ms.queueClosed = ms.loop.queueClosed

theorem newMapSession_sound : newMapSession.Sound where
  calls := by simp [newMapSession]
  held := by simp [newMapSession]
  owns := by simp [newMapSession, LoopPC.owns]
  closed := rfl
  queueClosed := rfl

theorem Goroutine.Fits.frame {cqmu cqmu' : Option Holder} {closed closed' cancelled cancelled' : Bool}
    (fits : g.Fits cqmu closed cancelled i)
    (other : cqmu' = cqmu ∧ closed' = closed ∨ cqmu ≠ some (.call i))
    (closes : closed = true → closed' = true) (cancels : cancelled = true → cancelled' = true) :
    g.Fits cqmu' closed' cancelled' i := by
  obtain ⟨call, pc⟩ := g
  obtain ⟨lock, fits⟩ := fits
  rcases other with ⟨rfl, rfl⟩ | other
  · refine ⟨lock, ?_⟩
    cases pc with
    | waiting =>
      cases sends : call.change.isSome with
      | true => simpa [sends] using fits
      | false => simpa [sends] using cancels (by simpa [sends] using fits)
    | _ => exact fits
  · cases pc with
    | locked | checked | sending | sent | refused => exact absurd (lock rfl).1 other
    | start | returned => exact ⟨nofun, trivial⟩
    | waiting =>
      refine ⟨nofun, ?_⟩
      cases sends : call.change.isSome with
      | true => simpa [sends] using closes (by simpa [sends] using fits)
      | false => simpa [sends] using cancels (by simpa [sends] using fits)
    | panicked => exact fits.elim

theorem getElem?_move (ms : MapSession) (i j : Nat) (pc : CallPC) :
    (ms.move i pc).calls[j]? = if i = j then ms.calls[j]?.map ({ · with pc }) else ms.calls[j]? := by
  simp only [move, getElem?_modify]
  split <;> simp

section Move
variable {g : Goroutine} {pc : CallPC} {cqmu : Option Holder} {closed cancelled : Bool}

theorem MapSession.Sound.calls_move (sound : ms.Sound) (at_ : ms.calls[i]? = some g)
    (moved : Goroutine.Fits cqmu closed cancelled i { g with pc })
    (others : cqmu = ms.cqmu ∧ closed = ms.changeQueueClosed ∨ ∀ j ≠ i, ms.cqmu ≠ some (.call j))
    (closes : ms.changeQueueClosed = true → closed = true)
    (cancels : ms.cancelled = true → cancelled = true) (j : Nat) (h : Goroutine)
    (found : (ms.move i pc).calls[j]? = some h) : h.Fits cqmu closed cancelled j := by
  rw [getElem?_move] at found
  by_cases same : i = j
  · subst same
    rw [if_pos rfl, at_] at found
    cases found
    exact moved
  · rw [if_neg same] at found
    exact (sound.calls j h found).frame (others.imp_right fun free => free j (Ne.symm same)) closes
      cancels

theorem MapSession.Sound.held_move (sound : ms.Sound) (at_ : ms.calls[i]? = some g)
    (keeps : g.pc.holds → pc.holds) (owner : cqmu = ms.cqmu ∨ cqmu = some (.call i) ∧ pc.holds)
    (j : Nat) (lock : cqmu = some (.call j)) : ∃ h, (ms.move i pc).calls[j]? = some h ∧ h.pc.holds := by
  by_cases same : i = j
  · subst same
    refine ⟨{ g with pc }, by rw [getElem?_move, if_pos rfl, at_, map_some], ?_⟩
    rcases owner with rfl | ⟨-, holds⟩
    · obtain ⟨h, found, holds⟩ := sound.held i lock
      cases at_.symm.trans found
      exact keeps holds
    · exact holds
  · rcases owner with rfl | ⟨rfl, -⟩
    · obtain ⟨h, found, holds⟩ := sound.held j lock
      exact ⟨h, by rw [getElem?_move, if_neg same, found], holds⟩
    · cases lock
      exact absurd rfl same

end Move

theorem MapSession.Sound.map_wake (sound : ms.Sound) (closed : ms.changeQueueClosed = true) :
    ms.calls.map wake = ms.calls := by
  conv_rhs => rw [← List.map_id ms.calls]
  apply map_congr_left
  intro g mem
  obtain ⟨i, found⟩ := mem_iff_getElem?.1 mem
  have fits := (sound.calls i g found).2
  rw [wake, if_neg, id]
  intro sending
  rw [sending, closed] at fits
  cases fits

theorem getElem?_spawn {l : List Goroutine} {g h : Goroutine} :
    (l ++ [g])[i]? = some h ↔ l[i]? = some h ∨ i = l.length ∧ g = h := by
  rcases Nat.lt_trichotomy i l.length with inside | rfl | outside
  · rw [getElem?_append_left inside]
    simp [Nat.ne_of_lt inside]
  · simp
  · rw [getElem?_eq_none (by simpa using outside), getElem?_eq_none (Nat.le_of_lt outside)]
    simp [Nat.ne_of_gt outside]

theorem MapSession.Sound.apart (sound : ms.Sound) (lock : ms.cqmu = some (.call i)) :
    (∀ j ≠ i, ms.cqmu ≠ some (.call j)) ∧ ¬ ms.loop.owns := by
  constructor
  · intro j other same
    cases lock.symm.trans same
    exact other rfl
  · intro own
    cases lock.symm.trans (sound.owns.2 own)

theorem MapSession.Sound.step (sound : ms.Sound) (moves : ms.Moves op ms') : ms'.Sound := by
  have ⟨calls, held, owns, closed, queueClosed⟩ := sound
  cases moves with
  | spawn =>
    refine ⟨fun i g found => ?_, fun i lock => ?_, owns, closed, queueClosed⟩
    · rcases getElem?_spawn.1 found with old | ⟨-, rfl⟩
      · exact calls i g old
      · exact ⟨nofun, trivial⟩
    · obtain ⟨g, found, holds⟩ := held i lock
      exact ⟨g, getElem?_spawn.2 (.inl found), holds⟩
  | lock at_ sends free =>
    refine ⟨sound.calls_move at_ ⟨fun _ => ⟨rfl, sends⟩, trivial⟩ (.inr ?_) id id,
      sound.held_move at_ nofun (.inr ⟨rfl, rfl⟩), ?_, closed, queueClosed⟩
    · simp [free]
    · rw [free] at owns
      exact ⟨nofun, fun own => absurd (owns.2 own) nofun⟩
  | cancel at_ =>
    exact ⟨sound.calls_move at_ ⟨nofun, rfl⟩ (.inl ⟨rfl, rfl⟩) id fun _ => rfl,
      sound.held_move at_ nofun (.inl rfl), owns, closed, queueClosed⟩
  | @check i _ at_ =>
    have lock := (calls i _ at_).1 rfl
    refine ⟨sound.calls_move at_ ?_ (.inl ⟨rfl, rfl⟩) id id,
      sound.held_move at_ (fun _ => ?_) (.inl rfl), owns, closed, queueClosed⟩
    · cases now : ms.changeQueueClosed with
      | true | false => exact ⟨fun _ => lock, now⟩
    · cases ms.changeQueueClosed <;> rfl
  | @send i _ at_ =>
    -- the queue is not marked as closed, so the channel is not closed either
    have ⟨lock, opened⟩ := calls i _ at_
    have still : ms.queueClosed = false := by
      cases at_ : ms.loop <;> simp_all [LoopPC.closed, LoopPC.queueClosed]
    rw [still]
    exact ⟨sound.calls_move at_ ⟨fun _ => lock rfl, opened⟩ (.inl ⟨rfl, rfl⟩) id id,
      sound.held_move at_ (fun _ => rfl) (.inl rfl), owns, closed, queueClosed⟩
  | @returnNil i _ at_ =>
    have ⟨others, away⟩ := sound.apart ((calls i _ at_).1 rfl).1
    exact ⟨sound.calls_move at_ ⟨nofun, trivial⟩ (.inr others) id id, nofun,
      ⟨nofun, fun own => absurd own away⟩, closed, queueClosed⟩
  | @refuse i _ at_ =>
    have ⟨own, refused⟩ := calls i _ at_
    have ⟨lock, sends⟩ := own rfl
    have ⟨others, away⟩ := sound.apart lock
    refine ⟨sound.calls_move at_ ⟨nofun, ?_⟩ (.inr others) id id, nofun,
      ⟨nofun, fun own => absurd own away⟩, closed, queueClosed⟩
    rw [if_pos sends]
    exact refused
  | wait at_ =>
    exact ⟨sound.calls_move at_ ⟨nofun, trivial⟩ (.inl ⟨rfl, rfl⟩) id id,
      sound.held_move at_ nofun (.inl rfl), owns, closed, queueClosed⟩
  | @receive i _ _ inner at_ _ ready =>
    have ⟨lock, opened⟩ := calls i _ at_
    rw [ready] at owns closed queueClosed
    refine ⟨sound.calls_move at_ ⟨fun _ => lock rfl, opened⟩ (.inl ⟨rfl, rfl⟩) id id,
      sound.held_move at_ (fun _ => rfl) (.inl rfl), owns.trans ?_, closed.trans ?_,
      queueClosed.trans ?_⟩
    all_goals cases inner <;> rfl
  | @handled _ inner _ busy =>
    rw [busy] at owns closed queueClosed
    refine ⟨calls, held, owns.trans ?_, closed.trans ?_, queueClosed.trans ?_⟩
    all_goals cases inner <;> rfl
  | done ready | default ready | exit ready =>
    rw [ready] at owns closed queueClosed
    exact ⟨calls, held, owns, closed, queueClosed⟩
  | loopLock ready free =>
    rw [ready] at closed queueClosed
    refine ⟨fun i g found => ?_, nofun, ⟨fun _ => rfl, fun _ => rfl⟩, closed, queueClosed⟩
    refine (calls i g found).frame (.inr ?_) id id
    simp [free]
  | setClosed ready =>
    rw [ready] at owns queueClosed
    refine ⟨fun i g found => ?_, held, owns, rfl, queueClosed⟩
    refine (calls i g found).frame (.inr ?_) (fun _ => rfl) id
    simp [owns.2 rfl]
  | loopUnlock ready =>
    rw [ready] at owns closed queueClosed
    refine ⟨fun i g found => ?_, nofun, ⟨nofun, nofun⟩, closed, queueClosed⟩
    refine (calls i g found).frame (.inr ?_) id id
    simp [owns.2 rfl]
  | close ready =>
    rw [ready] at owns closed queueClosed
    rw [sound.map_wake closed]
    exact ⟨calls, held, owns, closed, rfl⟩

theorem sound_of_run (run : Run MapSession.step newMapSession ops ms) : ms.Sound := by
  induction run with
  | refl => exact newMapSession_sound
  | snoc _ taken ih => exact ih.step (moves_of_step taken)

def CallPC.finished : CallPC → Bool
  | .returned _ => true
  | _ => false

def CallPC.owesSend : CallPC → Bool
  | .locked | .checked | .sending => true
  | _ => false

def MapSession.Stranded (ms : MapSession) : Prop :=
  ms.loop = .locking ∧ ∃ (i : Nat) (g : Goroutine), ms.calls[i]? = some g ∧ g.pc.owesSend

/-- Steps that do not bring this about: the loop leaves the `select` for a cancelled context only
when no call is between `cqmu.Lock` and the end of its send, and no call takes the lock while the
loop waits for it. -/
def MapSession.Clear (ms : MapSession) : Step → Prop
  | .done => ∀ g ∈ ms.calls, ¬ g.pc.owesSend
  | .lock _ => ms.loop ≠ .locking
  | _ => True

def Step.internal : Step → Bool
  | .spawn _ => false
  | _ => true

def MapSession.Enabled (ms : MapSession) : Prop := ∃ op ms', op.internal ∧ ms.step op = some ms'

theorem MapSession.Moves.enabled (moves : ms.Moves op ms') (internal : op.internal) : ms.Enabled :=
  ⟨op, ms', internal, moves.step⟩

theorem CallPC.holds_of_owesSend {pc : CallPC} (owes : pc.owesSend) : pc.holds := by
  cases pc <;> first | rfl | cases owes

theorem CallPC.not_finished_of_owesSend {pc : CallPC} (owes : pc.owesSend) : ¬ pc.finished := by
  cases pc with
  | returned => cases owes
  | _ => exact nofun

theorem MapSession.enabled_of_holds (found : ms.calls[i]? = some g)
    (holds : g.pc.holds) (idle : g.pc ≠ .sending) : ms.Enabled := by
  obtain ⟨call, pc⟩ := g
  cases pc with
  | locked => exact (Moves.check found).enabled rfl
  | checked => exact (Moves.send found).enabled rfl
  | sending => exact absurd rfl idle
  | sent => exact (Moves.returnNil found).enabled rfl
  | refused => exact (Moves.refuse found).enabled rfl
  | _ => cases holds

section
variable (sound : ms.Sound)
include sound

theorem MapSession.Sound.enabled_of_free (free : ms.cqmu = none)
    (found : ms.calls[i]? = some g) (unfinished : ¬ g.pc.finished) : ms.Enabled ∨ g.pc = .waiting := by
  have ⟨lock, fits⟩ := sound.calls i g found
  obtain ⟨call, pc⟩ := g
  cases pc with
  | start =>
    cases call with
    | close => exact .inl ((Moves.cancel found).enabled rfl)
    | _ => exact .inl ((Moves.lock found rfl free).enabled rfl)
  | locked | checked | sending | sent | refused =>
    cases free.symm.trans (lock rfl).1
  | waiting => exact .inr rfl
  | returned => exact absurd rfl unfinished
  | panicked => exact fits.elim

theorem MapSession.Sound.free_or_held (away : ¬ ms.loop.owns) :
    ms.cqmu = none ∨ ∃ (j : Nat) (g : Goroutine), ms.calls[j]? = some g ∧ g.pc.holds := by
  cases holder : ms.cqmu with
  | none => exact .inl rfl
  | some holder' =>
    cases holder' with
    | loop => exact absurd (sound.owns.1 holder) away
    | call j => exact .inr ⟨j, sound.held j holder⟩

theorem MapSession.Sound.enabled (clear : ¬ ms.Stranded)
    (found : ms.calls[i]? = some g) (unfinished : ¬ g.pc.finished) : ms.Enabled := by
  have closed := sound.closed
  cases at_ : ms.loop with
  | handling => exact (Moves.handled 0 at_).enabled rfl
  | setClosed => exact (Moves.setClosed at_).enabled rfl
  | unlocking => exact (Moves.loopUnlock at_).enabled rfl
  | emptied => exact (Moves.close at_).enabled rfl
  | leaving => exact (Moves.exit at_).enabled rfl
  | draining =>
    by_cases empty : ∃ g ∈ ms.calls, g.pc = .sending
    · obtain ⟨g, mem, sending⟩ := empty
      obtain ⟨j, found⟩ := mem_iff_getElem?.1 mem
      have fits := (sound.calls j g found).2
      rw [sending, closed, at_] at fits
      cases fits
    · exact (Moves.default at_ empty).enabled rfl
  | locking =>
    rcases sound.free_or_held (by rw [at_]; nofun) with free | ⟨j, g, found, holds⟩
    · exact (Moves.loopLock at_ free).enabled rfl
    · refine enabled_of_holds found holds fun sending => clear ⟨at_, j, g, found, ?_⟩
      rw [sending, CallPC.owesSend]
  | select =>
    rcases sound.free_or_held (by rw [at_]; nofun) with free | ⟨j, ⟨call, pc⟩, found, holds⟩
    · rcases sound.enabled_of_free free found unfinished with enabled | waiting
      · exact enabled
      -- nobody waits for the loop before the queue closes, but for a `Close`
      · have fits := (sound.calls i g found).2
        rw [waiting, closed, at_] at fits
        dsimp only at fits
        split at fits
        · cases fits
        · exact (Moves.done at_ fits).enabled rfl
    · by_cases sending : pc = .sending
      · subst sending
        obtain ⟨change, sends⟩ := Option.isSome_iff_exists.1 ((sound.calls j _ found).1 rfl).2
        exact (Moves.receive false found sends at_).enabled rfl
      · exact enabled_of_holds found holds sending
  | exited =>
    rcases sound.free_or_held (by rw [at_]; nofun) with free | ⟨j, g, found, holds⟩
    · rcases sound.enabled_of_free free found unfinished with enabled | waiting
      · exact enabled
      obtain ⟨call, pc⟩ := g
      subst waiting
      exact (Moves.wait found at_).enabled rfl
    · refine enabled_of_holds found holds fun sending => ?_
      have fits := (sound.calls j g found).2
      rw [sending, closed, at_] at fits
      cases fits

inductive Goroutine.Advance (ms : MapSession) (g : Goroutine) : CallPC → Prop
  | cancel (call : g.call = .close) (pc : g.pc = .start) : Advance ms g .waiting
  | check (pc : g.pc = .locked) : Advance ms g (if ms.changeQueueClosed then .refused else .checked)
  | send (pc : g.pc = .checked) : Advance ms g (if ms.queueClosed then .panicked else .sending)
  | returnNil (pc : g.pc = .sent) : Advance ms g (.returned none)
  | refuse (pc : g.pc = .refused) : Advance ms g .waiting
  | wait (pc : g.pc = .waiting) : Advance ms g (.returned g.call.errWaited)

inductive Goroutine.Becomes (ms : MapSession) (g : Goroutine) (j : Nat) : Step → CallPC → Prop
  | same {op : Step} (other : op ≠ .lock j) : Becomes ms g j op g.pc
  | lock (pc : g.pc = .start) (sends : g.call.change.isSome) : Becomes ms g j (.lock j) .locked
  | receive (pc : g.pc = .sending) : Becomes ms g j (.receive j) .sent
  | call {pc : CallPC} (advance : g.Advance ms pc) : Becomes ms g j (.call j) pc

theorem MapSession.Sound.becomes (moves : ms.Moves op ms') {j : Nat}
    (found : ms.calls[j]? = some g) : ∃ pc, ms'.calls[j]? = some { g with pc } ∧ g.Becomes ms j op pc := by
  have move {i : Nat} {h : Goroutine} {pc : CallPC} (at_ : ms.calls[i]? = some h)
      (becomes : h.Becomes ms i op pc) (own : op = .lock j → i = j) :
      ∃ pc', (ms.move i pc).calls[j]? = some { g with pc := pc' } ∧ g.Becomes ms j op pc' := by
    by_cases same : i = j
    · subst same
      cases at_.symm.trans found
      exact ⟨pc, by rw [getElem?_move, if_pos rfl, at_, map_some], becomes⟩
    · exact ⟨g.pc, by rw [getElem?_move, if_neg same, found], .same (mt own same)⟩
  cases moves with
  | spawn => exact ⟨g.pc, getElem?_spawn.2 (.inl found), .same (by simp)⟩
  | lock at_ sends => exact move at_ (.lock rfl sends) (by simp)
  | cancel at_ => exact move at_ (.call (.cancel rfl rfl)) (by simp)
  | check at_ => exact move at_ (.call (.check rfl)) (by simp)
  | send at_ => exact move at_ (.call (.send rfl)) (by simp)
  | returnNil at_ => exact move at_ (.call (.returnNil rfl)) (by simp)
  | refuse at_ => exact move at_ (.call (.refuse rfl)) (by simp)
  | wait at_ => exact move at_ (.call (.wait rfl)) (by simp)
  | receive _ at_ => exact move at_ (.receive rfl) (by simp)
  | close ready =>
    rw [sound.map_wake (by rw [sound.closed, ready]; rfl)]
    exact ⟨g.pc, found, .same (by simp)⟩
  | _ => exact ⟨g.pc, found, .same (by simp)⟩

theorem MapSession.Sound.fresh (moves : ms.Moves op ms') {j : Nat}
    (found : ms'.calls[j]? = some g) (absent : ms.calls[j]? = none) : g.pc = .start := by
  have move {i : Nat} {pc : CallPC} (found : (ms.move i pc).calls[j]? = some g) : False := by
    rw [getElem?_move, absent] at found
    simp at found
  cases moves with
  | spawn =>
    rcases getElem?_spawn.1 found with old | ⟨-, rfl⟩
    · cases absent.symm.trans old
    · rfl
  | close ready =>
    rw [sound.map_wake (by rw [sound.closed, ready]; rfl)] at found
    cases absent.symm.trans found
  | lock | cancel | check | send | returnNil | refuse | wait | receive => exact (move found).elim
  | _ => cases absent.symm.trans found

end

theorem stranded_of_not_clear (moves : ms.Moves op ms') (met : ¬ ms.Clear op) : ms'.Stranded := by
  cases moves with
  | @lock i call at_ =>
    have waits : ms.loop = .locking := not_not.1 met
    refine ⟨waits, i, ⟨call, .locked⟩, ?_, rfl⟩
    exact (getElem?_move ms i i .locked).trans (by rw [if_pos rfl, at_, map_some])
  | done =>
    simp only [MapSession.Clear, not_forall, not_not] at met
    obtain ⟨g, mem, owes⟩ := met
    obtain ⟨i, found⟩ := mem_iff_getElem?.1 mem
    exact ⟨rfl, i, g, found, owes⟩
  | _ => exact absurd trivial met

theorem MapSession.Stranded.step (stranded : ms.Stranded) (sound : ms.Sound)
    (moves : ms.Moves op ms') : ms'.Stranded := by
  obtain ⟨waits, i, g, found, owes⟩ := stranded
  have lock := ((sound.calls i g found).1 (CallPC.holds_of_owesSend owes)).1
  have opened := sound.closed
  have queueOpened := sound.queueClosed
  rw [waits] at opened queueOpened
  obtain ⟨pc, found', becomes⟩ := sound.becomes moves found
  have loop : ms'.loop = .locking := by
    cases moves with
    | receive inner _ _ ready => cases inner <;> cases waits.symm.trans ready
    | loopLock _ free => cases free.symm.trans lock
    | handled _ busy => cases waits.symm.trans busy
    | done ready | setClosed ready | loopUnlock ready | default ready | close ready | exit ready =>
      cases waits.symm.trans ready
    | _ => exact waits
  have still : pc.owesSend := by
    obtain ⟨call, at_⟩ := g
    cases becomes with
    | same => exact owes
    | lock start =>
      cases start
      cases owes
    | receive =>
      cases moves
      cases loop
    | call advance =>
      cases advance with
      | check => simp only [opened, LoopPC.closed]; rfl
      | send => simp only [queueOpened, LoopPC.queueClosed]; rfl
      | cancel _ pc | returnNil pc | refuse pc | wait pc =>
        cases pc
        cases owes
  exact ⟨loop, i, _, found', still⟩

theorem MapSession.Stranded.of_step (stranded : ms'.Stranded) (sound : ms.Sound)
    (moves : ms.Moves op ms') (clear : ms.Clear op) : ms.Stranded := by
  obtain ⟨waits, i, h, found, owes⟩ := stranded
  cases before : ms.calls[i]? with
  | none =>
    rw [sound.fresh moves found before] at owes
    cases owes
  | some g =>
    obtain ⟨pc, found', becomes⟩ := sound.becomes moves before
    cases found.symm.trans found'
    have owed : g.pc.owesSend ∨ op = .lock i := by
      cases becomes with
      | same => exact .inl owes
      | lock => exact .inr rfl
      | receive => cases owes
      | call advance =>
        cases advance with
        | check at_ | send at_ => exact .inl (by rw [at_]; rfl)
        | _ => cases owes
    rcases owed with owes | rfl
    · refine ⟨?_, i, g, before, owes⟩
      cases moves with
      | done => exact absurd owes (clear g (mem_of_getElem? before))
      | @handled _ inner => cases inner <;> cases waits
      | receive | loopLock | setClosed | loopUnlock | default | close | exit => cases waits
      | _ => exact waits
    · cases moves
      exact absurd waits clear

theorem stranded_iff_of_run (run : Run MapSession.step newMapSession ops ms) :
    ¬ ms.Stranded ↔ Throughout MapSession.step Clear newMapSession ops := by
  induction run with
  | refl => exact ⟨fun _ => throughout_nil, fun _ => nofun⟩
  | snoc run taken ih =>
    have sound := sound_of_run run
    have moves := moves_of_step taken
    rw [throughout_snoc run, ← ih]
    constructor
    · intro clear
      exact ⟨fun stranded => clear (stranded.step sound moves),
        by_contra fun met => clear (stranded_of_not_clear moves met)⟩
    · rintro ⟨clear, last⟩ stranded
      exact clear (stranded.of_step sound moves last)

def lockOrder (ops : List Step) : List Nat :=
  ops.filterMap fun
    | .lock i => some i
    | _ => none

def received (ops : List Step) : List Nat :=
  ops.filterMap fun
    | .receive i => some i
    | _ => none

def handledAt (ops : List Step) : List Time :=
  ops.filterMap fun
    | .handled now => some now
    | _ => none

def CallPC.delivered : CallPC → Bool
  | .sent | .returned none => true
  | _ => false

namespace MapSession

def delivered (ms : MapSession) (i : Nat) : Bool := ms.calls[i]?.any (·.pc.delivered)

def changeOf (ms : MapSession) (i : Nat) : Option ResponseWithSource :=
  ms.calls[i]?.bind (·.call.change)

def Took (ms : MapSession) (i : Nat) : Prop :=
  ∃ g, ms.calls[i]? = some g ∧ g.call.change.isSome ∧ g.pc ≠ .start

end MapSession

def LoopPC.inHand : LoopPC → List ResponseWithSource
  | .handling change _ => [change]
  | _ => []

def handleAll (changes : List ResponseWithSource) (times : List Time) : Peers :=
  (changes.zip times).foldl (fun peers (change, now) => handle peers change now) newMapSession.peers

structure InOrder (ops : List Step) (ms : MapSession) : Prop where
  nodup : (lockOrder ops).Nodup
  took : ∀ i, i ∈ lockOrder ops ↔ ms.Took i
  last : ∀ i, ms.cqmu = some (.call i) → (lockOrder ops).getLast? = some i
  order : received ops = (lockOrder ops).filter ms.delivered
  handled : ∃ changes, (received ops).filterMap ms.changeOf = changes ++ ms.loop.inHand ∧
    changes.length = (handledAt ops).length ∧ ms.peers = handleAll changes (handledAt ops)

theorem newMapSession_inOrder : InOrder [] newMapSession where
  nodup := nodup_nil
  took := by simp [lockOrder, Took, newMapSession]
  last := by simp [newMapSession]
  order := rfl
  handled := ⟨[], rfl, rfl, rfl⟩

section Step
variable {ops : List Step}

section
variable (sound : ms.Sound) (moves : ms.Moves op ms')
include sound moves

theorem MapSession.Sound.took_step :
    ms'.Took i ↔ ms.Took i ∨ op = .lock i := by
  cases before : ms.calls[i]? with
  | none =>
    have unlocked : op ≠ .lock i := by
      rintro rfl
      cases moves with
      | lock at_ => cases before.symm.trans at_
    simp only [Took, before, reduceCtorEq, false_and, exists_false, unlocked, or_self, iff_false]
    rintro ⟨g, found, -, late⟩
    exact late (sound.fresh moves found before)
  | some =>
    obtain ⟨pc, found, becomes⟩ := sound.becomes moves before
    simp only [Took, before, found, some.injEq, exists_eq_left']
    cases becomes with
    | same other => simp [other]
    | lock _ sends => simp [sends]
    | receive sending => simp [sending]
    | call advance =>
      cases advance with
      | cancel call => simp [call, Call.change]
      | check at_ | send at_ => simp [at_]; split <;> simp
      | returnNil at_ | refuse at_ | wait at_ => simp [at_]

theorem MapSession.Sound.delivered_step (took : ms.Took i) (other : op ≠ .receive i) : ms'.delivered i = ms.delivered i := by
  obtain ⟨g, before, sends, late⟩ := took
  obtain ⟨pc, found, becomes⟩ := sound.becomes moves before
  rw [delivered, delivered, before, found, any_some, any_some]
  cases becomes with
  | same => rfl
  | lock start => exact absurd start late
  | receive => exact absurd rfl other
  | call advance =>
    cases advance with
    | cancel _ start => exact absurd start late
    | check at_ | send at_ => rw [at_]; split <;> rfl
    | returnNil at_ | refuse at_ => rw [at_]; rfl
    | wait at_ =>
      rw [at_]
      cases call : g.call with
      | close => rw [call] at sends; cases sends
      | _ => rfl

theorem MapSession.Sound.changeOf_step (took : ms.Took i) : ms'.changeOf i = ms.changeOf i := by
  obtain ⟨g, before, -⟩ := took
  obtain ⟨pc, found, -⟩ := sound.becomes moves before
  rw [changeOf, changeOf, before, found]
  rfl

end

theorem mem_lockOrder_snoc : i ∈ lockOrder (ops ++ [op]) ↔ i ∈ lockOrder ops ∨ op = .lock i := by
  cases op <;> simp [lockOrder, eq_comm]

theorem InOrder.took_snoc (order : InOrder ops ms) (sound : ms.Sound) (moves : ms.Moves op ms') :
    i ∈ lockOrder (ops ++ [op]) ↔ ms'.Took i := by
  rw [mem_lockOrder_snoc, order.took, sound.took_step moves]

theorem lockOrder_snoc_lock : lockOrder (ops ++ [.lock i]) = lockOrder ops ++ [i] := by
  simp [lockOrder]

theorem lockOrder_snoc (other : ∀ i, op ≠ .lock i) : lockOrder (ops ++ [op]) = lockOrder ops := by
  cases op with
  | lock i => exact absurd rfl (other i)
  | _ => simp [lockOrder]

section
variable (order : InOrder ops ms)
include order

theorem InOrder.nodup_snoc (moves : ms.Moves op ms') :
    (lockOrder (ops ++ [op])).Nodup := by
  cases moves with
  | @lock i _ at_ =>
    rw [lockOrder_snoc_lock]
    refine nodup_append.2 ⟨order.nodup, nodup_singleton i, fun j mem k one => ?_⟩
    rintro rfl
    obtain ⟨g, found, -, late⟩ := (order.took j).1 mem
    cases mem_singleton.1 one
    cases at_.symm.trans found
    exact late rfl
  | _ =>
    rw [lockOrder_snoc (by simp)]
    exact order.nodup

theorem InOrder.last_snoc (moves : ms.Moves op ms')
    (lock : ms'.cqmu = some (.call i)) : (lockOrder (ops ++ [op])).getLast? = some i := by
  cases moves with
  | lock =>
    cases lock
    rw [lockOrder_snoc_lock, getLast?_concat]
  | returnNil | refuse | loopLock | loopUnlock => cases lock
  | _ =>
    rw [lockOrder_snoc (by simp)]
    exact order.last i lock

theorem InOrder.order_snoc (sound : ms.Sound) (moves : ms.Moves op ms') :
    received (ops ++ [op]) = (lockOrder (ops ++ [op])).filter ms'.delivered := by
  have kept {l : List Nat} (mem : ∀ j ∈ l, j ∈ lockOrder ops) (other : ∀ j ∈ l, op ≠ .receive j) :
      l.filter ms'.delivered = l.filter ms.delivered :=
    filter_congr fun j hj => sound.delivered_step moves ((order.took j).1 (mem j hj)) (other j hj)
  cases op with
  | receive i =>
    cases moves with
    | receive _ at_ =>
      have lock := ((sound.calls i _ at_).1 rfl).1
      obtain ⟨before, split⟩ := getLast?_eq_some_iff.1 (order.last i lock)
      have nodup := order.nodup
      rw [split] at nodup
      have first : ∀ j ∈ before, Step.receive i ≠ .receive j := by
        rintro j mem ⟨⟩
        exact (nodup_append.1 nodup).2.2 i mem i (mem_singleton_self i) rfl
      have unsent : ms.delivered i = false := by
        rw [delivered, at_]
        rfl
      have sent : (ms.move i .sent).delivered i = true := by
        rw [delivered, getElem?_move, if_pos rfl, at_]
        rfl
      have old := order.order
      rw [split, filter_append, filter_singleton, unsent] at old
      rw [lockOrder_snoc (by simp), split, filter_append,
        kept (fun j mem => by rw [split]; exact mem_append_left _ mem) first,
        filter_singleton]
      simp only [delivered] at sent ⊢
      simpa [received, sent] using old
  | lock i =>
    rw [lockOrder_snoc_lock, filter_append, kept (fun _ => id) (by simp), ← order.order]
    cases moves with
    | lock at_ =>
      have waits : (ms.move i .locked).delivered i = false := by
        rw [delivered, getElem?_move, if_pos rfl, at_]
        rfl
      simp only [delivered] at waits
      simp [received, delivered, waits]
  | _ =>
    rw [lockOrder_snoc (by simp), kept (fun _ => id) (by simp), ← order.order]
    simp [received]

theorem InOrder.changeOf_received (sound : ms.Sound) (moves : ms.Moves op ms') :
    (received ops).filterMap ms'.changeOf = (received ops).filterMap ms.changeOf := by
  apply filterMap_congr
  intro j mem
  rw [order.order] at mem
  exact sound.changeOf_step moves ((order.took j).1 (mem_of_mem_filter mem))

end

theorem handleAll_snoc {changes : List ResponseWithSource} {times : List Time}
    (same : changes.length = times.length) (change : ResponseWithSource) (now : Time) :
    handleAll (changes ++ [change]) (times ++ [now]) = handle (handleAll changes times) change now := by
  rw [handleAll, zip_append same, foldl_append]
  rfl

theorem MapSession.Moves.inHand (moves : ms.Moves op ms') (received : ∀ i, op ≠ .receive i)
    (handled : ∀ now, op ≠ .handled now) :
    ms'.loop.inHand = ms.loop.inHand ∧ ms'.peers = ms.peers := by
  cases moves with
  | receive => exact absurd rfl (received _)
  | handled => exact absurd rfl (handled _)
  | done ready | loopLock ready | setClosed ready | loopUnlock ready | default ready | close ready
  | exit ready => exact ⟨by rw [ready]; rfl, rfl⟩
  | _ => exact ⟨rfl, rfl⟩

section
variable (order : InOrder ops ms) (sound : ms.Sound) (moves : ms.Moves op ms')
include order sound moves

theorem InOrder.handled_snoc :
    ∃ changes, (received (ops ++ [op])).filterMap ms'.changeOf = changes ++ ms'.loop.inHand ∧
      changes.length = (handledAt (ops ++ [op])).length ∧
      ms'.peers = handleAll changes (handledAt (ops ++ [op])) := by
  obtain ⟨changes, taken, same, peers⟩ := order.handled
  have kept := order.changeOf_received sound moves
  cases op with
  | receive i =>
    cases moves with
    | @receive i _ change inner at_ sends ready =>
      have now : (ms.move i .sent).changeOf i = some change := by
        rw [changeOf, getElem?_move, if_pos rfl, at_]
        exact sends
      have free : ms.loop.inHand = [] := by
        rw [ready]
        cases inner <;> rfl
      have order : received (ops ++ [.receive i]) = received ops ++ [i] := by simp [received]
      have times : handledAt (ops ++ [.receive i]) = handledAt ops := by simp [handledAt]
      rw [order, times]
      refine ⟨changes, ?_, same, peers⟩
      rw [filterMap_append, kept, taken, free, append_nil]
      exact congrArg (changes ++ ·) (filterMap_cons_some now)
  | handled now =>
    cases moves with
    | @handled change inner _ busy =>
      rw [busy] at taken
      refine ⟨changes ++ [change], ?_, ?_, ?_⟩
      · cases inner <;> simpa [received, LoopPC.inHand] using kept.trans taken
      · simpa [handledAt] using same
      · rw [peers, ← handleAll_snoc same]
        simp [handledAt]
  | _ =>
    obtain ⟨inHand, peers'⟩ := moves.inHand (by simp) (by simp)
    rw [inHand, peers']
    refine ⟨changes, ?_, ?_, ?_⟩
    · rw [← taken, ← kept]
      simp [received]
    · simpa [handledAt] using same
    · simpa [handledAt] using peers

theorem InOrder.snoc :
    InOrder (ops ++ [op]) ms' where
  nodup := order.nodup_snoc moves
  took := fun _ => order.took_snoc sound moves
  last := fun _ => order.last_snoc moves
  order := order.order_snoc sound moves
  handled := order.handled_snoc sound moves

end

theorem inOrder_of_run (run : Run MapSession.step newMapSession ops ms) : InOrder ops ms := by
  induction run with
  | refl => exact newMapSession_inOrder
  | snoc run taken ih => exact ih.snoc (sound_of_run run) (moves_of_step taken)

end Step

structure Healthy (ops : List Step) (ms : MapSession) : Prop where
  progress : (∃ g ∈ ms.calls, ¬ g.pc.finished) → ms.Enabled
  once : ∀ (i : Nat) (g : Goroutine), ms.calls[i]? = some g → g.call ≠ .close →
    g.pc = .returned none → (received ops).count i = 1
  order : received ops = (lockOrder ops).filter ms.delivered
  handled : ∃ changes, (received ops).filterMap ms.changeOf = changes ++ ms.loop.inHand ∧
    changes.length = (handledAt ops).length ∧ ms.peers = handleAll changes (handledAt ops)
  noPanic : ∀ g ∈ ms.calls, g.pc ≠ .panicked

theorem Call.change_isSome {call : Call} (sends : call ≠ .close) : call.change.isSome := by
  cases call with
  | close => exact absurd rfl sends
  | _ => rfl

theorem InOrder.count_received (order : InOrder ops ms)
    (found : ms.calls[i]? = some g) (sends : g.call ≠ .close) (returned : g.pc = .returned none) :
    (received ops).count i = 1 := by
  have took : ms.Took i := ⟨g, found, Call.change_isSome sends, by rw [returned]; exact nofun⟩
  have delivered : ms.delivered i = true := by
    rw [MapSession.delivered, found, any_some, returned]
    rfl
  rw [order.order, count_filter delivered]
  exact count_eq_one_of_mem order.nodup ((order.took i).2 took)

variable {ops : List Step}

theorem healthy_of_run (run : Run MapSession.step newMapSession ops ms) (clear : ¬ ms.Stranded) :
    Healthy ops ms := by
  have sound := sound_of_run run
  have order := inOrder_of_run run
  refine ⟨?_, fun i g => order.count_received, order.order, order.handled, ?_⟩
  · rintro ⟨g, mem, unfinished⟩
    obtain ⟨i, found⟩ := mem_iff_getElem?.1 mem
    exact sound.enabled clear found unfinished
  · intro g mem panicked
    obtain ⟨i, found⟩ := mem_iff_getElem?.1 mem
    have fits := (sound.calls i g found).2
    rw [panicked] at fits
    exact fits

theorem Healthy.not_stranded (healthy : Healthy ops ms) (idle : ¬ ms.Enabled) : ¬ ms.Stranded := by
  rintro ⟨-, i, g, found, owes⟩
  refine idle (healthy.progress ⟨g, mem_of_getElem? found, ?_⟩)
  exact CallPC.not_finished_of_owesSend owes

/-- Runs without an encounter at the lock keep the session healthy, and of the runs after which
nothing can move they are the only ones that do. -/
theorem healthy_iff_clear (run : Run MapSession.step newMapSession ops ms) :
    (Throughout MapSession.step Clear newMapSession ops → Healthy ops ms) ∧
    (¬ ms.Enabled → (Healthy ops ms ↔ Throughout MapSession.step Clear newMapSession ops)) := by
  rw [← stranded_iff_of_run run]
  refine ⟨healthy_of_run run, fun idle => ⟨fun healthy => healthy.not_stranded idle, ?_⟩⟩
  exact healthy_of_run run

/-- Also in runs that end in a deadlock: the loop gets each change at most once and in the order of
the lock, the peers are those of the changes it has handled, no call panics, and what a call returns
says whether its change was received. -/
theorem truthful_of_run (run : Run MapSession.step newMapSession ops ms) :
    (received ops = (lockOrder ops).filter ms.delivered ∧ (received ops).Nodup) ∧
    (∃ changes, (received ops).filterMap ms.changeOf = changes ++ ms.loop.inHand ∧
      changes.length = (handledAt ops).length ∧ ms.peers = handleAll changes (handledAt ops)) ∧
    ∀ (i : Nat) (g : Goroutine), ms.calls[i]? = some g → g.call ≠ .close → g.pc ≠ .panicked ∧
      ∀ err, g.pc = .returned err → (received ops).count i = if err = none then 1 else 0 := by
  have order := inOrder_of_run run
  refine ⟨⟨order.order, ?_⟩, order.handled, fun i g found sends => ⟨fun panicked => ?_, ?_⟩⟩
  · rw [order.order]
    exact order.nodup.filter _
  · have fits := ((sound_of_run run).calls i g found).2
    rw [panicked] at fits
    exact fits
  rintro (_ | err) returned
  · exact order.count_received found sends returned
  · rw [order.order]
    refine count_eq_zero.2 fun mem => ?_
    have delivered := (mem_filter.1 mem).2
    rw [MapSession.delivered, found, Option.any_some, returned] at delivered
    cases delivered

namespace Sample

def closing : List Step :=
  [.spawn (.handleNonKeepAliveMapResponse .empty), .spawn .close, .lock 0, .call 0, .call 0,
    .receive 0, .call 0, .call 1, .handled 7, .done, .loop, .loop, .loop,
    .spawn (.updateDiscoForNode ⟨1, 2, 3, 4, true⟩), .lock 2, .call 2, .call 2,
    .loop, .loop, .loop, .call 1, .call 2]

def closed : MapSession where
  peers := handle .empty ⟨.empty, false⟩ 7
  cqmu := none
  changeQueueClosed := true
  queueClosed := true
  cancelled := true
  loop := .exited
  calls := [⟨.handleNonKeepAliveMapResponse .empty, .returned none⟩, ⟨.close, .returned none⟩,
    ⟨.updateDiscoForNode ⟨1, 2, 3, 4, true⟩, .returned (some errChangeQueueClosed)⟩]

theorem closing_run : Run MapSession.step newMapSession closing closed := run_of_foldlM rfl

theorem closing_healthy : Healthy closing closed :=
  (healthy_iff_clear closing_run).1 ((stranded_iff_of_run closing_run).1 nofun)

theorem closing_truthful : (received closing).count 2 = 0 :=
  ((truthful_of_run closing_run).2.2 2 _ rfl nofun).2 _ rfl

/-- The context is cancelled while a response waits to be received, and the loop sees that first. -/
def encounter : List Step :=
  [.spawn (.handleNonKeepAliveMapResponse .empty), .spawn .close, .lock 0, .call 0, .call 0, .call 1,
    .done]

def encountered : MapSession where
  peers := .empty
  cqmu := some (.call 0)
  changeQueueClosed := false
  queueClosed := false
  cancelled := true
  loop := .locking
  calls := [⟨.handleNonKeepAliveMapResponse .empty, .sending⟩, ⟨.close, .waiting⟩]

theorem encounter_deadlocks : Run MapSession.step newMapSession encounter encountered ∧
    ¬ encountered.Enabled ∧ ∀ g ∈ encountered.calls, ¬ g.pc.finished := by
  refine ⟨run_of_foldlM rfl, ?_, by simp [encountered, CallPC.finished]⟩
  rintro ⟨op, ms, internal, taken⟩
  cases op with
  | spawn call => cases internal
  | lock i | call i | receive i => rcases i with _ | _ | i <;> cases taken
  | handled now | done | loop => cases taken

end Sample

end ScaleTail.Netmap
