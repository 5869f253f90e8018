import ScaleTail.Util.Reload

/-! # The delay of a reload -/

namespace ScaleTail.Util
open Lib Option Watch

/-- A reload comes in time for the first request of its batch, and waits for the last one. -/
def Reload.Debounced (r : Reload) : Prop :=
  ∀ first last, r.batch = some (first, last) → r.time ≤ first + policyReloadMaxDelay ∧
    (r.time ≠ first + policyReloadMaxDelay → last + policyReloadMinDelay ≤ r.time)

def Reload.Early (r : Reload) : Prop :=
  ∃ first last, r.batch = some (first, last) ∧ first ≤ last ∧ r.time = first + policyReloadMinDelay

theorem delays_lt : policyReloadMinDelay < policyReloadMaxDelay := by decide

theorem Reload.Early.debounced {r : Reload} (early : r.Early) :
    r.Debounced ↔ ∀ first last, r.batch = some (first, last) → first = last := by
  obtain ⟨first, last, batch, order, time⟩ := early
  have delays := delays_lt
  rw [Reload.Debounced, batch, time]
  constructor
  · rintro all _ _ ⟨⟩
    have waits := (all first last rfl).2 (by omega)
    omega
  · rintro all _ _ ⟨⟩
    have same := all first last rfl
    omega

namespace Watch

structure Sound (w : Watch) : Prop where
  timeout : w.timeoutCh = w.batch.map (·.1 + policyReloadMinDelay)
  delay : w.delayCh = w.batch.map (·.2 + policyReloadMaxDelay)
  order : ∀ b ∈ w.batch, b.1 ≤ b.2 ∧ b.2 ≤ w.now ∧ w.now ≤ b.1 + policyReloadMinDelay
  reloads : ∀ r ∈ w.reloads, r.Early

def Op.time? : Op → Option Nat
  | .request time _ _ => some time
  | _ => none

/-- All requests are asynchronous, and these are their times. -/
def Requests (ops : List Op) (times : List Nat) : Prop :=
  (∀ op ∈ ops, ∀ time force, op ≠ .request time force true) ∧ ops.filterMap Op.time? = times

def batches (w : Watch) : List (Nat × Nat) := w.reloads.filterMap (·.batch) ++ w.batch.toList

/-- The requests of a batch all come at one time. -/
def Even (w : Watch) : Prop := ∀ b ∈ w.batches, b.1 = b.2

/-- The second request comes with the first, or after its reload. -/
def Apart (time time' : Nat) : Prop := time' = time ∨ time + policyReloadMinDelay < time'

variable {w w' : Watch} {op : Op} {ops ops' : List Op} {times times' : List Nat} {time : Nat}

theorem Requests.append (before : Requests ops times) (after : Requests ops' times') :
    Requests (ops ++ ops') (times ++ times') :=
  ⟨List.forall_mem_append.2 ⟨before.1, after.1⟩, by rw [List.filterMap_append, before.2, after.2]⟩

@[simp] theorem batches_reload : (w.reload time).batches = w.batches := by
  cases h : w.batch <;> simp [batches, Watch.reload, h]

theorem Sound.reaches_iff (sound : w.Sound) {b : Nat × Nat} (batch : w.batch = some b) :
    w.reaches time ↔ w.closed = false ∧ w.now ≤ time ∧ time ≤ b.1 + policyReloadMinDelay := by
  have order := sound.order b batch
  have delays := delays_lt
  simp only [Watch.reaches, sound.delay, sound.timeout, batch, map_some, all_some, Bool.and_eq_true,
    Bool.not_eq_true', decide_eq_true_eq, and_assoc]
  refine and_congr_right fun _ => and_congr_right fun _ => and_iff_right_of_imp ?_
  omega

/-- The time-out comes first, so it is what ends a batch. -/
theorem Sound.fire (sound : w.Sound) {ch : Option Nat} (armed : ch = w.delayCh ∨ ch = w.timeoutCh)
    (taken : w.fire ch = some w') : w'.Sound := by
  obtain ⟨time, same, fires⟩ := bind_eq_some_iff.1 taken
  obtain ⟨reaches, ⟨⟩⟩ := ite_none_right_eq_some.1 fires
  have early : Reload.Early ⟨time, w.force, w.batch⟩ := by
    rw [sound.delay, sound.timeout] at armed
    cases batch : w.batch with
    | none => simp [same, batch] at armed
    | some b =>
      have order := (sound.order b batch).1
      have reached := (sound.reaches_iff batch).1 reaches
      have delays := delays_lt
      simp only [same, batch, map_some, some.injEq] at armed
      exact ⟨b.1, b.2, rfl, order, by dsimp only; omega⟩
  refine ⟨rfl, rfl, by simp [Watch.reload], fun r mem => ?_⟩
  rcases List.mem_append.1 mem with old | new
  · exact sound.reloads r old
  · rw [List.mem_singleton.1 new]
    exact early

theorem Sound.step (sound : w.Sound) (async : ∀ time force, op ≠ .request time force true)
    (taken : w.step op = some w') : w'.Sound := by
  cases op with
  | request time force sync =>
    obtain ⟨reaches, same⟩ := ite_none_right_eq_some.1 taken
    cases sync with
    | true => exact absurd rfl (async time force)
    | false =>
      cases same
      refine ⟨?_, rfl, ?_, sound.reloads⟩
      · rw [sound.delay, sound.timeout]
        cases w.batch <;> rfl
      · rintro _ ⟨⟩
        cases batch : w.batch with
        | none => exact ⟨le_rfl, le_rfl, Nat.le_add_right _ _⟩
        | some b =>
          have between := ((sound.reaches_iff batch).1 reaches).2
          have order := sound.order b batch
          exact ⟨order.1.trans (order.2.1.trans between.1), le_rfl, between.2⟩
  | delay => exact sound.fire (.inl rfl) taken
  | timeout => exact sound.fire (.inr rfl) taken
  | close =>
    cases taken
    exact { sound with }

theorem sound_of_run (run : Run Watch.step .start ops w)
    (async : ∀ op ∈ ops, ∀ time force, op ≠ .request time force true) : w.Sound := by
  induction run with
  | refl => exact ⟨rfl, rfl, by simp [Watch.start], by simp [Watch.start]⟩
  | snoc run taken ih =>
    rw [List.forall_mem_append, List.forall_mem_singleton] at async
    exact (ih async.1).step async.2 taken

theorem Sound.debounced (sound : w.Sound) :
    (∀ r ∈ w.reloads, r.Debounced) ↔ ∀ b ∈ w.reloads.filterMap (·.batch), b.1 = b.2 := by
  simp only [List.mem_filterMap]
  constructor
  · rintro all b ⟨r, mem, batch⟩
    exact (sound.reloads r mem).debounced.1 (all r mem) b.1 b.2 batch
  · intro even r mem
    exact (sound.reloads r mem).debounced.2 fun first last batch => even (first, last) ⟨r, mem, batch⟩

theorem batches_fire {ch : Option Nat} (taken : w.fire ch = some w') :
    w'.batches = w.batches ∧ w'.batch = none := by
  obtain ⟨time, same, fires⟩ := bind_eq_some_iff.1 taken
  obtain ⟨_, ⟨⟩⟩ := ite_none_right_eq_some.1 fires
  exact ⟨batches_reload, rfl⟩

theorem even_request {first : Nat} {reloads : List Reload} (now : w.batch = some (first, time))
    (old : w.reloads = reloads) :
    w.Even ↔ (∀ b ∈ reloads.filterMap (·.batch), b.1 = b.2) ∧ first = time := by
  simp only [Even, batches, now, old, List.forall_mem_append, toList_some, List.forall_mem_singleton]

/-- A request that is apart from the one before cannot join its batch later. -/
theorem even_of_run (run : Run Watch.step .start ops w) (requests : Requests ops times)
    (apart : times.IsChain Apart) : w.Even ∧ ∀ b ∈ w.batch, b.2 ∈ times.getLast? := by
  induction run generalizing times with
  | refl => simp [Even, batches, Watch.start]
  | @snoc ops w _ op run taken ih =>
    obtain ⟨async, rfl⟩ := requests
    rw [List.filterMap_append] at apart ⊢
    rw [List.forall_mem_append, List.forall_mem_singleton] at async
    obtain ⟨even, last⟩ := ih ⟨async.1, rfl⟩ apart.left_of_append
    cases op with
    | request time force sync =>
      obtain ⟨reaches, same⟩ := ite_none_right_eq_some.1 taken
      cases sync with
      | true => exact absurd rfl (async.2 time force)
      | false =>
        cases same
        refine ⟨(even_request rfl rfl).2 ⟨fun b mem => even b (List.mem_append_left _ mem), ?_⟩,
          by rintro _ ⟨⟩; simp [Op.time?]⟩
        cases batch : w.batch with
        | none => rfl
        | some b =>
          have same : b.1 = b.2 := even b (by simp [batches, batch])
          have joins := ((sound_of_run run async.1).reaches_iff batch).1 reaches
          have spaced : Apart b.2 time := (List.isChain_append.1 apart).2.2 _
            (last b batch) _ (by simp [Op.time?])
          exact same.trans (spaced.resolve_right (by omega)).symm
    | delay =>
      obtain ⟨same, idle⟩ := batches_fire taken
      exact ⟨by rwa [Even, same], by simp [idle]⟩
    | timeout =>
      obtain ⟨same, idle⟩ := batches_fire taken
      exact ⟨by rwa [Even, same], by simp [idle]⟩
    | close =>
      cases taken
      exact ⟨even, by simpa [Op.time?] using last⟩

/-- The loop reaches any later time, with the batch reloaded if its time-out comes before. -/
theorem Sound.wait (sound : w.Sound) (running : w.closed = false) (later : w.now ≤ time) :
    ∃ ops w', Run Watch.step w ops w' ∧ Requests ops [] ∧ w'.reaches time ∧ w'.batches = w.batches ∧
      (w'.batch = w.batch ∨ w'.batch = none ∧ ∀ b ∈ w.batch, b.1 + policyReloadMinDelay < time) := by
  cases batch : w.batch with
  | none =>
    refine ⟨[], w, .refl, by simp [Requests], ?_, rfl, .inl batch⟩
    simp [Watch.reaches, running, later, sound.delay, sound.timeout, batch]
  | some b =>
    rcases Nat.lt_or_ge (b.1 + policyReloadMinDelay) time with passed | before
    · have reaches : w.reaches (b.1 + policyReloadMinDelay) :=
        (sound.reaches_iff batch).2 ⟨running, (sound.order b batch).2.2, le_rfl⟩
      refine ⟨[.timeout], w.reload (b.1 + policyReloadMinDelay), .snoc .refl ?_, ?_, ?_,
        batches_reload, .inr ⟨rfl, ?_⟩⟩
      · exact bind_eq_some_iff.2 ⟨_, by rw [sound.timeout, batch, map_some], if_pos reaches⟩
      · simp [Requests, Op.time?]
      · simp only [Watch.reaches, Watch.reload, running, passed.le]
        rfl
      · rintro _ ⟨⟩
        exact passed
    · exact ⟨[], w, .refl, by simp [Requests], (sound.reaches_iff batch).2 ⟨running, later, before⟩,
        rfl, .inl batch⟩

theorem step_request (reaches : w.reaches time) : ∃ w', w.step (.request time false false) = some w' ∧
    w'.reloads = w.reloads ∧ w'.closed = false ∧ w'.now = time ∧
    w'.batch = some (w.batch.elim time (·.1), time) := by
  refine ⟨_, if_pos reaches, rfl, ?_, rfl, rfl⟩
  simp only [Watch.reaches, Bool.and_eq_true, Bool.not_eq_true'] at reaches
  exact reaches.1.1.1

/-- Requests that join a batch whenever they can are apart if every batch is even. -/
theorem exists_run (sorted : times.IsChain (· ≤ ·)) : ∃ ops w, Run Watch.step .start ops w ∧
    Requests ops times ∧ w.closed = false ∧ w.now = times.getLast?.getD 0 ∧
    w.batch.map (·.2) = times.getLast? ∧ (w.Even → times.IsChain Apart) := by
  induction times using List.reverseRecOn with
  | nil => exact ⟨[], .start, .refl, by simp [Requests], rfl, rfl, rfl, fun _ => .nil⟩
  | append_singleton times time ih =>
    obtain ⟨order, -, last⟩ := List.isChain_append.1 sorted
    obtain ⟨ops, w, run, requests, running, now, batch, apart⟩ := ih order
    have later : w.now ≤ time := by
      rw [now]
      cases h : times.getLast? with
      | none => exact Nat.zero_le _
      | some t => exact last t h time rfl
    obtain ⟨waits, w', rest, quiet, reaches, same, joins⟩ :=
      (sound_of_run run requests.1).wait running later
    have requests' : Requests (ops ++ waits) times := by simpa using requests.append quiet
    have sound := sound_of_run (run.trans rest) requests'.1
    obtain ⟨w'', taken, reloads, running', now', batch'⟩ := step_request reaches
    refine ⟨_, w'', (run.trans rest).snoc taken, requests'.append (by simp [Requests, Op.time?]),
      running', by simp [now'], by simp [batch'], fun even => ?_⟩
    rw [even_request batch' reloads] at even
    have one : ∀ b ∈ w'.batch, b.1 = time := by
      intro b waits
      simpa [mem_def.1 waits] using even.2
    have before : w.Even := by
      rw [Even, ← same, batches, List.forall_mem_append]
      refine ⟨even.1, fun b mem => ?_⟩
      have waits := mem_toList.1 mem
      have order := sound.order b waits
      have reached := (sound.reaches_iff waits).1 reaches
      have first := one b waits
      omega
    refine List.isChain_append.2 ⟨apart before, .singleton _, fun t mem t' here => ?_⟩
    rw [← batch] at mem
    obtain ⟨b, waits, rfl⟩ := map_eq_some_iff.1 mem
    cases here
    have last : b.1 = b.2 := before b (by simp [batches, waits])
    rcases joins with kept | ⟨-, passed⟩
    · exact .inl ((one b (kept.trans waits)).symm.trans last)
    · exact .inr (last ▸ passed b waits)

/-- The times of the requests decide whether every reload is debounced. -/
theorem debounced_iff (sorted : times.IsChain (· ≤ ·)) :
    (∀ ops w, Run Watch.step .start ops w → Requests ops times → ∀ r ∈ w.reloads, r.Debounced) ↔
      times.IsChain Apart := by
  constructor
  · intro all
    obtain ⟨ops, w, run, requests, running, -, -, apart⟩ := exists_run sorted
    have sound := sound_of_run run requests.1
    -- Long after the last request nothing is left to reload.
    have later : w.now ≤ w.now + policyReloadMinDelay + 1 := by omega
    obtain ⟨waits, w', rest, quiet, reaches, same, joins⟩ := sound.wait running later
    have whole := run.trans rest
    have requests' : Requests (ops ++ waits) times := by simpa using requests.append quiet
    have sound' := sound_of_run whole requests'.1
    have idle : w'.batch = none := by
      rcases joins with kept | ⟨idle, -⟩
      · rw [eq_none_iff_forall_not_mem]
        intro b batch
        have order := sound.order b (kept ▸ batch)
        have reached := (sound'.reaches_iff batch).1 reaches
        omega
      · exact idle
    have even := sound'.debounced.1 (all _ _ whole requests')
    apply apart
    rw [Even, ← same]
    simpa [batches, idle] using even
  · intro apart ops w run requests
    have even := (even_of_run run requests apart).1
    exact (sound_of_run run requests.1).debounced.2 fun b mem => even b (List.mem_append_left _ mem)

namespace Sample

/-- The policy is reloaded a second after the last request. -/
theorem requests_early : ∃ w, Run Watch.step .start
    [.request 0 false false, .request 4000000000 false false, .timeout] w ∧
    ¬ ∀ r ∈ w.reloads, r.Debounced := by
  refine run_of_found ⟨_, rfl, fun all => ?_⟩
  have waits := (all ⟨5000000000, false, some (0, 4000000000)⟩ (.head _) 0 4000000000 rfl).2 (by decide)
  exact absurd waits (by decide)

theorem once_debounced : ∃ w, Run Watch.step .start [.request 0 false false, .timeout] w ∧
    w.reloads ≠ [] ∧ ∀ r ∈ w.reloads, r.Debounced := by
  obtain ⟨w, run, same⟩ : ∃ w, Run Watch.step .start [.request 0 false false, .timeout] w ∧
      w.reloads = [⟨5000000000, false, some (0, 0)⟩] := run_of_found ⟨_, rfl, rfl⟩
  have apart := (debounced_iff (.singleton 0)).2 (.singleton 0)
  exact ⟨w, run, by simp [same], apart _ _ run ⟨by simp, rfl⟩⟩

end Sample

end Watch

end ScaleTail.Util
