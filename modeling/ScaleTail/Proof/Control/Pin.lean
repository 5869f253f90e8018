import ScaleTail.Control.Server

/-! # The pin on a control server's key -/

namespace ScaleTail.Control

open Go List

section
variable [Unicode] [Netip]

structure PinCall where
  serverURL : Bytes
  key : MachinePublic

def httpOrigin (serverURL : Bytes) : Option Bytes :=
  match parseControl serverURL with
  | .ok u => if u.scheme = bytes "http" then some (origin u) else none
  | .error _ => none

namespace PinCall

def pins (c : PinCall) : Option Bytes := if c.key.isZero then none else httpOrigin c.serverURL

def check (c : PinCall) (p : Persist) : Except Bytes Unit × Option Persist :=
  checkOrSetHTTPNoiseKeyPin c.serverURL c.key (some p)

def step (p : Persist) (c : PinCall) : Persist := (c.check p).2.getD p

def Keeps (o : Bytes) (c : PinCall) : Prop := ∀ o' ∈ c.pins, o' = o

instance (o : Bytes) (c : PinCall) : Decidable (c.Keeps o) :=
  inferInstanceAs (Decidable (∀ o' ∈ c.pins, o' = o))

end PinCall

def sinceOther (o : Bytes) (calls : List PinCall) : List PinCall :=
  (calls.reverse.takeWhile (·.Keeps o)).reverse

def Undisturbed (o : Bytes) (k : MachinePublic) (calls : List PinCall) : Prop :=
  (∀ c ∈ calls, c.Keeps o) ∨
    ∃ c, (sinceOther o calls).find? (·.pins.isSome) = some c ∧ c.key = k

theorem parseServer_scheme {raw : Bytes} {u : URL} (parsed : parseServer raw = .ok u) :
    toLower u.scheme = u.scheme ∧ (u.scheme = bytes "http" ∨ u.scheme = bytes "https") := by
  have known : u.scheme = bytes "http" ∨ u.scheme = bytes "https" := by
    unfold parseServer at parsed
    split at parsed
    · cases parsed
    dsimp only at parsed
    split_ifs at parsed with _ _ _ known
    obtain rfl := Except.ok.inj parsed
    exact known
  refine ⟨?_, known⟩
  rcases known with same | same <;> rw [same] <;> rfl

theorem parseControl_server {raw : Bytes} {u : URL} (parsed : parseControl raw = .ok u) :
    parseServer raw = .ok u := by
  unfold parseControl at parsed
  cases server : parseServer raw with
  | error => rw [server] at parsed; cases parsed
  | ok =>
    rw [server] at parsed
    simp only [bind, Except.bind] at parsed
    split_ifs at parsed
    rw [Except.ok.inj parsed]

theorem httpOrigin_of_origin {raw raw' : Bytes} {u u' : URL} (parsed : parseControl raw = .ok u)
    (http : u.scheme = bytes "http") (parsed' : parseControl raw' = .ok u')
    (same : origin u' = origin u) : httpOrigin raw' = some (origin u) := by
  have lower := (parseServer_scheme (parseControl_server parsed)).1
  obtain ⟨lower', known⟩ := parseServer_scheme (parseControl_server parsed')
  have http' : u'.scheme = bytes "http" := by
    rcases known with h | h
    · exact h
    unfold origin at same
    rw [lower, lower', h, http] at same
    have start := congrArg (List.take 5) same
    rw [take_append_of_le_length (by decide), take_append_of_le_length (by decide),
      take_append_of_le_length (by decide)] at start
    exact absurd start (by decide)
  rw [httpOrigin, parsed']
  simp only [http', if_true, same]

variable {p q : Persist} {c : PinCall} {o : Bytes} {k : MachinePublic}

theorem check_other (other : c.pins = none) : (c.check p).2 = some p := by
  unfold PinCall.pins httpOrigin at other
  unfold PinCall.check checkOrSetHTTPNoiseKeyPin
  split
  · rfl
  next u parsed =>
    rw [parsed] at other
    by_cases http : u.scheme = bytes "http"
    · by_cases zero : c.key.isZero
      · simp [http, zero]
      · simp [http, zero] at other
    · simp [http]

theorem check_pins (pins : c.pins = some o) :
    if p.controlServerNoiseKeyOrigin = o ∧ ¬ p.controlServerNoiseKey.isZero then
      if p.controlServerNoiseKey ≠ c.key then ∃ err, c.check p = (.error err, some p)
      else c.check p = (.ok (), some p)
    else c.check p = (.ok (), some ⟨o, c.key⟩) := by
  unfold PinCall.pins httpOrigin at pins
  unfold PinCall.check checkOrSetHTTPNoiseKeyPin
  by_cases zero : c.key.isZero
  · simp [zero] at pins
  cases parsed : parseControl c.serverURL with
  | error => simp [parsed] at pins
  | ok =>
    simp only [parsed] at pins ⊢
    split_ifs at pins with http
    obtain rfl := Option.some.inj pins
    rw [if_neg (not_not.2 http), if_neg zero]
    split_ifs
    · exact ⟨_, rfl⟩
    · rfl
    · rfl

theorem step_other (other : c.pins = none) : PinCall.step p c = p := by
  rw [PinCall.step, check_other other, Option.getD_some]

theorem step_pins (pins : c.pins = some o) : PinCall.step p c =
    if p.controlServerNoiseKeyOrigin = o ∧ ¬ p.controlServerNoiseKey.isZero then p
    else ⟨o, c.key⟩ := by
  have result := check_pins (p := p) pins
  unfold PinCall.step
  split_ifs at result ⊢ with held differs
  · obtain ⟨err, same⟩ := result
    rw [same, Option.getD_some]
  · rw [result, Option.getD_some]
  · rw [result, Option.getD_some]

theorem key_of_pins (pins : c.pins = some o) : ¬ c.key.isZero := by
  unfold PinCall.pins at pins
  split_ifs at pins with zero
  exact zero

section
variable (set : ¬ p.controlServerNoiseKey.isZero)
include set

theorem key_step :
    ¬ (PinCall.step p c).controlServerNoiseKey.isZero := by
  cases pins : c.pins with
  | none => rwa [step_other pins]
  | some =>
    rw [step_pins pins]
    split_ifs
    · exact set
    · exact key_of_pins pins

theorem key_run (calls : List PinCall) :
    ¬ (calls.foldl PinCall.step p).controlServerNoiseKey.isZero := by
  induction calls generalizing p with
  | nil => exact set
  | cons _ _ ih => exact ih (key_step set)

theorem run_keeps (calls : List PinCall)
    (keeps : ∀ c ∈ calls, c.Keeps p.controlServerNoiseKeyOrigin) :
    calls.foldl PinCall.step p = p := by
  induction calls with
  | nil => rfl
  | cons c _ ih =>
    have same : PinCall.step p c = p := by
      cases pins : c.pins with
      | none => exact step_other pins
      | some o =>
        have here : o = p.controlServerNoiseKeyOrigin := keeps c mem_cons_self o pins
        rw [step_pins pins, if_pos ⟨here.symm, set⟩]
    rw [foldl_cons, same]
    exact ih fun d hd => keeps d (mem_cons_of_mem c hd)

theorem run_since (other : p.controlServerNoiseKeyOrigin ≠ o) (calls : List PinCall)
    (keeps : ∀ c ∈ calls, c.Keeps o) :
    calls.foldl PinCall.step p = ⟨o, k⟩ ↔
      ∃ c, calls.find? (·.pins.isSome) = some c ∧ c.key = k := by
  induction calls with
  | nil =>
    simp only [foldl_nil, find?_nil, reduceCtorEq, false_and, exists_false, iff_false]
    rintro rfl
    exact other rfl
  | cons c calls ih =>
    have rest : ∀ d ∈ calls, d.Keeps o := fun d hd => keeps d (mem_cons_of_mem c hd)
    cases pins : c.pins with
    | none =>
      rw [foldl_cons, step_other pins, find?_cons_of_neg (by simp [pins])]
      exact ih rest
    | some o' =>
      obtain rfl : o' = o := keeps c mem_cons_self o' pins
      rw [foldl_cons, step_pins pins, if_neg (fun h => other h.1),
        run_keeps (key_of_pins pins) calls rest, find?_cons_of_pos (by simp [pins])]
      simp

end

theorem run_pinned_iff (set : ¬ k.isZero) (calls : List PinCall) :
    calls.foldl PinCall.step ⟨o, k⟩ = ⟨o, k⟩ ↔ Undisturbed o k calls := by
  by_cases keeps : ∀ c ∈ calls, c.Keeps o
  · exact iff_of_true (run_keeps (p := ⟨o, k⟩) set calls keeps) (.inl keeps)
  rw [Undisturbed, or_iff_right keeps]
  -- The last call that does not keep the origin.
  obtain ⟨x, older, split⟩ : ∃ x older, calls.reverse.dropWhile (·.Keeps o) = x :: older := by
    cases left : calls.reverse.dropWhile (·.Keeps o) with
    | nil =>
      refine absurd ?_ keeps
      intro c hc
      simpa using dropWhile_eq_nil_iff.1 left c (mem_reverse.2 hc)
    | cons x older => exact ⟨x, older, rfl⟩
  have whole : calls = older.reverse ++ x :: sinceOther o calls := by
    have parts := takeWhile_append_dropWhile (p := fun c => decide (PinCall.Keeps o c))
      (l := calls.reverse)
    rw [split] at parts
    calc calls = calls.reverse.reverse := (reverse_reverse calls).symm
      _ = _ := by rw [← parts, reverse_append, reverse_cons, append_assoc]; rfl
  have bad : ¬ x.Keeps o := by
    have := head?_dropWhile_not (fun c => decide (PinCall.Keeps o c)) calls.reverse
    rw [split] at this
    simpa using this
  obtain ⟨o', pins, other⟩ : ∃ o', x.pins = some o' ∧ o' ≠ o := by
    unfold PinCall.Keeps at bad
    push Not at bad
    exact bad
  have since : ∀ c ∈ sinceOther o calls, c.Keeps o := by
    intro c hc
    simpa using mem_takeWhile_imp (mem_reverse.1 hc)
  have before := key_run (p := ⟨o, k⟩) set older.reverse
  have moved : (PinCall.step (older.reverse.foldl PinCall.step ⟨o, k⟩) x).controlServerNoiseKeyOrigin
      ≠ o := by
    rw [step_pins pins]
    split_ifs with held
    · rw [held.1]
      exact other
    · exact other
  conv_lhs => rw [whole]
  rw [foldl_append, foldl_cons]
  exact run_since (key_step before) moved _ since

theorem step_of_ok (pins : c.pins = some o) (succeeded : (c.check p).1 = .ok ()) :
    PinCall.step p c = ⟨o, c.key⟩ := by
  have result := check_pins (p := p) pins
  rw [step_pins pins]
  split_ifs at result ⊢ with held differs
  · obtain ⟨err, same⟩ := result
    rw [same] at succeeded
    cases succeeded
  · rw [not_not] at differs
    rw [← held.1, ← differs]
  · rfl

def keyOf (b : UInt8) : MachinePublic := ⟨Vector.replicate 32 b⟩

omit [Unicode] [Netip] in
theorem exists_key_ne (k : MachinePublic) : ∃ k', k' ≠ k ∧ ¬ k'.isZero := by
  by_cases one : k = keyOf 1
  · exact ⟨keyOf 2, by rw [one]; decide, by decide⟩
  · exact ⟨keyOf 1, Ne.symm one, by decide⟩

/-- Once a call for an origin has succeeded, calls for the origin with another key are refused
exactly as long as the pin is undisturbed. -/
theorem pin_refuses_iff (p : Persist) (first : PinCall) (calls : List PinCall) {u : URL}
    (parsed : parseControl first.serverURL = .ok u) (http : u.scheme = bytes "http")
    (succeeded : (first.check p).1 = .ok ()) :
    (∀ (serverURL : Bytes) (u' : URL) (key : MachinePublic), parseControl serverURL = .ok u' →
      origin u' = origin u → key ≠ first.key →
      ∃ err, checkOrSetHTTPNoiseKeyPin serverURL key
          (some (calls.foldl PinCall.step (first.step p))) =
        (.error err, some (calls.foldl PinCall.step (first.step p)))) ↔
      Undisturbed (origin u) first.key calls := by
  have here : httpOrigin first.serverURL = some (origin u) :=
    httpOrigin_of_origin parsed http parsed rfl
  have set : ¬ first.key.isZero := by
    intro zero
    unfold PinCall.check checkOrSetHTTPNoiseKeyPin at succeeded
    simp [parsed, http, zero] at succeeded
  have pins : first.pins = some (origin u) := by
    rw [PinCall.pins, if_neg set, here]
  rw [step_of_ok pins succeeded, ← run_pinned_iff set]
  have nonzero := key_run (p := ⟨origin u, first.key⟩) set calls
  generalize calls.foldl PinCall.step ⟨origin u, first.key⟩ = q at nonzero ⊢
  constructor
  · intro refused
    by_contra lost
    have accepts : ∃ key, key ≠ first.key ∧
        ((PinCall.mk first.serverURL key).check q).1 = .ok () := by
      by_cases same : q.controlServerNoiseKeyOrigin = origin u
      · refine ⟨q.controlServerNoiseKey, ?_, ?_⟩
        · intro key
          apply lost
          rw [← same, ← key]
        · have pins : (PinCall.mk first.serverURL q.controlServerNoiseKey).pins =
              some (origin u) := by
            rw [PinCall.pins, if_neg nonzero, here]
          have result := check_pins (p := q) pins
          rw [if_pos ⟨same, nonzero⟩, if_neg (by simp)] at result
          rw [result]
      · obtain ⟨key, ne, set⟩ := exists_key_ne first.key
        refine ⟨key, ne, ?_⟩
        have pins : (PinCall.mk first.serverURL key).pins = some (origin u) := by
          rw [PinCall.pins, if_neg set, here]
        have result := check_pins (p := q) pins
        rw [if_neg (fun h => same h.1)] at result
        rw [result]
    obtain ⟨key, ne, ok⟩ := accepts
    obtain ⟨err, same⟩ := refused first.serverURL u key parsed rfl ne
    rw [PinCall.check, same] at ok
    cases ok
  · rintro rfl serverURL u' key parsed' same ne
    have there := httpOrigin_of_origin parsed http parsed' same
    by_cases zero : key.isZero
    · have other : (PinCall.mk serverURL key).pins = none := if_pos zero
      have kept := check_other (p := ⟨origin u, first.key⟩) other
      unfold httpOrigin at there
      unfold checkOrSetHTTPNoiseKeyPin
      simp only [parsed'] at there kept ⊢
      split_ifs at there with http'
      simp only [http', zero, ne_eq, not_true_eq_false, if_true, if_false]
      exact ⟨_, rfl⟩
    · have pins : (PinCall.mk serverURL key).pins = some (origin u) := by
        rw [PinCall.pins, if_neg zero, there]
      have result := check_pins (p := ⟨origin u, first.key⟩) pins
      rw [if_pos ⟨rfl, set⟩, if_pos ne.symm] at result
      exact result

end

namespace Sample

attribute [local instance] Unicode.ascii Netip.none

def unpinned : Persist := ⟨[], keyOf 0⟩

/-- A connection to another server takes the pin away, and the next key of the first server is
accepted. -/
theorem pin_lost :
    let first : PinCall := ⟨bytes "http://a.example", keyOf 1⟩
    let second : PinCall := ⟨bytes "http://b.example", keyOf 2⟩
    let third : PinCall := ⟨bytes "http://a.example", keyOf 2⟩
    (first.check unpinned).1 = .ok () ∧
      (second.check (first.step unpinned)).1 = .ok () ∧
      third.check (second.step (first.step unpinned)) =
        (.ok (), some ⟨bytes "http://a.example", keyOf 2⟩) := by
  decide

theorem pin_refuses_spelling :
    ∃ err, checkOrSetHTTPNoiseKeyPin (bytes "HTTP://A.Example.:080/") (keyOf 2)
      (some ⟨bytes "http://a.example", keyOf 1⟩) =
        (.error err, some ⟨bytes "http://a.example", keyOf 1⟩) := by
  refine (pin_refuses_iff unpinned ⟨bytes "http://a.example", keyOf 1⟩
    [⟨bytes "https://b.example", keyOf 2⟩] (by rfl) rfl (by rfl)).2 (.inl (by decide))
    (bytes "HTTP://A.Example.:080/") _ (keyOf 2) (by rfl) (by rfl) (by decide)

end Sample

end ScaleTail.Control
