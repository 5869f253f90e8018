import ScaleTail.Proof.Noise.Stream

/-! # A connection that is written, read and closed -/

namespace ScaleTail.Noise
open Lib Go List Option

namespace Session
variable {A : AEAD} {s s' t : Session}

structure Sound (s : Session) : Prop where
  nonces : ∃ count < 2 ^ 64, s.out.tx.nonce = .ofNat count ∧ s.nonces = (range count).map .ofNat
  idle : s.out.writing = none → s.out.written = s.sent
  busy : ∀ bs k, s.out.writing = some (bs, k) →
    s.out.tx.err = none ∧ s.out.written ++ bs.take k = s.sent
  failed : s.failed → s.out.tx.err.isSome

theorem Sound.round (sound : s.Sound) {taken : Nat} {err : Option Err}
    (moved : s.round A taken err = some s') : s'.Sound := by
  obtain ⟨⟨bs, k⟩, writing, moved⟩ := bind_eq_some_iff.1 moved
  obtain ⟨no, sent⟩ := sound.busy bs k writing
  obtain ⟨out, rounds, moved⟩ := bind_eq_some_iff.1 moved
  obtain ⟨count, small, nonce, used⟩ := sound.nonces
  simp only [Link.round, writing, TxState.round] at rounds moved
  rcases encryptLocked_eq nonce small with exhausted | ⟨few, encrypted⟩
  · rw [exhausted] at rounds moved
    cases rounds
    cases moved
    exact ⟨sound.nonces, fun _ => sent, by simp, fun _ => by simp [TxState.fail]⟩
  · have nonces : s.nonces ++ [s.out.tx.nonce] = (range (count + 1)).map .ofNat := by
      rw [range_succ, map_append, used, nonce]
      rfl
    rw [encrypted] at rounds moved
    cases moved
    cases err with
    | some =>
      cases rounds
      exact ⟨⟨_, few, rfl, nonces⟩, fun _ => sent, by simp, fun _ => rfl⟩
    | none =>
      have more : s.out.written ++ bs.take (k + (take maxPlaintextSize (drop k bs)).length) =
          s.sent ++ take maxPlaintextSize (drop k bs) := by
        rw [take_add, ← append_assoc, sent, length_take, ← take_take, take_length]
      have failed : (s.failed || false) = true → s.out.tx.err.isSome := by
        rw [Bool.or_false]
        exact sound.failed
      dsimp only [map_none] at rounds
      split at rounds
      · cases rounds
        refine ⟨⟨_, few, rfl, nonces⟩, by simp, ?_, failed⟩
        rintro bs' k' ⟨⟩
        exact ⟨no, more⟩
      next all =>
        cases rounds
        rw [take_of_length_le (Nat.le_of_not_lt all)] at more
        exact ⟨⟨_, few, rfl, nonces⟩, fun _ => more, by simp, failed⟩

theorem Sound.step (sound : s.Sound) {use : Use} (taken : s.step A use = some s') : s'.Sound := by
  cases use with
  | write =>
    obtain ⟨out, wrote, rfl⟩ := map_eq_some_iff.1 taken
    cases free : s.out.writing with
    | some => simp [Link.write, free] at wrote
    | none =>
      have idle := sound.idle free
      simp only [Link.write, free] at wrote
      split at wrote
      next err =>
        cases wrote
        exact ⟨sound.nonces, fun _ => idle, by simp, fun _ => err⟩
      next err =>
        split at wrote
        · cases wrote
          exact ⟨sound.nonces, fun _ => idle, by simp, fun _ => by simp [TxState.fail]⟩
        next cipher =>
          have failed : s.failed = false := Bool.eq_false_iff.2 fun failed => err (sound.failed failed)
          simp only [failed, err, cipher]
          split at wrote
          · cases wrote
            exact ⟨sound.nonces, fun _ => idle, by simp, by simp⟩
          · cases wrote
            refine ⟨sound.nonces, by simp, ?_, by simp⟩
            rintro bs' k ⟨⟩
            exact ⟨not_isSome_iff_eq_none.1 err, (append_nil _).trans idle⟩
  | round taken => exact sound.round taken
  | read | deliver =>
    obtain ⟨inn, -, rfl⟩ := map_eq_some_iff.1 taken
    exact { sound with }
  | closeRx | closeTx =>
    obtain ⟨-, same⟩ := ite_none_right_eq_some.1 taken
    cases same
    exact { sound with }

/-- After an error nothing is encrypted or sent. -/
structure Ended (t s : Session) : Prop where
  err : s.out.tx.err.isSome
  free : s.out.writing = none
  same : s.nonces = t.nonces ∧ s.out.wire = t.out.wire

theorem Ended.step (ended : Ended t s) {use : Use} (taken : s.step A use = some s') : Ended t s' := by
  obtain ⟨err, free, same⟩ := ended
  cases use with
  | write =>
    obtain ⟨out, wrote, rfl⟩ := map_eq_some_iff.1 taken
    simp only [Link.write, free, err, if_true] at wrote
    cases wrote
    exact ⟨err, rfl, same⟩
  | round taken => simp [Session.step, Session.round, free] at taken
  | read | deliver =>
    obtain ⟨inn, -, rfl⟩ := map_eq_some_iff.1 taken
    exact ⟨err, free, same⟩
  | closeRx | closeTx =>
    obtain ⟨-, same'⟩ := ite_none_right_eq_some.1 taken
    cases same'
    exact ⟨err, free, same⟩

end Session

/-- `Increment`, and `none` where it panics. -/
def increment (n : UInt64) : Option UInt64 := if n = invalidNonce then none else some (n + 1)

def Progress.rx : Progress → RxState
  | .ready rx | .failed rx _ | .waiting rx _ => rx

theorem decryptLocked_increments {A : AEAD} {rx : RxState} {off len : Nat} {p : Progress}
    (taken : rx.decryptLocked A off len = some p) :
    p.rx.nonce = rx.nonce ∨ increment rx.nonce = some p.rx.nonce := by
  obtain ⟨buf, -, taken⟩ := bind_eq_some_iff.1 taken
  obtain ⟨msg, -, taken⟩ := bind_eq_some_iff.1 taken
  obtain ⟨msgType, -, taken⟩ := bind_eq_some_iff.1 taken
  split at taken
  · cases taken
    exact .inl rfl
  split at taken
  · cases taken
    exact .inl rfl
  next valid =>
    split at taken
    all_goals
      cases taken
      exact .inr (if_neg valid)

open Session in
/-- No nonce is used twice, `Increment` does not panic, nothing is sent after a failed `Write`, and what
`Write` counts is what the underlying connection took without an error. -/
theorem nonces_of_run {A : AEAD} {uses : List Use} {s : Session} (run : Run (step A) start uses s) :
    s.nonces.Nodup ∧ (∀ n ∈ s.nonces, increment n ≠ none) ∧
    (∀ rx off len p, RxState.decryptLocked A rx off len = some p →
      p.rx.nonce = rx.nonce ∨ increment rx.nonce = some p.rx.nonce) ∧
    (s.failed → ∀ more s', Run (step A) s more s' →
      s'.nonces = s.nonces ∧ s'.out.wire = s.out.wire) ∧
    (s.out.writing = none → s.out.written = s.sent) := by
  have sound : s.Sound := by
    induction run with
    | refl => exact ⟨⟨0, by decide, rfl, rfl⟩, fun _ => rfl, nofun, nofun⟩
    | snoc run taken ih => exact ih.step taken
  obtain ⟨count, small, -, used⟩ := sound.nonces
  refine ⟨?_, ?_, fun rx off len p => decryptLocked_increments, ?_, sound.idle⟩
  · rw [used]
    refine nodup_range.map_on fun a below b below' same => ?_
    have same := congrArg UInt64.toNat same
    rw [mem_range] at below below'
    rwa [UInt64.toNat_ofNat', UInt64.toNat_ofNat', Nat.mod_eq_of_lt (below.trans small),
      Nat.mod_eq_of_lt (below'.trans small)] at same
  · intro n mem
    rw [used] at mem
    obtain ⟨j, below, rfl⟩ := mem_map.1 mem
    rw [increment, if_neg (nonce_valid (Nat.lt_of_le_of_lt (mem_range.1 below) small))]
    nofun
  · intro failed more s' rest
    have err := sound.failed failed
    have free : s.out.writing = none := by
      by_contra busy
      obtain ⟨⟨bs, k⟩, call⟩ := ne_none_iff_exists'.1 busy
      rw [(sound.busy bs k call).1] at err
      cases err
    have ended : Ended s s' := by
      induction rest with
      | refl => exact ⟨err, free, rfl, rfl⟩
      | snoc rest taken ih => exact ih.step taken
    exact ended.same

namespace Sample

/-- The underlying connection takes the whole frame and returns an error all the same. -/
def unsure : List Use := [.write [7, 8], .round 21 (some (.transport "i/o timeout"))]

theorem unsure_run : ∃ s, Run (Session.step cipher) .start unsure s ∧
    s.out.wire = frame cipher 0 [7, 8] ∧ s.out.writing = none ∧ s.failed ∧ s.out.written = [] :=
  run_of_found ⟨_, rfl, by decide +kernel⟩

theorem sealed_once : ∃ s, Run (Session.step cipher) .start unsure s ∧ s.nonces = [0] ∧ s.nonces.Nodup := by
  obtain ⟨s, run, used⟩ : ∃ s, Run (Session.step cipher) .start unsure s ∧ s.nonces = [0] :=
    run_of_found ⟨_, rfl, rfl⟩
  exact ⟨s, run, used, (nonces_of_run run).1⟩

end Sample

end ScaleTail.Noise
