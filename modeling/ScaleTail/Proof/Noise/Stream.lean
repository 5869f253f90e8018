import ScaleTail.Lib.Runs
import ScaleTail.Noise.Conn

/-! # What is read is what was written -/

namespace ScaleTail.Noise
open Lib Go List Option RxState UInt64
open Nat (sub_zero zero_le)

variable (A : AEAD)

def frame (i : Nat) (d : Bytes) : Bytes :=
  (msgTypeRecord :: putUint16 (d.length + overhead)) ++ A.sealed (UInt64.ofNat i) d

def frames : Nat → List Bytes → Bytes
  | _, [] => []
  | i, d :: ds => frame A i d ++ frames (i + 1) ds

def Cut (i : Nat) (tail : Bytes) : Prop :=
  ∃ d more, d.length ≤ maxPlaintextSize ∧ more ≠ [] ∧ tail ++ more = frame A i d

variable {A} {i : Nat} {d u w tail wire : Bytes} {ds : List Bytes}

theorem length_frame : (frame A i d).length = headerLen + (d.length + overhead) := by
  rw [frame, length_append, A.length_sealed]
  rfl

theorem frames_snoc : frames A i (ds ++ [d]) = frames A i ds ++ frame A (i + ds.length) d := by
  induction ds generalizing i with
  | nil => simp [frames]
  | cons _ _ ih =>
    rw [cons_append, frames, frames, ih, append_assoc, length_cons,
      Nat.add_right_comm, Nat.add_assoc i]

theorem cut_nil : Cut A i [] := by
  refine ⟨[], frame A i [], zero_le _, fun empty => ?_, rfl⟩
  have length := length_frame (A := A) (i := i) (d := [])
  rw [empty] at length
  cases length

theorem uint16At_append (long : headerLen ≤ u.length) : uint16At (u ++ w) 1 = uint16At u 1 := by
  have first : 1 < u.length := Nat.lt_of_lt_of_le (by decide) long
  have second : 1 + 1 < u.length := Nat.lt_of_lt_of_le (by decide) long
  simp only [uint16At, getD_append _ _ _ _ first, getD_append _ _ _ _ second]

theorem uint16At_frame (short : d.length ≤ maxPlaintextSize) :
    headerLen + uint16At (frame A i d) 1 = (frame A i d).length := by
  have small : d.length + overhead < 65536 := by
    have : maxPlaintextSize + overhead < 65536 := by decide
    omega
  have header : headerLen ≤ (msgTypeRecord :: putUint16 (d.length + overhead)).length := Nat.le_refl 3
  rw [length_frame, frame, uint16At_append header]
  simp only [uint16At, putUint16, getD_cons_succ, getD_cons_zero, UInt8.toNat_ofNat']
  omega

theorem length_frame_le (short : d.length ≤ maxPlaintextSize) :
    headerLen ≤ (frame A i d).length ∧ (frame A i d).length ≤ maxMessageSize := by
  rw [length_frame]
  dsimp only [maxPlaintextSize, maxCiphertextSize, maxMessageSize, headerLen, overhead] at *
  omega

theorem first_frame (long : headerLen ≤ u.length) (stream : u ++ wire = frames A i ds ++ tail)
    (cut : Cut A (i + ds.length) tail) (short : ∀ d ∈ ds, d.length ≤ maxPlaintextSize) :
    ∃ d, d.length ≤ maxPlaintextSize ∧ headerLen + uint16At u 1 = (frame A i d).length ∧
      ((frame A i d).length ≤ u.length →
        ∃ ds' u', ds = d :: ds' ∧ u = frame A i d ++ u' ∧ u' ++ wire = frames A (i + 1) ds' ++ tail) := by
  cases ds with
  | nil =>
    obtain ⟨d, more, short, more_ne, whole⟩ := cut
    have all : u ++ (wire ++ more) = frame A i d := by
      rw [← append_assoc, stream]
      exact whole
    refine ⟨d, short, ?_, fun enough => ?_⟩
    · rw [← uint16At_frame short, ← all, uint16At_append long]
    have length := congrArg List.length all
    have := length_pos_iff.2 more_ne
    simp only [length_append] at length
    omega
  | cons d ds =>
    have short := short d mem_cons_self
    rw [frames, append_assoc] at stream
    have size : headerLen + uint16At u 1 = (frame A i d).length := by
      rw [← uint16At_frame short, ← uint16At_append long (w := wire), stream,
        uint16At_append (length_frame_le short).1]
    refine ⟨d, short, size, fun enough => ?_⟩
    obtain ⟨u', rfl⟩ : frame A i d <+: u := by
      apply prefix_of_prefix_length_le _ (prefix_append u wire) enough
      rw [stream]
      exact prefix_append _ _
    rw [append_assoc] at stream
    exact ⟨ds, u', rfl, rfl, append_cancel_left stream⟩

def RxState.unread (rx : RxState) : Bytes :=
  match rx.buf with
  | none => []
  | some buf => slice buf.1 rx.next rx.n

def RxState.plain (rx : RxState) : Bytes :=
  match rx.buf with
  | none => []
  | some buf => slice buf.1 rx.plaintext.off (rx.plaintext.off + rx.plaintext.len)

structure Holding (A : AEAD) (tail wire : Bytes) (rx : RxState) (i : Nat) (ds : List Bytes) : Prop where
  cipher : rx.cipher = true
  nonce : rx.nonce = UInt64.ofNat i
  next_le : rx.next ≤ rx.n
  n_le : rx.n ≤ maxMessageSize
  empty : rx.buf = none → rx.n = 0
  inside : rx.plaintext.off + rx.plaintext.len ≤ rx.next
  stream : rx.unread ++ wire = frames A i ds ++ tail
  cut : Cut A (i + ds.length) tail
  short : ∀ d ∈ ds, d.length ≤ maxPlaintextSize
  few : i + ds.length < 2 ^ 64

variable {rx : RxState} {buf : Buffer} {off len : Nat}

theorem window_eq (at_ : rx.buf = some buf) {a b : Nat} (order : a ≤ b) (inside : b ≤ maxMessageSize) :
    rx.window a b = some (slice buf.1 a b) := by
  rw [window, at_]
  exact if_pos ⟨order, inside⟩

theorem nonce_valid (few : i + 1 < 2 ^ 64) : ofNat i ≠ invalidNonce := by
  intro same
  have := congrArg toNat same
  simp [invalidNonce] at this
  omega

theorem decryptLocked_frame (at_ : rx.buf = some buf) (nonce : rx.nonce = ofNat i)
    (few : i + 1 < 2 ^ 64) (inside : off + len ≤ maxMessageSize)
    (msg : slice buf.1 off (off + len) = frame A i d) :
    rx.decryptLocked A off len = some (.ready { rx with
      buf := some (buf.write (off + headerLen) d)
      plaintext := ⟨off + headerLen, d.length⟩
      nonce := rx.nonce + 1 }) := by
  have body : (frame A i d).drop headerLen = A.sealed rx.nonce d := by
    rw [nonce]
    rfl
  have opened : A.opened rx.nonce ((frame A i d).drop headerLen) = some d := by
    rw [body, A.opened_sealed]
  have valid : rx.nonce ≠ invalidNonce := by
    rw [nonce]
    exact nonce_valid few
  have first : (frame A i d).head? = some msgTypeRecord := rfl
  simp only [decryptLocked, at_, window_eq at_ (Nat.le_add_right _ _) inside, msg, first,
    bind_eq_bind, bind_some]
  simp [opened, valid]

theorem unread_eq (at_ : rx.buf = some buf) : rx.unread = slice buf.1 rx.next rx.n := by
  rw [unread, at_]

structure Resumes (rx : RxState) (wait : Wait) : Prop where
  front : rx.next = 0
  plaintext : rx.plaintext = .nil
  body : ∀ messageLen, wait = .body messageLen →
    headerLen ≤ rx.n ∧ messageLen = headerLen + uint16At rx.unread 1

def Waits (rx : RxState) : Wait → Prop
  | .header => rx.n < headerLen
  | .body messageLen => rx.n < messageLen

inductive Outcome (A : AEAD) (tail wire rest : Bytes) (count : Nat) : Option Progress → Prop
  | ready {rx : RxState} {i : Nat} {ds : List Bytes} (holding : Holding A tail wire rx i ds)
      (rest_eq : rx.plain ++ ds.flatten = rest) (count_eq : i + ds.length = count) :
      Outcome A tail wire rest count (some (.ready rx))
  | waiting {rx : RxState} {wait : Wait} {i : Nat} {ds : List Bytes}
      (holding : Holding A tail wire rx i ds) (rest_eq : ds.flatten = rest)
      (count_eq : i + ds.length = count) (resumes : Resumes rx wait) (waits : Waits rx wait) :
      Outcome A tail wire rest count (some (.waiting rx wait))

theorem Holding.opened {ds' : List Bytes} {u' : Bytes} (h : Holding A tail wire rx i (d :: ds'))
    (at_ : rx.buf = some buf) (split : rx.unread = frame A i d ++ u') :
    Outcome A tail wire (d :: ds').flatten (i + (d :: ds').length) (decryptLocked A
      { rx with next := rx.next + (frame A i d).length } rx.next (frame A i d).length) := by
  have length : (frame A i d).length = headerLen + d.length + overhead := by
    rw [length_frame, Nat.add_assoc]
  have whole : rx.next + (frame A i d).length ≤ rx.n := by
    have := congrArg List.length split
    rw [unread_eq at_, length_slice (by rw [buf.2]; exact h.n_le), length_append] at this
    have := h.next_le
    omega
  have fits : rx.next + headerLen + d.length ≤ buf.1.length := by
    rw [buf.2]
    have := h.n_le
    omega
  have msg : slice buf.1 rx.next (rx.next + (frame A i d).length) = frame A i d := by
    rw [← take_slice whole, ← unread_eq at_, split, take_left']
    rfl
  have remains : slice buf.1 (rx.next + (frame A i d).length) rx.n = u' := by
    rw [← drop_slice, ← unread_eq at_, split, drop_left']
    rfl
  have few : i + 1 < 2 ^ 64 := by
    have := h.few
    rw [length_cons] at this
    omega
  rw [decryptLocked_frame (by exact at_) (by exact h.nonce) few (Nat.le_trans whole h.n_le) msg]
  refine @Outcome.ready _ _ _ _ _ _ (i + 1) ds' { h with
    nonce := ?nonce, next_le := whole, empty := nofun, inside := ?inside, stream := ?stream, cut := ?cut
    short := fun e mem => h.short e (mem_cons_of_mem d mem), few := ?few } ?_ ?_
  case nonce =>
    rw [h.nonce]
    exact (ofNat_add i 1).symm
  case inside =>
    dsimp only
    omega
  case stream =>
    have stream := h.stream
    rw [split, frames, append_assoc, append_assoc] at stream
    rw [← append_cancel_left stream, unread_eq rfl]
    congr 1
    rw [← remains]
    apply slice_overwrite_after fits
    dsimp only
    omega
  case cut =>
    have cut := h.cut
    rwa [length_cons, Nat.add_comm ds'.length, ← Nat.add_assoc] at cut
  case few =>
    have := h.few
    rw [length_cons] at this
    omega
  · exact congrArg (· ++ ds'.flatten) (slice_overwrite_self fits)
  · rw [length_cons]
    omega

section
variable (h : Holding A tail wire rx i ds)
include h

theorem length_unread : rx.unread.length = rx.n - rx.next := by
  cases at_ : rx.buf with
  | none =>
    rw [unread, at_, h.empty at_]
    simp
  | some buf => rw [unread_eq at_, length_slice (by rw [buf.2]; exact h.n_le)]

theorem Holding.exists_buf (some_ : 0 < rx.n) :
    ∃ buf, rx.buf = some buf := by
  cases at_ : rx.buf with
  | none =>
    rw [h.empty at_] at some_
    cases some_
  | some buf => exact ⟨buf, rfl⟩

theorem decryptBody_outcome {messageLen : Nat} (resumes : Resumes rx (.body messageLen)) :
    Outcome A tail wire ds.flatten (i + ds.length) (rx.decryptBody A messageLen) := by
  obtain ⟨long, size⟩ := resumes.body messageLen rfl
  have all : rx.unread.length = rx.n := by rw [length_unread h, resumes.front, sub_zero]
  obtain ⟨d, short, size', first⟩ := first_frame (by rw [all]; exact long) h.stream h.cut h.short
  rw [← size] at size'
  have small := (length_frame_le (A := A) (i := i) short).2
  rw [← size'] at small
  obtain ⟨buf, at_⟩ := h.exists_buf (Nat.lt_of_lt_of_le (by decide) long)
  by_cases enough : messageLen ≤ rx.n
  · have reads : rx.readNLocked messageLen = some .enough := by
      rw [readNLocked, if_neg (Nat.not_lt.2 small), if_pos enough]
    obtain ⟨ds', u', rfl, split, -⟩ := first (by rw [← size', all]; exact enough)
    have opened := h.opened at_ split
    rw [← size', resumes.front, Nat.zero_add] at opened
    rw [decryptBody, reads]
    exact opened
  · have reads : rx.readNLocked messageLen = some .more := by
      rw [readNLocked, if_neg (Nat.not_lt.2 small), if_neg enough, at_]
    rw [decryptBody, reads]
    exact .waiting h rfl rfl resumes (Nat.lt_of_not_le enough)

theorem decryptHeader_outcome (resumes : Resumes rx .header) :
    Outcome A tail wire ds.flatten (i + ds.length) (rx.decryptHeader A) := by
  by_cases enough : headerLen ≤ rx.n
  · have reads : rx.readNLocked headerLen = some .enough := by
      rw [readNLocked, if_neg (by decide), if_pos enough]
    obtain ⟨buf, at_⟩ := h.exists_buf (Nat.lt_of_lt_of_le (by decide) enough)
    have unread : rx.unread = slice buf.1 0 headerLen ++ slice buf.1 headerLen rx.n := by
      rw [unread_eq at_, resumes.front, slice_append (zero_le _) enough]
    have size : uint16At (slice buf.1 0 headerLen) 1 = uint16At rx.unread 1 := by
      rw [unread, uint16At_append]
      rw [length_slice (by rw [buf.2]; decide)]
      exact Nat.le_refl 3
    have header : rx.window 0 headerLen = some (slice buf.1 0 headerLen) :=
      window_eq at_ (zero_le _) (by decide)
    rw [decryptHeader, reads]
    simp only [bind_eq_bind, bind_some, header, size]
    apply decryptBody_outcome h
    refine ⟨resumes.front, resumes.plaintext, ?_⟩
    rintro messageLen ⟨⟩
    exact ⟨enough, rfl⟩
  · have reads : rx.readNLocked headerLen = some .more := by
      rw [readNLocked, if_neg (by decide), if_neg enough]
      cases at_ : rx.buf with
      | none => simp [h.empty at_]
      | some => rfl
    rw [decryptHeader, reads]
    exact .waiting h rfl rfl resumes (Nat.lt_of_not_le enough)

theorem window_unread (at_ : rx.buf = some buf) : rx.window rx.next rx.n = some rx.unread := by
  rw [window_eq at_ h.next_le h.n_le, unread_eq at_]

theorem compact_holding (none_ : rx.plaintext = .nil) :
    ∃ rx', rx.compact = some rx' ∧ Holding A tail wire rx'.release i ds ∧ Resumes rx'.release .header := by
  have release {rx : RxState} (h : Holding A tail wire rx i ds) (front : rx.next = 0)
      (none_ : rx.plaintext = .nil) :
      Holding A tail wire rx.release i ds ∧ Resumes rx.release .header := by
    by_cases empty : rx.n = 0 ∧ rx.next = 0
    · have unread : rx.unread = [] := eq_nil_of_length_eq_zero (by rw [length_unread h]; omega)
      rw [release, if_pos empty]
      refine ⟨{ h with empty := fun _ => empty.1, stream := ?_ }, front, none_, nofun⟩
      have stream := h.stream
      rw [unread] at stream
      exact stream
    · rw [release, if_neg empty]
      exact ⟨h, front, none_, nofun⟩
  by_cases front : rx.next = 0
  · exact ⟨rx, by rw [compact, if_pos front], release h front none_⟩
  obtain ⟨buf, at_⟩ := h.exists_buf (Nat.lt_of_lt_of_le (Nat.pos_of_ne_zero front) h.next_le)
  have length := length_unread h
  refine ⟨{ rx with buf := some (buf.write 0 rx.unread), n := rx.unread.length, next := 0 }, ?_, ?_⟩
  · rw [compact, if_neg front, window_unread h at_, at_]
    rfl
  · have n_le := h.n_le
    refine release { h with
      next_le := zero_le _
      n_le := by dsimp only; omega
      empty := nofun
      inside := by simp [none_, Slice.nil]
      stream := ?_ } rfl none_
    rw [← h.stream]
    congr 1
    have fits : 0 + rx.unread.length ≤ buf.1.length := by
      rw [buf.2]
      omega
    have moved := slice_overwrite_self fits
    rwa [Nat.zero_add] at moved

theorem wholeMessageLocked_eq :
    rx.wholeMessageLocked = some none ∨ ∃ d ds' u', ds = d :: ds' ∧ rx.unread = frame A i d ++ u' ∧
      rx.wholeMessageLocked = some (some (frame A i d).length) := by
  have length := length_unread h
  by_cases few : rx.n - rx.next < headerLen
  · left
    rw [wholeMessageLocked, if_pos few]
  rw [← length] at few
  obtain ⟨d, short, size, first⟩ := first_frame (Nat.le_of_not_lt few) h.stream h.cut h.short
  have three : 0 < headerLen := by decide
  obtain ⟨buf, at_⟩ := h.exists_buf (by omega)
  have whole : rx.wholeMessageLocked = some (if rx.unread.length < (frame A i d).length then none
      else some (frame A i d).length) := by
    rw [wholeMessageLocked, ← length, if_neg few, window_unread h at_]
    simp only [bind_eq_bind, bind_some, size]
    rfl
  by_cases enough : rx.unread.length < (frame A i d).length
  · left
    rw [whole, if_pos enough]
  · obtain ⟨ds', u', same, split, -⟩ := first (Nat.le_of_not_lt enough)
    rw [if_neg enough] at whole
    exact .inr ⟨d, ds', u', same, split, whole⟩

theorem decryptOneLocked_outcome :
    Outcome A tail wire ds.flatten (i + ds.length) (rx.decryptOneLocked A) := by
  have h' : Holding A tail wire { rx with plaintext := .nil } i ds :=
    { h with inside := zero_le _ }
  rw [decryptOneLocked]
  rcases wholeMessageLocked_eq h' with part | ⟨d, ds', u', rfl, split, whole⟩
  · obtain ⟨rx', compacted, holding, resumes⟩ := compact_holding h' rfl
    simp only [part, compacted, bind_eq_bind, bind_some]
    exact decryptHeader_outcome holding resumes
  · have three := (length_frame_le (A := A) (i := i) (h.short d mem_cons_self)).1
    have length := length_unread h'
    have some_ : 0 < rx.n := by
      rw [split, length_append] at length
      dsimp only [headerLen] at *
      omega
    obtain ⟨buf, at_⟩ := h'.exists_buf some_
    simp only [whole, bind_eq_bind, bind_some]
    exact h'.opened at_ split

end

theorem plain_eq_nil (none_ : rx.plaintext.len = 0) : rx.plain = [] := by
  unfold plain
  split
  · rfl
  · rw [none_, Nat.add_zero, slice_self]

theorem Resumes.plain {wait : Wait} (resumes : Resumes rx wait) : rx.plain = [] :=
  plain_eq_nil (by rw [resumes.plaintext]; rfl)

theorem readLoop_outcome (h : Holding A tail wire rx i ds) :
    Outcome A tail wire (rx.plain ++ ds.flatten) (i + ds.length) (readLoop A rx) ∧
      ∀ rx', readLoop A rx = some (.ready rx') → rx'.plaintext.len ≠ 0 := by
  fun_induction readLoop A rx generalizing i ds with
  | case1 _ none_ _ done ih =>
    have outcome := decryptOneLocked_outcome h
    rw [done] at outcome
    cases outcome with
    | ready holding rest_eq count_eq =>
      have rest := ih holding
      rwa [rest_eq, count_eq, ← nil_append ds.flatten, ← plain_eq_nil none_] at rest
  | case2 _ none_ failed =>
    rw [plain_eq_nil none_, nil_append]
    exact ⟨decryptOneLocked_outcome h, fun rx' done => absurd done (failed rx')⟩
  | case3 _ some_ =>
    refine ⟨.ready h rfl rfl, ?_⟩
    rintro rx' ⟨⟩
    exact some_

variable {wait : Wait} {data out : Bytes} {count : Nat} {tx : TxState} {len : Nat}

theorem resume_outcome (h : Holding A tail wire rx i ds) (resumes : Resumes rx wait) :
    Outcome A tail wire ds.flatten (i + ds.length) (rx.resume A wait) := by
  have first : Outcome A tail wire ds.flatten (i + ds.length) (rx.resumeOne A wait) := by
    cases wait with
    | header => exact decryptHeader_outcome h resumes
    | body => exact decryptBody_outcome h resumes
  rw [resume]
  generalize rx.resumeOne A wait = progress at first
  cases first with
  | ready holding rest_eq count_eq =>
    have rest := (readLoop_outcome holding).1
    rwa [rest_eq, count_eq] at rest
  | waiting holding rest_eq count_eq resumes waits =>
    exact .waiting holding rest_eq count_eq resumes waits

theorem unread_fill (h : Holding A tail wire rx i ds) {room : Nat} (pool : Buffer)
    (has : rx.room = some room) (fits : data.length ≤ room) :
    (rx.fill data pool).unread = rx.unread ++ data ∧ (rx.fill data pool).n = rx.n + data.length ∧
      (rx.fill data pool).n ≤ maxMessageSize := by
  cases at_ : rx.buf with
  | none =>
    have front : rx.next = 0 := Nat.eq_zero_of_le_zero (h.empty at_ ▸ h.next_le)
    rw [RxState.room, at_] at has
    cases has
    have small : headerLen ≤ maxMessageSize := by decide
    by_cases some_ : 0 < data.length
    · have fits' : 0 + data.length ≤ pool.1.length := by
        rw [pool.2]
        omega
      have put := slice_overwrite_self fits'
      simp only [fill, at_, if_pos some_, unread, h.empty at_, front, Buffer.write]
      exact ⟨put, trivial, by omega⟩
    · have empty : data = [] := eq_nil_of_length_eq_zero (Nat.eq_zero_of_not_pos some_)
      subst empty
      rw [fill, at_]
      exact ⟨(append_nil _).symm, rfl, h.n_le⟩
  | some buf =>
    rw [RxState.room, at_] at has
    have room_eq := Option.some.inj (has.symm.trans (if_pos h.n_le))
    have n_le := h.n_le
    have fits' : rx.n + data.length ≤ buf.1.length := by
      rw [buf.2]
      omega
    simp only [fill, at_, unread, Buffer.write]
    refine ⟨?_, trivial, by omega⟩
    rw [← slice_append h.next_le (Nat.le_add_right _ _), slice_overwrite_self fits',
      slice_overwrite_before fits' (Nat.le_refl _)]

theorem fill_fields (rx : RxState) (data : Bytes) (pool : Buffer) :
    (rx.fill data pool).cipher = rx.cipher ∧ (rx.fill data pool).nonce = rx.nonce ∧
    (rx.fill data pool).next = rx.next ∧ (rx.fill data pool).plaintext = rx.plaintext ∧
    ((rx.fill data pool).buf = none → rx.buf = none ∧ data = []) := by
  unfold fill
  split
  next at_ =>
    by_cases some_ : 0 < data.length
    · rw [if_pos some_]
      exact ⟨rfl, rfl, rfl, rfl, nofun⟩
    · rw [if_neg some_]
      exact ⟨rfl, rfl, rfl, rfl, fun _ => ⟨at_, by simpa using some_⟩⟩
  · exact ⟨rfl, rfl, rfl, rfl, nofun⟩

theorem fill_holding {room : Nat} (pool : Buffer)
    (h : Holding A tail (data ++ wire) rx i ds) (has : rx.room = some room)
    (fits : data.length ≤ room) (resumes : Resumes rx wait) :
    Holding A tail wire (rx.fill data pool) i ds ∧ Resumes (rx.fill data pool) wait := by
  obtain ⟨unread, n, n_le⟩ := unread_fill h pool has fits
  obtain ⟨cipher, nonce, next, plaintext, empty⟩ := fill_fields rx data pool
  refine ⟨?_, next.trans resumes.front, plaintext.trans resumes.plaintext, ?_⟩
  · refine { h with
      cipher := cipher.trans h.cipher, nonce := nonce.trans h.nonce, next_le := ?_, n_le
      empty := fun none_ => ?_, inside := ?_, stream := ?_ }
    · rw [next, n]
      exact Nat.le_add_right_of_le h.next_le
    · rw [n, h.empty (empty none_).1, (empty none_).2]
      rfl
    · rw [plaintext, next]
      exact h.inside
    · rw [unread, append_assoc, h.stream]
  · intro messageLen same
    obtain ⟨long, size⟩ := resumes.body messageLen same
    have all : headerLen ≤ rx.unread.length := by
      rwa [length_unread h, resumes.front, sub_zero]
    rw [n, unread, uint16At_append all]
    exact ⟨Nat.le_add_right_of_le long, size⟩

theorem copyOut_plain (h : Holding A tail wire rx i ds) (len : Nat) :
    Holding A tail wire (rx.copyOut len).1 i ds ∧
      (rx.copyOut len).2 ++ (rx.copyOut len).1.plain = rx.plain := by
  have inside := h.inside
  have least := Nat.min_le_right len rx.plaintext.len
  constructor
  · refine { h with inside := ?_ }
    dsimp only [copyOut]
    split
    · exact zero_le _
    · dsimp only
      omega
  · unfold plain copyOut
    cases rx.buf with
    | none => rfl
    | some =>
      dsimp only
      split
      next all => rw [Slice.nil, Nat.add_zero, slice_self, append_nil, ← all]
      next some_ =>
        rw [Nat.add_assoc, Nat.add_sub_cancel' least, slice_append] <;> omega

theorem length_copyOut (h : Holding A tail wire rx i ds) (some_ : rx.plaintext.len ≠ 0)
    (wants : 0 < len) : 0 < (rx.copyOut len).2.length := by
  have inside := h.inside
  have next_le := h.next_le
  have n_le := h.n_le
  obtain ⟨buf, at_⟩ := h.exists_buf (by omega)
  simp only [copyOut, at_]
  rw [length_slice (by rw [buf.2]; omega)]
  omega

theorem nil_of_waits (h : Holding A tail [] rx i ds) (resumes : Resumes rx wait)
    (waits : Waits rx wait) : ds = [] := by
  cases ds with
  | nil => rfl
  | cons d =>
    have stream := h.stream
    rw [append_nil, frames, append_assoc] at stream
    have short := h.short d mem_cons_self
    have three := (length_frame_le (A := A) (i := i) short).1
    have length := length_unread h
    rw [stream, length_append, resumes.front, sub_zero] at length
    cases wait with
    | header =>
      have few : rx.n < headerLen := waits
      omega
    | body messageLen =>
      have few : rx.n < messageLen := waits
      have size := (resumes.body messageLen rfl).2
      rw [stream, uint16At_append three, uint16At_frame short] at size
      omega

structure Reads (A : AEAD) (l : Link) (out tail : Bytes) (count i : Nat) (ds : List Bytes) : Prop where
  holding : Holding A tail l.wire l.rx i ds
  count_eq : i + ds.length = count
  out_eq : l.received ++ (l.rx.plain ++ ds.flatten) = out
  waits : ∀ len wait, l.reading = some (len, wait) → Resumes l.rx wait ∧ Waits l.rx wait
  calm : l.panicked = false

structure Writes (l : Link) (out tail : Bytes) (count : Nat) : Prop where
  given : out <+: l.given
  written : l.written <+: out
  live : l.tx.err = none → l.tx.cipher = true ∧ l.tx.nonce = UInt64.ofNat count ∧ tail = []
  idle : l.tx.err = none → l.writing = none → l.given = out ∧ l.written = out
  busy : ∀ bs sent, l.writing = some (bs, sent) → l.tx.err = none ∧ sent < bs.length ∧
    l.given = out ++ bs.drop sent ∧ out = l.written ++ bs.take sent

def Good (A : AEAD) (l : Link) : Prop :=
  ∃ out tail count, (∃ i ds, Reads A l out tail count i ds) ∧ Writes l out tail count

theorem start_good : Good A .start := by
  refine ⟨[], [], 0, ⟨0, [], ?_, rfl, rfl, nofun, rfl⟩,
    prefix_rfl, prefix_rfl, fun _ => ⟨rfl, rfl, rfl⟩, fun _ _ => ⟨rfl, rfl⟩, nofun⟩
  exact ⟨rfl, rfl, zero_le _, zero_le _, fun _ => rfl, zero_le _, rfl, cut_nil, nofun,
    Nat.two_pow_pos 64⟩

variable {l l' : Link}

theorem Good.write (good : Good A l) {bs : Bytes} (taken : l.write bs = some l') : Good A l' := by
  obtain ⟨out, tail, count, ⟨i, ds, reads⟩, given, written, live, idle, busy⟩ := good
  cases free : l.writing with
  | some => simp [Link.write, free] at taken
  | none =>
    simp only [Link.write, free] at taken
    by_cases failed : l.tx.err.isSome
    · rw [if_pos failed] at taken
      cases taken
      have dead (err : l.tx.err = none) : False := by simp [err] at failed
      exact ⟨out, tail, count, ⟨i, ds, { reads with }⟩, given.trans (prefix_append _ _), written,
        live, fun err => (dead err).elim, nofun⟩
    · have err : l.tx.err = none := by simpa using failed
      obtain ⟨same, all⟩ := idle err free
      rw [if_neg failed, if_neg (by simp [(live err).1])] at taken
      split at taken
      next empty =>
        subst empty
        cases taken
        rw [append_nil]
        exact ⟨out, tail, count, ⟨i, ds, { reads with }⟩, given, written, live,
          fun _ _ => ⟨same, all⟩, nofun⟩
      next some_ =>
        cases taken
        refine ⟨out, tail, count, ⟨i, ds, { reads with }⟩, given.trans (prefix_append _ _),
          written, live, nofun, ?_⟩
        rintro bs' sent ⟨⟩
        exact ⟨err, length_pos_iff.2 some_, by rw [same]; rfl, by rw [all]; simp⟩

theorem Holding.snoc (h : Holding A [] wire rx i ds) (short : d.length ≤ maxPlaintextSize)
    (few : i + ds.length + 1 < 2 ^ 64) :
    Holding A [] (wire ++ frame A (i + ds.length) d) rx i (ds ++ [d]) := by
  refine { h with stream := ?_, cut := cut_nil, short := fun e mem => ?_, few := ?_ }
  · rw [← append_assoc, h.stream, frames_snoc, append_nil, append_nil]
  · rcases mem_append.1 mem with mem | mem
    · exact h.short e mem
    · rw [mem_singleton.1 mem]
      exact short
  · rwa [length_append, ← Nat.add_assoc]

theorem Holding.cutOff (h : Holding A [] wire rx i ds) (cut : Cut A (i + ds.length) tail) :
    Holding A tail (wire ++ tail) rx i ds :=
  { h with
    stream := by rw [← append_assoc, h.stream, append_nil]
    cut }

theorem Reads.snoc (reads : Reads A l out [] count i ds)
    (short : d.length ≤ maxPlaintextSize) (few : count + 1 < 2 ^ 64) (tx : TxState)
    (writing : Option (Bytes × Nat)) (written : Bytes) :
    Reads A { l with tx, wire := l.wire ++ frame A count d, writing, written } (out ++ d) []
      (count + 1) i (ds ++ [d]) := by
  have count_eq := reads.count_eq
  subst count_eq
  refine ⟨reads.holding.snoc short few, ?_, ?_, reads.waits, reads.calm⟩
  · rw [length_append]
    rfl
  · rw [← reads.out_eq, flatten_append]
    simp

theorem Reads.cutOff (reads : Reads A l out [] count i ds)
    (cut : Cut A count tail) (tx : TxState) (writing : Option (Bytes × Nat)) (written : Bytes) :
    Reads A { l with tx, wire := l.wire ++ tail, writing, written } out tail count i ds :=
  { reads with holding := reads.holding.cutOff (by rwa [reads.count_eq]) }

theorem encryptLocked_eq (nonce : tx.nonce = ofNat count) (small : count < 2 ^ 64) :
    tx.encryptLocked A d = none ∨ count + 1 < 2 ^ 64 ∧
      tx.encryptLocked A d = some (frame A count d, { tx with nonce := ofNat (count + 1) }) := by
  by_cases last : tx.nonce = invalidNonce
  · exact .inl (if_pos last)
  refine .inr ⟨?_, ?_⟩
  · by_contra top
    have count_eq : count = 2 ^ 64 - 1 := by omega
    rw [nonce, count_eq] at last
    exact last rfl
  · rw [TxState.encryptLocked, if_neg last, nonce, ofNat_add]
    rfl

theorem round_cases (nonce : tx.nonce = ofNat count)
    (small : count < 2 ^ 64) (short : d.length ≤ maxPlaintextSize) (fault : Option (Nat × Err)) :
    (count + 1 < 2 ^ 64 ∧ tx.round A d fault =
      ⟨{ tx with nonce := ofNat (count + 1) }, frame A count d, none⟩) ∨
    ∃ tx' out err, tx.round A d fault = ⟨tx', out, some err⟩ ∧ tx'.err ≠ none ∧
      (Cut A count out ∨ count + 1 < 2 ^ 64 ∧ out = frame A count d) := by
  rcases encryptLocked_eq (A := A) (d := d) nonce small with exhausted | ⟨few, encrypted⟩
  · right
    rw [TxState.round, exhausted]
    refine ⟨_, _, _, rfl, ?_, .inl cut_nil⟩
    cases err : tx.err <;> simp [TxState.fail, err]
  · rw [TxState.round, encrypted]
    cases fault with
    | none => exact .inl ⟨few, rfl⟩
    | some fault =>
      obtain ⟨k, e⟩ := fault
      refine .inr ⟨_, _, _, rfl, by simp [TxState.fail], ?_⟩
      by_cases all : (frame A count d).length ≤ k
      · exact .inr ⟨few, take_of_length_le all⟩
      refine .inl ⟨d, (frame A count d).drop k, short, ?_, take_append_drop _ _⟩
      rw [Ne, drop_eq_nil_iff]
      exact all

theorem Good.round (good : Good A l) {fault : Option (Nat × Err)} (taken : l.round A fault = some l') :
    Good A l' := by
  obtain ⟨out, tail, count, ⟨i, ds, reads⟩, writes⟩ := good
  cases call : l.writing with
  | none => simp [Link.round, call] at taken
  | some call' =>
    obtain ⟨bs, sent⟩ := call'
    obtain ⟨err, inside, given, out_eq⟩ := writes.busy bs sent call
    obtain ⟨cipher, nonce, rfl⟩ := writes.live err
    have small : count < 2 ^ 64 := reads.count_eq ▸ reads.holding.few
    simp only [Link.round, call] at taken
    generalize toSend_eq : (bs.drop sent).take maxPlaintextSize = toSend at taken
    have short : toSend.length ≤ maxPlaintextSize := by
      rw [← toSend_eq, length_take]
      exact Nat.min_le_left _ _
    -- what is given to `Write` is sent in order
    obtain ⟨later, split⟩ : ∃ later, bs.drop sent = toSend ++ later :=
      ⟨_, by rw [← toSend_eq, take_append_drop]⟩
    have whole : bs = bs.take sent ++ (toSend ++ later) := by rw [← split, take_append_drop]
    have extends_ : out ++ toSend <+: l.given := by
      rw [given, split, ← append_assoc]
      exact prefix_append _ _
    rcases round_cases nonce small short fault with ⟨few, round⟩ | ⟨tx', part, e, round, failed, cut⟩
    · rw [round] at taken
      dsimp only at taken
      have live (_ : l.tx.err = none) : l.tx.cipher = true ∧
          ofNat (count + 1) = ofNat (count + 1) ∧ ([] : Bytes) = [] := ⟨cipher, rfl, rfl⟩
      have written : l.written <+: out ++ toSend := by
        rw [out_eq, append_assoc]
        exact prefix_append _ _
      have sent' : (bs.take sent).length = sent := length_take_of_le (Nat.le_of_lt inside)
      have lengths := congrArg List.length whole
      simp only [length_append, sent'] at lengths
      refine ⟨out ++ toSend, [], count + 1, ⟨i, ds ++ [toSend], ?_⟩, ?_⟩
      · split at taken <;> cases taken <;> exact reads.snoc short few _ _ _
      · split at taken
        next more =>
          cases taken
          refine ⟨extends_, written, live, nofun, ?_⟩
          rintro bs' sent'' ⟨⟩
          refine ⟨err, more, ?_, ?_⟩
          · rw [given, split, ← drop_drop, split, drop_left' rfl, append_assoc]
          · rw [out_eq, append_assoc, take_add, split, take_left' rfl]
        next last =>
          have all : later = [] := eq_nil_of_length_eq_zero (by omega)
          rw [all, append_nil] at whole split
          cases taken
          have same : l.written ++ bs = out ++ toSend := by
            rw [out_eq, append_assoc, ← whole]
          refine ⟨extends_, ?_, live, fun _ _ => ⟨?_, same⟩, nofun⟩
          · exact same ▸ prefix_rfl
          · rw [given, split]
    · rw [round] at taken
      cases taken
      have dead {p : Prop} (none_ : tx'.err = none) : p := absurd none_ failed
      rcases cut with cut | ⟨few, rfl⟩
      · refine ⟨out, part, count, ⟨i, ds, reads.cutOff cut _ _ _⟩, writes.given, ?_, dead, dead, nofun⟩
        rw [out_eq]
      · refine ⟨out ++ toSend, [], count + 1, ⟨i, ds ++ [toSend], reads.snoc short few _ _ _⟩, extends_,
          ?_, dead, dead, nofun⟩
        rw [← out_eq]
        exact prefix_append _ _

theorem settle_good {rest : Bytes} {progress : Option Progress}
    (outcome : Outcome A tail l.wire rest count progress) (out_eq : l.received ++ rest = out)
    (writes : Writes l out tail count) (calm : l.panicked = false) : Good A (l.settle len progress) := by
  cases outcome with
  | ready holding rest_eq count_eq =>
    obtain ⟨holding', split⟩ := copyOut_plain holding len
    refine ⟨out, tail, count, ⟨_, _, holding', count_eq, ?_, nofun, calm⟩, { writes with }⟩
    dsimp only [Link.settle]
    rw [← out_eq, ← rest_eq, ← split, append_assoc, append_assoc]
  | waiting holding rest_eq count_eq resumes waits =>
    refine ⟨out, tail, count, ⟨_, _, holding, count_eq, ?_, ?_, calm⟩, { writes with }⟩
    · dsimp only [Link.settle]
      rw [resumes.plain, nil_append, rest_eq, out_eq]
    · rintro len' wait' ⟨⟩
      exact ⟨resumes, waits⟩

theorem Good.read (good : Good A l) (taken : l.read A len = some l') : Good A l' := by
  obtain ⟨out, tail, count, ⟨i, ds, reads⟩, writes⟩ := good
  cases free : l.reading with
  | some => simp [Link.read, free] at taken
  | none =>
    simp only [Link.read, free, reads.holding.cipher, if_true] at taken
    cases taken
    have outcome := (readLoop_outcome reads.holding).1
    rw [reads.count_eq] at outcome
    exact settle_good outcome reads.out_eq writes reads.calm

theorem room_of_holding (h : Holding A tail wire rx i ds) : ∃ room, rx.room = some room := by
  unfold RxState.room
  split
  · exact ⟨_, rfl⟩
  · exact ⟨_, if_pos h.n_le⟩

theorem Good.deliver (good : Good A l) {most : Nat} {err : Option Err} {pool : Buffer}
    (taken : l.deliver A most err pool = some l') : Good A l' := by
  obtain ⟨out, tail, count, ⟨i, ds, reads⟩, writes⟩ := good
  cases call : l.reading with
  | none => simp [Link.deliver, call] at taken
  | some call' =>
    obtain ⟨len, wait⟩ := call'
    obtain ⟨room, has⟩ := room_of_holding reads.holding
    obtain ⟨resumes, waits⟩ := reads.waits len wait call
    simp only [Link.deliver, call, has] at taken
    generalize min_eq : min most room = n at taken
    have fits : (l.wire.take n).length ≤ room := by
      rw [length_take]
      omega
    have holding := reads.holding
    rw [← take_append_drop n l.wire] at holding
    obtain ⟨holding', resumes'⟩ := fill_holding pool holding has fits resumes
    have out_eq := reads.out_eq
    rw [resumes.plain, nil_append] at out_eq
    cases err with
    | none =>
      cases taken
      have outcome := resume_outcome holding' resumes'
      rw [reads.count_eq] at outcome
      exact settle_good (l := { l with wire := l.wire.drop n }) outcome out_eq { writes with }
        reads.calm
    | some =>
      cases taken
      refine ⟨out, tail, count, ⟨i, ds, holding', reads.count_eq, ?_, nofun, reads.calm⟩,
        { writes with }⟩
      dsimp only [Link.settle]
      rw [resumes'.plain, nil_append]
      exact out_eq

theorem Good.step (good : Good A l) {op : Op} (taken : l.step A op = some l') : Good A l' := by
  cases op with
  | write => exact good.write taken
  | round => exact good.round taken
  | read => exact good.read taken
  | deliver => exact good.deliver taken

theorem good_of_run {ops : List Op} (run : Run (Link.step A) .start ops l) : Good A l := by
  induction run with
  | refl => exact start_good
  | snoc _ taken ih => exact ih.step taken

theorem Good.received_prefix (good : Good A l) : l.received <+: l.given := by
  obtain ⟨out, tail, count, ⟨i, ds, reads⟩, writes⟩ := good
  apply List.IsPrefix.trans _ writes.given
  rw [← reads.out_eq]
  exact prefix_append _ _

section
variable (good : Good A l) (empty : l.wire = [])
include good empty

theorem Good.all_received (waits : l.reading ≠ none) :
    l.written <+: l.received := by
  obtain ⟨out, tail, count, ⟨i, ds, reads⟩, writes⟩ := good
  obtain ⟨⟨len, wait⟩, call⟩ := ne_none_iff_exists'.1 waits
  obtain ⟨resumes, waits⟩ := reads.waits len wait call
  have holding := reads.holding
  rw [empty] at holding
  have none_ := nil_of_waits holding resumes waits
  have all : l.received = out := by
    rw [← reads.out_eq, none_, resumes.plain]
    simp
  rw [all]
  exact writes.written

theorem Good.read_progress (free : l.reading = none)
    (wants : 0 < len) : l.written <+: l.received ∨ ∃ l', l.read A len = some l' ∧ l'.wire = [] ∧
      l'.reading = none ∧ l'.given = l.given ∧ l'.written = l.written ∧
      l.received.length < l'.received.length := by
  have ⟨out, tail, count, ⟨i, ds, reads⟩, writes⟩ := good
  have taken : l.read A len = some (l.settle len (readLoop A l.rx)) := by
    simp only [Link.read, free, reads.holding.cipher, if_true]
  obtain ⟨outcome, returns⟩ := readLoop_outcome reads.holding
  generalize readLoop A l.rx = progress at taken outcome returns
  cases outcome with
  | ready holding =>
    right
    refine ⟨_, taken, empty, rfl, rfl, rfl, ?_⟩
    have some_ := length_copyOut holding (returns _ rfl) wants
    dsimp only [Link.settle]
    rw [length_append]
    omega
  | waiting =>
    left
    exact (good.read taken).all_received empty nofun

theorem Good.drain (free : l.reading = none) {sizes : List Nat}
    (positive : ∀ len ∈ sizes, 0 < len) (enough : l.given.length ≤ l.received.length + sizes.length) :
    ∃ k l', Run (Link.step A) l ((sizes.take k).map .read) l' ∧ l.written <+: l'.received := by
  induction sizes generalizing l with
  | nil =>
    have all := good.received_prefix.eq_of_length_le enough
    obtain ⟨out, tail, count, -, writes⟩ := good
    refine ⟨0, l, .refl, ?_⟩
    rw [all]
    exact writes.written.trans writes.given
  | cons len _ ih =>
    rcases good.read_progress empty free (positive len mem_cons_self) with
      all | ⟨l₁, taken, empty₁, free₁, given, written, more⟩
    · exact ⟨0, l, .refl, all⟩
    rw [length_cons] at enough
    obtain ⟨k, l', run, all⟩ := ih (good.read taken) empty₁ free₁
      (fun n mem => positive n (mem_cons_of_mem len mem)) (by rw [given]; omega)
    have first : Run (Link.step A) l [.read len] l₁ := .snoc .refl taken
    rw [written] at all
    exact ⟨k + 1, l', first.trans run, all⟩

end

/-- Whatever the underlying connection does, what is read is what was written: never anything else,
and in the end all of it. -/
theorem reads_what_was_written {ops : List Op} (run : Run (Link.step A) .start ops l) :
    l.received <+: l.given ∧
    (l.tx.err = none → l.writing = none → l.written = l.given) ∧
    (l.wire = [] →
      (l.reading ≠ none → l.written <+: l.received) ∧
      (l.reading = none → ∀ sizes : List Nat, (∀ len ∈ sizes, 0 < len) →
        l.given.length ≤ sizes.length → ∃ k l',
          Run (Link.step A) l ((sizes.take k).map .read) l' ∧ l.written <+: l'.received)) ∧
    l.rx.next ≤ l.rx.n ∧ l.rx.n ≤ maxMessageSize ∧ l.panicked = false := by
  have good := good_of_run run
  have ⟨out, tail, count, ⟨i, ds, reads⟩, writes⟩ := good
  refine ⟨good.received_prefix, ?_, ?_, reads.holding.next_le, reads.holding.n_le, reads.calm⟩
  · intro err free
    obtain ⟨given, written⟩ := writes.idle err free
    rw [given, written]
  · intro empty
    refine ⟨good.all_received empty, fun free sizes positive enough => ?_⟩
    exact good.drain empty free positive (Nat.le_add_left_of_le enough)

namespace Sample

def tagged (nonce : UInt64) : Bytes := List.replicate overhead nonce.toUInt8

def cipher : AEAD where
  sealed nonce plaintext := plaintext ++ tagged nonce
  opened nonce ciphertext :=
    let plaintext := ciphertext.take (ciphertext.length - overhead)
    if ciphertext = plaintext ++ tagged nonce then some plaintext else none
  length_sealed _ _ := by simp [tagged]
  opened_sealed _ _ := by simp [tagged]

def pool : Buffer := ⟨List.replicate maxMessageSize 0, length_replicate⟩

def wrote : Link :=
  { Link.start with
    tx := ⟨true, 1, none⟩, wire := frame cipher 0 [7, 8], given := [7, 8], written := [7, 8] }

def interrupted : Link :=
  { wrote with
    rx := ⟨true, 0, some (pool.write 0 [4, 0]), 2, 0, .nil⟩, wire := (frame cipher 0 [7, 8]).drop 2 }

theorem read_waits {rx' : RxState} (free : l.reading = none)
    (cipher : l.rx.cipher = true) (none_ : l.rx.plaintext.len = 0)
    (waits : l.rx.decryptOneLocked A = some (.waiting rx' wait)) :
    l.step A (.read len) = some { l with rx := rx', reading := some (len, wait) } := by
  have loop : readLoop A l.rx = some (.waiting rx' wait) := by
    rw [readLoop, if_pos none_]
    split
    next done => cases waits.symm.trans done
    next => exact waits
  simp only [Link.step, Link.read, free, cipher, if_true, loop, Link.settle]

def header : Op := .deliver 2 (some (.transport "i/o timeout")) pool

theorem interrupted_run :
    Run (Link.step cipher) .start [.write [7, 8], .round none, .read 1, header] interrupted := by
  have first : Run (Link.step cipher) .start [.write [7, 8], .round none] wrote := run_of_foldlM rfl
  have asked : Run (Link.step cipher) wrote [.read 1] { wrote with reading := some (1, .header) } :=
    .snoc .refl (read_waits rfl rfl rfl rfl)
  exact first.trans (asked.snoc rfl)

def opened : RxState where
  cipher := true
  nonce := 1
  buf := some (((pool.write 0 [4, 0]).write 2 ((frame cipher 0 [7, 8]).drop 2)).write 3 [7, 8])
  n := 21
  next := 21
  plaintext := ⟨3, 2⟩

def delivered : Link := { wrote with wire := [], rx := (opened.copyOut 1).1, received := [7] }

set_option maxRecDepth 8000 in
theorem delivered_run :
    Run (Link.step cipher) interrupted [.read 1, .deliver 4096 none pool] delivered := by
  have asked : Run (Link.step cipher) interrupted [.read 1]
      { interrupted with reading := some (1, .header) } := .snoc .refl (read_waits rfl rfl rfl rfl)
  have loop : readLoop cipher opened = some (.ready opened) := by
    rw [readLoop, if_neg (by decide)]
  refine asked.snoc ?_
  have one : (interrupted.rx.fill (interrupted.wire.take 4094) pool).resumeOne cipher .header =
      some (.ready opened) := rfl
  have done : (interrupted.rx.fill (interrupted.wire.take 4094) pool).resume cipher .header =
      some (.ready opened) := by
    exact loop
  exact congrArg (fun p => some (Link.settle { interrupted with wire := [], reading := some (1, .header) } 1 p)) done

theorem delivered_reads : delivered.received <+: delivered.given ∧ ∃ k l',
    Run (Link.step cipher) delivered ((([1, 1] : List Nat).take k).map .read) l' ∧
      delivered.written <+: l'.received := by
  obtain ⟨received, -, empty, -⟩ := reads_what_was_written (interrupted_run.trans delivered_run)
  exact ⟨received, (empty rfl).2 rfl [1, 1] (by decide) (by decide)⟩

end Sample

end ScaleTail.Noise
