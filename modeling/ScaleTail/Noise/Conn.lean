import ScaleTail.Go.Strings
import ScaleTail.Lib.Slices

/-! # The Noise transport -/

namespace ScaleTail.Noise
open Lib Go Option

def maxMessageSize : Nat := 4096
def headerLen : Nat := 3
def overhead : Nat := 16
def maxCiphertextSize : Nat := maxMessageSize - headerLen
def maxPlaintextSize : Nat := maxCiphertextSize - overhead
def msgTypeRecord : UInt8 := 4
def invalidNonce : UInt64 := 0xffffffffffffffff

structure AEAD where
  sealed : UInt64 → Bytes → Bytes
  opened : UInt64 → Bytes → Option Bytes
  length_sealed : ∀ nonce plaintext, (sealed nonce plaintext).length = plaintext.length + overhead
  opened_sealed : ∀ nonce plaintext, opened nonce (sealed nonce plaintext) = some plaintext

inductive Err
  | closed
  | cipherExhausted
  | readTooBig (requested : Nat)
  | unexpectedType (msgType : UInt8)
  | decrypt
  | transport (text : String)
  | partialWrite (err : Err)

def putUint16 (n : Nat) : Bytes := [UInt8.ofNat (n / 256), UInt8.ofNat n]

def uint16At (bs : Bytes) (i : Nat) : Nat := (bs.getD i 0).toNat * 256 + (bs.getD (i + 1) 0).toNat

structure TxState where
  cipher : Bool
  nonce : UInt64
  err : Option Err

namespace TxState

variable (A : AEAD) (tx : TxState)

def encryptLocked (plaintext : Bytes) : Option (Bytes × TxState) :=
  if tx.nonce = invalidNonce then none
  else
    let header := msgTypeRecord :: putUint16 (plaintext.length + overhead)
    some (header ++ A.sealed tx.nonce plaintext, { tx with nonce := tx.nonce + 1 })

def fail (err : Err) : TxState := { tx with cipher := false, err := tx.err.or (some err) }

/-- What one round of the loop in `Write` does: the bytes it puts on the connection, and whether
`Write` returns an error. -/
structure Round where
  tx : TxState
  out : Bytes
  err : Option Err

def round (toSend : Bytes) (fault : Option (Nat × Err)) : Round :=
  match tx.encryptLocked A toSend with
  | none => ⟨tx.fail .cipherExhausted, [], some .cipherExhausted⟩
  | some (ciphertext, tx) =>
    match fault with
    | none => ⟨tx, ciphertext, none⟩
    | some (taken, err) =>
      ⟨{ tx with err := some (.partialWrite err) }.fail err, ciphertext.take taken, some err⟩

end TxState

def Buffer : Type := { bytes : Bytes // bytes.length = maxMessageSize }

def Buffer.write (buf : Buffer) (off : Nat) (data : Bytes) : Buffer :=
  ⟨overwrite buf.1 off data, (length_overwrite _ _ _).trans buf.2⟩

structure Slice where
  off : Nat
  len : Nat
  deriving DecidableEq

def Slice.nil : Slice := ⟨0, 0⟩

structure RxState where
  cipher : Bool
  nonce : UInt64
  buf : Option Buffer
  n : Nat
  next : Nat
  plaintext : Slice

inductive Wait
  | header
  | body (messageLen : Nat)

inductive Progress
  | ready (rx : RxState)
  | failed (rx : RxState) (err : Err)
  | waiting (rx : RxState) (wait : Wait)

inductive ReadN
  | enough
  | tooBig
  | more

namespace RxState

variable (A : AEAD) (rx : RxState)

def window (a b : Nat) : Option Bytes :=
  match rx.buf with
  | none => none
  | some buf => if a ≤ b ∧ b ≤ maxMessageSize then some (slice buf.1 a b) else none

def readNLocked (total : Nat) : Option ReadN :=
  if total > maxMessageSize then some .tooBig
  else if total ≤ rx.n then some .enough
  else
    match rx.buf with
    | none => if rx.n ≠ 0 ∨ total ≠ headerLen then none else some .more
    | some _ => some .more

def decryptLocked (off len : Nat) : Option Progress := do
  let buf ← rx.buf
  let msg ← rx.window off (off + len)
  let msgType ← msg.head?
  if msgType ≠ msgTypeRecord then return .failed rx (.unexpectedType msgType)
  if rx.nonce = invalidNonce then return .failed rx .cipherExhausted
  match A.opened rx.nonce (msg.drop headerLen) with
  | none => return .failed { rx with plaintext := .nil, nonce := rx.nonce + 1, cipher := false } .decrypt
  | some plaintext =>
    return .ready { rx with
      buf := some (buf.write (off + headerLen) plaintext)
      plaintext := ⟨off + headerLen, plaintext.length⟩
      nonce := rx.nonce + 1 }

def wholeMessageLocked : Option (Option Nat) :=
  if rx.n - rx.next < headerLen then some none
  else do
    let bs ← rx.window rx.next rx.n
    let totalSize := headerLen + uint16At bs 1
    return if bs.length < totalSize then none else some totalSize

def compact : Option RxState :=
  if rx.next = 0 then some rx
  else do
    let buf ← rx.buf
    let rest ← rx.window rx.next rx.n
    return { rx with buf := some (buf.write 0 rest), n := rest.length, next := 0 }

def release : RxState := if rx.n = 0 ∧ rx.next = 0 then { rx with buf := none } else rx

def decryptBody (messageLen : Nat) : Option Progress := do
  match ← rx.readNLocked messageLen with
  | .tooBig => return .failed rx (.readTooBig messageLen)
  | .more => return .waiting rx (.body messageLen)
  | .enough => decryptLocked A { rx with next := messageLen } 0 messageLen

def decryptHeader : Option Progress := do
  match ← rx.readNLocked headerLen with
  | .tooBig => return .failed rx (.readTooBig headerLen)
  | .more => return .waiting rx .header
  | .enough =>
    let bs ← rx.window 0 headerLen
    rx.decryptBody A (headerLen + uint16At bs 1)

def decryptOneLocked : Option Progress := do
  let rx := { rx with plaintext := .nil }
  match ← rx.wholeMessageLocked with
  | some totalSize => decryptLocked A { rx with next := rx.next + totalSize } rx.next totalSize
  | none =>
    let rx ← rx.compact
    rx.release.decryptHeader A

/-! The loop in `Read` ends: each message takes its header out of the buffer. -/

section Shrinks
variable {A rx} {rx' : RxState} {off len messageLen : Nat}

theorem length_window {a b : Nat} {bs : Bytes} (read : rx.window a b = some bs) :
    a ≤ b ∧ b ≤ maxMessageSize ∧ bs.length = b - a := by
  unfold window at read
  split at read
  · cases read
  next buf _ =>
    obtain ⟨⟨order, inside⟩, same⟩ := ite_none_right_eq_some.1 read
    cases same
    exact ⟨order, inside, length_slice (by rw [buf.2]; exact inside)⟩

theorem next_of_decryptLocked (done : rx.decryptLocked A off len = some (.ready rx')) :
    rx'.n = rx.n ∧ rx'.next = rx.next := by
  obtain ⟨buf, -, done⟩ := bind_eq_some_iff.1 done
  obtain ⟨msg, -, done⟩ := bind_eq_some_iff.1 done
  obtain ⟨msgType, -, done⟩ := bind_eq_some_iff.1 done
  by_cases type : msgType = msgTypeRecord
  · by_cases valid : rx.nonce = invalidNonce
    · simp [type, valid] at done
    cases opened : A.opened rx.nonce (msg.drop headerLen) with
    | none => simp [type, valid, opened] at done
    | some plaintext =>
      simp only [type, valid, opened] at done
      cases done
      exact ⟨rfl, rfl⟩
  · simp [type] at done

theorem next_of_decryptBody (done : rx.decryptBody A messageLen = some (.ready rx')) :
    rx'.n = rx.n ∧ rx'.next = messageLen ∧ messageLen ≤ rx.n := by
  obtain ⟨reads, taken, done⟩ := bind_eq_some_iff.1 done
  cases reads with
  | tooBig => cases done
  | more => cases done
  | enough =>
    unfold readNLocked at taken
    split at taken
    · cases taken
    split at taken
    next there => exact ⟨(next_of_decryptLocked done).1, (next_of_decryptLocked done).2, there⟩
    · split at taken
      · split at taken <;> cases taken
      · cases taken

theorem next_of_decryptHeader (done : rx.decryptHeader A = some (.ready rx')) :
    rx'.n = rx.n ∧ headerLen ≤ rx'.next ∧ rx'.next ≤ rx.n := by
  obtain ⟨reads, -, done⟩ := bind_eq_some_iff.1 done
  cases reads with
  | tooBig => cases done
  | more => cases done
  | enough =>
    obtain ⟨bs, -, done⟩ := bind_eq_some_iff.1 done
    obtain ⟨n, next, there⟩ := next_of_decryptBody done
    rw [next]
    exact ⟨n, Nat.le_add_right _ _, there⟩

theorem n_of_compact (done : rx.compact = some rx') : rx'.next = 0 ∧ rx'.n = rx.n - rx.next := by
  unfold compact at done
  split at done
  next front =>
    cases done
    exact ⟨front, by rw [front, Nat.sub_zero]⟩
  · obtain ⟨buf, -, done⟩ := bind_eq_some_iff.1 done
    obtain ⟨rest, read, done⟩ := bind_eq_some_iff.1 done
    cases done
    exact ⟨rfl, (length_window read).2.2⟩

theorem release_n : rx.release.n = rx.n := by
  unfold release
  split <;> rfl

theorem decryptOneLocked_shrinks (done : rx.decryptOneLocked A = some (.ready rx')) :
    rx'.n - rx'.next < rx.n - rx.next := by
  obtain ⟨whole, taken, done⟩ := bind_eq_some_iff.1 done
  cases whole with
  | some totalSize =>
    obtain ⟨n, next⟩ := next_of_decryptLocked done
    unfold wholeMessageLocked at taken
    split at taken
    · cases taken
    next there =>
      obtain ⟨bs, read, size⟩ := bind_eq_some_iff.1 taken
      have length := (length_window read).2.2
      have size' : bs.length ≥ totalSize ∧ headerLen ≤ totalSize := by
        dsimp only at size
        split at size
        · cases size
        · cases size
          omega
      rw [n, next]
      dsimp only [headerLen] at *
      omega
  | none =>
    obtain ⟨rx₁, compacted, done⟩ := bind_eq_some_iff.1 done
    obtain ⟨n, header, there⟩ := next_of_decryptHeader done
    have same := (n_of_compact compacted).2
    rw [release_n] at n there
    dsimp only [headerLen] at header same
    omega

end Shrinks

end RxState

def readLoop (A : AEAD) (rx : RxState) : Option Progress :=
  if rx.plaintext.len = 0 then
    match _done : rx.decryptOneLocked A with
    | some (.ready rx') => readLoop A rx'
    | other => other
  else some (.ready rx)
termination_by rx.n - rx.next
decreasing_by exact RxState.decryptOneLocked_shrinks ‹_›

namespace RxState

variable (A : AEAD) (rx : RxState)

def room : Option Nat :=
  match rx.buf with
  | none => some headerLen
  | some _ => if rx.n ≤ maxMessageSize then some (maxMessageSize - rx.n) else none

def fill (data : Bytes) (pool : Buffer) : RxState :=
  match rx.buf with
  | none =>
    if 0 < data.length then { rx with buf := some (pool.write 0 data), n := rx.n + data.length } else rx
  | some buf => { rx with buf := some (buf.write rx.n data), n := rx.n + data.length }

def resumeOne : Wait → Option Progress
  | .header => rx.decryptHeader A
  | .body messageLen => rx.decryptBody A messageLen

def resume (wait : Wait) : Option Progress := do
  match ← rx.resumeOne A wait with
  | .ready rx => readLoop A rx
  | other => return other

def copyOut (len : Nat) : RxState × Bytes :=
  let n := min len rx.plaintext.len
  let data := match rx.buf with
    | none => []
    | some buf => slice buf.1 rx.plaintext.off (rx.plaintext.off + n)
  let plaintext :=
    if rx.plaintext.len = n then .nil else ⟨rx.plaintext.off + n, rx.plaintext.len - n⟩
  ({ rx with plaintext }, data)

end RxState

/-- One direction of a connection: the writing end, the bytes that were written to the underlying
connection and not yet read from it, and the reading end. -/
structure Link where
  tx : TxState
  writing : Option (Bytes × Nat)
  wire : Bytes
  rx : RxState
  reading : Option (Nat × Wait)
  panicked : Bool
  given : Bytes
  written : Bytes
  received : Bytes

inductive Op
  | write (bs : Bytes)
  | round (fault : Option (Nat × Err))
  | read (len : Nat)
  | deliver (most : Nat) (err : Option Err) (pool : Buffer)

namespace Link

variable (A : AEAD) (l : Link)

def start : Link where
  tx := ⟨true, 0, none⟩
  writing := none
  wire := []
  rx := ⟨true, 0, none, 0, 0, .nil⟩
  reading := none
  panicked := false
  given := []
  written := []
  received := []

def write (bs : Bytes) : Option Link :=
  match l.writing with
  | some _ => none
  | none =>
    let l := { l with given := l.given ++ bs }
    if l.tx.err.isSome then some l
    else if l.tx.cipher = false then some { l with tx := l.tx.fail .closed }
    else if bs = [] then some l
    else some { l with writing := some (bs, 0) }

def round (fault : Option (Nat × Err)) : Option Link :=
  match l.writing with
  | none => none
  | some (bs, sent) =>
    let toSend := (bs.drop sent).take maxPlaintextSize
    let r := l.tx.round A toSend fault
    let l := { l with tx := r.tx, wire := l.wire ++ r.out }
    let sent' := sent + toSend.length
    match r.err with
    | some _ => some { l with writing := none, written := l.written ++ bs.take sent }
    | none =>
      if sent' < bs.length then some { l with writing := some (bs, sent') }
      else some { l with writing := none, written := l.written ++ bs }

def settle (len : Nat) : Option Progress → Link
  | none => { l with reading := none, panicked := true }
  | some (.failed rx _) => { l with rx, reading := none }
  | some (.waiting rx wait) => { l with rx, reading := some (len, wait) }
  | some (.ready rx) =>
    let (rx, data) := rx.copyOut len
    { l with rx, reading := none, received := l.received ++ data }

def read (len : Nat) : Option Link :=
  match l.reading with
  | some _ => none
  | none => if l.rx.cipher then some (l.settle len (readLoop A l.rx)) else some l

def deliver (most : Nat) (err : Option Err) (pool : Buffer) : Option Link :=
  match l.reading with
  | none => none
  | some (len, wait) =>
    match l.rx.room with
    | none => some (l.settle len none)
    | some room =>
      let n := min most room
      let rx := l.rx.fill (l.wire.take n) pool
      let l := { l with wire := l.wire.drop n }
      match err with
      | some err => some (l.settle len (some (.failed rx err)))
      | none => some (l.settle len (rx.resume A wait))

def step : Op → Option Link
  | .write bs => l.write bs
  | .round fault => l.round A fault
  | .read len => l.read A len
  | .deliver most err pool => l.deliver A most err pool

end Link

/-- A connection: `out` is the direction that it writes, `inn` the one that it reads. It has encrypted
with `nonces`, `sent` is the plaintext of the frames whose underlying write returned no error, and
`failed` says that a `Write` has returned an error. -/
structure Session where
  out : Link
  inn : Link
  nonces : List UInt64
  sent : Bytes
  failed : Bool

inductive Use
  | write (bs : Bytes)
  | round (taken : Nat) (err : Option Err)
  | read (len : Nat)
  | deliver (data : Bytes) (err : Option Err) (pool : Buffer)
  | closeRx
  | closeTx

namespace Session
variable (A : AEAD) (s : Session)

def start : Session := ⟨.start, .start, [], [], false⟩

/-- The underlying write takes `taken` bytes, which may be too few with or without an error. -/
def round (taken : Nat) (err : Option Err) : Option Session := do
  let (bs, k) ← s.out.writing
  let toSend := (bs.drop k).take maxPlaintextSize
  let out ← s.out.round A (err.map (taken, ·))
  match s.out.tx.encryptLocked A toSend with
  | none => return { s with out, failed := true }
  | some (ciphertext, _) =>
    return { s with
      out := { out with wire := s.out.wire ++ ciphertext.take taken }
      nonces := s.nonces ++ [s.out.tx.nonce]
      sent := if err = none then s.sent ++ toSend else s.sent
      failed := s.failed || err.isSome }

/-- `Close` takes both locks, so it waits for the calls in progress. -/
def step : Use → Option Session
  | .write bs => (s.out.write bs).map fun out =>
    { s with out, failed := s.failed || s.out.tx.err.isSome || !s.out.tx.cipher }
  | .round taken err => s.round A taken err
  | .read len => (s.inn.read A len).map ({ s with inn := · })
  | .deliver data err pool =>
    ({ s.inn with wire := data }.deliver A data.length err pool).map ({ s with inn := · })
  | .closeRx => if s.inn.reading = none then some { s with inn.rx.cipher := false } else none
  | .closeTx => if s.out.writing = none then some { s with out.tx.cipher := false } else none

end Session

end ScaleTail.Noise
