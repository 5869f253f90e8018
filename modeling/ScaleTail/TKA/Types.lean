import Mathlib

/-! # The data of the Tailnet Key Authority -/

namespace ScaleTail.TKA

abbrev Bytes := List UInt8

def lowerHex : List Char := "0123456789abcdef".toList
def upperHex : List Char := "0123456789ABCDEF".toList

def hexEncode (digits : List Char) (bs : Bytes) : String :=
  String.ofList (bs.flatMap fun b =>
    [digits.getD (b.toNat / 16) '0', digits.getD (b.toNat % 16) '0'])

/-- Go errors. `notExist`, `noSuchKey` and `noIntersection` are the sentinels the code compares
with `==`; a wrapped error is never equal to a sentinel. -/
inductive Err
  | notExist
  | noSuchKey
  | noIntersection
  | errorf (msg : String)
  | wrap (context : String) (cause : Err)
  | panic (msg : String)
  | outOfFuel
  deriving DecidableEq

structure AUMHash where
  bytes : Bytes
  size : bytes.length = 32
  deriving DecidableEq

namespace AUMHash

def zero : AUMHash := ⟨List.replicate 32 0, List.length_replicate⟩

def copyFrom (h : AUMHash) (src : Bytes) : AUMHash :=
  ⟨src.take 32 ++ h.bytes.drop (min src.length 32), by
    have := h.size
    simp only [List.length_append, List.length_take, List.length_drop]
    omega⟩

def order (h : AUMHash) : List Nat := h.bytes.map UInt8.toNat

theorem order_injective : Function.Injective order := by
  intro a b h
  cases a
  cases b
  simp only [order, (List.map_injective_iff.2 fun _ _ => UInt8.toNat_inj.1).eq_iff] at h
  simpa using h

instance : LinearOrder AUMHash := LinearOrder.lift' order order_injective

def digits : List Char := "ABCDEFGHIJKLMNOPQRSTUVWXYZ234567".toList

def bits (b : UInt8) : List Nat := (List.range 8).map fun i => b.toNat / 2 ^ (7 - i) % 2

def encodeBits : Nat → List Nat → List Char
  | 0, _ => []
  | n + 1, bs => digits.getD ((bs.take 5).foldl (fun v b => 2 * v + b) 0) 'A' ::
      encodeBits n (bs.drop 5)

def chars (h : AUMHash) : List Char := encodeBits 52 (h.bytes.flatMap bits ++ [0, 0, 0, 0])

def string (h : AUMHash) : String := String.ofList h.chars

def hex (h : AUMHash) : String := hexEncode lowerHex (h.chars.map fun c => UInt8.ofNat c.toNat)

def hexUpper (h : AUMHash) : String :=
  hexEncode upperHex (h.chars.map fun c => UInt8.ofNat c.toNat)

end AUMHash

inductive AUMKind
  | invalid
  | addKey
  | removeKey
  | noOp
  | updateKey
  | checkpoint
  | other (code : UInt8) (unknown : 6 ≤ code)
  deriving DecidableEq

inductive KeyKind
  | invalid
  | key25519
  | other (code : UInt8) (unknown : 2 ≤ code)
  deriving DecidableEq

abbrev Meta := AList fun _ : String => String

structure Key where
  kind : KeyKind
  votes : UInt64
  pub : Bytes
  metadata : Option Meta
  deriving DecidableEq

structure Signature where
  keyID : Bytes
  signature : Bytes
  deriving DecidableEq

structure State where
  lastAUMHash : Option AUMHash
  disablementValues : List Bytes
  keys : List Key
  stateID1 : UInt64
  stateID2 : UInt64
  deriving DecidableEq

structure AUM where
  messageKind : AUMKind
  prevAUMHash : Option Bytes
  key : Option Key
  keyID : Option Bytes
  state : Option State
  votes : Option UInt64
  metadata : Option Meta
  signatures : List Signature
  deriving DecidableEq

def Key.omitEmpty (k : Key) : Key := { k with metadata := k.metadata.filter (!·.entries.isEmpty) }

def State.omitEmpty (s : State) : State := { s with keys := s.keys.map Key.omitEmpty }

/-- What is read back of the encoding of an AUM. The fields that the encoding omits if they are empty
are read as nil, also if they were not nil. -/
def AUM.omitEmpty (a : AUM) : AUM :=
  { a with
    key := a.key.map Key.omitEmpty
    keyID := a.keyID.filter (!·.isEmpty)
    state := a.state.map State.omitEmpty
    metadata := a.metadata.filter (!·.entries.isEmpty) }

@[simp]
theorem Key.omitEmpty_omitEmpty (k : Key) : k.omitEmpty.omitEmpty = k.omitEmpty := by
  simp [omitEmpty, Option.filter_filter]

@[simp]
theorem State.omitEmpty_omitEmpty (s : State) : s.omitEmpty.omitEmpty = s.omitEmpty := by
  simp [omitEmpty]

@[simp]
theorem AUM.omitEmpty_omitEmpty (a : AUM) : a.omitEmpty.omitEmpty = a.omitEmpty := by
  simp [omitEmpty, Option.filter_filter, Function.comp_def]

/-- What the code takes from third-party packages: `hashAUM` is BLAKE2s of the CTAP2 CBOR encoding
(`AUM.Serialize`) and `verify` is `ed25519consensus.Verify` on a public key, a digest and a
signature. -/
class Crypto where
  hashAUM : AUM → AUMHash
  verify : Bytes → AUMHash → Bytes → Bool

section
variable [Crypto]

def AUM.hash (a : AUM) : AUMHash := Crypto.hashAUM a.omitEmpty

def AUM.sigHash (a : AUM) : AUMHash := Crypto.hashAUM { a with signatures := [] }.omitEmpty

end

def AUM.parent (a : AUM) : Option AUMHash :=
  match a.prevAUMHash with
  | none | some [] => none
  | some src => some (AUMHash.zero.copyFrom src)

/-- `copy(curs[:], a.PrevAUMHash)`, which the sync code uses in place of `Parent`: an absent parent
leaves the cursor where it is. -/
def AUM.copyPrev (a : AUM) (curs : AUMHash) : AUMHash := curs.copyFrom (a.prevAUMHash.getD [])

end ScaleTail.TKA
