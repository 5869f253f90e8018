import ScaleTail.Lib.BigEndian
import ScaleTail.TKA.Compaction
import ScaleTail.Proof.TKA.Mem
import ScaleTail.Proof.TKA.FS

/-! # A digest and a signature scheme to compute with -/

namespace ScaleTail.TKA.Sample

open Lib

def digest (n : Nat) : AUMHash := ⟨BigEndian.encode 32 n, BigEndian.length_encode 32 n⟩

theorem digest_injective {n m : Nat} (hn : n < 256 ^ 32) (hm : m < 256 ^ 32)
    (same : digest n = digest m) : n = m := by
  simp only [digest, AUMHash.mk.injEq] at same
  exact BigEndian.encode_injective hn hm same

def kindCode : AUMKind → Nat
  | .invalid => 0
  | .addKey => 1
  | .removeKey => 2
  | .noOp => 3
  | .updateKey => 4
  | .checkpoint => 5
  | .other code _ => code.toNat

def serial (a : AUM) : Nat :=
  match a.messageKind with
  | .noOp => 2 ^ 200 + (a.votes.getD 0).toNat
  | kind => 32 * BigEndian.decode (a.prevAUMHash.getD []) + kindCode kind

@[reducible]
def crypto : Crypto where
  hashAUM a := digest (serial a)
  verify pub h sig := sig == pub ++ h.bytes

attribute [local instance] crypto

def pub (i : UInt8) : Bytes := List.replicate 32 i

def key (i : UInt8) (votes : UInt64) : Key := ⟨.key25519, votes, pub i, none⟩

def sign (signers : List UInt8) (a : AUM) : AUM :=
  { a with signatures := signers.map fun i => ⟨pub i, pub i ++ a.sigHash.bytes⟩ }

def state : State := ⟨none, [pub 9], [key 1 2, key 2 1], 7, 8⟩

def genesis : AUM := sign [1] { AUM.zero with messageKind := .checkpoint, state := some state }

def noOp (p : AUM) (i : UInt64) (signer : UInt8) : AUM :=
  sign [signer] { AUM.zero with
    messageKind := .noOp
    votes := some i
    prevAUMHash := some p.hash.bytes }

def checkpoint (p : AUM) (signer : UInt8) : AUM :=
  sign [signer] { AUM.zero with
    messageKind := .checkpoint
    state := some state
    prevAUMHash := some p.hash.bytes }

def first : AUM := noOp genesis 1 1

def rival : AUM := noOp genesis 0 2

def middle : AUM := checkpoint first 1

def tip : AUM := noOp middle 3 1

theorem genesis_acyclic (U : Set AUM) (a : AUM) (_ : Known U genesis a) :
    genesis.parent ≠ some a.hash := by
  intro impossible
  cases impossible

theorem injOn_of_nodup {l : List AUM} (nodup : (l.map AUM.hash).Nodup) :
    Set.InjOn AUM.hash {x | x ∈ l} :=
  fun _ hx _ hy same => List.inj_on_of_nodup_map nodup hx hy same

theorem genesis_free {l : List AUM} (distinct : (l.map AUM.hash).Nodup)
    (encoded : ∀ a ∈ l, a.omitEmpty = a) : CollisionFree {x | x ∈ l} genesis :=
  ⟨injOn_of_nodup distinct, encoded, genesis_acyclic _⟩

def memory : Mem := Mem.chonkMem fun n => (n : Int) * 1000000000

theorem memory_consistent : LawfulChonk.Consistent memory := Mem.chonkMem_consistent _

def keyOrder : CompactionOrder :=
  let range : RangeOrder := ⟨id, fun l => .refl l⟩
  ⟨range, range, range, range⟩

def started : Authority := ⟨genesis, genesis, state.cloneForUpdate genesis⟩

theorem memory_empty : stored memory = ∅ := by
  ext a
  simp [Mem.mem_stored, memory, Mem.chonkMem]

theorem second_le (n : Nat) : (1000000000 : Int) ≤ ((n + 1 : Nat) : Int) * 1000000000 := by omega

def disk : FS := FS.chonkDir fun n => ⟨((n + 1 : Nat) : Int) * 1000000000, second_le n⟩

theorem disk_consistent : LawfulChonk.Consistent disk := FS.chonkDir_consistent _

theorem disk_empty : stored disk = ∅ := by
  ext a
  rw [FS.mem_stored disk_consistent]
  simp [disk, FS.chonkDir]

def named : State :=
  { state with keys := [key 1 2, { key 2 1 with metadata := some (AList.singleton "name" "a") }] }

def namedGenesis : AUM := sign [1] { AUM.zero with messageKind := .checkpoint, state := some named }

/-- The metadata of a key is replaced by a map without entries, which the encoding omits. -/
def cleared : AUM := sign [1] { AUM.zero with
  messageKind := .updateKey
  keyID := some (pub 2)
  metadata := some ∅
  prevAUMHash := some namedGenesis.hash.bytes }

def namedAUMs : Set AUM := {x | x ∈ [namedGenesis, cleared]}

theorem cleared_injective : Set.InjOn AUM.hash namedAUMs := injOn_of_nodup (by decide)

def namedStart : Authority := ⟨namedGenesis, namedGenesis, named.cloneForUpdate namedGenesis⟩

def namedDisk : FS := (bootstrap disk namedGenesis).2

def atCleared : Authority where
  head := cleared
  oldestAncestor := namedGenesis
  state := { named.cloneForUpdate cleared with
    keys := [key 1 2, { key 2 1 with metadata := some ∅ }] }

def clearedDisk : FS := (namedStart.inform namedDisk [cleared]).2.2

def trunk : Nat → AUM
  | 0 => genesis
  | 1 => first
  | 2 => middle
  | i + 3 => noOp (trunk (i + 2)) (UInt64.ofNat (i + 3)) 1

def trunkNumber (i : Nat) : Nat :=
  if i = 0 then 5 else if i = 2 then 32 * (2 ^ 200 + 1) + 5 else 2 ^ 200 + i

variable {i : Nat} {n : Nat}

theorem trunk_hash (small : i < 2 ^ 64) : (trunk i).hash = digest (trunkNumber i) := by
  match i with
  | 0 | 1 => rfl
  | 2 => decide +kernel
  | i + 3 =>
    have votes : (UInt64.ofNat (i + 3)).toNat = i + 3 := UInt64.toNat_ofNat_of_lt' small
    have serial : serial (trunk (i + 3)) = 2 ^ 200 + (UInt64.ofNat (i + 3)).toNat := rfl
    rw [votes] at serial
    exact congrArg digest serial

theorem trunkNumber_lt (small : i < 2 ^ 64) : trunkNumber i < 256 ^ 32 := by
  have room : 32 * (2 ^ 200 + 2 ^ 64) < 256 ^ 32 := by decide
  unfold trunkNumber
  split_ifs <;> omega

theorem trunk_injective {j : Nat} (hi : i < 2 ^ 64) (hj : j < 2 ^ 64)
    (same : (trunk i).hash = (trunk j).hash) : i = j := by
  rw [trunk_hash hi, trunk_hash hj] at same
  have numbers := digest_injective (trunkNumber_lt hi) (trunkNumber_lt hj) same
  unfold trunkNumber at numbers
  split_ifs at numbers <;> omega

theorem trunk_encoded (i : Nat) : (trunk i).omitEmpty = trunk i := by
  match i with
  | 0 | 1 | 2 | _ + 3 => rfl

theorem trunk_parent (i : Nat) : (trunk (i + 1)).parent = some (trunk i).hash := by
  match i with
  | 0 | 1 | _ + 2 => exact AUM.parent_of_prev rfl

/-- An AUM that branches off at the root of the trunk. -/
structure Branch (r : AUM) : Prop where
  parent : r.parent = some genesis.hash
  encoded : r.omitEmpty = r
  apart : ∀ {i}, i < 2 ^ 64 → (trunk i).hash ≠ r.hash

theorem trunk_ne {r : AUM} {k : Nat} (hash : r.hash = digest k) (low : k ≤ 2 ^ 200) (other : k ≠ 5)
    (small : i < 2 ^ 64) : (trunk i).hash ≠ r.hash := by
  intro same
  have room : 2 ^ 200 < 256 ^ 32 := by decide
  rw [trunk_hash small, hash] at same
  have numbers := digest_injective (trunkNumber_lt small) (by omega) same
  unfold trunkNumber at numbers
  split_ifs at numbers <;> omega

theorem rival_branch : Branch rival := ⟨AUM.parent_of_prev rfl, rfl, trunk_ne rfl le_rfl (by decide)⟩

theorem sign_verified {a p : AUM} {s : State} {i : UInt8} {votes : UInt64}
    (prev : a.prevAUMHash = some p.hash.bytes) (last : s.lastAUMHash = some p.hash)
    (trusted : s.getKey (pub i) = .ok (key i votes)) (hkey : ∀ k ∈ a.key, k.staticValidate = .ok ())
    (hstate : ∀ st ∈ a.state, st.staticValidateCheckpoint = .ok ())
    (fields : a.validateFields = .ok ()) (notLast : removesLastKey a s = false) :
    aumVerify (sign [i] a) s false = .ok () := by
  have static : (sign [i] a).staticValidate = .ok () := by
    refine AUM.staticValidate_ok.2 ⟨hkey, ?_, ?_, hstate, fields⟩
    · change a.prevAUMHash ≠ some []
      rw [prev]
      intro empty
      have := p.hash.size
      simp [Option.some.inj empty] at this
    · intro sig hsig
      obtain rfl := List.mem_singleton.1 hsig
      exact ⟨List.length_replicate .., by simp [pub, AUMHash.size, signatureSize]⟩
  have signature : ∀ sig ∈ (sign [i] a).signatures.zipIdx,
      verifySignatureOf (sign [i] a) s sig = .ok () := by
    intro sig hsig
    obtain rfl := List.mem_singleton.1 hsig
    have verified : (pub i ++ a.sigHash.bytes == pub i ++ a.sigHash.bytes) = true :=
      beq_self_eq_true _
    have checked : signatureVerify ⟨pub i, pub i ++ a.sigHash.bytes⟩ (sign [i] a).sigHash
        (key i votes) = .ok () := by
      rw [signatureVerify]
      exact (if_neg (not_not.2 List.length_replicate)).trans (if_pos verified)
    simp only [verifySignatureOf, trusted, checked]
  exact aumVerify_ok.2 ⟨static, fun _ => checkParent_ok.2 ⟨p.hash, AUM.parent_of_prev prev, last⟩,
    nofun, signature, notLast⟩

theorem noOp_verified {p : AUM} {s : State} (last : s.lastAUMHash = some p.hash)
    (keys : s.keys = state.keys) (i : UInt64) :
    aumVerify (noOp p i 1) s false = .ok () ∧
      s.applyVerifiedAUM (noOp p i 1) = .ok (s.cloneForUpdate (noOp p i 1)) := by
  have prev : (noOp p i 1).prevAUMHash = some p.hash.bytes := rfl
  have trusted : s.getKey (pub 1) = .ok (key 1 2) := by
    rw [State.getKey, keys]
    rfl
  have matching : s.parentMatches (noOp p i 1) = true := by simp [State.parentMatches, last, prev]
  refine ⟨sign_verified prev last trusted (by simp [AUM.zero]) (by simp [AUM.zero]) rfl rfl, ?_⟩
  rw [State.applyVerifiedAUM, if_neg (by simp [matching])]
  rfl

theorem trunk_verified (i : Nat) :
    aumVerify (trunk (i + 1)) (state.cloneForUpdate (trunk i)) false = .ok () ∧
      (state.cloneForUpdate (trunk i)).applyVerifiedAUM (trunk (i + 1)) =
        .ok (state.cloneForUpdate (trunk (i + 1))) := by
  match i with
  | 0 | 1 => exact ⟨rfl, rfl⟩
  | i + 2 => exact noOp_verified (s := state.cloneForUpdate (trunk (i + 2))) rfl rfl (UInt64.ofNat (i + 3))

variable {r : AUM}

def grove (r : AUM) (n : Nat) : Set AUM := {x | x = r ∨ ∃ i ≤ n, x = trunk i}

theorem trunk_mem (le : i ≤ n) : trunk i ∈ grove r n := .inr ⟨i, le, rfl⟩

theorem grove_free (branch : Branch r) (small : n < 2 ^ 64) : CollisionFree (grove r n) genesis := by
  refine ⟨?_, ?_, genesis_acyclic _⟩
  · rintro x (rfl | ⟨i, hi, rfl⟩) y (rfl | ⟨j, hj, rfl⟩) same
    · rfl
    · exact absurd same.symm (branch.apart (by omega))
    · exact absurd same (branch.apart (by omega))
    · rw [trunk_injective (by omega) (by omega) same]
  · rintro x (rfl | ⟨i, -, rfl⟩)
    · exact branch.encoded
    · exact trunk_encoded i

theorem trunk_lineage (le : i ≤ n) :
    Lineage (grove r n) genesis i (trunk i) (state.cloneForUpdate (trunk i)) := by
  induction i with
  | zero => exact .root (trunk_mem le) rfl rfl rfl
  | succ i ih =>
    obtain ⟨verified, applied⟩ := trunk_verified i
    exact .step (ih (by omega)) (trunk_mem le) verified applied

theorem trunk_trail (k m : Nat) (le : k + m ≤ n) : (forks (grove r n) genesis).Trail (grove r n)
    (trunk k) ((List.range' (k + 1) m).map trunk) (trunk (k + m)) := by
  induction m generalizing k with
  | zero => exact .refl _
  | succ m ih =>
    have rest := ih (k + 1) (by omega)
    have last : k + 1 + m = k + (m + 1) := by omega
    rw [last] at rest
    have child : (forks (grove r n) genesis).child (trunk k) (trunk (k + 1)) :=
      ⟨⟨_, _, trunk_lineage (by omega)⟩, ⟨_, _, trunk_lineage (by omega)⟩, trunk_parent k⟩
    exact .step (trunk_mem (by omega)) child rest

def span (k n : Nat) : List AUM := (List.range' (k + 1) (n - k)).map trunk

variable {k : Nat}

theorem mem_span {x : AUM} : x ∈ span k n ↔ ∃ i, k < i ∧ i ≤ n ∧ trunk i = x := by
  simp only [span, List.mem_map, List.mem_range'_1]
  refine exists_congr fun i => ?_
  rw [← and_assoc]
  exact and_congr_left fun _ => by omega

theorem span_mem : ∀ u ∈ span k n, u ∈ grove r n := by
  intro u hu
  obtain ⟨i, -, le, rfl⟩ := mem_span.1 hu
  exact trunk_mem le

theorem span_trail (before : k ≤ i) (le : i ≤ n) :
    (forks (grove r n) genesis).Trail (grove r n) (trunk k) (span k i) (trunk i) := by
  have trail := trunk_trail (r := r) (n := n) k (i - k) (by omega)
  rwa [Nat.add_sub_cancel' before] at trail

theorem grove_parent (branch : Branch r) {c : AUM} {h : AUMHash} (mem : c ∈ grove r n)
    (link : c.parent = some h) :
    c = r ∧ genesis.hash = h ∨ ∃ i < n, c = trunk (i + 1) ∧ (trunk i).hash = h := by
  rcases mem with rfl | ⟨i, le, rfl⟩
  · exact .inl ⟨rfl, Option.some.inj (branch.parent.symm.trans link)⟩
  · cases i with
    | zero => cases link
    | succ i => exact .inr ⟨i, le, rfl, Option.some.inj ((trunk_parent i).symm.trans link)⟩

theorem trunk_leaf (branch : Branch r) (pos : 0 < n) (small : n < 2 ^ 64) (S : Set AUM) :
    (forks (grove r n) genesis).Leaf S (trunk n) := by
  rintro c - ⟨-, known, link⟩
  rcases grove_parent branch known.mem link with ⟨-, same⟩ | ⟨i, lt, -, same⟩
  · exact pos.ne (trunk_injective (i := 0) (by decide) small same)
  · exact lt.ne (trunk_injective (by omega) small same)

def atTrunk (n : Nat) : Authority := ⟨trunk n, genesis, state.cloneForUpdate (trunk n)⟩

end ScaleTail.TKA.Sample
