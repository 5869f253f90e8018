import ScaleTail.Lib.Validation
import ScaleTail.TKA.Update

/-! # States along a chain of verified updates -/

namespace ScaleTail.TKA

open Lib List

variable {k : Key} {id : Bytes} {a : AUM} {s : State}

theorem Key.staticValidate_ok :
    k.staticValidate = .ok () ↔
      k.votes ≤ 4096 ∧ k.votes ≠ 0 ∧ k.metaBytes ≤ maxMetaBytes ∧ k.kind = .key25519 := by
  unfold Key.staticValidate
  split
  next excessive => simp [UInt64.not_le.2 excessive]
  next bounded =>
    split
    next zero => simp [zero]
    next nonzero =>
      split
      next big => simp [Nat.not_le.2 big]
      next small =>
        cases kind : k.kind <;>
          simp [nonzero, UInt64.not_lt.1 bounded, Nat.not_lt.1 small]

theorem Key.id_of_valid (valid : k.staticValidate = .ok ()) : k.id = .ok k.pub := by
  have kind := (Key.staticValidate_ok.1 valid).2.2.2
  simp [Key.id, kind]

theorem Key.id_ok (h : k.id = .ok id) : id = k.pub := by
  unfold Key.id at h
  split at h
  · exact (Except.ok.inj h).symm
  · cases h

def KeysValid (ks : List Key) : Prop := ∀ k ∈ ks, k.staticValidate = .ok ()

namespace State

variable {ks : List Key}

theorem getKeyIn_ok (h : getKeyIn id ks = .ok k) : k ∈ ks ∧ k.id = .ok id := by
  induction ks with
  | nil => cases h
  | cons _ _ ih =>
    rw [getKeyIn, bind_eq_ok] at h
    obtain ⟨keyID, found, h⟩ := h
    split at h
    next same =>
      obtain rfl := Except.ok.inj h
      exact ⟨mem_cons_self, same ▸ found⟩
    · obtain ⟨mem, ids⟩ := ih h
      exact ⟨mem_cons_of_mem _ mem, ids⟩

theorem getKeyIn_error {e : Err} (valid : KeysValid ks)
    (h : getKeyIn id ks = .error e) : e = .noSuchKey ∧ ∀ k ∈ ks, k.id ≠ .ok id := by
  induction ks with
  | nil =>
    cases h
    exact ⟨rfl, by simp⟩
  | cons _ _ ih =>
    obtain ⟨hx, rest⟩ := forall_mem_cons.1 valid
    rw [getKeyIn, Key.id_of_valid hx, ok_bind] at h
    split at h
    · cases h
    rename_i differ
    obtain ⟨he, none⟩ := ih rest h
    refine ⟨he, forall_mem_cons.2 ⟨?_, none⟩⟩
    rw [Key.id_of_valid hx]
    exact fun same => differ (Except.ok.inj same)

theorem removeKeyIn_ok {ks' : List Key} (h : removeKeyIn id ks = .ok ks') :
    ∃ before k after, ks = before ++ k :: after ∧ ks' = before ++ after ∧ k.id = .ok id := by
  induction ks generalizing ks' with
  | nil => cases h
  | cons x ks ih =>
    rw [removeKeyIn, bind_eq_ok] at h
    obtain ⟨keyID, found, h⟩ := h
    split at h
    next same =>
      obtain rfl := Except.ok.inj h
      exact ⟨[], x, ks, rfl, rfl, same ▸ found⟩
    · rw [bind_eq_ok] at h
      obtain ⟨rest, removed, h⟩ := h
      obtain rfl := Except.ok.inj h
      obtain ⟨before, k, after, rfl, rfl, ids⟩ := ih removed
      exact ⟨x :: before, k, after, rfl, rfl, ids⟩

theorem replaceKeyIn_ok {ks' : List Key} {k' : Key} (h : replaceKeyIn id k' ks = .ok ks') :
    ks' = ks.map fun k => if k.pub = id then k' else k := by
  induction ks generalizing ks' with
  | nil =>
    cases h
    rfl
  | cons _ _ ih =>
    rw [replaceKeyIn, bind_eq_ok] at h
    obtain ⟨keyID, found, h⟩ := h
    rw [bind_eq_ok] at h
    obtain ⟨rest, replaced, h⟩ := h
    obtain rfl := Except.ok.inj h
    rw [Key.id_ok found, ih replaced, map_cons]

theorem distinct_map (f : Key → Key) (same : ∀ k ∈ ks, (f k).id = k.id)
    (distinct : ks.Pairwise fun k l => k.id ≠ l.id) :
    (ks.map f).Pairwise fun k l => k.id ≠ l.id := by
  rw [pairwise_map]
  refine distinct.imp_of_mem fun hk hl differ => ?_
  rwa [same _ hk, same _ hl]

section
variable [Crypto]

inductive Applied (s : State) (u : AUM) : State → Prop
  | kept (kind : u.messageKind ≠ .checkpoint) : Applied s u (s.cloneForUpdate u)
  | checkpoint (st : State) (kind : u.messageKind = .checkpoint) (field : u.state = some st)
      (id1 : st.stateID1 = s.stateID1) (id2 : st.stateID2 = s.stateID2) :
      Applied s u (st.cloneForUpdate u)
  | added (key : Key) (id : Bytes) (e : Err) (kind : u.messageKind = .addKey)
      (field : u.key = some key) (ids : key.id = .ok id) (fresh : s.getKey id = .error e) :
      Applied s u { s.cloneForUpdate u with keys := s.keys ++ [key] }
  | updated (k k' : Key) (keys : List Key) (kind : u.messageKind = .updateKey)
      (found : s.getKey (u.keyID.getD []) = .ok k)
      (changed : k' = { k with
        votes := u.votes.getD k.votes
        metadata := u.metadata <|> k.metadata })
      (valid : k'.staticValidate = .ok ())
      (replaced : replaceKeyIn (u.keyID.getD []) k' s.keys = .ok keys) :
      Applied s u { s.cloneForUpdate u with keys }
  | removed (keys : List Key) (kind : u.messageKind = .removeKey)
      (removed : removeKeyIn (u.keyID.getD []) s.keys = .ok keys) :
      Applied s u { s.cloneForUpdate u with keys }

variable {s s' : State} {u : AUM}

section
variable (h : s.applyVerifiedAUM u = .ok s')
include h

theorem applyVerifiedAUM_cases :
    s.parentMatches u = true ∧ Applied s u s' := by
  unfold applyVerifiedAUM at h
  split at h
  · cases h
  rename_i parent
  refine ⟨by simpa using parent, ?_⟩
  split at h
  next kind =>
    obtain rfl := Except.ok.inj h
    exact .kept (by simp [kind])
  next kind =>
    split at h
    · cases h
    rename_i st field
    split at h
    next ids =>
      obtain rfl := Except.ok.inj h
      exact .checkpoint st kind field ids.1 ids.2
    · cases h
  next kind =>
    split at h
    · cases h
    rename_i key field
    rw [bind_eq_ok] at h
    obtain ⟨id, ids, h⟩ := h
    split at h
    · cases h
    rename_i e fresh
    obtain rfl := Except.ok.inj h
    exact .added key id e kind field ids fresh
  next kind =>
    rw [bind_eq_ok] at h
    obtain ⟨k, found, h⟩ := h
    dsimp only at h
    split at h
    · cases h
    rename_i valid
    rw [bind_eq_ok] at h
    obtain ⟨keys, replaced, h⟩ := h
    obtain rfl := Except.ok.inj h
    exact .updated k _ keys kind found rfl valid replaced
  next kind =>
    rw [bind_eq_ok] at h
    obtain ⟨keys, removed, h⟩ := h
    obtain rfl := Except.ok.inj h
    exact .removed keys kind removed
  next kind _ _ _ =>
    obtain rfl := Except.ok.inj h
    exact .kept kind

theorem applyVerifiedAUM_last : s'.lastAUMHash = some u.hash := by
  cases (applyVerifiedAUM_cases h).2 <;> rfl

theorem applyVerifiedAUM_ids :
    s'.stateID1 = s.stateID1 ∧ s'.stateID2 = s.stateID2 := by
  cases (applyVerifiedAUM_cases h).2 with
  | checkpoint _ _ _ id1 id2 => exact ⟨id1, id2⟩
  | kept | added | updated | removed => exact ⟨rfl, rfl⟩

end

end

def DisablementValid (values : List Bytes) : Prop :=
  values.length ≠ 0 ∧ values.length ≤ maxDisablementValues ∧
    values.zipIdx.forM (validateDisablement values) = .ok ()

structure Valid (s : State) : Prop where
  disablement : DisablementValid s.disablementValues
  nonempty : s.keys ≠ []
  keys : KeysValid s.keys
  distinct : s.keys.Pairwise fun k l => k.id ≠ l.id

theorem validateKey_ok {k : Key × Nat} : validateKey k = .ok () ↔ k.1.staticValidate = .ok () := by
  unfold validateKey
  split <;> simp_all

theorem forall_zipIdx {α : Type} {l : List α} {P : α → Prop} :
    (∀ x ∈ l.zipIdx, P x.1) ↔ ∀ x ∈ l, P x := by
  constructor
  · intro h x hx
    obtain ⟨i, hi, rfl⟩ := mem_iff_getElem.1 hx
    exact h (l[i], i) (mk_mem_zipIdx_iff_getElem?.2 (by simp))
  · exact fun h x hx => h x.1 (fst_mem_of_mem_zipIdx hx)

theorem pairwise_zipIdx {α : Type} {R : α → α → Prop} (symm : ∀ {x y}, R x y → R y x) {l : List α} :
    (∀ x ∈ l.zipIdx, ∀ y ∈ l.zipIdx, x.2 ≠ y.2 → R x.1 y.1) ↔ l.Pairwise R := by
  rw [pairwise_iff_getElem]
  constructor
  · intro h i j hi hj lt
    exact h (l[i], i) (mk_mem_zipIdx_iff_getElem?.2 (by simp)) (l[j], j)
      (mk_mem_zipIdx_iff_getElem?.2 (by simp)) (Nat.ne_of_lt lt)
  · rintro h ⟨x, i⟩ hx ⟨y, j⟩ hy differ
    obtain ⟨hi, rfl⟩ := List.getElem?_eq_some_iff.1 (mk_mem_zipIdx_iff_getElem?.1 hx)
    obtain ⟨hj, rfl⟩ := List.getElem?_eq_some_iff.1 (mk_mem_zipIdx_iff_getElem?.1 hy)
    rcases Nat.lt_or_gt_of_ne differ with lt | gt
    · exact h i j hi hj lt
    · exact symm (h j i hj hi gt)

theorem validateDistinct_ok {all : List Key} {k : Key × Nat} (valid : KeysValid all)
    (mem : k.1 ∈ all) :
    validateDistinct all k = .ok () ↔ ∀ l ∈ all.zipIdx, k.2 ≠ l.2 → k.1.id ≠ l.1.id := by
  rw [validateDistinct, forM_eq_ok]
  refine forall₂_congr fun l hl => ?_
  have hk := Key.id_of_valid (valid _ mem)
  have hl := Key.id_of_valid (valid _ (fst_mem_of_mem_zipIdx hl))
  by_cases same : k.2 = l.2
  · simp [same]
  · simp [same, hk, hl]

theorem staticValidateCheckpoint_ok {s : State} :
    s.staticValidateCheckpoint = .ok () ↔
      s.lastAUMHash = none ∧ s.keys.length ≤ maxKeys ∧ s.Valid := by
  simp only [staticValidateCheckpoint, ite_error_eq_ok, seq_eq_ok]
  have distinct (valid : KeysValid s.keys) :
      s.keys.zipIdx.forM (validateDistinct s.keys) = .ok () ↔
        s.keys.Pairwise fun k l => k.id ≠ l.id := by
    rw [forM_eq_ok, ← pairwise_zipIdx Ne.symm]
    exact forall₂_congr fun k hk => validateDistinct_ok valid (fst_mem_of_mem_zipIdx hk)
  have keys : s.keys.zipIdx.forM validateKey = .ok () ↔ KeysValid s.keys := by
    rw [forM_eq_ok]
    simp only [validateKey_ok]
    exact forall_zipIdx (P := fun k : Key => k.staticValidate = .ok ())
  rw [keys]
  constructor
  · rintro ⟨last, some, few, values, nonempty, fewKeys, valid, pairs⟩
    exact ⟨by simpa using last, Nat.not_lt.1 fewKeys, ⟨some, Nat.not_lt.1 few, values⟩,
      by simpa using nonempty, valid, (distinct valid).1 pairs⟩
  · rintro ⟨last, fewKeys, ⟨some, few, values⟩, nonempty, valid, pairs⟩
    exact ⟨by simpa using last, some, Nat.not_lt.2 few, values, by simpa using nonempty,
      Nat.not_lt.2 fewKeys, valid, (distinct valid).2 pairs⟩

end State

theorem AUM.validateSignature_ok {sig : Signature × Nat} :
    AUM.validateSignature sig = .ok () ↔
      sig.1.keyID.length = 32 ∧ sig.1.signature.length = signatureSize := by
  rw [AUM.validateSignature, ite_error_eq_ok, not_or, not_not, not_not, and_iff_left rfl]

theorem AUM.staticValidate_ok :
    a.staticValidate = .ok () ↔
      (∀ k ∈ a.key, k.staticValidate = .ok ()) ∧ a.prevAUMHash ≠ some [] ∧
      (∀ sig ∈ a.signatures, sig.keyID.length = 32 ∧ sig.signature.length = signatureSize) ∧
      (∀ st ∈ a.state, st.staticValidateCheckpoint = .ok ()) ∧ a.validateFields = .ok () := by
  have signatures : a.signatures.zipIdx.forM validateSignature = .ok () ↔
      ∀ sig ∈ a.signatures, sig.keyID.length = 32 ∧ sig.signature.length = signatureSize := by
    rw [forM_eq_ok]
    simp only [validateSignature_ok]
    exact State.forall_zipIdx
      (P := fun sig : Signature => sig.keyID.length = 32 ∧ sig.signature.length = signatureSize)
  rw [← signatures]
  unfold AUM.staticValidate
  cases key : a.key with
  | none | some =>
    cases state : a.state with
    | none => simp [ite_error_eq_ok, seq_eq_ok, error_bind]
    | some st =>
      cases valid : st.staticValidateCheckpoint <;>
        simp [ite_error_eq_ok, seq_eq_ok, error_bind, valid]

theorem checkParent_ok :
    checkParent a s = .ok () ↔ ∃ h, a.parent = some h ∧ s.lastAUMHash = some h := by
  unfold checkParent
  cases a.parent with
  | none => simp
  | some =>
    cases s.lastAUMHash with
    | none => simp
    | some => simp [eq_comm]

theorem State.Valid.of_checkpoint {u : AUM} {st : State} (verified : u.staticValidate = .ok ())
    (field : u.state = some st) : st.Valid :=
  (State.staticValidateCheckpoint_ok.1 ((AUM.staticValidate_ok.1 verified).2.2.2.1 st field)).2.2

theorem AUM.weightLoop_ok (keys : KeysValid s.keys) {sigs : List Signature}
    (ids : ∀ sig ∈ sigs, sig.keyID.length = 32) (seen : List Bytes) (w : UInt64) :
    ∃ w', AUM.weightLoop s sigs seen w = .ok w' := by
  induction sigs generalizing seen w with
  | nil => exact ⟨w, rfl⟩
  | cons sig _ ih =>
    obtain ⟨len, rest⟩ := forall_mem_cons.1 ids
    rw [weightLoop, if_neg (not_not.2 len)]
    cases found : s.getKey sig.keyID with
    | error =>
      obtain ⟨rfl, -⟩ := State.getKeyIn_error keys found
      exact ih rest _ _
    | ok =>
      dsimp only
      split
      · exact ih rest _ _
      · exact ih rest _ _

theorem AUM.weight_ok (static : a.staticValidate = .ok ())
    (keys : KeysValid s.keys) : ∃ w, a.weight s = .ok w :=
  weightLoop_ok keys (fun sig hsig => ((AUM.staticValidate_ok.1 static).2.2.1 sig hsig).1) _ _

section
variable [Crypto]

theorem aumVerify_ok {genesis : Bool} :
    aumVerify a s genesis = .ok () ↔ a.staticValidate = .ok () ∧
      (genesis = false → checkParent a s = .ok ()) ∧ a.signatures ≠ [] ∧
      (∀ sig ∈ a.signatures.zipIdx, verifySignatureOf a s sig = .ok ()) ∧
      removesLastKey a s = false := by
  rw [← forM_eq_ok]
  unfold aumVerify
  cases valid : a.staticValidate with
  | error => simp [error_bind]
  | ok =>
    cases genesis <;>
      simp [ite_error_eq_ok, seq_eq_ok, error_bind, pure, Except.pure, and_left_comm]

namespace State

variable {s s' : State} {u : AUM}

theorem Valid.cloneForUpdate (valid : s.Valid) : (s.cloneForUpdate u).Valid := { valid with }

variable {keys : List Key}

section
variable (valid : s.Valid)
include valid

theorem Valid.of_keys (nonempty : keys ≠ [])
    (all : KeysValid keys) (distinct : keys.Pairwise fun k l => k.id ≠ l.id) :
    Valid { s.cloneForUpdate u with keys } :=
  ⟨valid.disablement, nonempty, all, distinct⟩

theorem Valid.add {key : Key} {e : Err}
    (hkey : key.staticValidate = .ok ()) (ids : key.id = .ok id) (fresh : s.getKey id = .error e) :
    Valid { s.cloneForUpdate u with keys := s.keys ++ [key] } := by
  refine valid.of_keys (by simp) ?_ ?_
  · intro k hk
    rcases mem_append.1 hk with hk | hk
    · exact valid.keys k hk
    · rw [mem_singleton.1 hk]
      exact hkey
  · refine pairwise_append.2 ⟨valid.distinct, pairwise_singleton _ _, ?_⟩
    intro k hk l hl
    rw [mem_singleton.1 hl, ids]
    exact (getKeyIn_error valid.keys fresh).2 k hk

theorem Valid.update {k' : Key}
    (found : s.getKey id = .ok k) (samePub : k'.pub = k.pub) (hkey : k'.staticValidate = .ok ())
    (replaced : replaceKeyIn id k' s.keys = .ok keys) :
    Valid { s.cloneForUpdate u with keys } := by
  obtain rfl := replaceKeyIn_ok replaced
  have hid := Key.id_ok (getKeyIn_ok found).2
  refine valid.of_keys (by simpa using valid.nonempty) ?_ (distinct_map _ ?_ valid.distinct)
  · intro l hl
    obtain ⟨k₀, hk₀, rfl⟩ := List.mem_map.1 hl
    split
    · exact hkey
    · exact valid.keys k₀ hk₀
  · intro k₀ hk₀
    split
    next same => rw [Key.id_of_valid hkey, Key.id_of_valid (valid.keys k₀ hk₀), samePub, same, hid]
    · rfl

theorem Valid.remove (kind : u.messageKind = .removeKey) (notLast : removesLastKey u s = false)
    (removed : removeKeyIn (u.keyID.getD []) s.keys = .ok keys) :
    Valid { s.cloneForUpdate u with keys } := by
  obtain ⟨before, k, after, split, rfl, ids⟩ := removeKeyIn_ok removed
  have sub : (before ++ after).Sublist s.keys := by
    rw [split]
    exact (sublist_cons_self k after).append_left before
  refine valid.of_keys ?_ (fun l hl => valid.keys l (sub.subset hl)) (valid.distinct.sublist sub)
  intro empty
  obtain ⟨rfl, rfl⟩ := append_eq_nil_iff.1 empty
  simp [removesLastKey, kind, split, ids] at notLast

theorem Valid.apply (verified : aumVerify u s false = .ok ())
    (applied : s.applyVerifiedAUM u = .ok s') : s'.Valid := by
  obtain ⟨static, -, -, -, notLast⟩ := aumVerify_ok.1 verified
  cases (applyVerifiedAUM_cases applied).2 with
  | kept => exact valid.cloneForUpdate
  | checkpoint _ _ field => exact (Valid.of_checkpoint static field).cloneForUpdate
  | added key _ _ _ field ids fresh =>
    exact valid.add ((AUM.staticValidate_ok.1 static).1 key field) ids fresh
  | updated _ _ _ _ found changed hkey replaced =>
    exact valid.update found (by rw [changed]) hkey replaced
  | removed _ kind removed => exact valid.remove kind notLast removed

end

end State

end

end ScaleTail.TKA
