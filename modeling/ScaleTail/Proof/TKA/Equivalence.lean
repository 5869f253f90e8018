import ScaleTail.Proof.TKA.Sample

/-! # `Mem` and `FS` answer alike -/

namespace ScaleTail.TKA

open LawfulChonk Chonk

inductive ChonkOp
  | commitVerifiedAUMs (updates : List AUM)
  | purgeAUMs (hashes : List AUMHash)
  | setLastActiveAncestor (hash : AUMHash)

namespace ChonkOp

def run {σ : Type} [CompactableChonk σ] (storage : σ) : ChonkOp → Except Err Unit × σ
  | commitVerifiedAUMs updates => Chonk.commitVerifiedAUMs storage updates
  | purgeAUMs hashes => CompactableChonk.purgeAUMs storage hashes
  | setLastActiveAncestor hash => Chonk.setLastActiveAncestor storage hash

def runAll {σ : Type} [CompactableChonk σ] (storage : σ) : List ChonkOp → Except Err Unit × σ
  | [] => (.ok (), storage)
  | op :: ops =>
    match op.run storage with
    | (.ok (), storage) => runAll storage ops
    | (.error err, storage) => (.error err, storage)

end ChonkOp

structure Contents where
  aums : Set AUM
  lastActiveAncestor : Option AUMHash

def AUM.PrevWellFormed (a : AUM) : Prop :=
  a.prevAUMHash.getD [] = [] ∨ (a.prevAUMHash.getD []).length = 32

theorem AUM.parent_iff_bytes {a : AUM} (wf : a.PrevWellFormed) (h : AUMHash) :
    a.parent = some h ↔ a.prevAUMHash.getD [] = h.bytes := by
  refine ⟨fun parent => ?_, fun bytes => parent_of_prev (prev_of_bytes bytes)⟩
  rcases wf with empty | size
  · cases prev : a.prevAUMHash with
    | none => simp [AUM.parent, prev] at parent
    | some src =>
      rw [prev, Option.getD_some] at empty
      simp [AUM.parent, prev, empty] at parent
  · have link : a.parent = some ⟨a.prevAUMHash.getD [], size⟩ := parent_of_prev (prev_of_bytes rfl)
    rw [link, Option.some.injEq] at parent
    rw [← parent]

section
variable [Crypto]

namespace ChonkOp

def apply (c : Contents) : ChonkOp → Contents
  | commitVerifiedAUMs updates => { c with aums := c.aums ∪ {a | a ∈ updates} }
  | purgeAUMs hashes => { c with aums := {a ∈ c.aums | a.hash ∉ hashes} }
  | setLastActiveAncestor hash => { c with lastActiveAncestor := some hash }

def Allowed (U : Set AUM) (c : Contents) : ChonkOp → Prop
  | commitVerifiedAUMs updates => ∀ a ∈ updates, a ∈ U
  | purgeAUMs hashes => ∀ h ∈ hashes, ∃ a ∈ c.aums, a.hash = h
  | setLastActiveAncestor _ => True

def AllowedAll (U : Set AUM) (c : Contents) : List ChonkOp → Prop
  | [] => True
  | op :: ops => op.Allowed U c ∧ AllowedAll U (op.apply c) ops

end ChonkOp

structure Holds {σ : Type} [CompactableChonk σ] [LawfulCompactableChonk σ] (storage : σ)
    (c : Contents) : Prop where
  consistent : Consistent storage
  aums : stored storage = c.aums
  lastActiveAncestor : Chonk.lastActiveAncestor storage = .ok c.lastActiveAncestor

def PurgesStored (σ : Type) [CompactableChonk σ] [LawfulCompactableChonk σ] : Prop :=
  ∀ (storage : σ) (hashes : List AUMHash), Consistent storage →
    (∀ h ∈ hashes, ∃ a ∈ stored storage, a.hash = h) →
    ∃ storage', CompactableChonk.purgeAUMs storage hashes = (.ok (), storage')

theorem Mem.purgesStored : PurgesStored Mem := fun _ _ _ _ => ⟨_, rfl⟩

theorem FS.purgesStored : PurgesStored FS := by
  intro storage hashes consistent present
  obtain ⟨storage', -, -, -, outcome⟩ := FS.purgeLoop_spec storage.now hashes 0 consistent
  rcases outcome with ⟨ok, -⟩ | ⟨context, done, h, rest, -, split, absent, -⟩
  · exact ⟨storage', ok⟩
  -- The loop stops only at a hash without a file, and a stored AUM has one.
  obtain ⟨a, ha, rfl⟩ := present h (by rw [split]; simp)
  obtain ⟨file, found, -⟩ := (FS.mem_stored consistent).1 ha
  exact absurd (AList.lookup_isSome.1 (by rw [found]; rfl)) absent

section
variable {σ : Type} [CompactableChonk σ] [LawfulCompactableChonk σ] {storage : σ} {c : Contents}
  {U : Set AUM}

theorem ChonkOp.Allowed.subset {op : ChonkOp} (allowed : op.Allowed U c) (known : c.aums ⊆ U) :
    (op.apply c).aums ⊆ U := by
  cases op with
  | commitVerifiedAUMs updates => exact Set.union_subset known allowed
  | purgeAUMs hashes => exact (Set.sep_subset _ _).trans known
  | setLastActiveAncestor hash => exact known

section
variable (total : PurgesStored σ) (injective : Set.InjOn AUM.hash U)
  (encoded : ∀ a ∈ U, a.omitEmpty = a)
include total injective encoded

theorem Holds.run {op : ChonkOp} (h : Holds storage c) (known : c.aums ⊆ U)
    (allowed : op.Allowed U c) :
    ∃ storage', op.run storage = (.ok (), storage') ∧ Holds storage' (op.apply c) := by
  obtain ⟨consistent, contents, recorded⟩ := h
  cases op with
  | commitVerifiedAUMs updates =>
    have free : Set.InjOn AUM.hash (stored storage ∪ {a | a ∈ updates}) := by
      rw [contents]
      exact injective.mono (Set.union_subset known allowed)
    obtain ⟨storage', ok, kept, union, same⟩ :=
      commitVerifiedAUMs consistent free fun a ha => encoded a (allowed a ha)
    rw [contents] at union
    exact ⟨storage', ok, kept, union, same.trans recorded⟩
  | purgeAUMs hashes =>
    have present : ∀ h ∈ hashes, ∃ a ∈ stored storage, a.hash = h := by
      rw [contents]
      exact allowed
    obtain ⟨storage', ok⟩ := total storage hashes consistent present
    obtain ⟨kept, rest, same⟩ := LawfulCompactableChonk.purgeAUMs consistent ok
    rw [contents] at rest
    exact ⟨storage', ok, kept, rest, same.trans recorded⟩
  | setLastActiveAncestor hash =>
    obtain ⟨storage', ok, kept, same, last⟩ := setLastActiveAncestor consistent hash
    exact ⟨storage', ok, kept, same.trans contents, last⟩

theorem Holds.runAll {ops : List ChonkOp} (h : Holds storage c) (known : c.aums ⊆ U)
    (allowed : ChonkOp.AllowedAll U c ops) :
    ∃ storage', ChonkOp.runAll storage ops = (.ok (), storage') ∧
      Holds storage' (ops.foldl ChonkOp.apply c) ∧ (ops.foldl ChonkOp.apply c).aums ⊆ U := by
  induction ops generalizing storage c with
  | nil => exact ⟨storage, rfl, h, known⟩
  | cons op ops ih =>
    obtain ⟨here, rest⟩ := allowed
    obtain ⟨storage₁, ok, h₁⟩ := h.run total injective encoded known here
    obtain ⟨storage', ran, h'⟩ := ih h₁ (here.subset known) rest
    refine ⟨storage', ?_, h'⟩
    rw [ChonkOp.runAll, ok]
    exact ran

end

end

structure SameAnswers {σ τ : Type} [CompactableChonk σ] [CompactableChonk τ] (s : σ) (t : τ) :
    Prop where
  aum : ∀ h, Chonk.aum s h = Chonk.aum t h
  childAUMs : ∀ h, ∃ cs ds, Chonk.childAUMs s h = .ok cs ∧ Chonk.childAUMs t h = .ok ds ∧
    ∀ a, a ∈ cs ↔ a ∈ ds
  heads : ∃ hs ks, Chonk.heads s = .ok hs ∧ Chonk.heads t = .ok ks ∧ ∀ a, a ∈ hs ↔ a ∈ ks
  allAUMs : ∃ hs ks, CompactableChonk.allAUMs s = .ok hs ∧ CompactableChonk.allAUMs t = .ok ks ∧
    ∀ h, h ∈ hs ↔ h ∈ ks
  lastActiveAncestor : Chonk.lastActiveAncestor s = Chonk.lastActiveAncestor t

theorem Holds.childAUMs {σ : Type} [CompactableChonk σ] [LawfulCompactableChonk σ] {s : σ}
    {c : Contents} (h : Holds s c) (wf : ∀ a ∈ c.aums, a.PrevWellFormed) (p : AUMHash) :
    ∃ cs, childAUMs s p = .ok cs ∧ ∀ a, a ∈ cs ↔ a ∈ c.aums ∧ a.parent = some p := by
  obtain ⟨cs, ok, sound, complete⟩ := LawfulChonk.childAUMs h.consistent p
  refine ⟨cs, ok, fun a => ?_⟩
  rw [← h.aums]
  refine ⟨sound a, fun ⟨ha, parent⟩ => complete a ha ?_⟩
  have bytes := (AUM.parent_iff_bytes (wf a (h.aums ▸ ha)) p).1 parent
  exact AUM.prev_of_bytes bytes

theorem Holds.sameAnswers {σ τ : Type} [CompactableChonk σ] [LawfulCompactableChonk σ]
    [CompactableChonk τ] [LawfulCompactableChonk τ] {s : σ} {t : τ} {c : Contents}
    (hs : Holds s c) (ht : Holds t c) (wf : ∀ a ∈ c.aums, a.PrevWellFormed) : SameAnswers s t where
  aum h := by
    have same : stored s = stored t := hs.aums.trans ht.aums.symm
    cases found : aum t h with
    | ok a =>
      rw [aum_eq_ok ht.consistent, ← same] at found
      exact (aum_eq_ok hs.consistent).2 found
    | error e =>
      obtain rfl := aum_error ht.consistent found
      rw [aum_eq_notExist ht.consistent, ← same] at found
      exact (aum_eq_notExist hs.consistent).2 found
  childAUMs h := by
    obtain ⟨cs, okS, specS⟩ := hs.childAUMs wf h
    obtain ⟨ds, okT, specT⟩ := ht.childAUMs wf h
    exact ⟨cs, ds, okS, okT, fun a => (specS a).trans (specT a).symm⟩
  heads := by
    obtain ⟨as, okS, specS⟩ := heads hs.consistent
    obtain ⟨bs, okT, specT⟩ := heads ht.consistent
    rw [hs.aums] at specS
    rw [ht.aums] at specT
    exact ⟨as, bs, okS, okT, fun a => (specS a).trans (specT a).symm⟩
  allAUMs := by
    obtain ⟨as, okS, specS⟩ := LawfulCompactableChonk.allAUMs hs.consistent
    obtain ⟨bs, okT, specT⟩ := LawfulCompactableChonk.allAUMs ht.consistent
    rw [hs.aums] at specS
    rw [ht.aums] at specT
    exact ⟨as, bs, okS, okT, fun h => (specS h).trans (specT h).symm⟩
  lastActiveAncestor := hs.lastActiveAncestor.trans ht.lastActiveAncestor.symm

def Contents.empty : Contents := ⟨∅, none⟩

theorem Mem.chonkMem_holds (clock : Nat → Time) : Holds (chonkMem clock) Contents.empty := by
  refine ⟨chonkMem_consistent clock, ?_, rfl⟩
  ext a
  rw [Mem.mem_stored]
  simp [chonkMem, Contents.empty]

theorem FS.chonkDir_holds (clock : Nat → WallTime) : Holds (chonkDir clock) Contents.empty := by
  refine ⟨chonkDir_consistent clock, ?_, rfl⟩
  ext a
  rw [FS.mem_stored (chonkDir_consistent clock)]
  simp [chonkDir, Contents.empty]

/-- After any sequence of operations on AUMs without digest collisions, each of which is read back as
it was, neither storage has failed, and the two give the same answers. -/
theorem mem_fs_sameAnswers {U : Set AUM} (injective : Set.InjOn AUM.hash U)
    (encoded : ∀ a ∈ U, a.omitEmpty = a) (wf : ∀ a ∈ U, a.PrevWellFormed) (clock : Nat → Time) (clock' : Nat → WallTime)
    {ops : List ChonkOp} (allowed : ChonkOp.AllowedAll U Contents.empty ops) :
    ∃ mem fs, ChonkOp.runAll (Mem.chonkMem clock) ops = (.ok (), mem) ∧
      ChonkOp.runAll (FS.chonkDir clock') ops = (.ok (), fs) ∧ SameAnswers mem fs := by
  have known : Contents.empty.aums ⊆ U := Set.empty_subset U
  obtain ⟨mem, ranMem, holdsMem, subset⟩ :=
    (Mem.chonkMem_holds clock).runAll Mem.purgesStored injective encoded known allowed
  obtain ⟨fs, ranFS, holdsFS, -⟩ :=
    (FS.chonkDir_holds clock').runAll FS.purgesStored injective encoded known allowed
  exact ⟨mem, fs, ranMem, ranFS, holdsMem.sameAnswers holdsFS fun a ha => wf a (subset ha)⟩

end

namespace Sample

attribute [local instance] crypto

/-- A branch is committed, its tip is purged, and then committed again beside a rival. -/
def recommit : List ChonkOp :=
  [.commitVerifiedAUMs [genesis, first], .setLastActiveAncestor genesis.hash,
    .purgeAUMs [first.hash, first.hash], .commitVerifiedAUMs [first, rival]]

theorem recommit_allowed :
    ChonkOp.AllowedAll {a | a ∈ [genesis, first, rival]} Contents.empty recommit := by
  refine ⟨?_, trivial, ?_, ?_, trivial⟩
  · intro a ha
    have : a = genesis ∨ a = first := by simpa using ha
    rcases this with rfl | rfl <;> simp
  · intro h hh
    have : h = first.hash := by simpa using hh
    exact ⟨first, .inr (by simp), this.symm⟩
  · intro a ha
    have : a = first ∨ a = rival := by simpa using ha
    rcases this with rfl | rfl <;> simp

theorem recommit_wellFormed : ∀ a ∈ [genesis, first, rival], a.PrevWellFormed := by
  intro a ha
  have : a = genesis ∨ a = first ∨ a = rival := by simpa using ha
  rcases this with rfl | rfl | rfl
  · exact .inl rfl
  · exact .inr (Lib.BigEndian.length_encode 32 _)
  · exact .inr (Lib.BigEndian.length_encode 32 _)

theorem recommit_sameAnswers :
    ∃ mem fs, ChonkOp.runAll memory recommit = (.ok (), mem) ∧
      ChonkOp.runAll disk recommit = (.ok (), fs) ∧ SameAnswers mem fs := by
  have encoded : ∀ a ∈ [genesis, first, rival], a.omitEmpty = a := by decide
  exact mem_fs_sameAnswers (injOn_of_nodup (by decide)) encoded recommit_wellFormed _ _
    recommit_allowed

end Sample

end ScaleTail.TKA
