import ScaleTail.Lib.Lookup
import ScaleTail.Proof.TKA.Lineage
import ScaleTail.Proof.TKA.Storage

/-! # `Mem` is a lawful storage -/

namespace ScaleTail.TKA.Mem
open AList List
open Option (getD_some some)

variable {c : Mem} {a b : AUM} {h e : AUMHash}

theorem aum_eq_ok : Mem.aum c h = .ok a ↔ c.aums.lookup h = some a := by
  unfold Mem.aum
  cases c.aums.lookup h <;> simp

theorem index_purgeOne (p : AUMHash) :
    e ∈ (c.purgeOne h).index p ↔ e ∈ c.index p ∧
      ((c.aums.lookup h).bind AUM.parent = some p → e ≠ h) := by
  unfold index purgeOne unindex
  dsimp only
  split
  next none => simp [none]
  next parent found =>
    rw [found, some.injEq]
    by_cases same : p = parent
    · subst same
      split
      next empty =>
        have := filter_eq_nil_iff.1 empty e
        simpa [index] using this
      · simp [index]
    · split
      · simp [lookup_erase_ne same, Ne.symm same]
      · simp [lookup_insert_ne same, Ne.symm same]

theorem lookup_purgeOne : (c.purgeOne h).aums.lookup e =
    if e = h then none else c.aums.lookup e :=
  Lib.lookup_erase_ite

section
variable [Crypto]

/-- The maps of a `Mem` belong together: an AUM is stored under its digest, and `parentIndex` lists
exactly the stored children. -/
structure Consistent (c : Mem) : Prop where
  named : ∀ {h a}, c.aums.lookup h = some a → a.hash = h
  indexed : ∀ {h e}, e ∈ c.index h ↔ ∃ a, c.aums.lookup e = some a ∧ a.parent = some h

theorem mem_stored : a ∈ stored c ↔ c.aums.lookup a.hash = some a := aum_eq_ok

theorem chonkMem_consistent (clock : Nat → Time) : (chonkMem clock).Consistent where
  named found := by simp [chonkMem] at found
  indexed := by simp [chonkMem, index]

theorem index_indexed (h : AUMHash) :
    e ∈ (c.commitOne a).index h ↔ e ∈ c.index h ∨ a.parent = some h ∧ e = a.hash := by
  unfold index commitOne indexed
  split
  next none => simp [none]
  next parent found =>
    split
    next listed =>
      rw [found, some.injEq]
      refine ⟨.inl, ?_⟩
      rintro (old | ⟨rfl, rfl⟩)
      exacts [old, listed]
    · rw [found, some.injEq]
      by_cases same : h = parent
      · subst same
        simp [index]
      · simp [lookup_insert_ne same, Ne.symm same]

theorem lookup_commitOne : (c.commitOne a).aums.lookup e =
    if e = a.hash then some a else c.aums.lookup e :=
  Lib.lookup_insert_ite

theorem Consistent.commitOne (consistent : c.Consistent)
    (same : ∀ b, c.aums.lookup a.hash = some b → b = a) : (c.commitOne a).Consistent where
  named {h b} found := by
    rw [lookup_commitOne] at found
    split at found
    next hash => rw [← some.inj found, hash]
    · exact consistent.named found
  indexed {h e} := by
    rw [index_indexed, consistent.indexed, lookup_commitOne]
    split
    next hash =>
      subst hash
      constructor
      · rintro (⟨b, found, parent⟩ | ⟨parent, -⟩)
        · exact ⟨a, rfl, same b found ▸ parent⟩
        · exact ⟨a, rfl, parent⟩
      · rintro ⟨b, found, parent⟩
        exact .inr ⟨some.inj found ▸ parent, rfl⟩
    next differ => simp [differ]

theorem stored_commitOne (same : ∀ b, c.aums.lookup a.hash = some b → b = a) :
    stored (c.commitOne a) = stored c ∪ {a} := by
  ext b
  rw [mem_stored, lookup_commitOne, Set.mem_union, mem_stored, Set.mem_singleton_iff]
  split
  next hash =>
    rw [hash, some.injEq]
    exact ⟨fun same => .inr same.symm, fun h => h.elim (fun found => (same b found).symm) Eq.symm⟩
  next differ =>
    refine ⟨.inl, fun h => h.resolve_right ?_⟩
    rintro rfl
    exact differ rfl

theorem commitAll {us : List AUM} (consistent : c.Consistent)
    (injective : Set.InjOn AUM.hash (stored c ∪ {a | a ∈ us})) :
    (us.foldl Mem.commitOne c).Consistent ∧
      stored (us.foldl Mem.commitOne c) = stored c ∪ {a | a ∈ us} ∧
      (us.foldl Mem.commitOne c).lastActiveAncestor = c.lastActiveAncestor := by
  induction us generalizing c with
  | nil => exact ⟨consistent, by simp, rfl⟩
  | cons u us ih =>
    have same : ∀ b, c.aums.lookup u.hash = some b → b = u := by
      intro b found
      have named := consistent.named found
      exact injective (.inl (mem_stored.2 (named ▸ found))) (.inr mem_cons_self) named
    have union : stored (c.commitOne u) ∪ {a | a ∈ us} = stored c ∪ {a | a ∈ u :: us} := by
      rw [stored_commitOne same, Set.union_assoc]
      congr 1
      ext b
      simp
    rw [foldl_cons, ← union]
    exact ih (consistent.commitOne same) (union ▸ injective)

theorem Consistent.purgeOne (consistent : c.Consistent) : (c.purgeOne h).Consistent where
  named {h' b} found := by
    rw [lookup_purgeOne] at found
    split at found
    · cases found
    · exact consistent.named found
  indexed {p e} := by
    rw [index_purgeOne, consistent.indexed, lookup_purgeOne]
    split
    next same =>
      subst same
      refine ⟨?_, fun ⟨_, impossible, _⟩ => nomatch impossible⟩
      rintro ⟨⟨b, found, parent⟩, differ⟩
      exact absurd rfl (differ (by rw [found]; exact parent))
    next differ => simp [differ]

theorem stored_purgeOne : stored (c.purgeOne h) = {a ∈ stored c | a.hash ≠ h} := by
  ext b
  rw [mem_stored, lookup_purgeOne, Set.mem_sep_iff, mem_stored]
  split
  next same => simp [same]
  next differ => simp [differ]

theorem purgeAll (hs : List AUMHash) (consistent : c.Consistent) :
    (hs.foldl Mem.purgeOne c).Consistent ∧
      stored (hs.foldl Mem.purgeOne c) = {a ∈ stored c | a.hash ∉ hs} ∧
      (hs.foldl Mem.purgeOne c).lastActiveAncestor = c.lastActiveAncestor := by
  induction hs generalizing c with
  | nil => exact ⟨consistent, by simp, rfl⟩
  | cons h _ ih =>
    obtain ⟨kept, contents, recorded⟩ := ih (consistent.purgeOne (h := h))
    refine ⟨kept, ?_, recorded⟩
    rw [foldl_cons, contents, stored_purgeOne]
    ext b
    simp [and_assoc]

theorem heads_spec (consistent : c.Consistent) : ∃ hs, Mem.heads c = .ok hs ∧
    ∀ a, a ∈ hs ↔ a ∈ stored c ∧ ∀ d ∈ stored c, d.parent ≠ some a.hash := by
  refine ⟨_, rfl, fun a => ?_⟩
  have entry : a ∈ c.aums.entries.map (·.2) ↔ a ∈ stored c := by
    rw [mem_stored, mem_map]
    constructor
    · rintro ⟨⟨h, b⟩, mem, rfl⟩
      have found := mem_lookup_iff.2 mem
      rwa [consistent.named found]
    · exact fun found => ⟨⟨a.hash, a⟩, mem_lookup_iff.1 found, rfl⟩
  rw [mem_filter, entry, decide_eq_true_eq, length_eq_zero_iff,
    eq_nil_iff_forall_not_mem]
  refine and_congr_right fun _ => ⟨fun none d hd parent => ?_, fun none e listed => ?_⟩
  · exact none d.hash (consistent.indexed.2 ⟨d, mem_stored.1 hd, parent⟩)
  · obtain ⟨d, found, parent⟩ := consistent.indexed.1 listed
    exact none d (mem_stored.2 (consistent.named found ▸ found)) parent

theorem childAUMs_spec (consistent : c.Consistent) (h : AUMHash) : ∃ cs,
    Mem.childAUMs c h = .ok cs ∧ ∀ d, d ∈ cs ↔ d ∈ stored c ∧ d.parent = some h := by
  refine ⟨_, rfl, fun d => ?_⟩
  rw [mem_map]
  constructor
  · rintro ⟨e, listed, rfl⟩
    obtain ⟨b, found, parent⟩ := consistent.indexed.1 listed
    rw [found, getD_some]
    exact ⟨mem_stored.2 (consistent.named found ▸ found), parent⟩
  · rintro ⟨hd, parent⟩
    have found := mem_stored.1 hd
    exact ⟨d.hash, consistent.indexed.2 ⟨d, found, parent⟩, by rw [found, getD_some]⟩

instance : LawfulCompactableChonk Mem where
  Consistent := Consistent
  aum_ok consistent found := consistent.named (aum_eq_ok.1 found)
  aum_error {c h e} _ missing := by
    change Mem.aum c h = .error e at missing
    unfold Mem.aum at missing
    split at missing
    · cases missing
    · exact (Except.error.inj missing).symm
  childAUMs consistent h := by
    obtain ⟨cs, ok, spec⟩ := childAUMs_spec consistent h
    exact ⟨cs, ok, fun d hd => (spec d).1 hd,
      fun d hd prev => (spec d).2 ⟨hd, AUM.parent_of_prev prev⟩⟩
  heads := heads_spec
  commitVerifiedAUMs consistent injective _ := by
    obtain ⟨kept, contents, recorded⟩ := commitAll consistent injective
    exact ⟨_, rfl, kept, contents, congrArg Except.ok recorded⟩
  setLastActiveAncestor consistent h :=
    ⟨_, rfl, ⟨consistent.named, consistent.indexed⟩, rfl, rfl⟩
  allAUMs {c} consistent := by
    refine ⟨_, rfl, fun h => ?_⟩
    rw [← AList.mem_keys, ← lookup_isSome, Option.isSome_iff_exists]
    constructor
    · rintro ⟨b, found⟩
      have named := consistent.named found
      exact ⟨b, mem_stored.2 (named ▸ found), named⟩
    · rintro ⟨b, hb, rfl⟩
      exact ⟨b, mem_stored.1 hb⟩
  commitTime_error _ missing := by
    change Mem.commitTime _ _ = _ at missing
    unfold Mem.commitTime at missing
    split at missing
    · cases missing
    · exact (Except.error.inj missing).symm
  purgeAUMs {c c' hs} consistent purged := by
    obtain ⟨kept, contents, recorded⟩ := purgeAll hs consistent
    obtain ⟨-, rfl⟩ := Prod.mk.inj purged
    exact ⟨kept, contents, congrArg Except.ok recorded⟩

end

end ScaleTail.TKA.Mem
