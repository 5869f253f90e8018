import ScaleTail.TKA.Chonk

/-! # What a storage has to provide -/

namespace ScaleTail.TKA

section
variable [Crypto]

def stored {σ : Type} [Chonk σ] (storage : σ) : Set AUM := {a | Chonk.aum storage a.hash = .ok a}

theorem stored_injective {σ : Type} [Chonk σ] {s : σ} : Set.InjOn AUM.hash (stored s) := by
  intro a ha b hb same
  have both : Chonk.aum s a.hash = .ok b := by
    rw [same]
    exact hb
  rw [ha, Except.ok.injEq] at both
  exact both

class LawfulChonk (σ : Type) [Chonk σ] where
  Consistent : σ → Prop
  aum_ok {s : σ} {h : AUMHash} {a : AUM} (consistent : Consistent s)
    (found : Chonk.aum s h = .ok a) : a.hash = h
  aum_error {s : σ} {h : AUMHash} {e : Err} (consistent : Consistent s)
    (missing : Chonk.aum s h = .error e) : e = .notExist
  childAUMs {s : σ} (consistent : Consistent s) (h : AUMHash) : ∃ cs,
    Chonk.childAUMs s h = .ok cs ∧ (∀ c ∈ cs, c ∈ stored s ∧ c.parent = some h) ∧
      ∀ c ∈ stored s, c.prevAUMHash = some h.bytes → c ∈ cs
  heads {s : σ} (consistent : Consistent s) : ∃ hs, Chonk.heads s = .ok hs ∧
    ∀ a, a ∈ hs ↔ a ∈ stored s ∧ ∀ c ∈ stored s, c.parent ≠ some a.hash
  commitVerifiedAUMs {s : σ} {us : List AUM} (consistent : Consistent s)
    (injective : Set.InjOn AUM.hash (stored s ∪ {a | a ∈ us}))
    (encoded : ∀ a ∈ us, a.omitEmpty = a) :
    ∃ s', Chonk.commitVerifiedAUMs s us = (.ok (), s') ∧ Consistent s' ∧
      stored s' = stored s ∪ {a | a ∈ us} ∧
      Chonk.lastActiveAncestor s' = Chonk.lastActiveAncestor s
  setLastActiveAncestor {s : σ} (consistent : Consistent s) (h : AUMHash) :
    ∃ s', Chonk.setLastActiveAncestor s h = (.ok (), s') ∧ Consistent s' ∧
      stored s' = stored s ∧ Chonk.lastActiveAncestor s' = .ok (some h)

class LawfulCompactableChonk (σ : Type) [CompactableChonk σ] extends LawfulChonk σ where
  allAUMs {s : σ} (consistent : Consistent s) : ∃ hs, CompactableChonk.allAUMs s = .ok hs ∧
    ∀ h, h ∈ hs ↔ ∃ a ∈ stored s, a.hash = h
  commitTime_error {s : σ} {h : AUMHash} {e : Err} (consistent : Consistent s)
    (missing : CompactableChonk.commitTime s h = .error e) : e = .notExist
  purgeAUMs {s s' : σ} {hs : List AUMHash} (consistent : Consistent s)
    (purged : CompactableChonk.purgeAUMs s hs = (.ok (), s')) :
    Consistent s' ∧ stored s' = {a ∈ stored s | a.hash ∉ hs} ∧
      Chonk.lastActiveAncestor s' = Chonk.lastActiveAncestor s

section
variable {σ : Type} [Chonk σ] [LawfulChonk σ] {s : σ} {a b : AUM} {h : AUMHash}

open LawfulChonk

theorem aum_eq_ok (consistent : Consistent s) :
    Chonk.aum s h = .ok a ↔ a ∈ stored s ∧ a.hash = h := by
  constructor
  · intro found
    obtain rfl := aum_ok consistent found
    exact ⟨found, rfl⟩
  · rintro ⟨found, rfl⟩
    exact found

theorem aum_eq_notExist (consistent : Consistent s) :
    Chonk.aum s h = .error .notExist ↔ ∀ a ∈ stored s, a.hash ≠ h := by
  cases found : Chonk.aum s h with
  | error =>
    obtain rfl := aum_error consistent found
    refine ⟨fun _ a ha same => ?_, fun _ => rfl⟩
    rw [← same, ha] at found
    cases found
  | ok a =>
    obtain ⟨ha, same⟩ := (aum_eq_ok consistent).1 found
    exact ⟨fun impossible => (nomatch impossible), fun none => absurd same (none a ha)⟩

end

end

end ScaleTail.TKA
