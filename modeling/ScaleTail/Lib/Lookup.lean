import Mathlib

/-! # Lookups -/

namespace ScaleTail.Lib

variable {K V : Type} [DecidableEq K] {m : AList fun _ : K => V} {k k' : K} {v w : V}

theorem ne_of_none (found : m.lookup k = some v) (absent : m.lookup k' = none) : k ≠ k' := by
  rintro rfl
  simp [found] at absent

theorem ne_of_some (first : m.lookup k = some v) (second : m.lookup k' = some w) (differ : v ≠ w) :
    k ≠ k' := by
  rintro rfl
  exact differ (Option.some.inj (first.symm.trans second))

theorem lookup_insert_ite : (m.insert k v).lookup k' = if k' = k then some v else m.lookup k' := by
  split
  next same =>
    subst same
    exact AList.lookup_insert m
  next differ => exact AList.lookup_insert_ne differ

theorem lookup_erase_ite : (m.erase k).lookup k' = if k' = k then none else m.lookup k' := by
  split
  next same =>
    subst same
    exact AList.lookup_erase _ m
  next differ => exact AList.lookup_erase_ne differ

theorem lookup_insert_eq_some : (m.insert k v).lookup k' = some w ↔
    k' = k ∧ v = w ∨ k' ≠ k ∧ m.lookup k' = some w := by
  rw [lookup_insert_ite]
  split <;> simp_all

theorem lookup_erase_eq_some : (m.erase k).lookup k' = some w ↔ k' ≠ k ∧ m.lookup k' = some w := by
  rw [lookup_erase_ite]
  split <;> simp_all

/-- The map has the keys of what is live, at its places. -/
def Indexes {α : Type} (m : AList fun _ : K => V) (live : V → α → Prop) (key : α → K) : Prop :=
  ∀ k v, m.lookup k = some v ↔ ∃ a, live v a ∧ key a = k

namespace Indexes
variable {α : Type} {live live' : V → α → Prop} {key : α → K} {a : α}

theorem empty (none : ∀ v a, ¬ live v a) : Indexes ∅ live key := by
  intro k v
  simp [none]

theorem insert (index : Indexes m live key) (free : m.lookup (key a) = none)
    (now : ∀ w b, live' w b ↔ live w b ∨ w = v ∧ b = a) : Indexes (m.insert (key a) v) live' key := by
  intro k w
  rw [lookup_insert_eq_some, index k w]
  constructor
  · rintro (⟨rfl, rfl⟩ | ⟨-, b, old, rfl⟩)
    · exact ⟨a, (now v a).2 (.inr ⟨rfl, rfl⟩), rfl⟩
    · exact ⟨b, (now w b).2 (.inl old), rfl⟩
  · rintro ⟨b, here, rfl⟩
    obtain old | ⟨rfl, rfl⟩ := (now w b).1 here
    · exact .inr ⟨ne_of_none ((index _ w).2 ⟨b, old, rfl⟩) free, b, old, rfl⟩
    · exact .inl ⟨rfl, rfl⟩

theorem erase (index : Indexes m live key) (held : live v a) (only : ∀ b, live v b → b = a)
    (now : ∀ w b, live' w b ↔ live w b ∧ w ≠ v) : Indexes (m.erase (key a)) live' key := by
  intro k w
  rw [lookup_erase_eq_some, index k w]
  constructor
  · rintro ⟨other, b, old, rfl⟩
    refine ⟨b, (now w b).2 ⟨old, ?_⟩, rfl⟩
    rintro rfl
    exact other (by rw [only b old])
  · rintro ⟨b, here, rfl⟩
    obtain ⟨old, differ⟩ := (now w b).1 here
    exact ⟨ne_of_some ((index _ w).2 ⟨b, old, rfl⟩) ((index _ v).2 ⟨a, held, rfl⟩) differ, b, old, rfl⟩

end Indexes

end ScaleTail.Lib
