import Mathlib

/-!
# Recency

Lists whose last entries agree under every filter, a value with the last word on it, and the groups of
a list under a key.
-/

namespace ScaleTail.Lib
open List

variable {α κ : Type}

def SameLast (l l' : List α) : Prop := ∀ p : α → Bool, (l.filter p).getLast? = (l'.filter p).getLast?

namespace SameLast

variable {l l' l'' : List α} {a : α}

theorem refl (l : List α) : SameLast l l := fun _ => rfl

theorem symm (same : SameLast l l') : SameLast l' l := fun p => (same p).symm

theorem trans (first : SameLast l l') (second : SameLast l' l'') : SameLast l l'' :=
  fun p => (first p).trans (second p)

theorem concat (same : SameLast l l') (a : α) : SameLast (l ++ [a]) (l' ++ [a]) := by
  intro p
  cases kept : p a with
  | false => simpa [kept] using same p
  | true => simp [kept]

theorem filter (same : SameLast l l') (q : α → Bool) : SameLast (l.filter q) (l'.filter q) := by
  intro p
  rw [List.filter_filter, List.filter_filter]
  exact same _

theorem concat_self (last : l.getLast? = some a) : SameLast (l ++ [a]) l := by
  obtain ⟨before, rfl⟩ := getLast?_eq_some_iff.1 last
  intro p
  cases kept : p a with
  | false | true => simp [kept]

theorem getLast? (same : SameLast l l') : l.getLast? = l'.getLast? := by
  have all := same fun _ => true
  rwa [filter_true, filter_true] at all

end SameLast

theorem getLast?_filter_of_imp {l : List α} {p q : α → Bool} {a : α}
    (last : (l.filter p).getLast? = some a) (kept : q a = true) (imp : ∀ b, q b = true → p b = true) :
    (l.filter q).getLast? = some a := by
  have both : l.filter q = (l.filter p).filter q := by
    rw [List.filter_filter]
    apply filter_congr
    intro b _
    cases hb : q b with
    | false => rfl
    | true => rw [imp b hb]; rfl
  obtain ⟨before, split⟩ := getLast?_eq_some_iff.1 last
  rw [both, split, filter_append]
  simp [kept]

theorem pair_sublist_append {l l' : List α} {a b : α} : [a, b].Sublist (l ++ l') ↔
    [a, b].Sublist l ∨ (a ∈ l ∧ b ∈ l') ∨ [a, b].Sublist l' := by
  rw [sublist_append_iff]
  constructor
  · rintro ⟨first, second, split, before, after⟩
    match first with
    | [] =>
      cases split
      exact .inr (.inr after)
    | [_] =>
      cases split
      exact .inr (.inl ⟨singleton_sublist.1 before, singleton_sublist.1 after⟩)
    | [_, _] =>
      cases split
      exact .inl before
  · rintro (here | ⟨mem, mem'⟩ | later)
    · exact ⟨_, [], rfl, here, nil_sublist _⟩
    · exact ⟨[a], [b], rfl, singleton_sublist.2 mem, singleton_sublist.2 mem'⟩
    · exact ⟨[], _, rfl, nil_sublist _, later⟩

section Settle
variable {β : Type} {word : α → Option β} {l l' : List α} {v : β}

def settle (word : α → Option β) (v : β) (l : List α) : β := l.foldl (fun v a => (word a).getD v) v

theorem settle_append : settle word v (l ++ l') = settle word (settle word v l) l' := foldl_append

theorem settle_self {b : β} (reached : settle word v l = b) : settle word b l = b := by
  induction l using List.reverseRecOn generalizing b with
  | nil => rfl
  | append_singleton _ a ih =>
    rw [settle_append] at reached ⊢
    dsimp only [settle, List.foldl] at reached ⊢
    cases said : word a with
    | none =>
      rw [said, Option.getD_none] at reached
      exact ih reached
    | some =>
      rw [said, Option.getD_some] at reached
      exact reached

theorem settle_silent (silent : ∀ a ∈ l, word a = none) : settle word v l = v := by
  induction l with
  | nil => rfl
  | cons a _ ih =>
    rw [settle, foldl_cons, silent a mem_cons_self, Option.getD_none]
    exact ih fun a mem => silent a (mem_cons_of_mem _ mem)

theorem settle_agree {b : β} (agree : ∀ a ∈ l, word a = none ∨ word a = some b)
    (said : ∃ a ∈ l, word a = some b) : settle word v l = b := by
  obtain ⟨a, mem, said⟩ := said
  obtain ⟨before, after, rfl⟩ := append_of_mem mem
  rw [settle_append, settle, foldl_cons, said, Option.getD_some, ← settle]
  have rest : ∀ a ∈ after, word a = none ∨ word a = some b := fun a mem =>
    agree a (mem_append_right _ (mem_cons_of_mem _ mem))
  clear agree mem
  induction after with
  | nil => rfl
  | cons a' _ ih =>
    rw [settle, foldl_cons, ← settle]
    rcases rest a' mem_cons_self with silent | same
    · rw [silent]
      exact ih fun a mem => rest a (mem_cons_of_mem _ mem)
    · rw [same]
      exact ih fun a mem => rest a (mem_cons_of_mem _ mem)

end Settle

section Groups
variable [DecidableEq κ] (key : α → κ)

def group (l : List α) (k : κ) : List α := l.filter fun a => decide (key a = k)

def sharers (l : List α) : Nat := l.countP fun a => decide (2 ≤ (group key l (key a)).length)

def sharedKeys (l : List α) : Finset κ :=
  (l.map key).toFinset.filter fun k => 2 ≤ (group key l k).length

variable {key} {l : List α} {a : α} {k : κ}

theorem group_concat_self : group key (l ++ [a]) (key a) = group key l (key a) ++ [a] := by
  simp [group]

theorem group_concat_ne (other : key a ≠ k) : group key (l ++ [a]) k = group key l k := by
  simp [group, other]

theorem length_group_concat :
    (group key (l ++ [a]) k).length = (group key l k).length + if key a = k then 1 else 0 := by
  by_cases same : key a = k <;> simp [group, same]

theorem mem_group : a ∈ group key l k ↔ a ∈ l ∧ key a = k := by simp [group]

theorem mem_sharedKeys : k ∈ sharedKeys key l ↔ 2 ≤ (group key l k).length := by
  rw [sharedKeys, Finset.mem_filter, and_iff_right_iff_imp, List.mem_toFinset, List.mem_map]
  intro shared
  obtain ⟨b, mem⟩ := exists_mem_of_length_pos (Nat.zero_lt_of_lt shared)
  exact ⟨b, mem_group.1 mem⟩

theorem countP_or {p q : α → Bool} (apart : ∀ a, p a = true → q a = false) :
    (l.countP fun a => p a || q a) = l.countP p + l.countP q := by
  induction l with
  | nil => rfl
  | cons a _ ih =>
    simp only [countP_cons, ih]
    cases hp : p a with
    | true => simp [apart a hp, Nat.add_right_comm]
    | false => simp [Nat.add_assoc]

def joining : Nat → Nat
  | 0 => 0
  | 1 => 2
  | _ => 1

theorem sharers_concat (a : α) :
    sharers key (l ++ [a]) = sharers key l + joining (group key l (key a)).length := by
  -- an entry with the key of `a` comes to share it if it was the only one
  have grown : (l.countP fun b => decide (2 ≤ (group key (l ++ [a]) (key b)).length)) =
      l.countP fun b => decide (2 ≤ (group key l (key b)).length) ||
        decide (key b = key a ∧ (group key l (key a)).length = 1) := by
    refine countP_congr fun b _ => ?_
    rw [length_group_concat]
    by_cases same : key a = key b
    · simp [same]
      omega
    · simp [same, Ne.symm same]
  have joined : (l.countP fun b => decide (key b = key a ∧ (group key l (key a)).length = 1)) =
      if (group key l (key a)).length = 1 then 1 else 0 := by
    split
    next one =>
      rw [← one, group, ← countP_eq_length_filter]
      simp
    next other => simp [other]
  rw [sharers, countP_append, grown, countP_or, joined, countP_singleton, length_group_concat, sharers]
  · match (group key l (key a)).length with
    | 0 | 1 | n + 2 => simp [joining]
  · intro b shared
    simp only [decide_eq_true_eq, decide_eq_false_iff_not, not_and] at shared ⊢
    rintro same one
    rw [same, one] at shared
    omega

theorem sharedKeys_concat (a : α) : (sharedKeys key (l ++ [a])).card =
    (sharedKeys key l).card + if (group key l (key a)).length = 1 then 1 else 0 := by
  have grown : sharedKeys key (l ++ [a]) =
      if (group key l (key a)).length = 1 then insert (key a) (sharedKeys key l) else sharedKeys key l := by
    ext k
    rw [mem_sharedKeys, length_group_concat]
    by_cases same : key a = k
    · subst same
      rw [if_pos rfl]
      split <;> simp [mem_sharedKeys] <;> omega
    · rw [if_neg same]
      split <;> simp [mem_sharedKeys, Ne.symm same]
  rw [grown]
  split
  next one => rw [Finset.card_insert_of_notMem (by simp [mem_sharedKeys, one])]
  · rfl

section Perm
variable {l' : List α}

theorem group_perm (perm : l.Perm l') (k : κ) : (group key l k).Perm (group key l' k) := perm.filter _

theorem sharers_perm (perm : l.Perm l') : sharers key l = sharers key l' := by
  rw [sharers, sharers, perm.countP_eq]
  simp only [(group_perm perm _).length_eq]

theorem sharedKeys_perm (perm : l.Perm l') : sharedKeys key l = sharedKeys key l' := by
  rw [sharedKeys, sharedKeys, toFinset_eq_of_perm _ _ (perm.map key)]
  simp only [(group_perm perm _).length_eq]

end Perm

section Erase
variable [DecidableEq α]

theorem group_erase_self : group key (l.erase a) (key a) = (group key l (key a)).erase a := by
  rw [group, group, erase_filter]

theorem group_erase_ne (other : key a ≠ k) : group key (l.erase a) k = group key l k := by
  rw [group, group, ← erase_filter]
  apply erase_of_not_mem
  simp [other]

theorem concat_erase (mem : a ∈ l) : (l.erase a ++ [a]).Perm l :=
  (perm_append_singleton a _).trans (perm_cons_erase mem).symm

theorem sharers_erase (mem : a ∈ l) :
    sharers key l = sharers key (l.erase a) + joining (group key (l.erase a) (key a)).length := by
  rw [← sharers_concat, sharers_perm (concat_erase mem)]

theorem sharedKeys_erase (mem : a ∈ l) : (sharedKeys key l).card =
    (sharedKeys key (l.erase a)).card +
      if (group key (l.erase a) (key a)).length = 1 then 1 else 0 := by
  rw [← sharedKeys_concat, sharedKeys_perm (concat_erase mem)]

end Erase

end Groups

end ScaleTail.Lib
