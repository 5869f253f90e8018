import Mathlib

/-! # Longest match -/

namespace ScaleTail.Lib.LongestMatch

variable {K A V : Type} (covers : K → A → Bool) (bits : K → Nat)

def find (x : A) : List (K × V) → Option (K × V)
  | [] => none
  | e :: rest =>
    match find x rest with
    | some f => if covers e.1 x && decide (bits f.1 < bits e.1) then some e else some f
    | none => if covers e.1 x then some e else none

variable {covers bits} {x : A} {l l' : List (K × V)} {e : K × V}

theorem find_eq_none : find covers bits x l = none ↔ ∀ e ∈ l, covers e.1 x = false := by
  induction l with
  | nil => simp [find]
  | cons e rest ih =>
    simp only [find]
    split
    next f found =>
      have some : ¬ ∀ e ∈ rest, covers e.1 x = false := by
        rw [← ih, found]
        simp
      constructor
      · intro none
        split at none <;> cases none
      · intro none
        exact absurd (fun e mem => none e (List.mem_cons_of_mem _ mem)) some
    next none =>
      have rest := ih.1 none
      rw [List.forall_mem_cons, and_iff_left rest]
      cases covers e.1 x <;> simp

theorem find_eq_some (found : find covers bits x l = some e) :
    e ∈ l ∧ covers e.1 x = true ∧ ∀ f ∈ l, covers f.1 x = true → bits f.1 ≤ bits e.1 := by
  induction l generalizing e with
  | nil => cases found
  | cons _ _ ih =>
    simp only [find] at found
    split at found
    next f later =>
      obtain ⟨mem, covered, longest⟩ := ih later
      split at found
      next longer =>
        cases found
        rw [Bool.and_eq_true, decide_eq_true_eq] at longer
        refine ⟨List.mem_cons_self, longer.1, fun g mem' covered' => ?_⟩
        obtain rfl | mem' := List.mem_cons.1 mem'
        · exact le_rfl
        · exact (longest g mem' covered').trans longer.2.le
      next not_longer =>
        cases found
        refine ⟨List.mem_cons_of_mem _ mem, covered, fun g mem' covered' => ?_⟩
        obtain rfl | mem' := List.mem_cons.1 mem'
        · simpa [covered'] using not_longer
        · exact longest g mem' covered'
    next none =>
      obtain ⟨covered, ⟨⟩⟩ := Option.ite_none_right_eq_some.1 found
      refine ⟨List.mem_cons_self, covered, fun g mem' covered' => ?_⟩
      obtain rfl | mem' := List.mem_cons.1 mem'
      · exact le_rfl
      · simp [find_eq_none.1 none g mem'] at covered'

def Agree (covers : K → A → Bool) (bits : K → Nat) (x : A) (l : List (K × V)) : Prop :=
  ∀ e ∈ l, ∀ f ∈ l, covers e.1 x = true → covers f.1 x = true → bits e.1 = bits f.1 → e.2 = f.2

theorem find_of_subset (agree : Agree covers bits x l) (sub : l' ⊆ l)
    (found : find covers bits x l = some e) (kept : e ∈ l') :
    ∃ k, find covers bits x l' = some (k, e.2) := by
  obtain ⟨mem, covered, longest⟩ := find_eq_some found
  cases other : find covers bits x l' with
  | none => simp [find_eq_none.1 other e kept] at covered
  | some f =>
    obtain ⟨mem', covered', longest'⟩ := find_eq_some other
    have same := le_antisymm (longest f (sub mem') covered') (longest' e kept covered)
    exact ⟨f.1, by rw [agree e mem f (sub mem') covered covered' same.symm]⟩

theorem find_map_snd {W : Type} (g : V → W) :
    find covers bits x (l.map fun e => (e.1, g e.2)) =
      (find covers bits x l).map fun e => (e.1, g e.2) := by
  induction l with
  | nil => rfl
  | cons _ rest ih =>
    simp only [List.map_cons, find, ih]
    cases find covers bits x rest with
    | none => simp only [Option.map_none]; split <;> rfl
    | some => simp only [Option.map_some]; split <;> rfl

end ScaleTail.Lib.LongestMatch
