import Mathlib

/-!
# Runs

A property of every step of a run, where the steps are given by a function, runs whose steps may be
disabled, and records of what happened in a run.
-/

namespace ScaleTail.Lib
open List

variable {σ ο : Type} (step : σ → ο → σ) (P Q : σ → ο → Prop)

def Along : σ → List ο → Prop
  | _, [] => True
  | s, op :: ops => P s op ∧ Along (step s op) ops

variable {step P Q}

theorem along_iff {I : σ → Prop} (same : ∀ s op, I s → (P s op ↔ Q s op))
    (keeps : ∀ s op, I s → Q s op → I (step s op)) {s : σ} (start : I s) (ops : List ο) :
    Along step P s ops ↔ Along step Q s ops := by
  induction ops generalizing s with
  | nil => exact Iff.rfl
  | cons op _ ih =>
    rw [Along, Along, same s op start]
    constructor
    · rintro ⟨now, later⟩
      exact ⟨now, (ih (keeps s op start now)).1 later⟩
    · rintro ⟨now, later⟩
      exact ⟨now, (ih (keeps s op start now)).2 later⟩

section Record
variable {α : Type} {P Q : List α → α → Prop} {l : List α}

def Each (P : List α → α → Prop) (l : List α) : Prop :=
  ∀ before a after, l = before ++ a :: after → P before a

theorem each_nil : Each P [] := by
  intro before a after same
  simp at same

theorem each_concat {a : α} : Each P (l ++ [a]) ↔ Each P l ∧ P l a := by
  constructor
  · intro all
    refine ⟨fun before b after same => all before b (after ++ [a]) ?_, all l a [] rfl⟩
    rw [same, append_assoc, cons_append]
  · rintro ⟨all, last⟩ before b after same
    induction after using List.reverseRecOn with
    | nil =>
      obtain ⟨rfl, one⟩ := append_inj' same rfl
      cases singleton_inj.1 one
      exact last
    | append_singleton after =>
      rw [← cons_append, ← append_assoc] at same
      exact all before b after (append_inj' same rfl).1

theorem Each.imp (all : Each P l) (imp : ∀ before a, P before a → Q before a) : Each Q l :=
  fun before a after same => imp before a (all before a after same)

end Record

section Partial
variable (step : σ → ο → Option σ)

inductive Run (s : σ) : List ο → σ → Prop
  | refl : Run s [] s
  | snoc {ops : List ο} {t u : σ} {op : ο} : Run s ops t → step t op = some u → Run s (ops ++ [op]) u

def Throughout (P : σ → ο → Prop) (s : σ) (ops : List ο) : Prop :=
  ∀ before op after, ops = before ++ op :: after → ∀ t, Run step s before t → P t op

variable {step} {s t u : σ} {ops more : List ο} {op : ο} {check : σ → ο → Bool}

theorem Run.unique (run : Run step s ops t) (other : Run step s ops u) : t = u := by
  induction run generalizing u with
  | refl =>
    generalize same : ([] : List ο) = ops at other
    cases other with
    | refl => rfl
    | snoc => simp at same
  | @snoc ops _ _ op _ taken ih =>
    generalize same : ops ++ [op] = all at other
    cases other with
    | refl => simp at same
    | snoc other taken' =>
      obtain ⟨rfl, last⟩ := append_inj' same rfl
      cases singleton_inj.1 last
      cases ih other
      exact Option.some.inj (taken.symm.trans taken')

theorem Run.trans (run : Run step s ops t) (rest : Run step t more u) : Run step s (ops ++ more) u := by
  induction rest with
  | refl => rwa [append_nil]
  | snoc _ taken ih =>
    rw [← append_assoc]
    exact .snoc ih taken

theorem run_snoc : Run step s (ops ++ [op]) u ↔ ∃ t, Run step s ops t ∧ step t op = some u := by
  constructor
  · intro run
    generalize same : ops ++ [op] = all at run
    cases run with
    | refl => simp at same
    | snoc run taken =>
      obtain ⟨rfl, one⟩ := append_inj' same rfl
      cases singleton_inj.1 one
      exact ⟨_, run, taken⟩
  · rintro ⟨t, run, taken⟩
    exact run.snoc taken

theorem Run.split (run : Run step s (ops ++ more) u) : ∃ t, Run step s ops t ∧ Run step t more u := by
  induction more using List.reverseRecOn generalizing u with
  | nil =>
    rw [append_nil] at run
    exact ⟨u, run, .refl⟩
  | append_singleton _ _ ih =>
    rw [← append_assoc] at run
    obtain ⟨v, run, taken⟩ := run_snoc.1 run
    obtain ⟨t, first, rest⟩ := ih run
    exact ⟨t, first, rest.snoc taken⟩

theorem Run.rest (run : Run step s (ops ++ more) u) (first : Run step s ops t) : Run step t more u := by
  obtain ⟨t', first', rest⟩ := run.split
  cases first.unique first'
  exact rest

theorem run_of_foldlM (taken : ops.foldlM step s = some t) : Run step s ops t := by
  induction ops generalizing s with
  | nil =>
    cases taken
    exact .refl
  | cons _ _ ih =>
    obtain ⟨u, first, rest⟩ := Option.bind_eq_some_iff.1 taken
    exact (Run.snoc .refl first).trans (ih rest)

theorem throughout_nil : Throughout step P s [] := each_nil

theorem throughout_snoc (run : Run step s ops t) :
    Throughout step P s (ops ++ [op]) ↔ Throughout step P s ops ∧ P t op :=
  each_concat.trans (and_congr_right fun _ =>
    ⟨fun last => last t run, fun last _ other => run.unique other ▸ last⟩)

theorem throughout_of_foldlM (sound : ∀ t op, check t op = true → P t op)
    (taken : ops.foldlM (fun s op => if check s op then step s op else none) s = some t) :
    Run step s ops t ∧ Throughout step P s ops := by
  have run := run_of_foldlM taken
  induction run with
  | refl => exact ⟨.refl, throughout_nil⟩
  | snoc before last ih =>
    rw [foldlM_append] at taken
    obtain ⟨u, first, -⟩ := Option.bind_eq_some_iff.1 taken
    cases (run_of_foldlM first).unique before
    obtain ⟨run, all⟩ := ih first
    split at last
    next checked => exact ⟨run.snoc last, (throughout_snoc run).2 ⟨all, sound _ _ checked⟩⟩
    · cases last

theorem run_of_found {R : σ → Prop} (found : ∃ t ∈ ops.foldlM step s, R t) : ∃ t, Run step s ops t ∧ R t :=
  found.imp fun _ => And.imp_left run_of_foldlM

theorem throughout_of_found {R : σ → Prop} (sound : ∀ t op, check t op = true → P t op)
    (found : ∃ t ∈ ops.foldlM (fun s op => if check s op then step s op else none) s, R t) :
    ∃ t, Run step s ops t ∧ Throughout step P s ops ∧ R t := by
  obtain ⟨t, taken, holds⟩ := found
  obtain ⟨run, all⟩ := throughout_of_foldlM sound taken
  exact ⟨t, run, all, holds⟩

theorem throughout_append (run : Run step s ops t) (rest : Run step t more u) :
    Throughout step P s (ops ++ more) ↔ Throughout step P s ops ∧ Throughout step P t more := by
  induction rest with
  | refl =>
    rw [append_nil]
    exact ⟨fun all => ⟨all, throughout_nil⟩, And.left⟩
  | snoc rest _ ih =>
    rw [← append_assoc, throughout_snoc (run.trans rest), throughout_snoc rest, ih, and_assoc]

end Partial

end ScaleTail.Lib
