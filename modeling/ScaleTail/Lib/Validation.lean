import Mathlib.Logic.Basic

/-! # Computations that may fail -/

namespace ScaleTail.Lib

variable {ε α β : Type}

variable {x : Except ε α}

theorem bind_eq_ok {f : α → Except ε β} {b : β} :
    (x >>= f) = .ok b ↔ ∃ a, x = .ok a ∧ f a = .ok b := by
  cases x <;> simp [bind, Except.bind]

@[simp]
theorem ok_bind (a : α) (f : α → Except ε β) : ((.ok a : Except ε α) >>= f) = f a := rfl

theorem error_bind (e : ε) (f : α → Except ε β) : ((.error e : Except ε α) >>= f) = .error e := rfl

theorem ite_error_eq_ok {c : Prop} [Decidable c] {e : ε} {a : α} :
    (if c then .error e else x) = .ok a ↔ ¬ c ∧ x = .ok a := by
  by_cases h : c <;> simp [h]

@[simp]
theorem mapError_eq_ok {ε' : Type} {f : ε → ε'} {a : α} : x.mapError f = .ok a ↔ x = .ok a := by
  cases x with
  | error => exact iff_of_false nofun nofun
  | ok b =>
    change Except.ok b = Except.ok a ↔ _
    rw [Except.ok.injEq, Except.ok.injEq]

theorem seq_eq_ok {x : Except ε PUnit} {y : PUnit → Except ε β} {b : β} :
    (x >>= y) = .ok b ↔ x = .ok () ∧ y () = .ok b := by
  rw [bind_eq_ok]
  exact ⟨fun ⟨_, first, rest⟩ => ⟨first, rest⟩, fun ⟨first, rest⟩ => ⟨(), first, rest⟩⟩

theorem forM_eq_ok {check : α → Except ε PUnit} {l : List α} :
    l.forM check = .ok () ↔ ∀ x ∈ l, check x = .ok () := by
  induction l with
  | nil => simp [pure, Except.pure]
  | cons x l ih =>
    change (check x >>= fun _ => l.forM check) = .ok () ↔ _
    rw [seq_eq_ok, List.forall_mem_cons, ← ih]

end ScaleTail.Lib
