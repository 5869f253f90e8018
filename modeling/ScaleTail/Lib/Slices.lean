import Mathlib

/-! # Slices of a buffer -/

namespace ScaleTail.Lib
open List

variable {α : Type} {xs ys : List α} {a b c off : Nat}

def slice (xs : List α) (a b : Nat) : List α := (xs.drop a).take (b - a)

def overwrite : List α → Nat → List α → List α
  | [], _, _ => []
  | xs, 0, [] => xs
  | _ :: xs, 0, y :: ys => y :: overwrite xs 0 ys
  | x :: xs, off + 1, ys => x :: overwrite xs off ys

@[simp] theorem length_overwrite (xs : List α) (off : Nat) (ys : List α) :
    (overwrite xs off ys).length = xs.length := by
  fun_induction overwrite xs off ys <;> simp_all

theorem overwrite_eq (fits : off + ys.length ≤ xs.length) :
    overwrite xs off ys = xs.take off ++ (ys ++ xs.drop (off + ys.length)) := by
  fun_induction overwrite xs off ys with
  | case1 => simp_all
  | case2 => simp
  | case3 _ _ _ _ ih =>
    have rest := ih (by simpa using fits)
    simp [rest]
  | case4 _ _ _ _ ih =>
    have rest := ih (by simp only [length_cons] at fits; omega)
    simp [rest, Nat.add_right_comm]

theorem length_slice (inside : b ≤ xs.length) : (slice xs a b).length = b - a := by
  rw [slice, length_take, length_drop]
  omega

@[simp] theorem slice_self (xs : List α) (a : Nat) : slice xs a a = [] := by simp [slice]

theorem slice_append (first : a ≤ b) (second : b ≤ c) :
    slice xs a b ++ slice xs b c = slice xs a c := by
  obtain ⟨m, rfl⟩ := Nat.exists_eq_add_of_le first
  obtain ⟨n, rfl⟩ := Nat.exists_eq_add_of_le second
  have all : a + m + n - a = m + n := by omega
  rw [slice, slice, slice, all, Nat.add_sub_cancel_left, Nat.add_sub_cancel_left, take_add,
    drop_drop]

theorem take_slice {n : Nat} (inside : a + n ≤ b) : (slice xs a b).take n = slice xs a (a + n) := by
  rw [slice, slice, take_take, Nat.add_sub_cancel_left]
  congr 1
  omega

theorem drop_slice {n : Nat} : (slice xs a b).drop n = slice xs (a + n) b := by
  rw [slice, slice, drop_take, drop_drop]
  congr 1
  omega

section Overwrite
variable (fits : off + ys.length ≤ xs.length)
include fits

theorem slice_overwrite_self : slice (overwrite xs off ys) off (off + ys.length) = ys := by
  have before : (xs.take off).length = off := by
    rw [length_take]
    omega
  rw [overwrite_eq fits, slice, drop_left' before, Nat.add_sub_cancel_left, take_left']
  rfl

theorem slice_overwrite_before (before : b ≤ off) : slice (overwrite xs off ys) a b = slice xs a b := by
  rw [overwrite_eq fits, slice, slice, drop_append, take_append_of_le_length]
  · rw [drop_take, take_take]
    congr 1
    omega
  · rw [length_drop, length_take]
    omega

theorem slice_overwrite_after (after : off + ys.length ≤ a) :
    slice (overwrite xs off ys) a b = slice xs a b := by
  rw [slice, slice]
  congr 1
  rw [overwrite_eq fits, ← append_assoc, drop_append]
  have length : (xs.take off ++ ys).length = off + ys.length := by
    rw [length_append, length_take]
    omega
  rw [drop_eq_nil_of_le (by rw [length]; exact after), length, drop_drop, nil_append]
  congr 1
  omega

end Overwrite

end ScaleTail.Lib
