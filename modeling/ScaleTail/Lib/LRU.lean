import Mathlib

/-! # Least recently used -/

namespace ScaleTail.Lib.LRU
open List

variable {α : Type} [DecidableEq α]

def recent : List α → List α
  | [] => []
  | k :: ks => k :: (recent ks).filter (· ≠ k)

variable {k : α} {ks l : List α} {n capacity : Nat}

@[simp] theorem mem_recent : k ∈ recent ks ↔ k ∈ ks := by
  induction ks with
  | nil => rfl
  | cons a _ ih =>
    rw [recent, mem_cons, mem_filter, ih, mem_cons, decide_eq_true_eq]
    by_cases same : k = a <;> simp [same]

theorem nodup_recent (ks : List α) : (recent ks).Nodup := by
  induction ks with
  | nil => exact nodup_nil
  | cons _ _ ih =>
    rw [recent, nodup_cons]
    exact ⟨by simp, ih.filter _⟩

theorem filter_ne_recent (k : α) (ks : List α) :
    (recent ks).filter (· ≠ k) = (recent ks).erase k := by
  rw [(nodup_recent ks).erase_eq_filter]
  refine filter_congr fun x _ => ?_
  by_cases same : x = k <;> simp [same]

theorem length_recent (ks : List α) : (recent ks).length = ks.toFinset.card := by
  rw [← toFinset_card_of_nodup (nodup_recent ks)]
  congr 1
  ext k
  simp

theorem takeWhile_filter_ne {a : α} (differ : a ≠ k) (l : List α) :
    (l.filter (· ≠ a)).takeWhile (· ≠ k) = (l.takeWhile (· ≠ k)).filter (· ≠ a) := by
  induction l with
  | nil => rfl
  | cons x _ ih =>
    by_cases hk : x = k
    · subst hk
      simp [differ.symm]
    · by_cases ha : x = a
      · subst ha
        simpa [hk] using ih
      · simpa [hk, ha] using ih

theorem takeWhile_recent (k : α) (ks : List α) :
    (recent ks).takeWhile (· ≠ k) = recent (ks.takeWhile (· ≠ k)) := by
  induction ks with
  | nil => rfl
  | cons a ks ih =>
    by_cases same : a = k
    · simp [recent, same]
    have step := takeWhile_filter_ne same (recent ks)
    rw [ih] at step
    simp only [recent, takeWhile_cons, same, ne_eq, not_false_eq_true, decide_true,
      if_true, List.cons.injEq, true_and]
    simpa using step

theorem mem_take_iff : k ∈ l.take n ↔ k ∈ l ∧ (l.takeWhile (· ≠ k)).length < n := by
  induction l generalizing n with
  | nil => simp
  | cons a _ ih =>
    cases n with
    | zero => simp
    | succ =>
      by_cases same : a = k
      · simp [same]
      · simp [same, Ne.symm same, ih]

theorem mem_take_recent :
    k ∈ (recent ks).take n ↔ k ∈ ks ∧ (ks.takeWhile (· ≠ k)).toFinset.card < n := by
  rw [mem_take_iff, mem_recent, takeWhile_recent, length_recent]

def touch (k : α) (l : List α) : List α := k :: l.erase k

def add (capacity : Nat) (k : α) (l : List α) : List α :=
  if k ∈ l then touch k l
  else if capacity < (k :: l).length then (k :: l).dropLast else k :: l

theorem take_erase_of_mem (mem : k ∈ l.take (n + 1)) :
    (l.take (n + 1)).erase k = (l.erase k).take n := by
  induction l generalizing n with
  | nil => simp at mem
  | cons a _ ih =>
    by_cases same : a = k
    · simp [same]
    cases n with
    | zero =>
      rw [take_succ_cons, take_zero, mem_singleton] at mem
      exact absurd mem.symm same
    | succ =>
      rw [take_succ_cons, mem_cons] at mem
      have later := ih (mem.resolve_left (Ne.symm same))
      simp [same, later]

theorem take_erase_of_notMem (absent : k ∉ l.take (n + 1)) :
    (l.take (n + 1)).take n = (l.erase k).take n := by
  induction l generalizing n with
  | nil => simp
  | cons a _ ih =>
    rw [take_succ_cons, mem_cons, not_or] at absent
    have differ : a ≠ k := Ne.symm absent.1
    cases n with
    | zero => simp
    | succ =>
      have later := ih absent.2
      simp [differ, take_take] at later ⊢
      exact later

theorem touch_recent (found : k ∈ (recent ks).take capacity) :
    touch k ((recent ks).take capacity) = (recent (k :: ks)).take capacity := by
  cases capacity with
  | zero => simp at found
  | succ =>
    rw [touch, recent, take_succ_cons, take_erase_of_mem found, filter_ne_recent]

theorem add_recent (pos : 0 < capacity) (k : α) (ks : List α) :
    add capacity k ((recent ks).take capacity) = (recent (k :: ks)).take capacity := by
  unfold add
  split
  next found => exact touch_recent found
  next absent =>
    obtain ⟨n, rfl⟩ := Nat.exists_eq_add_one.2 pos
    have shorter := take_erase_of_notMem absent
    rw [recent, take_succ_cons, filter_ne_recent, ← shorter]
    split
    next full =>
      have length : ((recent ks).take (n + 1)).length = n + 1 := by
        rw [length_cons, length_take] at full
        rw [length_take]
        omega
      rw [dropLast_eq_take, length_cons, length, Nat.add_sub_cancel,
        take_succ_cons]
    next small =>
      congr 1
      refine (take_of_length_le ?_).symm
      rw [length_cons] at small
      omega

end ScaleTail.Lib.LRU
