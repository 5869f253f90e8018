import Mathlib

/-!
# The sliding queue of the event bus

A slice with a cursor: values are dropped by moving the cursor, and moved back to the start of the
array when there is no room behind them.
-/

namespace ScaleTail.Eventbus

structure Growth where
  next : Nat → Nat
  lt : ∀ n, n < next n

/-- `cap` is the capacity of the slice, `capacity` the configured one (zero means unbounded). -/
structure Queue (E : Type) where
  vals : List E
  start : Nat
  cap : Nat
  capacity : Nat
  inside : start ≤ vals.length
  fits : vals.length ≤ cap
  reset : start = vals.length → start = 0

namespace Queue
variable {E : Type} (g : Growth) (q : Queue E) (v : E)

def new (capacity : Nat) : Queue E where
  vals := []
  start := 0
  cap := 0
  capacity := capacity
  inside := Nat.le_refl 0
  fits := Nat.le_refl 0
  reset := fun _ => rfl

def canAppend : Bool :=
  q.capacity == 0 || decide (q.cap < q.capacity) || decide (q.vals.length < q.cap)

def full : Bool :=
  q.start == 0 && !q.canAppend

def empty : Bool :=
  q.start == q.vals.length

def slide : Queue E where
  vals := q.vals.drop q.start
  start := 0
  cap := q.cap
  capacity := q.capacity
  inside := Nat.zero_le _
  fits := by
    rw [List.length_drop]
    exact (Nat.sub_le _ _).trans q.fits
  reset := fun _ => rfl

def append : Queue E where
  vals := q.vals ++ [v]
  start := q.start
  cap := if q.vals.length < q.cap then q.cap else g.next q.vals.length
  capacity := q.capacity
  inside := by
    rw [List.length_append]
    exact q.inside.trans (Nat.le_add_right _ _)
  fits := by
    rw [List.length_append]
    show q.vals.length + 1 ≤ _
    split
    next room => exact room
    next => exact g.lt _
  reset := by
    intro same
    rw [List.length_append] at same
    exact absurd (same ▸ q.inside) (Nat.not_succ_le_self _)

def add : Option (Queue E) :=
  if q.canAppend then some (q.append g v)
  else if q.start = 0 then none
  else some (q.slide.append g v)

def peek : Option E :=
  if q.empty then none else q.vals[q.start]?

def drop : Queue E :=
  if empty : q.start = q.vals.length then q
  else if last : q.start + 1 = q.vals.length then
    { vals := [], start := 0, cap := q.cap, capacity := q.capacity,
      inside := Nat.le_refl 0, fits := Nat.zero_le _, reset := fun _ => rfl }
  else
    { q with
      start := q.start + 1
      inside := Nat.lt_of_le_of_ne q.inside empty
      reset := fun same => absurd same last }

def list : List E :=
  q.vals.drop q.start

@[simp] theorem list_new (capacity : Nat) : (new capacity : Queue E).list = [] := rfl

variable {g q v}

theorem empty_iff : q.empty = true ↔ q.list = [] := by
  have inside := q.inside
  simp only [empty, list, beq_iff_eq, List.drop_eq_nil_iff]
  exact ⟨fun same => same ▸ Nat.le_refl _, fun le => Nat.le_antisymm inside le⟩

@[simp] theorem empty_eq : q.empty = q.list.isEmpty := by
  rw [Bool.eq_iff_iff, empty_iff, List.isEmpty_iff]

@[simp] theorem peek_eq : q.peek = q.list.head? := by
  unfold peek
  split
  next none => simp [empty_iff.1 none]
  next => simp [list, List.head?_drop]

theorem peek_eq_some : q.peek = some v ↔ ∃ rest, q.list = v :: rest := by
  rw [peek_eq, List.head?_eq_some_iff]

@[simp] theorem list_drop : q.drop.list = q.list.tail := by
  have inside := q.inside
  unfold drop
  split
  next none => simp [list, none]
  next =>
    split
    next last => simp [list, last]
    next => simp [list]

@[simp] theorem capacity_drop : q.drop.capacity = q.capacity := by
  unfold drop
  split
  next => rfl
  next => split <;> rfl

@[simp] theorem list_slide : q.slide.list = q.list := by
  simp [list, slide]

@[simp] theorem list_append : (q.append g v).list = q.list ++ [v] := by
  simp [list, append, List.drop_append_of_le_length q.inside]

theorem add_eq_some {q' : Queue E} (added : q.add g v = some q') :
    q'.list = q.list ++ [v] ∧ q'.capacity = q.capacity := by
  unfold add at added
  split at added
  · cases added
    exact ⟨list_append, rfl⟩
  · split at added
    · cases added
    · cases added
      exact ⟨by simp, rfl⟩

theorem exists_add (room : q.full = false) : ∃ q', q.add g v = some q' := by
  unfold add
  split
  next => exact ⟨_, rfl⟩
  next no =>
    have : q.start ≠ 0 := by
      intro zero
      simp [full, zero, no] at room
    rw [if_neg this]
    exact ⟨_, rfl⟩

theorem not_full_of_list_nil (drained : q.list = []) : q.full = false := by
  have zero : q.vals = [] := by
    have same : q.start = q.vals.length := by simpa [empty] using empty_iff.2 drained
    have none := q.reset same
    exact List.length_eq_zero_iff.1 (same ▸ none)
  have : q.canAppend = true := by
    simp only [canAppend, zero, Bool.or_eq_true, beq_iff_eq, decide_eq_true_eq, List.length_nil]
    omega
  simp [full, this]

end Queue
end ScaleTail.Eventbus
