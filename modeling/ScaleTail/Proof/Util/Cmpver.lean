import ScaleTail.Util.Cmpver

/-! # The order of version numbers -/

namespace ScaleTail.Util.Cmpver

open Go Lib List
attribute [local instance] lexOrd

/-- The fields of a version, at least one. -/
def fields (v : Bytes) : List (Bytes × Nat) :=
  (text v, Decimal.value (number v)) :: if _more : rest v ≠ [] then fields (rest v) else []
termination_by v.length
decreasing_by
  refine rest_length_lt ?_
  rintro rfl
  exact _more rfl

/-- Every number that a comparison of the fields reaches is a 64 bit number. -/
def Fits (l m : List (Bytes × Nat)) : Prop :=
  ∀ p x y l' m', l = p ++ x :: l' → m = p ++ y :: m' → x.1 = y.1 → x.2 < 2 ^ 64 ∧ y.2 < 2 ^ 64

variable {l m : List (Bytes × Nat)} {v w : Bytes}

theorem fits_nil : Fits [] m := by
  intro p x y l' m' same
  simp at same

theorem Fits.symm (fits : Fits l m) : Fits m l :=
  fun p x y l' m' left right same => (fits p y x m' l' right left same.symm).symm

theorem fits_cons {x y : Bytes × Nat} :
    Fits (x :: l) (y :: m) ↔ (x.1 = y.1 → x.2 < 2 ^ 64 ∧ y.2 < 2 ^ 64) ∧ (x = y → Fits l m) := by
  constructor
  · intro fits
    refine ⟨fits [] x y l m rfl rfl, ?_⟩
    rintro rfl p x' y' l' m' rfl rfl
    exact fits (x :: p) x' y' l' m' rfl rfl
  · rintro ⟨first, later⟩ p x' y' l' m' left right
    cases p with
    | nil =>
      cases left
      cases right
      exact first
    | cons _ p =>
      cases left
      cases right
      exact later rfl p x' y' l' m' rfl rfl

open Classical in
noncomputable def answer (l m : List (Bytes × Nat)) : Option Ordering :=
  if Fits l m then some (Ord.compare l m) else none

theorem answer_nil : answer [] m = some (Ord.compare [] m) := if_pos fits_nil

open Classical in
theorem answer_cons (x y : Bytes × Nat) : answer (x :: l) (y :: m) =
    if Ord.compare x.1 y.1 ≠ .eq then some (Ord.compare x.1 y.1)
    else if x.2 < 2 ^ 64 ∧ y.2 < 2 ^ 64 then
      if x.2 = y.2 then answer l m else some (Ord.compare x.2 y.2)
    else none := by
  have lex : Ord.compare (x :: l) (y :: m) =
      ((Ord.compare x.1 y.1).then (Ord.compare x.2 y.2)).then (Ord.compare l m) :=
    List.compare_cons_cons
  have text : x.1 = y.1 ↔ Ord.compare x.1 y.1 = .eq := Std.LawfulEqOrd.compare_eq_iff_eq.symm
  have number : x.2 = y.2 ↔ Ord.compare x.2 y.2 = .eq := Std.LawfulEqOrd.compare_eq_iff_eq.symm
  simp only [answer, lex, fits_cons, Prod.ext_iff, text, number]
  cases Ord.compare x.1 y.1 with
  | eq =>
    by_cases fit : x.2 < 2 ^ 64 ∧ y.2 < 2 ^ 64 <;> cases Ord.compare x.2 y.2 <;> simp only [fit] <;> simp
  | _ => simp

def later (v : Bytes) : List (Bytes × Nat) := if rest v ≠ [] then fields (rest v) else []

theorem fields_eq (v : Bytes) : fields v = (text v, Decimal.value (number v)) :: later v := by
  rw [fields, later, dite_eq_ite]

theorem fields_nil : fields [] = [([], 0)] := by
  rw [fields_eq]
  rfl

theorem text_ne_nil (more : rest v ≠ []) : text (rest v) ≠ [] := by
  have stops : isnum ((rest v).head more) = false := head_dropWhile_not isnum more
  generalize rest v = r at *
  cases r with
  | nil => exact absurd rfl more
  | cons => simp_all [text, splitPrefixFunc, notnum]

/-- A version that has ended is less than one with another field, as this field has a text. -/
theorem answer_later (v w : Bytes) :
    answer (later v) (later w) = answer (fields (rest v)) (fields (rest w)) := by
  unfold later
  split <;> split
  · rfl
  next more none =>
    obtain ⟨c, t, text⟩ := exists_cons_of_ne_nil (text_ne_nil more)
    rw [not_not.1 none, fields_nil, answer, if_pos fits_nil.symm, fields_eq, answer_cons, text]
    rfl
  next none more =>
    obtain ⟨c, t, text⟩ := exists_cons_of_ne_nil (text_ne_nil more)
    rw [not_not.1 none, fields_nil, answer_nil, fields_eq, answer_cons, text]
    rfl
  next none none' =>
    rw [not_not.1 none, not_not.1 none', fields_nil, answer_cons]
    rfl

theorem parseUint_eq_some {s : Bytes} {n : Nat} :
    parseUint s = some n ↔ Decimal.value s < 2 ^ 64 ∧ Decimal.value s = n := by
  rw [parseUint, Option.ite_none_right_eq_some, Option.some.injEq]

theorem compare_eq (v w : Bytes) : compare v w = answer (fields v) (fields w) := by
  fun_induction compare v w with
  | case1 _ _ _ differ => rw [fields_eq, fields_eq, answer_cons, if_pos differ]
  | case2 _ _ _ same _ second first ih =>
    obtain ⟨fit, eq⟩ := parseUint_eq_some.1 first
    obtain ⟨fit', rfl⟩ := parseUint_eq_some.1 second
    rw [fields_eq, fields_eq, answer_cons, if_neg same, if_pos ⟨fit, fit'⟩, if_pos eq, answer_later, ih]
  | case3 _ _ _ same _ _ second first ne less =>
    obtain ⟨fit, rfl⟩ := parseUint_eq_some.1 first
    obtain ⟨fit', rfl⟩ := parseUint_eq_some.1 second
    rw [fields_eq, fields_eq, answer_cons, if_neg same, if_pos ⟨fit, fit'⟩, if_neg ne,
      compare_lt_iff_lt.2 less]
  | case4 _ _ _ same _ _ second first ne =>
    obtain ⟨fit, rfl⟩ := parseUint_eq_some.1 first
    obtain ⟨fit', rfl⟩ := parseUint_eq_some.1 second
    rw [fields_eq, fields_eq, answer_cons, if_neg same, if_pos ⟨fit, fit'⟩, if_neg ne,
      compare_gt_iff_gt.2 (by omega)]
  | case5 _ _ _ same none =>
    rw [fields_eq, fields_eq, answer_cons, if_neg same, if_neg]
    rintro ⟨fit, fit'⟩
    exact none _ _ (if_pos fit) (if_pos fit')
  | case6 v w none =>
    obtain ⟨rfl, rfl⟩ : v = [] ∧ w = [] := by simpa using none
    rw [fields_nil, answer_cons, answer_nil]
    rfl

theorem compare_eq_some {res : Ordering} : compare v w = some res ↔
    Fits (fields v) (fields w) ∧ Ord.compare (fields v) (fields w) = res := by
  rw [compare_eq, answer, Option.ite_none_right_eq_some, Option.some.injEq]

def Preordered (a b c : Bytes) : Prop :=
  ∃ ab bc ac, compare a b = some ab ∧ compare b a = some ab.swap ∧ compare b c = some bc ∧
    compare a c = some ac ∧ (ab.isLE → bc.isLE → ac.isLE) ∧ (ab = .eq → ac = bc)

theorem preordered_iff (a b c : Bytes) : Preordered a b c ↔
    Fits (fields a) (fields b) ∧ Fits (fields b) (fields c) ∧ Fits (fields a) (fields c) := by
  simp only [Preordered, compare_eq_some]
  constructor
  · rintro ⟨ab, bc, ac, ⟨first, -⟩, -, ⟨second, -⟩, ⟨third, -⟩, -⟩
    exact ⟨first, second, third⟩
  · rintro ⟨first, second, third⟩
    refine ⟨_, _, _, ⟨first, rfl⟩, ⟨first.symm, Std.OrientedOrd.eq_swap⟩, ⟨second, rfl⟩, ⟨third, rfl⟩,
      Std.TransOrd.isLE_trans, fun same => ?_⟩
    rw [Std.LawfulEqOrd.eq_of_compare same]

namespace Sample

def large : Bytes := bytes "18446744073709551616"

/-- The comparison of a version with itself panics. -/
theorem large_panics : compare large large = none ∧ ¬ Preordered large large large := by
  have panics : compare large large = none := by
    decide +kernel
  refine ⟨panics, ?_⟩
  rintro ⟨ab, -, -, returns, -⟩
  rw [panics] at returns
  cases returns

end Sample

end ScaleTail.Util.Cmpver
