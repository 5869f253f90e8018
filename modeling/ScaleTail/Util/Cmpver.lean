import ScaleTail.Go.Strings

/-! # Comparison of version numbers -/

namespace ScaleTail.Util.Cmpver

open Go Lib List

abbrev isnum (c : UInt8) : Bool := Decimal.isDigit c

def notnum (c : UInt8) : Bool := !isnum c

def splitPrefixFunc (s : Bytes) (f : UInt8 → Bool) : Bytes × Bytes := (s.takeWhile f, s.dropWhile f)

/-- `strconv.ParseUint` of a run of digits. An empty run stands for zero. -/
def parseUint (s : Bytes) : Option Nat :=
  if Decimal.value s < 2 ^ 64 then some (Decimal.value s) else none

def text (v : Bytes) : Bytes := (splitPrefixFunc v notnum).1

def number (v : Bytes) : Bytes := (splitPrefixFunc (splitPrefixFunc v notnum).2 isnum).1

def rest (v : Bytes) : Bytes := (splitPrefixFunc (splitPrefixFunc v notnum).2 isnum).2

theorem rest_length_le (v : Bytes) : (rest v).length ≤ v.length :=
  ((dropWhile_sublist _).trans (dropWhile_sublist _)).length_le

theorem rest_length_lt {v : Bytes} (more : v ≠ []) : (rest v).length < v.length := by
  cases v with
  | nil => exact absurd rfl more
  | cons c v =>
    have short := rest_length_le v
    have tail := (dropWhile_sublist isnum (l := v)).length_le
    unfold rest splitPrefixFunc at short ⊢
    cases digit : isnum c <;> simp [notnum, digit] at short ⊢ <;> omega

/-- The answer of the loop, and `none` where it panics. -/
def compare (v1 v2 : Bytes) : Option Ordering :=
  if _more : v1 ≠ [] ∨ v2 ≠ [] then
    if Ord.compare (text v1) (text v2) ≠ .eq then some (Ord.compare (text v1) (text v2))
    else
      match parseUint (number v1), parseUint (number v2) with
      | some n1, some n2 =>
        if n1 = n2 then compare (rest v1) (rest v2) else if n1 < n2 then some .lt else some .gt
      | _, _ => none
  else some .eq
termination_by v1.length + v2.length
decreasing_by
  have first := rest_length_le v1
  have second := rest_length_le v2
  rcases _more with more | more
  all_goals
    have := rest_length_lt more
    omega

end ScaleTail.Util.Cmpver
