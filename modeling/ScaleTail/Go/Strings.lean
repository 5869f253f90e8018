import ScaleTail.Lib.Decimal
import ScaleTail.Lib.Text

/-! # Strings -/

namespace ScaleTail.Go

open Lib List Decimal

abbrev Bytes := List UInt8

def bytes (s : String) : Bytes := s.toUTF8.data.toList

def spaces : List Bytes :=
  [[0x09], [0x0a], [0x0b], [0x0c], [0x0d], [0x20], [0xc2, 0x85], [0xc2, 0xa0], [0xe1, 0x9a, 0x80],
    [0xe2, 0x80, 0x80], [0xe2, 0x80, 0x81], [0xe2, 0x80, 0x82], [0xe2, 0x80, 0x83],
    [0xe2, 0x80, 0x84], [0xe2, 0x80, 0x85], [0xe2, 0x80, 0x86], [0xe2, 0x80, 0x87],
    [0xe2, 0x80, 0x88], [0xe2, 0x80, 0x89], [0xe2, 0x80, 0x8a], [0xe2, 0x80, 0xa8],
    [0xe2, 0x80, 0xa9], [0xe2, 0x80, 0xaf], [0xe2, 0x81, 0x9f], [0xe3, 0x80, 0x80]]

def trimSpace (s : Bytes) : Bytes := Trim.both spaces s

@[grind =]
def isUpper (c : UInt8) : Bool := 65 ≤ c && c ≤ 90

@[grind =]
def isLower (c : UInt8) : Bool := 97 ≤ c && c ≤ 122

@[grind =]
def isAlnum (c : UInt8) : Bool := isUpper c || isLower c || Decimal.isDigit c

def lowerASCII (c : UInt8) : UInt8 := if isUpper c then c + 32 else c

/-- `strings.ToLower` on strings that are not ASCII. It maps character by character, an ASCII
character is a byte of its own, and no character becomes an ASCII capital. -/
class Unicode where
  lower : Bytes → Bytes
  lower_ascii : ∀ s : Bytes, ∀ c ∈ s, c < 0x80 → lowerASCII c ∈ lower s
  lower_capital : ∀ s : Bytes, ∀ c ∈ lower s, ¬ isUpper c

def upperASCII (c : UInt8) : UInt8 := if isLower c then c - 32 else c

def toLower [Unicode] (s : Bytes) : Bytes :=
  if s.all (· < 0x80) then s.map lowerASCII else Unicode.lower s

def equalFold (s t : Bytes) : Bool := s.map lowerASCII = t.map lowerASCII

def trimSuffix (s suffix : Bytes) : Bytes :=
  if suffix.isSuffixOf s then s.take (s.length - suffix.length) else s

def trimPrefix (s pre : Bytes) : Bytes := if pre.isPrefixOf s then s.drop pre.length else s

def trimRight (s : Bytes) (c : UInt8) : Bytes := (s.reverse.dropWhile (· = c)).reverse

def cut (s : Bytes) (c : UInt8) : Bytes × Option Bytes :=
  match s.dropWhile (· ≠ c) with
  | [] => (s, none)
  | _ :: after => (s.takeWhile (· ≠ c), some after)

def cutLast (s : Bytes) (c : UInt8) : Option (Bytes × Bytes) :=
  match cut s.reverse c with
  | (_, none) => none
  | (after, some before) => some (before.reverse, after.reverse)

def atoi (s : Bytes) : Option Nat :=
  if s = [] ∨ ¬ s.all Decimal.isDigit ∨ 2 ^ 63 ≤ Decimal.value s then none else some (Decimal.value s)

def itoa (n : Nat) : Bytes := Decimal.encode n

theorem spaces_nonempty : [] ∉ spaces := by decide

@[grind =]
def Visible (c : UInt8) : Prop := 0x21 ≤ c ∧ c ≤ 0x7e

instance : DecidablePred Visible := fun _ => inferInstanceAs (Decidable (_ ∧ _))

theorem trimSpace_trimSpace (s : Bytes) : trimSpace (trimSpace s) = trimSpace s :=
  Trim.both_both spaces_nonempty s

variable {s : Bytes} {c : UInt8}

theorem trimSpace_eq (visible : ∀ c ∈ s, Visible c) : trimSpace s = s := by
  refine Trim.both_eq_of_letters (p := Visible) ?_ visible
  decide

theorem toLower_eq [Unicode] (ascii : ∀ c ∈ s, c < 0x80) : toLower s = s.map lowerASCII := by
  rw [toLower, if_pos]
  simpa using ascii

theorem toLower_lower [Unicode] (lower : ∀ c ∈ s, c < 0x80 ∧ ¬ isUpper c) : toLower s = s := by
  rw [toLower_eq fun c hc => (lower c hc).1]
  conv_rhs => rw [← map_id s]
  apply map_congr_left
  intro c hc
  simp [lowerASCII, (lower c hc).2]

theorem lowerASCII_mem_toLower [Unicode] (mem : c ∈ s) (ascii : c < 0x80) :
    lowerASCII c ∈ toLower s := by
  unfold toLower
  split
  · exact mem_map_of_mem mem
  · exact Unicode.lower_ascii s c mem ascii

theorem lowerASCII_capital : ∀ c, ¬ isUpper (lowerASCII c) := by decide +kernel

theorem lowerASCII_lowerASCII (c : UInt8) : lowerASCII (lowerASCII c) = lowerASCII c := by
  rw [lowerASCII, if_neg (lowerASCII_capital c)]

theorem toLower_capital [Unicode] (mem : c ∈ toLower s) : ¬ isUpper c := by
  unfold toLower at mem
  split at mem
  · obtain ⟨d, -, rfl⟩ := mem_map.1 mem
    exact lowerASCII_capital d
  · exact Unicode.lower_capital s c mem

@[reducible]
def Unicode.ascii : Unicode where
  lower := List.map lowerASCII
  lower_ascii _ _ mem _ := mem_map_of_mem mem
  lower_capital s c mem := by
    obtain ⟨d, -, rfl⟩ := mem_map.1 mem
    exact lowerASCII_capital d

theorem cut_append {t : Bytes} (free : c ∉ s) : cut (s ++ c :: t) c = (s, some t) := by
  have all : ∀ d ∈ s, decide (d ≠ c) = true := by
    intro d hd
    simpa using fun same : d = c => free (same ▸ hd)
  unfold cut
  rw [dropWhile_append_of_pos all, takeWhile_append_of_pos all]
  simp

theorem cut_free (free : c ∉ s) : cut s c = (s, none) := by
  have all : ∀ d ∈ s, decide (d ≠ c) = true := by
    intro d hd
    simpa using fun same : d = c => free (same ▸ hd)
  unfold cut
  rw [dropWhile_eq_nil_iff.2 all]

theorem cut_cases (s : Bytes) (c : UInt8) :
    c ∉ s ∧ cut s c = (s, none) ∨
      ∃ before after, s = before ++ c :: after ∧ c ∉ before ∧ cut s c = (before, some after) := by
  by_cases mem : c ∈ s
  · obtain ⟨before, after, rfl, free⟩ := eq_append_cons_of_mem mem
    exact .inr ⟨before, after, rfl, free, cut_append free⟩
  · exact .inl ⟨mem, cut_free mem⟩

theorem cutLast_append {t : Bytes} (free : c ∉ t) : cutLast (s ++ c :: t) c = some (s, t) := by
  have free' : c ∉ t.reverse := by simpa using free
  have rev : (s ++ c :: t).reverse = t.reverse ++ c :: s.reverse := by simp
  rw [cutLast, rev, cut_append free']
  simp

theorem cutLast_free (free : c ∉ s) : cutLast s c = none := by
  rw [cutLast, cut_free (by simpa using free)]

theorem cutLast_cases (s : Bytes) (c : UInt8) :
    c ∉ s ∧ cutLast s c = none ∨
      ∃ before after, s = before ++ c :: after ∧ c ∉ after ∧ cutLast s c = some (before, after) := by
  rcases cut_cases s.reverse c with ⟨free, same⟩ | ⟨after, before, rev, free, same⟩
  · exact .inl ⟨by simpa using free, by rw [cutLast, same]⟩
  refine .inr ⟨before.reverse, after.reverse, ?_, by simpa using free, by rw [cutLast, same]⟩
  rw [← reverse_reverse s, rev]
  simp

theorem atoi_eq_some {n : Nat} :
    atoi s = some n ↔ (s ≠ [] ∧ ∀ c ∈ s, isDigit c) ∧ value s = n ∧ n < 2 ^ 63 := by
  unfold atoi
  split
  next bad =>
    simp only [reduceCtorEq, false_iff]
    rintro ⟨⟨nonempty, digits⟩, rfl, small⟩
    rcases bad with h | h | h
    · exact nonempty h
    · exact h (by simpa using digits)
    · omega
  next good =>
    simp only [not_or, not_not, all_eq_true, not_le] at good
    obtain ⟨nonempty, digits, small⟩ := good
    constructor
    · intro same
      obtain rfl := Option.some.inj same
      exact ⟨⟨nonempty, digits⟩, rfl, small⟩
    · rintro ⟨-, rfl, -⟩
      rfl

theorem atoi_itoa {n : Nat} (small : n < 2 ^ 63) : atoi (itoa n) = some n :=
  atoi_eq_some.2 ⟨⟨encode_ne_nil n, fun _ => encode_digits⟩,
    value_encode n, small⟩

end ScaleTail.Go
