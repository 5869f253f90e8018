import Mathlib

/-! # Decimal numerals -/

namespace ScaleTail.Lib.Decimal
open List Nat UInt8

@[grind =]
def isDigit (c : UInt8) : Bool := 48 ≤ c && c ≤ 57

def digit (c : UInt8) : Nat := c.toNat - 48

def value (s : List UInt8) : Nat := s.foldl (fun n c => 10 * n + digit c) 0

def encode (n : Nat) : List UInt8 :=
  if n = 0 then [48] else (Nat.digits 10 n).reverse.map fun d => UInt8.ofNat (48 + d)

def Canonical (s : List UInt8) : Prop :=
  s ≠ [] ∧ (∀ c ∈ s, isDigit c) ∧ (s.head? = some 48 → s = [48])

theorem digit_byte : ∀ c : UInt8, isDigit c → digit c < 10 ∧ ofNat (48 + digit c) = c := by
  decide +kernel

variable {c : UInt8} {s t : List UInt8}

theorem digit_lt (h : isDigit c) : digit c < 10 := (digit_byte c h).1

theorem digit_ofNat {d : Nat} (h : d < 10) :
    isDigit (ofNat (48 + d)) ∧ digit (ofNat (48 + d)) = d := by
  revert d
  decide

theorem ofNat_digit (h : isDigit c) : ofNat (48 + digit c) = c :=
  (digit_byte c h).2

theorem value_eq_ofDigits (s : List UInt8) : value s = Nat.ofDigits 10 (s.map digit).reverse := by
  induction s using List.reverseRecOn with
  | nil => rfl
  | append_singleton _ _ ih =>
    rw [value, foldl_append, ← value, ih]
    simp [ofDigits_cons]
    ring

theorem encode_digits {n : Nat} (mem : c ∈ encode n) : isDigit c := by
  unfold encode at mem
  split at mem
  · simp only [mem_singleton] at mem
    subst mem
    decide
  · obtain ⟨d, hd, rfl⟩ := List.mem_map.1 mem
    exact (digit_ofNat (digits_lt_base (by decide) (mem_reverse.1 hd))).1

theorem encode_ne_nil (n : Nat) : encode n ≠ [] := by
  unfold encode
  split
  · exact cons_ne_nil _ _
  next ne => simpa [digits_eq_nil_iff_eq_zero] using ne

theorem value_encode (n : Nat) : value (encode n) = n := by
  unfold encode
  split
  next zero => rw [zero]; rfl
  next ne =>
    have back : ((Nat.digits 10 n).reverse.map fun d => ofNat (48 + d)).map digit =
        (Nat.digits 10 n).reverse := by
      rw [List.map_map]
      conv_rhs => rw [← List.map_id (Nat.digits 10 n).reverse]
      apply map_congr_left
      intro d hd
      exact (digit_ofNat (digits_lt_base (by decide) (mem_reverse.1 hd))).2
    rw [value_eq_ofDigits, back, reverse_reverse, ofDigits_digits]

theorem foldl_value (n : Nat) (s : List UInt8) :
    s.foldl (fun n c => 10 * n + digit c) n = n * 10 ^ s.length + value s := by
  unfold value
  induction s generalizing n with
  | nil => simp
  | cons c _ ih =>
    rw [foldl_cons, foldl_cons, ih, ih (10 * 0 + digit c), length_cons, pow_succ]
    ring

theorem value_cons (c : UInt8) (s : List UInt8) :
    value (c :: s) = digit c * 10 ^ s.length + value s := by
  rw [value, foldl_cons, foldl_value]
  ring

theorem value_lt {s : List UInt8} (digits : ∀ c ∈ s, isDigit c) : value s < 10 ^ s.length := by
  induction s with
  | nil => simp [value]
  | cons c s ih =>
    have small := digit_lt (digits c mem_cons_self)
    have rest := ih fun d hd => digits d (mem_cons_of_mem c hd)
    rw [value_cons, length_cons, pow_succ]
    calc digit c * 10 ^ s.length + value s < digit c * 10 ^ s.length + 10 ^ s.length := by omega
      _ = (digit c + 1) * 10 ^ s.length := by ring
      _ ≤ 10 * 10 ^ s.length := mul_le_mul_right _ small
      _ = 10 ^ s.length * 10 := by ring

theorem digit_lt_iff {d : UInt8} (hc : isDigit c) (hd : isDigit d) : digit c < digit d ↔ c < d := by
  simp only [isDigit, Bool.and_eq_true, decide_eq_true_eq, le_iff_toNat_le] at hc hd
  rw [lt_iff_toNat_lt, digit, digit]
  have : (48 : UInt8).toNat = 48 := rfl
  omega

theorem value_lt_iff_lex (hs : ∀ c ∈ s, isDigit c) (ht : ∀ c ∈ t, isDigit c)
    (same : s.length = t.length) : value s < value t ↔ s < t := by
  induction s generalizing t with
  | nil =>
    obtain rfl : t = [] := length_eq_zero_iff.1 same.symm
    simp
  | cons c s ih =>
    cases t with
    | nil => cases same
    | cons d t =>
      have lengths : s.length = t.length := Nat.succ.inj same
      have hc : isDigit c := hs c mem_cons_self
      have hd : isDigit d := ht d mem_cons_self
      have rest := value_lt fun e he => hs e (mem_cons_of_mem c he)
      have rest' := value_lt fun e he => ht e (mem_cons_of_mem d he)
      have ih := ih (fun e he => hs e (mem_cons_of_mem c he))
        (fun e he => ht e (mem_cons_of_mem d he)) lengths
      rw [value_cons, value_cons, cons_lt_cons_iff, ← ih, ← digit_lt_iff hc hd, lengths]
      rw [lengths] at rest
      constructor
      · intro lt
        rcases lt_trichotomy (digit c) (digit d) with less | equal | more
        · exact .inl less
        · refine .inr ⟨?_, ?_⟩
          · rw [← ofNat_digit hc, equal, ofNat_digit hd]
          · rw [equal] at lt
            omega
        · have := mul_le_mul_right (10 ^ t.length) more
          rw [succ_mul] at this
          omega
      · rintro (less | ⟨rfl, less⟩)
        · have := mul_le_mul_right (10 ^ t.length) less
          rw [succ_mul] at this
          omega
        · omega

theorem value_lt_of_length (hs : Canonical s) (ht : Canonical t)
    (lt : s.length < t.length) : value s < value t := by
  obtain ⟨nonempty, digits, leading⟩ := ht
  cases t with
  | nil => exact absurd rfl nonempty
  | cons d t =>
    have short : s.length ≤ t.length := Nat.lt_succ_iff.1 lt
    have pos : 1 ≤ s.length := length_pos_iff.2 hs.1
    have hd : isDigit d := digits d mem_cons_self
    have first : 1 ≤ digit d := by
      by_contra none
      have zero : digit d = 0 := by omega
      have d48 : d = 48 := by rw [← ofNat_digit hd, zero]; rfl
      have alone := leading (by rw [d48]; rfl)
      have : t = [] := (List.cons.inj alone).2
      rw [this, length_nil] at short
      omega
    calc value s < 10 ^ s.length := value_lt hs.2.1
      _ ≤ 10 ^ t.length := Nat.pow_le_pow_right (by decide) short
      _ ≤ digit d * 10 ^ t.length := Nat.le_mul_of_pos_left _ first
      _ ≤ value (d :: t) := by rw [value_cons]; omega

theorem value_lt_iff (hs : Canonical s) (ht : Canonical t) :
    value s < value t ↔ s.length < t.length ∨ s.length = t.length ∧ s < t := by
  rcases lt_trichotomy s.length t.length with lt | same | gt
  · exact iff_of_true (value_lt_of_length hs ht lt) (.inl lt)
  · rw [value_lt_iff_lex hs.2.1 ht.2.1 same]
    simp [same]
  · have := value_lt_of_length ht hs gt
    refine iff_of_false (by omega) ?_
    omega

end ScaleTail.Lib.Decimal
