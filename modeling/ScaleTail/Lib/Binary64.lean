import Mathlib

/-! # Natural numbers as binary64 -/

namespace ScaleTail.Lib.Binary64

def excess (n : Nat) : Nat := Nat.log2 n - 52

def roundsUp (e n : Nat) : Prop :=
  2 ^ e < 2 * (n % 2 ^ e) ∨ 2 ^ e = 2 * (n % 2 ^ e) ∧ n / 2 ^ e % 2 = 1

instance (e n : Nat) : Decidable (roundsUp e n) := inferInstanceAs (Decidable (_ ∨ _))

def nearest (e n : Nat) : Nat := (if roundsUp e n then n / 2 ^ e + 1 else n / 2 ^ e) * 2 ^ e

def round (n : Nat) : Nat := nearest (excess n) n

def ofNat (n : Nat) : WithTop Nat := if Nat.log2 (round n) < 1024 then round n else ⊤

variable {m n : Nat}

theorem log2_mono (le : m ≤ n) : Nat.log2 m ≤ Nat.log2 n := by
  by_cases zero : m = 0
  · simp [zero]
  · rw [Nat.le_log2 (by omega)]
    exact (Nat.log2_self_le zero).trans le

theorem nearest_mono (e : Nat) (le : m ≤ n) : nearest e m ≤ nearest e n := by
  apply Nat.mul_le_mul_right
  have quotients : m / 2 ^ e ≤ n / 2 ^ e := Nat.div_le_div_right le
  rcases quotients.lt_or_eq with lt | same
  · split_ifs <;> omega
  -- With equal quotients the remainders are ordered.
  have remainders : m % 2 ^ e ≤ n % 2 ^ e := by
    have hm := Nat.div_add_mod m (2 ^ e)
    have hn := Nat.div_add_mod n (2 ^ e)
    rw [same] at hm
    omega
  have up : roundsUp e m → roundsUp e n := by
    unfold roundsUp
    omega
  split_ifs with hm hn hn
  · omega
  · exact absurd (up hm) hn
  · omega
  · omega

theorem nearest_of_dvd {e n : Nat} (dvd : 2 ^ e ∣ n) : nearest e n = n := by
  have none : n % 2 ^ e = 0 := Nat.mod_eq_zero_of_dvd dvd
  have down : ¬ roundsUp e n := by
    unfold roundsUp
    have pos : 0 < 2 ^ e := Nat.two_pow_pos e
    omega
  rw [nearest, if_neg down, Nat.div_mul_cancel dvd]

theorem round_between {n : Nat} (ne : n ≠ 0) :
    2 ^ Nat.log2 n ≤ round n ∧ round n ≤ 2 ^ (Nat.log2 n + 1) := by
  have low : 2 ^ Nat.log2 n ≤ n := Nat.log2_self_le ne
  have high : n ≤ 2 ^ (Nat.log2 n + 1) := Nat.lt_log2_self.le
  have dvd : ∀ k, Nat.log2 n ≤ k → 2 ^ excess n ∣ 2 ^ k := by
    intro k hk
    apply Nat.pow_dvd_pow
    unfold excess
    omega
  constructor
  · calc 2 ^ Nat.log2 n = nearest (excess n) (2 ^ Nat.log2 n) := (nearest_of_dvd (dvd _ le_rfl)).symm
      _ ≤ round n := nearest_mono _ low
  · calc round n ≤ nearest (excess n) (2 ^ (Nat.log2 n + 1)) := nearest_mono _ high
      _ = 2 ^ (Nat.log2 n + 1) := nearest_of_dvd (dvd _ (Nat.le_succ _))

theorem round_mono (le : m ≤ n) : round m ≤ round n := by
  by_cases zero : m = 0
  · subst zero
    simp [round, nearest, excess, roundsUp]
  · have nonzero : n ≠ 0 := by omega
    rcases (log2_mono le).lt_or_eq with lt | same
    · calc round m ≤ 2 ^ (Nat.log2 m + 1) := (round_between zero).2
        _ ≤ 2 ^ Nat.log2 n := Nat.pow_le_pow_right (by decide) lt
        _ ≤ round n := (round_between nonzero).1
    · rw [round, round, excess, excess, same]
      exact nearest_mono _ le

theorem ofNat_mono (le : m ≤ n) : ofNat m ≤ ofNat n := by
  have rounded := round_mono le
  have logs := log2_mono rounded
  unfold ofNat
  split_ifs with hm hn hn
  · exact WithTop.coe_le_coe.2 rounded
  · exact le_top
  · omega
  · exact le_rfl

theorem ofNat_lt_iff (ne : ofNat m ≠ ofNat n) : ofNat m < ofNat n ↔ m < n := by
  constructor
  · intro lt
    by_contra ge
    exact absurd (ofNat_mono (not_lt.1 ge)) (not_le.2 lt)
  · intro lt
    exact lt_of_le_of_ne (ofNat_mono lt.le) ne

end ScaleTail.Lib.Binary64
