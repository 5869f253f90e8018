import Mathlib

/-!
# Big-endian numbers
-/

namespace ScaleTail.Lib.BigEndian

def encode : Nat → Nat → List UInt8
  | 0, _ => []
  | width + 1, n => encode width (n / 256) ++ [UInt8.ofNat n]

def decode (bs : List UInt8) : Nat := bs.foldl (fun n b => n * 256 + b.toNat) 0

@[simp] theorem length_encode (width n : Nat) : (encode width n).length = width := by
  induction width generalizing n with
  | zero => rfl
  | succ _ ih => simp [encode, ih]

theorem decode_encode (width n : Nat) : decode (encode width n) = n % 256 ^ width := by
  induction width generalizing n with
  | zero => simp [encode, decode, Nat.mod_one]
  | succ width ih =>
    have byte : (UInt8.ofNat n).toNat = n % 256 := UInt8.toNat_ofNat'
    rw [encode, decode, List.foldl_append, ← decode, ih, List.foldl_cons, List.foldl_nil, byte,
      Nat.pow_succ, Nat.mul_comm (256 ^ width), Nat.mod_mul]
    omega

theorem encode_injective {width m n : Nat} (hm : m < 256 ^ width) (hn : n < 256 ^ width)
    (same : encode width m = encode width n) : m = n := by
  have numbers := congrArg decode same
  rwa [decode_encode, decode_encode, Nat.mod_eq_of_lt hm, Nat.mod_eq_of_lt hn] at numbers

end ScaleTail.Lib.BigEndian
