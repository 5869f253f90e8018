import ScaleTail.Net.Addr

/-! # Ranges of addresses -/

namespace ScaleTail.Net.Addr
open List

def toNat : Addr → Nat
  | v4 a => a.toNat
  | v6 a => a.toNat

def add : Addr → Nat → Addr
  | v4 a, n => v4 (a + BitVec.ofNat 32 n)
  | v6 a, n => v6 (a + BitVec.ofNat 128 n)

def next (a : Addr) : Option Addr :=
  if a.toNat + 1 = 2 ^ a.bitLen then none else some (a.add 1)

def Less (a b : Addr) : Prop :=
  a.bitLen < b.bitLen ∨ a.bitLen = b.bitLen ∧ a.toNat < b.toNat

instance (a b : Addr) : Decidable (a.Less b) := inferInstanceAs (Decidable (_ ∨ _))

theorem toNat_lt (a : Addr) : a.toNat < 2 ^ a.bitLen := by
  cases a with
  | v4 a => exact a.isLt
  | v6 a => exact a.isLt

theorem ext_toNat {a b : Addr} (family : a.bitLen = b.bitLen) (same : a.toNat = b.toNat) : a = b := by
  cases a with
  | v4 a => cases b with
      | v4 b => exact congrArg v4 (BitVec.eq_of_toNat_eq same)
      | v6 b => cases family
  | v6 a => cases b with
      | v4 b => cases family
      | v6 b => exact congrArg v6 (BitVec.eq_of_toNat_eq same)

@[simp] theorem bitLen_add (a : Addr) (n : Nat) : (a.add n).bitLen = a.bitLen := by
  cases a <;> rfl

@[simp] theorem add_zero (a : Addr) : a.add 0 = a := by
  cases a <;> simp [add]

theorem add_add (a : Addr) (m n : Nat) : (a.add m).add n = a.add (m + n) := by
  cases a <;> simp [add, BitVec.add_assoc, BitVec.ofNat_add]

theorem toNat_add {a : Addr} {n : Nat} (bound : a.toNat + n < 2 ^ a.bitLen) :
    (a.add n).toNat = a.toNat + n := by
  cases a with
  | v4 a =>
    show (a + BitVec.ofNat 32 n).toNat = _
    rw [BitVec.toNat_add, BitVec.toNat_ofNat, Nat.add_mod_mod]
    exact Nat.mod_eq_of_lt bound
  | v6 a =>
    show (a + BitVec.ofNat 128 n).toNat = _
    rw [BitVec.toNat_add, BitVec.toNat_ofNat, Nat.add_mod_mod]
    exact Nat.mod_eq_of_lt bound

theorem next_eq {a b : Addr} (family : a.bitLen = b.bitLen) (less : a.toNat < b.toNat) :
    a.next = some (a.add 1) := by
  have bound := b.toNat_lt
  rw [next, if_neg]
  rw [family]
  omega

end ScaleTail.Net.Addr

namespace ScaleTail.Netipx
open Net List

structure IPRange where
  from_ : Addr
  to_ : Addr
  valid : from_.bitLen = to_.bitLen ∧ from_.toNat ≤ to_.toNat

namespace IPRange

instance : Membership Addr IPRange where
  mem r a := a.bitLen = r.from_.bitLen ∧ r.from_.toNat ≤ a.toNat ∧ a.toNat ≤ r.to_.toNat

instance (r : IPRange) (a : Addr) : Decidable (a ∈ r) := inferInstanceAs (Decidable (_ ∧ _))

variable (r : IPRange)

theorem from_mem : r.from_ ∈ r := ⟨rfl, le_rfl, r.valid.2⟩

def size : Nat := r.to_.toNat + 1 - r.from_.toNat

def addrs : List Addr := (List.range r.size).map r.from_.add

variable {r} {a b : Addr}

theorem toNat_add_from {n : Nat} (bound : n < r.size) :
    (r.from_.add n).toNat = r.from_.toNat + n := by
  have last := r.to_.toNat_lt
  have valid := r.valid
  apply Addr.toNat_add
  rw [valid.1]
  unfold size at bound
  omega

theorem mem_addrs : a ∈ r.addrs ↔ a ∈ r := by
  have valid := r.valid.2
  constructor
  · intro member
    obtain ⟨n, below, rfl⟩ := List.mem_map.1 member
    have bound := mem_range.1 below
    have value := toNat_add_from bound
    unfold size at bound
    exact ⟨Addr.bitLen_add .., by omega, by omega⟩
  · intro ⟨family, low, high⟩
    have bound : a.toNat - r.from_.toNat < r.size := by
      unfold size
      omega
    refine List.mem_map.2 ⟨a.toNat - r.from_.toNat, mem_range.2 bound, ?_⟩
    apply Addr.ext_toNat
    · rw [Addr.bitLen_add, family]
    · rw [toNat_add_from bound]
      omega

theorem nodup_addrs : r.addrs.Nodup := by
  apply List.Nodup.map_on ?_ nodup_range
  intro m first n second same
  have values := congrArg Addr.toNat same
  rw [toNat_add_from (mem_range.1 first), toNat_add_from (mem_range.1 second)] at values
  omega

def upto (r : IPRange) (a : Addr) : List Addr :=
  (List.range (a.toNat + 1 - r.from_.toNat)).map r.from_.add

def after (r : IPRange) (a : Addr) : List Addr :=
  (List.range (r.to_.toNat - a.toNat)).map fun n => a.add (n + 1)

theorem upto_from : r.upto r.from_ = [r.from_] := by
  simp [upto]

theorem upto_to : r.upto r.to_ = r.addrs := rfl

theorem after_to : r.after r.to_ = [] := by
  simp [after]

theorem addrs_eq : r.addrs = r.from_ :: r.after r.from_ := by
  have valid := r.valid.2
  have size : r.size = r.to_.toNat - r.from_.toNat + 1 := by
    unfold size
    omega
  rw [addrs, size, range_succ_eq_map, map_cons, List.map_map, Addr.add_zero]
  rfl

section
variable (member : a ∈ r)
include member

theorem addrs_split : r.addrs = r.upto a ++ r.after a := by
  have low := member.2.1
  have high := member.2.2
  have size : r.size = a.toNat + 1 - r.from_.toNat + (r.to_.toNat - a.toNat) := by
    unfold size
    omega
  have bound : a.toNat - r.from_.toNat < r.size := by omega
  have back : r.from_.add (a.toNat - r.from_.toNat) = a := by
    apply Addr.ext_toNat
    · rw [Addr.bitLen_add, member.1]
    · rw [toNat_add_from bound]
      omega
  rw [addrs, size, range_add, map_append, List.map_map, upto, after]
  refine congrArg _ (map_congr_left fun n _ => ?_)
  calc r.from_.add (a.toNat + 1 - r.from_.toNat + n)
      = (r.from_.add (a.toNat - r.from_.toNat)).add (n + 1) := by
        rw [Addr.add_add]
        congr 1
        omega
    _ = a.add (n + 1) := by rw [back]

theorem lt_to (differ : a ≠ r.to_) : a.toNat < r.to_.toNat := by
  refine lt_of_le_of_ne member.2.2 fun same => differ ?_
  exact Addr.ext_toNat (member.1.trans r.valid.1) same

theorem add_one_mem (less : a.toNat < r.to_.toNat) :
    a.add 1 ∈ r ∧ (a.add 1).toNat = a.toNat + 1 := by
  have last := r.to_.toNat_lt
  have value : (a.add 1).toNat = a.toNat + 1 := by
    apply Addr.toNat_add
    rw [member.1, r.valid.1]
    omega
  refine ⟨⟨?_, ?_, ?_⟩, value⟩
  · rw [Addr.bitLen_add, member.1]
  · rw [value]
    exact Nat.le_succ_of_le member.2.1
  · rw [value]
    exact less

theorem after_eq (less : a.toNat < r.to_.toNat) :
    r.after a = a.add 1 :: r.after (a.add 1) := by
  have value := (add_one_mem member less).2
  have size : r.to_.toNat - a.toNat = r.to_.toNat - (a.add 1).toNat + 1 := by omega
  rw [after, size, range_succ_eq_map, map_cons, List.map_map, after]
  refine congrArg _ (map_congr_left fun n _ => ?_)
  show a.add (n + 1 + 1) = (a.add 1).add (n + 1)
  rw [Addr.add_add, Nat.add_comm 1]

theorem upto_eq (less : a.toNat < r.to_.toNat) :
    r.upto (a.add 1) = r.upto a ++ [a.add 1] := by
  have value := (add_one_mem member less).2
  have low := member.2.1
  have size : (a.add 1).toNat + 1 - r.from_.toNat = a.toNat + 1 - r.from_.toNat + 1 := by omega
  rw [upto, size, range_succ, map_append, upto]
  refine congrArg _ (congrArg (· :: []) ?_)
  have bound : a.toNat + 1 - r.from_.toNat < r.size := by
    unfold IPRange.size
    omega
  apply Addr.ext_toNat
  · rw [Addr.bitLen_add, Addr.bitLen_add, member.1]
  · rw [toNat_add_from bound]
    omega

end

end IPRange

structure IPSet where
  ranges : List IPRange
  sorted : ranges.Pairwise fun r s => r.to_.Less s.from_

namespace IPSet

instance : Membership Addr IPSet where
  mem s a := ∃ r ∈ s.ranges, a ∈ r

instance (s : IPSet) (a : Addr) : Decidable (a ∈ s) := inferInstanceAs (Decidable (∃ r ∈ s.ranges, _))

def empty : IPSet := ⟨[], List.Pairwise.nil⟩

end IPSet

def addrsOf (ranges : List IPRange) : List Addr := ranges.flatMap IPRange.addrs

theorem nodup_addrsOf (s : IPSet) : (addrsOf s.ranges).Nodup := by
  refine nodup_flatMap.2 ⟨fun r _ => IPRange.nodup_addrs, s.sorted.imp ?_⟩
  intro r s less a first second
  obtain ⟨family, -, high⟩ := IPRange.mem_addrs.1 first
  obtain ⟨family', low, -⟩ := IPRange.mem_addrs.1 second
  have valid := r.valid.1
  rcases less with less | ⟨-, less⟩ <;> omega

end ScaleTail.Netipx
