import ScaleTail.Net.Addr

/-! # Choosing between the paths to a peer -/

namespace ScaleTail.Magicsock
open Net Relation Option

/-- An address is missing if it is not valid. -/
structure EpAddr where
  ap : Option AddrPort
  vni : Option Nat
  deriving DecidableEq

/-- Latencies are far below `2^63 / 100` nanoseconds, where the products of the source overflow. -/
structure AddrQuality extends EpAddr where
  latency : Nat
  wireMTU : Nat

def bonus (ap : AddrPort) : Nat :=
  (if ap.addr.isLoopback then 50 else if ap.addr.isLinkLocalUnicast then 30
    else if ap.addr.isPrivate then 20 else 0) + if ap.addr.is6 then 10 else 0

def betterAddr (a b : AddrQuality) : Bool :=
  if a.toEpAddr = b.toEpAddr then b.wireMTU < a.wireMTU
  else
    match a.ap, b.ap with
    | _, none => true
    | none, some _ => false
    | some x, some y =>
      if a.vni.isNone && b.vni.isSome then true
      else if a.vni.isSome && b.vni.isNone then false
      else
        let (aPoints, bPoints) :=
          if a.latency > b.latency ∧ a.latency > 0 then (0, 100 - b.latency * 100 / a.latency)
          else if b.latency > 0 then (100 - a.latency * 100 / b.latency, 0)
          else (0, 0)
        let aPoints := aPoints + bonus x
        let bPoints := bPoints + bonus y
        if aPoints ≤ 1 ∧ bPoints = 0 then false else aPoints > bPoints

theorem bonus_le (ap : AddrPort) : bonus ap ≤ 60 ∧ 10 ∣ bonus ap := by
  unfold bonus
  split_ifs <;> decide

variable {a b : AddrQuality} {x y : AddrPort}

theorem lt_of_points {p q : Nat} (more : (if p ≤ 1 ∧ q = 0 then false else decide (p > q)) = true) :
    q < p := by
  split at more
  · cases more
  · exact of_decide_eq_true more

/-- A better path is faster, if the latency of the one with the higher bonus counts for less. -/
theorem betterAddr_latency (differ : a.toEpAddr ≠ b.toEpAddr) (left : a.ap = some x)
    (right : b.ap = some y) (better : betterAddr a b = true) :
    a.vni.isSome < b.vni.isSome ∨ a.vni.isSome = b.vni.isSome ∧
      (bonus y < bonus x ∧ (101 - (bonus x - bonus y)) * a.latency ≤ b.latency * 100 ∨
        bonus x ≤ bonus y ∧ a.latency * 100 < (100 - (bonus y - bonus x)) * b.latency) := by
  rw [betterAddr, if_neg differ, left, right, ← not_isSome, ← not_isSome] at better
  have order : a.vni.isSome ≤ b.vni.isSome := by
    revert better
    cases a.vni.isSome <;> cases b.vni.isSome <;> simp
  refine order.lt_or_eq.imp_right fun same => ⟨same, ?_⟩
  simp only [same, Bool.not_and_self, Bool.and_not_self, Bool.false_eq_true, if_false] at better
  have points := lt_of_points better
  split_ifs at points with slower pos
  · rw [← Nat.le_div_iff_mul_le slower.2]
    generalize b.latency * 100 / a.latency = ratio at points ⊢
    omega
  · rcases lt_or_ge (bonus y) (bonus x) with higher | lower
    · rw [Nat.mul_comm b.latency]
      exact .inl ⟨higher, Nat.mul_le_mul (by omega) (by omega)⟩
    rw [← Nat.div_lt_iff_lt_mul pos]
    generalize a.latency * 100 / b.latency = ratio at points ⊢
    omega
  · have zero : a.latency = 0 := by omega
    rw [zero]
    omega

def Close (S : Set Nat) : Prop :=
  ∀ l ∈ S, ∀ m ∈ S, ∀ h ∈ S, l < m → m < h → (m - l) * (h - m) ≤ 100

/-- Two paths to different addresses, whose bonuses are in `S`. -/
def Preferred (S : Set Nat) (a b : AddrQuality) : Prop :=
  a.toEpAddr ≠ b.toEpAddr ∧ betterAddr a b = true ∧ ∀ q ∈ [a, b], ∃ x, q.ap = some x ∧ bonus x ∈ S

/-- The weight of a latency at the bonus `p`, if the least bonus is `l`. -/
def weight (l p : Nat) : Nat := if p ≤ l + 10 then 100 - (p - l) else 101 - (p - l)

def AddrQuality.cost (l : Nat) (q : AddrQuality) : Bool ×ₗ Nat ×ₗ Nat :=
  toLex (q.vni.isSome, toLex (weight l (q.ap.elim 0 bonus) * q.latency, 60 - q.ap.elim 0 bonus))

section
variable {S : Set Nat} {l p q : Nat} (close : Close S) (least : IsLeast {p ∈ S | 10 ∣ p} l)
include close least

theorem weight_bounds (hp : p ∈ S ∧ 10 ∣ p) (hq : q ∈ S ∧ 10 ∣ q) (less : p < q) :
    (100 - (q - p)) * weight l p ≤ 100 * weight l q ∧
      100 * weight l q ≤ (101 - (q - p)) * weight l p := by
  have above := least.2 hp
  unfold weight
  rcases above.lt_or_eq with above | rfl
  · -- three bonuses, which are ten apart
    have close := close l least.1.1 p hp.1 q hq.1 above less
    obtain ⟨i, first⟩ := Nat.dvd_sub hp.2 least.1.2
    obtain ⟨j, second⟩ := Nat.dvd_sub hq.2 hp.2
    rw [first, second] at close
    obtain rfl : i = 1 := by nlinarith [show 0 < i by omega, show 0 < j by omega]
    obtain rfl : j = 1 := by omega
    rw [if_pos (by omega), if_neg (by omega), show p - l = 10 by omega, show q - p = 10 by omega,
      show q - l = 20 by omega]
    decide
  · rw [if_pos (by omega), Nat.sub_self]
    split <;> omega

theorem Preferred.cost (preferred : Preferred S a b) : a.cost l < b.cost l := by
  obtain ⟨differ, better, among⟩ := preferred
  obtain ⟨x, left, ofx⟩ := among a (by simp)
  obtain ⟨y, right, ofy⟩ := among b (by simp)
  obtain ⟨bound, tens⟩ := bonus_le x
  obtain ⟨-, tens'⟩ := bonus_le y
  have positive : 0 < weight l (bonus x) := by
    unfold weight
    split <;> omega
  rw [AddrQuality.cost, AddrQuality.cost, left, right, elim_some, elim_some, Prod.Lex.toLex_lt_toLex]
  refine (betterAddr_latency differ left right better).imp_right (And.imp_right fun latency => ?_)
  rw [Prod.Lex.toLex_lt_toLex]
  rcases latency with ⟨higher, fast⟩ | ⟨lower, fast⟩
  · have bounds := (weight_bounds close least ⟨ofy, tens'⟩ ⟨ofx, tens⟩ higher).2
    have cheap : weight l (bonus x) * a.latency ≤ weight l (bonus y) * b.latency := by
      have first := Nat.mul_le_mul_right a.latency bounds
      have second := Nat.mul_le_mul_left (weight l (bonus y)) fast
      linarith
    exact cheap.lt_or_eq.imp_right fun same => ⟨same, by dsimp only; omega⟩
  · have bounds : (100 - (bonus y - bonus x)) * weight l (bonus x) ≤ 100 * weight l (bonus y) := by
      rcases lower.lt_or_eq with lower | same
      · exact (weight_bounds close least ⟨ofx, tens⟩ ⟨ofy, tens'⟩ lower).1
      · rw [same, Nat.sub_self]
    have first := Nat.mul_le_mul_right b.latency bounds
    have second := Nat.mul_lt_mul_of_pos_left fast positive
    left
    linarith

end

theorem not_transGen_preferred {S : Set Nat} (close : Close S) (q : AddrQuality) :
    ¬ TransGen (Preferred S) q q := by
  intro cycle
  obtain ⟨b, first, -⟩ := TransGen.head'_iff.1 cycle
  obtain ⟨x, -, ofx⟩ := first.2.2 q (by simp)
  have least : IsLeast {p ∈ S | 10 ∣ p} (sInf {p ∈ S | 10 ∣ p}) :=
    ⟨Nat.sInf_mem ⟨bonus x, ofx, (bonus_le x).2⟩, fun _ => Nat.sInf_le⟩
  have lower := cycle.lift (AddrQuality.cost _) fun _ _ => Preferred.cost close least
  rw [transGen_eq_self] at lower
  exact lt_irrefl _ lower

theorem close_pair (m n : Nat) : Close {m, n} := by
  rintro l (rfl | rfl) k (rfl | rfl) h (rfl | rfl) less less' <;> omega

theorem betterAddr_acyclic :
    (∀ a b : AddrQuality, a.ap ≠ none → b.ap ≠ none → ¬ (betterAddr a b = true ∧ betterAddr b a = true)) ∧
      ∀ S, Close S → ∀ q, ¬ TransGen (Preferred S) q q := by
  refine ⟨?_, fun _ => not_transGen_preferred⟩
  rintro a b left right ⟨better, back⟩
  by_cases same : a.toEpAddr = b.toEpAddr
  · rw [betterAddr, if_pos same, decide_eq_true_eq] at better
    rw [betterAddr, if_pos same.symm, decide_eq_true_eq] at back
    exact better.asymm back
  · obtain ⟨x, left⟩ := ne_none_iff_exists'.1 left
    obtain ⟨y, right⟩ := ne_none_iff_exists'.1 right
    refine not_transGen_preferred (close_pair (bonus x) (bonus y)) a (.tail (.single (b := b) ?_) ?_)
    · exact ⟨same, better, by simp [left, right]⟩
    · exact ⟨Ne.symm same, back, by simp [left, right]⟩

namespace Sample

/-- A public address, a private one and the loopback address. -/
def paths : List AddrQuality :=
  [⟨⟨some ⟨.v4 0x01010101#32, 1⟩, none⟩, 540000, 1280⟩,
    ⟨⟨some ⟨.v4 0x0a000001#32, 1⟩, none⟩, 690000, 1280⟩,
    ⟨⟨some ⟨.v4 0x7f000001#32, 1⟩, none⟩, 1000000, 1280⟩]

theorem paths_rotate : ∃ x y z, paths = [x, y, z] ∧ (paths.map (·.toEpAddr)).Nodup ∧
    betterAddr x y = true ∧ betterAddr y z = true ∧ betterAddr z x = true :=
  ⟨_, _, _, rfl, by decide +kernel, by decide +kernel, by decide +kernel, by decide +kernel⟩

end Sample

end ScaleTail.Magicsock
