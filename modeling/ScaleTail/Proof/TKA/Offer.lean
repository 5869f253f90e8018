import ScaleTail.TKA.Sync
import ScaleTail.Proof.TKA.Restart

/-! # The shape of a sync offer -/

namespace ScaleTail.TKA

open Lib ForkSystem List Nat

/-- The hashes that the walk of `SyncOffer` lists, on a chain given from the head down. -/
def listing : Nat → Nat → Nat → List AUMHash → List AUMHash
  | _, _, _, [] => []
  | 0, _, _, _ :: _ => []
  | n + 1, i, skip, h :: hs =>
    if 0 < i ∧ i % skip = 0 then h :: listing n (i + 1) (skip <<< ancestorsSkipShift) hs
    else listing n (i + 1) skip hs

theorem listing_sublist (n i skip : Nat) (hs : List AUMHash) : listing n i skip hs <+ hs := by
  induction hs generalizing n i skip with
  | nil => simp [listing]
  | cons h _ ih =>
    cases n with
    | zero => exact nil_sublist _
    | succ n =>
      rw [listing]
      split
      · exact (ih n (i + 1) _).cons_cons h
      · exact (ih n (i + 1) skip).cons h

variable {hs : List AUMHash}

theorem listing_sublist_iff {r : AUMHash} (fresh : r ∉ hs) {n i skip : Nat} :
    listing n i skip (hs ++ [r]) ++ [r] <+ hs ++ [r] ↔ r ∉ listing n i skip (hs ++ [r]) := by
  constructor
  · intro sub again
    have counts := sub.count_le r
    have := count_pos_iff.2 again
    simp only [count_append, count_eq_zero.2 fresh] at counts
    omega
  · intro once
    -- without the oldest the listed hashes come from the AUMs above it
    obtain ⟨above, rest, eq, subAbove, subRest⟩ :=
      sublist_append_iff.1 (listing_sublist n i skip (hs ++ [r]))
    have none : rest = [] := by
      refine eq_nil_iff_forall_not_mem.2 fun x hx => once ?_
      rw [eq, ← mem_singleton.1 (subRest.subset hx)]
      exact mem_append_right above hx
    rw [eq, none, append_nil]
    exact subAbove.append (.refl _)

theorem listed_iff {i skip : Nat} (pos : 0 < skip) (le : i ≤ skip) :
    0 < i ∧ i % skip = 0 ↔ i = skip := by
  constructor
  · rintro ⟨started, divides⟩
    exact le.antisymm (le_of_dvd started (dvd_of_mod_eq_zero divides))
  · rintro rfl
    exact ⟨pos, mod_self i⟩

/-- The skip is never behind the index, so the multiples that are listed are its powers. -/
theorem mem_listing_iff {r : AUMHash} (fresh : r ∉ hs) {n i skip : Nat}
    (pos : 0 < skip) (le : i ≤ skip) :
    r ∈ listing n i skip (hs ++ [r]) ↔ hs.length < n ∧ ∃ k, i + hs.length = skip * 4 ^ k := by
  induction hs generalizing n i skip with
  | nil =>
    cases n with
    | zero => simp [listing]
    | succ =>
      have here : (∃ k, i = skip * 4 ^ k) ↔ i = skip := by
        constructor
        · rintro ⟨k, rfl⟩
          exact le.antisymm (Nat.le_mul_of_pos_right skip (by positivity))
        · rintro rfl
          exact ⟨0, by simp⟩
      simp only [nil_append, listing, length_nil, zero_lt_succ, true_and, add_zero, here,
        listed_iff pos le]
      split <;> simp [*]
  | cons _ hs ih =>
    obtain ⟨differ, fresh⟩ := not_or.1 (mt mem_cons.2 fresh)
    cases n with
    | zero => simp [listing]
    | succ =>
      have place : i + 1 + hs.length = i + (hs.length + 1) := by omega
      simp only [cons_append, listing, listed_iff pos le, length_cons, add_lt_add_iff_right]
      split
      next at_skip =>
        have shift : skip <<< ancestorsSkipShift = skip * 4 := shiftLeft_eq skip 2
        rw [shift, mem_cons, or_iff_right differ, ih fresh (by omega) (by omega), place]
        refine and_congr_right fun _ => ⟨fun ⟨k, eq⟩ => ⟨k + 1, by rw [eq]; ring⟩, ?_⟩
        rintro ⟨k, eq⟩
        cases k with
        | zero => omega
        | succ k => exact ⟨k, by rw [eq]; ring⟩
      · rw [ih fresh pos (by omega), place]

theorem repeated_iff (d : Nat) :
    (d < 400 ∧ ∃ k, d = ancestorsSkipStart * 4 ^ k) ↔ d ∈ [4, 16, 64, 256] := by
  simp only [ancestorsSkipStart]
  constructor
  · rintro ⟨lt, k, rfl⟩
    have small : k < 4 := by
      by_contra large
      have := Nat.pow_le_pow_right (n := 4) (by decide) (Nat.le_of_not_lt large)
      omega
    interval_cases k <;> decide
  · simp only [mem_cons, not_mem_nil, or_false]
    rintro (rfl | rfl | rfl | rfl)
    exacts [⟨by decide, 0, rfl⟩, ⟨by decide, 1, rfl⟩, ⟨by decide, 2, rfl⟩, ⟨by decide, 3, rfl⟩]

section
variable [Crypto] {U : Set AUM} {X r : AUM} {l : List AUM}

theorem copyPrev_child (free : CollisionFree U X) {p c : AUM} (child : (forks U X).child p c)
    (curs : AUMHash) : c.copyPrev curs = p.hash := by
  obtain ⟨⟨n, s, lineage⟩, known, link⟩ := child
  obtain ⟨s', -, applied, -⟩ := lineage.child free known link
  rw [AUM.copyPrev, lineage.prev applied, Option.getD_some, AUMHash.copyFrom_bytes]

variable {σ : Type} [Chonk σ] {storage : σ} {a : Authority}

theorem offerLoop_trail (free : CollisionFree U X) {y : AUM} (root : r ∈ stored storage)
    (trail : (forks U X).Trail (stored storage) r l y) (n i skip : Nat) (acc : List AUMHash) :
    offerLoop storage r.hash n i skip y.hash acc =
      .ok (acc ++ listing n i skip ((r :: l).reverse.map AUM.hash)) := by
  induction n generalizing y l i skip acc with
  | zero =>
    cases h : (r :: l).reverse.map AUM.hash <;> simp [offerLoop, listing]
  | succ _ ih =>
    have read : Chonk.aum storage y.hash = .ok y := trail.all_mem root y trail.final_mem
    simp only [offerLoop, read]
    rcases trail.last_step with ⟨rfl, rfl⟩ | ⟨k, p, rfl, before, child⟩
    · simp only [if_true, reverse_singleton, map_singleton, listing]
      split <;> simp
    have inner : y.hash ≠ r.hash := by
      intro same
      have again : y = r := by
        rw [same] at read
        exact Except.ok.inj (read.symm.trans root)
      have nodup := trail.nodup (forks_graded free)
      simp [again] at nodup
    have chain : (r :: (k ++ [y])).reverse = y :: (r :: k).reverse := by simp
    rw [if_neg inner, copyPrev_child free child, ih before, chain, map_cons, listing]
    split <;> simp

theorem InSync.syncOffer_eq [LawfulChonk σ] (free : CollisionFree U X) (sync : InSync U X storage a) :
    ∃ l, (forks U X).Trail (stored storage) a.oldestAncestor l a.head ∧
      a.syncOffer storage = .ok ⟨a.head.hash,
        listing maxSyncHeadIntersectionIter 0 ancestorsSkipStart
          ((a.oldestAncestor :: l).reverse.map AUM.hash) ++ [a.oldestAncestor.hash]⟩ := by
  obtain ⟨n, s, l, -, leads⟩ := sync.active
  obtain ⟨m, lineage⟩ := sync.lineage free
  refine ⟨l, leads.1.trail, ?_⟩
  rw [Authority.syncOffer, headHash_eq lineage, offerLoop_trail free sync.tree.root.1 leads.1.trail,
    ok_bind, nil_append]

end

/-- The hashes of the proper ancestors of a head, from newer to older, or of the head itself where
the chain has one AUM: `l` are the AUMs after the oldest. -/
def properAncestors [Crypto] (oldest : AUM) (l : List AUM) : List AUMHash :=
  if l = [] then [oldest.hash] else (oldest :: l).dropLast.reverse.map AUM.hash

theorem syncOffer_shaped_iff [Crypto] {σ : Type} [CompactableChonk σ] [LawfulCompactableChonk σ]
    {U : Set AUM} {X : AUM} {storage : σ} {a : Authority} (free : CollisionFree U X)
    (run : Reachable U X storage a) :
    ∃ l offer, (forks U X).Trail (stored storage) a.oldestAncestor l a.head ∧
      (properAncestors a.oldestAncestor l).Nodup ∧
      a.syncOffer storage = .ok offer ∧ offer.head = a.head.hash ∧
      (offer.ancestors <+ properAncestors a.oldestAncestor l ∧
          offer.ancestors.getLast? = some a.oldestAncestor.hash ↔
        l.length ∉ [4, 16, 64, 256]) := by
  have sync := run.inSync free
  have root := sync.tree.root.1
  obtain ⟨l, trail, offered⟩ := sync.syncOffer_eq free
  have nodup : ((a.oldestAncestor :: l).reverse.map AUM.hash).Nodup := by
    refine Nodup.map_on (fun x hx y hy same => ?_)
      (nodup_reverse.2 (trail.nodup (forks_graded free)))
    exact stored_injective (trail.all_mem root x (mem_reverse.1 hx))
      (trail.all_mem root y (mem_reverse.1 hy)) same
  rcases trail.last_step with ⟨rfl, -⟩ | ⟨k, p, rfl, -, -⟩
  · have none : listing maxSyncHeadIntersectionIter 0 ancestorsSkipStart [a.oldestAncestor.hash] = [] :=
      rfl
    exact ⟨[], _, trail, by simp [properAncestors], offered, rfl, by simp [properAncestors, none]⟩
  have proper : properAncestors a.oldestAncestor (k ++ [a.head]) =
      k.reverse.map AUM.hash ++ [a.oldestAncestor.hash] := by
    rw [properAncestors, if_neg (by simp), ← cons_append, dropLast_concat, reverse_cons, map_append]
    rfl
  have chain : (a.oldestAncestor :: (k ++ [a.head])).reverse.map AUM.hash =
      a.head.hash :: (k.reverse.map AUM.hash ++ [a.oldestAncestor.hash]) := by simp
  rw [chain] at nodup offered
  have nodup' := (nodup_cons.1 nodup).2
  have fresh : a.oldestAncestor.hash ∉ k.reverse.map AUM.hash := fun again =>
    (nodup_append.1 nodup').2.2 _ again _ (mem_singleton_self _) rfl
  refine ⟨_, _, trail, proper ▸ nodup', offered, rfl, ?_⟩
  rw [proper, maxSyncHeadIntersectionIter, listing, if_neg (by simp), listing_sublist_iff fresh,
    mem_listing_iff fresh (by decide) (by decide), length_map, length_reverse]
  have shift : (k.length < 399 ∧ ∃ j, 0 + 1 + k.length = ancestorsSkipStart * 4 ^ j) ↔
      k.length + 1 ∈ [4, 16, 64, 256] := by
    rw [← repeated_iff, zero_add, add_comm 1, Nat.add_lt_add_iff_right (k := 1)]
  simp [shift]

section
open Sample

set_option maxRecDepth 2000

attribute [local instance] Sample.crypto

def fiveLong : Mem := (started.inform (bootstrap memory genesis).2 (span 0 4)).2.2

theorem atFourth_reachable : Reachable (grove rival 4) genesis fiveLong (atTrunk 4) :=
  (started_reachable (trunk_mem (zero_le 4))).inform span_mem (Prod.ext rfl (Prod.ext rfl rfl))

/-- The fourth parent is the oldest: it is listed at index 4 and added once more. -/
theorem fiveLong_repeated : Reachable (grove rival 4) genesis fiveLong (atTrunk 4) ∧
    (atTrunk 4).syncOffer fiveLong = .ok ⟨(trunk 4).hash, [genesis.hash, genesis.hash]⟩ :=
  ⟨atFourth_reachable, rfl⟩

theorem atTip_shaped : ∃ l offer,
    (forks {x | x ∈ [genesis, first, middle, tip]} genesis).Trail (stored uncompacted) genesis l tip ∧
      (properAncestors genesis l).Nodup ∧ atTip.syncOffer uncompacted = .ok offer ∧
      offer.head = tip.hash ∧ (offer.ancestors <+ properAncestors genesis l ∧
        offer.ancestors.getLast? = some genesis.hash ↔ l.length ∉ [4, 16, 64, 256]) :=
  syncOffer_shaped_iff atTip_free atTip_reachable

end

end ScaleTail.TKA
