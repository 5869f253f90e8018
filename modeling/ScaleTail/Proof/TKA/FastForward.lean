import ScaleTail.Proof.TKA.StateAt

/-! # Fork resolution -/

namespace ScaleTail.TKA

open Lib ForkSystem LawfulChonk List

variable {s : State} {cs : List AUM} {c : AUM}

theorem weigh_ok (weights : ∀ c ∈ cs, ∃ w, c.weight s = .ok w) :
    weigh s cs = .ok (cs.map fun c => (weightIn s c, c)) := by
  induction cs with
  | nil => rfl
  | cons _ _ ih =>
    obtain ⟨⟨w, hw⟩, rest⟩ := forall_mem_cons.1 weights
    rw [weigh, hw, ok_bind, ih rest, ok_bind, map_cons, weightIn, hw]

section
variable [Crypto]

def pairKey (w : UInt64 × AUM) : ForkKey :=
  toLex (OrderDual.toDual w.1.toNat, toLex (decide (w.2.messageKind ≠ .removeKey), w.2.hash))

theorem sortsBefore_iff {j i : UInt64 × AUM} : sortsBefore j i = true ↔ pairKey j < pairKey i := by
  unfold sortsBefore pairKey
  simp only [Prod.Lex.toLex_lt_toLex, OrderDual.toDual_lt_toDual, EmbeddingLike.apply_eq_iff_eq]
  by_cases weights : i.1 = j.1
  · by_cases hi : i.2.messageKind = .removeKey <;> by_cases hj : j.2.messageKind = .removeKey
    · simp [weights, hi, hj]
    · simp [weights, hi, hj, Ne.symm hj]
    · simp [weights, hi, hj]
    · simp [weights, hi, hj]
  · have differ : j.1.toNat ≠ i.1.toNat := fun same => weights (UInt64.toNat_inj.1 same).symm
    simp [weights, differ, UInt64.lt_iff_toNat_lt]

theorem sort_head {ws : List (UInt64 × AUM)} (nonempty : ws ≠ []) : ∃ best others,
    (ws.insertionSort fun x y => sortsBefore y x = false) = best :: others ∧ best ∈ ws ∧
      ∀ w ∈ ws, pairKey best ≤ pairKey w := by
  let r : UInt64 × AUM → UInt64 × AUM → Prop := fun x y => sortsBefore y x = false
  have order : ∀ x y, r x y ↔ pairKey x ≤ pairKey y := by
    intro x y
    rw [← not_lt, ← sortsBefore_iff, Bool.not_eq_true]
  have : Std.Total r := ⟨fun x y => by simpa only [order] using le_total _ _⟩
  have : IsTrans _ r := ⟨fun x y z => by simpa only [order] using le_trans⟩
  have sorted := pairwise_insertionSort r ws
  have perm := perm_insertionSort r ws
  cases hs : ws.insertionSort r with
  | nil =>
    rw [hs] at perm
    exact absurd perm.symm.eq_nil nonempty
  | cons best others =>
    rw [hs] at perm sorted
    refine ⟨best, others, rfl, perm.subset mem_cons_self, fun w hw => ?_⟩
    rcases mem_cons.1 (perm.symm.subset hw) with rfl | later
    · exact le_rfl
    · exact (order _ _).1 (rel_of_pairwise_cons sorted later)

theorem pickNextAUM_spec (nonempty : cs ≠ []) (weights : ∀ c ∈ cs, ∃ w, c.weight s = .ok w) :
    ∃ c ∈ cs, pickNextAUM s cs = .ok c ∧ ∀ d ∈ cs, forkKey s c ≤ forkKey s d := by
  match cs, nonempty with
  | [c], _ => exact ⟨c, by simp, rfl, by simp⟩
  | a :: b :: rest, _ =>
    obtain ⟨best, others, sorted, mem, least⟩ :=
      sort_head (by simp : (a :: b :: rest).map (fun c => (weightIn s c, c)) ≠ [])
    obtain ⟨c, hc, rfl⟩ := mem_map.1 mem
    refine ⟨c, hc, ?_, fun d hd => least _ (mem_map_of_mem hd)⟩
    unfold pickNextAUM
    simp only [weigh_ok weights, ok_bind, sorted]

variable {σ : Type} [Chonk σ] [LawfulChonk σ] {U : Set AUM} {X p q : AUM} {storage : σ}
  {t : State} {n m maxIter : Nat} {path : List AUM}

theorem Lineage.primary (free : CollisionFree U X) (lineage : Lineage U X n p s) {S : Set AUM}
    (primary : (forks U X).Primary S p s path q t) : Lineage U X (n + path.length) q t := by
  induction primary generalizing n with
  | refl => exact lineage
  | @step _ _ _ _ _ _ _ picks applied _ ih =>
    obtain ⟨s'', -, ok, lineage'⟩ := lineage.child free picks.2.1.2.1 picks.2.1.2.2
    rw [forks_apply, ok, Except.ok.injEq] at applied
    subst applied
    rw [length_cons, ← Nat.add_assoc, Nat.add_right_comm]
    exact ih lineage'

section
variable (free : CollisionFree U X) (verified : Verified U X storage)
include free verified

theorem advance (lineage : Lineage U X n p s) : ∃ cs, Chonk.childAUMs storage p.hash = .ok cs ∧
      ((forks U X).Leaf (stored storage) p ∧ advanceByPrimary s cs = .ok (none, s) ∨
        ∃ c s', (forks U X).Picks (stored storage) s p c ∧ (forks U X).apply s c = some s' ∧
          Lineage U X (n + 1) c s' ∧ advanceByPrimary s cs = .ok (some c, s')) := by
  obtain ⟨cs, children, spec⟩ := verified.childAUMs free ⟨n, s, lineage⟩
  refine ⟨cs, children, ?_⟩
  by_cases nonempty : cs = []
  · refine .inl ⟨fun c hc child => ?_, by simp [advanceByPrimary, nonempty]⟩
    have := (spec c).2 ⟨hc, child⟩
    simp [nonempty] at this
  right
  have weights : ∀ c ∈ cs, ∃ w, c.weight s = .ok w := by
    intro c hc
    obtain ⟨_, _, hk⟩ := verified.known c ((spec c).1 hc).1
    exact AUM.weight_ok hk.static lineage.valid.keys
  obtain ⟨c, hc, picked, least⟩ := pickNextAUM_spec nonempty weights
  obtain ⟨mem, child⟩ := (spec c).1 hc
  obtain ⟨s', -, applied, lineage'⟩ := lineage.child free child.2.1 child.2.2
  refine ⟨c, s', ⟨mem, child, ?_⟩, forks_apply.2 applied, lineage', ?_⟩
  · exact fun d hd child' => least d ((spec d).2 ⟨hd, child'⟩)
  · simp [advanceByPrimary, nonempty, picked, applied]

theorem exists_leads (lineage : Lineage U X n p s)
    (bounded : ∀ path q, (forks U X).Trail (stored storage) p path q → path.length < m) :
    ∃ path q t, (forks U X).Leads (stored storage) p s path q t := by
  induction m generalizing p s n with
  | zero => exact absurd (bounded [] p (.refl p)) (by simp)
  | succ _ ih =>
    obtain ⟨cs, -, ⟨leaf, -⟩ | ⟨c, s', picks, applied, lineage', -⟩⟩ :=
      advance free verified lineage
    · exact ⟨[], p, s, .refl p s, leaf⟩
    · obtain ⟨path, q, t, leads⟩ := ih lineage' fun path q trail =>
        Nat.lt_of_succ_lt_succ (bounded (c :: path) q (.step picks.1 picks.2.1 trail))
      exact ⟨c :: path, q, t, leads.cons picks applied⟩

section
variable {γ : Type} {record : γ → AUM → γ} {acc acc' : γ}

def recording (record : γ → AUM → γ) (acc : γ) (curs : AUM) (_ : State) : Bool × γ :=
  (false, record acc curs)

theorem fastForwardLoop_eq_ok (lineage : Lineage U X n p s) :
    fastForwardLoop storage advanceByPrimary (recording record) maxIter m p s acc = .ok (q, t, acc') ↔
      ∃ path, (forks U X).Leads (stored storage) p s path q t ∧ path.length < m ∧
        acc' = (p :: path).foldl record acc := by
  induction m generalizing p s n acc with
  | zero => simp [fastForwardLoop]
  | succ _ ih =>
    obtain ⟨cs, children, h⟩ := advance free verified lineage
    rw [fastForwardLoop]
    simp only [recording, children]
    rcases h with ⟨leaf, stop⟩ | ⟨c, s', picks, applied, lineage', step⟩
    · simp only [stop, Except.ok.injEq, Prod.mk.injEq]
      constructor
      · rintro ⟨rfl, rfl, rfl⟩
        exact ⟨[], ⟨.refl _ _, leaf⟩, Nat.succ_pos _, rfl⟩
      · rintro ⟨path, leads, -, rfl⟩
        obtain ⟨rfl, rfl, rfl⟩ := leads.unique (forks_graded free) ⟨.refl p s, leaf⟩
        exact ⟨rfl, rfl, rfl⟩
    · simp only [step]
      refine (ih lineage').trans ⟨?_, ?_⟩
      · rintro ⟨path, leads, short, recorded⟩
        exact ⟨c :: path, leads.cons picks applied, Nat.succ_lt_succ short, recorded⟩
      · rintro ⟨path, leads, short, recorded⟩
        obtain ⟨rest, rfl, leads'⟩ := leads.tail (forks_graded free) picks applied
        exact ⟨rest, leads', Nat.lt_of_succ_lt_succ short, recorded⟩

theorem fastForward_eq_ok (mem : p ∈ stored storage) (lineage : Lineage U X n p s) :
    fastForward storage maxIter s (recording record) acc = .ok (q, t, acc') ↔
      ∃ path, (forks U X).Leads (stored storage) p s path q t ∧ path.length < maxIter ∧
        acc' = (p :: path).foldl record acc := by
  have read : Chonk.aum storage p.hash = .ok p := mem
  simp only [fastForward, fastForwardWithAdvancer, lineage.last, read]
  exact fastForwardLoop_eq_ok free verified lineage

end

theorem fastForwardLoop_doneAt (lineage : Lineage U X n p s)
    (leads : (forks U X).Leads (stored storage) p s path q t) (enough : path.length < m) (h : AUMHash) : ∃ x u,
      fastForwardLoop storage advanceByPrimary (doneAt h) maxIter m p s () = .ok (x, u, ()) ∧
        (x.hash = h ↔ ∃ y ∈ p :: path, y.hash = h) := by
  induction m generalizing p s n path with
  | zero => omega
  | succ _ ih =>
    rw [fastForwardLoop]
    by_cases here : p.hash = h
    · exact ⟨p, s, by simp [doneAt, here], by simp [here]⟩
    obtain ⟨cs, children, h⟩ := advance free verified lineage
    simp only [doneAt, here, decide_false, children]
    rcases h with ⟨leaf, stop⟩ | ⟨c, s', picks, applied, lineage', step⟩
    · obtain ⟨rfl, rfl, rfl⟩ := leads.unique (forks_graded free) ⟨.refl p s, leaf⟩
      exact ⟨q, t, by simp [stop], by simp⟩
    · obtain ⟨rest, rfl, leads'⟩ := leads.tail (forks_graded free) picks applied
      simp only [step]
      obtain ⟨x, u, walked, reached⟩ := ih lineage' leads' (by simpa using enough)
      exact ⟨x, u, walked, by simpa [here] using reached⟩

theorem fastForward_doneAt (mem : p ∈ stored storage) (lineage : Lineage U X n p s)
    (leads : (forks U X).Leads (stored storage) p s path q t) (enough : path.length < maxIter)
    (h : AUMHash) : ∃ x u, fastForward storage maxIter s (doneAt h) () = .ok (x, u, ()) ∧
      (x.hash = h ↔ ∃ y ∈ p :: path, y.hash = h) := by
  have read : Chonk.aum storage p.hash = .ok p := mem
  simp only [fastForward, fastForwardWithAdvancer, lineage.last, read]
  exact fastForwardLoop_doneAt free verified lineage leads enough h

end

end

end ScaleTail.TKA
