import ScaleTail.Conn25.Pool

/-! # The round robin of a pool -/

namespace ScaleTail.Conn25
open Net Netipx List IPRange

namespace IPSetIterator
variable {ranges : List IPRange} {a : Addr} {rest : List Addr}

def order (it : IPSetIterator ranges) : List Addr :=
  match it with
  | ⟨none, _, _⟩ => addrsOf ranges
  | ⟨some l, rangeIdx, within⟩ =>
    have bound := Within.bound within
    ranges[rangeIdx].after l ++ addrsOf (ranges.drop (rangeIdx + 1)) ++
      (addrsOf (ranges.take rangeIdx) ++ ranges[rangeIdx].upto l)

theorem addrsOf_split {i : Nat} (bound : i < ranges.length) :
    addrsOf ranges =
      addrsOf (ranges.take i) ++ (ranges[i].addrs ++ addrsOf (ranges.drop (i + 1))) := by
  conv_lhs => rw [← take_append_drop i ranges, drop_eq_getElem_cons bound]
  simp only [addrsOf, flatMap_append, flatMap_cons]

theorem enter_turn {i : Nat} (bound : i < ranges.length)
    (ahead : ranges[i].addrs ++ addrsOf (ranges.drop (i + 1)) ++ addrsOf (ranges.take i) = a :: rest) :
    (enter i bound).1 = a ∧ (enter i bound).2.order = rest ++ [a] := by
  rw [addrs_eq, cons_append, cons_append] at ahead
  obtain ⟨rfl, rfl⟩ := List.cons.inj ahead
  refine ⟨rfl, ?_⟩
  show _ ++ (_ ++ ranges[i].upto _) = _
  rw [upto_from]
  simp only [append_assoc]

theorem enter_first (nonempty : 0 < ranges.length) (ahead : addrsOf ranges = a :: rest) :
    (enter 0 nonempty).1 = a ∧ (enter 0 nonempty).2.order = rest ++ [a] := by
  apply enter_turn
  rw [← ahead, addrsOf_split nonempty]
  simp [addrsOf]

theorem next_turn (it : IPSetIterator ranges) (ahead : it.order = a :: rest) :
    ∃ it', it.next = .ok (a, it') ∧ it'.order = rest ++ [a] := by
  have reached : ∀ p : Addr × IPSetIterator ranges, it.next = .ok p →
      p.1 = a ∧ p.2.order = rest ++ [a] → ∃ it', it.next = .ok (a, it') ∧ it'.order = rest ++ [a] := by
    rintro ⟨b, it'⟩ taken ⟨rfl, order⟩
    exact ⟨it', taken, order⟩
  have nonempty : 0 < ranges.length := by
    rcases ranges with - | ⟨r, ranges⟩
    · obtain ⟨l, rangeIdx, within⟩ := it
      cases l with
      | none => cases ahead
      | some => exact absurd within.1 (Nat.not_lt_zero _)
    · exact Nat.succ_pos _
  obtain ⟨l, i, within⟩ := it
  cases l with
  | none =>
    refine reached _ ?_ (enter_first nonempty ahead)
    rw [next, dif_pos nonempty]
  | some l =>
    have bound := within.1
    by_cases ended : l = ranges[i].to_
    · -- the current range comes up last, after the earlier ones
      have last : addrsOf (ranges.drop (i + 1)) ++ (addrsOf (ranges.take i) ++ ranges[i].addrs) =
          a :: rest := by
        have behind : ranges[i].after l = [] := by rw [ended, after_to]
        have covered : ranges[i].upto l = ranges[i].addrs := by rw [ended, upto_to]
        rw [← ahead, order, behind, covered, nil_append]
      by_cases more : i + 1 < ranges.length
      · refine reached (enter (i + 1) more) ?_ (enter_turn more ?_)
        · rw [next, dif_pos nonempty]
          simp only [dif_pos ended, dif_pos more]
        · rw [← last, drop_eq_getElem_cons more, take_succ_eq_append_getElem bound]
          simp only [addrsOf, flatMap_cons, flatMap_append, flatMap_nil,
            append_nil, append_assoc]
      · refine reached (enter 0 nonempty) ?_ (enter_first nonempty ?_)
        · rw [next, dif_pos nonempty]
          simp only [dif_pos ended, dif_neg more]
        · rw [← last, addrsOf_split bound, drop_eq_nil_of_le (Nat.not_lt.1 more)]
          simp [addrsOf]
    · have less := lt_to within.2 ended
      refine reached (advance i bound l within.2 ended) ?_ ?_
      · rw [next, dif_pos nonempty]
        simp only [dif_neg ended]
      · rw [order, after_eq within.2 less, cons_append, cons_append] at ahead
        obtain ⟨rfl, rfl⟩ := List.cons.inj ahead
        refine ⟨get_next within.2 ended, ?_⟩
        show ranges[i].after (l.next.get _) ++ _ ++ (_ ++ ranges[i].upto (l.next.get _)) = _
        rw [get_next within.2 ended, upto_eq within.2 less]
        simp only [append_assoc]

theorem order_perm (it : IPSetIterator ranges) : it.order.Perm (addrsOf ranges) := by
  obtain ⟨l, i, within⟩ := it
  cases l with
  | none => exact .refl _
  | some =>
    have bound := within.1
    rw [order, addrsOf_split bound, addrs_split within.2]
    refine perm_append_comm.trans (.of_eq ?_)
    simp only [append_assoc]

theorem next_nothing (it : IPSetIterator ranges) (nothing : it.order = []) :
    it.next = .error .exhausted := by
  have none : addrsOf ranges = [] := by
    rw [← perm_nil, ← nothing]
    exact it.order_perm.symm
  rcases ranges with - | ⟨r, ranges⟩
  · exact dif_neg (lt_irrefl 0)
  · rw [addrsOf, flatMap_cons, addrs_eq] at none
    cases none

end IPSetIterator

namespace IPPool

def firstFree (ipp : IPPool) : Option Addr :=
  ipp.ipSetIterator.order.find? fun a => a ∉ ipp.inUse

def answer : Option Addr → Except PoolError Addr
  | some a => .ok a
  | none => .error .exhausted

theorem seek_eq {ranges : List IPRange} (inUse : List Addr) (a : Addr) {startedAt : Addr}
    {todo seen : List Addr} {it : IPSetIterator ranges} {rounds : Nat}
    (ahead : it.order = todo ++ startedAt :: seen) (fresh : startedAt ∉ todo)
    (enough : todo.length < rounds) :
    ∃ it', seek inUse startedAt rounds a it = some (answer ((a :: todo).find? (· ∉ inUse)), it') := by
  induction rounds generalizing a it todo seen with
  | zero => exact absurd enough (Nat.not_lt_zero _)
  | succ _ ih =>
    by_cases used : a ∈ inUse
    · rw [find?_cons_of_neg (by simpa using used), seek, if_pos used]
      cases todo with
      | nil =>
        obtain ⟨it', taken, -⟩ := it.next_turn ahead
        refine ⟨it', ?_⟩
        simp only [taken, if_true, find?_nil, answer]
      | cons b =>
        rw [cons_append] at ahead
        obtain ⟨it', taken, order⟩ := it.next_turn ahead
        have differ : b ≠ startedAt := fun same => fresh (same ▸ mem_cons_self)
        rw [append_assoc, cons_append] at order
        simp only [taken, if_neg differ]
        exact ih b order (fun member => fresh (mem_cons_of_mem _ member))
          (Nat.lt_of_succ_lt_succ enough)
    · rw [find?_cons_of_pos (by simpa using used), seek, if_neg used]
      exact ⟨it, rfl⟩

theorem length_addrsOf (ranges : List IPRange) :
    (addrsOf ranges).length = (ranges.map size).sum := by
  rw [addrsOf, length_flatMap]
  refine congrArg _ (map_congr_left fun r _ => ?_)
  rw [addrs, length_map, length_range]

theorem next_eq (ipp : IPPool) : ∃ ipp', ipp.next = some (answer ipp.firstFree, ipp') := by
  have perm := ipp.ipSetIterator.order_perm
  cases ahead : ipp.ipSetIterator.order with
  | nil =>
    refine ⟨ipp, ?_⟩
    simp only [next, ipp.ipSetIterator.next_nothing ahead, firstFree, ahead, find?_nil, answer]
  | cons startedAt todo =>
    rw [ahead] at perm
    have nodup := perm.nodup_iff.2 (nodup_addrsOf ipp.ipSet)
    have enough := perm.length_eq
    rw [length_addrsOf, length_cons] at enough
    have bound := (Nat.lt_succ_self todo.length).trans_eq enough
    obtain ⟨it, taken, order⟩ := ipp.ipSetIterator.next_turn ahead
    obtain ⟨it', found⟩ := seek_eq ipp.inUse startedAt order (nodup_cons.1 nodup).1 bound
    rw [firstFree, ahead]
    cases free : (startedAt :: todo).find? (· ∉ ipp.inUse) with
    | none =>
      rw [free] at found
      refine ⟨{ ipp with ipSetIterator := it' }, ?_⟩
      simp only [next, taken, found, answer]
    | some a =>
      rw [free] at found
      refine ⟨{ ipp with ipSetIterator := it', inUse := ipp.inUse.insert a }, ?_⟩
      simp only [next, taken, found, answer]

end IPPool

end ScaleTail.Conn25
