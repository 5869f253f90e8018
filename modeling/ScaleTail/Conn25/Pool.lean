import ScaleTail.Net.Netipx

/-! # Pools of addresses -/

namespace ScaleTail.Conn25
open Net Netipx

inductive PoolError
  | exhausted
  deriving DecidableEq

/-- The last address returned lies in the current range. Before the first one that is range zero. -/
def Within (ranges : List IPRange) : Option Addr → Nat → Prop
  | none, rangeIdx => rangeIdx = 0
  | some a, rangeIdx => ∃ bound : rangeIdx < ranges.length, a ∈ ranges[rangeIdx]

theorem Within.bound {ranges : List IPRange} {a : Addr} {rangeIdx : Nat}
    (within : Within ranges (some a) rangeIdx) : rangeIdx < ranges.length :=
  within.1

structure IPSetIterator (ranges : List IPRange) where
  last : Option Addr
  rangeIdx : Nat
  within : Within ranges last rangeIdx

namespace IPSetIterator
variable {ranges : List IPRange}

def new (ranges : List IPRange) : IPSetIterator ranges := ⟨none, 0, rfl⟩

def enter (rangeIdx : Nat) (bound : rangeIdx < ranges.length) : Addr × IPSetIterator ranges :=
  (ranges[rangeIdx].from_, ⟨some ranges[rangeIdx].from_, rangeIdx, bound, IPRange.from_mem _⟩)

variable {r : IPRange} {l : Addr}

section
variable (member : l ∈ r) (differ : l ≠ r.to_)
include member differ

theorem isSome_next : l.next.isSome := by
  rw [Addr.next_eq (member.1.trans r.valid.1) (IPRange.lt_to member differ)]
  rfl

theorem get_next :
    l.next.get (isSome_next member differ) = l.add 1 :=
  Option.get_of_eq_some _ (Addr.next_eq (member.1.trans r.valid.1) (IPRange.lt_to member differ))

theorem get_next_mem :
    l.next.get (isSome_next member differ) ∈ r := by
  rw [get_next member differ]
  exact (IPRange.add_one_mem member (IPRange.lt_to member differ)).1

end

def advance (rangeIdx : Nat) (bound : rangeIdx < ranges.length) (l : Addr)
    (member : l ∈ ranges[rangeIdx]) (differ : l ≠ ranges[rangeIdx].to_) :
    Addr × IPSetIterator ranges :=
  let a := l.next.get (isSome_next member differ)
  (a, ⟨some a, rangeIdx, bound, get_next_mem member differ⟩)

def next (it : IPSetIterator ranges) : Except PoolError (Addr × IPSetIterator ranges) :=
  if nonempty : 0 < ranges.length then
    match it with
    | ⟨none, _, _⟩ => .ok (enter 0 nonempty)
    | ⟨some l, rangeIdx, within⟩ =>
      have bound := Within.bound within
      if ended : l = ranges[rangeIdx].to_ then
        if more : rangeIdx + 1 < ranges.length then .ok (enter (rangeIdx + 1) more)
        -- back to the beginning
        else .ok (enter 0 nonempty)
      else .ok (advance rangeIdx bound l within.2 ended)
  else .error .exhausted

end IPSetIterator

structure IPPool where
  ipSet : IPSet
  ipSetIterator : IPSetIterator ipSet.ranges
  inUse : List Addr

def newIPPool (ipset : IPSet) : IPPool := ⟨ipset, .new ipset.ranges, []⟩

namespace IPPool

/-- The loop of `next`, at an address and back to the one it started at. It is given a bound on the
number of its rounds. -/
def seek {ranges : List IPRange} (inUse : List Addr) (startedAt : Addr) :
    Nat → Addr → IPSetIterator ranges → Option (Except PoolError Addr × IPSetIterator ranges)
  | 0, _, _ => none
  | rounds + 1, a, it =>
    if a ∈ inUse then
      match it.next with
      | .error e => some (.error e, it)
      | .ok (a, it) =>
        if a = startedAt then some (.error .exhausted, it) else seek inUse startedAt rounds a it
    else some (.ok a, it)

def next (ipp : IPPool) : Option (Except PoolError Addr × IPPool) :=
  match ipp.ipSetIterator.next with
  | .error e => some (.error e, ipp)
  | .ok (startedAt, it) =>
    match seek ipp.inUse startedAt (ipp.ipSet.ranges.map IPRange.size).sum startedAt it with
    | none => none
    | some (.error e, it) => some (.error e, { ipp with ipSetIterator := it })
    | some (.ok a, it) => some (.ok a, { ipp with ipSetIterator := it, inUse := ipp.inUse.insert a })

end IPPool

end ScaleTail.Conn25
