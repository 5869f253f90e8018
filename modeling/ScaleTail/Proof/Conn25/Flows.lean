import ScaleTail.Conn25.Datapath
import ScaleTail.Proof.Net.Flows

/-! # Flow tables -/

namespace ScaleTail.Net.Flowtrack.Cache
variable {V : Type}

def find (c : Cache V) (k : Tuple) : Option V := (c.ll.find? (·.1 = k)).map (·.2)

theorem get_fst (c : Cache V) (k : Tuple) : (c.get k).1 = c.find k := by
  unfold get find
  cases c.ll.find? (·.1 = k) <;> rfl

theorem find_cons (n : Nat) (l : List (Tuple × V)) (e : Tuple × V) (k : Tuple) :
    (⟨n, e :: l⟩ : Cache V).find k = if k = e.1 then some e.2 else (⟨n, l⟩ : Cache V).find k := by
  by_cases same : e.1 = k
  · simp [find, same]
  · simp [find, same, Ne.symm same]

theorem find?_eraseP_ne (l : List (Tuple × V)) {j k : Tuple} (differ : k ≠ j) :
    (l.eraseP (·.1 = j)).find? (·.1 = k) = l.find? (·.1 = k) := by
  induction l with
  | nil => rfl
  | cons e _ ih =>
    by_cases same : e.1 = j
    · have other : e.1 ≠ k := fun key => differ (key.symm.trans same)
      rw [List.eraseP_cons_of_pos (by simpa using same), List.find?_cons_of_neg (by simpa using other)]
    · rw [List.eraseP_cons_of_neg (by simpa using same), List.find?_cons, List.find?_cons, ih]

theorem find_moveToFront (c : Cache V) (e : Tuple × V) (k : Tuple) :
    (c.moveToFront e).find k = if k = e.1 then some e.2 else c.find k := by
  rw [moveToFront, find_cons]
  split
  · rfl
  next differ => exact congrArg _ (find?_eraseP_ne c.ll differ)

@[simp] theorem find_get (c : Cache V) (j k : Tuple) : (c.get j).2.find k = c.find k := by
  unfold get
  cases found : c.ll.find? (·.1 = j) with
  | none => rfl
  | some e =>
    have key : e.1 = j := by simpa using List.find?_some found
    show (c.moveToFront e).find k = _
    rw [find_moveToFront]
    split
    next same =>
      rw [find, same, key, found]
      rfl
    · rfl

theorem find_remove (c : Cache V) (j k : Tuple) :
    (c.remove j).find k = if k = j then none else c.find k := by
  unfold remove find
  rw [List.find?_filter]
  split
  next same =>
    simp [same]
  next differ =>
    congr 2
    funext e
    by_cases key : e.1 = k
    · simp [key, differ]
    · simp [key]

theorem find_add (c : Cache V) (unbounded : c.maxEntries = 0) (j k : Tuple) (v : V) :
    (c.add j v).find k = if k = j then some v else c.find k := by
  unfold add
  split
  · exact c.find_moveToFront (j, v) k
  show (if c.maxEntries ≠ 0 ∧ _ then _ else _ : Cache V).find k = _
  rw [if_neg fun bounded => bounded.1 unbounded]
  exact find_cons ..

end ScaleTail.Net.Flowtrack.Cache

namespace ScaleTail.Conn25
open Net Flowtrack Cache

variable {t : FlowTable} {o : Origin} {k : Tuple}

theorem Origin.other_ne (o : Origin) : o.other ≠ o := by
  cases o <;> decide

namespace FlowTable

def view (t : FlowTable) (o : Origin) (k : Tuple) : Option CachedFlow := (t.cache o).find k

def Unbounded (t : FlowTable) : Prop := ∀ o, (t.cache o).maxEntries = 0

@[simp] theorem cache_setCache (c : Cache CachedFlow) : (t.setCache c o).cache o = c := by
  cases o <;> rfl

theorem cache_setCache_ne (c : Cache CachedFlow) {o' : Origin} (differ : o' ≠ o) :
    (t.setCache c o).cache o' = t.cache o' := by
  cases o <;> cases o'
  all_goals first | rfl | exact absurd rfl differ

theorem lookup_fst (t : FlowTable) (k : Tuple) (o : Origin) :
    (t.lookup k o).1 = (t.view o k).map (·.flow) := by
  show ((t.cache o).get k).1.map _ = _
  rw [get_fst]
  rfl

@[simp] theorem view_lookup (t : FlowTable) (j : Tuple) (o : Origin) : (t.lookup j o).2.view = t.view := by
  funext o' k
  show ((t.setCache ((t.cache o).get j).2 o).cache o').find k = (t.cache o').find k
  by_cases same : o' = o
  · rw [same, cache_setCache, find_get]
  · rw [cache_setCache_ne _ same]

theorem Unbounded.lookup (unbounded : t.Unbounded) (j : Tuple) : (t.lookup j o).2.Unbounded := by
  intro o'
  show ((t.setCache ((t.cache o).get j).2 o).cache o').maxEntries = 0
  by_cases same : o' = o
  · rw [same, cache_setCache, get_maxEntries]
    exact unbounded o
  · rw [cache_setCache_ne _ same]
    exact unbounded o'

section NewFlow
variable {fwd rev : FlowData}

theorem newFlow_eq (fresh : t.view o fwd.tuple = none) :
    t.newFlow o fwd rev =
      let revCache := (t.cache o.other).get rev.tuple
      let fwdCache := ((t.cache o).get fwd.tuple).2
      (t.setCache ((revCache.1.elim fwdCache fun old => fwdCache.remove old.paired).add fwd.tuple
        ⟨fwd, rev.tuple⟩) o).setCache (revCache.2.add rev.tuple ⟨rev, fwd.tuple⟩) o.other := by
  have miss : ((t.cache o).get fwd.tuple).1 = none := (get_fst ..).trans fresh
  simp only [newFlow, miss, Option.elim_none]

section
variable (unbounded : t.Unbounded) (fresh : t.view o fwd.tuple = none)
include unbounded fresh

theorem view_newFlow_other :
    (t.newFlow o fwd rev).view o.other k =
      if k = rev.tuple then some ⟨rev, fwd.tuple⟩ else t.view o.other k := by
  rw [newFlow_eq fresh]
  unfold view
  rw [cache_setCache, find_add, find_get]
  rw [get_maxEntries]
  exact unbounded _

theorem view_newFlow :
    (t.newFlow o fwd rev).view o k =
      if k = fwd.tuple then some ⟨fwd, rev.tuple⟩
      else if (t.view o.other rev.tuple).any (·.paired = k) then none else t.view o k := by
  rw [newFlow_eq fresh]
  unfold view
  rw [cache_setCache_ne _ o.other_ne.symm, cache_setCache, get_fst]
  cases (t.cache o.other).find rev.tuple with
  | none =>
    rw [Option.elim_none, find_add, find_get]
    · simp
    · rw [get_maxEntries]
      exact unbounded o
  | some =>
    rw [Option.elim_some, find_add, find_remove, find_get]
    · simp [eq_comm]
    show ((t.cache o).get fwd.tuple).2.maxEntries = 0
    rw [get_maxEntries]
    exact unbounded o

theorem Unbounded.newFlow :
    (t.newFlow o fwd rev).Unbounded := by
  rw [newFlow_eq fresh]
  intro o'
  by_cases same : o' = o.other
  · rw [same, cache_setCache, add_maxEntries, get_maxEntries]
    exact unbounded _
  · have back : o' = o := by
      cases o <;> cases o'
      all_goals first | rfl | exact absurd rfl same
    rw [cache_setCache_ne _ same, back, cache_setCache, add_maxEntries]
    cases ((t.cache o.other).get rev.tuple).1 with
    | none | some => exact (get_maxEntries ..).trans (unbounded o)

end

end NewFlow

end FlowTable

end ScaleTail.Conn25
