import ScaleTail.Appc.Connector

namespace ScaleTail.Appc
open Go Net List AList Prefix

variable {m : Domains} {d d' : Bytes} {a a' : Addr} {p : Prefix} {routes : List Prefix}

def Recorded (m : Domains) (d : Bytes) (a : Addr) : Prop := a ∈ (m.lookup d).getD []

theorem hasDomainAddr_iff : hasDomainAddr m d a = true ↔ Recorded m d a := by
  simp [hasDomainAddr, Recorded]

theorem Recorded.mem (recorded : Recorded m d a) : d ∈ m := by
  by_contra absent
  rw [Recorded, lookup_eq_none.2 absent] at recorded
  simp at recorded

theorem recorded_empty : ¬ Recorded ∅ d a := by
  intro recorded
  exact absurd recorded.mem (notMem_empty d)

theorem recorded_of_entry {e : Sigma fun _ : Bytes => List Addr} (mem : e ∈ m.entries) (ha : a ∈ e.2) :
    Recorded m e.1 a := by
  rw [Recorded, show m.lookup e.1 = some e.2 from mem_lookup_iff.2 mem]
  exact ha

theorem Recorded.entry (recorded : Recorded m d a) : ∃ e ∈ m.entries, e.1 = d ∧ a ∈ e.2 := by
  unfold Recorded at recorded
  cases found : m.lookup d with
  | none => simp [found] at recorded
  | some addrs => exact ⟨⟨d, addrs⟩, mem_lookup_iff.1 found, rfl, by simpa [found] using recorded⟩

theorem recorded_insert {addrs : List Addr} :
    Recorded (m.insert d addrs) d' a ↔ (d' = d ∧ a ∈ addrs) ∨ (d' ≠ d ∧ Recorded m d' a) := by
  by_cases same : d' = d
  · subst same
    simp [Recorded]
  · simp [Recorded, lookup_insert_ne same, same]

theorem recorded_addDomainAddr :
    Recorded (addDomainAddr m d a) d' a' ↔ Recorded m d' a' ∨ (d' = d ∧ a' = a) := by
  rw [addDomainAddr, recorded_insert]
  by_cases same : d' = d
  · subst same
    simp [Recorded]
  · simp [same]

theorem mem_addDomainAddr : d' ∈ addDomainAddr m d a ↔ d' = d ∨ d' ∈ m := by
  simp [addDomainAddr]

theorem single_of_isSingleIP (one : p.isSingleIP = true) : single p.addr = p := by
  obtain ⟨addr, bits, le⟩ := p
  have same : bits = addr.bitLen := by simpa [isSingleIP] using one
  subst same
  rfl

@[simp] theorem addr_single : (single a).addr = a := rfl

theorem isSingleIP_single : (single a).isSingleIP = true := by
  simp [isSingleIP, single]

theorem single_inj (same : single a = single a') : a = a' :=
  congrArg addr same

theorem recorded_recordRoutes :
    Recorded (recordRoutes m d routes) d' a ↔
      Recorded m d' a ∨ (d' = d ∧ single a ∈ routes) := by
  unfold recordRoutes
  induction routes generalizing m with
  | nil => simp
  | cons r _ ih =>
    rw [foldl_cons, ih]
    by_cases new : (r.isSingleIP && !hasDomainAddr m d r.addr) = true
    · rw [if_pos new, recorded_addDomainAddr]
      have one := single_of_isSingleIP (Bool.and_eq_true_iff.1 new).1
      have same : single a = r ↔ a = r.addr := by
        rw [← one]
        exact ⟨fun h => single_inj h, fun h => by rw [h]; rfl⟩
      rw [mem_cons, same]
      tauto
    · rw [if_neg new, mem_cons]
      have old : single a = r → Recorded m d a := by
        rintro rfl
        by_contra absent
        exact new (by simpa [isSingleIP_single, ← hasDomainAddr_iff] using absent)
      constructor
      · rintro (recorded | ⟨rfl, mem⟩)
        · exact .inl recorded
        · exact .inr ⟨rfl, .inr mem⟩
      · rintro (recorded | ⟨rfl, same | mem⟩)
        · exact .inl recorded
        · exact .inl (old same)
        · exact .inr ⟨rfl, mem⟩

theorem mem_recordRoutes (mem : d' ∈ recordRoutes m d routes) :
    d' = d ∨ d' ∈ m := by
  induction routes generalizing m with
  | nil => exact .inr mem
  | cons _ _ ih =>
    obtain same | mem := ih mem
    · exact .inl same
    dsimp only at mem
    split at mem
    · exact mem_addDomainAddr.1 mem
    · exact .inr mem

theorem takeNames_lookup {names : List Bytes} (nodup : names.Nodup) (new old : Domains) (d : Bytes) :
    let p := names.foldl (fun p d => (p.1.insert d ((p.2.lookup d).getD []), p.2.erase d)) (new, old)
    p.1.lookup d = (if d ∈ names then some ((old.lookup d).getD []) else new.lookup d) ∧
    p.2.lookup d = (if d ∈ names then none else old.lookup d) := by
  induction names generalizing new old with
  | nil => simp
  | cons x _ ih =>
    obtain ⟨notin, nodup⟩ := nodup_cons.1 nodup
    obtain ⟨left, right⟩ := ih nodup (new.insert x ((old.lookup x).getD [])) (old.erase x)
    refine ⟨left.trans ?_, right.trans ?_⟩
    · by_cases same : d = x
      · subst same
        simp [notin]
      · simp [same, lookup_erase_ne same, lookup_insert_ne same]
    · by_cases same : d = x
      · subst same
        simp
      · simp [same, lookup_erase_ne same]

theorem foldl_insert_lookup {l : List (Sigma fun _ : Bytes => List Addr)} (nodup : l.NodupKeys)
    (new : Domains) :
    (∀ e ∈ l, (l.foldl (fun m e => m.insert e.1 e.2) new).lookup e.1 = some e.2) ∧
    ∀ d, d ∉ l.keys → (l.foldl (fun m e => m.insert e.1 e.2) new).lookup d = new.lookup d := by
  induction l generalizing new with
  | nil => simp
  | cons x _ ih =>
    obtain ⟨notin, nodup⟩ := nodupKeys_cons.1 nodup
    obtain ⟨inside, outside⟩ := ih nodup (new.insert x.1 x.2)
    constructor
    · intro e mem
      obtain rfl | mem := mem_cons.1 mem
      · rw [foldl_cons, outside e.1 notin, lookup_insert]
      · exact inside e mem
    · intro d absent
      rw [keys_cons, mem_cons, not_or] at absent
      rw [foldl_cons, outside d absent.2, lookup_insert_ne absent.1]

theorem takeWildcards_lookup {old new : Domains} (wildcards : List Bytes) (d : Bytes) :
    (takeWildcards wildcards old.entries new).lookup d =
      if wildcards.any (hasSuffix d) then (old.lookup d).or (new.lookup d) else new.lookup d := by
  have nodup : (old.entries.filter fun e => wildcards.any (hasSuffix e.1)).NodupKeys :=
    old.nodupKeys.sublist (filter_sublist)
  obtain ⟨inside, outside⟩ := foldl_insert_lookup nodup new
  unfold takeWildcards
  by_cases listed : d ∈ (old.entries.filter fun e => wildcards.any (hasSuffix e.1)).keys
  · obtain ⟨addrs, mem⟩ := exists_of_mem_keys listed
    obtain ⟨mem', matched⟩ := mem_filter.1 mem
    rw [inside _ mem, if_pos matched, show old.lookup d = some addrs from mem_lookup_iff.2 mem']
    rfl
  · rw [outside d listed]
    split
    next matched =>
      have absent : old.lookup d = none := by
        rw [lookup_eq_none]
        intro mem
        obtain ⟨addrs, mem⟩ := exists_of_mem_keys mem
        exact listed (mem_keys_of_mem (mem_filter.2 ⟨mem, matched⟩))
      rw [absent, Option.none_or]
    next => rfl

def Keeps [Unicode] (domains : List Bytes) (d : Bytes) : Prop :=
  d ∈ namesOf domains ∨ (wildcardsOf domains).any (hasSuffix d) = true

section Update
variable [Unicode] {s : State} {domains : List Bytes}

section
variable (nodup : (namesOf domains).Nodup)
include nodup

theorem lookup_updateDomains (d : Bytes) :
    (s.updateDomains domains).domains.lookup d =
      if d ∈ namesOf domains then some ((s.domains.lookup d).getD [])
      else if (wildcardsOf domains).any (hasSuffix d) then s.domains.lookup d else none := by
  obtain ⟨new, old⟩ := takeNames_lookup nodup ∅ s.domains d
  show (takeWildcards (wildcardsOf domains) (takeNames (namesOf domains) s.domains).2.entries
    (takeNames (namesOf domains) s.domains).1).lookup d = _
  rw [takeWildcards_lookup, takeNames, new, old]
  by_cases name : d ∈ namesOf domains <;> simp [name, lookup_empty]

theorem recorded_updateDomains :
    Recorded (s.updateDomains domains).domains d a ↔ Keeps domains d ∧ Recorded s.domains d a := by
  unfold Recorded Keeps
  rw [lookup_updateDomains nodup]
  by_cases name : d ∈ namesOf domains
  · simp [name]
  by_cases wild : (wildcardsOf domains).any (hasSuffix d) = true
  · rw [if_neg name, if_pos wild]
    simp only [wild, or_true, true_and]
  · simp [name, wild]

theorem keeps_of_mem (mem : d ∈ (s.updateDomains domains).domains) :
    Keeps domains d := by
  unfold Keeps
  by_contra dropped
  rw [not_or] at dropped
  rw [← lookup_isSome, lookup_updateDomains nodup, if_neg dropped.1, if_neg dropped.2] at mem
  cases mem

def State.dropped (s : State) (domains : List Bytes) : List Prefix :=
  droppedRoutes (wildcardsOf domains) (takeNames (namesOf domains) s.domains).2.entries

theorem mem_dropped :
    p ∈ s.dropped domains ↔ ∃ d a, ¬ Keeps domains d ∧ Recorded s.domains d a ∧ p = single a := by
  have old : ∀ d, (takeNames (namesOf domains) s.domains).2.lookup d =
      if d ∈ namesOf domains then none else s.domains.lookup d :=
    fun d => (takeNames_lookup nodup ∅ s.domains d).2
  simp only [State.dropped, droppedRoutes, mem_flatMap, mem_filter, List.mem_map,
    Bool.not_eq_true', ← Bool.not_eq_true]
  constructor
  · rintro ⟨e, ⟨mem, wild⟩, a, ha, rfl⟩
    have found : (takeNames (namesOf domains) s.domains).2.lookup e.1 = some e.2 :=
      mem_lookup_iff.2 mem
    rw [old] at found
    split at found
    next => cases found
    next name => exact ⟨e.1, a, not_or.2 ⟨name, wild⟩, by simpa [Recorded, found] using ha, rfl⟩
  · rintro ⟨d, a, dropped, recorded, rfl⟩
    obtain ⟨name, wild⟩ := not_or.1 dropped
    obtain ⟨e, mem, rfl, ha⟩ := recorded.entry
    have found : (takeNames (namesOf domains) s.domains).2.lookup e.1 = some e.2 := by
      rw [old, if_neg name]
      exact mem_lookup_iff.2 mem
    exact ⟨e, ⟨mem_lookup_iff.1 found, wild⟩, a, ha, rfl⟩

end

end Update

end ScaleTail.Appc
