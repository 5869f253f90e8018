import ScaleTail.Proof.Derp.Sound

/-! # The forwarders of a region -/

namespace ScaleTail.Derp
open Lib Go Net List Option AList Server MultiForwarder
open UInt8 (le_of_lt le_refl le_trans not_lt)

variable {φ : Type}

section Registered
variable [DecidableEq φ]

def nextForwarders (k : NodePublic) (l : List φ) : Op φ → List φ
  | .addPacketForwarder dst fwd => if dst = k then l.insert fwd else l
  | .removePacketForwarder dst fwd _ => if dst = k then l.erase fwd else l
  | _ => l

def forwardersOf (k : NodePublic) (ops : List (Op φ)) : List φ := ops.foldl (nextForwarders k) []

theorem forwardersOf_snoc (k : NodePublic) (ops : List (Op φ)) (op : Op φ) :
    forwardersOf k (ops ++ [op]) = nextForwarders k (forwardersOf k ops) op := by
  rw [forwardersOf, foldl_append]
  rfl

theorem nodup_forwardersOf (k : NodePublic) (ops : List (Op φ)) : (forwardersOf k ops).Nodup := by
  induction ops using List.reverseRecOn with
  | nil => exact nodup_nil
  | append_singleton _ op ih =>
    rw [forwardersOf_snoc]
    cases op with
    | addPacketForwarder =>
      dsimp only [nextForwarders]
      split
      · exact ih.insert
      · exact ih
    | removePacketForwarder _ fwd =>
      dsimp only [nextForwarders]
      split
      · exact ih.erase fwd
      · exact ih
    | _ => exact ih

end Registered

namespace MultiForwarder

theorem le_foldl_max (entries : List (Sigma fun _ : φ => UInt8)) (v : UInt8) :
    v ≤ entries.foldl (fun max e => if e.2 > max then e.2 else max) v ∧
      ∀ e ∈ entries, e.2 ≤ entries.foldl (fun max e => if e.2 > max then e.2 else max) v := by
  induction entries generalizing v with
  | nil => exact ⟨le_refl v, nofun⟩
  | cons e _ ih =>
    obtain ⟨above, all⟩ := ih (if e.2 > v then e.2 else v)
    have both : v ≤ (if e.2 > v then e.2 else v) ∧ e.2 ≤ (if e.2 > v then e.2 else v) := by
      split
      next more => exact ⟨le_of_lt more, le_refl _⟩
      next less => exact ⟨le_refl v, not_lt.1 less⟩
    refine ⟨le_trans both.1 above, fun e' mem => ?_⟩
    rcases mem_cons.1 mem with rfl | mem
    · exact le_trans both.2 above
    · exact all e' mem

variable [DecidableEq φ] {m : MultiForwarder φ} {l : List φ} {fwd : φ}

variable {v : UInt8} {all : AList fun _ : φ => UInt8} {order : List φ}

theorem le_max (found : m.all.lookup fwd = some v) : v ≤ m.max :=
  (le_foldl_max m.all.entries 0).2 ⟨fwd, v⟩ (mem_lookup_iff.1 found)

theorem lt_max_succ (found : m.all.lookup fwd = some v) (room : m.max ≠ 255) : v < m.max + 1 := by
  have le := UInt8.le_iff_toNat_le.1 (le_max found)
  have below := m.max.toNat_lt
  have other : m.max.toNat ≠ 255 := fun eq => room (UInt8.toNat_inj.1 eq)
  rw [UInt8.lt_iff_toNat_lt, UInt8.toNat_add, UInt8.toNat_one]
  omega

theorem lowest_spec (keys : ∀ k ∈ order, k ∈ all)
    (some_key : order ≠ []) : ∃ k v, lowest all order = some (k, v) ∧ k ∈ order ∧
      all.lookup k = some v ∧ ∀ k' ∈ order, ∀ v', all.lookup k' = some v' → v ≤ v' := by
  induction order using List.reverseRecOn with
  | nil => exact absurd rfl some_key
  | append_singleton order k ih =>
    have here : k ∈ order ++ [k] := mem_append_right _ (mem_singleton_self k)
    obtain ⟨v, found⟩ := isSome_iff_exists.1 (lookup_isSome.2 (keys k here))
    have last {w : UInt8} (le : w ≤ v) : ∀ k' ∈ [k], ∀ v', all.lookup k' = some v' → w ≤ v' := by
      simpa [found] using le
    rw [lowest, foldl_append, ← lowest, foldl_cons, foldl_nil, found]
    by_cases empty : order = []
    · subst empty
      exact ⟨k, v, rfl, here, found, last (le_refl v)⟩
    obtain ⟨k₀, v₀, eq, mem₀, found₀, least⟩ :=
      ih (fun k mem => keys k (mem_append_left _ mem)) empty
    rw [eq]
    dsimp only
    split
    next less =>
      have above k' mem v' found' : v ≤ v' := le_trans (le_of_lt less) (least k' mem v' found')
      exact ⟨k, v, rfl, here, found, forall_mem_append.2 ⟨above, last (le_refl v)⟩⟩
    next more =>
      exact ⟨k₀, v₀, rfl, mem_append_left _ mem₀, found₀,
        forall_mem_append.2 ⟨least, last (not_lt.1 more)⟩⟩

/-- The numbers of the forwarders decrease along the list. -/
def Numbered (all : AList fun _ : φ => UInt8) (l : List φ) : Prop :=
  l.Pairwise fun newer older => ∀ v v', all.lookup newer = some v → all.lookup older = some v' → v' < v

theorem Numbered.congr {all' : AList fun _ : φ => UInt8} (numbered : Numbered all l)
    (same : ∀ k ∈ l, all'.lookup k = all.lookup k) : Numbered all' l := by
  refine numbered.imp_of_mem fun mem mem' lt => ?_
  rwa [same _ mem, same _ mem']

structure Ordered (m : MultiForwarder φ) (l : List φ) : Prop where
  oldest : l.getLast? = some m.fwd
  numbers : Numbered m.all l

theorem new_ordered {prev : φ} (other : prev ≠ fwd) : (new prev fwd).Ordered [fwd, prev] := by
  have fwd_number : (new prev fwd).all.lookup fwd = some 1 := lookup_insert _
  have prev_number : (new prev fwd).all.lookup prev = some 0 :=
    (lookup_insert_ne other).trans (lookup_insert _)
  refine ⟨rfl, pairwise_pair.2 fun v v' found found' => ?_⟩
  cases fwd_number.symm.trans found
  cases prev_number.symm.trans found'
  decide

theorem Ordered.add (ordered : m.Ordered l) (absent : fwd ∉ l) (room : m.max ≠ 255) :
    (m.add fwd).Ordered (fwd :: l) := by
  have same : ∀ k ∈ l, (m.add fwd).all.lookup k = m.all.lookup k := by
    intro k mem
    apply lookup_insert_ne
    rintro rfl
    exact absent mem
  have number : (m.add fwd).all.lookup fwd = some (m.max + 1) := lookup_insert _
  constructor
  · rw [getLast?_cons, ordered.oldest]
    rfl
  · refine pairwise_cons.2 ⟨fun k mem v v' found found' => ?_, ordered.numbers.congr same⟩
    cases number.symm.trans found
    rw [same k mem] at found'
    exact lt_max_succ found' room

theorem Numbered.oldest {k : φ} (numbers : Numbered all l) (keys : ∀ k ∈ l, k ∈ all) (mem : k ∈ l)
    (found : all.lookup k = some v)
    (least : ∀ k' ∈ l, ∀ v', all.lookup k' = some v' → v ≤ v') : l.getLast? = some k := by
  obtain ⟨before, after, split⟩ := append_of_mem mem
  subst split
  cases after with
  | nil => simp
  | cons newer after =>
    -- The one after `k` would have a number below the least one.
    have inside : newer ∈ before ++ k :: newer :: after := by simp
    obtain ⟨v', found'⟩ := isSome_iff_exists.1 (lookup_isSome.2 (keys newer inside))
    have later := (pairwise_append.1 numbers).2.1
    have below := rel_of_pairwise_cons later mem_cons_self v v' found found'
    exact absurd (least newer inside v' found') (UInt8.not_le.2 below)

theorem delete_spec (keys : m.all.keys.Perm l) (preferred : m.fwd ∈ l) (nodup : l.Nodup)
    (left : l.erase fwd ≠ []) (iteration : order.Perm (m.all.erase fwd).keys) :
    (m.delete fwd order).fwd ∈ l.erase fwd ∧
      (m.Ordered l → (m.delete fwd order).Ordered (l.erase fwd)) := by
  have same : ∀ k ∈ l.erase fwd, (m.all.erase fwd).lookup k = m.all.lookup k := by
    intro k mem
    exact lookup_erase_ne (nodup.mem_erase_iff.1 mem).1
  have numbers (ordered : m.Ordered l) : Numbered (m.all.erase fwd) (l.erase fwd) :=
    Numbered.congr (ordered.numbers.sublist erase_sublist) same
  suffices spec : (m.delete fwd order).fwd ∈ l.erase fwd ∧
      (m.Ordered l → (l.erase fwd).getLast? = some (m.delete fwd order).fwd) from
    ⟨spec.1, fun ordered => ⟨spec.2 ordered, numbers ordered⟩⟩
  dsimp only [MultiForwarder.delete]
  split
  next =>
    have perm : order.Perm (l.erase fwd) := by
      rw [keys_erase] at iteration
      exact iteration.trans (keys.erase fwd)
    obtain ⟨k, v, eq, mem, found, least⟩ := lowest_spec (fun k mem => iteration.mem_iff.1 mem)
      (fun empty => left (perm_nil.1 (perm.symm.trans (empty ▸ .refl _))))
    rw [eq]
    refine ⟨perm.mem_iff.1 mem, fun ordered => (numbers ordered).oldest
      (fun k mem => ?_) (perm.mem_iff.1 mem) found fun k' mem' => least k' (perm.mem_iff.2 mem')⟩
    exact iteration.mem_iff.1 (perm.mem_iff.2 mem)
  next other =>
    refine ⟨(mem_erase_of_ne (Ne.symm other)).2 preferred, fun ordered => ?_⟩
    rw [nodup.erase_eq_filter]
    refine getLast?_filter_of_imp (p := fun _ => true) ?_ ?_ fun _ _ => rfl
    · rw [filter_true]
      exact ordered.oldest
    · simpa using Ne.symm other

theorem deleteLocked_remain {remain : φ} :
    (m.deleteLocked fwd order).2 = some remain ↔ (m.delete fwd order).all.keys = [remain] := by
  dsimp only [deleteLocked, AList.keys, List.keys]
  match (m.delete fwd order).all.entries with
  | [] => simp
  | [e] => simp
  | _ :: _ :: _ => simp

end MultiForwarder

/-- The entry of a key with the forwarders `l`, the newest first. As long as the numbers are `tidy`, the
oldest of several is the preferred one. -/
inductive Represents [DecidableEq φ] (tidy : Prop) (l : List φ) (isLocal : Prop) :
    Option (Option (PacketForwarder φ)) → Prop
  | absent : l = [] → ¬ isLocal → Represents tidy l isLocal none
  | alone : l = [] → isLocal → Represents tidy l isLocal (some none)
  | single {fwd : φ} : l = [fwd] → Represents tidy l isLocal (some (some (.single fwd)))
  | multi {m : MultiForwarder φ} : 2 ≤ l.length → m.all.keys.Perm l → m.fwd ∈ l →
      (tidy → m.Ordered l) → Represents tidy l isLocal (some (some (.multi m)))

section Entries
variable [DecidableEq φ] {tidy tidy' : Prop} {l : List φ} {isLocal isLocal' : Prop}
  {e : Option (Option (PacketForwarder φ))} {clientsMesh : ClientsMesh φ} {k dst : NodePublic} {fwd : φ}
  {order : List φ}

theorem Represents.isSome_iff (represents : Represents tidy l isLocal e) :
    e.isSome ↔ isLocal ∨ l ≠ [] := by
  cases represents with
  | absent empty remote => simp [empty, remote]
  | alone _ here => simp [here]
  | single one => simp [one]
  | multi two =>
    refine ⟨fun _ => .inr fun empty => ?_, fun _ => rfl⟩
    rw [empty] at two
    cases two

theorem Represents.imp (represents : Represents tidy l isLocal e) (weaker : tidy' → tidy)
    (same : isLocal ↔ isLocal') : Represents tidy' l isLocal' e := by
  rw [← propext same]
  cases represents with
  | absent empty remote => exact .absent empty remote
  | alone empty here => exact .alone empty here
  | single one => exact .single one
  | multi two keys preferred ordered => exact .multi two keys preferred (ordered ∘ weaker)

theorem Represents.some_congr {fwd : PacketForwarder φ}
    (represents : Represents tidy l isLocal (some (some fwd))) :
    Represents tidy l isLocal' (some (some fwd)) := by
  cases represents with
  | single one => exact .single one
  | multi two keys preferred ordered => exact .multi two keys preferred ordered

theorem addPacketForwarder_cases (clientsMesh : ClientsMesh φ) (dst : NodePublic) (fwd : φ) :
    clientsMesh.addPacketForwarder dst fwd = clientsMesh ∨
      ∃ e, clientsMesh.addPacketForwarder dst fwd = clientsMesh.insert dst e := by
  unfold ClientsMesh.addPacketForwarder
  split
  · exact .inr ⟨_, rfl⟩
  · exact .inr ⟨_, rfl⟩
  all_goals
    split
    · exact .inl rfl
    · exact .inr ⟨_, rfl⟩

theorem lookup_addPacketForwarder_ne (other : k ≠ dst) :
    (clientsMesh.addPacketForwarder dst fwd).lookup k = clientsMesh.lookup k := by
  obtain eq | ⟨e, eq⟩ := addPacketForwarder_cases clientsMesh dst fwd <;> rw [eq]
  exact lookup_insert_ne other

theorem mem_addPacketForwarder (mem : k ∈ clientsMesh) : k ∈ clientsMesh.addPacketForwarder dst fwd := by
  obtain eq | ⟨e, eq⟩ := addPacketForwarder_cases clientsMesh dst fwd <;> rw [eq]
  · exact mem
  · exact (mem_insert _).2 (.inr mem)

def Server.hasRoom (s : Server φ) : Op φ → Bool
  | .addPacketForwarder dst fwd =>
    match s.clientsMesh.lookup dst with
    | some (some (.multi m)) => decide (fwd ∈ m.all) || m.max != 255
    | _ => true
  | _ => true

theorem Represents.add {s : Server φ} (represents : Represents tidy l isLocal (s.clientsMesh.lookup dst)) :
    Represents (tidy ∧ s.hasRoom (.addPacketForwarder dst fwd) = true) (l.insert fwd) isLocal
      ((s.clientsMesh.addPacketForwarder dst fwd).lookup dst) := by
  unfold ClientsMesh.addPacketForwarder
  generalize found : s.clientsMesh.lookup dst = e at represents ⊢
  cases represents with
  | absent empty | alone empty =>
    rw [lookup_insert, empty]
    exact .single rfl
  | @single prev one =>
    dsimp only
    split
    next same =>
      rw [found, insert_of_mem (by rw [one, same]; exact mem_singleton_self fwd)]
      exact .single one
    next other =>
      have insert : l.insert fwd = [fwd, prev] := by
        rw [one, insert_of_not_mem (mt mem_singleton.1 (Ne.symm other))]
      rw [lookup_insert, insert]
      refine .multi (Nat.le_refl 2) ?_ (mem_cons_of_mem _ (mem_singleton_self prev)) fun _ => new_ordered other
      rw [MultiForwarder.new, keys_insert, keys_insert, keys_empty, erase_nil,
        erase_of_not_mem (mt mem_singleton.1 (Ne.symm other))]
  | @multi _ two keys preferred ordered =>
    dsimp only
    split
    next present =>
      rw [found, insert_of_mem (keys.mem_iff.1 present)]
      exact .multi two keys preferred fun ok => ordered ok.1
    next absent =>
      have absent' : fwd ∉ l := fun mem => absent (keys.mem_iff.2 mem)
      rw [lookup_insert, insert_of_not_mem absent']
      refine .multi (Nat.le_succ_of_le two) ?_ (mem_cons_of_mem _ preferred) fun ok => ?_
      · rw [MultiForwarder.add, keys_insert, erase_of_not_mem absent]
        exact keys.cons fwd
      · apply MultiForwarder.Ordered.add (ordered ok.1) absent'
        simpa [hasRoom, found, absent] using ok.2

inductive Removes (clientsMesh : ClientsMesh φ) (tidy : Prop) (l : List φ) (dst : NodePublic) (fwd : φ)
    (isLocal : Bool) : ClientsMesh φ × Removal → Prop
  | unchanged : fwd ∉ l → Removes clientsMesh tidy l dst fwd isLocal (clientsMesh, .kept)
  | changed {e : Option (PacketForwarder φ)} : Represents tidy (l.erase fwd) (isLocal = true) (some e) →
      Removes clientsMesh tidy l dst fwd isLocal (clientsMesh.insert dst e, .kept)
  | gone : dst ∈ clientsMesh → l.erase fwd = [] → isLocal = false →
      Removes clientsMesh tidy l dst fwd isLocal (clientsMesh.erase dst, .gone)

theorem removes_of_represents {isLocal : Bool}
    (represents : Represents tidy l (isLocal = true) (clientsMesh.lookup dst)) (nodup : l.Nodup)
    (iteration : clientsMesh.isIteration dst fwd order) : Removes clientsMesh tidy l dst fwd isLocal
      (clientsMesh.removePacketForwarder dst fwd isLocal order) := by
  unfold ClientsMesh.removePacketForwarder
  unfold ClientsMesh.isIteration at iteration
  generalize found : clientsMesh.lookup dst = e at represents iteration
  cases represents with
  | absent empty | alone empty =>
    refine .unchanged ?_
    rw [empty]
    exact not_mem_nil
  | @single _ one =>
    dsimp only
    split
    next other =>
      refine .unchanged ?_
      rw [one]
      exact mt mem_singleton.1 (Ne.symm other)
    next same =>
      have erased : l.erase fwd = [] := by
        rw [one, Decidable.of_not_not same]
        exact erase_cons_head ..
      split
      next here => exact .changed (.alone erased here)
      next remote =>
        refine .gone ?_ erased (Bool.eq_false_iff.2 remote)
        rw [← lookup_isSome, found]
        rfl
  | @multi m _ keys preferred ordered =>
    have perm := isPerm_iff.1 iteration
    have length : m.all.entries.length = l.length := by
      rw [← keys.length_eq, AList.keys, List.keys, length_map]
    have keys' : (m.delete fwd order).all.keys.Perm (l.erase fwd) := by
      rw [MultiForwarder.delete, keys_erase]
      exact keys.erase fwd
    have positive : 0 < (l.erase fwd).length := by
      rw [length_erase]
      split <;> omega
    have left : l.erase fwd ≠ [] := length_pos_iff.1 positive
    dsimp only
    rw [if_neg (by omega)]
    split
    next m' eq =>
      have same : m.delete fwd order = m' := congrArg Prod.fst eq
      have several : (l.erase fwd).length ≠ 1 := by
        intro one
        obtain ⟨remain, single⟩ := length_eq_one_iff.1 one
        rw [single] at keys'
        have last := deleteLocked_remain.2 (perm_singleton.1 keys')
        rw [eq] at last
        cases last
      subst same
      obtain ⟨mem, keeps⟩ := delete_spec keys preferred nodup left perm
      exact .changed (.multi (by omega) keys' mem (keeps ∘ ordered))
    next remain eq =>
      have last := deleteLocked_remain.1 (congrArg Prod.snd eq)
      rw [last] at keys'
      exact .changed (.single (singleton_perm.1 keys').symm)

end Entries

def goneOf (events : List (Event φ)) : List NodePublic :=
  events.filterMap fun
    | .gone k => some k
    | _ => none

structure Aside (s s' : Server φ) : Prop where
  clientsMesh : s'.clientsMesh = s.clientsMesh
  panics : s'.panics = s.panics
  gone : goneOf s'.events = goneOf s.events

section Steps
variable {s s' s'' : Server φ} {c : SClient} {key : NodePublic}

theorem Aside.refl (s : Server φ) : Aside s s := ⟨rfl, rfl, rfl⟩

theorem Aside.trans (first : Aside s s') (second : Aside s' s'') : Aside s s'' :=
  ⟨second.clientsMesh.trans first.clientsMesh, second.panics.trans first.panics,
    second.gone.trans first.gone⟩

theorem goneOf_append (events more : List (Event φ)) : goneOf (events ++ more) = goneOf events ++ goneOf more :=
  filterMap_append

theorem Still.aside (still : Still s s') : Aside s s' := by
  refine ⟨still.clientsMesh, still.panics, ?_⟩
  obtain ⟨more, eq, minor⟩ := still.events
  have none : goneOf more = [] := by
    refine filterMap_eq_nil_iff.2 fun e mem => ?_
    have minor := minor e mem
    cases e with
    | gone => cases minor
    | _ => rfl
  rw [eq, goneOf_append, none, append_nil]

theorem aside_notify (s : Server φ) (key : NodePublic) (watchers : List (Nat × SClient)) :
    Aside s (s.notify key watchers) := by
  induction watchers generalizing s with
  | nil => exact .refl s
  | cons _ _ ih =>
    refine Aside.trans ?_ (ih _)
    exact ⟨rfl, rfl, (goneOf_append ..).trans (append_nil _)⟩

theorem note_spec (s : Server φ) (left : key ∉ s.clientsMesh) :
    (s.notePeerGoneFromRegionLocked key).clientsMesh = s.clientsMesh ∧
    (s.notePeerGoneFromRegionLocked key).panics = s.panics ∧
    goneOf (s.notePeerGoneFromRegionLocked key).events = goneOf s.events ++ [key] := by
  unfold notePeerGoneFromRegionLocked
  rw [if_neg left]
  have aside := aside_notify (s.record (.gone key)) key ((s.peerGoneWatchers.lookup key).getD [])
  exact ⟨aside.clientsMesh, aside.panics, aside.gone.trans (goneOf_append ..)⟩

inductive Moves (s s' : Server φ) : Prop
  | kept : (∀ k, k ∈ s.clientsMesh → k ∈ s'.clientsMesh) → goneOf s'.events = goneOf s.events → Moves s s'
  | gone (key : NodePublic) : key ∈ s.clientsMesh → s'.clientsMesh = s.clientsMesh.erase key →
      goneOf s'.events = goneOf s.events ++ [key] → Moves s s'

theorem Aside.moves (aside : Aside s s') : Moves s s' :=
  .kept (fun _ mem => aside.clientsMesh ▸ mem) aside.gone

theorem Moves.count (moves : Moves s s') (k : NodePublic) : (goneOf s'.events).count k =
    (goneOf s.events).count k + if k ∈ s.clientsMesh ∧ k ∉ s'.clientsMesh then 1 else 0 := by
  cases moves with
  | kept stays same => rw [same, if_neg (fun both => both.2 (stays k both.1)), Nat.add_zero]
  | gone key mem erased more =>
    rw [more, count_append, erased]
    by_cases same : k = key
    · subst same
      rw [if_pos ⟨mem, fun inside => (mem_erase.1 inside).1 rfl⟩, count_singleton_self]
    · have other : ¬ (k ∈ s.clientsMesh ∧ k ∉ s.clientsMesh.erase key) := fun both =>
        both.2 (mem_erase.2 ⟨same, both.1⟩)
      rw [if_neg other, count_singleton, if_neg (by simpa using Ne.symm same)]

end Steps

def Server.IsLocal (s : Server φ) (k : NodePublic) : Prop := ∃ c ∈ s.registered, c.key = k

section Runs
variable {s s' s'' : Server φ} {c : SClient}

theorem isLocal_iff_group (k : NodePublic) :
    s.IsLocal k ↔ (group SClient.key s.registered k).length ≠ 0 := by
  rw [← Nat.pos_iff_ne_zero, length_pos_iff_exists_mem]
  exact exists_congr fun c => mem_group.symm

theorem registerClient_spec (s : Server φ) (c : SClient) :
    (s.registerClient c).clientsMesh =
      (if c.key ∈ s.clientsMesh then s.clientsMesh else s.clientsMesh.insert c.key none) ∧
    (s.registerClient c).panics = s.panics ∧ (s.registerClient c).events = s.events := by
  unfold registerClient broadcastPeerStateChangeLocked
  dsimp only
  split <;> exact ⟨rfl, rfl, rfl⟩

inductive Leaves (s s' : Server φ) (c : SClient) : Prop
  | stays : ¬ ((group SClient.key (s.registered.erase c) c.key).length = 0 ∧
      s.clientsMesh.lookup c.key = some none) → Aside s s' → Leaves s s' c
  | gone : (group SClient.key (s.registered.erase c) c.key).length = 0 →
      s.clientsMesh.lookup c.key = some none → s'.clientsMesh = s.clientsMesh.erase c.key →
      s'.panics = s.panics → goneOf s'.events = goneOf s.events ++ [c.key] → Leaves s s' c

theorem Leaves.trans_aside (leaves : Leaves s s' c) (aside : Aside s' s'') : Leaves s s'' c := by
  cases leaves with
  | stays other before => exact .stays other (before.trans aside)
  | gone last alone mesh panics gone =>
    exact .gone last alone (aside.clientsMesh.trans mesh) (aside.panics.trans panics)
      (aside.gone.trans gone)

theorem Leaves.moves (leaves : Leaves s s' c) : Moves s s' := by
  cases leaves with
  | stays _ aside => exact aside.moves
  | gone _ alone mesh _ gone =>
    refine .gone c.key ?_ mesh gone
    rw [← lookup_isSome, alone]
    rfl

theorem lastGone_leaves (s : Server φ) (c : SClient)
    (last : (group SClient.key (s.registered.erase c) c.key).length = 0) : Leaves s (s.lastGone c.key) c := by
  unfold lastGone broadcastPeerStateChangeLocked
  split
  next alone =>
    have noted := note_spec { s with clientsMesh := s.clientsMesh.erase c.key }
      (fun inside => (mem_erase.1 inside).1 rfl)
    exact .gone last alone noted.1 noted.2.1 noted.2.2
  next other => exact .stays (fun both => other both.2) ⟨rfl, rfl, rfl⟩

theorem unregisterClient_leaves (sound : s.Sound) (mem : c ∈ s.registered) :
    Leaves s (s.unregisterClient c) c := by
  have left : Leaves s (s.left c) c := by
    unfold left
    split
    next last =>
      cases lastGone_leaves { s with reg := (s.reg.unregisterClient c).1 } c last with
      | stays other aside => exact .stays other { aside with }
      | gone last alone mesh panics gone => exact .gone last alone mesh panics gone
    next more => exact .stays (fun both => more both.1) ⟨rfl, rfl, rfl⟩
  rw [unregisterClient_eq sound mem]
  split
  · exact left.trans_aside ⟨rfl, rfl, rfl⟩
  · exact left

variable [DecidableEq φ] {ops : List (Op φ)} {op : Op φ} {tidy tidy' : Prop}

structure Table (tidy : Prop) (ops : List (Op φ)) (s : Server φ) : Prop where
  represents : ∀ k, Represents tidy (forwardersOf k ops) (s.IsLocal k) (s.clientsMesh.lookup k)
  panics : s.panics = []

theorem new_table (k : NodePublic) (depth : Nat) : Table (φ := φ) tidy [] (.new k depth) where
  represents := fun _ => .absent rfl nofun
  panics := rfl

def Op.Forwarding : Op φ → Prop
  | .addPacketForwarder _ _ | .removePacketForwarder _ _ _ => True
  | _ => False

theorem forwardersOf_other (other : ¬ op.Forwarding) (k : NodePublic) :
    forwardersOf k (ops ++ [op]) = forwardersOf k ops := by
  rw [forwardersOf_snoc]
  cases op with
  | addPacketForwarder | removePacketForwarder => exact absurd trivial other
  | _ => rfl

section
variable (table : Table tidy ops s)
include table

theorem Table.imp (weaker : tidy' → tidy) : Table tidy' ops s :=
  ⟨fun k => (table.represents k).imp weaker .rfl, table.panics⟩

theorem Table.aside (aside : Aside s s') (registered : s'.registered = s.registered)
    (other : ¬ op.Forwarding) : Table tidy (ops ++ [op]) s' where
  represents := fun k => by
    rw [forwardersOf_other other, aside.clientsMesh, Server.IsLocal, registered]
    exact table.represents k
  panics := aside.panics.trans table.panics

theorem Table.change (key : NodePublic)
    (elsewhere : ∀ k, k ≠ key → s'.clientsMesh.lookup k = s.clientsMesh.lookup k ∧
      (s'.IsLocal k ↔ s.IsLocal k) ∧ forwardersOf k (ops ++ [op]) = forwardersOf k ops)
    (represents : Represents tidy (forwardersOf key (ops ++ [op])) (s'.IsLocal key)
      (s'.clientsMesh.lookup key))
    (panics : s'.panics = s.panics) : Table tidy (ops ++ [op]) s' where
  represents := fun k => by
    by_cases same : k = key
    · subst same
      exact represents
    · obtain ⟨lookup, isLocal, forwarders⟩ := elsewhere k same
      rw [lookup, forwarders]
      exact (table.represents k).imp id isLocal.symm
  panics := panics.trans table.panics

theorem Table.register (mesh : s'.clientsMesh =
      if c.key ∈ s.clientsMesh then s.clientsMesh else s.clientsMesh.insert c.key none)
    (registered : s'.registered = s.registered ++ [c]) (panics : s'.panics = s.panics) :
    Table tidy (ops ++ [.registerClient c]) s' := by
  have here : s'.IsLocal c.key := ⟨c, by rw [registered]; simp, rfl⟩
  refine table.change c.key (fun k other => ⟨?_, ?_, forwardersOf_other id k⟩) ?_ panics
  · rw [mesh]
    split
    · rfl
    · exact lookup_insert_ne other
  · unfold Server.IsLocal
    rw [registered]
    simp [Ne.symm other]
  · have represents := table.represents c.key
    rw [forwardersOf_other id, mesh]
    split
    next inside =>
      obtain ⟨e, found⟩ := isSome_iff_exists.1 (lookup_isSome.2 inside)
      rw [found] at represents ⊢
      cases e with
      | none =>
        cases represents with
        | alone empty => exact .alone empty here
      | some => exact represents.some_congr
    next absent =>
      rw [lookup_eq_none.2 absent] at represents
      rw [lookup_insert]
      cases represents with
      | absent empty => exact .alone empty here

theorem Table.unregister (mem : c ∈ s.registered)
    (leaves : Leaves s s' c) (registered : s'.registered = s.registered.erase c) :
    Table tidy (ops ++ [.unregisterClient c]) s' := by
  have represents := table.represents c.key
  have was : s.IsLocal c.key := ⟨c, mem, rfl⟩
  have others : ∀ k, k ≠ c.key → (s'.IsLocal k ↔ s.IsLocal k) := by
    intro k other
    rw [isLocal_iff_group, isLocal_iff_group, registered, group_erase_ne (Ne.symm other)]
  cases leaves with
  | stays more aside =>
    refine table.change c.key (fun k other => ⟨?_, others k other, forwardersOf_other id k⟩) ?_ aside.panics
    · rw [aside.clientsMesh]
    · rw [forwardersOf_other id, aside.clientsMesh]
      generalize s.clientsMesh.lookup c.key = e at represents more
      cases represents with
      | absent _ remote => exact absurd was remote
      | alone empty =>
        refine .alone empty ?_
        rw [isLocal_iff_group, registered]
        exact fun none => more ⟨none, rfl⟩
      | single one => exact .single one
      | multi two keys preferred ordered => exact .multi two keys preferred ordered
  | gone last alone mesh panics =>
    refine table.change c.key (fun k other => ⟨?_, others k other, forwardersOf_other id k⟩) ?_ panics
    · rw [mesh]
      exact lookup_erase_ne other
    · rw [alone] at represents
      rw [forwardersOf_other id, mesh, lookup_erase]
      cases represents with
      | alone empty =>
        refine .absent empty ?_
        rw [isLocal_iff_group, registered]
        exact fun left => left last

theorem Table.add (dst : NodePublic) (fwd : φ) :
    Table (tidy ∧ s.hasRoom (.addPacketForwarder dst fwd) = true) (ops ++ [.addPacketForwarder dst fwd])
      (s.addPacketForwarder dst fwd) := by
  have here : forwardersOf dst (ops ++ [.addPacketForwarder dst fwd]) = (forwardersOf dst ops).insert fwd := by
    rw [forwardersOf_snoc]
    exact if_pos rfl
  refine (table.imp And.left).change dst (fun k other => ⟨?_, Iff.rfl, ?_⟩) ?_ rfl
  · exact lookup_addPacketForwarder_ne other
  · rw [forwardersOf_snoc]
    exact if_neg (Ne.symm other)
  · rw [here]
    exact (table.represents dst).add

theorem Table.remove (sound : s.Sound) {dst : NodePublic} {fwd : φ}
    {order : List φ} (iteration : s.clientsMesh.isIteration dst fwd order) :
    Table tidy (ops ++ [.removePacketForwarder dst fwd order]) (s.removePacketForwarder dst fwd order) ∧
      Moves s (s.removePacketForwarder dst fwd order) := by
  have here : forwardersOf dst (ops ++ [.removePacketForwarder dst fwd order]) =
      (forwardersOf dst ops).erase fwd := by
    rw [forwardersOf_snoc]
    exact if_pos rfl
  have elsewhere : ∀ k, k ≠ dst →
      forwardersOf k (ops ++ [.removePacketForwarder dst fwd order]) = forwardersOf k ops := by
    intro k other
    rw [forwardersOf_snoc]
    exact if_neg (Ne.symm other)
  have isLocal : s.IsLocal dst ↔ decide (dst ∈ s.reg.clients) = true := by
    rw [decide_eq_true_iff, sound.mem_clients]
    rfl
  have removes := removes_of_represents ((table.represents dst).imp id isLocal)
    (nodup_forwardersOf dst ops) iteration
  have keeps := keeps_removePacketForwarder s dst fwd order
  have same : ∀ k, (s.removePacketForwarder dst fwd order).IsLocal k ↔ s.IsLocal k := by
    intro k
    unfold Server.IsLocal
    rw [keeps.registered]
  unfold removePacketForwarder at same ⊢
  generalize s.clientsMesh.removePacketForwarder dst fwd (decide (dst ∈ s.reg.clients)) order = result
    at removes same ⊢
  cases removes with
  | unchanged absent =>
    refine ⟨table.change dst (fun k other => ⟨rfl, .rfl, elsewhere k other⟩) ?_ rfl,
      .kept (fun _ mem => mem) rfl⟩
    rw [here, erase_of_not_mem absent]
    exact table.represents dst
  | @changed _ represents =>
    refine ⟨table.change dst (fun k other => ⟨lookup_insert_ne other, same k, elsewhere k other⟩) ?_ rfl,
      .kept (fun k mem => (mem_insert _).2 (.inr mem)) rfl⟩
    rw [here, lookup_insert]
    exact represents.imp id (isLocal.symm.trans (same dst).symm)
  | gone mem erased remote =>
    obtain ⟨mesh, panics, gone⟩ := note_spec { s with clientsMesh := s.clientsMesh.erase dst }
      (fun inside => (mem_erase.1 inside).1 rfl)
    refine ⟨table.change dst (fun k other => ⟨?_, same k, elsewhere k other⟩) ?_ panics,
      .gone dst mem mesh gone⟩
    · rw [mesh]
      exact lookup_erase_ne other
    · rw [here, mesh, lookup_erase]
      refine .absent erased fun inside => ?_
      have := isLocal.1 ((same dst).1 inside)
      rw [remote] at this
      cases this

theorem Table.step (sound : s.Sound) (taken : s.step op = some s') :
    Table (tidy ∧ s.hasRoom op = true) (ops ++ [op]) s' ∧ Moves s s' := by
  have stays {s' : Server φ} (aside : Aside s s') (registered : s'.registered = s.registered)
      (other : ¬ op.Forwarding) : Table (tidy ∧ s.hasRoom op = true) (ops ++ [op]) s' ∧ Moves s s' :=
    ⟨(table.aside aside registered other).imp And.left, aside.moves⟩
  cases change_of_step taken with
  | @register c =>
    obtain ⟨mesh, panics, events⟩ := registerClient_spec s c
    refine ⟨.imp (table.register mesh rfl panics) And.left, .kept (fun k mem => ?_) ?_⟩
    · have inside : k ∈ (s.registerClient c).clientsMesh := by
        rw [mesh]
        split
        · exact mem
        · exact (mem_insert _).2 (.inr mem)
      exact inside
    · refine (goneOf_append ..).trans ((append_nil _).trans ?_)
      exact congrArg goneOf events
  | @unregister c running =>
    have mem := (Derp.Sound.running sound c).2 (.inl running)
    have leaves : Leaves s ((({ s.unregisterClient c with
        registered := s.registered.erase c } : Server φ).updateConn c
        fun conn => { conn with run := .gone, requests := [] }).record (.unregistered c)) c :=
      (unregisterClient_leaves sound mem).trans_aside
        ⟨rfl, rfl, (goneOf_append ..).trans (append_nil _)⟩
    exact ⟨.imp (table.unregister mem leaves rfl) And.left, leaves.moves⟩
  | noting => exact stays ⟨rfl, rfl, rfl⟩ rfl id
  | settled => exact stays (.refl s) rfl id
  | note =>
    split
    · exact stays ⟨rfl, rfl, (goneOf_append ..).trans (append_nil _)⟩ rfl id
    · exact stays ⟨rfl, rfl, rfl⟩ rfl id
  | add dst fwd => exact ⟨table.add dst fwd, .kept (fun _ => mem_addPacketForwarder) rfl⟩
  | remove iteration =>
    obtain ⟨table, moves⟩ := table.remove sound iteration
    exact ⟨table.imp And.left, moves⟩
  | minor other minor =>
    have still := still_of_minor minor
    refine stays still.aside still.registered fun forwarding => other ?_
    cases op with
    | addPacketForwarder | removePacketForwarder => trivial
    | _ => cases forwarding

end

theorem table_of_run {k : NodePublic} {depth : Nat} (run : Run step (new k depth) ops s) :
    Table (Throughout step (fun t op => t.hasRoom op = true) (new k depth) ops) ops s := by
  induction run with
  | refl => exact new_table k depth
  | snoc before taken ih =>
    have table := (ih.step (sound_of_run before) taken).1
    rwa [← propext (throughout_snoc before)] at table

def represented : Option (PacketForwarder φ) → List φ
  | none => []
  | some (.single fwd) => [fwd]
  | some (.multi m) => m.all.keys

def InRegion (ops : List (Op φ)) (s : Server φ) (k : NodePublic) : Prop :=
  (∃ c ∈ s.registered, c.key = k) ∨ forwardersOf k ops ≠ []

instance (ops : List (Op φ)) (s : Server φ) (k : NodePublic) : Decidable (InRegion ops s k) :=
  inferInstanceAs (Decidable (_ ∨ _))

structure Forwards (ops : List (Op φ)) (s : Server φ) : Prop where
  mem : ∀ k, k ∈ s.clientsMesh ↔ InRegion ops s k
  entry : ∀ k e, s.clientsMesh.lookup k = some e → (represented e).Perm (forwardersOf k ops) ∧
    ∀ m, e = some (.multi m) → 2 ≤ (represented e).length
  longest : ∀ k fwd, s.clientsMesh.lookup k = some (some fwd) →
    (forwardersOf k ops).getLast? = some fwd.preferred
  panics : s.panics = []
  gone : ∀ op s', s.step op = some s' → ∀ k, (goneOf s'.events).count k = (goneOf s.events).count k +
    if InRegion ops s k ∧ ¬ InRegion (ops ++ [op]) s' k then 1 else 0

theorem Table.mem (table : Table tidy ops s) (k : NodePublic) : k ∈ s.clientsMesh ↔ InRegion ops s k := by
  rw [← lookup_isSome]
  exact (table.represents k).isSome_iff

theorem forwards_of_run {k : NodePublic} {depth : Nat} (run : Run Server.step (Server.new k depth) ops s)
    (room : Throughout Server.step (fun t op => t.hasRoom op = true) (Server.new k depth) ops) :
    Forwards ops s := by
  have table := table_of_run run
  constructor
  case mem => exact table.mem
  case panics => exact table.panics
  case entry =>
    intro k e found
    have represents := table.represents k
    rw [found] at represents
    cases represents with
    | alone empty _ =>
      rw [empty]
      exact ⟨.refl _, nofun⟩
    | single one =>
      rw [one]
      exact ⟨.refl _, nofun⟩
    | multi two keys _ =>
      refine ⟨keys, fun _ _ => ?_⟩
      rw [represented, keys.length_eq]
      exact two
  case longest =>
    intro k fwd found
    have represents := table.represents k
    rw [found] at represents
    cases represents with
    | single one =>
      rw [one]
      rfl
    | multi _ _ _ ordered => exact (ordered room).oldest
  case gone =>
    intro op s' taken k
    obtain ⟨table', moves⟩ := table.step (sound_of_run run) taken
    rw [moves.count k]
    exact congrArg _ (if_congr (and_congr (table.mem k) (not_congr (table'.mem k))) rfl rfl)

end Runs

namespace Sample

/-- The second of three forwarders is the only one that stays, and the first one leaves. -/
def threeForwarders : List (Op Nat) :=
  [.addPacketForwarder keyA 0, .addPacketForwarder keyA 1, .addPacketForwarder keyA 2,
    .removePacketForwarder keyA 0 [2, 1], .removePacketForwarder keyA 2 [1]]

theorem three_forwards : ∃ s, Run Server.step server threeForwarders s ∧ Forwards threeForwarders s := by
  obtain ⟨s, run, room, -⟩ : ∃ s, Run step server threeForwarders s ∧
      Throughout step (fun t op => t.hasRoom op = true) server threeForwarders ∧ True :=
    throughout_of_found (fun _ _ room => room) (by decide +kernel)
  exact ⟨s, run, forwards_of_run run room⟩

/-- The first forwarder stays while the others replace one another, until the numbers start again. -/
def manyForwarders : List (Op Nat) :=
  [.addPacketForwarder keyA 0, .addPacketForwarder keyA 1] ++
  (List.range 254).flatMap (fun i =>
    [.addPacketForwarder keyA (i + 2), .removePacketForwarder keyA (i + 1) [0, i + 2]]) ++
  [.addPacketForwarder keyA 256, .removePacketForwarder keyA 0 [255, 256]]

theorem newest_preferred : ∃ s fwd, Run Server.step server manyForwarders s ∧
    s.clientsMesh.lookup keyA = some (some fwd) ∧
    (forwardersOf keyA manyForwarders).getLast? ≠ some fwd.preferred := by
  obtain ⟨s, run, e, found, fwd, rfl, differ⟩ : ∃ s, Run step server manyForwarders s ∧
      ∃ e ∈ s.clientsMesh.lookup keyA, ∃ fwd ∈ e,
        (forwardersOf keyA manyForwarders).getLast? ≠ some fwd.preferred := run_of_found (by decide +kernel)
  exact ⟨s, fwd, run, found, differ⟩

end Sample

end ScaleTail.Derp
