import ScaleTail.TKA.Compaction
import ScaleTail.Proof.TKA.ActiveChain

/-! # The marking passes of a compaction -/

namespace ScaleTail.TKA

open Lib ForkSystem LawfulChonk List

namespace Verdict

def markAll (v : Verdict) (hs : List AUMHash) (set : RetainState → RetainState) : Verdict :=
  hs.foldl (fun v h => v.mark h set) v

variable {v : Verdict} {set : RetainState → RetainState} {hs hs' : List AUMHash} {h k : AUMHash}

theorem markAll_append : v.markAll (hs ++ hs') set = (v.markAll hs set).markAll hs' set :=
  foldl_append

theorem markAll_cons : v.markAll (h :: hs) set = (v.mark h set).markAll hs set := rfl

theorem markAll_concat : v.markAll (hs ++ [h]) set = (v.markAll hs set).mark h set :=
  markAll_append

theorem flags_mark : (v.mark h set).flags k = if k = h then set (v.flags k) else v.flags k := by
  change Function.update v.flags h (set (v.flags h)) k = _
  rw [Function.update_apply]
  split
  next same => rw [same]
  · rfl

theorem mem_keys_mark : k ∈ (v.mark h set).keys ↔ k ∈ v.keys ∨ k = h := by
  unfold mark
  split
  next listed => exact ⟨.inl, fun either => either.elim id fun same => same ▸ listed⟩
  · simp

theorem flags_markAll (idempotent : ∀ s, set (set s) = set s) :
    (v.markAll hs set).flags k = if k ∈ hs then set (v.flags k) else v.flags k := by
  induction hs generalizing v with
  | nil => simp [markAll]
  | cons h _ ih =>
    rw [markAll_cons, ih, flags_mark]
    by_cases same : k = h
    · simp [same, idempotent]
    · simp [same]

theorem markAll_sets (f : RetainState → Bool) (sets : ∀ s, f (set s) = true) :
    f ((v.markAll hs set).flags k) = true ↔ k ∈ hs ∨ f (v.flags k) = true := by
  induction hs generalizing v with
  | nil => simp [markAll]
  | cons h _ ih =>
    rw [markAll_cons, ih, flags_mark, mem_cons]
    by_cases same : k = h
    · simp [same, sets]
    · simp [same]

theorem markAll_keeps (f : RetainState → Bool) (keeps : ∀ s, f (set s) = f s) :
    f ((v.markAll hs set).flags k) = f (v.flags k) := by
  induction hs generalizing v with
  | nil => rfl
  | cons _ _ ih =>
    rw [markAll_cons, ih, flags_mark]
    split
    · exact keeps _
    · rfl

theorem mem_keys_markAll : k ∈ (v.markAll hs set).keys ↔ k ∈ v.keys ∨ k ∈ hs := by
  induction hs generalizing v with
  | nil => simp [markAll]
  | cons _ _ ih => rw [markAll_cons, ih, mem_keys_mark, mem_cons, or_assoc]

end Verdict

section
variable {σ : Type} [CompactableChonk σ] {hs : List AUMHash}

theorem markYoungLoop_spec {storage : σ} {minTime : Time} {v v' : Verdict}
    (ok : markYoungLoop storage minTime v hs = .ok v') : ∃ young,
      v' = v.markAll young .setYoung ∧ (∀ h ∈ young, h ∈ hs) ∧
      ∀ h ∈ hs, ∃ t, CompactableChonk.commitTime storage h = .ok t ∧ (minTime < t → h ∈ young) := by
  induction hs generalizing v with
  | nil =>
    obtain rfl := Except.ok.inj ok
    exact ⟨[], rfl, by simp, by simp⟩
  | cons h _ ih =>
    rw [markYoungLoop, bind_eq_ok] at ok
    obtain ⟨t, time, ok⟩ := ok
    obtain ⟨young, rfl, listed, all⟩ := ih ok
    by_cases late : minTime < t
    · rw [if_pos late]
      refine ⟨h :: young, rfl, ?_, forall_mem_cons.2 ⟨⟨t, time, by simp⟩, ?_⟩⟩
      · exact forall_mem_cons.2 ⟨mem_cons_self, fun k hk => .tail _ (listed k hk)⟩
      intro k hk
      obtain ⟨u, time', young'⟩ := all k hk
      exact ⟨u, time', fun late => .tail _ (young' late)⟩
    · rw [if_neg late]
      exact ⟨young, rfl, fun k hk => .tail _ (listed k hk),
        forall_mem_cons.2 ⟨⟨t, time, fun late' => absurd late' late⟩, all⟩⟩

section
variable [Crypto]

def Names (hs : List AUMHash) (l : List AUM) : Prop := ∀ h, h ∈ hs ↔ ∃ x ∈ l, x.hash = h

theorem Names.concat {l : List AUM} (names : Names hs l) (x : AUM) :
    Names (x.hash :: hs) (l ++ [x]) := by
  intro h
  rw [mem_cons, names h, or_comm]
  simp [or_and_right, exists_or, eq_comm]

end

variable [Crypto] [LawfulCompactableChonk σ] {U : Set AUM} {X r : AUM} {storage : σ} {next : AUM}
  {v v' : Verdict} {n : Nat}

section
variable (tree : Tree U X storage r) (mem : next ∈ stored storage)
include tree mem

theorem Tree.parent_cases :
    next = r ∧ (∀ h, next.parent = some h → Chonk.aum storage h = .error .notExist) ∨
      ∃ p ∈ stored storage, (forks U X).child p next := by
  rcases tree.root_or_parent mem with rfl | parent
  · refine .inl ⟨rfl, fun h link => ?_⟩
    rw [aum_eq_notExist tree.verified.consistent]
    rintro p hp rfl
    exact tree.root.2 p hp ⟨tree.verified.known p hp, tree.verified.known next mem, link⟩
  · exact .inr parent

theorem markMinChain_spec {i : Nat} {stop : AUMHash ⊕ AUM}
    (ok : markMinChain storage n i next v = .ok (v', stop)) :
    ∃ c ∈ stored storage, ∃ k ws,
      (forks U X).Trail (stored storage) c k next ∧ v' = v.markAll ws .setActive ∧
      (stop = .inl c.hash ∧ c = r ∧ Names ws (c :: k) ∨
        stop = .inr c ∧ k.length = n ∧ Names ws k) := by
  induction n generalizing i next v with
  | zero =>
    obtain ⟨rfl, rfl⟩ := Prod.mk.inj (Except.ok.inj ok)
    exact ⟨next, mem, [], [], .refl next, rfl, .inr ⟨rfl, rfl, by simp [Names]⟩⟩
  | succ _ ih =>
    rw [markMinChain] at ok
    rcases tree.parent_cases mem with ⟨rfl, missing⟩ | ⟨p, hp, child⟩
    · have stopped : v' = v.markAll [next.hash] .setActive ∧ stop = .inl next.hash := by
        cases link : next.parent with
        | none =>
          simp only [link, Except.ok.injEq, Prod.mk.injEq] at ok
          exact ⟨ok.1.symm, ok.2.symm⟩
        | some h =>
          simp only [link, missing h link, Except.ok.injEq, Prod.mk.injEq] at ok
          exact ⟨ok.1.symm, ok.2.symm⟩
      exact ⟨next, mem, [], [next.hash], .refl next, stopped.1,
        .inl ⟨stopped.2, rfl, by simp [Names, eq_comm]⟩⟩
    · have read : Chonk.aum storage p.hash = .ok p := hp
      simp only [child.2.2, read] at ok
      obtain ⟨c, hc, k, ws, trail, rfl, stopped⟩ := ih hp ok
      refine ⟨c, hc, k ++ [next], next.hash :: ws, trail.concat mem child, rfl, ?_⟩
      rcases stopped with ⟨rfl, root, names⟩ | ⟨rfl, length, names⟩
      · exact .inl ⟨rfl, root, names.concat next⟩
      · exact .inr ⟨rfl, by rw [length_append, length]; rfl, names.concat next⟩

theorem findTarget_spec {target : AUM} (ok : findTarget storage n next v = .ok (v', target)) :
    target ∈ stored storage ∧ target.messageKind = .checkpoint ∧ ∃ k ws,
      (forks U X).Trail (stored storage) target k next ∧ v' = v.markAll ws .setActive ∧
      Names ws (target :: k) := by
  induction n generalizing next v with
  | zero => cases ok
  | succ _ ih =>
    rw [findTarget] at ok
    split at ok
    next found =>
      obtain ⟨rfl, rfl⟩ := Prod.mk.inj (Except.ok.inj ok)
      exact ⟨mem, found.1, [], [next.hash], .refl next, rfl, by simp [Names, eq_comm]⟩
    next search =>
      rcases tree.parent_cases mem with ⟨rfl, missing⟩ | ⟨p, hp, child⟩
      · -- The root is a checkpoint: the search goes on only to a parent that is not stored.
        cases link : next.parent with
        | none => exact absurd ⟨tree.checkpoint, .inr link⟩ search
        | some h => simp [link, missing h link] at ok
      · have read : Chonk.aum storage p.hash = .ok p := hp
        simp only [child.2.2, Option.getD_some, read] at ok
        obtain ⟨ht, kind, k, ws, trail, rfl, names⟩ := ih hp ok
        exact ⟨ht, kind, k ++ [next], next.hash :: ws, trail.concat mem child, rfl,
          names.concat next⟩

end

section
variable (free : CollisionFree U X) (tree : Tree U X storage r)
include free tree

theorem Tree.desc_root {c : AUM}
    (mem : c ∈ stored storage) (desc : (forks U X).Desc c r) : c = r := by
  obtain ⟨l, trail⟩ := tree.connected c mem
  have laws := forks_graded free
  have := Desc.rank_le laws desc
  have := trail.rank_eq laws
  exact Desc.eq_of_rank laws desc .refl (by omega)

def Below (U : Set AUM) (X : AUM) (storage : σ) (target : AUM) (h : AUMHash) : Prop :=
  ∃ c ∈ stored storage, (forks U X).Desc c target ∧ c.parent = some h

theorem markCandidates_spec (mem : next ∈ stored storage) (ok : markCandidates storage n next v = .ok v') : ∃ ws,
      v' = v.markAll ws .setCandidate ∧ ∀ h, h ∈ ws ↔ Below U X storage next h := by
  induction n generalizing next v with
  | zero => cases ok
  | succ _ ih =>
    rw [markCandidates] at ok
    rcases tree.parent_cases mem with ⟨rfl, missing⟩ | ⟨p, hp, child⟩
    · have below : ∀ h, Below U X storage next h ↔ next.parent = some h := by
        intro h
        constructor
        · rintro ⟨c, hc, desc, link⟩
          rwa [tree.desc_root free hc desc] at link
        · exact fun link => ⟨next, mem, .refl, link⟩
      cases link : next.parent with
      | none =>
        simp only [link, Except.ok.injEq] at ok
        exact ⟨[], ok.symm, by simp [below, link]⟩
      | some h =>
        simp only [link, missing h link, Except.ok.injEq] at ok
        exact ⟨[h], ok.symm, by simp [below, link, eq_comm]⟩
    · have read : Chonk.aum storage p.hash = .ok p := hp
      simp only [child.2.2, read] at ok
      obtain ⟨ws, rfl, spec⟩ := ih hp ok
      refine ⟨p.hash :: ws, rfl, fun h => ?_⟩
      rw [mem_cons, spec]
      constructor
      · rintro (rfl | ⟨c, hc, desc, link⟩)
        · exact ⟨next, mem, .refl, child.2.2⟩
        · exact ⟨c, hc, desc.tail child, link⟩
      · rintro ⟨c, hc, desc, link⟩
        rcases Relation.ReflTransGen.cases_tail desc with rfl | ⟨y, before, child'⟩
        · rw [child.2.2, Option.some.injEq] at link
          exact .inl link.symm
        · rw [(forks_graded free).parent_unique child' child] at before
          exact .inr ⟨c, hc, before, link⟩

theorem markActiveChain_spec {minChain : Int}
    {head : AUM} {ancestor : AUMHash} (mem : head ∈ stored storage)
    (ok : markActiveChain storage v minChain head.hash n = .ok (ancestor, v')) :
    ∃ target ∈ stored storage, ∃ l act cand, target.hash = ancestor ∧
      target.messageKind = .checkpoint ∧ (forks U X).Trail (stored storage) target l head ∧
      v' = (v.markAll act .setActive).markAll cand .setCandidate ∧ Names act (target :: l) ∧
      (target = r ∧ cand = [] ∨
        minChain ≤ l.length ∧ ∀ h, h ∈ cand ↔ Below U X storage target h) := by
  have read : Chonk.aum storage head.hash = .ok head := mem
  rw [markActiveChain, read, ok_bind, bind_eq_ok] at ok
  obtain ⟨⟨v₁, stop⟩, short, ok⟩ := ok
  obtain ⟨c, hc, k, ws, trail, rfl, ⟨rfl, rfl, names⟩ | ⟨rfl, length, names⟩⟩ :=
    markMinChain_spec tree mem short
  · obtain ⟨rfl, rfl⟩ := Prod.mk.inj (Except.ok.inj ok)
    exact ⟨c, hc, k, ws, [], rfl, tree.checkpoint, trail, rfl, names, .inl ⟨rfl, rfl⟩⟩
  rw [bind_eq_ok] at ok
  obtain ⟨⟨v₂, target⟩, found, ok⟩ := ok
  rw [bind_eq_ok] at ok
  obtain ⟨v₃, marked, ok⟩ := ok
  obtain ⟨rfl, rfl⟩ := Prod.mk.inj (Except.ok.inj ok)
  obtain ⟨ht, kind, m, ws', trail', rfl, names'⟩ := findTarget_spec tree hc found
  obtain ⟨cand, rfl, spec⟩ := markCandidates_spec free tree ht marked
  refine ⟨target, ht, m ++ k, ws ++ ws', cand, rfl, kind, trail'.append trail,
    by rw [Verdict.markAll_append], fun h => ?_, .inr ⟨?_, spec⟩⟩
  · rw [mem_append, names h, names' h, or_comm]
    simp [or_and_right, exists_or, or_assoc]
  · rw [length_append, length]
    omega

end

structure DescendantInv (U : Set AUM) (X : AUM) (storage : σ) (seeds leaves pending : List AUMHash) :
    Prop where
  seeds : ∀ h ∈ seeds, h ∈ leaves ++ pending
  stored : ∀ h ∈ leaves ++ pending, ∃ b ∈ stored storage, b.hash = h
  closed : ∀ b ∈ TKA.stored storage, b.hash ∈ leaves → ∀ c ∈ TKA.stored storage,
    (forks U X).child b c → c.hash ∈ leaves ++ pending

variable {w : Verdict} {seeds leaves : List AUMHash}

section
variable (free : CollisionFree U X) (verified : Verified U X storage)
include free verified

theorem markDescendantsOf_spec
    (unmarked : ∀ h, (w.flags h).leaf = false) {hs scan scan' : List AUMHash}
    (inv : DescendantInv U X storage seeds leaves (hs ++ scan))
    (ok : markDescendantsOf storage (w.markAll leaves .setLeaf) hs scan = .ok (v', scan')) :
    ∃ leaves', v' = w.markAll leaves' .setLeaf ∧
      DescendantInv U X storage seeds leaves' scan' := by
  induction hs generalizing leaves scan with
  | nil =>
    obtain ⟨rfl, rfl⟩ := Prod.mk.inj (Except.ok.inj ok)
    exact ⟨leaves, rfl, inv⟩
  | cons h hs ih =>
    have flag : ((w.markAll leaves .setLeaf).flags h).leaf = true ↔ h ∈ leaves := by
      rw [Verdict.markAll_sets RetainState.leaf fun _ => rfl]
      simp [unmarked]
    rw [markDescendantsOf] at ok
    split at ok
    next done =>
      have same : ∀ k, k ∈ leaves ++ (h :: hs ++ scan) ↔ k ∈ leaves ++ (hs ++ scan) := by
        grind
      exact ih ⟨fun k hk => (same k).1 (inv.seeds k hk), fun k hk => inv.stored k ((same k).2 hk),
        fun b hb marked c hc child => (same _).1 (inv.closed b hb marked c hc child)⟩ ok
    · rw [bind_eq_ok] at ok
      obtain ⟨cs, children, ok⟩ := ok
      rw [← Verdict.markAll_concat] at ok
      obtain ⟨b, hb, rfl⟩ := inv.stored h (by simp)
      obtain ⟨cs', children', spec⟩ := verified.childAUMs free (verified.known b hb)
      obtain rfl := Except.ok.inj (children.symm.trans children')
      have more : ∀ k, k ∈ leaves ++ [b.hash] ++ (hs ++ (scan ++ cs.map AUM.hash)) ↔
          k ∈ leaves ++ (b.hash :: hs ++ scan) ∨ k ∈ cs.map AUM.hash := by
        grind
      refine ih ⟨fun k hk => (more k).2 (.inl (inv.seeds k hk)), fun k hk => ?_, ?_⟩ ok
      · rcases (more k).1 hk with old | new
        · exact inv.stored k old
        · obtain ⟨c, hc, rfl⟩ := List.mem_map.1 new
          exact ⟨c, ((spec c).1 hc).1, rfl⟩
      · intro b' hb' marked c hc child
        rw [more]
        rcases mem_append.1 marked with marked | marked
        · exact .inl (inv.closed b' hb' marked c hc child)
        · obtain rfl := stored_injective hb' hb (mem_singleton.1 marked)
          exact .inr (List.mem_map_of_mem ((spec c).2 ⟨hc, child⟩))

theorem markDescendantsLoop_spec (unmarked : ∀ h, (w.flags h).leaf = false) {scan : List AUMHash}
    (inv : DescendantInv U X storage seeds leaves scan)
    (ok : markDescendantsLoop storage n (w.markAll leaves .setLeaf) scan = .ok v') :
    ∃ leaves', v' = w.markAll leaves' .setLeaf ∧
      DescendantInv U X storage seeds leaves' [] := by
  induction n generalizing leaves scan with
  | zero =>
    cases scan with
    | nil =>
      obtain rfl := Except.ok.inj ok
      exact ⟨leaves, rfl, inv⟩
    | cons => cases ok
  | succ _ ih =>
    cases scan with
    | nil =>
      obtain rfl := Except.ok.inj ok
      exact ⟨leaves, rfl, inv⟩
    | cons =>
      rw [markDescendantsLoop, bind_eq_ok] at ok
      obtain ⟨⟨v₁, scan₁⟩, round, ok⟩ := ok
      obtain ⟨leaves₁, rfl, inv₁⟩ :=
        markDescendantsOf_spec free verified unmarked (by rwa [append_nil]) round
      exact ih inv₁ ok

theorem markDescendantAUMs_spec (unmarked : ∀ h, (v.flags h).leaf = false)
    (listed : ∀ h, (v.flags h).retained = true → h ∈ v.keys)
    (kept : ∀ h, (v.flags h).retained = true → ∃ b ∈ stored storage, b.hash = h) {order : RangeOrder}
    (ok : markDescendantAUMs storage v order n = .ok v') : ∃ leaves,
      v' = v.markAll leaves .setLeaf ∧ (∀ h, (v.flags h).retained = true → h ∈ leaves) ∧
      (∀ h ∈ leaves, ∃ b ∈ stored storage, b.hash = h) ∧
      ∀ b ∈ stored storage, b.hash ∈ leaves → ∀ c ∈ stored storage, (forks U X).child b c →
        c.hash ∈ leaves := by
  have seeds : ∀ h, h ∈ (order.visit v.keys).filter (fun h => (v.flags h).retained) ↔
      (v.flags h).retained = true := by
    intro h
    rw [mem_filter, (order.perm v.keys).mem_iff]
    exact ⟨And.right, fun retained => ⟨listed h retained, retained⟩⟩
  have start : DescendantInv U X storage
      ((order.visit v.keys).filter fun h => (v.flags h).retained) []
      ((order.visit v.keys).filter fun h => (v.flags h).retained) :=
    ⟨fun h hh => hh, fun h hh => kept h ((seeds h).1 hh), by simp⟩
  obtain ⟨leaves, rfl, inv⟩ := markDescendantsLoop_spec free verified unmarked start ok
  exact ⟨leaves, rfl, fun h retained => by simpa using inv.seeds h ((seeds h).2 retained),
    by simpa using inv.stored, by simpa using inv.closed⟩

end

end

end ScaleTail.TKA
