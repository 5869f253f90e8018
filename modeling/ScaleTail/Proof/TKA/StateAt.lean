import ScaleTail.TKA.Authority
import ScaleTail.Proof.TKA.Lineage
import ScaleTail.Proof.TKA.Storage

/-! # The state at a stored AUM -/

namespace ScaleTail.TKA

open Lib ForkSystem LawfulChonk List Chonk

section
variable [Crypto] {σ : Type} [Chonk σ] [LawfulChonk σ]

structure Verified (U : Set AUM) (X : AUM) (storage : σ) : Prop where
  consistent : Consistent storage
  known : ∀ a ∈ stored storage, Known U X a

variable {U : Set AUM} {X a p c d top : AUM} {storage : σ} {s st : State} {n k maxIter : Nat}
  {l : List AUM}

theorem Verified.childAUMs (verified : Verified U X storage) (free : CollisionFree U X)
    (known : Known U X p) : ∃ cs, childAUMs storage p.hash = .ok cs ∧
      ∀ c, c ∈ cs ↔ c ∈ stored storage ∧ (forks U X).child p c := by
  obtain ⟨cs, ok, sound, complete⟩ := LawfulChonk.childAUMs verified.consistent p.hash
  refine ⟨cs, ok, fun c => ⟨fun hc => ?_, fun ⟨hc, _, hk, link⟩ => complete c hc ?_⟩⟩
  · obtain ⟨mem, link⟩ := sound c hc
    exact ⟨mem, known, verified.known c mem, link⟩
  · obtain ⟨n, s, hp⟩ := known
    obtain ⟨s', -, applied, -⟩ := hp.child free hk link
    exact hp.prev applied

variable {path : List AUMHash} {first : AUM} {h : AUMHash}

theorem advanceAlong_eq {cs : List AUM} (mem : d ∈ cs)
    (onPath : d.hash ∈ path) (only : ∀ e ∈ cs, e.hash ∈ path → e = d)
    (applied : s.applyVerifiedAUM d = .ok st) : advanceAlong path s cs = .ok (some d, st) := by
  unfold advanceAlong
  cases found : cs.find? fun c => c.hash ∈ path with
  | none =>
    have := find?_eq_none.1 found d mem
    simp [onPath] at this
  | some e =>
    have hit := find?_some found
    obtain rfl := only e (mem_of_find?_eq_some found) (by simpa using hit)
    simp [applied]

theorem retrace (maxIter : Nat) (free : CollisionFree U X) (verified : Verified U X storage)
    (trail : (forks U X).Trail (stored storage) c l top) (covers : ∀ x ∈ l, x.hash ∈ path)
    (onPath : ∀ x ∈ stored storage, x.hash ∈ path → (forks U X).Desc x top)
    (lineage : Lineage U X n c s) : ∃ t, Lineage U X (n + l.length) top t ∧ ∀ m,
      fastForwardLoop storage (advanceAlong path) (doneAt top.hash) maxIter m c s () =
        if l.length < m then .ok (top, t, ()) else .error (iterationLimit maxIter) := by
  have laws := forks_graded free
  induction trail generalizing n s with
  | refl =>
    refine ⟨s, lineage, fun m => ?_⟩
    cases m with
    | zero => rfl
    | succ => simp [fastForwardLoop, doneAt]
  | @step c d top _ mem child rest ih =>
    obtain ⟨s', -, applied, lineage'⟩ := lineage.child free child.2.1 child.2.2
    obtain ⟨t, final, loop⟩ :=
      ih (fun x hx => covers x (mem_cons_of_mem _ hx)) onPath lineage'
    refine ⟨t, by rwa [length_cons, ← Nat.add_assoc, Nat.add_right_comm], fun m => ?_⟩
    cases m with
    | zero => rfl
    | succ m =>
      have notDone : c.hash ≠ top.hash := by
        intro same
        obtain rfl := free.injective lineage.mem final.mem same
        have := (lineage.unique free final).1
        omega
      obtain ⟨cs, children, spec⟩ := verified.childAUMs free ⟨n, s, lineage⟩
      have only : ∀ e ∈ cs, e.hash ∈ path → e = d := by
        intro e he hit
        obtain ⟨stored, child'⟩ := (spec e).1 he
        exact Desc.eq_of_rank laws (onPath e stored hit) (rest.desc_final d mem_cons_self)
          (by rw [laws.rank_child child, laws.rank_child child'])
      have advance := advanceAlong_eq ((spec d).2 ⟨mem, child⟩) (covers d mem_cons_self)
        only applied
      simp only [fastForwardLoop, doneAt, notDone, decide_false, children, advance,
        length_cons, Nat.add_lt_add_iff_right]
      exact loop m

structure Start (U : Set AUM) (X : AUM) (storage : σ) (top : AUM) (st : State) (path : List AUMHash)
    (first : AUM) (l : List AUM) : Prop where
  lineage : ∃ n, Lineage U X n first st
  mem : first ∈ stored storage
  trail : (forks U X).Trail (stored storage) first l top
  path_eq : path = (first :: l).map AUM.hash

theorem findStart_ok (free : CollisionFree U X) (verified : Verified U X storage)
    (mem : c ∈ stored storage) (trail : (forks U X).Trail (stored storage) c l top)
    (found : findStart storage maxIter k c (l.map AUM.hash) = .ok (st, path)) :
    ∃ first l', Start U X storage top st path first l' := by
  induction k generalizing c l with
  | zero => cases found
  | succ _ ih =>
    obtain ⟨n, s, lineage⟩ := verified.known c mem
    rw [findStart] at found
    split at found
    next kind =>
      obtain ⟨st', field, rfl⟩ := lineage.checkpoint kind
      simp only [field, Except.ok.injEq, Prod.mk.injEq] at found
      obtain ⟨rfl, rfl⟩ := found
      exact ⟨c, l, ⟨n, lineage⟩, mem, trail, rfl⟩
    next kind =>
      cases n with
      | zero =>
        cases lineage with
        | root _ isCheckpoint => exact absurd isCheckpoint kind
      | succ =>
        obtain ⟨p, known, link⟩ := lineage.parent
        simp only [link] at found
        split at found
        · cases found
        rename_i p' read
        obtain ⟨hp', same⟩ := (aum_eq_ok verified.consistent).1 read
        obtain rfl := free.injective (verified.known p' hp').mem known.mem same
        exact ih hp' (.step mem ⟨known, ⟨_, _, lineage⟩, link⟩ trail) found

theorem findStart_total (maxIter : Nat) (verified : Verified U X storage) (mem : a ∈ stored storage)
    (checkpoint : a.messageKind = .checkpoint)
    (trail : (forks U X).Trail (stored storage) a l c) (enough : l.length < k)
    (path : List AUMHash) : ∃ st path', findStart storage maxIter k c path = .ok (st, path') ∧
      path'.length ≤ path.length + (l.length + 1) := by
  induction k generalizing c l path with
  | zero => omega
  | succ _ ih =>
    rw [findStart]
    split
    next kind =>
      obtain ⟨n, s, lineage⟩ := verified.known c (trail.all_mem mem c trail.final_mem)
      obtain ⟨st, field, -⟩ := lineage.checkpoint kind
      exact ⟨_, _, by rw [field], by simp⟩
    next kind =>
      rcases trail.last_step with ⟨rfl, rfl⟩ | ⟨l', p, rfl, before, -, -, link⟩
      · exact absurd checkpoint kind
      have read : aum storage p.hash = .ok p := before.all_mem mem p before.final_mem
      rw [length_append, length_singleton] at enough ⊢
      obtain ⟨st, path', found, short⟩ := ih before (by omega) (c.hash :: path)
      simp only [link, read]
      refine ⟨st, path', found, ?_⟩
      rw [length_cons] at short
      omega

section
variable (free : CollisionFree U X) (verified : Verified U X storage)
include free verified

theorem computeStateAt_start (mem : a ∈ stored storage)
    (found : findStart storage maxIter (maxIter + 1) a [] = .ok (st, path))
    (start : Start U X storage a st path first l) :
    ∃ n t, Lineage U X n a t ∧ computeStateAt storage maxIter a.hash =
      if l.length < maxIter then .ok t else .error (iterationLimit maxIter) := by
  obtain ⟨n, lineage⟩ := start.lineage
  have read : aum storage a.hash = .ok a := mem
  have readFirst : aum storage first.hash = .ok first := start.mem
  have covers : ∀ x ∈ l, x.hash ∈ path := by
    intro x hx
    rw [start.path_eq]
    exact List.mem_map_of_mem (mem_cons_of_mem _ hx)
  have onPath : ∀ x ∈ stored storage, x.hash ∈ path → (forks U X).Desc x a := by
    intro x hx hit
    rw [start.path_eq] at hit
    obtain ⟨y, hy, same⟩ := List.mem_map.1 hit
    rw [← stored_injective (start.trail.all_mem start.mem y hy) hx same]
    exact start.trail.desc_final y hy
  obtain ⟨t, final, loop⟩ := retrace maxIter free verified start.trail covers onPath lineage
  refine ⟨_, t, final, ?_⟩
  simp only [computeStateAt, read, found, ok_bind, fastForwardWithAdvancer, lineage.last, readFirst,
    loop maxIter]
  split
  · simp [final.last]
  · rfl

theorem computeStateAt_ok (computed : computeStateAt storage maxIter h = .ok s) :
    ∃ n, ∃ a ∈ stored storage, a.hash = h ∧ Lineage U X n a s := by
  cases read : aum storage h with
  | error =>
    rw [computeStateAt, read] at computed
    cases computed
  | ok a =>
    obtain ⟨mem, rfl⟩ := (aum_eq_ok verified.consistent).1 read
    have both := computed
    rw [computeStateAt, read] at both
    rw [bind_eq_ok] at both
    obtain ⟨⟨st, path⟩, found, -⟩ := both
    obtain ⟨first, l, start⟩ := findStart_ok free verified mem (.refl a) found
    obtain ⟨n, t, lineage, value⟩ := computeStateAt_start free verified mem found start
    rw [value] at computed
    split at computed
    · obtain rfl := Except.ok.inj computed
      exact ⟨n, a, mem, rfl, lineage⟩
    · cases computed

theorem computeStateAt_total
    (mem : first ∈ stored storage) (checkpoint : first.messageKind = .checkpoint)
    (trail : (forks U X).Trail (stored storage) first l a) (enough : l.length < maxIter)
    (lineage : Lineage U X n a s) : computeStateAt storage maxIter a.hash = .ok s := by
  have ha : a ∈ stored storage := trail.all_mem mem a trail.final_mem
  obtain ⟨st, path, found, short⟩ :=
    findStart_total maxIter verified mem checkpoint trail (Nat.lt_succ_of_lt enough) []
  obtain ⟨first', l', start⟩ := findStart_ok free verified ha (.refl a) found
  obtain ⟨m, t, lineage', value⟩ := computeStateAt_start free verified ha found start
  rw [start.path_eq] at short
  simp only [length_map, length_cons, length_nil] at short
  rw [value, if_pos (by omega), (lineage.unique free lineage').2]

end

theorem computeStateAt_root (verified : Verified U X storage)
    (root : (forks U X).Root (stored storage) a)
    (computed : computeStateAt storage maxIter a.hash = .ok s) : a.messageKind = .checkpoint := by
  by_contra kind
  have read : aum storage a.hash = .ok a := root.1
  rw [computeStateAt, read] at computed
  dsimp only at computed
  rw [findStart, if_neg kind] at computed
  obtain ⟨n, t, lineage⟩ := verified.known a root.1
  cases n with
  | zero =>
    cases lineage with
    | root _ isCheckpoint => exact kind isCheckpoint
  | succ =>
    obtain ⟨p, known, link⟩ := lineage.parent
    have missing : aum storage p.hash = .error .notExist := by
      rw [aum_eq_notExist verified.consistent]
      intro q hq same
      exact root.2 q hq ⟨verified.known q hq, ⟨_, _, lineage⟩, by rw [link, same]⟩
    simp only [link, missing] at computed
    cases computed

theorem computeStateAt_missing (consistent : Consistent storage)
    (missing : ∀ a ∈ stored storage, a.hash ≠ h) :
    computeStateAt storage maxIter h = .error .notExist := by
  rw [computeStateAt, (aum_eq_notExist consistent).2 missing]

end

end ScaleTail.TKA
