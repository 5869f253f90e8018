import ScaleTail.Proof.TKA.Marking

/-! # The scan for the ancestor of everything that is kept -/

namespace ScaleTail.TKA

open Lib ForkSystem LawfulChonk List RetainState Verdict Desc

namespace Verdict

variable {v : Verdict} {anc : List AUMHash} {k : AUMHash}

@[simp]
theorem candidate_markAncestor :
    ((v.markAll anc .setAncestor).flags k).candidate = (v.flags k).candidate :=
  markAll_keeps candidate fun _ => rfl

@[simp]
theorem active_markAncestor : ((v.markAll anc .setAncestor).flags k).active = (v.flags k).active :=
  markAll_keeps active fun _ => rfl

theorem ancestor_markAncestor : ((v.markAll anc .setAncestor).flags k).ancestor = true ↔
    k ∈ anc ∨ (v.flags k).ancestor = true :=
  markAll_sets ancestor fun _ => rfl

theorem retained_markAncestor : ((v.markAll anc .setAncestor).flags k).retained = true ↔
    k ∈ anc ∨ (v.flags k).retained = true :=
  markAll_sets retained fun _ => by simp [retained, setAncestor]

end Verdict

section
variable [Crypto] {σ : Type} [CompactableChonk σ]

structure Marked (U : Set AUM) (X : AUM) (storage : σ) (r target head : AUM) (v : Verdict) :
    Prop where
  mem : target ∈ stored storage
  checkpoint : target.messageKind = .checkpoint
  active : ∃ l, (forks U X).Trail (stored storage) target l head ∧
    ∀ h, (v.flags h).active = true ↔ ∃ x ∈ target :: l, x.hash = h
  candidate : target = r ∧ (∀ h, (v.flags h).candidate = false) ∨
    ∀ h, (v.flags h).candidate = true ↔ Below U X storage target h
  ancestor : ∀ h, (v.flags h).ancestor = false
  kept : ∀ h, (v.flags h).retained = true → ∃ b ∈ stored storage, b.hash = h
  closed : ∀ b ∈ stored storage, (v.flags b.hash).retained = true → ∀ c ∈ stored storage,
    (forks U X).child b c → (v.flags c.hash).retained = true

variable {U : Set AUM} {X r target head b c : AUM} {storage : σ} {v v' : Verdict}
  {anc rest : List AUMHash} {h : AUMHash} {n : Nat} {acc acc' : ScanAcc}

theorem Marked.not_active (free : CollisionFree U X)
    (marked : Marked U X storage r target head v) (mem : b ∈ stored storage)
    (desc : (forks U X).Desc b target) (other : b ≠ target) : (v.flags b.hash).active = false := by
  have laws := forks_graded free
  obtain ⟨l, trail, active⟩ := marked.active
  rw [Bool.eq_false_iff, ne_eq, active]
  rintro ⟨x, hx, same⟩
  obtain rfl := stored_injective (trail.all_mem marked.mem x hx) mem same
  have := rank_le laws desc
  have := rank_le laws (trail.desc x hx)
  exact other (eq_of_rank laws desc .refl (by omega))

def Kept (v : Verdict) (anc : List AUMHash) (h : AUMHash) : Prop :=
  h ∈ anc ∨ (v.flags h).retained = true

structure ScanInv (U : Set AUM) (X : AUM) (storage : σ) (v : Verdict) (target q : AUM)
    (anc pending : List AUMHash) (adjusted : Bool) : Prop where
  mem : q ∈ stored storage
  desc : (forks U X).Desc q target
  fixed : adjusted = false → q = target
  segment : ∀ c, (forks U X).Desc q c → (forks U X).Desc c target → Kept v anc c.hash
  linked : ∀ h ∈ anc, ∃ c ∈ stored storage, c.hash = h ∧
    ((forks U X).Desc q c ∧ (forks U X).Desc c target ∨
      ∃ p, c.parent = some p ∧ (Kept v anc p ∨ p ∈ pending))
  scanned : ∀ h, (v.flags h).retained = true → h ∈ anc ∨ h = target.hash ∨ h ∈ pending
  origin : ∀ h ∈ pending, h ∈ anc ∨ (v.flags h).retained = true ∨ (v.flags h).candidate = false

variable {q q' : AUM} {anc' pending pending' : List AUMHash} {adjusted adjusted' : Bool}

theorem ScanInv.move (inv : ScanInv U X storage v target q anc (h :: pending) adjusted)
    (mem : q' ∈ stored storage) (down : (forks U X).Desc q' q) (fixed : adjusted' = false → q' = target)
    (segment : ∀ c, (forks U X).Desc q' c → (forks U X).Desc c target → Kept v anc' c.hash)
    (here : h ∈ anc') (grow : ∀ k ∈ anc, k ∈ anc') (keep : ∀ k ∈ pending, k ∈ pending')
    (new : ∀ k ∈ anc', k ∈ anc ∨ ∃ c ∈ stored storage, c.hash = k ∧
      ((forks U X).Desc q' c ∧ (forks U X).Desc c target ∨
        ∃ p, c.parent = some p ∧ (Kept v anc' p ∨ p ∈ pending')))
    (fresh : ∀ k ∈ pending', k ∈ pending ∨ k ∈ anc' ∨ (v.flags k).candidate = false) :
    ScanInv U X storage v target q' anc' pending' adjusted' := by
  refine ⟨mem, down.trans inv.desc, fixed, segment, fun k hk => ?_, fun k hk => ?_, fun k hk => ?_⟩
  · rcases new k hk with old | linked
    · obtain ⟨c, hc, hash, ⟨up, below⟩ | ⟨p, link, kept | waiting⟩⟩ := inv.linked k old
      · exact ⟨c, hc, hash, .inl ⟨down.trans up, below⟩⟩
      · exact ⟨c, hc, hash, .inr ⟨p, link, .inl (kept.imp_left (grow p))⟩⟩
      · refine ⟨c, hc, hash, .inr ⟨p, link, ?_⟩⟩
        rcases mem_cons.1 waiting with rfl | waiting
        · exact .inl (.inl here)
        · exact .inr (keep p waiting)
    · exact linked
  · rcases inv.scanned k hk with old | top | waiting
    · exact .inl (grow k old)
    · exact .inr (.inl top)
    · rcases mem_cons.1 waiting with rfl | waiting
      · exact .inl here
      · exact .inr (.inr (keep k waiting))
  · rcases fresh k hk with old | new | plain
    · exact (inv.origin k (mem_cons_of_mem _ old)).imp_left (grow k)
    · exact .inl new
    · exact .inr (.inr plain)

structure Doomed (storage : σ) (r : AUM) (v : Verdict) (anc : List AUMHash) (acc : ScanAcc) :
    Prop where
  adjusted : acc.didAdjust = true
  missing : ∀ b ∈ stored storage, b.hash ≠ acc.candidateAncestor
  link : r.parent = some acc.candidateAncestor
  marked : acc.candidateAncestor ∈ anc
  kept : ∀ b ∈ stored storage, (v.flags b.hash).candidate = true → (v.flags b.hash).retained = true

def Scanning (U : Set AUM) (X : AUM) (storage : σ) (r target : AUM) (v : Verdict) (acc : ScanAcc)
    (rest : List AUMHash) : Prop :=
  ∃ anc, acc.verdict = v.markAll anc .setAncestor ∧
    ((∃ q, q.hash = acc.candidateAncestor ∧
        ScanInv U X storage v target q anc (rest ++ acc.nextIterScan) acc.didAdjust) ∨
      Doomed storage r v anc acc)

theorem Marked.retained_target (marked : Marked U X storage r target head v) :
    (v.flags target.hash).retained = true := by
  obtain ⟨l, -, active⟩ := marked.active
  have := (active target.hash).2 ⟨target, mem_cons_self, rfl⟩
  simp [retained, this]

theorem ScanInv.start (free : CollisionFree U X) (marked : Marked U X storage r target head v)
    (listed : ∀ h, (v.flags h).retained = true → h ∈ v.keys) (order : RangeOrder) :
    ScanInv U X storage v target target []
      ((order.visit v.keys).filter fun h => (v.flags h).retained && h ≠ target.hash) false := by
  have laws := forks_graded free
  have scan : ∀ h, h ∈ (order.visit v.keys).filter
      (fun h => (v.flags h).retained && h ≠ target.hash) ↔
        (v.flags h).retained = true ∧ h ≠ target.hash := by
    intro h
    rw [mem_filter, (order.perm v.keys).mem_iff, Bool.and_eq_true, decide_eq_true_eq]
    exact ⟨And.right, fun both => ⟨listed h both.1, both⟩⟩
  refine ⟨marked.mem, .refl, fun _ => rfl, fun c up down => ?_, by simp, fun h kept => ?_,
    fun h hh => .inr (.inl ((scan h).1 hh).1)⟩
  · have := rank_le laws up
    have := rank_le laws down
    rw [eq_of_rank laws down .refl (by omega)]
    exact .inr marked.retained_target
  · by_cases top : h = target.hash
    · exact .inr (.inl top)
    · exact .inr (.inr ((scan h).2 ⟨kept, top⟩))

theorem Marked.kept_along (marked : Marked U X storage r target head v) {l : List AUM}
    (mem : b ∈ stored storage) (kept : (v.flags b.hash).retained = true)
    (trail : (forks U X).Trail (stored storage) b l c) : (v.flags c.hash).retained = true := by
  induction trail with
  | refl => exact kept
  | step hc child _ ih => exact ih hc (marked.closed _ mem kept _ hc child)

theorem Scanning.next_round (scanning : Scanning U X storage r target v acc []) :
    Scanning U X storage r target v { acc with nextIterScan := [] } acc.nextIterScan := by
  obtain ⟨anc, verdict, ⟨q, at_q, inv⟩ | doomed⟩ := scanning
  · exact ⟨anc, verdict, .inl ⟨q, at_q, by simpa using inv⟩⟩
  · exact ⟨anc, verdict, .inr { doomed with }⟩

variable [LawfulCompactableChonk σ] {ancestor : AUMHash}

section
variable (free : CollisionFree U X) (tree : Tree U X storage r)
  (marked : Marked U X storage r target head v)
include free tree marked

theorem Marked.candidate_iff (mem : b ∈ stored storage) :
    (v.flags b.hash).candidate = true ↔ (forks U X).Desc b target ∧ b ≠ target := by
  have laws := forks_graded free
  rcases marked.candidate with ⟨rfl, none⟩ | below
  · rw [none, Bool.false_eq_true, false_iff]
    rintro ⟨desc, other⟩
    exact other (tree.desc_root free mem desc)
  rw [below]
  constructor
  · rintro ⟨c, hc, desc, link⟩
    have child : (forks U X).child b c :=
      ⟨tree.verified.known b mem, tree.verified.known c hc, link⟩
    refine ⟨.head child desc, ?_⟩
    rintro rfl
    have := laws.rank_child child
    have := rank_le laws desc
    omega
  · rintro ⟨desc, other⟩
    rcases Relation.ReflTransGen.cases_head desc with same | ⟨c, child, rest⟩
    · exact absurd same other
    · exact ⟨c, tree.between free mem marked.mem (.single child) rest, rest, child.2.2⟩

theorem markChildren_spec (ok : markChildren storage n h (v.markAll anc .setAncestor) = .ok v') : ∃ anc',
      v' = v.markAll (anc ++ anc') .setAncestor ∧ ∀ b ∈ stored storage, b.hash = h →
        (forks U X).Desc b target →
        (∀ k ∈ anc', ∃ c ∈ stored storage, c.hash = k ∧ (forks U X).Desc b c ∧
          (forks U X).Desc c target) ∧
        ∀ c, (forks U X).Desc b c → (forks U X).Desc c target →
          c = b ∨ c = target ∨ c.hash ∈ anc' := by
  have laws := forks_graded free
  induction n generalizing h anc with
  | zero => cases ok
  | succ _ ih =>
    rw [markChildren] at ok
    cases listed : Chonk.childAUMs storage h with
    | error => simp [listed] at ok
    | ok cs =>
      have spec : ∀ b ∈ stored storage, b.hash = h →
          ∀ c, c ∈ cs ↔ c ∈ stored storage ∧ (forks U X).child b c := by
        rintro b hb rfl
        obtain ⟨cs', listed', spec⟩ := tree.verified.childAUMs free (tree.verified.known b hb)
        obtain rfl := Except.ok.inj (listed.symm.trans listed')
        exact spec
      simp only [listed, candidate_markAncestor, active_markAncestor] at ok
      cases next : cs.find? fun a => (v.flags a.hash).candidate && !(v.flags a.hash).active with
      | none =>
        simp only [next, Except.ok.injEq] at ok
        refine ⟨[], by rw [append_nil, ← ok], fun b hb same desc => ⟨by simp, ?_⟩⟩
        intro c above below
        rcases Relation.ReflTransGen.cases_head above with same' | ⟨d, child, rest⟩
        · exact .inl same'.symm
        have hd := tree.between free hb marked.mem (.single child) (rest.trans below)
        by_cases top : d = target
        · subst top
          have := rank_le laws rest
          have := rank_le laws below
          exact .inr (.inl (eq_of_rank laws below .refl (by omega)))
        · have candidate := (marked.candidate_iff free tree hd).2 ⟨rest.trans below, top⟩
          have passive := marked.not_active free hd (rest.trans below) top
          have := find?_eq_none.1 next d ((spec b hb same d).2 ⟨hd, child⟩)
          simp [candidate, passive] at this
      | some a =>
        simp only [next] at ok
        rw [← markAll_concat] at ok
        obtain ⟨anc', rfl, above⟩ := ih ok
        refine ⟨a.hash :: anc', by rw [append_assoc]; rfl, fun b hb same desc => ?_⟩
        obtain ⟨ha, child⟩ := (spec b hb same a).1 (mem_of_find?_eq_some next)
        have flagged := find?_some next
        simp only [Bool.and_eq_true] at flagged
        obtain ⟨desc', other⟩ := (marked.candidate_iff free tree ha).1 flagged.1
        obtain ⟨sound, complete⟩ := above a ha rfl desc'
        refine ⟨forall_mem_cons.2 ⟨⟨a, ha, rfl, .single child, desc'⟩, ?_⟩, ?_⟩
        · intro k hk
          obtain ⟨c, hc, hash, up, down⟩ := sound k hk
          exact ⟨c, hc, hash, .head child up, down⟩
        · intro c up down
          rcases Relation.ReflTransGen.cases_head up with same' | ⟨d, child', rest⟩
          · exact .inl same'.symm
          have : d = a := eq_of_rank laws (rest.trans down) desc'
            (by rw [laws.rank_child child', laws.rank_child child])
          subst this
          rcases complete c rest down with rfl | rfl | listed'
          · exact .inr (.inr mem_cons_self)
          · exact .inr (.inl rfl)
          · exact .inr (.inr (mem_cons_of_mem _ listed'))

end

inductive Scanned (storage : σ) (v : Verdict) (anc : List AUMHash) (acc : ScanAcc) (h : AUMHash) :
    ScanAcc → Prop
  | skipped (done : h ∈ anc) : Scanned storage v anc acc h acc
  | intersected (a : AUM) (p : AUMHash) (mem : a ∈ stored storage) (hash : a.hash = h)
      (link : a.parent = some p) (kept : Kept v (anc ++ [h]) p) :
      Scanned storage v anc acc h { acc with verdict := v.markAll (anc ++ [h]) .setAncestor }
  | adjusted (a : AUM) (p : AUMHash) (v' : Verdict) (fuel : Nat) (mem : a ∈ stored storage)
      (hash : a.hash = h) (old : h ∉ anc) (link : a.parent = some p)
      (dropped : ¬ Kept v (anc ++ [h]) p) (candidate : (v.flags p).candidate = true)
      (children : markChildren storage fuel p (v.markAll (anc ++ [h] ++ [p]) .setAncestor) = .ok v') :
      Scanned storage v anc acc h ⟨v', p, true, acc.nextIterScan ++ [p]⟩
  | walked (a : AUM) (p : AUMHash) (mem : a ∈ stored storage) (hash : a.hash = h)
      (link : a.parent = some p) (plain : (v.flags p).candidate = false) :
      Scanned storage v anc acc h { acc with
        verdict := v.markAll (anc ++ [h]) .setAncestor
        nextIterScan := acc.nextIterScan ++ [p] }

theorem scanOne_scanned (consistent : Consistent storage) (unmarked : ∀ h, (v.flags h).ancestor = false)
    (verdict : acc.verdict = v.markAll anc .setAncestor)
    (ok : scanOne storage n acc h = .ok acc') : Scanned storage v anc acc h acc' := by
  unfold scanOne at ok
  rw [verdict, ← markAll_concat] at ok
  split at ok
  next done =>
    rw [ancestor_markAncestor, unmarked, or_iff_left Bool.false_ne_true] at done
    obtain rfl := Except.ok.inj ok
    exact .skipped done
  next fresh =>
    rw [ancestor_markAncestor, unmarked, or_iff_left Bool.false_ne_true] at fresh
    dsimp only at ok
    split at ok
    · cases ok
    rename_i a read
    obtain ⟨mem, hash⟩ := (aum_eq_ok consistent).1 read
    split at ok
    · cases ok
    rename_i p link
    rw [candidate_markAncestor] at ok
    split at ok
    next kept =>
      obtain rfl := Except.ok.inj ok
      exact .intersected a p mem hash link (retained_markAncestor.1 kept)
    next dropped =>
      split at ok
      next candidate =>
        rw [bind_eq_ok] at ok
        obtain ⟨v', children, ok⟩ := ok
        obtain rfl := Except.ok.inj ok
        rw [← markAll_concat] at children
        exact .adjusted a p v' n mem hash fresh link
          (fun kept => dropped (retained_markAncestor.2 kept)) candidate children
      next plain =>
        obtain rfl := Except.ok.inj ok
        exact .walked a p mem hash link (Bool.eq_false_iff.2 plain)

section
variable (tree : Tree U X storage r) (marked : Marked U X storage r target head v)
include tree marked

theorem Marked.candidate_missing (candidate : (v.flags h).candidate = true)
    (missing : ∀ b ∈ stored storage, b.hash ≠ h) : r.parent = some h := by
  rcases marked.candidate with ⟨-, none⟩ | below
  · rw [none] at candidate
    cases candidate
  · obtain ⟨c, hc, -, link⟩ := (below h).1 candidate
    rcases tree.root_or_parent hc with rfl | ⟨p, hp, child⟩
    · exact link
    · rw [child.2.2, Option.some.injEq] at link
      exact absurd link (missing p hp)

theorem Scanned.doomed (doomed : Doomed storage r v anc acc) (verdict : acc.verdict = v.markAll anc .setAncestor)
    (scanned : Scanned storage v anc acc h acc') : Scanning U X storage r target v acc' rest := by
  obtain ⟨adjusted, missing, link, listed, kept⟩ := doomed
  cases scanned with
  | skipped => exact ⟨anc, verdict, .inr ⟨adjusted, missing, link, listed, kept⟩⟩
  | intersected | walked =>
    exact ⟨_, rfl, .inr ⟨adjusted, missing, link, mem_append_left _ listed, kept⟩⟩
  | adjusted _ p _ _ _ _ _ _ dropped candidate =>
    refine absurd ?_ dropped
    by_cases held : ∃ b ∈ stored storage, b.hash = p
    · obtain ⟨b, hb, rfl⟩ := held
      exact .inr (kept b hb candidate)
    · push Not at held
      have same := marked.candidate_missing tree candidate held
      rw [link, Option.some.injEq] at same
      exact .inl (mem_append_left _ (same ▸ listed))

end

theorem backToCheckpoint_spec (tree : Tree U X storage r) {next : AUM}
    (mem : next ∈ stored storage) (ok : backToCheckpoint storage n next v = .ok (ancestor, v')) :
    ∃ c ∈ stored storage, c.hash = ancestor ∧ c.messageKind = .checkpoint ∧ ∃ k ws,
      (forks U X).Trail (stored storage) c k next ∧ v' = v.markAll ws .setActive ∧
      Names ws (c :: k) := by
  induction n generalizing next v with
  | zero => cases ok
  | succ _ ih =>
    rw [backToCheckpoint] at ok
    split at ok
    next kind =>
      obtain ⟨rfl, rfl⟩ := Prod.mk.inj (Except.ok.inj ok)
      exact ⟨next, mem, rfl, kind, [], [next.hash], .refl next, rfl, by simp [Names, eq_comm]⟩
    next search =>
      rcases tree.root_or_parent mem with rfl | ⟨p, hp, child⟩
      · exact absurd tree.checkpoint search
      have read : Chonk.aum storage p.hash = .ok p := hp
      simp only [child.2.2, read] at ok
      obtain ⟨c, hc, hash, kind, k, ws, trail, rfl, names⟩ := ih hp ok
      exact ⟨c, hc, hash, kind, k ++ [next], next.hash :: ws, trail.concat mem child, rfl,
        names.concat next⟩

section
variable (free : CollisionFree U X) (tree : Tree U X storage r)
  (marked : Marked U X storage r target head v)
include free tree marked

theorem Marked.kept_of_root
    (root : (v.flags r.hash).retained = true ∨ (v.flags r.hash).candidate = false)
    (mem : b ∈ stored storage) (candidate : (v.flags b.hash).candidate = true) :
    (v.flags b.hash).retained = true := by
  rcases root with root | plain
  · obtain ⟨l, trail⟩ := tree.connected b mem
    exact marked.kept_along tree.root.1 root trail
  have top : r = target := by
    by_contra other
    obtain ⟨l, trail⟩ := tree.connected target marked.mem
    have := (marked.candidate_iff free tree tree.root.1).2
      ⟨trail.desc target trail.final_mem, other⟩
    rw [plain] at this
    cases this
  obtain ⟨desc, other⟩ := (marked.candidate_iff free tree mem).1 candidate
  rw [← top] at desc other
  exact absurd (tree.desc_root free mem desc) other

theorem Scanned.scanning
    (inv : ScanInv U X storage v target q anc (h :: (rest ++ acc.nextIterScan)) acc.didAdjust)
    (verdict : acc.verdict = v.markAll anc .setAncestor) (at_q : q.hash = acc.candidateAncestor)
    (scanned : Scanned storage v anc acc h acc') : Scanning U X storage r target v acc' rest := by
  have laws := forks_graded free
  have segment : ∀ c, (forks U X).Desc q c → (forks U X).Desc c target →
      Kept v (anc ++ [h]) c.hash :=
    fun c up down => (inv.segment c up down).imp_left (mem_append_left _)
  cases scanned with
  | skipped done =>
    exact ⟨anc, verdict, .inl ⟨q, at_q, inv.move inv.mem .refl inv.fixed inv.segment done
      (fun _ hk => hk) (fun _ hk => hk) (fun _ hk => .inl hk) (fun _ hk => .inl hk)⟩⟩
  | intersected a p mem hash link kept =>
    refine ⟨anc ++ [h], rfl, .inl ⟨q, at_q, inv.move inv.mem .refl inv.fixed segment (by simp)
      (fun _ hk => mem_append_left _ hk) (fun _ hk => hk) ?_ (fun _ hk => .inl hk)⟩⟩
    intro k hk
    refine (mem_append.1 hk).imp_right fun hk => ⟨a, mem, ?_, .inr ⟨p, link, .inl kept⟩⟩
    rw [hash, mem_singleton.1 hk]
  | adjusted a p _ _ mem hash old link dropped candidate children =>
    obtain ⟨anc', rfl, above⟩ := markChildren_spec free tree marked children
    refine ⟨_, rfl, ?_⟩
    by_cases held : ∃ b ∈ stored storage, b.hash = p
    · obtain ⟨b, hb, rfl⟩ := held
      obtain ⟨desc, -⟩ := (marked.candidate_iff free tree hb).1 candidate
      obtain ⟨sound, complete⟩ := above b hb rfl desc
      have down : (forks U X).Desc b q := (total laws desc inv.desc).resolve_right
        fun up => dropped (segment b up desc)
      refine .inl ⟨b, rfl, inv.move hb down (fun no => nomatch no) ?_ (by simp) (by grind) (by grind)
        ?_ (by grind)⟩
      · intro c up below
        rcases complete c up below with rfl | rfl | listed
        · exact .inl (by simp)
        · exact .inr (marked.retained_target)
        · exact .inl (by simp [listed])
      · intro k hk
        simp only [mem_append, mem_singleton] at hk
        rcases hk with ((old | rfl) | rfl) | listed
        · exact .inl old
        · exact .inr ⟨a, mem, hash, .inr ⟨b.hash, link, .inl (.inl (by simp))⟩⟩
        · exact .inr ⟨b, hb, rfl, .inl ⟨.refl, desc⟩⟩
        · obtain ⟨c, hc, same, up, below⟩ := sound k listed
          exact .inr ⟨c, hc, same, .inl ⟨up, below⟩⟩
    · push Not at held
      have top : a = r := by
        rcases tree.root_or_parent mem with same | ⟨y, hy, child⟩
        · exact same
        · rw [child.2.2, Option.some.injEq] at link
          exact absurd link (held y hy)
      have origin := (inv.origin h mem_cons_self).resolve_left old
      rw [← hash, top] at origin
      exact .inr ⟨rfl, held, marked.candidate_missing tree candidate held, by simp,
        fun b hb => marked.kept_of_root free tree origin hb⟩
  | walked a p mem hash link =>
    refine ⟨anc ++ [h], rfl, .inl ⟨q, at_q, inv.move inv.mem .refl inv.fixed segment (by simp)
      (fun _ hk => mem_append_left _ hk) (fun _ hk => by grind) ?_ (fun k hk => ?_)⟩⟩
    · intro k hk
      refine (mem_append.1 hk).imp_right fun hk => ⟨a, mem, ?_, .inr ⟨p, link, .inr (by simp)⟩⟩
      rw [hash, mem_singleton.1 hk]
    · rcases mem_append.1 hk with hk | hk
      · exact .inl (mem_append_left _ hk)
      · rcases mem_append.1 hk with hk | hk
        · exact .inl (mem_append_right _ hk)
        · exact .inr (.inr (by rwa [mem_singleton.1 hk]))

theorem scanOne_scanning (scanning : Scanning U X storage r target v acc (h :: rest))
    (ok : scanOne storage n acc h = .ok acc') : Scanning U X storage r target v acc' rest := by
  obtain ⟨anc, verdict, ⟨q, at_q, inv⟩ | doomed⟩ := scanning
  · exact (scanOne_scanned tree.verified.consistent marked.ancestor verdict ok).scanning free tree
      marked inv verdict at_q
  · exact (scanOne_scanned tree.verified.consistent marked.ancestor verdict ok).doomed tree marked
      doomed verdict

theorem scanRound_scanning (scanning : Scanning U X storage r target v acc rest)
    (ok : scanRound storage n acc rest = .ok acc') : Scanning U X storage r target v acc' [] := by
  induction rest generalizing acc with
  | nil =>
    obtain rfl := Except.ok.inj ok
    exact scanning
  | cons _ _ ih =>
    rw [scanRound, bind_eq_ok] at ok
    obtain ⟨acc₁, step, ok⟩ := ok
    exact ih (scanOne_scanning free tree marked scanning step) ok

theorem scanLoop_scanning {fuel : Nat} {scan : List AUMHash}
    (scanning : Scanning U X storage r target v { acc with nextIterScan := [] } scan)
    (ok : scanLoop storage fuel n acc scan = .ok acc') : Scanning U X storage r target v
      { acc' with nextIterScan := [] } [] := by
  induction n generalizing acc scan with
  | zero =>
    cases scan with
    | nil =>
      obtain rfl := Except.ok.inj ok
      exact scanning
    | cons => cases ok
  | succ _ ih =>
    cases scan with
    | nil =>
      obtain rfl := Except.ok.inj ok
      exact scanning
    | cons =>
      rw [scanLoop, bind_eq_ok] at ok
      obtain ⟨acc₁, round, ok⟩ := ok
      exact ih (scanRound_scanning free tree marked scanning round).next_round ok

theorem ScanInv.parent_kept
    (inv : ScanInv U X storage v target q anc [] adjusted) (mem : b ∈ stored storage)
    (kept : Kept v anc b.hash) :
    b = q ∨ ∃ p ∈ stored storage, Kept v anc p.hash ∧ (forks U X).child p b := by
  have onChain : (forks U X).Desc q b → (forks U X).Desc b target →
      b = q ∨ ∃ p ∈ stored storage, Kept v anc p.hash ∧ (forks U X).child p b := by
    intro up down
    rcases Relation.ReflTransGen.cases_tail up with rfl | ⟨y, before, child⟩
    · exact .inl rfl
    have down' : (forks U X).Desc y target := .head child down
    exact .inr ⟨y, tree.between free inv.mem marked.mem before down', inv.segment y before down',
      child⟩
  have marked' : b.hash ∈ anc → b = q ∨ ∃ p ∈ stored storage, Kept v anc p.hash ∧
      (forks U X).child p b := by
    intro listed
    obtain ⟨c, hc, same, ⟨up, down⟩ | ⟨p, link, kept | waiting⟩⟩ := inv.linked _ listed
    · rw [stored_injective hc mem same] at up down
      exact onChain up down
    · rw [stored_injective hc mem same] at link
      have held : ∃ y ∈ stored storage, y.hash = p := by
        rcases kept with listed | retained
        · obtain ⟨y, hy, hash, -⟩ := inv.linked p listed
          exact ⟨y, hy, hash⟩
        · exact marked.kept p retained
      obtain ⟨y, hy, rfl⟩ := held
      exact .inr ⟨y, hy, kept, tree.verified.known y hy, tree.verified.known b mem, link⟩
    · cases waiting
  rcases kept with listed | retained
  · exact marked' listed
  rcases inv.scanned _ retained with listed | top | waiting
  · exact marked' listed
  · rw [stored_injective mem marked.mem top] at onChain ⊢
    exact onChain inv.desc .refl
  · cases waiting

structure Anchored (U : Set AUM) (X : AUM) (storage : σ) (target anchor : AUM) (v v' : Verdict) :
    Prop where
  mem : anchor ∈ stored storage
  checkpoint : anchor.messageKind = .checkpoint
  desc : (forks U X).Desc anchor target
  path : ∀ c, (forks U X).Desc anchor c → (forks U X).Desc c target →
    (v'.flags c.hash).retained = true
  linked : ∀ b ∈ stored storage, (v'.flags b.hash).retained = true →
    b = anchor ∨ ∃ p ∈ stored storage, (v'.flags p.hash).retained = true ∧ (forks U X).child p b
  kept : ∀ h, (v'.flags h).retained = true → ∃ b ∈ stored storage, b.hash = h
  grow : ∀ h, (v.flags h).retained = true → (v'.flags h).retained = true
  keys : ∀ h, h ∈ v'.keys ∧ (v'.flags h).retained = false ↔
    h ∈ v.keys ∧ (v'.flags h).retained = false

theorem Anchored.of_scan
    (inv : ScanInv U X storage v target q anc [] adjusted) {anchor : AUM} {k : List AUM}
    {ws : List AUMHash} (mem : anchor ∈ stored storage) (kind : anchor.messageKind = .checkpoint)
    (trail : (forks U X).Trail (stored storage) anchor k q)
    (sound : ∀ h ∈ ws, ∃ x ∈ anchor :: k, x.hash = h)
    (complete : ∀ x ∈ anchor :: k, x.hash ∈ ws ∨ Kept v anc x.hash) :
    Anchored U X storage target anchor v ((v.markAll anc .setAncestor).markAll ws .setActive) := by
  have laws := forks_graded free
  have retained : ∀ h, (((v.markAll anc .setAncestor).markAll ws .setActive).flags h).retained =
      true ↔ h ∈ ws ∨ Kept v anc h := by
    intro h
    rw [markAll_sets retained fun _ => by
      simp [retained, setActive], retained_markAncestor, Kept]
  have onTrail : ∀ b ∈ anchor :: k, b = anchor ∨ ∃ p ∈ stored storage,
      (p.hash ∈ ws ∨ Kept v anc p.hash) ∧ (forks U X).child p b := by
    intro b hb
    refine (mem_cons.1 hb).imp_right fun hb => ?_
    obtain ⟨p, hp, child⟩ := trail.parent_on b hb
    exact ⟨p, trail.all_mem mem p hp, complete p hp, child⟩
  refine ⟨mem, kind, (trail.desc q trail.final_mem).trans inv.desc, fun c up down => ?_,
    fun b hb kept => ?_, fun h kept => ?_, fun h kept => ?_, fun h => ?_⟩
  · rw [retained]
    rcases total laws down inv.desc with below | above
    · exact complete c (trail.mem_of_desc laws below (rank_le laws up))
    · exact .inr (inv.segment c above down)
  · simp only [retained] at kept ⊢
    rcases kept with listed | kept
    · obtain ⟨x, hx, same⟩ := sound _ listed
      rw [stored_injective (trail.all_mem mem x hx) hb same] at hx
      exact onTrail b hx
    · rcases inv.parent_kept free tree marked hb kept with rfl | ⟨p, hp, kept, child⟩
      · exact onTrail b trail.final_mem
      · exact .inr ⟨p, hp, .inr kept, child⟩
  · rcases (retained h).1 kept with listed | listed | kept
    · obtain ⟨x, hx, same⟩ := sound h listed
      exact ⟨x, trail.all_mem mem x hx, same⟩
    · obtain ⟨c, hc, same, -⟩ := inv.linked h listed
      exact ⟨c, hc, same⟩
    · exact marked.kept h kept
  · exact (retained h).2 (.inr (.inr kept))
  · refine and_congr_left fun dropped => ?_
    rw [Bool.eq_false_iff, ne_eq, retained, Kept, not_or, not_or] at dropped
    rw [mem_keys_markAll, mem_keys_markAll, or_iff_left dropped.1,
      or_iff_left dropped.2.1]

theorem markAncestorIntersectionAUMs_spec
    (listed : ∀ h, (v.flags h).retained = true → h ∈ v.keys) {order : RangeOrder}

    (ok : markAncestorIntersectionAUMs storage v target.hash order n = .ok (ancestor, v')) :
    ∃ anchor, anchor.hash = ancestor ∧ Anchored U X storage target anchor v v' := by
  rw [markAncestorIntersectionAUMs, bind_eq_ok] at ok
  obtain ⟨acc, scanned, ok⟩ := ok
  have start : Scanning U X storage r target v ⟨v, target.hash, false, []⟩
      ((order.visit v.keys).filter fun h => (v.flags h).retained && h ≠ target.hash) :=
    ⟨[], rfl, .inl ⟨target, rfl, by simpa using ScanInv.start free marked listed order⟩⟩
  obtain ⟨anc, verdict, ⟨q, at_q, inv⟩ | doomed⟩ :=
    scanLoop_scanning free tree marked start scanned
  · unfold adjustAncestor at ok
    rw [verdict, ← at_q] at ok
    split at ok
    · have read : Chonk.aum storage q.hash = .ok q := inv.mem
      simp only [read] at ok
      obtain ⟨anchor, mem, hash, kind, k, ws, trail, rfl, names⟩ :=
        backToCheckpoint_spec tree inv.mem ok
      exact ⟨anchor, hash, .of_scan free tree marked inv mem kind trail (fun h hh => (names h).1 hh)
        fun x hx => .inl ((names _).2 ⟨x, hx, rfl⟩)⟩
    next fixed =>
      obtain ⟨rfl, rfl⟩ := Prod.mk.inj (Except.ok.inj ok)
      obtain rfl := inv.fixed (Bool.eq_false_iff.2 fixed)
      have none : ∀ h ∈ ([] : List AUMHash), ∃ x ∈ [q], x.hash = h := by simp
      have kept : ∀ x ∈ [q], x.hash ∈ ([] : List AUMHash) ∨ Kept v anc x.hash := by
        intro x hx
        rw [mem_singleton.1 hx]
        exact .inr (.inr marked.retained_target)
      exact ⟨q, rfl, .of_scan free tree marked inv inv.mem marked.checkpoint (.refl q) none kept⟩
  · obtain ⟨adjusted, missing, -⟩ := doomed
    have read := (aum_eq_notExist tree.verified.consistent).2 missing
    rw [adjustAncestor, if_pos adjusted] at ok
    simp [read] at ok

end

end

end ScaleTail.TKA
