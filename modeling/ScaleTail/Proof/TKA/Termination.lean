import ScaleTail.Proof.TKA.Restart

/-! # Compaction terminates -/

namespace ScaleTail.TKA

open Lib ForkSystem LawfulChonk List RetainState

def Err.OutOfFuel : Err → Prop
  | .outOfFuel => True
  | .wrap _ cause => cause.OutOfFuel
  | _ => False

def Halts {α : Type} (x : Except Err α) : Prop := ∀ err, x = .error err → ¬ err.OutOfFuel

namespace Halts

variable {α β : Type}

@[simp]
theorem ok {a : α} : Halts (.ok a : Except Err α) := by
  intro err impossible
  cases impossible

theorem error {err : Err} (real : ¬ err.OutOfFuel) : Halts (.error err : Except Err α) := by
  intro err' same
  rwa [← Except.error.inj same]

theorem bind {x : Except Err α} {f : α → Except Err β} (first : Halts x)
    (rest : ∀ a, x = .ok a → Halts (f a)) : Halts (x >>= f) := by
  cases x with
  | ok a => exact rest a rfl
  | error err => exact error (first err rfl)

end Halts

namespace Verdict

def remaining (f : RetainState → Bool) (all : List AUMHash) (v : Verdict) : Nat :=
  all.countP fun h => !f (v.flags h)

variable {f : RetainState → Bool} {set : RetainState → RetainState} {all : List AUMHash}
  {v : Verdict} {h : AUMHash}

theorem remaining_mark_le (sets : ∀ s, f (set s) = true) :
    (v.mark h set).remaining f all ≤ v.remaining f all := by
  refine countP_mono_left fun k _ lacks => ?_
  rw [flags_mark] at lacks
  split at lacks
  · simp [sets] at lacks
  · exact lacks

theorem remaining_mark_lt (sets : ∀ s, f (set s) = true) (mem : h ∈ all)
    (lacks : f (v.flags h) = false) : (v.mark h set).remaining f all < v.remaining f all := by
  induction all with
  | nil => cases mem
  | cons k all ih =>
    have le : (v.mark h set).remaining f all ≤ v.remaining f all := remaining_mark_le sets
    unfold remaining at le ih ⊢
    rw [countP_cons, countP_cons]
    by_cases same : k = h
    · subst same
      have marked : f ((v.mark k set).flags k) = true := by rw [flags_mark, if_pos rfl, sets]
      rw [if_neg (by simp [marked]), if_pos (by simp [lacks])]
      omega
    · have := ih ((mem_cons.1 mem).resolve_left (Ne.symm same))
      rw [flags_mark, if_neg same]
      omega

end Verdict

section
variable [Crypto] {σ : Type} [CompactableChonk σ]

theorem markChildren_remaining {storage : σ} {all : List AUMHash} {v v' : Verdict}
    {n : Nat} {next : AUMHash} (ok : markChildren storage n next v = .ok v') :
    v'.remaining ancestor all ≤ v.remaining ancestor all := by
  induction n generalizing next v with
  | zero => cases ok
  | succ _ ih =>
    rw [markChildren] at ok
    split at ok
    · cases ok
    split at ok
    · obtain rfl := Except.ok.inj ok
      exact le_rfl
    · exact (ih ok).trans (Verdict.remaining_mark_le fun _ => rfl)

variable [LawfulCompactableChonk σ] {U : Set AUM} {X r next : AUM} {storage : σ} {v v' : Verdict} {l : List AUM} {all : List AUMHash} {n : Nat}
  {hs : List AUMHash}

theorem aum_halts {α : Type} (consistent : Consistent storage) {h : AUMHash} {err : Err}
    (missing : Chonk.aum storage h = .error err) (context : String) :
    Halts (.error (.wrap context err) : Except Err α) := by
  rw [aum_error consistent missing]
  exact .error id

section
variable (free : CollisionFree U X) (tree : Tree U X storage r)
include free tree

/-- The end of a trail from the root is the root, or its parent is the end of a shorter one. -/
theorem Tree.climb (trail : (forks U X).Trail (stored storage) r l next) :
    next = r ∧ (∀ h, next.parent = some h → Chonk.aum storage h = .error .notExist) ∨
      ∃ p k, next.parent = some p.hash ∧ Chonk.aum storage p.hash = .ok p ∧
        (forks U X).Trail (stored storage) r k p ∧ l.length = k.length + 1 := by
  rcases tree.parent_cases (trail.all_mem tree.root.1 next trail.final_mem) with
    root | ⟨p, hp, child⟩
  · exact .inl root
  rcases trail.last_step with ⟨-, rfl⟩ | ⟨k, q, rfl, before, child'⟩
  · exact absurd child (tree.root.2 p hp)
  · obtain rfl := (forks_graded free).parent_unique child child'
    exact .inr ⟨p, k, child.2.2, hp, before, by simp⟩

section
variable (trail : (forks U X).Trail (stored storage) r l next) (enough : l.length < n)
include trail enough

theorem findTarget_halts : Halts (findTarget storage n next v) := by
  induction n generalizing next v l with
  | zero => omega
  | succ _ ih =>
    rw [findTarget]
    split
    · exact .ok
    rename_i search
    rcases tree.climb free trail with ⟨rfl, missing⟩ | ⟨p, k, link, read, before, length⟩
    · cases link : next.parent with
      | none => exact absurd ⟨tree.checkpoint, .inr link⟩ search
      | some h =>
        simp only [Option.getD_some, missing h link]
        exact .error id
    · simp only [link, Option.getD_some, read]
      exact ih before (by omega)

theorem markCandidates_halts : Halts (markCandidates storage n next v) := by
  induction n generalizing next v l with
  | zero => omega
  | succ _ ih =>
    rw [markCandidates]
    rcases tree.climb free trail with ⟨rfl, missing⟩ | ⟨p, k, link, read, before, length⟩
    · cases link : next.parent with
      | none => exact .ok
      | some h =>
        simp only [missing h link]
        exact .ok
    · simp only [link, read]
      exact ih before (by omega)

theorem backToCheckpoint_halts : Halts (backToCheckpoint storage n next v) := by
  induction n generalizing next v l with
  | zero => omega
  | succ _ ih =>
    rw [backToCheckpoint]
    split
    · exact .ok
    rename_i kind
    rcases tree.climb free trail with ⟨rfl, -⟩ | ⟨p, k, link, read, before, length⟩
    · exact absurd tree.checkpoint kind
    · simp only [link, read]
      exact ih before (by omega)

end

end

theorem markChildren_halts (consistent : Consistent storage) {next : AUMHash}
    (bounded : ChainsBelow (stored storage) (l.length + n)) (mem : ∀ x ∈ l, x ∈ stored storage)
    (chain : l.IsChain fun p c => c.parent = some p.hash)
    (last : ∀ x ∈ l.getLast?, x.hash = next) : Halts (markChildren storage n next v) := by
  induction n generalizing next v l with
  | zero => exact absurd (bounded l mem chain) (by simp)
  | succ _ ih =>
    obtain ⟨cs, children, spec, -⟩ := LawfulChonk.childAUMs consistent next
    rw [markChildren, children]
    dsimp only
    split
    · exact .ok
    rename_i a found
    obtain ⟨ha, link⟩ := spec a (mem_of_find?_eq_some found)
    refine ih (l := l ++ [a]) ?_ ?_ ?_ (by simp)
    · rw [length_append, length_singleton, Nat.add_assoc, Nat.add_comm 1]
      exact bounded
    · intro x hx
      rcases mem_append.1 hx with hx | hx
      · exact mem x hx
      · rwa [mem_singleton.1 hx]
    · refine isChain_append.2 ⟨chain, .singleton a, fun x hx y hy => ?_⟩
      obtain rfl : a = y := by simpa using hy
      rw [link, last x hx]

theorem markMinChain_halts (consistent : Consistent storage) (i : Nat) :
    Halts (markMinChain storage n i next v) := by
  induction n generalizing i next v with
  | zero => exact .ok
  | succ _ ih =>
    rw [markMinChain]
    split
    · exact .ok
    split
    · exact .ok
    next missing => exact aum_halts consistent missing _
    · exact ih (i + 1)

theorem markActiveChain_halts (free : CollisionFree U X) (tree : Tree U X storage r) {minChain : Int}
    {head : AUM} (mem : head ∈ stored storage)
    (bounded : ∀ l b, (forks U X).Trail (stored storage) r l b → l.length < n) :
    Halts (markActiveChain storage v minChain head.hash n) := by
  have read : Chonk.aum storage head.hash = .ok head := mem
  rw [markActiveChain, read, ok_bind]
  refine (markMinChain_halts tree.verified.consistent 0).bind fun x short => ?_
  obtain ⟨v₁, stop⟩ := x
  obtain ⟨c, hc, -, ws, -, -, ⟨rfl, -⟩ | ⟨rfl, -⟩⟩ := markMinChain_spec tree mem short
  · exact .ok
  obtain ⟨l, trail⟩ := tree.connected c hc
  refine (findTarget_halts free tree trail (bounded l c trail)).bind fun x found => ?_
  obtain ⟨v₂, target⟩ := x
  obtain ⟨k, trail'⟩ := tree.connected target (findTarget_spec tree hc found).1
  exact (markCandidates_halts free tree trail' (bounded k target trail')).bind fun _ _ => .ok

theorem markYoungLoop_halts (consistent : Consistent storage) {minTime : Time} :
    Halts (markYoungLoop storage minTime v hs) := by
  induction hs generalizing v with
  | nil => exact .ok
  | cons _ _ ih =>
    refine .bind (fun err missing => ?_) fun _ _ => ih
    rw [LawfulCompactableChonk.commitTime_error consistent missing]
    exact id

variable {scan : List AUMHash}

section
variable (consistent : Consistent storage) (listed : ∀ x ∈ stored storage, x.hash ∈ all)
include consistent listed

theorem markDescendantsOf_halts (sub : hs ⊆ all)
    (sub' : scan ⊆ all) : ∃ v' scan', markDescendantsOf storage v hs scan = .ok (v', scan') ∧
      scan' ⊆ all ∧ (v' = v ∧ scan' = scan ∨
        v'.remaining leaf all < v.remaining leaf all) := by
  induction hs generalizing v scan with
  | nil => exact ⟨v, scan, rfl, sub', .inl ⟨rfl, rfl⟩⟩
  | cons h _ ih =>
    obtain ⟨here, rest⟩ := cons_subset.1 sub
    rw [markDescendantsOf]
    split
    · exact ih rest sub'
    rename_i unmarked
    obtain ⟨cs, children, spec, -⟩ := LawfulChonk.childAUMs consistent h
    have less : (v.mark h .setLeaf).remaining leaf all <
        v.remaining leaf all :=
      Verdict.remaining_mark_lt (fun _ => rfl) here (by simpa using unmarked)
    have more : scan ++ cs.map AUM.hash ⊆ all := by
      refine append_subset.2 ⟨sub', fun k hk => ?_⟩
      obtain ⟨c, hc, rfl⟩ := List.mem_map.1 hk
      exact listed c (spec c hc).1
    obtain ⟨v', scan', ok, sub₁, progress⟩ := ih (v := v.mark h .setLeaf) rest more
    refine ⟨v', scan', by rw [children, ok_bind, ok], sub₁, .inr ?_⟩
    rcases progress with ⟨rfl, -⟩ | less'
    · exact less
    · exact less'.trans less

theorem markDescendantsLoop_halts (sub : scan ⊆ all)
    (enough : scan = [] ∨ v.remaining leaf all < n) :
    Halts (markDescendantsLoop storage n v scan) := by
  induction n generalizing v scan with
  | zero =>
    obtain rfl := enough.resolve_right (Nat.not_lt_zero _)
    exact .ok
  | succ _ ih =>
    cases scan with
    | nil => exact .ok
    | cons h hs =>
      have enough := enough.resolve_left (cons_ne_nil h hs)
      obtain ⟨v₁, scan₁, ok, sub₁, progress⟩ :=
        markDescendantsOf_halts consistent listed sub (nil_subset all) (v := v)
      rw [markDescendantsLoop, ok, ok_bind]
      refine ih sub₁ (progress.imp And.right fun less => ?_)
      omega

section
variable (bounded : ChainsBelow (stored storage) n)
include bounded

theorem scanOne_halts (acc : ScanAcc) (h : AUMHash) : Halts (scanOne storage n acc h) ∧ ∀ acc', scanOne storage n acc h = .ok acc' →
      acc' = acc ∨ acc'.verdict.remaining ancestor all <
        acc.verdict.remaining ancestor all := by
  rw [scanOne]
  split
  · exact ⟨.ok, fun acc' same => .inl (Except.ok.inj same).symm⟩
  rename_i unmarked
  dsimp only
  split
  next missing => exact ⟨aum_halts consistent missing _, fun _ impossible => nomatch impossible⟩
  next a read =>
    obtain ⟨ha, rfl⟩ := (aum_eq_ok consistent).1 read
    have less : (acc.verdict.mark a.hash .setAncestor).remaining ancestor all <
        acc.verdict.remaining ancestor all :=
      Verdict.remaining_mark_lt (fun _ => rfl) (listed a ha) (by simpa using unmarked)
    split
    · exact ⟨.error id, fun _ impossible => nomatch impossible⟩
    split
    · refine ⟨.ok, fun acc' same => .inr ?_⟩
      obtain rfl := Except.ok.inj same
      exact less
    split
    · refine ⟨?_, fun acc' ok => .inr ?_⟩
      · have whole : ChainsBelow (stored storage) (([] : List AUM).length + n) := by
          rwa [length_nil, Nat.zero_add]
        exact (markChildren_halts consistent whole (by simp) .nil (by simp)).bind fun _ _ => .ok
      · rw [bind_eq_ok] at ok
        obtain ⟨v₁, marked, same⟩ := ok
        obtain rfl := Except.ok.inj same
        exact (markChildren_remaining marked).trans_lt
          ((Verdict.remaining_mark_le fun _ => rfl).trans_lt less)
    · refine ⟨.ok, fun acc' same => .inr ?_⟩
      obtain rfl := Except.ok.inj same
      exact less

theorem scanRound_halts (acc : ScanAcc) (hs : List AUMHash) : Halts (scanRound storage n acc hs) ∧
      ∀ acc', scanRound storage n acc hs = .ok acc' →
        acc' = acc ∨ acc'.verdict.remaining ancestor all <
          acc.verdict.remaining ancestor all := by
  induction hs generalizing acc with
  | nil => exact ⟨.ok, fun acc' same => .inl (Except.ok.inj same).symm⟩
  | cons h _ ih =>
    obtain ⟨halts, progress⟩ := scanOne_halts consistent listed bounded acc h
    refine ⟨halts.bind fun acc₁ _ => (ih acc₁).1, fun acc' ok => ?_⟩
    rw [scanRound, bind_eq_ok] at ok
    obtain ⟨acc₁, first, rest⟩ := ok
    rcases progress acc₁ first with rfl | less
    · exact (ih acc₁).2 acc' rest
    rcases (ih acc₁).2 acc' rest with rfl | less'
    · exact .inr less
    · exact .inr (less'.trans less)

theorem scanLoop_halts {acc : ScanAcc}
    {m : Nat} (enough : scan = [] ∨ acc.verdict.remaining ancestor all < m) :
    Halts (scanLoop storage n m acc scan) := by
  induction m generalizing acc scan with
  | zero =>
    obtain rfl := enough.resolve_right (Nat.not_lt_zero _)
    exact .ok
  | succ _ ih =>
    cases scan with
    | nil => exact .ok
    | cons h hs =>
      have enough := enough.resolve_left (cons_ne_nil h hs)
      obtain ⟨halts, progress⟩ := scanRound_halts consistent listed bounded
        { acc with nextIterScan := [] } (h :: hs)
      refine halts.bind fun acc₁ ok => ih ?_
      rcases progress acc₁ ok with rfl | less
      · exact .inl rfl
      right
      dsimp only at less
      omega

end

end

theorem adjustAncestor_halts (free : CollisionFree U X) (tree : Tree U X storage r)
    (bounded : ∀ l b, (forks U X).Trail (stored storage) r l b → l.length < n) (acc : ScanAcc) :
    Halts (adjustAncestor storage n acc) := by
  unfold adjustAncestor
  split
  · split
    next missing => exact aum_halts tree.verified.consistent missing _
    next next read =>
      obtain ⟨l, trail⟩ := tree.connected next ((aum_eq_ok tree.verified.consistent).1 read).1
      exact backToCheckpoint_halts free tree trail (bounded l next trail)
  · exact .ok

theorem compactionPlan_halts (free : CollisionFree U X) (tree : Tree U X storage r) {head : AUM}
    (mem : head ∈ stored storage) (opts : CompactionOptions) (now : Time) (order : CompactionOrder) :
    Halts (compactionPlan storage head.hash opts now order) := by
  have consistent := tree.verified.consistent
  obtain ⟨all, read, spec⟩ := LawfulCompactableChonk.allAUMs consistent
  have listed : ∀ x ∈ stored storage, x.hash ∈ all := fun x hx => (spec x.hash).2 ⟨x, hx, rfl⟩
  have bounded := tree.verified.chainsBelow_listed free listed
  have short := tree.trails_below bounded
  unfold compactionPlan
  split
  · exact .error id
  split
  · exact .error id
  rw [read]
  dsimp only
  split
  next err failed => exact .error (markYoungLoop_halts consistent err failed)
  next v₁ pass₁ =>
    split
    next err failed => exact .error (markActiveChain_halts free tree mem short err failed)
    next ancestor v₂ pass₂ =>
      obtain ⟨-, -, -, young, act, cand, -, -, -, rfl, -, -, -, kept⟩ :=
        twoPasses_spec free tree mem spec pass₁ pass₂
      split
      next err failed =>
        refine .error (markDescendantsLoop_halts consistent listed (fun h hh => ?_)
          (.inr (Nat.lt_succ_of_le countP_le_length)) err failed)
        exact (spec h).2 (kept h (Verdict.passed_retained.1 (mem_filter.1 hh).2))
      · split
        next err failed =>
          refine .error (Halts.bind ?_ (fun acc _ => adjustAncestor_halts free tree short acc) err
            failed)
          exact scanLoop_halts consistent listed bounded
            (.inr (Nat.lt_succ_of_le countP_le_length))
        · exact .ok

end

end ScaleTail.TKA
