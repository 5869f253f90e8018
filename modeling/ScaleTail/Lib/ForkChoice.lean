import Mathlib.Logic.Relation
import Mathlib.Order.Defs.LinearOrder
import Mathlib.Data.Set.Basic

/-!
# Fork choice on a tree of messages

Messages form a forest, and a state machine runs along a branch of it. At a message with several
children the child with the least key in the current state is taken. The chain this picks from a
given message is the primary chain; it depends on the set of messages that are known.

`exchange` is the main result: two parties that know different sets of messages and send each other
their primary chains agree on the primary chain afterwards, whatever else each of them knows.
-/

namespace ScaleTail.Lib
open List

structure ForkSystem (α σ κ : Type*) where
  child : α → α → Prop
  key : σ → α → κ
  apply : σ → α → Option σ

namespace ForkSystem

section
variable {α σ κ : Type*} (F : ForkSystem α σ κ)

def Desc : α → α → Prop := Relation.ReflTransGen F.child

def Leaf (S : Set α) (p : α) : Prop := ∀ c ∈ S, ¬ F.child p c

def Root (S : Set α) (o : α) : Prop := o ∈ S ∧ ∀ p ∈ S, ¬ F.child p o

def ParentClosed (S : Set α) : Prop := ∀ p, ∀ c ∈ S, F.child p c → p ∈ S

structure Graded (rank : α → Nat) : Prop where
  parent_unique : ∀ {p p' c}, F.child p c → F.child p' c → p = p'
  rank_child : ∀ {p c}, F.child p c → rank c = rank p + 1
  key_injective : ∀ {p c d s}, F.child p c → F.child p d → F.key s c = F.key s d → c = d

inductive Trail (S : Set α) : α → List α → α → Prop
  | refl (p : α) : Trail S p [] p
  | step {p c q : α} {path : List α} (mem : c ∈ S) (child : F.child p c)
      (rest : Trail S c path q) : Trail S p (c :: path) q

variable {F} {S : Set α} {rank : α → Nat} {p q c d : α} {l m : List α}

theorem Desc.rank_le (laws : F.Graded rank) (h : F.Desc p q) : rank p ≤ rank q := by
  induction h with
  | refl => exact le_rfl
  | tail _ child =>
    have := laws.rank_child child
    omega

theorem Desc.eq_of_rank (laws : F.Graded rank) (h : F.Desc c q) (h' : F.Desc d q)
    (same : rank c = rank d) : c = d := by
  induction h with
  | refl =>
    rcases Relation.ReflTransGen.cases_tail h' with rfl | ⟨y, before, child⟩
    · rfl
    have := Desc.rank_le laws before
    have := laws.rank_child child
    omega
  | tail before child ih =>
    rcases Relation.ReflTransGen.cases_tail h' with rfl | ⟨y, before', child'⟩
    · have := Desc.rank_le laws before
      have := laws.rank_child child
      omega
    · obtain rfl := laws.parent_unique child child'
      exact ih before'

theorem Desc.total (laws : F.Graded rank) (h : F.Desc c q) (h' : F.Desc d q) :
    F.Desc c d ∨ F.Desc d c := by
  induction h with
  | refl => exact .inr h'
  | tail before child ih =>
    rcases Relation.ReflTransGen.cases_tail h' with rfl | ⟨y, before', child'⟩
    · exact .inl (before.tail child)
    · rw [laws.parent_unique child' child] at before'
      exact ih before'

namespace Trail

section
variable (h : F.Trail S p l q)
include h

theorem mem : ∀ x ∈ l, x ∈ S := by
  induction h with
  | refl => simp
  | step mem _ _ ih => exact forall_mem_cons.2 ⟨mem, ih⟩

theorem desc : ∀ x ∈ p :: l, F.Desc p x := by
  induction h with
  | refl =>
    intro x hx
    rw [mem_singleton.1 hx]
    exact .refl
  | step _ child _ ih =>
    intro x hx
    rcases mem_cons.1 hx with rfl | hx
    · exact .refl
    · exact .head child (ih x hx)

theorem desc_final : ∀ x ∈ p :: l, F.Desc x q := by
  induction h with
  | refl =>
    intro x hx
    rw [mem_singleton.1 hx]
    exact .refl
  | step _ child _ ih =>
    intro x hx
    rcases mem_cons.1 hx with rfl | hx
    · exact .head child (ih _ mem_cons_self)
    · exact ih x hx

theorem restrict {T : Set α} (kept : ∀ x ∈ l, x ∈ T) : F.Trail T p l q := by
  induction h with
  | refl p => exact .refl p
  | step _ child _ ih =>
    obtain ⟨here, rest⟩ := forall_mem_cons.1 kept
    exact .step here child (ih rest)

theorem parent_on : ∀ c ∈ l, ∃ r ∈ p :: l, F.child r c := by
  induction h with
  | refl => simp
  | step _ child _ ih =>
    intro x hx
    rcases mem_cons.1 hx with rfl | hx
    · exact ⟨_, mem_cons_self, child⟩
    · obtain ⟨r, hr, child'⟩ := ih x hx
      exact ⟨r, mem_cons_of_mem _ hr, child'⟩

theorem final_mem : q ∈ p :: l := by
  induction h with
  | refl => simp
  | step _ _ _ ih => exact mem_cons_of_mem _ ih

theorem dropLast_append : (p :: l).dropLast ++ [q] = p :: l := by
  induction h with
  | refl => rfl
  | step _ _ _ ih => rw [dropLast_cons_cons, cons_append, ih]

theorem getLastD_eq : l.getLastD p = q := by
  induction h with
  | refl => rfl
  | step _ _ _ ih => rw [getLastD_cons, ih]

theorem all_mem (hp : p ∈ S) : ∀ x ∈ p :: l, x ∈ S :=
  forall_mem_cons.2 ⟨hp, h.mem⟩

theorem concat (mem : c ∈ S) (child : F.child q c) :
    F.Trail S p (l ++ [c]) c := by
  induction h with
  | refl => exact .step mem child (.refl c)
  | step mem' child' _ ih => exact .step mem' child' (ih child)

theorem append (h' : F.Trail S q m c) : F.Trail S p (l ++ m) c := by
  induction h with
  | refl => exact h'
  | step mem child _ ih => exact .step mem child (ih h')

theorem cut (mem : c ∈ p :: l) :
    ∃ k m, l = k ++ m ∧ F.Trail S p k c ∧ F.Trail S c m q := by
  induction h with
  | refl p =>
    rw [mem_singleton.1 mem]
    exact ⟨[], [], rfl, .refl p, .refl p⟩
  | @step _ d _ l hd child rest ih =>
    rcases mem_cons.1 mem with rfl | mem
    · exact ⟨[], d :: l, rfl, .refl _, .step hd child rest⟩
    · obtain ⟨k, m, rfl, before, after⟩ := ih mem
      exact ⟨d :: k, m, rfl, .step hd child before, after⟩

theorem last_step :
    l = [] ∧ p = q ∨ ∃ k r, l = k ++ [q] ∧ F.Trail S p k r ∧ F.child r q := by
  induction h with
  | refl => exact .inl ⟨rfl, rfl⟩
  | step mem child _ ih =>
    right
    rcases ih with ⟨rfl, rfl⟩ | ⟨k, r, rfl, before, last⟩
    · exact ⟨[], _, rfl, .refl _, child⟩
    · exact ⟨_ :: k, r, rfl, .step mem child before, last⟩

end

section
variable (laws : F.Graded rank) (h : F.Trail S p l q)
include laws h

theorem rank_eq : rank q = rank p + l.length := by
  induction h with
  | refl => rfl
  | step _ child =>
    have := laws.rank_child child
    simp only [length_cons]
    omega

theorem rank_lt :
    ∀ x ∈ (p :: l).dropLast, rank x < rank q := by
  induction h with
  | refl => simp
  | step _ child rest ih =>
    refine forall_mem_cons.2 ⟨?_, ih⟩
    have := laws.rank_child child
    have := rest.rank_eq laws
    omega

theorem lt_rank : ∀ x ∈ l, rank p < rank x := by
  cases h with
  | refl => simp
  | step _ child rest =>
    intro x hx
    have := laws.rank_child child
    have := Desc.rank_le laws (rest.desc x hx)
    omega

theorem nodup : (p :: l).Nodup := by
  induction h with
  | refl => simp
  | step mem child rest ih =>
    refine nodup_cons.2 ⟨fun again => ?_, ih⟩
    exact lt_irrefl _ (lt_rank laws (.step mem child rest) _ again)

theorem mem_of_desc (desc : F.Desc c q) (le : rank p ≤ rank c) : c ∈ p :: l := by
  induction h with
  | refl =>
    have := Desc.rank_le laws desc
    rw [Desc.eq_of_rank laws desc .refl (by omega)]
    exact mem_cons_self
  | @step p d _ _ _ child rest ih =>
    have := laws.rank_child child
    by_cases same : rank c = rank p
    · rw [Desc.eq_of_rank laws desc (.head child (rest.desc_final d mem_cons_self)) same]
      exact mem_cons_self
    · exact mem_cons_of_mem _ (ih desc (by omega))

theorem unique {T : Set α} (h' : F.Trail T p m q) :
    l = m := by
  induction h generalizing m with
  | refl =>
    cases h' with
    | refl => rfl
    | step _ child rest =>
      have := laws.rank_child child
      have := rest.rank_eq laws
      omega
  | @step _ _ _ _ _ child rest ih =>
    cases h' with
    | refl =>
      have := laws.rank_child child
      have := rest.rank_eq laws
      omega
    | step _ child' rest' =>
      obtain rfl := Desc.eq_of_rank laws (rest.desc_final _ mem_cons_self)
        (rest'.desc_final _ mem_cons_self)
        (by rw [laws.rank_child child, laws.rank_child child'])
      rw [ih rest']

theorem parent_mem (hp : p ∈ S) (desc : F.Desc c q)
    (below : rank p < rank c) : ∃ r ∈ S, F.child r c := by
  induction h with
  | refl =>
    have := Desc.rank_le laws desc
    omega
  | @step p d _ _ mem child rest ih =>
    have hd := laws.rank_child child
    by_cases same : rank c = rank d
    · have := Desc.eq_of_rank laws desc (rest.desc_final d mem_cons_self) same
      exact ⟨p, hp, this ▸ child⟩
    · exact ih mem desc (by omega)

end

theorem child_eq (laws : F.Graded rank) (h : F.Trail S p (c :: l) q) (child : F.child p d)
    (mem : d ∈ p :: c :: l) : d = c := by
  have hc : rank c = rank p + 1 := by
    cases h with
    | step _ child => exact laws.rank_child child
  have hd := laws.rank_child child
  exact Desc.eq_of_rank laws (h.desc_final d mem) (h.desc_final c (by simp)) (by omega)

end Trail

theorem exists_root (laws : F.Graded rank) (mem : q ∈ S) : ∃ o l, F.Root S o ∧ F.Trail S o l q := by
  induction h : rank q generalizing q with
  | zero =>
    refine ⟨q, [], ⟨mem, fun p hp child => ?_⟩, .refl q⟩
    have := laws.rank_child child
    omega
  | succ _ ih =>
    by_cases below : ∃ p ∈ S, F.child p q
    · obtain ⟨p, hp, child⟩ := below
      have := laws.rank_child child
      obtain ⟨o, l, root, trail⟩ := ih hp (by omega)
      exact ⟨o, l ++ [q], root, trail.concat mem child⟩
    · refine ⟨q, [], ⟨mem, fun p hp child => below ⟨p, hp, child⟩⟩, .refl q⟩

theorem Root.unique (laws : F.Graded rank) (root : F.Root S c) (trail : F.Trail S c l q)
    (root' : F.Root S d) (trail' : F.Trail S d m q) : c = d := by
  have desc := trail.desc_final c mem_cons_self
  have desc' := trail'.desc_final d mem_cons_self
  rcases Nat.lt_trichotomy (rank c) (rank d) with lt | same | gt
  · obtain ⟨p, hp, child⟩ := trail.parent_mem laws root.1 desc' lt
    exact absurd child (root'.2 p hp)
  · exact Desc.eq_of_rank laws desc desc' same
  · obtain ⟨p, hp, child⟩ := trail'.parent_mem laws root'.1 desc gt
    exact absurd child (root.2 p hp)

theorem ParentClosed.desc_mem (closed : F.ParentClosed S) (h : F.Desc p q) (hq : q ∈ S) :
    p ∈ S := by
  induction h using Relation.ReflTransGen.head_induction_on with
  | refl => exact hq
  | head child _ ih => exact closed _ _ ih child

end

section
variable {α σ κ : Type*} [LinearOrder κ] (F : ForkSystem α σ κ)

def Picks (S : Set α) (s : σ) (p c : α) : Prop :=
  c ∈ S ∧ F.child p c ∧ ∀ d ∈ S, F.child p d → F.key s c ≤ F.key s d

inductive Primary (S : Set α) : α → σ → List α → α → σ → Prop
  | refl (p : α) (s : σ) : Primary S p s [] p s
  | step {p c q : α} {s s' t : σ} {path : List α} (picks : F.Picks S s p c)
      (applied : F.apply s c = some s') (rest : Primary S c s' path q t) :
      Primary S p s (c :: path) q t

def Leads (S : Set α) (p : α) (s : σ) (path : List α) (q : α) (t : σ) : Prop :=
  F.Primary S p s path q t ∧ F.Leaf S q

variable {F} {S T : Set α} {rank : α → Nat} {p q a b c d : α} {s s' t u v : σ} {l m : List α}

namespace Primary

section
variable (h : F.Primary S p s l q t)
include h

theorem trail : F.Trail S p l q := by
  induction h with
  | refl p => exact .refl p
  | step picks _ _ ih => exact .step picks.1 picks.2.1 ih

theorem trans (h' : F.Primary S q t m b v) :
    F.Primary S p s (l ++ m) b v := by
  induction h with
  | refl => exact h'
  | step picks applied _ ih => exact .step picks applied (ih h')

theorem cut (mem : c ∈ p :: l) :
    ∃ u k m, l = k ++ m ∧ F.Primary S p s k c u ∧ F.Primary S c u m q t := by
  induction h with
  | refl p s =>
    rw [mem_singleton.1 mem]
    exact ⟨s, [], [], rfl, .refl p s, .refl p s⟩
  | @step _ d _ s _ _ l picks applied rest ih =>
    rcases mem_cons.1 mem with rfl | mem
    · exact ⟨s, [], d :: l, rfl, .refl _ s, .step picks applied rest⟩
    · obtain ⟨u, k, m, rfl, before, after⟩ := ih mem
      exact ⟨u, d :: k, m, rfl, .step picks applied before, after⟩

theorem congr (same : ∀ x ∈ (p :: l).dropLast, ∀ c, F.child x c → (c ∈ S ↔ c ∈ T)) :
    F.Primary T p s l q t := by
  induction h with
  | refl => exact .refl _ _
  | step picks applied _ ih =>
    have here := same _ mem_cons_self
    refine .step ⟨(here _ picks.2.1).1 picks.1, picks.2.1, ?_⟩ applied ?_
    · intro d hd child
      exact picks.2.2 d ((here d child).2 hd) child
    · exact ih fun x hx => same x (mem_cons_of_mem _ hx)

theorem restrict (sub : T ⊆ S) (kept : ∀ x ∈ l, x ∈ T) :
    F.Primary T p s l q t := by
  induction h with
  | refl => exact .refl _ _
  | step picks applied _ ih =>
    refine .step ⟨kept _ mem_cons_self, picks.2.1, ?_⟩ applied ?_
    · intro d hd child
      exact picks.2.2 d (sub hd) child
    · exact ih fun x hx => kept x (mem_cons_of_mem _ hx)

end

theorem isolated (laws : F.Graded rank) (h : F.Primary S p s l q t) (kept : ∀ x ∈ l, x ∈ T)
    (only : ∀ x ∈ p :: l, ∀ d ∈ T, F.child x d → d ∈ p :: l) : F.Primary T p s l q t := by
  induction h with
  | refl => exact .refl _ _
  | @step p c q s _ t l picks applied rest ih =>
    have whole : F.Primary S p s (c :: l) q t := .step picks applied rest
    refine .step ⟨kept _ mem_cons_self, picks.2.1, ?_⟩ applied (ih ?_ ?_)
    · intro d hd child
      rw [whole.trail.child_eq laws child (only _ mem_cons_self d hd child)]
    · exact fun x hx => kept x (mem_cons_of_mem _ hx)
    · intro x hx d hd child
      rcases mem_cons.1 (only x (mem_cons_of_mem _ hx) d hd child) with rfl | hd'
      · have := Desc.rank_le laws (whole.trail.desc x (mem_cons_of_mem _ hx))
        have := laws.rank_child child
        omega
      · exact hd'

theorem isolated_leaf (laws : F.Graded rank) (h : F.Primary S p s l q t)
    (only : ∀ d ∈ T, F.child q d → d ∈ p :: l) : F.Leaf T q := by
  intro d hd child
  have := Desc.rank_le laws (h.trail.desc_final d (only d hd child))
  have := laws.rank_child child
  omega

end Primary

theorem Picks.unique (laws : F.Graded rank) (h : F.Picks S s p c) (h' : F.Picks S s p d) : c = d :=
  laws.key_injective h.2.1 h'.2.1 (le_antisymm (h.2.2 d h'.1 h'.2.1) (h'.2.2 c h.1 h.2.1))

theorem Leads.cons (picks : F.Picks S s p c) (applied : F.apply s c = some s')
    (rest : F.Leads S c s' l q t) : F.Leads S p s (c :: l) q t :=
  ⟨.step picks applied rest.1, rest.2⟩

section
variable (laws : F.Graded rank)
include laws

theorem Leads.tail (h : F.Leads S p s l q t) (picks : F.Picks S s p c)
    (applied : F.apply s c = some s') : ∃ rest, l = c :: rest ∧ F.Leads S c s' rest q t := by
  obtain ⟨primary, leaf⟩ := h
  cases primary with
  | refl => exact absurd picks.2.1 (leaf c picks.1)
  | step picks' applied' rest =>
    obtain rfl := picks.unique laws picks'
    rw [applied, Option.some.injEq] at applied'
    subst applied'
    exact ⟨_, rfl, rest, leaf⟩

theorem Leads.unique (h : F.Leads S p s l a u) (h' : F.Leads S p s m b v) :
    l = m ∧ a = b ∧ u = v := by
  obtain ⟨primary, leaf⟩ := h
  induction primary generalizing m with
  | refl =>
    cases h'.1 with
    | refl => exact ⟨rfl, rfl, rfl⟩
    | step picks => exact absurd picks.2.1 (leaf _ picks.1)
  | step picks applied _ ih =>
    obtain ⟨_, rfl, after⟩ := h'.tail laws picks applied
    obtain ⟨rfl, rfl, rfl⟩ := ih after leaf
    exact ⟨rfl, rfl, rfl⟩

theorem Leads.extend (h : F.Leads S p s l q t) (hp : p ∈ S)
    (chain : F.Primary {x | x ∈ m} q t m b v) (fresh : ∀ x ∈ m, x ∉ S)
    (above : ∀ x ∈ m, ∀ d ∈ S, ¬ F.child x d) : F.Leads (S ∪ {x | x ∈ m}) p s (l ++ m) b v := by
  obtain ⟨primary, leaf⟩ := h
  have only : ∀ x ∈ q :: m, ∀ d ∈ S ∪ {x | x ∈ m}, F.child x d → d ∈ q :: m := by
    rintro x hx d (hd | hd) child
    · rcases mem_cons.1 hx with rfl | hx
      · exact absurd child (leaf d hd)
      · exact absurd child (above x hx d hd)
    · exact mem_cons_of_mem _ hd
  have before : F.Primary (S ∪ {x | x ∈ m}) p s l q t := by
    refine primary.congr fun x hx c child => ⟨.inl, fun hc => hc.resolve_right fun hc => ?_⟩
    -- The parent of a new message is `q` or new, so it does not come before `q`.
    obtain ⟨y, hy, child'⟩ := chain.trail.parent_on c hc
    obtain rfl := laws.parent_unique child child'
    rcases mem_cons.1 hy with rfl | hy
    · exact absurd (primary.trail.rank_lt laws x hx) (lt_irrefl _)
    · exact fresh x hy (primary.trail.all_mem hp x (dropLast_subset _ hx))
  exact ⟨before.trans (chain.isolated laws (fun x hx => .inr hx) only),
    chain.isolated_leaf laws (only b chain.trail.final_mem)⟩

theorem adopt (closed : F.ParentClosed T) (fresh : c ∉ T)
    (child : F.child p c) (best : ∀ d ∈ T, F.child p d → F.key s c ≤ F.key s d)
    (applied : F.apply s c = some s') (rest : F.Primary S c s' l q t) :
    F.Leads (T ∪ {x | x ∈ c :: l}) p s (c :: l) q t := by
  have only : ∀ x ∈ c :: l, ∀ d ∈ T ∪ {x | x ∈ c :: l}, F.child x d → d ∈ c :: l := by
    rintro x hx d (hd | hd) child'
    · exact absurd (closed.desc_mem (rest.trail.desc x hx) (closed _ _ hd child')) fresh
    · exact hd
  refine ⟨.step ⟨.inr mem_cons_self, child, ?_⟩ applied (rest.isolated laws ?_ only), ?_⟩
  · rintro d (hd | hd) child'
    · exact best d hd child'
    · have same : rank d = rank c := by rw [laws.rank_child child, laws.rank_child child']
      rw [Desc.eq_of_rank laws (rest.trail.desc_final d hd) (rest.trail.desc_final c mem_cons_self) same]
  · exact fun x hx => .inr (mem_cons_of_mem _ hx)
  · exact rest.isolated_leaf laws (only _ rest.trail.final_mem)

theorem branch (closed : F.ParentClosed T) (picksS : F.Picks S s p c)
    (picksT : F.Picks T s p d) (better : F.key s c < F.key s d) (applied : F.apply s c = some s')
    (leadsS : F.Leads S c s' l a u) (restT : F.Primary T d t m b v) :
    F.Leads (S ∪ {x | x ∈ d :: m}) p s (c :: l) a u ∧
      F.Leads (T ∪ {x | x ∈ c :: l}) p s (c :: l) a u := by
  obtain ⟨restS, leafS⟩ := leadsS
  have sameRank : rank c = rank d := by
    rw [laws.rank_child picksS.2.1, laws.rank_child picksT.2.1]
  have differ : c ≠ d := by
    rintro rfl
    exact lt_irrefl _ better
  -- No message below `c` is on the other party's chain, which lies below `d`.
  have apart : ∀ x ∈ c :: l, ∀ e, F.child x e → e ∉ d :: m := by
    intro x hx e child he
    exact differ (Desc.eq_of_rank laws ((restS.trail.desc x hx).tail child) (restT.trail.desc e he) sameRank)
  refine ⟨⟨.step ⟨.inl picksS.1, picksS.2.1, ?_⟩ applied (restS.congr ?_), ?_⟩, ?_⟩
  · rintro e (he | he) child
    · exact picksS.2.2 e he child
    · have hd : e = d := Desc.eq_of_rank laws (restT.trail.desc_final e he)
        (restT.trail.desc_final d mem_cons_self)
        (by rw [laws.rank_child child, laws.rank_child picksT.2.1])
      exact hd ▸ better.le
  · intro x hx e child
    exact ⟨.inl, fun he => he.resolve_right (apart x (dropLast_subset _ hx) e child)⟩
  · rintro e (he | he) child
    · exact leafS e he child
    · exact apart a restS.trail.final_mem e child he
  · refine adopt laws closed ?_ picksS.2.1 ?_ applied restS
    · exact fun known => absurd (picksT.2.2 c known picksS.2.1) (not_le.2 better)
    · exact fun e he child => better.le.trans (picksT.2.2 e he child)

theorem Picks.union_chain (picks : F.Picks S s p c)
    (chain : F.Primary T c s' m b v) : F.Picks (S ∪ {x | x ∈ m}) s p c := by
  refine ⟨.inl picks.1, picks.2.1, ?_⟩
  rintro d (hd | hd) child
  · exact picks.2.2 d hd child
  · have same : rank d = rank c := by rw [laws.rank_child child, laws.rank_child picks.2.1]
    rw [Desc.eq_of_rank laws (chain.trail.desc_final d (mem_cons_of_mem _ hd))
      (chain.trail.desc_final c mem_cons_self) same]

end

omit [LinearOrder κ] in
private theorem absorb (known : c ∈ S) : S ∪ {x | x ∈ c :: l} = S ∪ {x | x ∈ l} := by
  ext x
  simp only [Set.mem_union, Set.mem_ofPred_eq, mem_cons]
  constructor
  · rintro (h | rfl | h)
    exacts [.inl h, .inl known, .inr h]
  · rintro (h | h)
    exacts [.inl h, .inr (.inr h)]

theorem exchange (laws : F.Graded rank) (closedS : F.ParentClosed S) (closedT : F.ParentClosed T)
    (leadsS : F.Leads S p s l a u) (leadsT : F.Leads T p s m b v) :
    ∃ n q w, F.Leads (S ∪ {x | x ∈ m}) p s n q w ∧ F.Leads (T ∪ {x | x ∈ l}) p s n q w := by
  obtain ⟨primaryS, leafS⟩ := leadsS
  obtain ⟨primaryT, leafT⟩ := leadsT
  induction primaryS generalizing m with
  | refl =>
    cases primaryT with
    | refl =>
      refine ⟨[], b, v, ?_, ?_⟩
      · simpa [Leads] using ⟨.refl _ _, leafS⟩
      · simpa [Leads] using ⟨.refl _ _, leafT⟩
    | step picks applied rest =>
      refine ⟨_, _, _, ?_, by simpa [Leads] using ⟨.step picks applied rest, leafT⟩⟩
      exact adopt laws closedS (fun known => leafS _ known picks.2.1) picks.2.1
        (fun d hd child => absurd child (leafS d hd)) applied rest
  | @step _ c _ s _ _ _ picks applied rest ih =>
    cases primaryT with
    | refl =>
      refine ⟨_, _, _, by simpa [Leads] using ⟨.step picks applied rest, leafS⟩, ?_⟩
      exact adopt laws closedT (fun known => leafT _ known picks.2.1) picks.2.1
        (fun d hd child => absurd child (leafT d hd)) applied rest
    | @step _ d _ _ _ _ _ picks' applied' rest' =>
      rcases lt_trichotomy (F.key s c) (F.key s d) with better | same | better
      · exact ⟨_, _, _, branch laws closedT picks picks' better applied ⟨rest, leafS⟩ rest'⟩
      · -- The chains agree on this step, and `c` was known to both parties.
        obtain rfl := laws.key_injective picks.2.1 picks'.2.1 same
        rw [applied, Option.some.injEq] at applied'
        subst applied'
        obtain ⟨n, q, w, onS, onT⟩ := ih leafS rest'
        rw [absorb picks.1, absorb picks'.1]
        refine ⟨c :: n, q, w, ⟨.step ?_ applied onS.1, onS.2⟩, .step ?_ applied onT.1, onT.2⟩
        · exact picks.union_chain laws rest'
        · exact picks'.union_chain laws rest
      · obtain ⟨onT, onS⟩ := branch laws closedS picks' picks better applied' ⟨rest', leafT⟩ rest
        exact ⟨_, _, _, onS, onT⟩

end

end ForkSystem

end ScaleTail.Lib
