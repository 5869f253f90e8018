import ScaleTail.Lib.Recency
import ScaleTail.Lib.Runs
import ScaleTail.Derp.Server

/-! # The registry of a DERP server -/

namespace ScaleTail.Derp
open Lib Go Net List Option AList Function DupClientSet Registry

variable {φ : Type}

structure Standing where
  conns : List SClient
  turns : List SClient
  latest : Option SClient

namespace Standing

def next (k : NodePublic) (t : Standing) : Event φ → Standing
  | .registered c =>
    if c.key = k then
      { conns := t.conns ++ [c]
        turns := if t.conns.length = 1 then t.conns else t.turns ++ [c]
        latest := some c }
    else t
  | .unregistered c => if c.key = k then { t with conns := t.conns.erase c } else t
  | .sent c => if c.key = k then { t with turns := t.turns ++ [c], latest := some c } else t
  | _ => t

def connected (t : Standing) : List SClient := t.turns.filter fun c => decide (c ∈ t.conns)

def lastTurn (t : Standing) : Option SClient :=
  if t.latest.all fun c => decide (c ∈ t.conns) then t.latest else t.connected.getLast?

def active (t : Standing) : Option SClient :=
  match t.conns with
  | [] => none
  | [c] => some c
  | _ => t.lastTurn

end Standing

def turnsOf (events : List (Event φ)) (k : NodePublic) : List SClient :=
  events.filterMap fun
    | .registered c | .sent c => if c.key = k then some c else none
    | _ => none

def standing (events : List (Event φ)) (k : NodePublic) : Standing :=
  events.foldl (Standing.next k) ⟨[], [], none⟩

theorem standing_concat (events : List (Event φ)) (e : Event φ) (k : NodePublic) :
    standing (events ++ [e]) k = (standing events k).next k e := by
  rw [standing, foldl_append]
  rfl

theorem key_of_turn {events : List (Event φ)} {k : NodePublic} {c : SClient}
    (turn : c ∈ turnsOf events k) : c.key = k := by
  obtain ⟨e, -, taken⟩ := mem_filterMap.1 turn
  split at taken
  · obtain ⟨key, ⟨⟩⟩ := ite_none_right_eq_some.1 taken
    exact key
  · obtain ⟨key, ⟨⟩⟩ := ite_none_right_eq_some.1 taken
    exact key
  · cases taken

theorem latest_standing (events : List (Event φ)) (k : NodePublic) :
    (standing events k).latest = (turnsOf events k).getLast? := by
  induction events using List.reverseRecOn with
  | nil => rfl
  | append_singleton _ e ih =>
    rw [standing_concat, turnsOf, filterMap_append, ← turnsOf]
    cases e with
    | registered c | sent c =>
      by_cases same : c.key = k
      · simp [Standing.next, same]
      · simpa [Standing.next, same] using ih
    | unregistered c =>
      by_cases same : c.key = k <;> simpa [Standing.next, same] using ih
    | _ => simpa [Standing.next] using ih

inductive Stands (isDup : SClient → Bool) (t : Standing) : Option ClientSet → Prop
  | none : t.conns = [] → Stands isDup t none
  | single {c : SClient} : t.conns = [c] → isDup c = false → Stands isDup t (some ⟨some c, .none⟩)
  | dup {a : SClient} {d : DupClientSet} : 2 ≤ t.conns.length → d.set.Perm t.conns →
      (∀ c ∈ t.conns, isDup c = true) → SameLast d.sendHistory t.connected →
      (∀ c ∈ t.conns, ∀ c' ∈ t.conns, c ∉ t.turns → c' ∉ t.turns → c = c') →
      t.lastTurn = some a → d.last = some a → Stands isDup t (some ⟨some a, some d⟩)

section Stands
variable {isDup isDup' : SClient → Bool} {t : Standing} {cs : Option ClientSet} {c : SClient}

theorem Stands.congr (stands : Stands isDup t cs) (same : ∀ c ∈ t.conns, isDup' c = isDup c) :
    Stands isDup' t cs := by
  cases stands with
  | none empty => exact .none empty
  | @single c one flag =>
    refine .single one ((same c ?_).trans flag)
    rw [one]
    exact mem_singleton_self c
  | dup two set flags history missing last lastEq =>
    exact .dup two set (fun c mem => (same c mem).trans (flags c mem)) history missing last lastEq

theorem exists_connected (nodup : t.conns.Nodup) (two : 2 ≤ t.conns.length)
    (missing : ∀ c ∈ t.conns, ∀ c' ∈ t.conns, c ∉ t.turns → c' ∉ t.turns → c = c') :
    ∃ a, t.connected.getLast? = some a := by
  match conns : t.conns, two with
  | a :: b :: rest, _ =>
    have apart : a ≠ b := by
      rw [conns] at nodup
      intro same
      subst same
      simp at nodup
    have memA : a ∈ t.conns := by rw [conns]; exact mem_cons_self
    have memB : b ∈ t.conns := by rw [conns]; exact mem_cons_of_mem _ mem_cons_self
    have some_turn : ∃ c ∈ t.conns, c ∈ t.turns := by
      by_contra none
      push Not at none
      exact apart (missing a memA b memB (none a memA) (none b memB))
    obtain ⟨c, mem, turn⟩ := some_turn
    have kept : c ∈ t.connected := mem_filter.2 ⟨turn, decide_eq_true mem⟩
    exact ⟨_, getLast?_eq_some_getLast (ne_nil_of_mem kept)⟩

theorem Stands.active_eq {cs : ClientSet} (stands : Stands isDup t (some cs)) :
    ∃ a, cs.activeClient = some a ∧ t.active = some a := by
  cases stands with
  | @single c one => exact ⟨c, rfl, by rw [Standing.active, one]⟩
  | @dup a _ two _ _ _ _ last =>
    refine ⟨a, rfl, ?_⟩
    unfold Standing.active
    split
    next empty =>
      rw [empty] at two
      cases two
    next one =>
      rw [one] at two
      exact absurd two (Nat.not_succ_le_self 1)
    · exact last

variable {a : SClient} {d : DupClientSet}

theorem lastTurn_mem (last : t.lastTurn = some a) : a ∈ t.conns := by
  unfold Standing.lastTurn at last
  split at last
  next connected =>
    rw [last] at connected
    exact of_decide_eq_true connected
  · exact of_decide_eq_true (mem_filter.1 (mem_of_getLast? last)).2

theorem sameLast_trim (set history : List SClient) :
    SameLast (trim set history) (history.filter fun c => decide (c ∈ set)) := by
  induction history using List.reverseRecOn with
  | nil => exact .refl _
  | append_singleton history c ih =>
    rw [trim, foldl_append, foldl_cons, foldl_nil, ← trim,
      filter_append]
    by_cases mem : c ∈ set
    · have one : [c].filter (fun c => decide (c ∈ set)) = [c] := by simp [mem]
      rw [one]
      split
      · exact ih.concat c
      next already =>
        have last : (trim set history).getLast? = some c := by
          by_contra other
          exact already ⟨mem, other⟩
        exact (SameLast.concat_self last).symm.trans (ih.concat c)
    · have none : [c].filter (fun c => decide (c ∈ set)) = [] := by simp [mem]
      rw [none, append_nil, if_neg fun both => mem both.1]
      exact ih

def Standing.registered (t : Standing) (c : SClient) : Standing where
  conns := t.conns ++ [c]
  turns := if t.conns.length = 1 then t.conns else t.turns ++ [c]
  latest := some c

def flagged (isDup : SClient → Bool) (c : SClient) : Option SClient → SClient → Bool
  | none => isDup
  | some was => Function.update (Function.update isDup was true) c true

theorem lastTurn_latest {conns turns : List SClient} (mem : c ∈ conns) :
    Standing.lastTurn ⟨conns, turns, some c⟩ = some c := by
  rw [Standing.lastTurn, if_pos]
  exact decide_eq_true mem

theorem Stands.register (stands : Stands isDup t cs) (absent : c ∉ t.conns) (unturned : c ∉ t.turns)
    (unflagged : isDup c = false) :
    Stands (flagged isDup c (cs.getD .new).activeClient) (t.registered c)
      (some ⟨some c, (joinDup c (cs.getD .new).activeClient
        (cs.getD .new).dup).1⟩) := by
  have last : (t.registered c).lastTurn = some c :=
    lastTurn_latest (mem_append_right _ (mem_singleton_self c))
  cases stands with
  | none empty =>
    refine .single ?_ unflagged
    rw [Standing.registered, empty]
    rfl
  | @single was one =>
    have apart : c ≠ was := by
      rintro rfl
      rw [one] at absent
      exact absent (mem_singleton_self c)
    have conns : (t.registered c).conns = [was, c] := by
      rw [Standing.registered, one]
      rfl
    have turns : (t.registered c).turns = [was] := by
      rw [Standing.registered, one]
      rfl
    refine .dup ?_ ?_ ?_ ?_ ?_ last rfl
    · rw [conns]
      exact Nat.le_refl 2
    · rw [conns]
      exact List.Perm.swap was c []
    · intro c' mem
      rw [conns] at mem
      rcases mem_cons.1 mem with rfl | mem
      · simp [flagged, apart.symm]
      · cases mem_singleton.1 mem
        simp [flagged]
    · rw [Standing.connected, conns, turns]
      simp only [mem_cons, true_or, decide_true, filter_cons_of_pos, filter_nil]
      exact .refl _
    · rw [conns, turns]
      intro c₁ mem₁ c₂ mem₂ out₁ out₂
      simp only [mem_cons, not_mem_nil, or_false] at mem₁ mem₂ out₁ out₂
      rw [mem₁.resolve_left out₁, mem₂.resolve_left out₂]
  | @dup a d _ set flags history missing =>
    have more : ¬ t.conns.length = 1 := by omega
    have turns : (t.registered c).turns = t.turns ++ [c] := if_neg more
    have unset : c ∉ d.set := fun mem => absent (set.mem_iff.1 mem)
    refine .dup ?_ ?_ ?_ ?_ ?_ last rfl
    · rw [Standing.registered, length_append]
      omega
    · rw [insert_of_not_mem unset]
      exact (set.cons c).trans (perm_append_singleton c _).symm
    · intro c' mem
      dsimp only [flagged, getD_some]
      by_cases same : c' = c
      · rw [same, update_self]
      have mem : c' ∈ t.conns := by
        rcases mem_append.1 mem with mem | mem
        · exact mem
        · exact absurd (mem_singleton.1 mem) same
      rw [update_of_ne same]
      by_cases same : c' = a
      · rw [same, update_self]
      · rw [update_of_ne same]
        exact flags c' mem
    · have connected : (t.registered c).connected = t.connected ++ [c] := by
        rw [Standing.connected, turns, filter_append, Standing.connected]
        congr 1
        · apply filter_congr
          intro c' turn
          have other : c' ≠ c := fun same => unturned (same ▸ turn)
          simp [Standing.registered, other]
        · simp [Standing.registered]
      rw [connected]
      exact history.concat c
    · rw [turns]
      intro c₁ mem₁ c₂ mem₂ out₁ out₂
      simp only [Standing.registered, mem_append, mem_singleton, not_or] at mem₁ mem₂ out₁ out₂
      exact missing c₁ (mem₁.resolve_right out₁.2) c₂ (mem₂.resolve_right out₂.2) out₁.1 out₂.1

def Standing.sent (t : Standing) (c : SClient) : Standing :=
  { t with turns := t.turns ++ [c], latest := some c }

theorem Stands.send {a : Option SClient} (stands : Stands isDup t (some ⟨a, some d⟩))
    (mem : c ∈ t.conns) {sendHistory : List SClient}
    (sent : SameLast sendHistory (d.sendHistory ++ [c])) :
    Stands isDup (t.sent c) (some ⟨some c, some ⟨d.set, some c, sendHistory⟩⟩) := by
  cases stands with
  | dup two set flags history missing =>
    refine .dup two set flags ?_ ?_ (lastTurn_latest mem) rfl
    · have connected : (t.sent c).connected = t.connected ++ [c] := by
        rw [Standing.connected, Standing.sent, filter_append]
        simp [Standing.connected, mem]
      rw [connected]
      exact sent.trans (history.concat c)
    · intro c₁ mem₁ c₂ mem₂ out₁ out₂
      simp only [Standing.sent, mem_append, not_or] at out₁ out₂
      exact missing c₁ mem₁ c₂ mem₂ out₁.1 out₂.1

def Standing.left (t : Standing) (c : SClient) : Standing := { t with conns := t.conns.erase c }

theorem connected_left : (t.left c).connected =
    t.connected.filter fun c' => decide (c' ∈ t.conns.erase c) := by
  rw [Standing.connected, Standing.connected, List.filter_filter]
  apply filter_congr
  intro c' _
  by_cases mem : c' ∈ t.conns.erase c
  · simp [Standing.left, mem, mem_of_mem_erase mem]
  · simp [Standing.left, mem]

theorem lastTurn_left (last : t.lastTurn = some a)
    (other : a ≠ c) : (t.left c).lastTurn = some a := by
  have mem := lastTurn_mem last
  have kept : a ∈ t.conns.erase c := (mem_erase_of_ne other).2 mem
  unfold Standing.lastTurn at last ⊢
  split at last
  next connected =>
    have still : ((t.left c).latest.all fun c' => decide (c' ∈ (t.left c).conns)) = true := by
      rw [Standing.left, last]
      exact decide_eq_true kept
    rw [if_pos still]
    exact last
  next left =>
    have gone : ¬ ((t.left c).latest.all fun c' => decide (c' ∈ (t.left c).conns)) = true := by
      intro all
      apply left
      rw [Standing.left] at all
      cases latest : t.latest with
      | none => rfl
      | some =>
        rw [latest] at all
        exact decide_eq_true (mem_of_mem_erase (of_decide_eq_true all))
    rw [if_neg gone]
    apply getLast?_filter_of_imp last (decide_eq_true kept)
    intro c' still
    exact decide_eq_true (mem_of_mem_erase (of_decide_eq_true still))

theorem lastTurn_left_self (nodup : t.conns.Nodup) (last : t.lastTurn = some c) :
    (t.left c).lastTurn = (t.left c).connected.getLast? := by
  have absent : c ∉ (t.left c).conns := nodup.not_mem_erase
  have gone : ¬ (t.latest.all fun c' => decide (c' ∈ (t.left c).conns)) = true := by
    intro all
    cases latest : t.latest with
    | none =>
      rw [Standing.lastTurn, latest, all_none, if_pos rfl] at last
      cases last
    | some c' =>
      rw [latest, all_some, decide_eq_true_eq] at all
      have mem : c' ∈ t.conns := mem_of_mem_erase all
      have first : t.lastTurn = some c' := by
        rw [Standing.lastTurn, latest, all_some, if_pos (decide_eq_true mem)]
      cases last.symm.trans first
      exact absent all
  exact if_neg gone

theorem removeClient_spec (mem : c ∈ d.set) :
    d.removeClient c = (⟨d.set.erase c, (if d.last = some c then none else d.last).or
      (trim (d.set.erase c) d.sendHistory).getLast?,
      trim (d.set.erase c) d.sendHistory⟩, true) := by
  have shorter : (d.set.erase c).length ≠ d.set.length := by
    rw [length_erase_of_mem mem]
    have := length_pos_of_mem mem
    omega
  rw [removeClient, if_neg shorter]

theorem Stands.leave {a : Option SClient} (stands : Stands isDup t (some ⟨a, some d⟩))
    (nodup : t.conns.Nodup) (mem : c ∈ t.conns) (two : 2 ≤ (t.conns.erase c).length) :
    Stands isDup (t.left c)
      (some ⟨(d.removeClient c).1.last, some (d.removeClient c).1⟩) := by
  cases stands with
  | @dup a _ _ set flags history missing last lastEq =>
    have missing' : ∀ c₁ ∈ (t.left c).conns, ∀ c₂ ∈ (t.left c).conns, c₁ ∉ t.turns → c₂ ∉ t.turns →
        c₁ = c₂ := fun c₁ mem₁ c₂ mem₂ =>
      missing c₁ (mem_of_mem_erase mem₁) c₂ (mem_of_mem_erase mem₂)
    obtain ⟨b, nonempty⟩ := exists_connected (t := t.left c) (nodup.erase c) two missing'
    have members : (fun c' => decide (c' ∈ d.set.erase c)) = fun c' => decide (c' ∈ t.conns.erase c) := by
      funext c'
      exact decide_eq_decide.2 (set.erase c).mem_iff
    have trimmed : SameLast (trim (d.set.erase c) d.sendHistory) (t.left c).connected := by
      apply (sameLast_trim _ _).trans
      rw [members, connected_left]
      exact history.filter _
    have turn : ∃ b, (t.left c).lastTurn = some b ∧ ((if d.last = some c then .none else d.last).or
        (trim (d.set.erase c) d.sendHistory).getLast?) = some b := by
      rw [lastEq]
      by_cases same : a = c
      · subst same
        refine ⟨b, (lastTurn_left_self nodup last).trans nonempty, ?_⟩
        rw [if_pos rfl, none_or, trimmed.getLast?, nonempty]
      · refine ⟨a, lastTurn_left last same, ?_⟩
        rw [if_neg fun eq => same (Option.some.inj eq)]
        rfl
    obtain ⟨b, lastTurn, lastEq⟩ := turn
    rw [removeClient_spec (set.mem_iff.2 mem)]
    rw [lastEq]
    exact .dup two (set.erase c) (fun c' mem' => flags c' (mem_of_mem_erase mem')) trimmed missing'
      lastTurn rfl

end Stands

/-- The registry for these connections, the phases of their goroutines and the standing of each key. -/
structure Sound (r : Registry) (registered : List SClient) (run : SClient → RunPC)
    (t : NodePublic → Standing) : Prop where
  policy : r.dupPolicy = .lastWriterIsActive
  disabled : ∀ c, r.isDisabled c = false
  unexpected : r.unexpected = []
  stands : ∀ k, Stands r.isDup (t k) (r.clients.lookup k)
  conns : ∀ k, (t k).conns = group SClient.key registered k
  nodup : registered.Nodup
  running : ∀ c, c ∈ registered ↔ run c = .running ∨ run c = .noting
  fresh : ∀ c, run c = .accepted → r.isDup c = false ∧ ∀ k, c ∉ (t k).turns
  curClients : r.curClients = registered.length
  dupClientKeys : r.dupClientKeys = (sharedKeys SClient.key registered).card
  dupClientConns : r.dupClientConns = sharers SClient.key registered

section Sound
variable {r r' : Registry} {registered : List SClient} {run : SClient → RunPC}
  {t : NodePublic → Standing} {c : SClient} {isDup : SClient → Bool}

section
variable (sound : Sound r registered run t)
include sound

theorem Sound.key_of_mem {k : NodePublic} (mem : c ∈ (t k).conns) :
    c.key = k := by
  rw [sound.conns] at mem
  exact (mem_group.1 mem).2

theorem Sound.mem_conns (mem : c ∈ registered) :
    c ∈ (t c.key).conns := by
  rw [sound.conns]
  exact mem_group.2 ⟨mem, rfl⟩

theorem Sound.not_registered (new : run c = .accepted) :
    c ∉ registered ∧ ∀ k, c ∉ (t k).conns := by
  have absent : c ∉ registered := by
    rw [sound.running, new]
    exact not_or.2 ⟨nofun, nofun⟩
  refine ⟨absent, fun k mem => absent ?_⟩
  rw [sound.conns] at mem
  exact (mem_group.1 mem).1

theorem Sound.nodup_conns (k : NodePublic) : (t k).conns.Nodup := by
  rw [sound.conns]
  exact sound.nodup.filter _

end

def changed (t : NodePublic → Standing) (k : NodePublic) (u : Standing) : NodePublic → Standing :=
  Function.update t k u

theorem registerClient_eq (r : Registry) (c : SClient) :
    r.registerClient c = { r with
      clients := r.clients.insert c.key ⟨some c, (joinDup c
        ((r.clients.lookup c.key).getD .new).activeClient ((r.clients.lookup c.key).getD .new).dup).1⟩
      isDup := flagged r.isDup c ((r.clients.lookup c.key).getD .new).activeClient
      dupClientKeys := r.dupClientKeys + (if ((r.clients.lookup c.key).getD .new).dup.isNone ∧
        ((r.clients.lookup c.key).getD .new).activeClient.isSome then 1 else 0)
      dupClientConns := r.dupClientConns + (joinDup c
        ((r.clients.lookup c.key).getD .new).activeClient ((r.clients.lookup c.key).getD .new).dup).2
      curClients := r.curClients + 1 } := by
  rw [registerClient]
  cases ((r.clients.lookup c.key).getD .new).activeClient <;> rfl

theorem Stands.gauges {t : Standing} {cs : Option ClientSet}
    (stands : Stands isDup t cs) (c : SClient) :
    (joinDup c (cs.getD .new).activeClient (cs.getD .new).dup).2 = joining t.conns.length ∧
    (if (cs.getD .new).dup.isNone ∧ (cs.getD .new).activeClient.isSome then (1 : Int) else 0) =
      if t.conns.length = 1 then 1 else 0 := by
  cases stands with
  | none empty =>
    rw [empty]
    exact ⟨rfl, rfl⟩
  | single one =>
    rw [one]
    exact ⟨rfl, rfl⟩
  | dup two =>
    have more : ¬ t.conns.length = 1 := by omega
    obtain ⟨n, length⟩ := Nat.exists_eq_add_of_le two
    rw [length, Nat.add_comm]
    exact ⟨rfl, rfl⟩

theorem flagged_of_ne {c c' : SClient} {was : Option SClient} (other : c' ≠ c)
    (notWas : ∀ w, was = some w → c' ≠ w) : flagged isDup c was c' = isDup c' := by
  cases was with
  | none => rfl
  | some w => rw [flagged, update_of_ne other, update_of_ne (notWas w rfl)]

theorem Stands.active_mem {t : Standing} {cs : ClientSet}
    (stands : Stands isDup t (some cs)) {w : SClient} (active : cs.activeClient = some w) :
    w ∈ t.conns := by
  cases stands with
  | single one =>
    cases active
    rw [one]
    exact mem_singleton_self w
  | dup _ _ _ _ _ last =>
    cases active
    exact lastTurn_mem last

theorem forall_changed {t : NodePublic → Standing} {u : Standing} {key : NodePublic}
    {P : NodePublic → Standing → Prop} (here : P key u) (others : ∀ k, k ≠ key → P k (t k)) (k : NodePublic) :
    P k (changed t key u k) :=
  (forall_update_iff t P).2 ⟨here, others⟩ k

variable {phase : RunPC} {active : Option SClient}

theorem accepted_update {c' : SClient}
    (new : update run c phase c' = .accepted) (past : phase ≠ .accepted) : c' ≠ c ∧ run c' = .accepted := by
  by_cases same : c' = c
  · rw [same, update_self] at new
    exact absurd new past
  · rw [update_of_ne same] at new
    exact ⟨same, new⟩

section
variable (sound : Sound r registered run t)
include sound

theorem Sound.running_update (mem : c ∈ registered)
    (live : phase = .running ∨ phase = .noting) (c' : SClient) :
    c' ∈ registered ↔ update run c phase c' = .running ∨ update run c phase c' = .noting := by
  by_cases same : c' = c
  · simp [same, mem, live]
  · rw [update_of_ne same]
    exact sound.running c'

theorem Sound.register (new : run c = .accepted) :
    Sound (r.registerClient c) (registered ++ [c]) (update run c .running)
      (changed t c.key ((t c.key).registered c)) := by
  obtain ⟨absent, absentConns⟩ := sound.not_registered new
  obtain ⟨unflagged, unturned⟩ := sound.fresh c new
  have stands := sound.stands c.key
  have was_key : ∀ w, ((r.clients.lookup c.key).getD .new).activeClient = some w →
      w ∈ (t c.key).conns := by
    intro w active
    cases found : r.clients.lookup c.key with
    | none =>
      rw [found] at active
      cases active
    | some =>
      rw [found] at active stands
      exact stands.active_mem active
  obtain ⟨conns, keys⟩ := stands.gauges c
  rw [registerClient_eq]
  constructor
  case policy => exact sound.policy
  case disabled => exact sound.disabled
  case unexpected => exact sound.unexpected
  case stands =>
    intro k
    by_cases same : k = c.key
    · subst same
      rw [changed, update_self, lookup_insert]
      exact stands.register (absentConns _) (unturned _) unflagged
    · rw [changed, update_of_ne same, lookup_insert_ne same]
      refine (sound.stands k).congr fun c' mem => flagged_of_ne ?_ fun w active => ?_
      · rintro rfl
        exact same (sound.key_of_mem mem).symm
      · rintro rfl
        exact same ((sound.key_of_mem mem).symm.trans (sound.key_of_mem (was_key c' active)))
  case conns =>
    intro k
    by_cases same : k = c.key
    · rw [same, changed, update_self, group_concat_self, ← sound.conns]
      rfl
    · rw [changed, update_of_ne same, group_concat_ne (Ne.symm same)]
      exact sound.conns k
  case nodup => exact nodup_append_comm.1 (nodup_cons.2 ⟨absent, sound.nodup⟩)
  case running =>
    intro c'
    by_cases same : c' = c
    · simp [same]
    · rw [update_of_ne same, ← sound.running]
      simp [same]
  case fresh =>
    intro c' new'
    obtain ⟨other, new'⟩ := accepted_update new' nofun
    obtain ⟨unflagged', unturned'⟩ := sound.fresh c' new'
    have notConn := (sound.not_registered new').2
    refine ⟨(flagged_of_ne other fun w active => ?_).trans unflagged',
      forall_changed (P := fun _ u => c' ∉ u.turns) ?_ fun k _ => unturned' k⟩
    · rintro rfl
      exact notConn _ (was_key c' active)
    · rw [Standing.registered]
      split
      · exact notConn c.key
      · simpa [other] using unturned' c.key
  case curClients =>
    rw [length_append, Nat.cast_add, ← sound.curClients]
    rfl
  case dupClientKeys =>
    rw [sharedKeys_concat, Nat.cast_add, ← sound.dupClientKeys, keys, sound.conns]
    split <;> rfl
  case dupClientConns =>
    rw [sharers_concat, Nat.cast_add, ← sound.dupClientConns, conns, sound.conns]

theorem Sound.noting (running : run c = .running) :
    Sound r registered (update run c .noting) t := by
  have mem : c ∈ registered := (sound.running c).2 (.inl running)
  exact { sound with
    running := sound.running_update mem (.inr rfl)
    fresh := fun c' new => sound.fresh c' (accepted_update new nofun).2 }

theorem Sound.note (noting : run c = .noting) :
    Sound (r.noteClientActivity c) registered (update run c .running)
      (if (r.inDup c).isSome then changed t c.key ((t c.key).sent c) else t) := by
  have mem : c ∈ registered := (sound.running c).2 (.inr noting)
  cases inDup : r.inDup c with
  | none =>
    rw [noteClientActivity, inDup]
    exact { sound with
      running := sound.running_update mem (.inl rfl)
      fresh := fun c' new => sound.fresh c' (accepted_update new nofun).2 }
  | some found =>
    obtain ⟨cs, d⟩ := found
    obtain ⟨cs', found, dup⟩ := bind_eq_some_iff.1 inDup
    obtain ⟨d', dup, same⟩ := map_eq_some_iff.1 dup
    cases same
    obtain ⟨active, _⟩ := cs
    cases dup
    have stands := sound.stands c.key
    rw [found] at stands
    -- what the history becomes
    have note : ∃ sendHistory, SameLast sendHistory (d.sendHistory ++ [c]) ∧
        r.noteClientActivity c = { r with
          clients := r.clients.insert c.key ⟨some c, some ⟨d.set, some c, sendHistory⟩⟩ } := by
      have last : r.dupPolicy = .lastWriterIsActive ∨ d.last = none := .inl sound.policy
      rw [noteClientActivity, inDup]
      dsimp only
      rw [if_pos last]
      split
      next last => exact ⟨d.sendHistory, (SameLast.concat_self last).symm, rfl⟩
      have peaceful : ¬ (r.dupPolicy = .disableFighters ∧ c ∈ d.sendHistory) := by
        rw [sound.policy]
        exact fun both => nomatch both.1
      rw [if_neg peaceful, if_neg peaceful]
      exact ⟨_, .refl _, rfl⟩
    obtain ⟨sendHistory, history, eq⟩ := note
    rw [eq, isSome_some, if_pos rfl]
    refine { sound with stands := ?stands, conns := ?conns, running := ?running, fresh := ?fresh }
    case stands =>
      intro k
      by_cases same : k = c.key
      · subst same
        rw [changed, update_self, lookup_insert]
        exact stands.send (sound.mem_conns mem) history
      · rw [changed, update_of_ne same, lookup_insert_ne same]
        exact sound.stands k
    case conns =>
      exact forall_changed (P := fun k u => u.conns = group SClient.key registered k)
        (sound.conns c.key) fun k _ => sound.conns k
    case running => exact sound.running_update mem (.inl rfl)
    case fresh =>
      intro c' new
      obtain ⟨other, new⟩ := accepted_update new nofun
      obtain ⟨unflagged, unturned⟩ := sound.fresh c' new
      refine ⟨unflagged, forall_changed (P := fun _ u => c' ∉ u.turns) ?_ fun k _ => unturned k⟩
      simpa [Standing.sent, other] using unturned c.key

theorem Sound.leaves (mem : c ∈ registered)
    (policy : r'.dupPolicy = r.dupPolicy) (disabled : ∀ c, r'.isDisabled c = false)
    (unexpected : r'.unexpected = r.unexpected)
    (stands : Stands r'.isDup ((t c.key).left c) (r'.clients.lookup c.key))
    (others : ∀ k, k ≠ c.key → r'.clients.lookup k = r.clients.lookup k)
    (flags : ∀ c', c' ∉ registered ∨ c'.key ≠ c.key → r'.isDup c' = r.isDup c')
    (curClients : r'.curClients = r.curClients - 1)
    (dupClientKeys : r'.dupClientKeys = r.dupClientKeys -
      if (group SClient.key (registered.erase c) c.key).length = 1 then 1 else 0)
    (dupClientConns : r'.dupClientConns = r.dupClientConns -
      joining (group SClient.key (registered.erase c) c.key).length) :
    Sound r' (registered.erase c) (update run c .gone) (changed t c.key ((t c.key).left c)) := by
  constructor
  case policy => exact policy.trans sound.policy
  case disabled => exact disabled
  case unexpected => exact unexpected.trans sound.unexpected
  case stands =>
    intro k
    by_cases same : k = c.key
    · rw [same, changed, update_self]
      exact stands
    · rw [changed, update_of_ne same, others k same]
      refine (sound.stands k).congr fun c' mem => flags c' (.inr ?_)
      rwa [sound.key_of_mem mem]
  case conns =>
    intro k
    by_cases same : k = c.key
    · rw [same, changed, update_self, group_erase_self, ← sound.conns]
      rfl
    · rw [changed, update_of_ne same, group_erase_ne (Ne.symm same)]
      exact sound.conns k
  case nodup => exact sound.nodup.erase c
  case running =>
    intro c'
    by_cases same : c' = c
    · rw [same, update_self]
      exact ⟨fun mem => absurd mem sound.nodup.not_mem_erase, fun phase => phase.elim nofun nofun⟩
    · rw [update_of_ne same, ← sound.running, mem_erase_of_ne same]
  case fresh =>
    intro c' new
    obtain ⟨other, new⟩ := accepted_update new nofun
    obtain ⟨unflagged, unturned⟩ := sound.fresh c' new
    exact ⟨(flags c' (.inl (sound.not_registered new).1)).trans unflagged,
      forall_changed (P := fun _ u => c' ∉ u.turns) (unturned c.key) fun k _ => unturned k⟩
  case curClients =>
    rw [curClients, sound.curClients, length_erase_of_mem mem]
    have := length_pos_of_mem mem
    omega
  case dupClientKeys =>
    rw [dupClientKeys, sound.dupClientKeys, sharedKeys_erase mem]
    split <;> simp
  case dupClientConns =>
    rw [dupClientConns, sound.dupClientConns, sharers_erase mem]
    simp

end

theorem leaveDup_demote {d : DupClientSet} {remain : SClient}
    (mem : c ∈ d.set) (left : d.set.erase c = [remain]) :
    r.leaveDup c ⟨active, some d⟩ d = { r with
      clients := r.clients.insert c.key ⟨some remain, none⟩
      dupClientConns := r.dupClientConns - 1 - 1
      dupClientKeys := r.dupClientKeys - 1
      isDisabled := update r.isDisabled remain false
      isDup := update r.isDup remain false } := by
  rw [leaveDup, removeClient_spec mem, left]
  rfl

theorem leaveDup_stay {d : DupClientSet} (mem : c ∈ d.set)
    (left : (d.set.erase c).length ≠ 1) (disabled : ∀ c, r.isDisabled c = false) :
    r.leaveDup c ⟨active, some d⟩ d = { r with
      clients := r.clients.insert c.key ⟨(d.removeClient c).1.last, some (d.removeClient c).1⟩
      dupClientConns := r.dupClientConns - 1 } := by
  have pick (last : Option SClient) : last.filter (fun c => !r.isDisabled c) = last := by
    cases last with
    | none => rfl
    | some => simp [disabled]
  rw [leaveDup, removeClient_spec mem]
  dsimp only
  rw [if_neg left]
  dsimp only [ClientSet.pickActiveClient]
  rw [if_pos rfl, pick]

theorem Sound.unregister (sound : Sound r registered run t) (mem : c ∈ registered) :
    Sound (r.unregisterClient c).1 (registered.erase c) (update run c .gone)
      (changed t c.key ((t c.key).left c)) ∧
    (r.unregisterClient c).2 = if (group SClient.key (registered.erase c) c.key).length = 0 then .last
      else .dup := by
  have stands := sound.stands c.key
  have memConns := sound.mem_conns mem
  have nodup := sound.nodup_conns c.key
  have left : group SClient.key (registered.erase c) c.key = (t c.key).conns.erase c := by
    rw [group_erase_self, sound.conns]
  rw [left]
  generalize found : r.clients.lookup c.key = cs at stands
  cases stands with
  | none empty =>
    rw [empty] at memConns
    cases memConns
  | @single _ one =>
    rw [one] at memConns
    cases mem_singleton.1 memConns
    have empty : (t c.key).conns.erase c = [] := by
      rw [one]
      simp
    have eq : r.unregisterClient c = ({ r with
        clients := r.clients.erase c.key, curClients := r.curClients - 1 }, .last) := by
      rw [unregisterClient, found]
      dsimp only
      rw [if_neg (fun other => other rfl)]
    rw [eq, empty]
    refine ⟨?_, rfl⟩
    rw [empty] at left
    refine sound.leaves mem rfl sound.disabled rfl ?_ ?_ (fun _ _ => rfl) rfl ?_ ?_
    · rw [lookup_erase]
      exact .none empty
    · exact fun k other => lookup_erase_ne other
    · rw [left]
      exact (Int.sub_zero _).symm
    · rw [left]
      exact (Int.sub_zero _).symm
  | @dup a d two set flags history missing last lastEq =>
    have stands : Stands r.isDup (t c.key) (some ⟨some a, some d⟩) :=
      .dup two set flags history missing last lastEq
    have inSet : c ∈ d.set := set.mem_iff.2 memConns
    have length : (d.set.erase c).length = ((t c.key).conns.erase c).length := (set.erase c).length_eq
    have positive : ((t c.key).conns.erase c).length ≠ 0 := by
      rw [length_erase_of_mem memConns]
      omega
    have eq : r.unregisterClient c = ({ r.leaveDup c ⟨some a, some d⟩ d with
        curClients := (r.leaveDup c ⟨some a, some d⟩ d).curClients - 1 }, .dup) := by
      rw [unregisterClient, found]
    rw [eq, if_neg positive]
    refine ⟨?_, rfl⟩
    by_cases one : (d.set.erase c).length = 1
    · obtain ⟨remain, single⟩ := length_eq_one_iff.1 one
      have conns : (t c.key).conns.erase c = [remain] :=
        perm_singleton.1 ((set.erase c).symm.trans (single ▸ .refl _))
      have memRemain : remain ∈ (t c.key).conns := by
        apply mem_of_mem_erase (b := c)
        rw [conns]
        exact mem_singleton_self remain
      rw [leaveDup_demote inSet single]
      rw [conns] at left
      refine sound.leaves mem rfl ?_ rfl ?_ ?_ ?_ rfl ?_ ?_
      · intro c'
        by_cases same : c' = remain
        · rw [same]
          exact update_self ..
        · exact (update_of_ne same ..).trans (sound.disabled c')
      · rw [lookup_insert]
        exact .single conns (update_self ..)
      · exact fun k other => lookup_insert_ne other
      · intro c' away
        apply update_of_ne
        rintro rfl
        rcases away with absent | other
        · rw [sound.conns] at memRemain
          exact absent (mem_group.1 memRemain).1
        · exact other (sound.key_of_mem memRemain)
      · rw [left]
        rfl
      · rw [left]
        exact Int.sub_sub ..
    · have more : 2 ≤ ((t c.key).conns.erase c).length := by omega
      obtain ⟨n, count⟩ := Nat.exists_eq_add_of_le' more
      rw [leaveDup_stay inSet one sound.disabled]
      refine sound.leaves mem rfl sound.disabled rfl ?_ ?_ (fun _ _ => rfl) rfl ?_ ?_
      · rw [lookup_insert]
        exact stands.leave nodup memConns more
      · exact fun k other => lookup_insert_ne other
      · rw [left, if_neg (by omega)]
        exact (Int.sub_zero _).symm
      · rw [left, count]
        rfl

end Sound

end ScaleTail.Derp
