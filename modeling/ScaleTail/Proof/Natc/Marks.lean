import ScaleTail.Proof.Natc.Log

/-! # Marks keep an address -/

namespace ScaleTail.Natc
open Go Net Netipx Lib Option

variable {ipSet : IPSet} {s s' p : State} {e : Entry} {before more : List Entry} {nid : NodeID}
  {addr : IP} {domain read : Bytes} {t : Time} {mark : Option Command} {ww : WhereWhen}

theorem domainForIP_eq (stored : p.record nid addr = some ww)
    (served : p.domainForIP read nid addr t = some (domain, mark)) :
    ww.domain = domain ∧ mark = fireAndForgetMarkLastUsed nid addr ww t := by
  dsimp only [State.domainForIP] at served
  rw [State.record] at stored
  rw [stored] at served
  by_cases empty : ww.domain = []
  · cases served.symm.trans (if_pos empty)
  · cases served.symm.trans (if_neg empty)
    exact ⟨rfl, rfl⟩

def Delivered (mark : Option Command) (entries : List Entry) : Prop :=
  ∀ command ∈ mark, ∃ earlier e, entries = earlier ++ [e] ∧ e.command = command

theorem recent_of_mark (taken : step ipSet s e = some s') (issued : e.Issued)
    (command : e.command = .markLastUsed nid addr domain t)
    (assigned : (s'.record nid addr).map (·.domain) = some domain) :
    ∃ ww, s'.record nid addr = some ww ∧ t ≤ ww.lastUsed := by
  have created : t = e.createdAt := by
    unfold Entry.Issued at issued
    rw [command] at issued
    exact issued
  -- a mark leaves all domains as they were
  have before : (s.record nid addr).map (·.domain) = some domain := by
    obtain ⟨result, -, effect, -⟩ := changes_of_step taken
    rw [command] at effect
    change Effect ipSet (s.peer nid) _ _ (s'.peer nid) at effect
    unfold State.record at assigned ⊢
    generalize s'.peer nid = ps' at effect assigned
    cases effect with
    | marked found => rw [found, map_some]
    | ignored => exact assigned
  rw [created]
  apply record_of_used taken issued
  unfold Used
  rw [command]
  exact ⟨rfl, rfl, before⟩

theorem recent_of_delivered (stored : p.record nid addr = some ww)
    (served : p.domainForIP read nid addr t = some (domain, mark))
    (run : Run (step ipSet) p before s) (issued : ∀ e ∈ before, e.Issued)
    (forward : Throughout (step ipSet) Forward p before) (delivered : Delivered mark before)
    (assigned : (s.record nid addr).map (·.domain) = some domain) :
    ∃ ww, s.record nid addr = some ww ∧ t - 5 * minute < ww.lastUsed := by
  obtain ⟨rfl, rfl⟩ := domainForIP_eq stored served
  have window : 0 < 5 * minute := by decide
  by_cases close : |t - ww.lastUsed| < 5 * minute
  · -- no mark, and the record of the replica is recent
    obtain ⟨ww', found, ordered, -⟩ := later_of_run run issued forward stored
    have bound := (abs_lt.1 close).2
    exact ⟨ww', found, by linarith⟩
  · rw [fireAndForgetMarkLastUsed, if_neg close] at delivered
    obtain ⟨earlier, e, rfl, command⟩ := delivered _ rfl
    obtain ⟨u, -, taken⟩ := run_snoc.1 run
    have last := issued e (List.mem_append_right _ List.mem_cons_self)
    obtain ⟨ww', found, ordered⟩ := recent_of_mark taken last command assigned
    exact ⟨ww', found, by linarith⟩

theorem alive_of_run (stored : p.record nid addr ≠ none)
    (served : p.domainForIP read nid addr t = some (domain, mark))
    (run : Run (step ipSet) p before s) (delivered : Delivered mark before)
    (rest : Run (step ipSet) s more s') (issued : ∀ e ∈ before ++ more, e.Issued)
    (forward : Throughout (step ipSet) Forward p (before ++ more)) :
    (s.record nid addr).map (·.domain) ≠ some domain ∨
      (∃ ww, s.record nid addr = some ww ∧ t - 5 * minute < ww.lastUsed) ∧
        ((∀ e ∈ more, e.createdAt ≤ t + (lifetime - 5 * minute)) →
          (s'.record nid addr).map (·.domain) = some domain) := by
  by_cases assigned : (s.record nid addr).map (·.domain) = some domain
  case neg => exact .inl assigned
  obtain ⟨ww₀, found₀⟩ := ne_none_iff_exists'.1 stored
  obtain ⟨all, all'⟩ := (throughout_append run rest).1 forward
  obtain ⟨ww, found, recent⟩ := recent_of_delivered found₀ served run
    (fun e member => issued e (List.mem_append_left _ member)) all delivered assigned
  refine .inr ⟨⟨ww, found, recent⟩, fun due => ?_⟩
  obtain ⟨ww', found', -, kept⟩ := later_of_run rest
    (fun e member => issued e (List.mem_append_right _ member)) all' found
  rw [found, map_some, some_inj] at assigned
  cases kept with
  | inl same => rw [found', map_some, same, assigned]
  | inr reused =>
    obtain ⟨e, member, expired⟩ := reused
    have early := due e member
    linarith

namespace Sample

def single : IPSet := v4Set 0x64400000 0x64400000 (by decide)

def only : IP := .valid (.v4 0x64400000)

def markOnly (domain : Bytes) (t : Time) : Entry := ⟨.markLastUsed 1 only domain t, t, t⟩

def connected : State := (step single ∅ (handOut [97] 0 0)).getD ∅

theorem connected_run : Run (step single) ∅ [handOut [97] 0 0] connected :=
  .snoc .refl (getD_of_ne_none (by decide +kernel) ∅).symm

theorem marked_alive : ∃ s s', Run (step single) connected [markOnly [97] hour] s ∧
    Run (step single) s [handOut [98] (48 * hour) (48 * hour)] s' ∧
    (∃ ww, s.record 1 only = some ww ∧ hour - 5 * minute < ww.lastUsed) ∧
      (s'.record 1 only).map (·.domain) = some [97] := by
  obtain ⟨s, taken, s', taken', first⟩ :
      ∃ s ∈ [markOnly [97] hour].foldlM (fun s e => if forward s e then step single s e else none) connected,
        ∃ s' ∈ [handOut [98] (48 * hour) (48 * hour)].foldlM
          (fun s e => if forward s e then step single s e else none) s,
            (s.record 1 only).map (·.domain) = some [97] := by
    decide +kernel
  obtain ⟨run, all⟩ := throughout_of_foldlM forward_sound taken
  obtain ⟨run', all'⟩ := throughout_of_foldlM forward_sound taken'
  have served : connected.domainForIP [] 1 only hour =
      some ([97], some (.markLastUsed 1 only [97] hour)) := by decide +kernel
  have delivered : Delivered (some (.markLastUsed 1 only [97] hour)) [markOnly [97] hour] := by
    intro command member
    cases member
    exact ⟨[], _, rfl, rfl⟩
  have alive := alive_of_run (by decide) served run delivered run' (by decide)
    ((throughout_append run run').2 ⟨all, all'⟩)
  rcases alive with moved | ⟨recent, kept⟩
  · exact absurd first moved
  · exact ⟨s, s', run, run', recent, kept (by decide)⟩

/-- A connection four minutes after the last use is not marked, and the address moves less than a
lifetime later. A replica without a record of the address marks it for no domain. -/
theorem not_alive : Run (step single) ∅ [handOut [97] 0 0] connected ∧
    connected.domainForIP [] 1 only (4 * minute) = some ([97], none) ∧
      ((step single connected (handOut [98] (48 * hour + 1) (48 * hour + 1))).map fun s =>
        (s.record 1 only).map (·.domain)) = some (some [98]) ∧
      State.domainForIP ∅ (connected.applyReadDomainForIP 1 only) 1 only (10 * hour) =
        some ([97], some (.markLastUsed 1 only [] (10 * hour))) ∧
      ((step single connected (markOnly [] (10 * hour))).map fun s => s.record 1 only) =
        some (some ⟨[97], 0⟩) :=
  ⟨connected_run, by decide +kernel⟩

end Sample

end ScaleTail.Natc
