import ScaleTail.Proof.Derp.Forwarders

/-! # The watchers of a region -/

namespace ScaleTail.Derp
open Lib Go Net List Option AList Server

variable {φ : Type} {s s' s'' : Server φ} {c : SClient} {k : NodePublic}

def Event.IsPacket (k : NodePublic) (c : SClient) : Event φ → Prop
  | .noted c' src => c' = c ∧ src = k
  | .wrote c' (.recvPacket src _) => c' = c ∧ src = some k
  | _ => False

def PacketSince (k : NodePublic) (c : SClient) (events : List (Event φ)) : Prop :=
  ∃ before e after, events = before ++ e :: after ∧ e.IsPacket k c ∧ .gone k ∉ after

def GoneSince (k : NodePublic) (c : SClient) (events : List (Event φ)) : Prop :=
  ∃ before e after, events = before ++ e :: after ∧ e.IsPacket k c ∧ .gone k ∈ after

def Told (k : NodePublic) (c : SClient) (events : List (Event φ)) : Prop :=
  [.noted c k, .gone k].Sublist events

def Event.Off : Event φ → Prop
  | .noted _ _ | .gone _ | .wrote _ (.recvPacket (some _) _) => False
  | _ => True

variable {events : List (Event φ)} {key src : NodePublic} {l : LoopPC} {more : List (Event φ)}

theorem noted_mem_append (off : ∀ e ∈ more, e.Off) :
    .noted c k ∈ events ++ more ↔ .noted c k ∈ events :=
  ⟨fun mem => (mem_append.1 mem).elim id fun mem => (off _ mem).elim, mem_append_left _⟩

theorem told_append (quiet : .gone k ∉ more) : Told k c (events ++ more) ↔ Told k c events := by
  unfold Told
  rw [pair_sublist_append]
  refine ⟨?_, .inl⟩
  rintro (told | ⟨-, gone⟩ | told)
  · exact told
  · exact absurd gone quiet
  · exact absurd (told.subset (mem_cons_of_mem _ mem_cons_self)) quiet

theorem told_gone :
    Told k c (events ++ [.gone key]) ↔ Told k c events ∨ (.noted c k ∈ events ∧ k = key) := by
  unfold Told
  rw [pair_sublist_append, mem_singleton]
  constructor
  · rintro (told | ⟨mem, same⟩ | told)
    · exact .inl told
    · cases same
      exact .inr ⟨mem, rfl⟩
    · exact absurd told.length_le (by simp)
  · rintro (told | ⟨mem, rfl⟩)
    · exact .inl told
    · exact .inr (.inl ⟨mem, rfl⟩)

theorem told_noted {c' : SClient} : Told k c (events ++ [.noted c' src]) ↔ Told k c events :=
  told_append (by simp)

def Server.watchersOf (s : Server φ) (k : NodePublic) : List (Nat × SClient) :=
  (s.peerGoneWatchers.lookup k).getD []

def Noted (events : List (Event φ)) : Prop :=
  Each (fun before e => ∀ c k bs, e = .wrote c (.recvPacket (some k) bs) → .noted c k ∈ before) events

structure Watches (s : Server φ) : Prop where
  noted : ∀ c k, k ∈ (s.conns c).sawSrc ↔ .noted c k ∈ s.events
  writing : ∀ c p, (s.conns c).loop = .writing p → p.src ≠ 0 → .noted c p.src ∈ s.events
  wrote : Noted s.events
  cleaning : ∀ c rest, (s.conns c).loop = .cleaning rest → ∀ e ∈ rest, (s.conns c).sawSrc.lookup e.1 = some e.2
  below : ∀ c k h, (s.conns c).sawSrc.lookup k = some h → h < s.nextHandle
  unique : ∀ c k c' k' h, (s.conns c).sawSrc.lookup k = some h → (s.conns c').sawSrc.lookup k' = some h →
    c = c' ∧ k = k'
  watchers : ∀ k h c, (h, c) ∈ s.watchersOf k → (s.conns c).sawSrc.lookup k = some h ∧ ¬ Told k c s.events
  nodup : ∀ k, (s.watchersOf k).Nodup
  watching : ∀ c k h, ¬ (s.conns c).loop.Ended → (s.conns c).sawSrc.lookup k = some h →
    ¬ Told k c s.events → (h, c) ∈ s.watchersOf k

theorem new_watches (k : NodePublic) (depth : Nat) : Watches (new k depth : Server φ) := by
  have memo : ∀ {k h}, (∅ : AList fun _ : NodePublic => Nat).lookup k ≠ some h := by
    intro k h
    exact nofun
  constructor
  case noted => exact fun _ k => iff_of_false (notMem_empty k) not_mem_nil
  case writing => exact nofun
  case wrote => exact each_nil
  case cleaning => exact nofun
  case below => exact fun _ _ _ found => absurd found memo
  case unique => exact fun _ _ _ _ _ found => absurd found memo
  case watchers => exact fun _ _ _ mem => absurd mem not_mem_nil
  case nodup => exact fun _ => nodup_nil
  case watching => exact fun _ _ _ _ found => absurd found memo

def LoopPC.Goes (l l' : LoopPC) : Prop :=
  l' = l ∨ l' = .done ∨ (¬ l.Ended ∧ (l' = .select ∨ ∃ batch, l' = .updating batch))

structure Unwatched (s s' : Server φ) : Prop where
  peerGoneWatchers : s'.peerGoneWatchers = s.peerGoneWatchers
  nextHandle : s'.nextHandle = s.nextHandle
  sawSrc : ∀ c, (s'.conns c).sawSrc = (s.conns c).sawSrc
  loop : ∀ c, (s.conns c).loop.Goes (s'.conns c).loop
  events : ∃ more, s'.events = s.events ++ more ∧ ∀ e ∈ more, e.Off

theorem noted_append_off (off : ∀ e ∈ more, e.Off)
    (each : Noted events) : Noted (events ++ more) := by
  induction more using List.reverseRecOn with
  | nil => rwa [append_nil]
  | append_singleton _ e ih =>
    rw [← append_assoc, Noted, each_concat]
    refine ⟨ih fun e mem => off e (mem_append_left _ mem), ?_⟩
    rintro c k bs rfl
    exact (off _ (mem_append_right _ (mem_singleton_self _))).elim

theorem Watches.frame (watches : Watches s) (watchers : s'.peerGoneWatchers = s.peerGoneWatchers)
    (handle : s'.nextHandle = s.nextHandle) (sawSrc : ∀ c, (s'.conns c).sawSrc = (s.conns c).sawSrc)
    (noted : ∀ c k, .noted c k ∈ s'.events ↔ .noted c k ∈ s.events)
    (told : ∀ c k, Told k c s'.events ↔ Told k c s.events) (wrote : Noted s'.events)
    (writing : ∀ c p, (s'.conns c).loop = .writing p → p.src ≠ 0 → .noted c p.src ∈ s.events)
    (cleaning : ∀ c rest, (s'.conns c).loop = .cleaning rest → ∀ e ∈ rest,
      (s.conns c).sawSrc.lookup e.1 = some e.2)
    (ended : ∀ c, (s.conns c).loop.Ended → (s'.conns c).loop.Ended) : Watches s' := by
  have of : ∀ k, s'.watchersOf k = s.watchersOf k := fun k => by
    rw [watchersOf, watchers, watchersOf]
  constructor
  case noted =>
    intro c k
    rw [sawSrc, noted]
    exact watches.noted c k
  case writing => exact fun c p loop source => (noted _ _).2 (writing c p loop source)
  case wrote => exact wrote
  case cleaning =>
    intro c rest loop
    rw [sawSrc]
    exact cleaning c rest loop
  case below =>
    intro c k h
    rw [sawSrc, handle]
    exact watches.below c k h
  case unique =>
    intro c k c' k' h
    rw [sawSrc, sawSrc]
    exact watches.unique c k c' k' h
  case watchers =>
    intro k h c
    rw [of, sawSrc, told]
    exact watches.watchers k h c
  case nodup =>
    intro k
    rw [of]
    exact watches.nodup k
  case watching =>
    intro c k h running
    rw [of, sawSrc, told]
    exact watches.watching c k h (mt (ended c) running)

theorem Watches.unwatched (watches : Watches s) (unwatched : Unwatched s s') : Watches s' := by
  obtain ⟨more, events, off⟩ := unwatched.events
  have goes := unwatched.loop
  have still c l (loop : (s'.conns c).loop = l)
      (other : l ≠ .done ∧ l ≠ .select ∧ ∀ batch, l ≠ .updating batch) : (s.conns c).loop = l := by
    rcases goes c with same | done | ⟨-, select | ⟨batch, updating⟩⟩
    · exact same.symm.trans loop
    · exact absurd (loop.symm.trans done) other.1
    · exact absurd (loop.symm.trans select) other.2.1
    · exact absurd (loop.symm.trans updating) (other.2.2 batch)
  refine watches.frame unwatched.peerGoneWatchers unwatched.nextHandle unwatched.sawSrc ?_ ?_ ?_ ?_ ?_ ?_
  · intro c k
    rw [events, noted_mem_append off]
  · intro c k
    rw [events, told_append fun gone => off _ gone]
  · rw [events]
    exact noted_append_off off watches.wrote
  · exact fun c p loop => watches.writing c p (still c _ loop (by simp))
  · exact fun c rest loop => watches.cleaning c rest (still c _ loop (by simp))
  · intro c ended
    rcases goes c with same | done | ⟨running, -⟩
    · exact same ▸ ended
    · rw [done]
      trivial
    · exact absurd ended running

theorem LoopPC.Goes.trans {l' l'' : LoopPC} (first : l.Goes l') (second : l'.Goes l'') : l.Goes l'' := by
  rcases second with rfl | done | ⟨running, going⟩
  · exact first
  · exact .inr (.inl done)
  · rcases first with rfl | rfl | ⟨start, -⟩
    · exact .inr (.inr ⟨running, going⟩)
    · exact absurd trivial running
    · exact .inr (.inr ⟨start, going⟩)

theorem Unwatched.trans (first : Unwatched s s') (second : Unwatched s' s'') : Unwatched s s'' where
  peerGoneWatchers := second.peerGoneWatchers.trans first.peerGoneWatchers
  nextHandle := second.nextHandle.trans first.nextHandle
  sawSrc := fun c => (second.sawSrc c).trans (first.sawSrc c)
  loop := fun c => (first.loop c).trans (second.loop c)
  events := by
    obtain ⟨more, eq, off⟩ := first.events
    obtain ⟨more', eq', off'⟩ := second.events
    refine ⟨more ++ more', by rw [eq', eq, append_assoc], fun e mem => ?_⟩
    exact (mem_append.1 mem).elim (off e) (off' e)

theorem unwatched_of_eq (watchers : s'.peerGoneWatchers = s.peerGoneWatchers)
    (handle : s'.nextHandle = s.nextHandle) (events : s'.events = s.events)
    (conns : ∀ c, (s'.conns c).sawSrc = (s.conns c).sawSrc ∧ (s'.conns c).loop = (s.conns c).loop) :
    Unwatched s s' :=
  ⟨watchers, handle, fun c => (conns c).1, fun c => .inl (conns c).2, [],
    events.trans (append_nil _).symm, nofun⟩

theorem sawSrc_updateConn (s : Server φ) (c c' : SClient) (f : Conn → Conn)
    (sawSrc : (f (s.conns c)).sawSrc = (s.conns c).sawSrc) :
    ((s.updateConn c f).conns c').sawSrc = (s.conns c').sawSrc := by
  by_cases same : c' = c
  · subst same
    simpa [updateConn] using sawSrc
  · simp [updateConn, same]

theorem unwatched_updateConn (s : Server φ) (c : SClient) {f : Conn → Conn}
    (sawSrc : (f (s.conns c)).sawSrc = (s.conns c).sawSrc)
    (loop : (s.conns c).loop.Goes (f (s.conns c)).loop) : Unwatched s (s.updateConn c f) := by
  refine ⟨rfl, rfl, fun c' => sawSrc_updateConn s c c' f sawSrc, fun c' => ?_, [],
    (append_nil _).symm, nofun⟩
  by_cases same : c' = c
  · subst same
    simpa [updateConn] using loop
  · exact .inl (by simp [updateConn, same])

theorem unwatched_record (s : Server φ) {e : Event φ} (off : e.Off) : Unwatched s (s.record e) := by
  refine ⟨rfl, rfl, fun _ => rfl, fun _ => .inl rfl, [e], rfl, fun e' mem => ?_⟩
  rw [mem_singleton.1 mem]
  exact off

theorem unwatched_write (s : Server φ) {c : SClient} {frame : Frame} {next : LoopPC}
    (off : (.wrote c frame : Event φ).Off) (loop : (s.conns c).loop.Goes next) :
    Unwatched s (s.write c frame next) :=
  (unwatched_updateConn s c rfl loop).trans (unwatched_record _ off)

theorem unwatched_broadcast (s : Server φ) (pcs : PeerConnState) :
    Unwatched s (s.broadcastPeerStateChangeLocked pcs) := by
  refine unwatched_of_eq rfl rfl rfl fun c => ?_
  dsimp only [broadcastPeerStateChangeLocked]
  split <;> exact ⟨rfl, rfl⟩

theorem unwatched_notify (s : Server φ) (key : NodePublic) (watchers : List (Nat × SClient)) :
    Unwatched s (s.notify key watchers) := by
  induction watchers generalizing s with
  | nil => exact unwatched_of_eq rfl rfl rfl fun _ => ⟨rfl, rfl⟩
  | cons w _ ih =>
    exact ((unwatched_updateConn s w.2 rfl (.inl rfl)).trans (unwatched_record _ (e := .notified w.2 key) trivial)).trans
      (ih _)

theorem Watches.departs (watches : Watches s) (key : NodePublic) :
    Watches { s.record (.gone key) with peerGoneWatchers := s.peerGoneWatchers.erase key } := by
  have of k : watchersOf { s.record (.gone key) with
      peerGoneWatchers := s.peerGoneWatchers.erase key } k =
        if k = key then [] else s.watchersOf k := by
    unfold watchersOf
    split
    next same =>
      rw [same, lookup_erase]
      rfl
    next other => rw [lookup_erase_ne other]
  have stays {e : Event φ} (mem : e ∈ s.events) : e ∈ s.events ++ [.gone key] := mem_append_left _ mem
  refine { watches with
    noted := ?noted, writing := ?writing, wrote := ?wrote
    watchers := ?watchers, nodup := ?nodup, watching := ?watching }
  case noted =>
    intro c k
    refine (watches.noted c k).trans ⟨stays, fun mem => ?_⟩
    exact (mem_append.1 mem).elim id nofun
  case writing => exact fun c p loop source => stays (watches.writing c p loop source)
  case wrote => exact each_concat.2 ⟨watches.wrote, nofun⟩
  case watchers =>
    intro k h c mem
    rw [of] at mem
    split at mem
    · cases mem
    next other =>
      obtain ⟨found, untold⟩ := watches.watchers k h c mem
      exact ⟨found, fun told => (told_gone.1 told).elim untold fun here => other here.2⟩
  case nodup =>
    intro k
    rw [of]
    split
    · exact nodup_nil
    · exact watches.nodup k
  case watching =>
    intro c k h running found untold
    rw [of]
    split
    next same =>
      have noted : .noted c k ∈ s.events := (watches.noted c k).1
        (lookup_isSome.1 (isSome_iff_exists.2 ⟨h, found⟩))
      exact absurd (told_gone.2 (.inr ⟨noted, same⟩)) untold
    · exact watches.watching c k h running found fun told => untold (told_gone.2 (.inl told))

theorem Watches.note (watches : Watches s) (key : NodePublic) :
    Watches (s.notePeerGoneFromRegionLocked key) := by
  unfold notePeerGoneFromRegionLocked
  split
  · exact watches.unwatched (unwatched_of_eq rfl rfl rfl fun _ => ⟨rfl, rfl⟩)
  -- The calls change neither the memos nor the watchers, so the erasure may come first.
  have called := unwatched_notify (s.record (.gone key)) key ((s.peerGoneWatchers.lookup key).getD [])
  refine (watches.departs key).unwatched { called with peerGoneWatchers := ?_ }
  exact congrArg (AList.erase key) called.peerGoneWatchers

/-- The server after the first packet of `src` to `c`. -/
def Server.firstSend (s : Server φ) (c : SClient) (src : NodePublic) : Server φ :=
  ((s.addPeerGoneFromRegionWatcher src c).updateConn c fun conn =>
    { conn with sawSrc := conn.sawSrc.insert src s.nextHandle }).record (.noted c src)

section First
variable {c' : SClient}

theorem lookup_firstSend (unseen : src ∉ (s.conns c).sawSrc) {h : Nat} :
    ((s.firstSend c src).conns c').sawSrc.lookup k = some h ↔
      (s.conns c').sawSrc.lookup k = some h ∨ (c' = c ∧ k = src ∧ h = s.nextHandle) := by
  by_cases same : c' = c ∧ k = src
  · obtain ⟨rfl, rfl⟩ := same
    simp [firstSend, record, updateConn, addPeerGoneFromRegionWatcher, lookup_eq_none.2 unseen, eq_comm]
  · by_cases here : c' = c
    · subst here
      have other : k ≠ src := fun eq => same ⟨rfl, eq⟩
      simp [firstSend, record, updateConn, addPeerGoneFromRegionWatcher, other]
    · simp [firstSend, record, updateConn, addPeerGoneFromRegionWatcher, here]

theorem loop_firstSend : ((s.firstSend c src).conns c').loop = (s.conns c').loop := by
  by_cases same : c' = c
  · simp [firstSend, record, updateConn, addPeerGoneFromRegionWatcher, same]
  · simp [firstSend, record, updateConn, addPeerGoneFromRegionWatcher, same]

theorem watchersOf_firstSend : (s.firstSend c src).watchersOf k =
    s.watchersOf k ++ if k = src then [(s.nextHandle, c)] else [] := by
  by_cases same : k = src
  · subst same
    simp [watchersOf, firstSend, record, updateConn, addPeerGoneFromRegionWatcher]
  · simp [watchersOf, firstSend, record, updateConn, addPeerGoneFromRegionWatcher, same]

end First

theorem Watches.first (watches : Watches s) (unseen : src ∉ (s.conns c).sawSrc) :
    Watches (s.firstSend c src) := by
  have memo {c' k h} := @lookup_firstSend φ s c k src c' unseen h
  have stays {e : Event φ} (mem : e ∈ s.events) : e ∈ s.events ++ [.noted c src] := mem_append_left _ mem
  constructor
  case noted =>
    intro c' k
    have before := watches.noted c' k
    rw [← lookup_isSome, isSome_iff_exists] at before ⊢
    simp only [memo, exists_or, before]
    change _ ↔ _ ∈ s.events ++ [.noted c src]
    simp
  case writing =>
    intro c' p at_ source
    rw [loop_firstSend] at at_
    exact stays (watches.writing c' p at_ source)
  case wrote => exact each_concat.2 ⟨watches.wrote, nofun⟩
  case cleaning =>
    intro c' rest at_ e mem
    rw [loop_firstSend] at at_
    exact memo.2 (.inl (watches.cleaning c' rest at_ e mem))
  case below =>
    intro c' k h found
    rcases memo.1 found with found | ⟨-, -, rfl⟩
    · exact Nat.lt_succ_of_lt (watches.below c' k h found)
    · exact Nat.lt_succ_self _
  case unique =>
    intro c₁ k₁ c₂ k₂ h found₁ found₂
    rcases memo.1 found₁ with old₁ | ⟨rfl, rfl, rfl⟩ <;> rcases memo.1 found₂ with old₂ | ⟨rfl, rfl, new⟩
    · exact watches.unique c₁ k₁ c₂ k₂ h old₁ old₂
    · exact absurd (watches.below _ _ _ old₁) (by omega)
    · exact absurd (watches.below _ _ _ old₂) (by omega)
    · exact ⟨rfl, rfl⟩
  case watchers =>
    intro k h c' mem
    rw [watchersOf_firstSend, mem_append, mem_ite_nil_right, mem_singleton] at mem
    rcases mem with old | ⟨rfl, ⟨⟩⟩
    · obtain ⟨found, untold⟩ := watches.watchers k h c' old
      exact ⟨memo.2 (.inl found), mt told_noted.1 untold⟩
    · refine ⟨memo.2 (.inr ⟨rfl, rfl, rfl⟩), fun told => unseen ?_⟩
      exact (watches.noted _ _).2 ((told_noted.1 told).subset mem_cons_self)
  case nodup =>
    intro k
    rw [watchersOf_firstSend]
    split
    · refine nodup_append_comm.1 (nodup_cons.2 ⟨fun mem => ?_, watches.nodup k⟩)
      exact Nat.lt_irrefl _ (watches.below _ _ _ (watches.watchers _ _ _ mem).1)
    · rw [append_nil]
      exact watches.nodup k
  case watching =>
    intro c' k h running found untold
    rw [loop_firstSend] at running
    rw [watchersOf_firstSend]
    rcases memo.1 found with old | ⟨rfl, rfl, rfl⟩
    · exact mem_append_left _ (watches.watching c' k h running old (mt told_noted.2 untold))
    · simp

theorem Watches.noteSendFromSrc (watches : Watches s) (c : SClient) (src : NodePublic) :
    Watches ((s.noteSendFromSrc c src).record (.noted c src)) := by
  unfold Server.noteSendFromSrc
  split
  next seen =>
    have before := (watches.noted c src).1 seen
    refine watches.frame rfl rfl (fun _ => rfl) ?_ (fun _ _ => told_noted) ?_ watches.writing
      watches.cleaning (fun _ => id)
    · intro c' k
      refine ⟨fun mem => ?_, mem_append_left _⟩
      rcases mem_append.1 mem with mem | mem
      · exact mem
      · cases mem_singleton.1 mem
        exact before
    · exact each_concat.2 ⟨watches.wrote, nofun⟩
  next unseen => exact watches.first unseen

theorem Watches.goTo (watches : Watches s) (loop : LoopPC)
    (writing : ∀ p, loop = .writing p → p.src ≠ 0 → .noted c p.src ∈ s.events)
    (cleaning : ∀ rest, loop = .cleaning rest → ∀ e ∈ rest, (s.conns c).sawSrc.lookup e.1 = some e.2)
    (ended : (s.conns c).loop.Ended → loop.Ended) :
    Watches (s.updateConn c fun conn => { conn with loop }) := by
  have loops : ∀ c', ((s.updateConn c fun conn => { conn with loop }).conns c').loop =
      if c' = c then loop else (s.conns c').loop := by
    intro c'
    by_cases same : c' = c
    · simp [updateConn, same]
    · simp [updateConn, same]
  refine watches.frame rfl rfl ?_ (fun _ _ => .rfl) (fun _ _ => .rfl) watches.wrote ?_ ?_ ?_
  · exact fun c' => sawSrc_updateConn s c c' _ rfl
  · intro c' p
    rw [loops]
    split
    next same => exact same ▸ writing p
    · exact watches.writing c' p
  · intro c' rest
    rw [loops]
    split
    next same => exact same ▸ cleaning rest
    · exact watches.cleaning c' rest
  · intro c'
    rw [loops]
    split
    next same => exact same ▸ ended
    · exact id

theorem Watches.wrotePacket (watches : Watches s) {bs : Bytes}
    (noted : .noted c src ∈ s.events) : Watches (s.record (.wrote c (.recvPacket (some src) bs))) := by
  refine watches.frame rfl rfl (fun _ => rfl) ?_ ?_ ?_ watches.writing watches.cleaning fun _ => id
  · intro c' k
    exact ⟨fun mem => (mem_append.1 mem).elim id nofun, mem_append_left _⟩
  · exact fun c' k => told_append (by simp)
  · refine each_concat.2 ⟨watches.wrote, ?_⟩
    rintro c' k bs' same
    cases same
    exact noted

theorem watchersOf_remove (s : Server φ) (key : NodePublic) (h : Nat) (k : NodePublic) :
    (s.removePeerGoneFromRegionWatcher key h).watchersOf k =
      if k = key then (s.watchersOf key).filter (·.1 ≠ h) else s.watchersOf k := by
  unfold removePeerGoneFromRegionWatcher watchersOf
  by_cases same : k = key
  · subst same
    rw [if_pos rfl]
    cases found : s.peerGoneWatchers.lookup k with
    | none => simp [found]
    | some =>
      dsimp only
      split
      next none =>
        rw [lookup_erase, getD_some, length_eq_zero_iff.1 none]
        rfl
      next => rw [lookup_insert, getD_some, getD_some]
  · rw [if_neg same]
    split
    · rfl
    dsimp only
    split
    · rw [lookup_erase_ne same]
    · rw [lookup_insert_ne same]

theorem Watches.unwatch (watches : Watches s) {h : Nat}
    (memo : (s.conns c).sawSrc.lookup key = some h) (ended : (s.conns c).loop.Ended) :
    Watches (s.removePeerGoneFromRegionWatcher key h) := by
  have of := watchersOf_remove s key h
  obtain ⟨left, eq⟩ : ∃ left,
      s.removePeerGoneFromRegionWatcher key h = { s with peerGoneWatchers := left } := by
    unfold removePeerGoneFromRegionWatcher
    split <;> exact ⟨_, rfl⟩
  rw [eq] at of ⊢
  refine { watches with watchers := ?watchers, nodup := ?nodup, watching := ?watching }
  case watchers =>
    intro k h' c' mem
    refine watches.watchers k h' c' ?_
    rw [of] at mem
    split at mem
    next at_ => exact at_ ▸ mem_of_mem_filter mem
    · exact mem
  case nodup =>
    intro k
    rw [of]
    split
    · exact (watches.nodup key).filter _
    · exact watches.nodup k
  case watching =>
    intro c' k h' running found untold
    have mem := watches.watching c' k h' running found untold
    rw [of]
    split
    next at_ =>
      subst at_
      refine mem_filter.2 ⟨mem, decide_eq_true ?_⟩
      intro eq
      cases eq
      obtain ⟨rfl, -⟩ := watches.unique _ _ _ _ _ found memo
      exact running ended
    · exact mem

theorem LoopPC.Goes.to_select (running : ¬ l.Ended) : l.Goes .select :=
  .inr (.inr ⟨running, .inl rfl⟩)

theorem LoopPC.Goes.to_updating {batch : List PeerConnState} (running : ¬ l.Ended) :
    l.Goes (.updating batch) :=
  .inr (.inr ⟨running, .inr ⟨batch, rfl⟩⟩)

theorem unwatched_addWatcher (s : Server φ) (c : SClient) : Unwatched s (s.addWatcher c) := by
  unfold addWatcher
  split
  · exact unwatched_of_eq rfl rfl rfl fun _ => ⟨rfl, rfl⟩
  refine (unwatched_updateConn s c (f := fun conn => { conn with
    peerStateChange := conn.peerStateChange ++ s.reg.clients.entries.filterMap fun e =>
      e.2.activeClient.map fun ac => ⟨e.1, true, ac.remoteIPPort, ac.presentFlags⟩
    meshRequests := conn.meshRequests + 1 }) rfl (.inl rfl)).trans ?_
  exact unwatched_of_eq rfl rfl rfl fun _ => ⟨rfl, rfl⟩

theorem frame_off (pcs : PeerConnState) : (.wrote c pcs.frame : Event φ).Off := by
  unfold PeerConnState.frame
  split <;> trivial

theorem Watches.sendPacket (watches : Watches s) (p : Pkt) (running : ¬ (s.conns c).loop.Ended) :
    Watches (s.sendPacket c p) := by
  unfold Server.sendPacket
  split
  next zero =>
    refine watches.goTo (.writing p) ?_ nofun fun ended => absurd ended running
    rintro _ ⟨⟩ source
    exact absurd zero source
  next source =>
    refine (watches.noteSendFromSrc c p.src).goTo (.writing p) ?_ nofun fun ended => absurd ?_ running
    · rintro _ ⟨⟩ _
      exact mem_append_right _ (mem_singleton_self _)
    · rwa [← loop_noteSendFromSrc s c p.src]

theorem Watches.minor (watches : Watches s) {op : Op φ} (minor : Minor s op s') : Watches s' := by
  cases minor with
  | none => exact watches
  | plain plain => exact watches.unwatched (unwatched_updateConn s _ plain.sawSrc (.inl plain.loop))
  | forwarded => exact watches.unwatched (unwatched_record s trivial)
  | start _ at_ | updated at_ =>
    exact watches.unwatched (unwatched_updateConn s _ rfl (.to_select (not_ended at_ id)))
  | watch => exact watches.unwatched (unwatched_addWatcher s _)
  | @peerGone c _ _ select | @pong _ c _ select =>
    refine watches.unwatched ((unwatched_updateConn s c rfl (.inl rfl)).trans (unwatched_write _ ?_ ?_))
    · trivial
    · rw [conns_updateConn]
      exact .to_select (not_ended select id)
  | update at_ | batch at_ =>
    exact watches.unwatched (unwatched_updateConn s _ rfl (.to_updating (not_ended at_ id)))
  | @send _ c p f select plain =>
    have moved : Watches (s.updateConn c f) :=
      watches.unwatched (unwatched_updateConn s c plain.sawSrc (.inl plain.loop))
    refine moved.sendPacket p ?_
    rw [conns_updateConn, plain.loop]
    exact not_ended select id
  | keepAlive select =>
    exact watches.unwatched (unwatched_write s trivial (.to_select (not_ended select id)))
  | @written c p writing =>
    have moved : Unwatched s (s.updateConn c fun conn => { conn with
        unread := conn.unread ++ [.recvPacket (if p.src = 0 then Option.none else some p.src) p.bs]
        loop := .select }) :=
      unwatched_updateConn s c rfl (.to_select (not_ended writing id))
    by_cases source : p.src = 0
    · rw [if_pos source] at moved ⊢
      exact watches.unwatched (moved.trans (unwatched_record _ trivial))
    · rw [if_neg source] at moved ⊢
      exact (watches.unwatched moved).wrotePacket (watches.writing c p writing source)
  | change updating =>
    exact watches.unwatched
      (unwatched_write s (frame_off _) (.to_updating (not_ended updating id)))
  | cleaned => exact watches.unwatched (unwatched_updateConn s _ rfl (.inr (.inl rfl)))
  | @clean c e rest cleaning =>
    have memos := watches.cleaning c (e :: rest) cleaning
    have ended : (s.conns c).loop.Ended := by
      rw [cleaning]
      trivial
    refine (watches.unwatch (memos e mem_cons_self) ended).goTo (.cleaning rest) nofun ?_ fun _ => trivial
    rintro rest' ⟨⟩ e' mem
    rw [conns_removeWatcher]
    exact memos e' (mem_cons_of_mem _ mem)
  | @stop c =>
    have ended : (s.conns c).loop.Ended → (LoopPC.cleaning (s.conns c).sawSrc.entries).Ended :=
      fun _ => trivial
    refine watches.goTo (.cleaning (s.conns c).sawSrc.entries) nofun ?_ ended
    rintro rest ⟨⟩ e mem
    exact mem_lookup_iff.2 mem
  | recv => exact watches.unwatched (unwatched_updateConn s _ rfl (.inl rfl))

theorem unwatched_registerClient (s : Server φ) (c : SClient) : Unwatched s (s.registerClient c) := by
  refine Unwatched.trans ?_ (unwatched_broadcast _ _)
  split <;> exact unwatched_of_eq rfl rfl rfl fun _ => ⟨rfl, rfl⟩

theorem Watches.congr (watches : Watches s) (watchers : s'.peerGoneWatchers = s.peerGoneWatchers)
    (handle : s'.nextHandle = s.nextHandle) (conns : s'.conns = s.conns) (events : s'.events = s.events) :
    Watches s' :=
  watches.unwatched (unwatched_of_eq watchers handle events fun c => by rw [conns]; exact ⟨rfl, rfl⟩)

theorem Watches.lastGone (watches : Watches s) (key : NodePublic) : Watches (s.lastGone key) := by
  refine Watches.unwatched ?_ (unwatched_broadcast _ _)
  split
  · apply Watches.note
    exact watches.congr rfl rfl rfl rfl
  · exact watches

theorem Watches.unregisterClient (watches : Watches s) (c : SClient) : Watches (s.unregisterClient c) := by
  have left : Watches { s with reg := (s.reg.unregisterClient c).1 } := watches.congr rfl rfl rfl rfl
  unfold Server.unregisterClient
  dsimp only
  split
  · exact left
  · split
    · exact (left.lastGone c.key).congr rfl rfl rfl rfl
    · exact left.lastGone c.key
  · split
    · exact left.congr rfl rfl rfl rfl
    · exact left

section Runs
variable [DecidableEq φ] {ops : List (Op φ)} {op : Op φ}

theorem Watches.step (watches : Watches s) (taken : s.step op = some s') : Watches s' := by
  cases change_of_step taken with
  | @register c =>
    have registered : Watches { s.registerClient c with registered := s.registered ++ [c] } :=
      (watches.unwatched (unwatched_registerClient s c)).congr rfl rfl rfl rfl
    exact registered.unwatched
      ((unwatched_updateConn _ c rfl (.inl rfl)).trans (unwatched_record _ trivial))
  | @unregister c =>
    have left : Watches { s.unregisterClient c with registered := s.registered.erase c } :=
      (watches.unregisterClient c).congr rfl rfl rfl rfl
    exact left.unwatched
      ((unwatched_updateConn _ c rfl (.inl rfl)).trans (unwatched_record _ trivial))
  | noting => exact watches.unwatched (unwatched_updateConn s _ rfl (.inl rfl))
  | settled => exact watches
  | @note c =>
    have noted : Watches { s with reg := s.reg.noteClientActivity c } := watches.congr rfl rfl rfl rfl
    split
    · exact noted.unwatched
        ((unwatched_updateConn _ c rfl (.inl rfl)).trans (unwatched_record _ trivial))
    · exact noted.unwatched (unwatched_updateConn _ c rfl (.inl rfl))
  | add => exact watches.congr rfl rfl rfl rfl
  | @remove =>
    unfold removePacketForwarder
    dsimp only
    split
    · exact watches.congr rfl rfl rfl rfl
    · apply Watches.note
      exact watches.congr rfl rfl rfl rfl
    · exact watches.congr rfl rfl rfl rfl
  | minor _ minor => exact watches.minor minor

theorem watches_of_run {k : NodePublic} {depth : Nat} (run : Run step (new k depth) ops s) :
    Watches s := by
  induction run with
  | refl => exact new_watches k depth
  | snoc _ taken ih => exact ih.step taken

end Runs

end ScaleTail.Derp
