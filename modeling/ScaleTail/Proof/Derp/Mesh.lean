import ScaleTail.Proof.Derp.Forwarders

/-! # The view of a mesh peer -/

namespace ScaleTail.Derp
open Lib Go Net List Server

variable {φ : Type} {s s' s'' : Server φ} {c w : SClient} {k : NodePublic}

def Callback.word (k : NodePublic) : Callback → Option Bool
  | .add m => if m.key = k then some true else none
  | .remove m => if m.peer = k then some false else none

def Frame.word (k : NodePublic) : Frame → Option Bool
  | .peerPresent peer _ _ _ => if peer = k then some true else none
  | .peerGone m => if m.peer = k then some false else none
  | _ => none

def inView (k : NodePublic) (calls : List Callback) : Bool := settle (Callback.word k) false calls

def LoopPC.batch : LoopPC → List PeerConnState
  | .updating batch => batch
  | _ => []

namespace Conn

def unsent (conn : Conn) : List Frame := (conn.loop.batch ++ conn.peerStateChange).map PeerConnState.frame

def ahead (conn : Conn) (k : NodePublic) : Bool :=
  settle (Frame.word k) (inView k conn.client.calls) (conn.unread ++ conn.unsent)

structure Quiet (conn : Conn) : Prop where
  peerStateChange : conn.peerStateChange = []
  batch : conn.loop.batch = []
  requests : conn.requests = []
  unread : conn.unread = []

instance (conn : Conn) : Decidable conn.Quiet :=
  decidable_of_iff (conn.peerStateChange = [] ∧ conn.loop.batch = [] ∧ conn.requests = [] ∧ conn.unread = [])
    ⟨fun h => ⟨h.1, h.2.1, h.2.2.1, h.2.2.2⟩, fun h => ⟨h.1, h.2, h.3, h.4⟩⟩

theorem Quiet.ahead {conn : Conn} (quiet : conn.Quiet) :
    conn.ahead k = inView k conn.client.calls := by
  rw [Conn.ahead, Conn.unsent, quiet.peerStateChange, quiet.batch, quiet.unread]
  rfl

structure Alike (conn conn' : Conn) : Prop where
  loop : conn'.loop.batch = conn.loop.batch
  peerStateChange : conn'.peerStateChange = conn.peerStateChange
  unread : conn'.unread = conn.unread
  client : conn'.client = conn.client

variable {conn conn' : Conn}

theorem Alike.ahead (alike : conn.Alike conn') : conn'.ahead k = conn.ahead k := by
  rw [Conn.ahead, Conn.unsent, alike.loop, alike.peerStateChange, alike.unread, alike.client]
  rfl

theorem ahead_queue (conn : Conn) (changes : List PeerConnState) (k : NodePublic) {conn' : Conn}
    (loop : conn'.loop.batch = conn.loop.batch)
    (queue : conn'.peerStateChange = conn.peerStateChange ++ changes)
    (unread : conn'.unread = conn.unread) (client : conn'.client = conn.client) :
    conn'.ahead k = settle (Frame.word k) (conn.ahead k) (changes.map PeerConnState.frame) := by
  rw [ahead, unsent, loop, queue, unread, client, ← append_assoc, map_append,
    ← append_assoc, settle_append]
  rfl

theorem ahead_write (frame : Frame) (k : NodePublic)
    (unsent : conn'.unsent = conn.unsent) (unread : conn'.unread = conn.unread ++ [frame])
    (client : conn'.client = conn.client) (harmless : frame.word k = none ∨
      frame.word k = some (conn.ahead k)) : conn'.ahead k = conn.ahead k := by
  rw [ahead, unsent, unread, client, append_assoc, settle_append, singleton_append]
  have before : conn.ahead k = settle (Frame.word k)
      (settle (Frame.word k) (inView k conn.client.calls) conn.unread) conn.unsent := settle_append
  rcases harmless with silent | said
  · rw [before, settle, foldl_cons, silent]
    rfl
  · rw [settle, foldl_cons, said]
    exact settle_self before.symm

end Conn

theorem inView_recv (l : WatchLoop) (frame : Frame) (k : NodePublic) :
    inView k (l.recv frame).calls = (frame.word k).getD (inView k l.calls) := by
  cases frame with
  | peerPresent | peerGone => exact settle_append
  | _ => rfl

theorem word_frame (pcs : PeerConnState) (k : NodePublic) :
    pcs.frame.word k = if pcs.peer = k then some pcs.present else none := by
  unfold PeerConnState.frame
  split
  next present => rw [present]; rfl
  next absent => rw [Bool.eq_false_iff.2 absent]; rfl

def Shows (w : SClient) (s : Server φ) (shown : NodePublic → Prop) : Prop :=
  ¬ (s.conns w).loop.Ended → (s.conns w).run ≠ .gone →
    ∀ k, (s.conns w).ahead k = true ↔ w ∈ s.watchers ∧ shown k

structure Mirror (w : SClient) (s s' : Server φ) : Prop where
  ahead : ¬ (s'.conns w).loop.Ended → ∀ k, (s'.conns w).ahead k = (s.conns w).ahead k
  ended : (s.conns w).loop.Ended → (s'.conns w).loop.Ended
  gone : (s.conns w).run = .gone → (s'.conns w).run = .gone
  watchers : w ∈ s'.watchers ↔ w ∈ s.watchers

section Mirror
variable {shown shown' : NodePublic → Prop}

theorem Shows.congr (shows_ : Shows w s shown) (same : ∀ k, shown k ↔ shown' k) : Shows w s shown' := by
  intro running here k
  rw [← same]
  exact shows_ running here k

theorem Shows.mirror (shows_ : Shows w s shown) (mirror : Mirror w s s') : Shows w s' shown := by
  intro running here k
  rw [mirror.ahead running, mirror.watchers]
  exact shows_ (mt mirror.ended running) (mt mirror.gone here) k

theorem Mirror.trans (first : Mirror w s s') (second : Mirror w s' s'') : Mirror w s s'' where
  ahead := fun running k =>
    (second.ahead running k).trans (first.ahead (mt second.ended running) k)
  ended := fun ended => second.ended (first.ended ended)
  gone := fun gone => second.gone (first.gone gone)
  watchers := second.watchers.trans first.watchers

theorem mirror_of_conn (same : s'.conns w = s.conns w) (watchers : w ∈ s'.watchers ↔ w ∈ s.watchers) :
    Mirror w s s' where
  ahead := fun _ _ => by rw [same]
  ended := fun ended => same ▸ ended
  gone := fun gone => same ▸ gone
  watchers := watchers

theorem mirror_of_eq (conns : s'.conns = s.conns) (watchers : w ∈ s'.watchers ↔ w ∈ s.watchers) :
    Mirror w s s' :=
  mirror_of_conn (congrFun conns w) watchers

variable {f : Conn → Conn}

theorem mirror_elsewhere (s : Server φ) {c : SClient} (other : w ≠ c) :
    Mirror w s (s.updateConn c f) :=
  mirror_of_conn (conns_updateConn_ne s other) .rfl

theorem mirror_updateConn (s : Server φ) (c : SClient)
    (gone : (s.conns c).run = .gone → (f (s.conns c)).run = .gone)
    (ended : (s.conns c).loop.Ended → (f (s.conns c)).loop.Ended)
    (ahead : ¬ (f (s.conns c)).loop.Ended → ∀ k, (f (s.conns c)).ahead k = (s.conns c).ahead k) :
    Mirror w s (s.updateConn c f) := by
  by_cases same : w = c
  · subst same
    refine ⟨?_, ?_, ?_, .rfl⟩
    all_goals rw [conns_updateConn]
    exacts [ahead, ended, gone]
  · exact mirror_elsewhere s same

theorem mirror_alike (s : Server φ) (c : SClient)
    (gone : (s.conns c).run = .gone → (f (s.conns c)).run = .gone)
    (ended : (s.conns c).loop.Ended → (f (s.conns c)).loop.Ended)
    (alike : (s.conns c).Alike (f (s.conns c))) : Mirror w s (s.updateConn c f) :=
  mirror_updateConn s c gone ended fun _ _ => alike.ahead

theorem mirror_plain (s : Server φ) (c : SClient) (plain : Plain (s.conns c) (f (s.conns c))) :
    Mirror w s (s.updateConn c f) := by
  refine mirror_alike s c ?_ ?_ ⟨?_, plain.peerStateChange, plain.unread, plain.client⟩
  · rw [plain.run]
    exact id
  · rw [plain.loop]
    exact id
  · rw [plain.loop]

theorem mirror_record (s : Server φ) (e : Event φ) : Mirror w s (s.record e) := mirror_of_eq rfl .rfl

theorem Shows.broadcast (pcs : PeerConnState) (shows_ : Shows w s shown) :
    Shows w (s.broadcastPeerStateChangeLocked pcs)
      (fun k => if pcs.peer = k then pcs.present = true else shown k) := by
  intro running here k
  have phase : ((s.broadcastPeerStateChangeLocked pcs).conns w).loop = (s.conns w).loop ∧
      ((s.broadcastPeerStateChangeLocked pcs).conns w).run = (s.conns w).run := by
    dsimp only [broadcastPeerStateChangeLocked]
    split <;> exact ⟨rfl, rfl⟩
  have queued : ((s.broadcastPeerStateChangeLocked pcs).conns w).ahead k = if w ∈ s.watchers then
      settle (Frame.word k) ((s.conns w).ahead k) [pcs.frame] else (s.conns w).ahead k := by
    dsimp only [broadcastPeerStateChangeLocked]
    split
    · exact Conn.ahead_queue (s.conns w) [pcs] k rfl rfl rfl rfl
    · rfl
  rw [phase.1] at running
  rw [phase.2] at here
  have before := shows_ running here k
  have watchers : (s.broadcastPeerStateChangeLocked pcs).watchers = s.watchers := rfl
  rw [queued, watchers]
  by_cases watching : w ∈ s.watchers
  · rw [if_pos watching]
    dsimp only [settle, List.foldl]
    rw [word_frame]
    split
    · simp [watching]
    · exact before
  · rw [if_neg watching, before]
    simp [watching]

theorem mirror_notify (s : Server φ) (key : NodePublic) (watchers : List (Nat × SClient)) :
    Mirror w s (s.notify key watchers) := by
  induction watchers generalizing s with
  | nil => exact mirror_of_eq rfl .rfl
  | cons watcher _ ih =>
    refine Mirror.trans ?_ (ih _)
    exact (mirror_alike s watcher.2 id id ⟨rfl, rfl, rfl, rfl⟩).trans (mirror_record _ _)

theorem mirror_note (s : Server φ) (key : NodePublic) :
    Mirror w s (s.notePeerGoneFromRegionLocked key) := by
  unfold notePeerGoneFromRegionLocked
  split
  · exact mirror_of_eq rfl .rfl
  have called := (mirror_record s (.gone key)).trans
    (mirror_notify (w := w) _ key ((s.peerGoneWatchers.lookup key).getD []))
  exact called.trans (mirror_of_eq rfl .rfl)

theorem mirror_noteSendFromSrc (s : Server φ) (c : SClient) (src : NodePublic) :
    Mirror w s ((s.noteSendFromSrc c src).record (.noted c src)) := by
  refine Mirror.trans ?_ (mirror_record _ _)
  unfold noteSendFromSrc
  split
  · exact mirror_of_eq rfl .rfl
  · have watched : Mirror w s (s.addPeerGoneFromRegionWatcher src c) := mirror_of_eq rfl .rfl
    exact watched.trans (mirror_alike _ c id id ⟨rfl, rfl, rfl, rfl⟩)

theorem mirror_sendPacket (s : Server φ) (c : SClient) (p : Pkt) (select : (s.conns c).loop = .select) :
    Mirror w s (s.sendPacket c p) := by
  unfold sendPacket
  have noted : Mirror w s (if p.src = 0 then s else (s.noteSendFromSrc c p.src).record (.noted c p.src)) ∧
      ((if p.src = 0 then s else (s.noteSendFromSrc c p.src).record (.noted c p.src)).conns c).loop = .select := by
    split
    · exact ⟨mirror_of_eq rfl .rfl, select⟩
    · exact ⟨mirror_noteSendFromSrc s c p.src, (loop_noteSendFromSrc s c p.src).trans select⟩
  refine noted.1.trans (mirror_alike _ c id ?_ ⟨?_, rfl, rfl, rfl⟩)
  · rw [noted.2]
    exact False.elim
  · rw [noted.2]
    rfl

theorem mirror_write (s : Server φ) (c : SClient) {frame : Frame} {next : LoopPC}
    (running : ¬ (s.conns c).loop.Ended) (batch : next.batch = (s.conns c).loop.batch)
    (silent : ∀ k, frame.word k = none) : Mirror w s (s.write c frame next) := by
  refine Mirror.trans ?_ (mirror_record _ _)
  refine mirror_updateConn s c id (fun ended => absurd ended running) fun _ k => ?_
  refine Conn.ahead_write frame k ?_ rfl rfl (.inl (silent k))
  dsimp only [Conn.unsent]
  rw [batch]

end Mirror

def Server.tellsTrue (w : SClient) (s : Server φ) : Op φ → Bool
  | .select c (.peerGone j) =>
    match (s.conns c).requests[j]? with
    | some m => c ≠ w || m.peer ∉ s.reg.clients
    | none => true
  | _ => true

section Minor
variable {op : Op φ}

def Registry.present (r : Registry) : List PeerConnState :=
  r.clients.entries.filterMap fun e => e.2.activeClient.map fun ac =>
    ⟨e.1, true, ac.remoteIPPort, ac.presentFlags⟩

theorem of_mem_present {r : Registry} {pcs : PeerConnState} (mem : pcs ∈ r.present) :
    pcs.peer ∈ r.clients ∧ pcs.present = true := by
  obtain ⟨e, inside, change⟩ := mem_filterMap.1 mem
  obtain ⟨ac, -, rfl⟩ := Option.map_eq_some_iff.1 change
  exact ⟨mem_keys_of_mem inside, rfl⟩

theorem exists_mem_present (sound : s.Sound) (registered : k ∈ s.reg.clients) :
    ∃ pcs ∈ s.reg.present, pcs.peer = k := by
  obtain ⟨cs, found⟩ := Option.isSome_iff_exists.1 (AList.lookup_isSome.2 registered)
  have stands := Derp.Sound.stands sound k
  rw [found] at stands
  obtain ⟨ac, active, -⟩ := stands.active_eq
  refine ⟨⟨k, true, ac.remoteIPPort, ac.presentFlags⟩, mem_filterMap.2 ⟨⟨k, cs⟩, ?_, ?_⟩, rfl⟩
  · exact AList.mem_lookup_iff.1 found
  · rw [active]
    rfl

theorem settle_present (sound : s.Sound) (v : Bool) (k : NodePublic) :
    settle (Frame.word k) v (s.reg.present.map PeerConnState.frame) = true ↔ s.IsLocal k ∨ v = true := by
  have word : ∀ frame ∈ s.reg.present.map PeerConnState.frame,
      ∃ pcs ∈ s.reg.present, frame.word k = if pcs.peer = k then some true else none := by
    intro frame mem
    obtain ⟨pcs, inside, rfl⟩ := List.mem_map.1 mem
    refine ⟨pcs, inside, (word_frame pcs k).trans ?_⟩
    rw [(of_mem_present inside).2]
  by_cases registered : k ∈ s.reg.clients
  · obtain ⟨pcs, inside, at_⟩ := exists_mem_present sound registered
    have agree : ∀ frame ∈ s.reg.present.map PeerConnState.frame,
        frame.word k = none ∨ frame.word k = some true := by
      intro frame mem
      obtain ⟨pcs, -, eq⟩ := word frame mem
      rw [eq]
      split
      · exact .inr rfl
      · exact .inl rfl
    have said : pcs.frame.word k = some true := by
      rw [word_frame, if_pos at_, (of_mem_present inside).2]
    rw [settle_agree agree ⟨pcs.frame, List.mem_map_of_mem inside, said⟩]
    exact iff_of_true rfl (.inl ((sound.mem_clients k).1 registered))
  · have silent : ∀ frame ∈ s.reg.present.map PeerConnState.frame, frame.word k = none := by
      intro frame mem
      obtain ⟨pcs, inside, eq⟩ := word frame mem
      rw [eq, if_neg]
      rintro rfl
      exact registered (of_mem_present inside).1
    have away : ¬ s.IsLocal k := mt (sound.mem_clients k).2 registered
    rw [settle_silent silent]
    simp [away]

theorem Shows.addWatcher (shows_ : Shows w s s.IsLocal) (sound : s.Sound) (c : SClient) :
    Shows w (s.addWatcher c) s.IsLocal := by
  unfold Server.addWatcher
  split
  · exact shows_
  by_cases same : w = c
  · subst same
    intro running here k
    dsimp only at running here ⊢
    rw [conns_updateConn] at running here ⊢
    have queued : Conn.ahead { s.conns w with
        peerStateChange := (s.conns w).peerStateChange ++ s.reg.present
        meshRequests := (s.conns w).meshRequests + 1 } k =
        settle (Frame.word k) ((s.conns w).ahead k) (s.reg.present.map PeerConnState.frame) :=
      Conn.ahead_queue (s.conns w) s.reg.present k rfl rfl rfl rfl
    refine Iff.trans (Eq.congr_left queued) ?_
    rw [settle_present sound, shows_ running here k]
    simp only [mem_insert_self, true_and]
    exact ⟨fun shown => shown.elim id And.right, .inl⟩
  · have moved : Mirror w s (s.updateConn c fun conn => { conn with
        peerStateChange := conn.peerStateChange ++ s.reg.present
        meshRequests := conn.meshRequests + 1 }) := mirror_elsewhere s same
    refine shows_.mirror (moved.trans ⟨fun _ _ => rfl, id, id, ?_⟩)
    rw [mem_insert_iff]
    exact ⟨fun mem => mem.resolve_left same, .inr⟩

theorem Shows.peerGone (shows_ : Shows w s s.IsLocal) {j : Nat} {m : PeerGoneMsg}
    (select : (s.conns c).loop = .select) (away : c = w → ¬ s.IsLocal m.peer) :
    Shows w ((s.updateConn c fun conn => { conn with requests := conn.requests.eraseIdx j }).write c
      (.peerGone m) .select) s.IsLocal := by
  by_cases same : w = c
  · subst same
    refine Shows.mirror ?_ (mirror_record _ _)
    intro running here k
    rw [conns_updateConn, conns_updateConn] at running here ⊢
    have before := shows_ (not_ended select id) here k
    refine Iff.trans (Eq.congr_left ?_) before
    refine Conn.ahead_write (.peerGone m) k ?_ rfl rfl ?_
    · dsimp only [Conn.unsent]
      rw [select]
    · dsimp only [Frame.word]
      split
      next at_ =>
        right
        rw [at_] at away
        rw [Bool.eq_false_iff.2 fun ahead => away rfl (before.1 ahead).2]
      · exact .inl rfl
  · exact shows_.mirror ((mirror_elsewhere s same).trans
      ((mirror_elsewhere _ same).trans (mirror_record _ _)))

theorem Shows.minor (shows_ : Shows w s s.IsLocal) (sound : s.Sound) (tells : s.tellsTrue w op = true)
    (minor : Minor s op s') : Shows w s' s'.IsLocal := by
  have still := still_of_minor minor
  have same : ∀ k, s.IsLocal k ↔ s'.IsLocal k := by
    intro k
    unfold Server.IsLocal
    rw [still.registered]
  have keep : Mirror w s s' → Shows w s' s'.IsLocal := fun mirror => (shows_.mirror mirror).congr same
  cases minor with
  | none => exact shows_
  | plain plain => exact keep (mirror_plain s _ plain)
  | forwarded => exact keep (mirror_record s _)
  | start _ at_ | update at_ | updated at_ =>
    refine keep (mirror_alike s _ id ?_ ⟨?_, rfl, rfl, rfl⟩)
    · rw [at_]
      exact id
    · rw [at_]
      rfl
  | watch => exact (shows_.addWatcher sound _).congr same
  | @peerGone _ _ m select found =>
    refine (shows_.peerGone select fun at_ => ?_).congr same
    dsimp only [tellsTrue] at tells
    rw [found] at tells
    refine mt (sound.mem_clients m.peer).2 ?_
    simpa [at_] using tells
  | @send _ c p _ select plain =>
    refine keep ((mirror_plain s c plain).trans (mirror_sendPacket _ c p ?_))
    rw [conns_updateConn, plain.loop, select]
  | @pong _ c _ select =>
    refine keep ((mirror_alike s c id id ⟨rfl, rfl, rfl, rfl⟩).trans (mirror_write _ c ?_ ?_ fun _ => rfl))
    · rw [conns_updateConn]
      exact not_ended select id
    · rw [conns_updateConn, select]
  | keepAlive select =>
    refine keep (mirror_write s _ (not_ended select id) ?_ fun _ => rfl)
    rw [select]
  | written writing =>
    refine keep (mirror_write s _ (not_ended writing id) ?_ fun _ => rfl)
    rw [writing]
    rfl
  | batch updating =>
    refine keep (mirror_updateConn s _ id ?_ fun _ k => ?_)
    · rw [updating]
      exact id
    · dsimp only [Conn.ahead, Conn.unsent]
      rw [updating, append_nil]
      rfl
  | @change c _ _ updating =>
    refine keep (Mirror.trans (mirror_updateConn s c id ?_ fun _ k => ?_) (mirror_record _ _))
    · rw [updating]
      exact id
    · dsimp only [Conn.ahead, Conn.unsent]
      rw [updating, append_assoc]
      rfl
  | cleaned | stop =>
    exact keep (mirror_updateConn s _ id (fun _ => trivial) fun running => absurd trivial running)
  | clean =>
    refine keep (Mirror.trans (mirror_of_eq (conns_removeWatcher ..) ?_)
      (mirror_updateConn _ _ id (fun _ => trivial) fun running => absurd trivial running))
    unfold removePeerGoneFromRegionWatcher
    split <;> exact .rfl
  | @recv c _ _ unread =>
    refine keep (mirror_updateConn s c id id fun _ k => ?_)
    dsimp only [Conn.ahead, Conn.unsent]
    rw [unread, inView_recv]
    rfl

end Minor

theorem isLocal_iff_of_erase {registered : List SClient} (was : s.registered = registered)
    (now : s'.registered = registered.erase c) (k : NodePublic) : s'.IsLocal k ↔
      if c.key = k then (group SClient.key (registered.erase c) c.key).length ≠ 0 else s.IsLocal k := by
  rw [isLocal_iff_group, isLocal_iff_group, was, now]
  split
  next same => rw [same]
  next other => rw [group_erase_ne other]

theorem Shows.left (shows_ : Shows w s s.IsLocal) (c : SClient) (mem : c ∈ s.registered) :
    Shows w (s.left c) (fun k => if c.key = k then
      (group SClient.key (s.registered.erase c) c.key).length ≠ 0 else s.IsLocal k) := by
  have moved : Shows w { s with reg := (s.reg.unregisterClient c).1 } s.IsLocal :=
    shows_.mirror (mirror_of_eq rfl .rfl)
  unfold Server.left
  split
  next last =>
    have told : ∀ {t : Server φ}, Shows w t s.IsLocal →
        Shows w (t.broadcastPeerStateChangeLocked ⟨c.key, false, none, 0⟩) _ := Shows.broadcast _
    refine (told ?_).congr fun k => ?_
    · split
      · have erased : Shows w { s with
            reg := (s.reg.unregisterClient c).1, clientsMesh := s.clientsMesh.erase c.key } s.IsLocal :=
          shows_.mirror (mirror_of_eq rfl .rfl)
        exact erased.mirror (mirror_note _ c.key)
      · exact moved
    · split
      · simp [last]
      · exact .rfl
  next more =>
    refine moved.congr fun k => ?_
    split
    next same => exact iff_of_true ⟨c, mem, same⟩ more
    · exact .rfl

section Runs
variable [DecidableEq φ] {ops : List (Op φ)} {op : Op φ}

theorem Shows.step (shows_ : Shows w s s.IsLocal) (sound : s.Sound) (tells : s.tellsTrue w op = true)
    (taken : s.step op = some s') : Shows w s' s'.IsLocal := by
  cases change_of_step taken with
  | @register c new =>
    have keeps := keeps_registerClient s c
    have joined : Shows w (s.registerClient c) (fun k => if c.key = k then True else s.IsLocal k) := by
      have told : ∀ {t : Server φ}, Shows w t s.IsLocal →
          Shows w (t.broadcastPeerStateChangeLocked ⟨c.key, true, c.remoteIPPort, c.presentFlags⟩) _ :=
        Shows.broadcast _
      refine (told ?_).congr fun k => ?_
      · split
        · exact shows_.mirror (mirror_of_eq rfl .rfl)
        · exact shows_.mirror (mirror_of_eq rfl .rfl)
      · split <;> simp
    have listed : Shows w { s.registerClient c with registered := s.registered ++ [c] } _ :=
      joined.mirror (mirror_of_eq rfl .rfl)
    have stays {p : Prop} (gone : ((s.registerClient c).conns c).run = .gone) : p := by
      rw [keeps.run c, new] at gone
      cases gone
    refine Shows.congr (listed.mirror ((mirror_alike _ c ?_ id ?_).trans (mirror_record _ _))) fun k => ?_
    · exact stays
    · exact ⟨rfl, rfl, rfl, rfl⟩
    dsimp only [Server.IsLocal, record, updateConn]
    split
    next same => simp [same]
    next other => simp [other]
  | @unregister c running =>
    have mem := (Derp.Sound.running sound c).2 (.inl running)
    by_cases same : w = c
    · subst same
      intro _ here
      dsimp only [record] at here
      rw [conns_updateConn] at here
      exact absurd rfl here
    have left : Shows w (s.unregisterClient c) (fun k => if c.key = k then
        (group SClient.key (s.registered.erase c) c.key).length ≠ 0 else s.IsLocal k) := by
      rw [unregisterClient_eq sound mem]
      split
      · refine (shows_.left c mem).mirror (mirror_of_eq rfl ?_)
        exact mem_erase_of_ne same
      · exact shows_.left c mem
    have listed : Shows w { s.unregisterClient c with registered := s.registered.erase c } _ :=
      left.mirror (mirror_of_eq rfl .rfl)
    refine Shows.congr (listed.mirror ((mirror_elsewhere _ same).trans (mirror_record _ _))) fun k => ?_
    exact (isLocal_iff_of_erase rfl rfl k).symm
  | @noting c running =>
    refine shows_.mirror (mirror_alike s c (fun gone => ?_) id ⟨rfl, rfl, rfl, rfl⟩)
    rw [running] at gone
    cases gone
  | settled => exact shows_
  | @note c noting =>
    have noted : Shows w { s with reg := s.reg.noteClientActivity c } s.IsLocal :=
      shows_.mirror (mirror_of_eq rfl .rfl)
    have stays {p : Prop} (gone : (s.conns c).run = .gone) : p := by
      rw [noting] at gone
      cases gone
    split
    · refine noted.mirror ((mirror_alike _ c ?_ id ?_).trans (mirror_record _ _))
      · exact stays
      · exact ⟨rfl, rfl, rfl, rfl⟩
    · exact noted.mirror (mirror_alike _ c stays id ⟨rfl, rfl, rfl, rfl⟩)
  | add => exact shows_.mirror (mirror_of_eq rfl .rfl)
  | @remove dst fwd order =>
    have keeps := keeps_removePacketForwarder s dst fwd order
    have same : ∀ k, s.IsLocal k ↔ (s.removePacketForwarder dst fwd order).IsLocal k := by
      intro k
      unfold Server.IsLocal
      rw [keeps.registered]
    refine Shows.congr (shows_.mirror ?_) same
    unfold removePacketForwarder
    dsimp only
    have removed : Mirror w s { s with clientsMesh := (s.clientsMesh.removePacketForwarder dst fwd
        (decide (dst ∈ s.reg.clients)) order).1 } := mirror_of_eq rfl .rfl
    split
    · exact removed
    · exact removed.trans (mirror_note _ dst)
    · exact removed.trans (mirror_of_eq rfl .rfl)
  | minor _ minor => exact shows_.minor sound tells minor

theorem shows_of_run {key : NodePublic} {depth : Nat} (run : Run step (new key depth) ops s)
    (tells : Throughout step (fun t op => t.tellsTrue w op = true) (new key depth) ops) :
    Shows w s s.IsLocal := by
  induction run with
  | refl => exact fun _ _ k => iff_of_false nofun fun both => absurd both.1 not_mem_nil
  | snoc before taken ih =>
    obtain ⟨earlier, now⟩ := (throughout_snoc before).1 tells
    exact (ih earlier).step (sound_of_run before) now taken

/-- With nothing on its way, the keys that a mesh peer has added without a later removal are those of
the clients that are registered. -/
theorem inView_iff_of_run {key : NodePublic} {depth : Nat}
    (run : Run Server.step (Server.new key depth) ops s)
    (tells : Throughout Server.step (fun t op => t.tellsTrue w op = true) (Server.new key depth) ops)
    (watching : w ∈ s.watchers) (connected : (s.conns w).run ≠ .gone) (running : ¬ (s.conns w).loop.Ended)
    (quiet : (s.conns w).Quiet) (k : NodePublic) :
    inView k (s.conns w).client.calls = true ↔ ∃ c ∈ s.registered, c.key = k := by
  have shows_ := shows_of_run run tells running connected k
  rw [quiet.ahead] at shows_
  exact shows_.trans ⟨And.right, fun here => ⟨watching, here⟩⟩

end Runs

namespace Sample

def meshPeer : SClient := ⟨9, 4, true, false, false, none⟩

def subscribe : List (Op Nat) := [.registerClient meshPeer, .start meshPeer, .watchConns meshPeer]

def clientComes : List (Op Nat) :=
  [.registerClient (client 1 keyA), .requestMeshUpdate meshPeer, .select meshPeer .meshUpdate,
    .advance meshPeer, .advance meshPeer, .advance meshPeer, .advance meshPeer]

/-- The mesh peer forwards a disco packet to the key of the client before it is there. -/
def lateMessage : List (Op Nat) :=
  subscribe ++ [.forwardPacket meshPeer 5 keyA (Relay.magic ++ List.replicate 56 0) true] ++ clientComes ++
    [.select meshPeer (.peerGone 0), .recv meshPeer, .recv meshPeer, .recv meshPeer]

def noMessage : List (Op Nat) := subscribe ++ clientComes ++ [.recv meshPeer, .recv meshPeer]

def settled (s : Server Nat) : Bool :=
  meshPeer ∈ s.watchers ∧ (s.conns meshPeer).run ≠ .gone ∧ ¬ (s.conns meshPeer).loop.Ended ∧
    (s.conns meshPeer).Quiet

theorem view_after_subscription : ∃ s, Run Server.step server noMessage s ∧
    ∀ k, inView k (s.conns meshPeer).client.calls = true ↔ ∃ c ∈ s.registered, c.key = k := by
  obtain ⟨s, run, tells, quiet⟩ : ∃ s, Run step server noMessage s ∧
      Throughout step (fun t op => tellsTrue meshPeer t op = true) server noMessage ∧
      settled s = true := throughout_of_found (fun _ _ tells => tells) (by decide +kernel)
  obtain ⟨watching, connected, running, quiet⟩ := of_decide_eq_true quiet
  exact ⟨s, run, inView_iff_of_run run tells watching connected running quiet⟩

/-- The client is registered, and the mesh peer has removed it. -/
theorem view_without_client : ∃ s, Run Server.step server lateMessage s ∧ meshPeer ∈ s.watchers ∧
    (s.conns meshPeer).run ≠ .gone ∧ ¬ (s.conns meshPeer).loop.Ended ∧ (s.conns meshPeer).Quiet ∧
    inView keyA (s.conns meshPeer).client.calls = false ∧ ∃ c ∈ s.registered, c.key = keyA := by
  exact run_of_found (by decide +kernel)

end Sample

end ScaleTail.Derp
