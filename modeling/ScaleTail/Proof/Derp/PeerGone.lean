import ScaleTail.Proof.Derp.Watchers

/-! # Peer-gone messages -/

namespace ScaleTail.Derp
open Lib Go Net List Option Server

variable {φ : Type} {s s' s'' : Server φ} {c : SClient}

def writtenTo (c : SClient) (events : List (Event φ)) : List Frame :=
  events.filterMap fun
    | .wrote c' frame => if c' = c then some frame else none
    | _ => none

theorem writtenTo_append (c : SClient) (events more : List (Event φ)) :
    writtenTo c (events ++ more) = writtenTo c events ++ writtenTo c more :=
  filterMap_append

def Server.pending (s : Server φ) (c : SClient) (k : NodePublic) : Nat :=
  (s.conns c).requests.count ⟨k, .disconnected⟩

def Server.written (s : Server φ) (c : SClient) (k : NodePublic) : Nat :=
  (writtenTo c s.events).count (.peerGone ⟨k, .disconnected⟩)

def Server.calls (s : Server φ) (k : NodePublic) (c : SClient) : Nat :=
  (s.watchersOf k).countP fun w => w.2 = c

structure Calm (c : SClient) (s s' : Server φ) : Prop where
  requests : (s'.conns c).requests = (s.conns c).requests
  written : writtenTo c s'.events = writtenTo c s.events
  gone : goneOf s'.events = goneOf s.events
  peerGoneWatchers : s'.peerGoneWatchers = s.peerGoneWatchers

inductive Asks (c : SClient) (s s' : Server φ) : Prop
  | more : goneOf s'.events = goneOf s.events → (∀ k, s.pending c k + s.written c k ≤
      s'.pending c k + s'.written c k) → Asks c s s'
  | called (key : NodePublic) : goneOf s'.events = goneOf s.events ++ [key] →
      (s'.conns c).requests = (s.conns c).requests ++ List.replicate (s.calls key c) ⟨key, .disconnected⟩ →
      writtenTo c s'.events = writtenTo c s.events → Asks c s s'

theorem calm_of_eq (conns : s'.conns = s.conns) (events : s'.events = s.events)
    (watchers : s'.peerGoneWatchers = s.peerGoneWatchers) : Calm c s s' :=
  ⟨by rw [conns], by rw [events], by rw [events], watchers⟩

theorem Calm.asks (calm : Calm c s s') : Asks c s s' := by
  refine .more calm.gone fun k => ?_
  rw [Server.pending, Server.pending, Server.written, Server.written, calm.requests, calm.written]

theorem Asks.after (asks : Asks c s s') (calm : Calm c s' s'') : Asks c s s'' := by
  cases asks with
  | more gone le =>
    refine .more (calm.gone.trans gone) fun k => ?_
    have le := le k
    rwa [Server.pending, Server.pending, Server.written, Server.written, ← calm.requests,
      ← calm.written] at le
  | called key gone requests written =>
    exact .called key (calm.gone.trans gone) (calm.requests.trans requests) (calm.written.trans written)

theorem Asks.before (calm : Calm c s s') (asks : Asks c s' s'') : Asks c s s'' := by
  cases asks with
  | more gone le =>
    refine .more (gone.trans calm.gone) fun k => ?_
    have le := le k
    rwa [Server.pending, Server.written, calm.requests, calm.written] at le
  | called key gone requests written =>
    refine .called key (gone.trans (by rw [calm.gone])) ?_ (written.trans calm.written)
    rw [requests, calm.requests, calls, watchersOf, calm.peerGoneWatchers]
    rfl

theorem notify_requests (s : Server φ) (key : NodePublic) (watchers : List (Nat × SClient)) (c : SClient) :
    ((s.notify key watchers).conns c).requests = (s.conns c).requests ++
      List.replicate (watchers.countP fun w => w.2 = c) ⟨key, .disconnected⟩ ∧
    writtenTo c (s.notify key watchers).events = writtenTo c s.events ∧
    goneOf (s.notify key watchers).events = goneOf s.events := by
  unfold notify
  induction watchers generalizing s with
  | nil => simp
  | cons w _ ih =>
    obtain ⟨requests, written, gone⟩ := ih ((s.updateConn w.2 fun conn => { conn with
      requests := conn.requests ++ [⟨key, .disconnected⟩] }).record (.notified w.2 key))
    refine ⟨requests.trans ?_, written.trans ?_, gone.trans ?_⟩
    · dsimp only [record]
      by_cases same : w.2 = c
      · subst same
        rw [conns_updateConn, append_assoc, countP_cons_of_pos (by simp), replicate_succ]
        rfl
      · rw [conns_updateConn_ne _ (Ne.symm same), countP_cons_of_neg (by simpa using same)]
    · exact (writtenTo_append ..).trans (append_nil _)
    · exact (goneOf_append ..).trans (append_nil _)

theorem asks_note (s : Server φ) (c : SClient) (key : NodePublic) :
    Asks c s (s.notePeerGoneFromRegionLocked key) := by
  unfold notePeerGoneFromRegionLocked
  split
  · exact Calm.asks (calm_of_eq rfl rfl rfl)
  obtain ⟨requests, written, gone⟩ := notify_requests (s.record (.gone key)) key
    ((s.peerGoneWatchers.lookup key).getD []) c
  refine .called key (gone.trans (goneOf_append ..)) requests (written.trans ?_)
  exact (writtenTo_append ..).trans (append_nil _)

variable {f : Conn → Conn} {e : Event φ} {k : NodePublic}

theorem calm_updateConn (s : Server φ) (c₀ : SClient)
    (requests : c₀ = c → (f (s.conns c₀)).requests = (s.conns c₀).requests) : Calm c s (s.updateConn c₀ f) := by
  refine ⟨?_, rfl, rfl, rfl⟩
  by_cases same : c₀ = c
  · subst same
    rw [conns_updateConn]
    exact requests rfl
  · rw [conns_updateConn_ne _ (Ne.symm same)]

theorem Calm.trans (first : Calm c s s') (second : Calm c s' s'') : Calm c s s'' :=
  ⟨second.requests.trans first.requests, second.written.trans first.written,
    second.gone.trans first.gone, second.peerGoneWatchers.trans first.peerGoneWatchers⟩

theorem calm_record (s : Server φ) (written : writtenTo c [e] = []) (gone : goneOf [e] = []) :
    Calm c s (s.record e) := by
  refine ⟨rfl, ?_, ?_, rfl⟩
  · exact (writtenTo_append ..).trans (by rw [written, append_nil])
  · exact (goneOf_append ..).trans (by rw [gone, append_nil])

theorem calm_broadcast (s : Server φ) (pcs : PeerConnState) :
    Calm c s (s.broadcastPeerStateChangeLocked pcs) := by
  refine ⟨?_, rfl, rfl, rfl⟩
  dsimp only [broadcastPeerStateChangeLocked]
  split <;> rfl

theorem asks_lastGone (s : Server φ) (c : SClient) (key : NodePublic) : Asks c s (s.lastGone key) := by
  refine Asks.after ?_ (calm_broadcast _ _)
  split
  · have erased : Calm c s { s with clientsMesh := s.clientsMesh.erase key } := calm_of_eq rfl rfl rfl
    exact .before erased (asks_note _ c key)
  · exact (calm_of_eq rfl rfl rfl).asks

theorem asks_unregisterClient (s : Server φ) (c c₀ : SClient) : Asks c s (s.unregisterClient c₀) := by
  have left : Calm c s { s with reg := (s.reg.unregisterClient c₀).1 } := calm_of_eq rfl rfl rfl
  unfold unregisterClient
  dsimp only
  split
  · exact left.asks
  · have gone := Asks.before left (asks_lastGone _ c c₀.key)
    split
    · exact gone.after (calm_of_eq rfl rfl rfl)
    · exact gone
  · split
    · exact left.asks.after (calm_of_eq rfl rfl rfl)
    · exact left.asks

theorem asks_peerGone (s : Server φ) (c c₀ : SClient) {j : Nat} {m : PeerGoneMsg}
    (found : (s.conns c₀).requests[j]? = some m) :
    Asks c s ((s.updateConn c₀ fun conn => { conn with requests := conn.requests.eraseIdx j }).write c₀
      (.peerGone m) .select) := by
  refine .more ((goneOf_append ..).trans (append_nil _)) fun k => ?_
  unfold write Server.pending Server.written
  dsimp only [record]
  rw [writtenTo_append]
  by_cases same : c₀ = c
  · subst same
    have perm : (s.conns c₀).requests.Perm (m :: (s.conns c₀).requests.eraseIdx j) := by
      obtain ⟨lt, at_⟩ := List.getElem?_eq_some_iff.1 found
      rw [← at_]
      exact (getElem_cons_eraseIdx_perm lt).symm
    have wrote : writtenTo c₀ [(.wrote c₀ (.peerGone m) : Event φ)] = [.peerGone m] := by
      simp [writtenTo]
    rw [conns_updateConn, conns_updateConn, wrote, count_append, perm.count_eq, count_cons,
      count_singleton]
    simp only [beq_iff_eq, Frame.peerGone.injEq]
    dsimp only [updateConn]
    omega
  · have wrote : writtenTo c [(.wrote c₀ (.peerGone m) : Event φ)] = [] := by
      simp [writtenTo, same]
    rw [conns_updateConn_ne _ (Ne.symm same), conns_updateConn_ne _ (Ne.symm same), wrote, append_nil]
    exact Nat.le_refl _

theorem asks_of_still (still : Still s s') (requests : (s.conns c).requests <+: (s'.conns c).requests) :
    Asks c s s' := by
  refine .more still.aside.gone fun k => Nat.add_le_add (requests.sublist.count_le _) ?_
  obtain ⟨more, events, -⟩ := still.events
  rw [Server.written, Server.written, events, writtenTo_append, count_append]
  exact Nat.le_add_right ..

section
variable (s : Server φ) (c c₀ : SClient)

theorem requests_updateConn (requests : (s.conns c₀).requests <+: (f (s.conns c₀)).requests) :
    (s.conns c).requests <+: ((s.updateConn c₀ f).conns c).requests := by
  by_cases same : c = c₀
  · subst same
    rw [conns_updateConn]
    exact requests
  · rw [conns_updateConn_ne _ same]

theorem requests_write (frame : Frame) (next : LoopPC) :
    (s.conns c).requests <+: ((s.write c₀ frame next).conns c).requests := by
  unfold write
  dsimp only [record]
  exact requests_updateConn s c c₀ (prefix_refl (s.conns c₀).requests)

theorem requests_sendPacket (p : Pkt) :
    (s.conns c).requests <+: ((s.sendPacket c₀ p).conns c).requests := by
  unfold sendPacket
  refine List.IsPrefix.trans ?_ (requests_updateConn _ c c₀ (prefix_refl _))
  split
  · exact prefix_refl _
  dsimp only [record]
  unfold noteSendFromSrc
  split
  · exact prefix_refl _
  · exact requests_updateConn (s.addPeerGoneFromRegionWatcher p.src c₀) c c₀ (prefix_refl _)

theorem requests_addWatcher : (s.conns c).requests <+: ((s.addWatcher c₀).conns c).requests := by
  unfold addWatcher
  split
  · exact prefix_refl _
  · dsimp only
    exact requests_updateConn s c c₀ (prefix_refl (s.conns c₀).requests)

end

theorem asks_minor {op : Op φ} (minor : Minor s op s') (c : SClient) : Asks c s s' := by
  have still := still_of_minor minor
  cases minor with
  | peerGone _ found => exact asks_peerGone s c _ found
  | none | forwarded => exact asks_of_still still (prefix_refl _)
  | plain plain => exact asks_of_still still (requests_updateConn s c _ plain.requests)
  | watch => exact asks_of_still still (requests_addWatcher s c _)
  | send _ plain =>
    refine asks_of_still still (List.IsPrefix.trans ?_ (requests_sendPacket _ c _ _))
    exact requests_updateConn s c _ plain.requests
  | pong =>
    refine asks_of_still still (List.IsPrefix.trans ?_ (requests_write _ c _ _ _))
    exact requests_updateConn s c _ (prefix_refl _)
  | keepAlive | written | change => exact asks_of_still still (requests_write s c _ _ _)
  | start | update | updated | batch | cleaned | stop | recv =>
    exact asks_of_still still (requests_updateConn s c _ (prefix_refl _))
  | clean =>
    refine asks_of_still still (List.IsPrefix.trans ?_ (requests_updateConn _ c _ (prefix_refl _)))
    rw [conns_removeWatcher]

theorem Watches.noted_of_packet (watches : Watches s) {before after : List (Event φ)}
    (split : s.events = before ++ e :: after) (packet : e.IsPacket k c) :
    .noted c k ∈ before ++ [e] := by
  cases e with
  | noted =>
    obtain ⟨rfl, rfl⟩ := packet
    exact mem_append_right _ (mem_singleton_self _)
  | wrote _ frame =>
    cases frame with
    | recvPacket _ bs =>
      obtain ⟨rfl, rfl⟩ := packet
      exact mem_append_left _ (watches.wrote before _ after split _ _ bs rfl)
    | _ => cases packet
  | _ => cases packet

theorem Watches.goneSince_iff (watches : Watches s) :
    GoneSince k c s.events ↔ Told k c s.events := by
  constructor
  · rintro ⟨before, e, after, split, packet, gone⟩
    have noted := watches.noted_of_packet split packet
    rw [Told, split, append_cons, pair_sublist_append]
    exact .inr (.inl ⟨noted, gone⟩)
  · intro told
    obtain ⟨before, rest, split, noted, later⟩ := cons_sublist_iff.1 told
    obtain ⟨first, more, rfl⟩ := append_of_mem noted
    refine ⟨first, .noted c k, more ++ rest, ?_, ⟨rfl, rfl⟩, ?_⟩
    · rw [split, append_assoc, cons_append]
    · exact mem_append_right _ (singleton_sublist.1 later)

theorem Watches.calls_eq (watches : Watches s) (running : ¬ (s.conns c).loop.Ended)
    (noted : .noted c k ∈ s.events) : Told k c s.events ∧ s.calls k c = 0 ∨ ¬ Told k c s.events ∧ s.calls k c = 1 := by
  obtain ⟨h, found⟩ := isSome_iff_exists.1 (AList.lookup_isSome.2 ((watches.noted c k).2 noted))
  by_cases told : Told k c s.events
  · refine .inl ⟨told, countP_eq_zero.2 fun w mem same => ?_⟩
    obtain ⟨h', c'⟩ := w
    cases of_decide_eq_true same
    exact (watches.watchers k h' c' mem).2 told
  · have mem := watches.watching c k h running found told
    have only : s.calls k c = (s.watchersOf k).count (h, c) := by
      refine countP_congr fun w mem => ?_
      obtain ⟨h', c'⟩ := w
      have memo := (watches.watchers k h' c' mem).1
      rw [decide_eq_true_iff, beq_iff_eq, Prod.mk.injEq]
      refine ⟨fun same => ⟨?_, same⟩, And.right⟩
      dsimp only at same
      rw [same, found] at memo
      exact (Option.some.inj memo).symm
    exact .inr ⟨told, only.trans (count_eq_one_of_mem (watches.nodup k) mem)⟩

theorem Watches.calls_unseen (watches : Watches s) (unseen : .noted c k ∉ s.events) :
    s.calls k c = 0 := by
  refine countP_eq_zero.2 fun w mem same => unseen ?_
  obtain ⟨h', c'⟩ := w
  cases of_decide_eq_true same
  have memo := (watches.watchers k h' c' mem).1
  exact (watches.noted c' k).1 (AList.lookup_isSome.1 (isSome_iff_exists.2 ⟨h', memo⟩))

section Runs
variable [DecidableEq φ] {ops : List (Op φ)} {op : Op φ}

theorem asks_of_step (taken : s.step op = some s') (stays : op ≠ .unregisterClient c) : Asks c s s' := by
  cases change_of_step taken with
  | @register c₀ =>
    have registered : Calm c s (s.registerClient c₀) := by
      refine Calm.trans ?_ (calm_broadcast _ _)
      split <;> exact calm_of_eq rfl rfl rfl
    have joined : Calm c s { s.registerClient c₀ with registered := s.registered ++ [c₀] } :=
      registered.trans (calm_of_eq rfl rfl rfl)
    exact (joined.trans ((calm_updateConn _ c₀ fun _ => rfl).trans (calm_record _ rfl rfl))).asks
  | @unregister c₀ =>
    have left : Asks c s { s.unregisterClient c₀ with registered := s.registered.erase c₀ } :=
      (asks_unregisterClient s c c₀).after (calm_of_eq rfl rfl rfl)
    refine left.after ((calm_updateConn _ c₀ fun same => ?_).trans (calm_record _ rfl rfl))
    exact absurd (congrArg Op.unregisterClient same) stays
  | noting => exact (calm_updateConn s _ fun _ => rfl).asks
  | settled => exact (calm_of_eq rfl rfl rfl).asks
  | @note c₀ =>
    have noted : Calm c s { s with reg := s.reg.noteClientActivity c₀ } := calm_of_eq rfl rfl rfl
    have running := noted.trans (calm_updateConn _ c₀ (f := fun conn => { conn with run := .running }) fun _ => rfl)
    split
    · exact (running.trans (calm_record _ rfl rfl)).asks
    · exact running.asks
  | add dst fwd =>
    have added : Calm c s (s.addPacketForwarder dst fwd) := calm_of_eq rfl rfl rfl
    exact added.asks
  | @remove dst fwd order =>
    unfold removePacketForwarder
    dsimp only
    have removed : Calm c s { s with clientsMesh := (s.clientsMesh.removePacketForwarder dst fwd
        (decide (dst ∈ s.reg.clients)) order).1 } := calm_of_eq rfl rfl rfl
    split
    · exact removed.asks
    · exact .before removed (asks_note _ c dst)
    · exact removed.asks.after (calm_of_eq rfl rfl rfl)
  | minor _ minor => exact asks_minor minor c

def Departs (ops : List (Op φ)) (op : Op φ) (s s' : Server φ) (k : NodePublic) : Prop :=
  InRegion ops s k ∧ ¬ InRegion (ops ++ [op]) s' k

theorem pending_of_departs {key : NodePublic} {depth : Nat}
    (run : Run step (new key depth) ops s) (taken : s.step op = some s')
    (stays : op ≠ .unregisterClient c) (departs : Departs ops op s s' k) :
    s'.pending c k = s.pending c k + s.calls k c := by
  have table := table_of_run run
  obtain ⟨table', moves⟩ := table.step (sound_of_run run) taken
  have count := moves.count k
  rw [if_pos ⟨(table.mem k).2 departs.1, fun mem => departs.2 ((table'.mem k).1 mem)⟩] at count
  cases asks_of_step taken stays with
  | more gone =>
    rw [gone] at count
    omega
  | called key gone requests =>
    rw [gone, count_append, count_singleton] at count
    have same : key = k := by
      by_contra other
      rw [if_neg (by simpa using other)] at count
      omega
    subst same
    rw [Server.pending, requests, count_append, count_replicate_self]
    rfl

structure Notifies (ops : List (Op φ)) (op : Op φ) (s s' : Server φ) (c : SClient) (k : NodePublic) : Prop where
  told : Departs ops op s s' k → PacketSince k c s.events →
    (s'.pending c k = s.pending c k + 1 ↔ ¬ GoneSince k c s.events)
  untold : Departs ops op s s' k → (∀ e ∈ s.events, ¬ e.IsPacket k c) → s'.pending c k = s.pending c k
  kept : s.pending c k + s.written c k ≤ s'.pending c k + s'.written c k

theorem notifies_of_run {key : NodePublic} {depth : Nat}
    (run : Run Server.step (Server.new key depth) ops s) (taken : s.step op = some s')
    (stays : op ≠ .unregisterClient c) (running : ¬ (s.conns c).loop.Ended) (k : NodePublic) :
    Notifies ops op s s' c k := by
  have watches := watches_of_run run
  constructor
  case told =>
    rintro departs ⟨before, e, after, split, packet, -⟩
    have noted : .noted c k ∈ s.events := by
      rw [split, append_cons]
      exact mem_append_left _ (watches.noted_of_packet split packet)
    rw [pending_of_departs run taken stays departs, watches.goneSince_iff]
    rcases watches.calls_eq running noted with ⟨told, calls⟩ | ⟨untold, calls⟩
    · exact iff_of_false (by omega) fun untold => untold told
    · rw [calls]
      exact iff_of_true rfl untold
  case untold =>
    intro departs none
    rw [pending_of_departs run taken stays departs, watches.calls_unseen fun noted => none _ noted ⟨rfl, rfl⟩]
    rfl
  case kept =>
    cases asks_of_step taken stays with
    | more _ le => exact le k
    | called key _ requests written =>
      rw [Server.pending, Server.pending, Server.written, Server.written, requests, written, count_append]
      omega

end Runs

namespace Sample

def keyB : NodePublic := 3

def visit (connNum : Nat) : List (Op Nat) :=
  [.registerClient (client connNum keyA), .sendPacket (client connNum keyA) keyB [1] true,
    .select (client 1 keyB) .sendQueue, .advance (client 1 keyB)]

def firstVisit : List (Op Nat) :=
  [.registerClient (client 1 keyB), .start (client 1 keyB)] ++ visit 2

def secondVisit : List (Op Nat) := firstVisit ++ [.unregisterClient (client 2 keyA)] ++ visit 3

def departure (ops : List (Op Nat)) (connNum : Nat) : Option (Server Nat × Server Nat) :=
  (ops.foldlM Server.step server).bind fun s =>
    (s.step (.unregisterClient (client connNum keyA))).map fun s' => (s, s')

theorem departure_run {ops : List (Op Nat)} {connNum : Nat} {s s' : Server Nat}
    (departs : departure ops connNum = some (s, s')) :
    Run step server ops s ∧ s.step (.unregisterClient (client connNum keyA)) = some s' := by
  obtain ⟨s, taken, last⟩ := bind_eq_some_iff.1 departs
  obtain ⟨s', step, same⟩ := map_eq_some_iff.1 last
  cases same
  exact ⟨run_of_foldlM taken, step⟩

theorem first_departure_notifies : ∃ s s', Run Server.step server firstVisit s ∧
    s.step (.unregisterClient (client 2 keyA)) = some s' ∧
    Notifies firstVisit (.unregisterClient (client 2 keyA)) s s' (client 1 keyB) keyA := by
  obtain ⟨⟨s, s'⟩, departs, running⟩ :
      ∃ p ∈ departure firstVisit 2, ¬ (p.1.conns (client 1 keyB)).loop.Ended := by decide +kernel
  obtain ⟨run, taken⟩ := departure_run departs
  have stays : (.unregisterClient (client 2 keyA) : Op Nat) ≠ .unregisterClient (client 1 keyB) :=
    fun same => absurd (Op.unregisterClient.inj same) (by decide)
  exact ⟨s, s', run, taken, notifies_of_run run taken stays running keyA⟩

/-- The second departure is not told. -/
theorem second_departure_untold : ∃ s s', Run Server.step server secondVisit s ∧
    s.step (.unregisterClient (client 3 keyA)) = some s' ∧
    Departs secondVisit (.unregisterClient (client 3 keyA)) s s' keyA ∧
    PacketSince keyA (client 1 keyB) s.events ∧
    s'.pending (client 1 keyB) keyA = s.pending (client 1 keyB) keyA := by
  obtain ⟨⟨s, s'⟩, departs, inside, outside, events, same⟩ : ∃ p ∈ departure secondVisit 3,
      InRegion secondVisit p.1 keyA ∧
      ¬ InRegion (secondVisit ++ [.unregisterClient (client 3 keyA)]) p.2 keyA ∧
      p.1.events.drop 7 = [.registered (client 3 keyA), .noted (client 1 keyB) keyA,
        .wrote (client 1 keyB) (.recvPacket (some keyA) [1])] ∧
      p.2.pending (client 1 keyB) keyA = p.1.pending (client 1 keyB) keyA := by decide +kernel
  obtain ⟨run, taken⟩ := departure_run departs
  refine ⟨s, s', run, taken, ⟨inside, outside⟩, ?_, same⟩
  refine ⟨s.events.take 7 ++ [.registered (client 3 keyA)], .noted (client 1 keyB) keyA,
    [.wrote (client 1 keyB) (.recvPacket (some keyA) [1])], ?_, ⟨rfl, rfl⟩, by decide⟩
  rw [append_assoc, singleton_append, ← events, take_append_drop]

end Sample

end ScaleTail.Derp
