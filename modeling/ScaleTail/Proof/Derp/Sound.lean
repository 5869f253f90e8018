import ScaleTail.Proof.Derp.Registry
import ScaleTail.Proof.Derp.Steps

/-! # The registry in every run -/

namespace ScaleTail.Derp
open Lib Go Net List Server Function

variable {φ : Type} {s s' s'' : Server φ} {c : SClient}

structure Keeps (s s' : Server φ) : Prop where
  reg : s'.reg = s.reg
  registered : s'.registered = s.registered
  run : ∀ c, (s'.conns c).run = (s.conns c).run
  standing : ∀ k, standing s'.events k = standing s.events k

theorem Keeps.refl (s : Server φ) : Keeps s s := ⟨rfl, rfl, fun _ => rfl, fun _ => rfl⟩

theorem Keeps.trans (first : Keeps s s') (second : Keeps s' s'') : Keeps s s'' where
  reg := second.reg.trans first.reg
  registered := second.registered.trans first.registered
  run := fun c => (second.run c).trans (first.run c)
  standing := fun k => (second.standing k).trans (first.standing k)

theorem run_updateConn (s : Server φ) (c : SClient) (f : Conn → Conn) :
    (fun c' => ((s.updateConn c f).conns c').run) =
      update (fun c' => (s.conns c').run) c (f (s.conns c)).run := by
  funext c'
  by_cases same : c' = c
  · rw [same]
    simp [updateConn]
  · simp [updateConn, same]

def Event.Minor : Event φ → Prop
  | .noted _ _ | .wrote _ _ | .forwarded _ _ _ _ => True
  | _ => False

structure Still (s s' : Server φ) : Prop where
  reg : s'.reg = s.reg
  registered : s'.registered = s.registered
  clientsMesh : s'.clientsMesh = s.clientsMesh
  panics : s'.panics = s.panics
  run : ∀ c, (s'.conns c).run = (s.conns c).run
  events : ∃ more, s'.events = s.events ++ more ∧ ∀ e ∈ more, e.Minor

theorem Still.refl (s : Server φ) : Still s s :=
  ⟨rfl, rfl, rfl, rfl, fun _ => rfl, [], (append_nil _).symm, nofun⟩

theorem Still.trans (first : Still s s') (second : Still s' s'') : Still s s'' where
  reg := second.reg.trans first.reg
  registered := second.registered.trans first.registered
  clientsMesh := second.clientsMesh.trans first.clientsMesh
  panics := second.panics.trans first.panics
  run := fun c => (second.run c).trans (first.run c)
  events := by
    obtain ⟨more, eq, minor⟩ := first.events
    obtain ⟨more', eq', minor'⟩ := second.events
    refine ⟨more ++ more', by rw [eq', eq, append_assoc], fun e mem => ?_⟩
    exact (mem_append.1 mem).elim (minor e) (minor' e)

theorem Still.keeps (still : Still s s') : Keeps s s' := by
  refine ⟨still.reg, still.registered, still.run, fun k => ?_⟩
  obtain ⟨more, eq, minor⟩ := still.events
  rw [eq, standing, foldl_append, ← standing]
  clear eq
  generalize standing s.events k = t
  induction more with
  | nil => rfl
  | cons e _ ih =>
    have same : t.next k e = t := by
      have minor := minor e mem_cons_self
      cases e with
      | noted | wrote | forwarded => rfl
      | _ => cases minor
    rw [foldl_cons, same]
    exact ih fun e mem => minor e (mem_cons_of_mem _ mem)

theorem still_updateConn (s : Server φ) (c : SClient) {f : Conn → Conn}
    (run : (f (s.conns c)).run = (s.conns c).run) : Still s (s.updateConn c f) := by
  refine ⟨rfl, rfl, rfl, rfl, fun c' => ?_, [], (append_nil _).symm, nofun⟩
  have all := congrFun (run_updateConn s c f) c'
  rw [run, update_eq_self_iff.2 rfl] at all
  exact all

variable {e : Event φ}

section
variable (s : Server φ)

theorem still_record (minor : e.Minor) : Still s (s.record e) := by
  refine ⟨rfl, rfl, rfl, rfl, fun _ => rfl, [e], rfl, fun e' mem => ?_⟩
  rw [mem_singleton.1 mem]
  exact minor

theorem keeps_record (other : ∀ k (t : Standing), t.next k e = t) :
    Keeps s (s.record e) := by
  refine ⟨rfl, rfl, fun _ => rfl, fun k => ?_⟩
  exact (standing_concat s.events e k).trans (other k _)

theorem still_broadcast (pcs : PeerConnState) :
    Still s (s.broadcastPeerStateChangeLocked pcs) := by
  refine ⟨rfl, rfl, rfl, rfl, fun c => ?_, [], (append_nil _).symm, nofun⟩
  dsimp only [broadcastPeerStateChangeLocked]
  split <;> rfl

theorem keeps_notify (key : NodePublic) (watchers : List (Nat × SClient)) :
    Keeps s (s.notify key watchers) := by
  induction watchers generalizing s with
  | nil => exact .refl s
  | cons w _ ih =>
    exact ((still_updateConn s w.2 rfl).keeps.trans (keeps_record _ fun _ _ => rfl)).trans (ih _)

theorem keeps_note (key : NodePublic) :
    Keeps s (s.notePeerGoneFromRegionLocked key) := by
  unfold notePeerGoneFromRegionLocked
  split
  · exact ⟨rfl, rfl, fun _ => rfl, fun _ => rfl⟩
  have called := (keeps_record s (e := .gone key) fun _ _ => rfl).trans (keeps_notify _ key
    ((s.peerGoneWatchers.lookup key).getD []))
  exact { called with }

theorem keeps_lastGone (key : NodePublic) : Keeps s (s.lastGone key) := by
  refine Keeps.trans ?_ (still_broadcast _ _).keeps
  split
  · have noted := keeps_note { s with clientsMesh := s.clientsMesh.erase key } key
    exact { noted with }
  · exact .refl s

theorem keeps_removePacketForwarder [DecidableEq φ] (dst : NodePublic) (fwd : φ) (order : List φ) :
    Keeps s (s.removePacketForwarder dst fwd order) := by
  unfold removePacketForwarder
  dsimp only
  split
  · exact ⟨rfl, rfl, fun _ => rfl, fun _ => rfl⟩
  · have noted := keeps_note { s with clientsMesh :=
      (s.clientsMesh.removePacketForwarder dst fwd (dst ∈ s.reg.clients) order).1 } dst
    exact { noted with }
  · exact ⟨rfl, rfl, fun _ => rfl, fun _ => rfl⟩

theorem still_addWatcher (c : SClient) : Still s (s.addWatcher c) := by
  unfold addWatcher
  split
  · exact .refl s
  have updated := still_updateConn s c (f := fun conn => { conn with
    peerStateChange := conn.peerStateChange ++ s.reg.clients.entries.filterMap fun e =>
      e.2.activeClient.map fun ac => ⟨e.1, true, ac.remoteIPPort, ac.presentFlags⟩
    meshRequests := conn.meshRequests + 1 }) rfl
  exact { updated with }

theorem still_write (c : SClient) (frame : Frame) (next : LoopPC) :
    Still s (s.write c frame next) :=
  (still_updateConn s c rfl).trans (still_record _ trivial)

theorem still_sendPacket (c : SClient) (p : Pkt) : Still s (s.sendPacket c p) := by
  unfold sendPacket
  refine Still.trans ?_ (still_updateConn _ c rfl)
  split
  · exact .refl s
  refine Still.trans ?_ (still_record _ trivial)
  unfold noteSendFromSrc
  split
  · exact .refl s
  · refine Still.trans ?_ (still_updateConn _ c rfl)
    exact ⟨rfl, rfl, rfl, rfl, fun _ => rfl, [], (append_nil _).symm, nofun⟩

theorem still_removeWatcher (peer : NodePublic) (h : Nat) :
    Still s (s.removePeerGoneFromRegionWatcher peer h) := by
  unfold removePeerGoneFromRegionWatcher
  split
  · exact .refl s
  · exact ⟨rfl, rfl, rfl, rfl, fun _ => rfl, [], (append_nil _).symm, nofun⟩

end

theorem still_of_minor {op : Op φ} (minor : Minor s op s') : Still s s' := by
  cases minor with
  | none => exact .refl s
  | plain plain => exact still_updateConn s _ plain.run
  | forwarded => exact still_record s trivial
  | watch => exact still_addWatcher s _
  | send _ plain => exact (still_updateConn s _ plain.run).trans (still_sendPacket ..)
  | peerGone | pong => exact (still_updateConn s _ rfl).trans (still_write ..)
  | keepAlive | written | change => exact still_write ..
  | start | update | updated | batch | cleaned | stop | recv => exact still_updateConn s _ rfl
  | clean => exact (still_removeWatcher s _ _).trans (still_updateConn _ _ rfl)

def Server.Sound (s : Server φ) : Prop :=
  Derp.Sound s.reg s.registered (fun c => (s.conns c).run) (standing s.events)

theorem Server.Sound.keeps (sound : s.Sound) (keeps : Keeps s s') : s'.Sound := by
  have run : (fun c => (s'.conns c).run) = fun c => (s.conns c).run := funext keeps.run
  have standing : standing s'.events = standing s.events := funext keeps.standing
  rw [Server.Sound, keeps.reg, keeps.registered, run, standing]
  exact sound

theorem new_sound (k : NodePublic) (depth : Nat) : (new k depth : Server φ).Sound where
  policy := rfl
  disabled := fun _ => rfl
  unexpected := rfl
  stands := fun _ => .none rfl
  conns := fun _ => rfl
  nodup := nodup_nil
  running := fun _ => ⟨nofun, fun phase => phase.elim nofun nofun⟩
  fresh := fun _ _ => ⟨rfl, fun _ => not_mem_nil⟩
  curClients := rfl
  dupClientKeys := rfl
  dupClientConns := rfl

theorem standing_change {events : List (Event φ)} {key : NodePublic} {u : Standing}
    (here : (standing events key).next key e = u)
    (elsewhere : ∀ k (t : Standing), k ≠ key → t.next k e = t) :
    standing (events ++ [e]) = changed (standing events) key u := by
  funext k
  rw [standing_concat]
  by_cases same : k = key
  · rw [same, changed, update_self, here]
  · rw [changed, update_of_ne same]
    exact elsewhere k _ same

section
variable (events : List (Event φ)) (c : SClient)

theorem standing_registered : standing (events ++ [.registered c]) =
      changed (standing events) c.key ((standing events c.key).registered c) :=
  standing_change (if_pos rfl) fun _ _ other => if_neg (Ne.symm other)

theorem standing_sent :
    standing (events ++ [.sent c]) = changed (standing events) c.key ((standing events c.key).sent c) :=
  standing_change (if_pos rfl) fun _ _ other => if_neg (Ne.symm other)

theorem standing_unregistered : standing (events ++ [.unregistered c]) =
      changed (standing events) c.key ((standing events c.key).left c) :=
  standing_change (if_pos rfl) fun _ _ other => if_neg (Ne.symm other)

end

theorem keeps_registerClient (s : Server φ) (c : SClient) :
    Keeps { s with reg := s.reg.registerClient c } (s.registerClient c) := by
  refine Keeps.trans ?_ (still_broadcast _ _).keeps
  split
  · exact .refl _
  · exact ⟨rfl, rfl, fun _ => rfl, fun _ => rfl⟩

theorem keeps_unregisterClient (s : Server φ) (c : SClient) :
    Keeps { s with reg := (s.reg.unregisterClient c).1 } (s.unregisterClient c) := by
  unfold unregisterClient
  dsimp only
  split
  · exact .refl _
  · have gone := keeps_lastGone { s with reg := (s.reg.unregisterClient c).1 } c.key
    split
    · exact { gone with }
    · exact gone
  · split
    · exact ⟨rfl, rfl, fun _ => rfl, fun _ => rfl⟩
    · exact .refl _

section
variable {t : Server φ} {f : Conn → Conn} (run : ∀ c', (t.conns c').run = (s.conns c').run)
include run

theorem sound_updateConn : (t.updateConn c f).Sound ↔ Derp.Sound t.reg t.registered
    (update (fun c' => (s.conns c').run) c (f (t.conns c)).run) (standing t.events) := by
  rw [Server.Sound, run_updateConn, funext run]
  rfl

theorem sound_record {e : Event φ} : ((t.updateConn c f).record e).Sound ↔
    Derp.Sound t.reg t.registered (update (fun c' => (s.conns c').run) c (f (t.conns c)).run)
      (standing (t.events ++ [e])) :=
  sound_updateConn (t := t.record e) run

end

theorem Server.Sound.registerClient (sound : s.Sound) (new : (s.conns c).run = .accepted) :
    ((({ s.registerClient c with registered := s.registered ++ [c] } : Server φ).updateConn c
      fun conn => { conn with run := .running }).record (.registered c)).Sound := by
  have keeps := keeps_registerClient s c
  refine (sound_record (s := s) (by exact keeps.run)).2 ?_
  rw [standing_registered, funext keeps.standing, keeps.reg]
  exact Derp.Sound.register sound new

theorem Server.Sound.unregisterClient (sound : s.Sound) (mem : c ∈ s.registered) :
    ((({ s.unregisterClient c with registered := s.registered.erase c } : Server φ).updateConn c
      fun conn => { conn with run := .gone, requests := [] }).record (.unregistered c)).Sound := by
  have keeps := keeps_unregisterClient s c
  refine (sound_record (s := s) (by exact keeps.run)).2 ?_
  rw [standing_unregistered, funext keeps.standing, keeps.reg]
  exact (Derp.Sound.unregister sound mem).1

theorem Server.Sound.noteClientActivity (sound : s.Sound) (noting : (s.conns c).run = .noting) :
    Server.Sound (if (s.reg.inDup c).isSome then
      (({ s with reg := s.reg.noteClientActivity c } : Server φ).updateConn c
        fun conn => { conn with run := .running }).record (.sent c)
      else ({ s with reg := s.reg.noteClientActivity c } : Server φ).updateConn c
        fun conn => { conn with run := .running }) := by
  have noted := Derp.Sound.note sound noting
  split
  next found =>
    rw [if_pos found] at noted
    refine (sound_record (s := s) fun _ => by rfl).2 ?_
    rw [standing_sent]
    exact noted
  next absent =>
    rw [if_neg absent] at noted
    exact (sound_updateConn (s := s) fun _ => by rfl).2 noted

theorem Server.Sound.step [DecidableEq φ] (sound : s.Sound) {op : Op φ} (taken : s.step op = some s') :
    s'.Sound := by
  cases change_of_step taken with
  | register new => exact sound.registerClient new
  | unregister running => exact sound.unregisterClient ((Derp.Sound.running sound _).2 (.inl running))
  | noting running => exact (sound_updateConn (s := s) fun _ => by rfl).2 (Derp.Sound.noting sound running)
  | settled => exact sound
  | note noting => exact sound.noteClientActivity noting
  | add => exact sound.keeps ⟨rfl, rfl, fun _ => rfl, fun _ => rfl⟩
  | remove => exact sound.keeps (keeps_removePacketForwarder ..)
  | minor _ minor => exact sound.keeps (still_of_minor minor).keeps

theorem sound_of_run [DecidableEq φ] {k : NodePublic} {depth : Nat} {ops : List (Op φ)}
    (run : Run step (new k depth) ops s) : s.Sound := by
  induction run with
  | refl => exact new_sound k depth
  | snoc _ taken ih => exact ih.step taken

theorem Server.Sound.mem_clients (sound : s.Sound) (k : NodePublic) :
    k ∈ s.reg.clients ↔ ∃ c ∈ s.registered, c.key = k := by
  have stands := Derp.Sound.stands sound k
  have conns := Derp.Sound.conns sound k
  rw [← AList.lookup_isSome]
  generalize s.reg.clients.lookup k = cs at stands
  have some_conn : (∃ c ∈ s.registered, c.key = k) ↔ (standing s.events k).conns ≠ [] := by
    rw [conns]
    constructor
    · rintro ⟨c, mem, key⟩ empty
      have inside : c ∈ group SClient.key s.registered k := mem_group.2 ⟨mem, key⟩
      rw [empty] at inside
      cases inside
    · intro nonempty
      obtain ⟨c, mem⟩ := exists_mem_of_ne_nil _ nonempty
      exact ⟨c, mem_group.1 mem⟩
  rw [some_conn]
  cases stands with
  | none empty => simp [empty]
  | single one => simp [one]
  | dup two =>
    refine ⟨fun _ empty => ?_, fun _ => rfl⟩
    rw [empty] at two
    cases two

/-- The server after a connection has left the registry and its key was reported, if it was the last. -/
def Server.left (s : Server φ) (c : SClient) : Server φ :=
  if (group SClient.key (s.registered.erase c) c.key).length = 0 then
    { s with reg := (s.reg.unregisterClient c).1 }.lastGone c.key
  else { s with reg := (s.reg.unregisterClient c).1 }

theorem unregisterClient_eq (sound : s.Sound) (mem : c ∈ s.registered) : s.unregisterClient c =
    if c.canMesh then { s.left c with watchers := (s.left c).watchers.erase c } else s.left c := by
  have leaving := (Derp.Sound.unregister sound mem).2
  unfold unregisterClient left
  dsimp only
  rw [leaving]
  by_cases last : (group SClient.key (s.registered.erase c) c.key).length = 0
  · rw [if_pos last, if_pos last]
  · rw [if_neg last, if_neg last]

/-- The clients map, the duplicate sets, the flags, the active connections and the gauges are those
of the connections that are registered. -/
structure Registers (s : Server φ) : Prop where
  clients : ∀ k, k ∈ s.reg.clients ↔ ∃ c ∈ s.registered, c.key = k
  dup : ∀ k cs, s.reg.clients.lookup k = some cs →
    (cs.dup ≠ none ↔ 2 ≤ (group SClient.key s.registered k).length) ∧
    ∀ d, cs.dup = some d → d.set.Nodup ∧ ∀ c, c ∈ d.set ↔ c ∈ s.registered ∧ c.key = k
  isDup : ∀ c ∈ s.registered, s.reg.isDup c = true ↔
    ∃ cs, s.reg.clients.lookup c.key = some cs ∧ cs.dup ≠ none
  active : ∀ k cs, s.reg.clients.lookup k = some cs →
    ∃ a ∈ s.registered, a.key = k ∧ cs.activeClient = some a ∧ (standing s.events k).active = some a ∧
      ∀ c ∈ s.registered, (turnsOf s.events k).getLast? = some c → a = c
  unexpected : s.reg.unexpected = []
  curClients : s.reg.curClients = s.registered.length
  dupClientKeys : s.reg.dupClientKeys = (sharedKeys SClient.key s.registered).card
  dupClientConns : s.reg.dupClientConns = sharers SClient.key s.registered

theorem active_of_latest {t : Standing} {a c : SClient} (active : t.active = some a)
    (mem : c ∈ t.conns) (latest : t.latest = some c) : a = c := by
  unfold Standing.active at active
  split at active
  · cases active
  next one =>
    rw [one] at mem
    cases active
    exact (mem_singleton.1 mem).symm
  · rw [Standing.lastTurn, latest, Option.all_some, if_pos (decide_eq_true mem)] at active
    exact (Option.some.inj active).symm

theorem registers_of_run [DecidableEq φ] {k : NodePublic} {depth : Nat} {ops : List (Op φ)}
    (run : Run Server.step (Server.new k depth) ops s) : Registers s := by
  have sound : Derp.Sound _ _ _ _ := sound_of_run run
  constructor
  case clients => exact Server.Sound.mem_clients sound
  case dup =>
    intro k cs found
    have stands := sound.stands k
    have nodup := sound.nodup_conns k
    rw [found] at stands
    rw [← sound.conns]
    cases stands with
    | single one _ =>
      rw [one]
      exact ⟨⟨fun some => absurd rfl some, fun two => absurd two (Nat.not_succ_le_self 1)⟩, nofun⟩
    | dup two set =>
      refine ⟨⟨fun _ => two, fun _ => nofun⟩, ?_⟩
      rintro d ⟨⟩
      refine ⟨set.nodup_iff.2 nodup, fun c => ?_⟩
      rw [set.mem_iff, sound.conns]
      exact mem_group
  case isDup =>
    intro c mem
    have stands := sound.stands c.key
    have inside := sound.mem_conns mem
    generalize s.reg.clients.lookup c.key = cs at stands
    cases stands with
    | none empty =>
      rw [empty] at inside
      cases inside
    | single one flag =>
      rw [one] at inside
      cases mem_singleton.1 inside
      rw [flag]
      refine ⟨nofun, ?_⟩
      rintro ⟨_, ⟨⟩, some⟩
      exact absurd rfl some
    | dup _ _ flags =>
      refine ⟨fun _ => ⟨_, rfl, nofun⟩, fun _ => flags c inside⟩
  case active =>
    intro k cs found
    have stands := sound.stands k
    rw [found] at stands
    obtain ⟨a, activeClient, active⟩ := stands.active_eq
    have mem := stands.active_mem activeClient
    rw [sound.conns] at mem
    obtain ⟨mem, key⟩ := mem_group.1 mem
    refine ⟨a, mem, key, activeClient, active, fun c registered latest => ?_⟩
    have turn := key_of_turn (mem_of_getLast? latest)
    rw [← latest_standing] at latest
    refine active_of_latest active ?_ latest
    rw [sound.conns]
    exact mem_group.2 ⟨registered, turn⟩
  case unexpected => exact sound.unexpected
  case curClients => exact sound.curClients
  case dupClientKeys => exact sound.dupClientKeys
  case dupClientConns => exact sound.dupClientConns

namespace Sample

def serverKey : NodePublic := 1

def keyA : NodePublic := 2

def client (connNum : Nat) (key : NodePublic) : SClient := ⟨connNum, key, false, false, false, none⟩

abbrev server : Server Nat := .new serverKey 32

def thirdLeaves : List (Op Nat) :=
  [.registerClient (client 1 keyA), .registerClient (client 2 keyA), .registerClient (client 3 keyA),
    .unregisterClient (client 3 keyA)]

theorem second_passed_over : ∃ s cs a b, Run Server.step server thirdLeaves s ∧
    s.reg.clients.lookup keyA = some cs ∧ cs.activeClient = some a ∧
    ((turnsOf s.events keyA).filter fun c => decide (c ∈ s.registered)).getLast? = some b ∧ a ≠ b := by
  obtain ⟨s, run, cs, found, a, active, b, recent, differ⟩ : ∃ s, Run step server thirdLeaves s ∧
      ∃ cs ∈ s.reg.clients.lookup keyA, ∃ a ∈ cs.activeClient,
        ∃ b ∈ ((turnsOf s.events keyA).filter fun c => decide (c ∈ s.registered)).getLast?, a ≠ b :=
    run_of_found (by decide +kernel)
  exact ⟨s, cs, a, b, run, found, active, recent, differ⟩

theorem third_left_registers : ∃ s, Run Server.step server thirdLeaves s ∧ Registers s := by
  obtain ⟨s, taken⟩ : ∃ s, thirdLeaves.foldlM step server = some s := ⟨_, rfl⟩
  exact ⟨s, run_of_foldlM taken, registers_of_run (run_of_foldlM taken)⟩

end Sample

end ScaleTail.Derp
