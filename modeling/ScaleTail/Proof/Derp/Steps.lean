import ScaleTail.Derp.Server

/-! # The steps of a DERP server -/

namespace ScaleTail.Derp
open Go Net Server Option

variable {φ : Type} {s s' : Server φ} {c : SClient}

theorem conns_updateConn (s : Server φ) (c : SClient) (f : Conn → Conn) :
    (s.updateConn c f).conns c = f (s.conns c) := Function.update_self ..

theorem conns_updateConn_ne (s : Server φ) {c c' : SClient} {f : Conn → Conn} (other : c' ≠ c) :
    (s.updateConn c f).conns c' = s.conns c' := Function.update_of_ne other ..

theorem loop_noteSendFromSrc (s : Server φ) (c : SClient) (src : NodePublic) :
    (((s.noteSendFromSrc c src).record (.noted c src)).conns c).loop = (s.conns c).loop := by
  unfold noteSendFromSrc
  split
  · rfl
  dsimp only [record]
  rw [conns_updateConn]
  rfl

theorem conns_removeWatcher (s : Server φ) (key : NodePublic) (h : Nat) :
    (s.removePeerGoneFromRegionWatcher key h).conns = s.conns := by
  unfold removePeerGoneFromRegionWatcher
  split <;> rfl

structure Plain (conn conn' : Conn) : Prop where
  run : conn'.run = conn.run
  requests : conn.requests <+: conn'.requests
  loop : conn'.loop = conn.loop
  peerStateChange : conn'.peerStateChange = conn.peerStateChange
  sawSrc : conn'.sawSrc = conn.sawSrc
  unread : conn'.unread = conn.unread
  client : conn'.client = conn.client

def LoopPC.Ended : LoopPC → Prop
  | .cleaning _ | .done => True
  | _ => False

instance (l : LoopPC) : Decidable l.Ended :=
  match l with
  | .cleaning _ | .done => .isTrue trivial
  | .idle | .select | .writing _ | .updating _ => .isFalse id

theorem not_ended {l l' : LoopPC} (loop : l = l') (running : ¬ l'.Ended) : ¬ l.Ended := loop ▸ running

def LoopPC.Running : LoopPC → Prop
  | .select | .writing _ | .updating _ => True
  | _ => False

inductive Minor (s : Server φ) : Op φ → Server φ → Prop
  | none {op : Op φ} : Minor s op s
  | plain {op : Op φ} {c : SClient} {f : Conn → Conn} : Plain (s.conns c) (f (s.conns c)) →
      Minor s op (s.updateConn c f)
  | forwarded {op : Op φ} {fwd : φ} {src dst : NodePublic} {contents : Bytes} :
      Minor s op (s.record (.forwarded fwd src dst contents))
  | start {c : SClient} : (s.conns c).run = .running → (s.conns c).loop = .idle →
      Minor s (.start c) (s.updateConn c fun conn => { conn with loop := .select })
  | watch {c : SClient} : (s.conns c).run = .running → c.canMesh = true →
      Minor s (.watchConns c) (s.addWatcher c)
  | peerGone {c : SClient} {j : Nat} {m : PeerGoneMsg} : (s.conns c).loop = .select →
      (s.conns c).requests[j]? = some m → Minor s (.select c (.peerGone j))
        ((s.updateConn c fun conn => { conn with requests := conn.requests.eraseIdx j }).write c
          (.peerGone m) .select)
  | update {c : SClient} : (s.conns c).loop = .select → Minor s (.select c .meshUpdate)
      (s.updateConn c fun conn => { conn with meshUpdate := false, loop := .updating [] })
  | send {op : Op φ} {c : SClient} {p : Pkt} {f : Conn → Conn} : (s.conns c).loop = .select →
      Plain (s.conns c) (f (s.conns c)) → Minor s op ((s.updateConn c f).sendPacket c p)
  | pong {op : Op φ} {c : SClient} {data : Bytes} : (s.conns c).loop = .select → Minor s op
      ((s.updateConn c fun conn => { conn with sendPongCh := Option.none }).write c (.pong data) .select)
  | keepAlive {op : Op φ} {c : SClient} : (s.conns c).loop = .select →
      Minor s op (s.write c .keepAlive .select)
  | written {c : SClient} {p : Pkt} : (s.conns c).loop = .writing p → Minor s (.advance c)
      (s.write c (.recvPacket (if p.src = 0 then Option.none else some p.src) p.bs) .select)
  | updated {c : SClient} : (s.conns c).loop = .updating [] → (s.conns c).peerStateChange = [] →
      Minor s (.advance c) (s.updateConn c fun conn => { conn with loop := .select })
  | batch {c : SClient} : (s.conns c).loop = .updating [] → Minor s (.advance c)
      (s.updateConn c fun conn =>
        { conn with loop := .updating (s.conns c).peerStateChange, peerStateChange := [] })
  | change {c : SClient} {pcs : PeerConnState} {batch : List PeerConnState} :
      (s.conns c).loop = .updating (pcs :: batch) →
      Minor s (.advance c) (s.write c pcs.frame (.updating batch))
  | cleaned {c : SClient} : (s.conns c).loop = .cleaning [] → Minor s (.advance c)
      (s.updateConn c fun conn => { conn with loop := .done, sendQueue := [], discoSendQueue := [] })
  | clean {c : SClient} {e : Sigma fun _ : NodePublic => Nat} {rest : List (Sigma fun _ : NodePublic => Nat)} :
      (s.conns c).loop = .cleaning (e :: rest) → Minor s (.advance c)
      ((s.removePeerGoneFromRegionWatcher e.1 e.2).updateConn c fun conn =>
        { conn with loop := .cleaning rest })
  | stop {c : SClient} : (s.conns c).loop.Running → Minor s (.stopLoop c)
      (s.updateConn c fun conn => { conn with loop := .cleaning conn.sawSrc.entries })
  | recv {c : SClient} {frame : Frame} {rest : List Frame} : (s.conns c).unread = frame :: rest →
      Minor s (.recv c) (s.updateConn c fun conn =>
        { conn with unread := rest, client := conn.client.recv frame })

theorem minor_sendPkt (op : Op φ) (dst : SClient) (p : Pkt) : Minor s op (s.sendPkt dst p) := by
  unfold sendPkt
  split
  · exact .none
  split
  · exact .plain ⟨rfl, List.prefix_refl _, rfl, rfl, rfl, rfl, rfl⟩
  · exact .plain ⟨rfl, List.prefix_refl _, rfl, rfl, rfl, rfl, rfl⟩

theorem minor_undelivered (op : Op φ) (c : SClient) (dst : NodePublic) (contents : Bytes)
    (allow : Bool) (dstLen : Nat) : Minor s op (s.undelivered c dst contents allow dstLen) := by
  unfold undelivered requestPeerGoneWriteLimited
  split
  · exact .none
  split
  · exact .plain ⟨rfl, List.prefix_append .., rfl, rfl, rfl, rfl, rfl⟩
  · exact .none

theorem minor_handleFrameForwardPacket (op : Op φ) (c : SClient) (src dst : NodePublic)
    (contents : Bytes) (allow : Bool) :
    Minor s op (s.handleFrameForwardPacket c src dst contents allow) := by
  unfold handleFrameForwardPacket
  split
  · exact minor_sendPkt ..
  · exact minor_undelivered ..

theorem minor_handleFrameSendPacket (op : Op φ) (c : SClient) (dst : NodePublic) (contents : Bytes)
    (allow : Bool) : Minor s op (s.handleFrameSendPacket c dst contents allow) := by
  unfold handleFrameSendPacket
  split
  · exact minor_sendPkt ..
  split
  · exact .forwarded
  · exact minor_undelivered ..

theorem minor_selectStep {choice : Server.Choice} (selecting : (s.conns c).loop = .select)
    (taken : s.selectStep c (s.conns c) choice = some s') : Minor s (.select c choice) s' := by
  cases choice with
  | peerGone =>
    obtain ⟨m, found, taken⟩ := bind_eq_some_iff.1 taken
    cases taken
    exact .peerGone selecting found
  | meshUpdate =>
    obtain ⟨-, ⟨⟩⟩ := ite_none_right_eq_some.1 taken
    exact .update selecting
  | sendQueue | discoSendQueue =>
    obtain ⟨p, -, taken⟩ := bind_eq_some_iff.1 taken
    cases taken
    exact .send selecting ⟨rfl, List.prefix_refl _, rfl, rfl, rfl, rfl, rfl⟩
  | sendPongCh =>
    obtain ⟨data, -, taken⟩ := bind_eq_some_iff.1 taken
    cases taken
    exact .pong selecting
  | keepAlive =>
    cases taken
    exact .keepAlive selecting

theorem minor_advance (taken : s.advance c (s.conns c) = some s') : Minor s (.advance c) s' := by
  unfold advance at taken
  split at taken
  next p loop =>
    cases taken
    exact .written loop
  next loop =>
    split at taken
    next empty =>
      cases taken
      exact .updated loop empty
    · cases taken
      exact .batch loop
  next loop =>
    cases taken
    exact .change loop
  next loop =>
    cases taken
    exact .cleaned loop
  next loop =>
    cases taken
    exact .clean loop
  · cases taken

theorem minor_stopLoop (taken : s.stopLoop c (s.conns c) = some s') : Minor s (.stopLoop c) s' := by
  unfold stopLoop at taken
  split at taken
  iterate 3
    next loop =>
      cases taken
      refine .stop ?_
      rw [loop]
      trivial
  cases taken

def Op.Major : Op φ → Prop
  | .registerClient _ | .unregisterClient _ | .noteClientActivity _ | .noteClientActivityLocked _
  | .addPacketForwarder _ _ | .removePacketForwarder _ _ _ => True
  | _ => False

inductive Change [DecidableEq φ] (s : Server φ) : Op φ → Server φ → Prop
  | register {c : SClient} : (s.conns c).run = .accepted → Change s (.registerClient c)
      ((({ s.registerClient c with registered := s.registered ++ [c] } : Server φ).updateConn c
        fun conn => { conn with run := .running }).record (.registered c))
  | unregister {c : SClient} : (s.conns c).run = .running →
      (s.conns c).loop = .idle ∨ (s.conns c).loop = .done → Change s (.unregisterClient c)
      ((({ s.unregisterClient c with registered := s.registered.erase c } : Server φ).updateConn c
        fun conn => { conn with run := .gone, requests := [] }).record (.unregistered c))
  | noting {c : SClient} : (s.conns c).run = .running → Change s (.noteClientActivity c)
      (s.updateConn c fun conn => { conn with run := .noting })
  | settled {c : SClient} : Change s (.noteClientActivity c) s
  | note {c : SClient} : (s.conns c).run = .noting → Change s (.noteClientActivityLocked c)
      (if (s.reg.inDup c).isSome then
        (({ s with reg := s.reg.noteClientActivity c } : Server φ).updateConn c
          fun conn => { conn with run := .running }).record (.sent c)
        else ({ s with reg := s.reg.noteClientActivity c } : Server φ).updateConn c
          fun conn => { conn with run := .running })
  | add (dst : NodePublic) (fwd : φ) : Change s (.addPacketForwarder dst fwd) (s.addPacketForwarder dst fwd)
  | remove {dst : NodePublic} {fwd : φ} {order : List φ} :
      s.clientsMesh.isIteration dst fwd order = true →
      Change s (.removePacketForwarder dst fwd order) (s.removePacketForwarder dst fwd order)
  | minor {op : Op φ} {s' : Server φ} : ¬ op.Major → Minor s op s' → Change s op s'

theorem change_of_step [DecidableEq φ] {op : Op φ} (taken : s.step op = some s') : Change s op s' := by
  cases op with
  | registerClient =>
    obtain ⟨new, ⟨⟩⟩ := ite_none_right_eq_some.1 taken
    exact .register new
  | start =>
    dsimp only [step] at taken
    split at taken
    next running idle =>
      cases taken
      exact .minor id (.start running idle)
    · cases taken
  | noteClientActivity =>
    obtain ⟨running, ⟨⟩⟩ := ite_none_right_eq_some.1 taken
    split
    · exact .noting (of_decide_eq_true running)
    · exact .settled
  | noteClientActivityLocked =>
    obtain ⟨noting, ⟨⟩⟩ := ite_none_right_eq_some.1 taken
    exact .note noting
  | unregisterClient =>
    dsimp only [step] at taken
    split at taken
    next running idle =>
      cases taken
      exact .unregister running (.inl idle)
    next running done =>
      cases taken
      exact .unregister running (.inr done)
    · cases taken
  | addPacketForwarder dst fwd =>
    cases taken
    exact .add dst fwd
  | removePacketForwarder =>
    obtain ⟨iteration, ⟨⟩⟩ := ite_none_right_eq_some.1 taken
    exact .remove iteration
  | watchConns =>
    obtain ⟨reading, ⟨⟩⟩ := ite_none_right_eq_some.1 taken
    obtain ⟨running, canMesh⟩ := Bool.and_eq_true_iff.1 reading
    exact .minor id (.watch (of_decide_eq_true running) canMesh)
  | sendPacket =>
    obtain ⟨-, ⟨⟩⟩ := ite_none_right_eq_some.1 taken
    exact .minor id (minor_handleFrameSendPacket ..)
  | forwardPacket =>
    obtain ⟨-, ⟨⟩⟩ := ite_none_right_eq_some.1 taken
    exact .minor id (minor_handleFrameForwardPacket ..)
  | ping | requestMeshUpdate =>
    obtain ⟨-, ⟨⟩⟩ := ite_none_right_eq_some.1 taken
    exact .minor id (.plain ⟨rfl, List.prefix_refl _, rfl, rfl, rfl, rfl, rfl⟩)
  | select =>
    dsimp only [step] at taken
    split at taken
    next selecting => exact .minor id (minor_selectStep selecting taken)
    · cases taken
  | advance => exact .minor id (minor_advance taken)
  | stopLoop => exact .minor id (minor_stopLoop taken)
  | recv =>
    dsimp only [step] at taken
    split at taken
    · cases taken
    next unread =>
      cases taken
      exact .minor id (.recv unread)

end ScaleTail.Derp
