import ScaleTail.Proof.Relay.Allocation
import ScaleTail.Proof.Relay.Handshake

/-! # Where a challenge may be answered -/

namespace ScaleTail.Relay.Sample
open Lib Go Net List Option Server GeneveHeader

attribute [local instance] crypto

structure Genuine (s : Server) (ops : List Op) (t : Server) : Prop where
  run : Run Server.step s ops t
  unforged : Throughout Server.step Unforged s ops

variable {s t u : Server} {ops more : List Op} {p : Nat} {e : ServerEndpoint} {macSecrets : List Bytes}
  {rotatedAt now : Time} {events : List Event} {src : AddrPort} {b fresh : Bytes}

theorem Genuine.trans (first : Genuine s ops t) (second : Genuine t more u) : Genuine s (ops ++ more) u :=
  ⟨first.run.trans second.run,
    (throughout_append first.run second.run).2 ⟨first.unforged, second.unforged⟩⟩

theorem Genuine.one {op : Op} (taken : s.step op = some t) (unforged : Unforged s op) :
    Genuine s [op] t :=
  have none : Run step s [] s := .refl
  ⟨none.snoc taken, (throughout_snoc none).2 ⟨throughout_nil, unforged⟩⟩

def honest (e : ServerEndpoint) (p : Packet) (events : List Event) : Bool :=
  match e.openDisco (p.b.drop geneveFixedHeaderLength) with
  | some (_, .answer m) => events.any fun
      | .challenged _ c => c.secret = m.challenge && bindInput c.dst c.common = bindInput p.src m
      | _ => false
  | _ => true

theorem unforged_handle {j : Nat} {q : Packet} (first : s.packets[j]? = some q)
    (here : s.endpoints[q.endpoint]? = some e) (sent : honest e q s.events = true) :
    Unforged s (.handle j) := by
  intro q' e' i m first' control here' answer secret mem mac
  cases first.symm.trans first'
  cases here.symm.trans here'
  rw [honest, answer] at sent
  obtain ⟨event, mem, same⟩ := List.any_eq_true.1 sent
  cases event with
  | challenged q c =>
    simp only [Bool.and_eq_true, decide_eq_true_eq] at same
    exact ⟨q, c, mem, same.1.trans mac.symm, same.2⟩
  | _ => cases same

def play (s : Server) : Op → Option Server
  | .handle j => do
      let q ← s.packets[j]?
      let e ← s.endpoints[q.endpoint]?
      if honest e q s.events then s.step (.handle j) else none
  | op => s.step op

theorem genuine_of_play {op : Op} (taken : play s op = some t) : Genuine s [op] t := by
  cases op with
  | handle =>
    obtain ⟨q, first, rest⟩ := bind_eq_some_iff.1 taken
    obtain ⟨e, here, rest⟩ := bind_eq_some_iff.1 rest
    split at rest
    next sent => exact .one rest (unforged_handle first here sent)
    · cases rest
  | _ => exact .one taken trivial

theorem genuine_of_foldlM (taken : ops.foldlM play s = some t) : Genuine s ops t := by
  induction ops generalizing s with
  | nil =>
    cases taken
    exact ⟨.refl, throughout_nil⟩
  | cons _ _ ih =>
    obtain ⟨u, first, rest⟩ := bind_eq_some_iff.1 taken
    exact (genuine_of_play first).trans (ih rest)

@[irreducible] def played (s : Server) (ops : List Op) : Server := (ops.foldlM play s).getD s

theorem genuine_played (taken : (ops.foldlM play s).isSome = true) : Genuine s ops (played s ops) := by
  obtain ⟨t, taken⟩ := isSome_iff_exists.1 taken
  rw [played, taken]
  exact genuine_of_foldlM taken

def secret : Bytes := List.replicate 32 7

def addr : AddrPort := ⟨.v4 0x0a000001, 1000⟩

def controlPacket (sender : DiscoPublic) (messageType : UInt8) (m : BindCommon) : Bytes :=
  GeneveHeader.encode ⟨true, geneveProtocolDisco, 1⟩ ++ magic ++ sender.raw ++ [messageType, 0] ++ m.encode

def bindPacket (sender remote : DiscoPublic) : Bytes :=
  controlPacket sender 0x04 ⟨1, 7, remote, List.replicate 32 0⟩

def answerPacket (sender remote : DiscoPublic) (challenge : Bytes) : Bytes :=
  controlPacket sender 0x06 ⟨1, 7, remote, challenge⟩

def dataPacket : Bytes := GeneveHeader.encode ⟨false, 0, 1⟩ ++ [1, 2, 3]

def handshake (sender remote : DiscoPublic) : List Op :=
  [.receive addr (bindPacket sender remote) second secret, .handle 0] ++
  [.receive addr (answerPacket sender remote secret) second secret, .handle 0]

/-- Both clients complete their handshake from one address, and a packet comes from it. -/
def sharedOps : List Op :=
  [.setAddrPorts [serverAddr] [], .allocateEndpoint keyA keyB 0] ++ handshake keyA keyB ++
    handshake keyB keyA ++ [.receive addr dataPacket second secret, .handle 0]

def sharedEvents (a b : Fin 2) : List Event :=
  [.rotated secret, .challenged 0 ⟨addr, a, 1, 7, keyB, secret⟩, .bound 0 a addr 7 [secret],
    .challenged 0 ⟨addr, b, 1, 7, keyA, secret⟩, .bound 0 b addr 7 [secret]]

theorem shared_played :
    (sharedOps.foldlM play (newServer serverKey)).map (·.events) =
      some (sharedEvents 0 1 ++ [.forwarded 0 addr addr]) ∧
    ∀ i, lastBound (sharedEvents 0 1) 0 i = some addr := by
  decide +kernel

structure Holds (s : Server) (p : Nat) (e : ServerEndpoint) (macSecrets : List Bytes)
    (rotatedAt : Time) (events : List Event) : Prop where
  found : s.serverEndpointByVNI.lookup 1 = some p
  here : s.endpoints[p]? = some e
  packets : s.packets = []
  macSecrets : s.macSecrets = macSecrets
  rotatedAt : s.macSecretRotatedAt = rotatedAt
  events : s.events = events

theorem Holds.rotate (holds : Holds s p e macSecrets rotatedAt events)
    (due : ¬ (rotatedAt ≠ 0 ∧ now - rotatedAt < macSecretRotationInterval)) :
    Holds (s.maybeRotateMACSecretLocked now fresh) p e (fresh :: macSecrets.take 1) now
      (events ++ [.rotated fresh]) := by
  rw [maybeRotateMACSecretLocked, if_neg (by rwa [holds.rotatedAt])]
  refine ⟨holds.found, holds.here, holds.packets, ?_, rfl, ?_⟩
  · rw [holds.macSecrets]
  · rw [holds.events]

theorem Holds.unrotated (holds : Holds s p e macSecrets rotatedAt events)
    (recent : rotatedAt ≠ 0 ∧ now - rotatedAt < macSecretRotationInterval) :
    Holds (s.maybeRotateMACSecretLocked now fresh) p e macSecrets rotatedAt events := by
  rw [maybeRotateMACSecretLocked, if_pos (by rwa [holds.rotatedAt])]
  exact holds

theorem receive_control (src : AddrPort) (now : Time) (fresh : Bytes)
    (found : s.serverEndpointByVNI.lookup 1 = some p)
    (header : isStunBinding b = false ∧ decode b = some ⟨true, geneveProtocolDisco, 1⟩) :
    s.receive src b now fresh = { s.maybeRotateMACSecretLocked now fresh with
      packets := (s.maybeRotateMACSecretLocked now fresh).packets ++
        [⟨src, b, true, p, (s.maybeRotateMACSecretLocked now fresh).macSecrets, now⟩] } := by
  rw [receive, header.1, header.2]
  dsimp only
  rw [found]
  rfl

theorem serverEndpointByVNI_rotate :
    (s.maybeRotateMACSecretLocked now fresh).serverEndpointByVNI = s.serverEndpointByVNI := by
  unfold maybeRotateMACSecretLocked
  split <;> rfl

theorem Holds.control (q : Packet)
    (holds : Holds (s.maybeRotateMACSecretLocked q.now fresh) q.endpoint e q.macSecrets rotatedAt events)
    (control : q.control = true)
    (header : isStunBinding q.b = false ∧ decode q.b = some ⟨true, geneveProtocolDisco, 1⟩)
    (sent : honest e q events = true) :
    ∃ t, Genuine s [.receive q.src q.b q.now fresh, .handle 0] t ∧
      Holds t q.endpoint (packetEffect q e).1 q.macSecrets rotatedAt
        (events ++ (packetEffect q e).2.events q) := by
  obtain ⟨src, b, control, p, macSecrets, now⟩ := q
  cases control
  dsimp only at holds header ⊢
  have found := holds.found
  rw [serverEndpointByVNI_rotate] at found
  have received := receive_control src now fresh found header
  generalize s.maybeRotateMACSecretLocked now fresh = s' at holds received
  rw [holds.packets, holds.macSecrets, nil_append] at received
  have handled : step { s' with packets := [⟨src, b, true, p, macSecrets, now⟩] } (.handle 0) =
      some { s' with
        packets := []
        endpoints := s'.endpoints.set p
          (packetEffect ⟨src, b, true, p, macSecrets, now⟩ e).1
        events := s'.events ++ (packetEffect ⟨src, b, true, p, macSecrets, now⟩ e).2.events
          ⟨src, b, true, p, macSecrets, now⟩ } := by
    dsimp only [step, getElem?_cons_zero, map_some, eraseIdx_zero, tail_cons,
      handle]
    rw [holds.here]
    rfl
  have first : s.step (.receive src b now fresh) =
      some { s' with packets := [⟨src, b, true, p, macSecrets, now⟩] } := congrArg some received
  refine ⟨_, (Genuine.one first trivial).trans (Genuine.one handled ?_), ?_⟩
  · exact unforged_handle rfl holds.here (holds.events.symm ▸ sent)
  refine ⟨holds.found, ?_, rfl, holds.macSecrets, holds.rotatedAt, ?_⟩
  · exact getElem?_set_self (List.getElem?_eq_some_iff.1 holds.here).1
  · rw [holds.events]

def keyC : DiscoPublic := 4

def fresh' : Bytes := List.replicate 32 8

def addr' : AddrPort := ⟨.v4 0x0a000002, 1000⟩

def firstOps : List Op :=
  [.setAddrPorts [serverAddr] [], .allocateEndpoint keyA keyB 0,
    .receive addr (bindPacket keyA keyB) second secret, .handle 0, .endpointGC (31 * second)]

def expired : Server := played (newServer serverKey) firstOps

def firstEvents (a : Fin 2) : List Event :=
  [.rotated secret, .challenged 0 ⟨addr, a, 1, 7, keyB, secret⟩]

theorem expired_facts :
    (firstOps.foldlM play (newServer serverKey)).isSome = true ∧
    expired.serverEndpointByVNI.entries = [] ∧ expired.serverEndpointByDisco.entries = [] ∧
    expired.nextVNI = vniAt 1 ∧ expired.bindLifetime = 30 * second ∧ expired.closed = false ∧
    expired.staticAddrPorts.length = 1 ∧ expired.discoPublic = serverKey ∧ expired.lamportID = 1 ∧
    expired.endpoints.length = 1 ∧ expired.packets.length = 0 ∧ expired.macSecrets = [secret] ∧
    expired.macSecretRotatedAt = second ∧ expired.events = firstEvents 0 ∧
    expired.endpoints[0]?.map (·.discoPubKeys) = some (newSortedPairOfDiscoPublic keyA keyB) := by
  decide +kernel

theorem expired_genuine : Genuine (newServer serverKey) firstOps expired :=
  genuine_played expired_facts.1

theorem expired_idle : Idle expired 1 := by
  obtain ⟨-, byVNI, byDisco, next, lifetime, -⟩ := expired_facts
  exact ⟨AList.ext byVNI, AList.ext byDisco, next, lifetime⟩

theorem expired_serves (a b : DiscoPublic) (clients : ¬ (a = serverKey ∨ b = serverKey)) :
    expired.Serves a b := by
  obtain ⟨-, -, -, -, -, opened, addrs, own, -⟩ := expired_facts
  refine ⟨opened, fun empty => ?_, ?_⟩
  · rw [addrs] at empty
    cases empty.1
  · rwa [own]

theorem genuine_cycles {j : Nat} {discoA discoB : DiscoPublic} (idle : Idle s j)
    (serves : s.Serves discoA discoB) (n : Nat) :
    ∃ es, es.length = n ∧ Genuine s (cycles discoA discoB n) (s.grown j es) := by
  obtain ⟨es, length, run⟩ := run_cycles idle serves n
  refine ⟨es, length, run, ?_⟩
  have quiet (n : Nat) : ∀ op ∈ cycles discoA discoB n, ∀ t, Unforged t op := by
    induction n with
    | zero => exact nofun
    | succ _ ih =>
      intro op mem t
      rcases mem_append.1 mem with mem | mem
      · exact ih op mem t
      · simp only [cycle, mem_cons, not_mem_nil, or_false] at mem
        rcases mem with rfl | rfl <;> trivial
  intro before op after same t _
  exact quiet n op (same ▸ mem_append_right _ mem_cons_self) t

def late : Time := 600000000 * second

def lateEndpoint : ServerEndpoint where
  discoPubKeys := newSortedPairOfDiscoPublic keyC keyB
  lamportID := 1 + UInt64.ofNat 16777214 + 1
  vni := 1
  allocatedAt := late
  closed := false
  inProgressGeneration := fun _ => 0
  boundAddrPorts := fun _ => none
  lastSeen := fun _ => 0
  packetsRx := fun _ => 0
  bytesRx := fun _ => 0

theorem late_holds : ∃ t, Genuine expired
    (cycles keyA keyB 16777214 ++ [.allocateEndpoint keyC keyB late]) t ∧
    Holds t 16777215 lateEndpoint [secret] second (firstEvents 0) := by
  obtain ⟨es, length, genuine⟩ :=
    genuine_cycles expired_idle (expired_serves keyA keyB (by decide)) 16777214
  have idle := expired_idle.grown es
  have serves := (expired_serves keyC keyB (by decide)).grown 1 es
  have allocated : (expired.grown 1 es).step (.allocateEndpoint keyC keyB late) = some _ :=
    congrArg some (idle.allocateEndpoint serves late)
  refine ⟨_, genuine.trans (Genuine.one allocated trivial), ?_⟩
  obtain ⟨-, -, -, -, -, -, -, -, lamportID, count, packets, macSecrets, rotatedAt, events, -⟩ :=
    expired_facts
  have around : vniAt (1 + es.length) = 1 := by
    rw [length]
    decide
  have position : (expired.grown 1 es).endpoints.length = 16777215 := by
    rw [grown, length_append, count, length]
  refine ⟨?_, ?_, length_eq_zero_iff.1 packets, macSecrets, rotatedAt, events⟩
  · rw [around, ← position]
    exact AList.lookup_insert _
  · rw [around, ← position]
    refine getElem?_concat_length.trans ?_
    rw [grown, lamportID, length]
    rfl

def lateEvents (a c : Fin 2) : List Event :=
  firstEvents a ++ [.rotated fresh', .challenged 16777215 ⟨addr', c, 1, 7, keyB, fresh'⟩]

def lastOps : List Op :=
  [.receive addr' (bindPacket keyC keyB) late fresh', .handle 0] ++
  [.receive addr (answerPacket keyC keyB secret) late fresh', .handle 0]

def bindC : Packet := ⟨addr', bindPacket keyC keyB, true, 16777215, [fresh', secret], late⟩

def answerC : Packet := ⟨addr, answerPacket keyC keyB secret, true, 16777215, [fresh', secret], late⟩

@[irreducible] def boundEndpoint : ServerEndpoint × Effect :=
  Server.packetEffect answerC (Server.packetEffect bindC lateEndpoint).1

theorem last_holds {t : Server} (holds : Holds t 16777215 lateEndpoint [secret] second (firstEvents 0)) :
    ∃ u, Genuine t lastOps u ∧ Holds u 16777215 boundEndpoint.1 [fresh', secret] late
      (lateEvents 0 1 ++ [.bound 16777215 1 addr 7 [fresh', secret]]) := by
  have bound : boundEndpoint.2.events answerC = [.bound 16777215 1 addr 7 [fresh', secret]] := by
    decide +kernel
  have rotated : Holds (t.maybeRotateMACSecretLocked late fresh') 16777215 lateEndpoint
      [fresh', secret] late (firstEvents 0 ++ [.rotated fresh']) := holds.rotate (by decide)
  obtain ⟨u, first, holds⟩ := Holds.control bindC rotated rfl (by decide +kernel) (by decide +kernel)
  have recent : Holds (u.maybeRotateMACSecretLocked late fresh') 16777215
      (packetEffect bindC lateEndpoint).1 [fresh', secret] late (lateEvents 0 1) :=
    holds.unrotated (by decide)
  obtain ⟨v, second, holds⟩ := Holds.control answerC recent rfl (by decide +kernel) (by decide +kernel)
  refine ⟨v, first.trans second, ?_⟩
  rw [← bound, boundEndpoint]
  exact holds

def reuseOps : List Op :=
  firstOps ++ (cycles keyA keyB 16777214 ++ [.allocateEndpoint keyC keyB late] ++ lastOps)

theorem reused : ∃ s e, Genuine (newServer serverKey) reuseOps s ∧
    s.events = lateEvents 0 1 ++ [.bound 16777215 1 addr 7 [fresh', secret]] ∧
    s.identity 16777215 = some e ∧ e.pair.get 1 = keyC ∧
    ∀ q c f, .challenged q c ∈ lateEvents 0 1 → s.identity q = some f → c.dst = addr →
      f.pair.get c.index = keyA := by
  obtain ⟨t, cycled, holds⟩ := late_holds
  obtain ⟨s, last, holds⟩ := last_holds holds
  have rest := cycled.trans last
  refine ⟨s, _, expired_genuine.trans rest, holds.events, identity_of_getElem? holds.here, ?_, ?_⟩
  · have identity : boundEndpoint.1.identity = lateEndpoint.identity := by
      rw [boundEndpoint]
      exact (handles_packetEffect _ _).identity.trans (handles_packetEffect _ _).identity
    rw [identity]
    decide
  · intro q c f mem at_ dst
    simp only [lateEvents, firstEvents, mem_append, mem_cons, not_mem_nil, or_false,
      reduceCtorEq, false_or, Event.challenged.injEq] at mem
    rcases mem with ⟨rfl, rfl⟩ | ⟨rfl, rfl⟩
    · obtain ⟨e, first, pair⟩ := map_eq_some_iff.1 expired_facts.2.2.2.2.2.2.2.2.2.2.2.2.2.2
      obtain ⟨closed, at_', -⟩ := kept_of_run rest.run 0 _ (identity_of_getElem? first)
      cases at_.symm.trans at_'
      dsimp only [ServerEndpoint.identity]
      rw [pair]
      decide
    · exact absurd dst (by decide)

theorem handshake_counterexample :
    (∃ ops s before p i a g macSecrets e, Run Server.step (newServer serverKey) ops s ∧
      Throughout Server.step Unforged (newServer serverKey) ops ∧
      s.events = before ++ [.bound p i a g macSecrets] ∧ s.identity p = some e ∧
      ∀ q c f, .challenged q c ∈ before → s.identity q = some f → c.dst = a →
        f.pair.get c.index ≠ e.pair.get i) ∧
    ∃ ops s before p src dst, Run Server.step (newServer serverKey) ops s ∧
      Throughout Server.step Unforged (newServer serverKey) ops ∧
      s.events = before ++ [.forwarded p src dst] ∧ ∀ i, lastBound before p i = some src := by
  constructor
  · obtain ⟨s, e, genuine, events, at_, client, others⟩ := reused
    refine ⟨reuseOps, s, lateEvents 0 1, _, 1, addr, 7, _, e, genuine.run, genuine.unforged, events, at_, ?_⟩
    intro q c f mem at_ dst
    rw [others q c f mem at_ dst, client]
    decide
  · obtain ⟨played, bound⟩ := shared_played
    obtain ⟨s, taken, events⟩ := map_eq_some_iff.1 played
    have genuine := genuine_of_foldlM taken
    exact ⟨sharedOps, s, sharedEvents 0 1, 0, addr, addr, genuine.run, genuine.unforged, events, bound⟩

theorem shared_safe : ∃ s, Run Server.step (newServer serverKey) sharedOps s ∧
    Throughout Server.step Unforged (newServer serverKey) sharedOps ∧ Safe s := by
  obtain ⟨s, taken, -⟩ := map_eq_some_iff.1 shared_played.1
  have genuine := genuine_of_foldlM taken
  exact ⟨s, genuine.run, genuine.unforged, safe_of_run genuine.run genuine.unforged⟩

end ScaleTail.Relay.Sample
