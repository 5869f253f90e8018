import ScaleTail.Proof.Relay.Registry

/-! # The bind handshake of the relay -/

namespace ScaleTail.Relay
open Lib Go Net List Server UInt8 BigEndian

theorem putUint32_injective {m n : UInt32} (same : putUint32 m = putUint32 n) : m = n :=
  UInt32.toNat_inj.1 (encode_injective m.toNat_lt n.toNat_lt same)

theorem raw_injective {k k' : DiscoPublic} (same : k.raw = k'.raw) : k = k' :=
  BitVec.eq_of_toNat_eq (encode_injective k.isLt k'.isLt same)

theorem port_injective {m n : UInt16} (same : [ofNat m.toNat, ofNat (m.toNat / 256)] =
      [ofNat n.toNat, ofNat (n.toNat / 256)]) : m = n := by
  obtain ⟨low, rest⟩ := List.cons.inj same
  have high := (List.cons.inj rest).1
  have low := congrArg toNat low
  have high := congrArg toNat high
  rw [toNat_ofNat', toNat_ofNat'] at low high
  have := m.toNat_lt
  have := n.toNat_lt
  exact UInt16.toNat_inj.1 (by omega)

theorem addrPortBinary_injective {a a' : AddrPort} (same : addrPortBinary a = addrPortBinary a') :
    a = a' := by
  obtain ⟨addr, port⟩ := a
  obtain ⟨addr', port'⟩ := a'
  obtain ⟨addrs, ports⟩ := append_inj' same rfl
  cases port_injective ports
  cases addr with
  | v4 bits =>
    cases addr' with
    | v4 bits' =>
      cases BitVec.eq_of_toNat_eq (encode_injective bits.isLt bits'.isLt addrs)
      rfl
    | v6 => simpa using congrArg List.length addrs
  | v6 bits =>
    cases addr' with
    | v4 => simpa using congrArg List.length addrs
    | v6 bits' =>
      cases BitVec.eq_of_toNat_eq (encode_injective bits.isLt bits'.isLt addrs)
      rfl

theorem bindInput_injective {a a' : AddrPort} {m m' : BindCommon}
    (same : bindInput a m = bindInput a' m') :
    a = a' ∧ m.vni = m'.vni ∧ m.generation = m'.generation ∧ m.remoteKey = m'.remoteKey := by
  obtain ⟨rest, addr⟩ := append_inj same (by simp [putUint32, DiscoPublic.raw])
  obtain ⟨numbers, key⟩ := append_inj rest (by simp [putUint32])
  obtain ⟨vni, generation⟩ := append_inj numbers (by simp [putUint32])
  exact ⟨addrPortBinary_injective addr, putUint32_injective vni, putUint32_injective generation,
    raw_injective key⟩

def rotated (events : List Event) : List Bytes :=
  events.filterMap fun
    | .rotated secret => some secret
    | _ => none

def Event.boundTo (p : Nat) (i : Fin 2) : Event → Option AddrPort
  | .bound q j a _ _ => if q = p ∧ j = i then some a else none
  | _ => none

def lastBound (events : List Event) (p : Nat) (i : Fin 2) : Option AddrPort :=
  (events.filterMap (Event.boundTo p i)).getLast?

theorem lastBound_concat (events : List Event) (event : Event) (p : Nat) (i : Fin 2) :
    lastBound (events ++ [event]) p i = (event.boundTo p i).or (lastBound events p i) := by
  rw [lastBound, filterMap_append]
  cases bound : event.boundTo p i with
  | none => simp [bound, lastBound]
  | some => simp [bound]

def Server.boundAddr (s : Server) (p : Nat) (i : Fin 2) : Option AddrPort :=
  s.endpoints[p]?.bind (·.boundAddrPorts i)

open ServerEndpoint (otherSender)

def Answered (s : Server) (before : List Event) (p : Nat) (i : Fin 2) (a : AddrPort)
    (generation : UInt32) (macSecrets : List Bytes) : Prop :=
  ∃ e q f c, s.identity p = some e ∧ s.identity q = some f ∧ .challenged q c ∈ before ∧
    c.dst = a ∧ c.vni = e.vni ∧ c.generation = generation ∧ c.secret ∈ macSecrets ∧
    f.vni = e.vni ∧ f.pair.get (otherSender c.index) = e.pair.get (otherSender i) ∧
    (f.pair.get c.index = e.pair.get i ∨ q < p ∧ f.closed = true)

def Current (before : List Event) (macSecrets : List Bytes) : Prop :=
  ∃ received, received <+: before ∧ macSecrets = (rotated received).reverse.take 2

def Allowed (s : Server) (before : List Event) : Event → Prop
  | .bound p i a generation macSecrets =>
    Current before macSecrets ∧ Answered s before p i a generation macSecrets
  | .forwarded p src dst =>
    ∃ i, lastBound before p i = some src ∧ lastBound before p (otherSender i) = some dst
  | _ => True

structure Safe (s : Server) : Prop where
  events : Each (Allowed s) s.events
  bound : ∀ p i, s.boundAddr p i = lastBound s.events p i

structure Traced (s : Server) : Prop extends Safe s where
  secrets : s.macSecrets = (rotated s.events).reverse.take 2
  packets : ∀ p ∈ s.packets, p.control = true → Current s.events p.macSecrets
  challenged : ∀ q c, .challenged q c ∈ s.events → ∃ f, s.identity q = some f ∧ f.vni = c.vni ∧
    f.pair.get (otherSender c.index) = c.remoteKey

variable {s s' : Server}

theorem newServer_traced (k : DiscoPublic) : Traced (newServer k) where
  events := each_nil
  bound := fun _ _ => rfl
  secrets := rfl
  packets := nofun
  challenged := nofun

variable {event : Event} {events : List Event} {macSecrets : List Bytes} {p : Nat}
  {e e' : ServerEndpoint}

theorem Allowed.mono (kept : Kept s s') {before : List Event}
    (allowed : Allowed s before event) : Allowed s' before event := by
  cases event with
  | bound p =>
    obtain ⟨current, e, q, f, c, atP, atQ, mem, dst, vni, same, secret, sameVNI, peer, client⟩ := allowed
    obtain ⟨closed, atP', -⟩ := kept p e atP
    obtain ⟨closed', atQ', stays⟩ := kept q f atQ
    refine ⟨current, _, q, _, c, atP', atQ', mem, dst, vni, same, secret, sameVNI, peer, ?_⟩
    exact client.imp id fun earlier => ⟨earlier.1, stays earlier.2⟩
  | forwarded => exact allowed
  | rotated | challenged => trivial

theorem Current.concat (current : Current events macSecrets)
    (more : List Event) : Current (events ++ more) macSecrets := by
  obtain ⟨received, before, same⟩ := current
  exact ⟨received, before.trans (prefix_append _ _), same⟩

structure Quiet (s s' : Server) : Prop where
  kept : Kept s s'
  boundAddr : s'.boundAddr = s.boundAddr
  events : s'.events = s.events
  macSecrets : s'.macSecrets = s.macSecrets
  packets : s'.packets = s.packets

theorem Quiet.refl (s : Server) : Quiet s s := ⟨.of_eq rfl, rfl, rfl, rfl, rfl⟩

theorem Traced.quiet (traced : Traced s) (quiet : Quiet s s') : Traced s' where
  events := by
    rw [quiet.events]
    exact traced.events.imp fun _ _ => Allowed.mono quiet.kept
  bound := by
    rw [quiet.boundAddr, quiet.events]
    exact traced.bound
  secrets := by
    rw [quiet.macSecrets, quiet.events]
    exact traced.secrets
  packets := by
    rw [quiet.packets, quiet.events]
    exact traced.packets
  challenged := by
    rw [quiet.events]
    intro q c mem
    obtain ⟨f, at_, vni, peer⟩ := traced.challenged q c mem
    obtain ⟨closed, at_', -⟩ := quiet.kept q f at_
    exact ⟨_, at_', vni, peer⟩

theorem quiet_insertEndpoint (pair : SortedPairOfDiscoPublic) (vni nextVNI : UInt32) (now : Time) :
    Quiet s (s.insertEndpoint pair vni nextVNI now).2 := by
  refine ⟨fun _ _ at_ => ⟨_, identity_insertEndpoint.2 (.inl at_), id⟩, ?_, rfl, rfl, rfl⟩
  funext p i
  dsimp only [boundAddr, insertEndpoint]
  rcases Nat.lt_trichotomy p s.endpoints.length with inside | rfl | outside
  · rw [getElem?_append_left inside]
  · simp
  · rw [getElem?_eq_none (by simpa using outside), getElem?_eq_none (Nat.le_of_lt outside)]

theorem Registered.quiet_allocateEndpoint (reg : Registered s) (discoA discoB : DiscoPublic)
    (now : Time) : Quiet s (s.allocateEndpoint discoA discoB now).2 := by
  have allocates := reg.allocates discoA discoB now
  generalize s.allocateEndpoint discoA discoB now = r at allocates
  cases allocates with
  | refused | held => exact .refl s
  | full => exact ⟨.of_eq rfl, rfl, rfl, rfl, rfl⟩
  | new _ _ _ same =>
    rw [same]
    exact quiet_insertEndpoint _ _ _ _

theorem quiet_endpointGC (s : Server) (now : Time) : Quiet s (s.endpointGC now) := by
  have expires := expires_endpointGC s now
  have kept := expires.identity
  obtain ⟨⟨_, _, _, same⟩, length, closes⟩ := expires
  rw [same] at length closes kept ⊢
  refine ⟨kept, ?_, rfl, rfl, rfl⟩
  funext p i
  dsimp only [boundAddr] at length ⊢
  cases here : s.endpoints[p]? with
  | none =>
    rw [getElem?_eq_none_iff, ← length, ← getElem?_eq_none_iff] at here
    rw [here]
  | some =>
    rcases closes here with here | ⟨here, -⟩ <;> simp [here]

theorem quiet_close (s : Server) : Quiet s s.close := by
  unfold close
  split
  · exact .refl s
  · exact ⟨.of_eq rfl, rfl, rfl, rfl, rfl⟩

theorem Traced.rotate (traced : Traced s) (now : Time) (fresh : Bytes) :
    Traced (s.maybeRotateMACSecretLocked now fresh) := by
  unfold maybeRotateMACSecretLocked
  split
  · exact traced
  have more : rotated (s.events ++ [.rotated fresh]) = rotated s.events ++ [fresh] := by
    simp [rotated]
  constructor
  case toSafe =>
    refine ⟨each_concat.2 ⟨?_, trivial⟩, fun p i => ?_⟩
    · exact traced.events.imp fun _ _ => Allowed.mono (.of_eq rfl)
    rw [lastBound_concat]
    exact traced.bound p i
  case secrets =>
    rw [more, reverse_concat, take_succ_cons, traced.secrets, take_take]
    rfl
  case packets => exact fun p mem control => (traced.packets p mem control).concat _
  case challenged =>
    intro q c mem
    rcases mem_append.1 mem with mem | mem
    · exact traced.challenged q c mem
    · cases mem_singleton.1 mem

theorem Traced.receive (traced : Traced s) (src : AddrPort) (b : Bytes) (now : Time) (fresh : Bytes) :
    Traced (s.receive src b now fresh) := by
  unfold Server.receive
  split
  · exact traced
  split
  · exact traced
  split
  · exact traced
  split
  · split
    · exact traced
    have rotated := traced.rotate now fresh
    refine ⟨⟨rotated.events, rotated.bound⟩, rotated.secrets, fun p mem control => ?_,
      rotated.challenged⟩
    rcases mem_append.1 mem with mem | mem
    · exact rotated.packets p mem control
    · cases mem_singleton.1 mem
      exact ⟨_, prefix_rfl, rotated.secrets⟩
  · refine ⟨⟨traced.events, traced.bound⟩, traced.secrets, fun p mem control => ?_, traced.challenged⟩
    rcases mem_append.1 mem with mem | mem
    · exact traced.packets p mem control
    · cases mem_singleton.1 mem
      cases control

def Server.record (s : Server) (p : Nat) (e : ServerEndpoint) (event : Event) : Server :=
  { s with endpoints := s.endpoints.set p e, events := s.events ++ [event] }

theorem boundAddr_set (here : s.endpoints[p]? = some e) (q : Nat) (i : Fin 2) :
    { s with endpoints := s.endpoints.set p e', events }.boundAddr q i =
      if q = p then e'.boundAddrPorts i else s.boundAddr q i := by
  dsimp only [boundAddr]
  by_cases at_ : q = p
  · rw [at_, getElem?_set_self (List.getElem?_eq_some_iff.1 here).1, if_pos rfl]
    rfl
  · rw [getElem?_set_ne (Ne.symm at_), if_neg at_]

theorem boundAddr_eq (here : s.endpoints[p]? = some e) (i : Fin 2) :
    s.boundAddr p i = e.boundAddrPorts i := by
  rw [boundAddr, here]
  rfl

structure Records (p : Nat) (e e' : ServerEndpoint) (event : Event) : Prop where
  identity : e'.identity = e.identity
  secrets : ∀ events, rotated (events ++ [event]) = rotated events
  bound : ∀ i, e'.boundAddrPorts i = (event.boundTo p i).or (e.boundAddrPorts i)
  elsewhere : ∀ q i, q ≠ p → event.boundTo q i = none
  challenged : ∀ q c, event = .challenged q c → q = p ∧ e.vni = c.vni ∧
    e.discoPubKeys.get (otherSender c.index) = c.remoteKey

theorem Traced.record (traced : Traced s)
    (here : s.endpoints[p]? = some e) (records : Records p e e' event)
    (allowed : Allowed s s.events event) : Traced (s.record p e' event) := by
  have identity : (s.record p e' event).identity = s.identity := identity_set here records.identity
  constructor
  case toSafe =>
    constructor
    · refine each_concat.2 ?_
      exact ⟨traced.events.imp fun _ _ => Allowed.mono (.of_eq identity), allowed.mono (.of_eq identity)⟩
    · intro q i
      rw [Server.record, lastBound_concat, boundAddr_set here, ← traced.bound]
      by_cases at_ : q = p
      · rw [if_pos at_, at_, boundAddr_eq here]
        exact records.bound i
      · rw [if_neg at_, records.elsewhere q i at_]
        rfl
  case secrets =>
    rw [Server.record, records.secrets]
    exact traced.secrets
  case packets => exact fun q mem control => (traced.packets q mem control).concat _
  case challenged =>
    intro q c mem
    rw [identity]
    rcases mem_append.1 mem with mem | mem
    · exact traced.challenged q c mem
    · obtain ⟨rfl, vni, peer⟩ := records.challenged q c (mem_singleton.1 mem).symm
      exact ⟨_, identity_of_getElem? here, vni, peer⟩

theorem get_of_peer {pair : SortedPairOfDiscoPublic} {i j : Fin 2}
    (same : pair.get (otherSender i) = pair.get (otherSender j)) : pair.get i = pair.get j := by
  match i, j with
  | 0, 0 => rfl
  | 0, 1 => exact same.symm
  | 1, 0 => exact same.symm
  | 1, 1 => rfl

section Crypto
variable [Crypto]

def Unforged (s : Server) : Op → Prop
  | .handle j => ∀ p e i m, s.packets[j]? = some p → p.control = true →
      s.endpoints[p.endpoint]? = some e →
      e.openDisco (p.b.drop geneveFixedHeaderLength) = some (i, .answer m) →
      ∀ secret ∈ p.macSecrets, Crypto.mac secret (bindInput p.src m) = m.challenge →
      ∃ q c, .challenged q c ∈ s.events ∧ c.secret = secret ∧
        bindInput c.dst c.common = bindInput p.src m
  | _ => True

section
variable (reg : Registered s) (traced : Traced s)
include reg traced

theorem answered_of_challenged (here : s.endpoints[p]? = some e) (opened : e.closed = false) {i : Fin 2} {m : BindCommon}
    (valid : e.validVNIAndRemoteKey i m = true) {a : AddrPort} {q : Nat} {c : Challenge}
    (mem : .challenged q c ∈ s.events) (same : bindInput c.dst c.common = bindInput a m)
    (secret : c.secret ∈ macSecrets) : Answered s s.events p i a m.generation macSecrets := by
  obtain ⟨f, atQ, vni, peer⟩ := traced.challenged q c mem
  obtain ⟨dst, sameVNI, generation, remoteKey⟩ := bindInput_injective same
  simp only [ServerEndpoint.validVNIAndRemoteKey, Bool.and_eq_true, decide_eq_true_eq] at valid
  obtain ⟨validVNI, validKey⟩ := valid
  have atP := identity_of_getElem? here
  have vni_eq : c.vni = e.vni := Eq.trans sameVNI validVNI
  have peer_eq : f.pair.get (otherSender c.index) = e.identity.pair.get (otherSender i) :=
    (peer.trans remoteKey).trans validKey
  refine ⟨_, q, f, c, atP, atQ, mem, dst, vni_eq, generation, secret, vni.trans vni_eq, peer_eq, ?_⟩
  rcases Nat.lt_trichotomy q p with earlier | rfl | later
  · exact .inr ⟨earlier, reg.retired q p f _ atQ atP earlier (vni.trans vni_eq)⟩
  · cases atP.symm.trans atQ
    exact .inl (get_of_peer peer_eq)
  · have closed := reg.retired p q _ f atP atQ later (vni.trans vni_eq).symm
    rw [ServerEndpoint.identity, opened] at closed
    cases closed

theorem Traced.handle {p : Packet} (current : p.control = true → Current s.events p.macSecrets)
    (unforged : ∀ e i m, p.control = true → s.endpoints[p.endpoint]? = some e →
      e.openDisco (p.b.drop geneveFixedHeaderLength) = some (i, .answer m) →
      ∀ secret ∈ p.macSecrets, Crypto.mac secret (bindInput p.src m) = m.challenge →
      ∃ q c, .challenged q c ∈ s.events ∧ c.secret = secret ∧
        bindInput c.dst c.common = bindInput p.src m) : Traced (s.handle p) := by
  unfold Server.handle
  split
  · exact traced
  next e here =>
    have handles := handles_packetEffect p e
    generalize packetEffect p e = r at handles
    cases handles with
    | drop =>
      have same : s.endpoints.set p.endpoint e = s.endpoints := by
        obtain ⟨inside, rfl⟩ := List.getElem?_eq_some_iff.1 here
        exact set_getElem_self inside
      dsimp only [Effect.events]
      rw [same, append_nil]
      exact traced
    | @challenge =>
      refine traced.record here ⟨rfl, fun events => by simp [rotated], fun _ => rfl,
        fun _ _ _ => rfl, ?_⟩ trivial
      rintro q c ⟨⟩
      exact ⟨rfl, rfl, rfl⟩
    | @bind i m secret control opened answer valid mem mac =>
      obtain ⟨q, c, sent, rfl, same⟩ := unforged e i m control here answer secret mem mac
      refine traced.record here ⟨rfl, fun events => by simp [rotated], ?_, ?_, nofun⟩
        ⟨current control, answered_of_challenged reg traced here opened valid sent same mem⟩
      · intro j
        by_cases at_ : j = i
        · simp [Event.boundTo, at_]
        · simp [Event.boundTo, at_, Ne.symm at_]
      · intro q j other
        exact if_neg fun both => other both.1.symm
    | @forward i _ from_ to_ =>
      refine traced.record here ⟨rfl, fun events => by simp [rotated], fun _ => rfl,
        fun _ _ _ => rfl, nofun⟩ ⟨i, ?_, ?_⟩
      · rw [← traced.bound, boundAddr_eq here, from_]
      · rw [← traced.bound, boundAddr_eq here, to_]

theorem Traced.step {op : Op} (unforged : Unforged s op)
    (taken : s.step op = some s') : Traced s' := by
  cases op with
  | allocateEndpoint discoA discoB now =>
    cases taken
    exact traced.quiet (reg.quiet_allocateEndpoint discoA discoB now)
  | endpointGC now =>
    cases taken
    exact traced.quiet (quiet_endpointGC s now)
  | close =>
    cases taken
    exact traced.quiet (quiet_close s)
  | setAddrPorts =>
    cases taken
    exact traced.quiet ⟨.of_eq rfl, rfl, rfl, rfl, rfl⟩
  | receive src b now fresh =>
    cases taken
    exact traced.receive src b now fresh
  | handle =>
    obtain ⟨p, at_, rfl⟩ := Option.map_eq_some_iff.1 taken
    have mem := mem_of_getElem? at_
    apply Traced.handle
    · exact { reg with }
    · exact ⟨⟨traced.events, traced.bound⟩, traced.secrets,
        fun q mem => traced.packets q (mem_of_mem_eraseIdx mem), traced.challenged⟩
    · exact traced.packets p mem
    · exact fun e i m => unforged p e i m at_

end

theorem safe_of_run {k : DiscoPublic} {ops : List Op} (run : Run Server.step (newServer k) ops s)
    (unforged : Throughout Server.step Unforged (newServer k) ops) : Safe s := by
  suffices Traced s from this.toSafe
  induction run with
  | refl => exact newServer_traced k
  | snoc before taken ih =>
    obtain ⟨earlier, now⟩ := (throughout_snoc before).1 unforged
    exact (ih earlier).step ((newServer_registered k).run before) now taken

end Crypto

end ScaleTail.Relay
