import ScaleTail.Net.Decode
import ScaleTail.Proof.Net.Verdict

/-! # Verdicts and the packets before -/

namespace ScaleTail.Net

open Flowtrack List Parsed

def Proto.hasPorts (proto : Proto) : Bool := proto = .tcp ∨ proto = .udp ∨ proto = .sctp

namespace Parsed

def unspecified : AddrPort := ⟨.v4 0, 0⟩

def valid (q : Parsed) : Parsed :=
  if q.ipProto = .unknown then
    { q with subofs := 0, src := unspecified, dst := unspecified, tcpFlags := 0 }
  else
    { q with
      src := ⟨q.src.addr, if q.ipProto.hasPorts then q.src.port else 0⟩
      dst := ⟨q.dst.addr, if q.ipProto.hasPorts then q.dst.port else 0⟩
      tcpFlags := if q.ipProto = .tcp then q.tcpFlags else 0 }

variable {q : Parsed}

@[simp]
theorem valid_b : q.valid.b = q.b := by
  unfold valid
  split_ifs <;> rfl

@[simp]
theorem valid_ipVersion : q.valid.ipVersion = q.ipVersion := by
  unfold valid
  split_ifs <;> rfl

@[simp]
theorem valid_ipProto : q.valid.ipProto = q.ipProto := by
  unfold valid
  split_ifs <;> rfl

section
variable (known : q.ipProto ≠ .unknown)
include known

theorem valid_known : q.valid = { q with
      src := ⟨q.src.addr, if q.ipProto.hasPorts then q.src.port else 0⟩
      dst := ⟨q.dst.addr, if q.ipProto.hasPorts then q.dst.port else 0⟩
      tcpFlags := if q.ipProto = .tcp then q.tcpFlags else 0 } :=
  if_neg known

theorem valid_src : q.valid.src.addr = q.src.addr := by
  rw [valid_known known]

theorem valid_dst : q.valid.dst.addr = q.dst.addr := by
  rw [valid_known known]

theorem valid_subofs : q.valid.subofs = q.subofs := by
  rw [valid_known known]

theorem valid_ports (ports : q.ipProto.hasPorts) :
    q.valid.src = q.src ∧ q.valid.dst = q.dst := by
  rw [valid_known known]
  simp [ports]

end

theorem valid_tcp (tcp : q.ipProto = .tcp) : q.valid = q := by
  rw [valid_known (by rw [tcp]; decide)]
  have ports : q.ipProto.hasPorts := by rw [tcp]; decide
  rw [if_pos ports, if_pos ports, if_pos tcp]

theorem valid_icmpHeader (known : q.ipProto ≠ .unknown) : q.valid.icmpHeader = q.icmpHeader := by
  unfold icmpHeader
  rw [valid_b, valid_subofs known]

end Parsed

namespace Buffer

variable {p q : Buffer} {unset unset' : Addr}

def Agree (p q : Buffer) : Prop :=
  ∀ unset unset', (p.parsed unset).valid = (q.parsed unset').valid

structure Headed (p q : Buffer) : Prop where
  b : p.b = q.b
  subofs : p.subofs = q.subofs
  ipVersion : p.ipVersion = q.ipVersion
  ipProto : p.ipProto = q.ipProto
  src : ∃ a, p.src.addr = some a ∧ q.src.addr = some a
  dst : ∃ a, p.dst.addr = some a ∧ q.dst.addr = some a

theorem agree_unknown (b : p.b = q.b) (version : p.ipVersion = q.ipVersion)
    (hp : p.ipProto = .unknown) (hq : q.ipProto = .unknown) : Agree p q := by
  intro unset unset'
  simp [valid, parsed, hp, hq, b, version]

theorem Agree.ite {p' q' : Buffer} {c : Prop} [Decidable c] (yes : c → Agree p q)
    (no : ¬ c → Agree p' q') : Agree (if c then p else p') (if c then q else q') := by
  by_cases h : c
  · rw [if_pos h, if_pos h]
    exact yes h
  · rw [if_neg h, if_neg h]
    exact no h

theorem if_congr_same {α : Type} {c : Prop} [Decidable c] {x y z : α} (same : c → x = y) :
    (if c then x else z) = if c then y else z := by
  by_cases h : c
  · rw [if_pos h, if_pos h, same h]
  · rw [if_neg h, if_neg h]

namespace Headed

theorem setUnknown (h : Headed p q) : Agree p.setUnknown q.setUnknown :=
  agree_unknown h.b h.ipVersion rfl rfl

theorem agree (h : Headed p q)
    (ports : p.ipProto.hasPorts → p.src.port = q.src.port ∧ p.dst.port = q.dst.port)
    (flags : p.ipProto = .tcp → p.tcpFlags = q.tcpFlags) : Agree p q := by
  intro unset unset'
  obtain ⟨src, hps, hqs⟩ := h.src
  obtain ⟨dst, hpd, hqd⟩ := h.dst
  have proto := h.ipProto
  have srcPort : (if q.ipProto.hasPorts then p.src.port else 0) =
      if q.ipProto.hasPorts then q.src.port else 0 :=
    if_congr_same fun has => (ports (proto ▸ has)).1
  have dstPort : (if q.ipProto.hasPorts then p.dst.port else 0) =
      if q.ipProto.hasPorts then q.dst.port else 0 :=
    if_congr_same fun has => (ports (proto ▸ has)).2
  have tcpFlags : (if q.ipProto = .tcp then p.tcpFlags else 0) =
      if q.ipProto = .tcp then q.tcpFlags else 0 :=
    if_congr_same fun tcp => flags (proto.trans tcp)
  unfold valid parsed RawAddrPort.read
  simp only [h.b, h.subofs, h.ipVersion, hps, hqs, hpd, hqd, srcPort, dstPort, tcpFlags, proto,
    Option.getD_some]

theorem portless (h : Headed p q) (tcp : p.ipProto ≠ .tcp) (udp : p.ipProto ≠ .udp)
    (sctp : p.ipProto ≠ .sctp) : Agree p q :=
  h.agree (fun ports => absurd ports (by simp [Proto.hasPorts, tcp, udp, sctp]))
    fun h => absurd h tcp

theorem fragment (h : Headed p q) :
    Agree { p with ipProto := .fragment } { q with ipProto := .fragment } :=
  have headed : Headed { p with ipProto := .fragment } { q with ipProto := .fragment } :=
    { h with ipProto := rfl }
  headed.portless (show Proto.fragment ≠ _ by decide) (show Proto.fragment ≠ _ by decide)
    (show Proto.fragment ≠ _ by decide)

theorem setPorts (h : Headed p q) (src dst : UInt16) (tcp : p.ipProto ≠ .tcp) :
    Agree (p.setPorts src dst) (q.setPorts src dst) :=
  agree { h with } (fun _ => ⟨rfl, rfl⟩)
    fun h => absurd h tcp

theorem dataofs {n m : Nat} (h : Agree p q) :
    Agree { p with dataofs := n } { q with dataofs := m } :=
  fun unset unset' => h unset unset'

variable (sub : List UInt8)

section
variable (h : Headed p q)
include h

theorem decodeICMP (n : Nat) (tcp : p.ipProto ≠ .tcp) :
    Agree (p.decodeICMP sub n) (q.decodeICMP sub n) := by
  exact .ite (fun _ => h.setUnknown) fun _ => dataofs (h.setPorts 0 0 tcp)

theorem decodeTCP : Agree (p.decodeTCP sub) (q.decodeTCP sub) := by
  apply Agree.ite (fun _ => h.setUnknown)
  intro _
  exact agree { h with } (fun _ => ⟨rfl, rfl⟩)
    fun _ => rfl

theorem decodeUDP (tcp : p.ipProto ≠ .tcp) :
    Agree (p.decodeUDP sub) (q.decodeUDP sub) := by
  exact .ite (fun _ => h.setUnknown) fun _ => dataofs (h.setPorts _ _ tcp)

theorem decodeSCTP (tcp : p.ipProto ≠ .tcp) :
    Agree (p.decodeSCTP sub) (q.decodeSCTP sub) := by
  exact .ite (fun _ => h.setUnknown) fun _ => h.setPorts _ _ tcp

theorem decodeTSMP (tsmp : p.ipProto = .tsmp) :
    Agree (p.decodeTSMP sub) (q.decodeTSMP sub) := by
  apply Agree.ite (fun _ => h.setUnknown)
  intro _
  apply dataofs
  apply h.portless <;> rw [tsmp] <;> decide

theorem decodeFirst4 (moreFrags : Bool) :
    Agree (p.decodeFirst4 sub moreFrags) (q.decodeFirst4 sub moreFrags) := by
  unfold Buffer.decodeFirst4
  rw [← h.ipProto]
  refine .ite (fun icmp => ?_) fun _ => .ite (fun igmp => ?_) fun _ => .ite (fun _ => ?_)
    fun tcp => .ite (fun _ => ?_) fun udp => .ite (fun _ => ?_) fun sctp => .ite (fun tsmp => ?_)
    fun _ => .ite (fun _ => ?_) fun _ => ?_
  · exact h.decodeICMP sub _ (by rw [icmp]; decide)
  · apply Agree.ite (fun _ => h.setUnknown)
    intro _
    apply h.portless <;> rw [igmp] <;> decide
  · exact h.decodeTCP sub
  · exact h.decodeUDP sub tcp
  · exact h.decodeSCTP sub tcp
  · exact .ite (fun _ => h.setUnknown) fun _ => h.decodeTSMP sub tsmp
  · exact h.setUnknown
  · exact h.portless tcp udp sctp

theorem decodeSub6 : Agree (p.decodeSub6 sub) (q.decodeSub6 sub) := by
  unfold Buffer.decodeSub6
  rw [← h.ipProto]
  refine .ite (fun icmp => ?_) fun _ => .ite (fun _ => ?_) fun tcp => .ite (fun _ => ?_)
    fun udp => .ite (fun _ => ?_) fun sctp => .ite (fun tsmp => ?_) fun _ => .ite (fun _ => ?_)
    fun _ => ?_
  · exact h.decodeICMP sub _ (by rw [icmp]; decide)
  · exact h.decodeTCP sub
  · exact h.decodeUDP sub tcp
  · exact h.decodeSCTP sub tcp
  · exact h.decodeTSMP sub tsmp
  · exact h.setUnknown
  · exact h.portless tcp udp sctp

end

end Headed

section
variable (b : List UInt8) (hb : p.b = q.b) (version : p.ipVersion = q.ipVersion)
include b hb version

theorem decode4_agree :
    Agree (p.decode4 b) (q.decode4 b) := by
  refine .ite (fun _ => agree_unknown hb rfl rfl rfl) fun _ => ?_
  refine .ite (fun _ => agree_unknown hb version rfl rfl) fun _ => ?_
  have headed : Headed
      { p with
        ipProto := uint8At b 9, length := (uint16At b 2).toNat,
        src := p.src.withIP (ip4At b 12), dst := p.dst.withIP (ip4At b 16),
        subofs := ((uint8At b 0 &&& 0x0f) <<< 2).toNat }
      { q with
        ipProto := uint8At b 9, length := (uint16At b 2).toNat,
        src := q.src.withIP (ip4At b 12), dst := q.dst.withIP (ip4At b 16),
        subofs := ((uint8At b 0 &&& 0x0f) <<< 2).toNat } :=
    ⟨hb, rfl, version, rfl, ⟨_, rfl, rfl⟩, ⟨_, rfl, rfl⟩⟩
  refine .ite (fun _ => headed.setUnknown) fun _ => ?_
  refine .ite (fun _ => headed.decodeFirst4 _ _) fun _ => ?_
  exact .ite (fun _ => headed.setUnknown) fun _ => headed.fragment

theorem decode6_agree :
    Agree (p.decode6 b) (q.decode6 b) := by
  refine .ite (fun _ => agree_unknown hb rfl rfl rfl) fun _ => ?_
  refine .ite (fun _ => agree_unknown hb version rfl rfl) fun _ => ?_
  exact Headed.decodeSub6 _ ⟨hb, rfl, version, rfl, ⟨_, rfl, rfl⟩, ⟨_, rfl, rfl⟩⟩

end

theorem decode_agree (b : List UInt8) (p q : Buffer) : Agree (p.decode b) (q.decode b) := by
  refine .ite (fun _ => agree_unknown rfl rfl rfl rfl) fun _ => ?_
  refine .ite (fun _ => decode4_agree b rfl rfl) fun _ => ?_
  exact .ite (fun _ => decode6_agree b rfl rfl) fun _ => agree_unknown rfl rfl rfl rfl

end Buffer

def Filter.HooksReadValid (f : Filter) : Prop :=
  ∀ hook ∈ f.linkLocalAllowHooks ++ f.ingressAllowHooks, ∀ q : Parsed,
    q.ipProto ≠ .unknown → hook q.valid = hook q

theorem Conn25.installHooks_readValid (c : Conn25) {f : Filter} (hooks : f.HooksReadValid) :
    (c.installHooks f).HooksReadValid := by
  have filterAllow : ∀ q : Parsed, q.ipProto ≠ .unknown →
      c.packetFilterAllow q.valid = c.packetFilterAllow q := by
    intro q known
    simp only [packetFilterAllow, valid_src known, valid_dst known]
  have linkLocal : ∀ q : Parsed, q.ipProto ≠ .unknown →
      c.linkLocalAllow q.valid = c.linkLocalAllow q := by
    intro q known
    simp only [linkLocalAllow, valid_dst known]
  intro hook mem q known
  simp only [installHooks, mem_append, mem_cons, not_mem_nil, or_false] at mem
  rcases mem with (old | rfl | rfl) | old | rfl
  · exact hooks hook (mem_append_left _ old) q known
  · exact linkLocal q known
  · exact filterAllow q known
  · exact hooks hook (mem_append_right _ old) q known
  · exact filterAllow q known

section
variable {f : Filter} {q : Parsed}

theorem any_hooks_valid {hooks : List PacketMatch}
    (read : ∀ hook ∈ hooks, ∀ q : Parsed, q.ipProto ≠ .unknown → hook q.valid = hook q)
    (known : q.ipProto ≠ .unknown) : hooks.any (· q.valid) = hooks.any (· q) := by
  induction hooks with
  | nil => rfl
  | cons hook _ ih =>
    rw [any_cons, any_cons, read hook mem_cons_self q known,
      ih fun hook mem => read hook (mem_cons_of_mem _ mem)]

theorem pre_valid (hooks : f.HooksReadValid) : f.pre q.valid = f.pre q := by
  unfold Filter.pre
  rw [valid_b, valid_ipProto]
  by_cases unknown : q.ipProto = .unknown
  · simp only [if_pos unknown]
  have linkLocal : f.isAllowedLinkLocal q.valid = f.isAllowedLinkLocal q := by
    unfold Filter.isAllowedLinkLocal
    rw [valid_dst unknown,
      any_hooks_valid (fun hook mem => hooks hook (mem_append_left _ mem)) unknown]
  rw [valid_dst unknown, linkLocal]

section
variable (ms : List Match) (hasCap : Option CapTestFunc) (known : q.ipProto ≠ .unknown)
include ms hasCap known

theorem matchIPsOnly_valid : matchIPsOnly ms q.valid hasCap = matchIPsOnly ms q hasCap := by
  unfold matchIPsOnly
  rw [valid_src known, valid_dst known]

theorem matchRules_valid (ports : q.ipProto.hasPorts) :
    matchRules ms q.valid hasCap = matchRules ms q hasCap := by
  unfold matchRules
  rw [(valid_ports known ports).1, (valid_ports known ports).2, valid_ipProto]

end

theorem matchAllPorts_valid (ms : List Match) (known : q.ipProto ≠ .unknown) :
    matchProtoAndIPsOnlyIfAllPorts ms q.valid = matchProtoAndIPsOnlyIfAllPorts ms q := by
  unfold matchProtoAndIPsOnlyIfAllPorts
  rw [valid_src known, valid_dst known, valid_ipProto]

theorem runInFamily_valid (icmp : Proto) (isLocal : Addr → Bool) (ms : List Match)
    (known : q.ipProto ≠ .unknown) :
    Filter.runInFamily icmp isLocal ms f q.valid = Filter.runInFamily icmp isLocal ms f q := by
  have icmpHeader := valid_icmpHeader known
  by_cases tcp : q.ipProto = .tcp
  · rw [valid_tcp tcp]
  unfold Filter.runInFamily
  rw [valid_dst known, valid_ipProto, matchAllPorts_valid ms known,
    matchIPsOnly_valid ms _ known]
  unfold isEchoResponse isError
  rw [icmpHeader, valid_ipProto, if_neg tcp, if_neg tcp]
  by_cases udp : q.ipProto = .udp ∨ q.ipProto = .sctp
  · have ports : q.ipProto.hasPorts := decide_eq_true (.inr udp)
    rw [(valid_ports known ports).1, (valid_ports known ports).2]
    simp only [matchRules_valid ms _ known ports]
  · rw [if_neg udp, if_neg udp]

theorem pre_decided (unknown : q.ipProto = .unknown) :
    (f.pre q).1 = .accept ∨ (f.pre q).1 = .drop := by
  unfold Filter.pre
  split_ifs <;> simp

theorem runIn_valid (hooks : f.HooksReadValid) : f.runIn q.valid = f.runIn q := by
  have pre := pre_valid (q := q) hooks
  unfold Filter.runIn
  rw [pre]
  by_cases unknown : q.ipProto = .unknown
  · simp only [if_pos (pre_decided unknown)]
  have version : f.runInVersion q.valid = f.runInVersion q := by
    unfold Filter.runInVersion Filter.runIn4 Filter.runIn6
    rw [valid_ipVersion, runInFamily_valid _ _ _ unknown, runInFamily_valid _ _ _ unknown]
  have ingress : (f.runInVersion q).2.2.ingressAllowHooks = f.ingressAllowHooks := by
    rw [Filter.runInVersion_filter]
    split_ifs <;> rfl
  dsimp only
  rw [version, ingress,
    any_hooks_valid (fun hook mem => hooks hook (mem_append_right _ mem)) unknown]

theorem runOut_valid (hooks : f.HooksReadValid) : f.runOut q.valid = f.runOut q := by
  have pre := pre_valid (q := q) hooks
  unfold Filter.runOut
  rw [pre]
  by_cases unknown : q.ipProto = .unknown
  · simp only [if_pos (pre_decided unknown)]
  have flow : f.runOutFlow q.valid = f.runOutFlow q := by
    unfold Filter.runOutFlow
    rw [valid_ipProto]
    by_cases udp : q.ipProto = .udp ∨ q.ipProto = .sctp
    · have ports : q.ipProto.hasPorts := decide_eq_true (.inr udp)
      rw [if_pos udp, if_pos udp, (valid_ports unknown ports).1,
        (valid_ports unknown ports).2]
    · rw [if_neg udp, if_neg udp]
  rw [flow]

end

/-- The verdict for a packet, and the flows that are tracked after it, are those of the packet and
the filter. The value it is decoded into may hold anything, and so may an address that is unset. -/
theorem verdict_decode {f : Filter} (hooks : f.HooksReadValid) (b : List UInt8) (p q : Buffer)
    (unset unset' : Addr) :
    f.runIn ((p.decode b).parsed unset) = f.runIn ((q.decode b).parsed unset') ∧
      f.runOut ((p.decode b).parsed unset) = f.runOut ((q.decode b).parsed unset') := by
  have agree := Buffer.decode_agree b p q unset unset'
  constructor
  · rw [← runIn_valid hooks, agree, runIn_valid hooks]
  · rw [← runOut_valid hooks, agree, runOut_valid hooks]

/-! A packet without ports keeps those of the packet before it, and gets the same verdict. -/

namespace Sample

def udpPacket : List UInt8 :=
  [0x45, 0, 0, 28, 0, 0, 0, 0, 64, 17, 0, 0, 100, 64, 0, 1, 100, 64, 0, 2, 0, 53, 0, 53, 0, 8, 0, 0]

def igmpPacket : List UInt8 :=
  [0x45, 0, 0, 28, 0, 0, 0, 0, 64, 2, 0, 0, 100, 64, 0, 1, 100, 64, 0, 2, 0, 0, 0, 0, 0, 0, 0, 0]

def connector : Conn25 := ⟨true, fun _ => false, fun _ _ => true⟩

def connectorFilter : Filter :=
  connector.installHooks ⟨fun _ => false, fun _ => false, none, [], [], ⟨lruMax, []⟩, [], []⟩

theorem igmp_after_udp :
    (Buffer.zero.decode udpPacket).decode igmpPacket ≠ Buffer.zero.decode igmpPacket ∧
      connectorFilter.runIn (((Buffer.zero.decode udpPacket).decode igmpPacket).parsed (.v4 0)) =
        connectorFilter.runIn ((Buffer.zero.decode igmpPacket).parsed (.v4 0)) :=
  ⟨by decide, (verdict_decode (connector.installHooks_readValid (by simp [Filter.HooksReadValid]))
    igmpPacket _ _ _ _).1⟩

end Sample

theorem passes_tcpSyn {q : Parsed} (tcp : q.ipProto = .tcp) (flags : q.tcpFlags = tcpSyn)
    {flows : Cache Unit} {A B C : Prop} : Passes q.ownICMP flows q A B C ↔ B := by
  have syn : q.isTCPSyn := by rw [isTCPSyn, flags]; decide
  have other : Proto.tcp ≠ q.ownICMP := (IsICMP.own q).tcp.symm
  have distinct : Proto.tcp ≠ .tsmp ∧ Proto.tcp ≠ .udp ∧ Proto.tcp ≠ .sctp := by decide
  simp [Passes, OtherProto, tcp, syn, other, distinct]

section
open PeerAPIHandler
variable [BartLite] (ms : List Match) (capTest : Option CapTestFunc)
  (localNets : Option (List Prefix)) (share : Option Filter)

theorem checkTCP_accept {src dst : Addr} (family : src.is4 = dst.is4) (port : UInt16) :
    ((Filter.new ms capTest localNets share).checkTCP src dst port).1 = .accept ↔
      ¬ (dst.isMulticast ∨ dst.isLinkLocalUnicast ∧ dst ≠ Filter.gcpDNSAddr) ∧
      LocalTo localNets dst ∧ ∃ m ∈ ms, .tcp ∈ m.ipProto ∧
        (m.SrcIn src ∨ m.HasCap capTest src) ∧ m.DstPortIn ⟨dst, port⟩ := by
  have same : ¬ (src.is4 ∧ dst.is6 ∨ src.is6 ∧ src.is4) := by
    cases src <;> cases dst <;> simp_all [Addr.is4, Addr.is6]
  rw [Filter.checkTCP, Filter.check, if_neg same, Filter.runIn_accept
      (show 20 ≤ Filter.dummyPacket.length by decide) (show Proto.tcp ≠ .fragment by decide) rfl rfl,
    runInVersion_new (by cases src <;> cases dst <;> simp_all [FamilyMatches, Addr.is4, Addr.is6]),
    passes_tcpSyn (by rfl) (by simp)]
  exact and_iff_right (show Proto.tcp ≠ .unknown by decide)

/-- Who is not the owner gets answers exactly from a node that is an exit node or a connector, and
only if a rule lets TCP from there to the internet. -/
theorem replyToDNSQueries_iff (hasDNS isSelf exitNode connector : Bool) (remoteIP : Addr) :
    (PeerAPIHandler.mk hasDNS isSelf exitNode connector (some remoteIP)
      (some (Filter.new ms capTest localNets share))).replyToDNSQueries ↔
    hasDNS ∧ (isSelf ∨ (exitNode ∨ connector) ∧ LocalTo localNets (probe remoteIP) ∧
      ∃ m ∈ ms, .tcp ∈ m.ipProto ∧ (m.SrcIn remoteIP ∨ m.HasCap capTest remoteIP) ∧
        m.DstPortIn ⟨probe remoteIP, 53⟩) := by
  have family : remoteIP.is4 = (probe remoteIP).is4 := by cases remoteIP <;> rfl
  have routable : ¬ ((probe remoteIP).isMulticast ∨
      (probe remoteIP).isLinkLocalUnicast ∧ probe remoteIP ≠ Filter.gcpDNSAddr) := by
    unfold probe
    split_ifs <;> decide
  have verdict := checkTCP_accept ms capTest localNets share family 53
  rw [and_iff_right routable] at verdict
  rw [← verdict]
  cases hasDNS <;> cases isSelf <;> cases exitNode <;> cases connector <;>
    simp [replyToDNSQueries]

end

end ScaleTail.Net
