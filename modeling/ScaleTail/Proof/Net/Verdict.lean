import ScaleTail.Proof.Net.Rules

/-! # The verdict on inbound packets -/

namespace ScaleTail.Net

open Flowtrack List

def Flowtrack.Cache.keys {V : Type} (c : Cache V) : List Tuple := c.ll.map Prod.fst

theorem Flowtrack.Cache.get_isSome {V : Type} (c : Cache V) (t : Tuple) :
    (c.get t).1.isSome ↔ t ∈ c.keys := by
  have found : (c.ll.find? (·.1 = t)).isSome ↔ t ∈ c.keys := by
    rw [find?_isSome, Cache.keys, mem_map]
    simp
  rw [← found, Cache.get]
  cases c.ll.find? (·.1 = t) <;> rfl

namespace Parsed

def FamilyMatches (q : Parsed) : Prop :=
  q.ipVersion = 4 ∧ q.src.addr.is4 ∧ q.dst.addr.is4 ∨
    q.ipVersion = 6 ∧ q.src.addr.is6 ∧ q.dst.addr.is6

def ownICMP (q : Parsed) : Proto := if q.ipVersion = 4 then .icmpv4 else .icmpv6

def flow (q : Parsed) : Tuple := makeTuple q.ipProto q.src q.dst

def OtherProto (icmp : Proto) (q : Parsed) : Prop :=
  q.ipProto ≠ icmp ∧ q.ipProto ≠ .tcp ∧ q.ipProto ≠ .udp ∧ q.ipProto ≠ .sctp ∧ q.ipProto ≠ .tsmp

def Unroutable (q : Parsed) : Prop :=
  q.dst.addr.isMulticast ∨ q.dst.addr.isLinkLocalUnicast ∧ q.dst.addr ≠ Filter.gcpDNSAddr

end Parsed

def Passes (icmp : Proto) (flows : Cache Unit) (q : Parsed) (ipsOnly rules allPorts : Prop) : Prop :=
  q.ipProto = .tcp ∧ ¬ q.isTCPSyn ∨ q.ipProto = .tsmp ∨
    q.ipProto = icmp ∧ (q.isEchoResponse ∨ q.isError) ∨
    q.ipProto = icmp ∧ ipsOnly ∨
    (q.ipProto = .tcp ∧ q.isTCPSyn ∨ q.ipProto = .udp ∨ q.ipProto = .sctp) ∧
      ((q.ipProto = .udp ∨ q.ipProto = .sctp) ∧ q.flow ∈ flows.keys ∨ rules) ∨
    q.OtherProto icmp ∧ allPorts

structure IsICMP (icmp : Proto) : Prop where
  tcp : icmp ≠ .tcp
  udp : icmp ≠ .udp
  sctp : icmp ≠ .sctp
  tsmp : icmp ≠ .tsmp

theorem IsICMP.v4 : IsICMP .icmpv4 := ⟨by decide, by decide, by decide, by decide⟩

theorem IsICMP.v6 : IsICMP .icmpv6 := ⟨by decide, by decide, by decide, by decide⟩

theorem IsICMP.own (q : Parsed) : IsICMP q.ownICMP := by
  unfold Parsed.ownICMP
  split
  · exact .v4
  · exact .v6

theorem tcp_ne_flow : (Proto.tcp : Proto) ≠ .udp ∧ (Proto.tcp : Proto) ≠ .sctp ∧
    (Proto.tcp : Proto) ≠ .tsmp := by decide

theorem tsmp_ne_flow : (Proto.tsmp : Proto) ≠ .udp ∧ (Proto.tsmp : Proto) ≠ .sctp := by decide

namespace Filter

theorem runInFamily_accept {icmp : Proto} (known : IsICMP icmp) (isLocal : Addr → Bool)
    (ms : List Match) (f : Filter) (q : Parsed) :
    (runInFamily icmp isLocal ms f q).1 = .accept ↔ isLocal q.dst.addr ∧
      Passes icmp f.state q (matchIPsOnly ms q f.srcIPHasCap) (matchRules ms q f.srcIPHasCap)
        (matchProtoAndIPsOnlyIfAllPorts ms q) := by
  have cached := Cache.get_isSome f.state q.flow
  unfold Parsed.flow at cached
  unfold runInFamily Passes Parsed.OtherProto Parsed.flow
  by_cases here : isLocal q.dst.addr
  · by_cases icmpCase : q.ipProto = icmp
    · have h := known
      obtain ⟨h₁, h₂, h₃, h₄⟩ := h
      split_ifs with reply rules <;> simp_all
    by_cases tcp : q.ipProto = .tcp
    · obtain ⟨h₁, h₂, h₃⟩ := tcp_ne_flow
      split_ifs with reply rules <;> simp_all
    by_cases flow : q.ipProto = .udp ∨ q.ipProto = .sctp
    · have tsmp : q.ipProto ≠ .tsmp := by
        rintro same
        rw [same] at flow
        exact flow.elim tsmp_ne_flow.1 tsmp_ne_flow.2
      simp only [icmpCase, if_false, tcp, if_pos flow, tsmp, here]
      split_ifs with hit rules <;> simp_all
      tauto
    · by_cases tsmp : q.ipProto = .tsmp
      · simp only [icmpCase, if_false, tcp, if_neg flow, if_pos tsmp, here]
        simp [tsmp]
      · split_ifs with rules <;> simp_all
  · simp [here]

theorem runInFamily_filter {icmp : Proto} (known : IsICMP icmp) (isLocal : Addr → Bool)
    (ms : List Match) (f : Filter) (q : Parsed) :
    (runInFamily icmp isLocal ms f q).2.2 =
      if isLocal q.dst.addr ∧ (q.ipProto = .udp ∨ q.ipProto = .sctp) then
        { f with state := (f.state.get q.flow).2 }
      else f := by
  obtain ⟨-, h₂, h₃, -⟩ := known
  obtain ⟨h₁, h₄, -⟩ := tcp_ne_flow
  unfold runInFamily Parsed.flow
  by_cases here : isLocal q.dst.addr
  · rw [if_neg (by simpa using here)]
    by_cases icmpCase : q.ipProto = icmp
    · simp only [icmpCase, if_true, h₂, h₃, or_self, and_false, if_false]
      split_ifs <;> rfl
    by_cases tcp : q.ipProto = .tcp
    · simp only [tcp, if_true, if_false, h₁, h₄, or_self, and_false]
      split_ifs <;> rfl
    · simp only [icmpCase, tcp, if_false, here, true_and]
      by_cases flow : q.ipProto = .udp ∨ q.ipProto = .sctp
      · split_ifs <;> rfl
      · split_ifs <;> rfl
  · simp [here]

theorem runInFamily_cases (icmp : Proto) (isLocal : Addr → Bool) (ms : List Match) (f : Filter)
    (q : Parsed) : (runInFamily icmp isLocal ms f q).1 = .accept ∨
      (runInFamily icmp isLocal ms f q).1 = .noVerdict := by
  unfold runInFamily
  dsimp only
  split_ifs <;> simp

def isLocal (f : Filter) (q : Parsed) : Bool :=
  if q.ipVersion = 4 then f.local4 q.dst.addr
  else if q.ipVersion = 6 then f.local6 q.dst.addr
  else false

theorem runInVersion_filter (f : Filter) (q : Parsed) :
    (f.runInVersion q).2.2 = if f.isLocal q ∧ (q.ipProto = .udp ∨ q.ipProto = .sctp) then
      { f with state := (f.state.get q.flow).2 } else f := by
  unfold runInVersion isLocal
  split
  · exact runInFamily_filter .v4 _ _ _ _
  split
  · exact runInFamily_filter .v6 _ _ _ _
  · simp

section
variable {f : Filter} {q : Parsed}

theorem pre_drop (whole : 20 ≤ q.b.length) (noHooks : f.linkLocalAllowHooks = [])
    (bad : q.ipProto = .unknown ∨ q.Unroutable) : (f.pre q).1 = .drop := by
  have nonempty : q.b.length ≠ 0 := by omega
  unfold Parsed.Unroutable at bad
  unfold pre isAllowedLinkLocal
  split_ifs <;> simp_all

theorem pre_noVerdict (whole : 20 ≤ q.b.length) (notFragment : q.ipProto ≠ .fragment)
    (known : q.ipProto ≠ .unknown) (routable : ¬ q.Unroutable) : f.pre q = (.noVerdict, none) := by
  have nonempty : q.b.length ≠ 0 := by omega
  unfold Parsed.Unroutable at routable
  unfold pre isAllowedLinkLocal
  rw [if_neg nonempty, if_neg (Nat.not_lt.2 whole), if_neg known]
  split_ifs <;> simp_all

theorem of_pre_noVerdict (noHooks : f.linkLocalAllowHooks = [])
    (undecided : (f.pre q).1 = .noVerdict) :
    (q.ipProto ≠ .unknown ∧ q.ipProto ≠ .fragment) ∧ ¬ q.Unroutable := by
  unfold pre isAllowedLinkLocal at undecided
  unfold Parsed.Unroutable
  split_ifs at undecided
  simp_all
  assumption

theorem pre_cases (f : Filter) (q : Parsed) :
    (f.pre q).1 = .accept ∨ (f.pre q).1 = .drop ∨ (f.pre q).1 = .noVerdict := by
  unfold pre
  split_ifs <;> simp

theorem runIn_of_decided (decided : (f.pre q).1 ≠ .noVerdict) : f.runIn q = ((f.pre q).1, f) := by
  rcases pre_cases f q with h | h | h
  · simp [runIn, h]
  · simp [runIn, h]
  · exact absurd h decided

theorem runIn_of_pre (undecided : (f.pre q).1 = .noVerdict) (noHooks : f.ingressAllowHooks = []) :
    f.runIn q = (if (f.runInVersion q).1 = .noVerdict then .drop else (f.runInVersion q).1,
      (f.runInVersion q).2.2) := by
  have hooks : (f.runInVersion q).2.2.ingressAllowHooks = [] := by
    rw [runInVersion_filter]
    split_ifs <;> exact noHooks
  simp only [runIn, undecided, reduceCtorEq, or_self, if_false, hooks, any_nil]
  split_ifs <;> rfl

theorem runIn_cases (noHooks : f.ingressAllowHooks = []) :
    (f.runIn q).1 = .accept ∨ (f.runIn q).1 = .drop := by
  rcases pre_cases f q with h | h | h
  · exact .inl (by simp [runIn, h])
  · exact .inr (by simp [runIn, h])
  · rw [runIn_of_pre h noHooks]
    unfold runInVersion runIn4 runIn6
    by_cases four : q.ipVersion = 4
    · rw [if_pos four]
      rcases runInFamily_cases .icmpv4 f.local4 f.matches4 f q with h | h <;> simp [h]
    · by_cases six : q.ipVersion = 6
      · rw [if_neg four, if_pos six]
        rcases runInFamily_cases .icmpv6 f.local6 f.matches6 f q with h | h <;> simp [h]
      · simp [four, six]

theorem runIn_eq_iff {f' : Filter} (noHooks : f.ingressAllowHooks = [])
    (noHooks' : f'.ingressAllowHooks = []) : (f.runIn q).1 = (f'.runIn q).1 ↔
      ((f.runIn q).1 = .accept ↔ (f'.runIn q).1 = .accept) := by
  rcases runIn_cases (q := q) noHooks with h | h <;>
    rcases runIn_cases (q := q) noHooks' with h' | h' <;> simp [h, h']

theorem runIn_filter (noHooks : f.ingressAllowHooks = []) : (f.runIn q).2 =
    if (f.pre q).1 = .noVerdict ∧ f.isLocal q ∧ (q.ipProto = .udp ∨ q.ipProto = .sctp) then
      { f with state := (f.state.get q.flow).2 } else f := by
  by_cases undecided : (f.pre q).1 = .noVerdict
  · rw [runIn_of_pre undecided noHooks, runInVersion_filter]
    simp [undecided]
  · rw [runIn_of_decided undecided]
    simp [undecided]

theorem runIn_accept (whole : 20 ≤ q.b.length) (notFragment : q.ipProto ≠ .fragment)
    (noHooks : f.linkLocalAllowHooks = []) (noHooks' : f.ingressAllowHooks = []) :
    (f.runIn q).1 = .accept ↔ q.ipProto ≠ .unknown ∧ ¬ q.Unroutable ∧
      (f.runInVersion q).1 = .accept := by
  by_cases bad : q.ipProto = .unknown ∨ q.Unroutable
  · have dropped := pre_drop whole noHooks bad
    have : ¬ (q.ipProto ≠ .unknown ∧ ¬ q.Unroutable) := by tauto
    simp only [runIn, dropped, or_true, if_true, reduceCtorEq, false_iff]
    tauto
  · rw [not_or] at bad
    have undecided := pre_noVerdict (f := f) whole notFragment bad.1 bad.2
    rw [runIn_of_pre (by rw [undecided]) noHooks']
    split_ifs <;> simp_all

end

end Filter

def LocalTo (localNets : Option (List Prefix)) (a : Addr) : Prop :=
  ∃ nets, localNets = some nets ∧ ∃ p ∈ nets, p.contains a

section
variable [BartLite] {ms : List Match} {capTest : Option CapTestFunc}
  {localNets : Option (List Prefix)} {share : Option Filter} {q : Parsed} {a : Addr}

theorem local4_new (family : a.is4) :
    (Filter.new ms capTest localNets share).local4 a ↔ LocalTo localNets a := by
  cases localNets with
  | none => simp [Filter.new, LocalTo, IPSet.emptySet]
  | some =>
    simp only [Filter.new, partition_eq_filter_filter]
    rw [newContains_filter .four family]
    simp [LocalTo]

theorem local6_new (family : a.is6) :
    (Filter.new ms capTest localNets share).local6 a ↔ LocalTo localNets a := by
  cases localNets with
  | none => simp [Filter.new, LocalTo, IPSet.emptySet]
  | some nets =>
    have six : (nets.filter (not ∘ fun p => p.addr.is4)) = nets.filter (·.addr.is6) :=
      filter_congr fun p _ => (Addr.is6_eq_not_is4 p.addr).symm
    simp only [Filter.new, partition_eq_filter_filter, six]
    rw [newContains_filter .six family]
    simp [LocalTo]

def Parsed.SameFamily (q : Parsed) (p : Prefix) : Prop :=
  if q.ipVersion = 4 then p.addr.is4 else p.addr.is6

theorem runInVersion_new (family : q.FamilyMatches) :
    ((Filter.new ms capTest localNets share).runInVersion q).1 = .accept ↔
      LocalTo localNets q.dst.addr ∧
      Passes q.ownICMP (Filter.new ms capTest localNets share).state q
        ((∃ m ∈ ms, m.SrcIn q.src.addr ∧ m.DstIn q.dst.addr) ∨
          ∃ m ∈ ms, m.HasCap capTest q.src.addr ∧ ∃ d ∈ m.dsts, q.SameFamily d.net)
        (∃ m ∈ ms, q.ipProto ∈ m.ipProto ∧
          (m.SrcIn q.src.addr ∨ m.HasCap capTest q.src.addr) ∧ m.DstPortIn q.dst)
        (∃ m ∈ ms, q.ipProto ∈ m.ipProto ∧ m.SrcIn q.src.addr ∧ m.DstAllPorts q.dst.addr) := by
  unfold Filter.runInVersion Parsed.ownICMP Parsed.SameFamily
  rcases family with ⟨version, src, dst⟩ | ⟨version, src, dst⟩
  · simp only [version, if_true]
    rw [Filter.runIn4, Filter.runInFamily_accept .v4, local4_new dst,
      ← matchIPsOnly_family .four src dst, ← matchRules_family .four src dst,
      ← matchAllPorts_family .four src dst]
    rfl
  · have six : ¬ (6 : UInt8) = 4 := by decide
    simp only [version, six, if_true, if_false]
    rw [Filter.runIn6, Filter.runInFamily_accept .v6, local6_new dst,
      ← matchIPsOnly_family .six src dst, ← matchRules_family .six src dst,
      ← matchAllPorts_family .six src dst]
    rfl

def Admitted (ms : List Match) (flows : Cache Unit) (q : Parsed) : Prop :=
  Passes q.ownICMP flows q (∃ m ∈ ms, m.SrcIn q.src.addr ∧ m.DstIn q.dst.addr)
    (∃ m ∈ ms, q.ipProto ∈ m.ipProto ∧ m.SrcIn q.src.addr ∧ m.DstPortIn q.dst)
    (∃ m ∈ ms, q.ipProto ∈ m.ipProto ∧ m.SrcIn q.src.addr ∧ m.DstAllPorts q.dst.addr)

theorem runIn_accept_iff_admitted (noCaps : ∀ m ∈ ms, m.srcCaps = []) (family : q.FamilyMatches)
    (whole : 20 ≤ q.b.length) (notFragment : q.ipProto ≠ .fragment) :
    ((Filter.new ms capTest localNets share).runIn q).1 = .accept ↔
      ¬ q.Unroutable ∧ LocalTo localNets q.dst.addr ∧ q.ipProto ≠ .unknown ∧
        Admitted ms (Filter.new ms capTest localNets share).state q := by
  have none : ∀ m ∈ ms, ¬ m.HasCap capTest q.src.addr :=
    fun m hm cap => cap.ne_nil (noCaps m hm)
  have byCap : ¬ ∃ m ∈ ms, m.HasCap capTest q.src.addr ∧ ∃ d ∈ m.dsts, q.SameFamily d.net :=
    fun ⟨m, hm, cap, _⟩ => none m hm cap
  have rules : (∃ m ∈ ms, q.ipProto ∈ m.ipProto ∧
      (m.SrcIn q.src.addr ∨ m.HasCap capTest q.src.addr) ∧ m.DstPortIn q.dst) ↔
      ∃ m ∈ ms, q.ipProto ∈ m.ipProto ∧ m.SrcIn q.src.addr ∧ m.DstPortIn q.dst := by
    refine exists_congr fun m => and_congr_right fun hm => ?_
    rw [or_iff_left (none m hm)]
  rw [Filter.runIn_accept whole notFragment rfl rfl, runInVersion_new family, rules,
    or_iff_left byCap]
  constructor
  · rintro ⟨known, routable, here, passes⟩
    exact ⟨routable, here, known, passes⟩
  · rintro ⟨routable, here, known, passes⟩
    exact ⟨known, routable, here, passes⟩

end

namespace Sample

theorem table_contains (ps : List Prefix) (ip : Addr) :
    (ps.foldl (fun t p => p :: t) []).any (·.contains ip) = ps.any (·.contains ip) := by
  rw [foldl_flip_cons_eq_append, append_nil, any_reverse, map_id']

@[reducible]
def bart : BartLite := ⟨List Prefix, [], fun t p => p :: t, fun t ip => t.any (·.contains ip),
  table_contains⟩

attribute [local instance] bart

def ip (a b c d : Nat) : Addr := .v4 (BitVec.ofNat 32 (((a * 256 + b) * 256 + c) * 256 + d))

theorem ip_bits {a b c d n : Nat} (small : n ≤ 32) : n ≤ (ip a b c d).bitLen := small

def packet (proto : Proto) (b : List UInt8) (flags : UInt8) (dst : Addr) : Parsed :=
  ⟨b, 20, 4, proto, ⟨ip 100 64 0 1, 4000⟩, ⟨dst, 22⟩, flags⟩

def zeros : List UInt8 := List.replicate 40 0

def multicast : Parsed := packet .tcp zeros 0x10 (ip 224 0 0 1)

def foreignReply : Parsed :=
  packet .icmpv6 (List.replicate 20 0 ++ 129 :: List.replicate 19 0) 0 (ip 100 64 0 2)

def everywhere : List Prefix := [⟨ip 0 0 0 0, 0, ip_bits (by decide)⟩]

/-- Neither packet is let in, although the one is a TCP packet without SYN and the other an ICMP
response, both to local addresses. -/
theorem runIn_drops_local :
    ((Filter.new [] none (some everywhere) none).runIn multicast).1 = .drop ∧
      LocalTo (some everywhere) multicast.dst.addr ∧ multicast.FamilyMatches ∧
      multicast.ipProto = .tcp ∧ ¬ multicast.isTCPSyn ∧
    ((Filter.new [] none (some everywhere) none).runIn foreignReply).1 = .drop ∧
      LocalTo (some everywhere) foreignReply.dst.addr ∧ foreignReply.FamilyMatches ∧
      foreignReply.isEchoResponse := by
  have anywhere : ∀ a b c d, LocalTo (some everywhere) (ip a b c d) := by
    intro a b c d
    exact ⟨_, rfl, _, mem_singleton_self _, by simp [Prefix.contains, ip, BitVec.ushiftRight_eq_zero]⟩
  refine ⟨by decide, anywhere _ _ _ _, .inl ⟨rfl, rfl, rfl⟩, rfl, by decide, by decide,
    anywhere _ _ _ _, .inl ⟨rfl, rfl, rfl⟩, by decide⟩

def ssh : Match where
  ipProto := [.tcp]
  srcs := [.single (ip 100 64 0 1), ⟨ip 100 64 1 0, 24, ip_bits (by decide)⟩]
  srcsContains := IPSet.emptySet
  srcCaps := []
  dsts := [⟨.single (ip 100 64 0 2), ⟨22, 22⟩⟩]

def syn : Parsed := packet .tcp zeros 0x02 (ip 100 64 0 2)

theorem runIn_syn_iff_admitted :
    ((Filter.new [ssh] none (some everywhere) none).runIn syn).1 = .accept ↔
      ¬ syn.Unroutable ∧ LocalTo (some everywhere) syn.dst.addr ∧ syn.ipProto ≠ .unknown ∧
        Admitted [ssh] (Filter.new [ssh] none (some everywhere) none).state syn :=
  runIn_accept_iff_admitted (by simp [ssh]) (.inl ⟨rfl, rfl, rfl⟩) (by decide) (by decide)

end Sample

end ScaleTail.Net
