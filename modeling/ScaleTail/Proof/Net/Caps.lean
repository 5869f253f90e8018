import ScaleTail.Proof.Net.Verdict

/-! # Sources by capability -/

namespace ScaleTail.Net

open Flowtrack List

/-- The rule with the addresses that have one of its capabilities in place of the capabilities.
`addrs` lists the addresses that have any. -/
def Match.expandCaps (hasCap : CapTestFunc) (addrs : List Addr) (m : Match) : Match :=
  { m with
    srcs := m.srcs ++ (addrs.filter fun a => m.srcCaps.any (hasCap a)).map Prefix.single
    srcCaps := [] }

def Parsed.Decoded (q : Parsed) : Prop :=
  q.ipProto ≠ .unknown → q.FamilyMatches ∧ 20 ≤ q.b.length

/-- The packet reaches a matcher that does not treat capabilities like addresses: the one for ICMP
does not look at the destination, the one for other protocols does not look at capabilities. -/
def CapsDiverge (ms : List Match) (hasCap : CapTestFunc) (localNets : Option (List Prefix))
    (q : Parsed) : Prop :=
  (q.ipProto ≠ .unknown ∧ q.ipProto ≠ .fragment ∧ ¬ q.Unroutable ∧
    LocalTo localNets q.dst.addr) ∧
  (((q.ipProto = q.ownICMP ∧ ¬ (q.isEchoResponse ∨ q.isError)) ∧
      (∃ m ∈ ms, m.HasCap (some hasCap) q.src.addr ∧ ∃ d ∈ m.dsts, q.SameFamily d.net) ∧
      ¬ ∃ m ∈ ms, (m.SrcIn q.src.addr ∨ m.HasCap (some hasCap) q.src.addr) ∧
        m.DstIn q.dst.addr) ∨
    (q.OtherProto q.ownICMP ∧
      (∃ m ∈ ms, q.ipProto ∈ m.ipProto ∧ m.HasCap (some hasCap) q.src.addr ∧
        m.DstAllPorts q.dst.addr) ∧
      ¬ ∃ m ∈ ms, q.ipProto ∈ m.ipProto ∧ m.SrcIn q.src.addr ∧ m.DstAllPorts q.dst.addr))

theorem expandCaps_srcIn {hasCap : CapTestFunc} {addrs : List Addr}
    (finite : ∀ a c, hasCap a c → a ∈ addrs) (m : Match) (a : Addr) :
    (m.expandCaps hasCap addrs).SrcIn a ↔ m.SrcIn a ∨ m.HasCap (some hasCap) a := by
  unfold Match.SrcIn Match.HasCap Match.expandCaps
  simp only [mem_append, or_and_right, exists_or, mem_map, mem_filter]
  refine or_congr_right ⟨?_, ?_⟩
  · rintro ⟨p, ⟨b, ⟨-, cap⟩, rfl⟩, inside⟩
    obtain rfl := (Prefix.contains_single b a).1 inside
    exact ⟨hasCap, rfl, by simpa using cap⟩
  · rintro ⟨test, same, c, mem, cap⟩
    obtain rfl := Option.some.inj same
    refine ⟨_, ⟨a, ⟨finite a c cap, ?_⟩, rfl⟩, (Prefix.contains_single a a).2 rfl⟩
    exact any_eq_true.2 ⟨c, mem, cap⟩

theorem expandCaps_hasCap (hasCap : CapTestFunc) (addrs : List Addr) (m : Match)
    (test : Option CapTestFunc) (a : Addr) : ¬ (m.expandCaps hasCap addrs).HasCap test a :=
  fun cap => cap.ne_nil rfl

theorem passes_congr {q : Parsed} {icmp : Proto} (known : IsICMP icmp) {flows : Cache Unit} {A A' B C C' : Prop} :
    (Passes icmp flows q A B C ↔ Passes icmp flows q A' B C') ↔
      (q.ipProto = icmp ∧ ¬ (q.isEchoResponse ∨ q.isError) → (A ↔ A')) ∧
        (q.OtherProto icmp → (C ↔ C')) := by
  obtain ⟨h₁, h₂, h₃, h₄⟩ := known
  unfold Passes
  by_cases icmpCase : q.ipProto = icmp
  · have other : ¬ q.OtherProto icmp := fun h => h.1 icmpCase
    simp only [icmpCase, h₁, h₂, h₃, h₄, other]
    by_cases reply : q.isEchoResponse ∨ q.isError <;> simp [reply]
  · by_cases other : q.OtherProto icmp
    · obtain ⟨-, tcp, udp, sctp, tsmp⟩ := other
      have other : q.OtherProto icmp := ⟨icmpCase, tcp, udp, sctp, tsmp⟩
      simp [icmpCase, tcp, udp, sctp, tsmp, other]
    · simp [icmpCase, other]

theorem agree_iff {icmp other few more ports portsByCap : Prop} :
    ((icmp → (few ∨ more ↔ few)) ∧ (other → (ports ↔ ports ∨ portsByCap))) ↔
      ¬ (icmp ∧ more ∧ ¬ few ∨ other ∧ portsByCap ∧ ¬ ports) := by
  tauto

section
variable {ms : List Match} {hasCap : CapTestFunc} {addrs : List Addr} {q : Parsed}

section
variable (finite : ∀ a c, hasCap a c → a ∈ addrs)
include finite

theorem expandCaps_ipsOnly (test : Option CapTestFunc) :
    ((∃ m ∈ ms.map (·.expandCaps hasCap addrs), m.SrcIn q.src.addr ∧ m.DstIn q.dst.addr) ∨
      ∃ m ∈ ms.map (·.expandCaps hasCap addrs), m.HasCap test q.src.addr ∧
        ∃ d ∈ m.dsts, q.SameFamily d.net) ↔
      ∃ m ∈ ms, (m.SrcIn q.src.addr ∨ m.HasCap (some hasCap) q.src.addr) ∧
        m.DstIn q.dst.addr := by
  simp only [mem_map, exists_exists_and_eq_and, expandCaps_srcIn finite, expandCaps_hasCap,
    false_and, and_false, exists_false, or_false]
  rfl

theorem expandCaps_rules (test : Option CapTestFunc) :
    (∃ m ∈ ms.map (·.expandCaps hasCap addrs), q.ipProto ∈ m.ipProto ∧
      (m.SrcIn q.src.addr ∨ m.HasCap test q.src.addr) ∧ m.DstPortIn q.dst) ↔
      ∃ m ∈ ms, q.ipProto ∈ m.ipProto ∧
        (m.SrcIn q.src.addr ∨ m.HasCap (some hasCap) q.src.addr) ∧ m.DstPortIn q.dst := by
  simp only [mem_map, exists_exists_and_eq_and, expandCaps_srcIn finite, expandCaps_hasCap, or_false]
  rfl

theorem expandCaps_allPorts :
    (∃ m ∈ ms.map (·.expandCaps hasCap addrs), q.ipProto ∈ m.ipProto ∧ m.SrcIn q.src.addr ∧
      m.DstAllPorts q.dst.addr) ↔
      ∃ m ∈ ms, q.ipProto ∈ m.ipProto ∧
        (m.SrcIn q.src.addr ∨ m.HasCap (some hasCap) q.src.addr) ∧ m.DstAllPorts q.dst.addr := by
  simp only [mem_map, exists_exists_and_eq_and, expandCaps_srcIn finite]
  rfl

end

theorem sameFamily_of_dstIn (family : q.FamilyMatches) {m : Match} (dst : m.DstIn q.dst.addr) :
    ∃ d ∈ m.dsts, q.SameFamily d.net := by
  obtain ⟨d, mem, inside⟩ := dst
  refine ⟨d, mem, ?_⟩
  unfold Parsed.SameFamily
  rcases family with ⟨version, -, dst⟩ | ⟨version, -, dst⟩
  · rw [version, if_pos rfl, IsFamily.four.agree inside]
    exact dst
  · rw [version, if_neg (by decide), IsFamily.six.agree inside]
    exact dst

theorem runInVersion_expandCaps [BartLite] {localNets : Option (List Prefix)}
    {share : Option Filter} {test : Option CapTestFunc} (finite : ∀ a c, hasCap a c → a ∈ addrs)
    (family : q.FamilyMatches) (known : q.ipProto ≠ .unknown) (notFragment : q.ipProto ≠ .fragment)
    (routable : ¬ q.Unroutable) :
    (((Filter.new ms (some hasCap) localNets share).runInVersion q).1 = .accept ↔
      ((Filter.new (ms.map (·.expandCaps hasCap addrs)) test localNets share).runInVersion q).1 =
        .accept) ↔ ¬ CapsDiverge ms hasCap localNets q := by
  rw [runInVersion_new family, runInVersion_new family, expandCaps_ipsOnly finite,
    expandCaps_rules finite, expandCaps_allPorts finite]
  by_cases here : LocalTo localNets q.dst.addr
  · have icmp : ((∃ m ∈ ms, m.SrcIn q.src.addr ∧ m.DstIn q.dst.addr) ∨
        ∃ m ∈ ms, m.HasCap (some hasCap) q.src.addr ∧ ∃ d ∈ m.dsts, q.SameFamily d.net) ↔
        (∃ m ∈ ms, (m.SrcIn q.src.addr ∨ m.HasCap (some hasCap) q.src.addr) ∧
          m.DstIn q.dst.addr) ∨
        ∃ m ∈ ms, m.HasCap (some hasCap) q.src.addr ∧ ∃ d ∈ m.dsts, q.SameFamily d.net := by
      constructor
      · rintro (⟨m, hm, src, dst⟩ | byCap)
        · exact .inl ⟨m, hm, .inl src, dst⟩
        · exact .inr byCap
      · rintro (⟨m, hm, src | cap, dst⟩ | byCap)
        · exact .inl ⟨m, hm, src, dst⟩
        · exact .inr ⟨m, hm, cap, sameFamily_of_dstIn family dst⟩
        · exact .inr byCap
    have other : (∃ m ∈ ms, q.ipProto ∈ m.ipProto ∧
        (m.SrcIn q.src.addr ∨ m.HasCap (some hasCap) q.src.addr) ∧ m.DstAllPorts q.dst.addr) ↔
        (∃ m ∈ ms, q.ipProto ∈ m.ipProto ∧ m.SrcIn q.src.addr ∧ m.DstAllPorts q.dst.addr) ∨
        ∃ m ∈ ms, q.ipProto ∈ m.ipProto ∧ m.HasCap (some hasCap) q.src.addr ∧
          m.DstAllPorts q.dst.addr := by
      constructor
      · rintro ⟨m, hm, proto, src | cap, dst⟩
        · exact .inl ⟨m, hm, proto, src, dst⟩
        · exact .inr ⟨m, hm, proto, cap, dst⟩
      · rintro (⟨m, hm, proto, src, dst⟩ | ⟨m, hm, proto, cap, dst⟩)
        · exact ⟨m, hm, proto, .inl src, dst⟩
        · exact ⟨m, hm, proto, .inr cap, dst⟩
    rw [icmp, other]
    rw [and_iff_right here, and_iff_right here, CapsDiverge,
      and_iff_right ⟨known, notFragment, routable, here⟩]
    exact (passes_congr (IsICMP.own q)).trans agree_iff
  · simp [CapsDiverge, here]

end

/-- Capabilities count like the addresses that have them exactly when the packet does not reach a
matcher that treats them otherwise. -/
theorem runIn_expandCaps_iff [BartLite] (ms : List Match) {hasCap : CapTestFunc} {addrs : List Addr}
    (finite : ∀ a c, hasCap a c → a ∈ addrs) (localNets : Option (List Prefix))
    (share : Option Filter) {q : Parsed} (decoded : q.Decoded) :
    ((Filter.new ms (some hasCap) localNets share).runIn q).1 =
      ((Filter.new (ms.map (·.expandCaps hasCap addrs)) (some hasCap) localNets share).runIn q).1 ↔
      ¬ CapsDiverge ms hasCap localNets q := by
  by_cases undecided : (q.ipProto ≠ .unknown ∧ q.ipProto ≠ .fragment) ∧ ¬ q.Unroutable
  · obtain ⟨⟨known, notFragment⟩, routable⟩ := undecided
    obtain ⟨family, whole⟩ := decoded known
    rw [Filter.runIn_eq_iff rfl rfl, Filter.runIn_accept whole notFragment rfl rfl,
      Filter.runIn_accept whole notFragment rfl rfl, and_iff_right known, and_iff_right known,
      and_iff_right routable, and_iff_right routable]
    exact runInVersion_expandCaps finite family known notFragment routable
  · have same : ¬ CapsDiverge ms hasCap localNets q :=
      fun ⟨⟨known, notFragment, routable, _⟩, _⟩ => undecided ⟨⟨known, notFragment⟩, routable⟩
    refine iff_of_true ?_ same
    have decided : ∀ {f : Filter}, f.linkLocalAllowHooks = [] → (f.pre q).1 ≠ .noVerdict :=
      fun noHooks open' => undecided (Filter.of_pre_noVerdict noHooks open')
    rw [Filter.runIn_of_decided (decided rfl), Filter.runIn_of_decided (decided rfl)]
    rfl

namespace Sample

attribute [local instance] bart

def hasCap : CapTestFunc := fun a c => a = ip 100 64 0 1 ∧ c = "admin"

theorem hasCap_finite (a : Addr) (c : NodeCapability) (cap : hasCap a c) : a ∈ [ip 100 64 0 1] := by
  have both : a = ip 100 64 0 1 ∧ c = "admin" := by simpa [hasCap] using cap
  exact mem_singleton.2 both.1

/-- Hosts with the capability may reach one destination on all ports, by TCP and by GRE. -/
def admin : Match where
  ipProto := [.tcp, 0x2f]
  srcs := []
  srcsContains := IPSet.emptySet
  srcCaps := ["admin"]
  dsts := [⟨.single (ip 100 64 0 2), .allPorts⟩]

def echoRequest : Parsed :=
  packet .icmpv4 (List.replicate 20 0 ++ 8 :: List.replicate 19 0) 0 (ip 100 64 0 9)

def gre : Parsed := packet 0x2f zeros 0 (ip 100 64 0 2)

/-- The echo request goes to an address that no rule names and is let in; the GRE packet goes to the
address its rule names and is dropped. With the address in place of the capability it is the other
way round. -/
theorem runIn_caps_differ :
    ((Filter.new [admin] (some hasCap) (some everywhere) none).runIn echoRequest).1 = .accept ∧
    ((Filter.new ([admin].map (·.expandCaps hasCap [ip 100 64 0 1])) (some hasCap)
      (some everywhere) none).runIn echoRequest).1 = .drop ∧
    ¬ admin.DstIn echoRequest.dst.addr ∧
    ((Filter.new [admin] (some hasCap) (some everywhere) none).runIn gre).1 = .drop ∧
    ((Filter.new ([admin].map (·.expandCaps hasCap [ip 100 64 0 1])) (some hasCap)
      (some everywhere) none).runIn gre).1 = .accept := by
  refine ⟨by decide, by decide, ?_, by decide, by decide⟩
  rintro ⟨dst, mem, inside⟩
  obtain rfl := mem_singleton.1 mem
  exact absurd inside (by decide)

theorem runIn_expandCaps_syn :
    ((Filter.new [admin] (some hasCap) (some everywhere) none).runIn syn).1 =
      ((Filter.new ([admin].map (·.expandCaps hasCap [ip 100 64 0 1])) (some hasCap)
        (some everywhere) none).runIn syn).1 := by
  have decoded : syn.Decoded := fun _ => ⟨.inl ⟨rfl, rfl, rfl⟩, by decide⟩
  refine (runIn_expandCaps_iff [admin] hasCap_finite (some everywhere) none decoded).2 ?_
  rintro ⟨-, ⟨⟨icmp, -⟩, -⟩ | ⟨⟨-, tcp, -⟩, -⟩⟩
  · exact absurd icmp (by decide)
  · exact tcp rfl

end Sample

end ScaleTail.Net
