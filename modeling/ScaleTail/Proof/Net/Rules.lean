import ScaleTail.Net.Filter

/-! # What the rules of a packet filter mean -/

namespace ScaleTail.Net

namespace Prefix

theorem contains_of_single {p : Prefix} (one : p.isSingleIP) (ip : Addr) :
    p.contains ip ↔ ip = p.addr := by
  obtain ⟨addr, bits, le⟩ := p
  obtain rfl : bits = addr.bitLen := by simpa [isSingleIP] using one
  cases addr with
  | v4 =>
    cases ip with
    | v4 => simpa [contains, Addr.bitLen] using eq_comm
    | v6 => simp [contains]
  | v6 =>
    cases ip with
    | v4 => simp [contains]
    | v6 => simpa [contains, Addr.bitLen] using eq_comm

theorem contains_single (a ip : Addr) : (single a).contains ip ↔ ip = a :=
  contains_of_single (by simp [isSingleIP, single]) ip

theorem is4_of_contains {p : Prefix} {ip : Addr} (h : p.contains ip) : p.addr.is4 = ip.is4 := by
  unfold contains at h
  split at h
  next addr =>
    rw [addr]
    rfl
  next addr =>
    rw [addr]
    rfl
  · cases h

end Prefix

theorem Addr.is6_eq_not_is4 (a : Addr) : a.is6 = !a.is4 := by
  cases a <;> rfl

namespace IPSet

theorem newContainsIPFunc_eq [BartLite] (addrs : List Prefix) (ip : Addr) :
    newContainsIPFunc addrs ip = addrs.any (·.contains ip) := by
  unfold newContainsIPFunc
  split
  · split
    · simp
    · split
      · rfl
      · exact BartLite.contains_foldl addrs ip
  next singles =>
    have single : ∀ p ∈ addrs, p.isSingleIP := by simpa using singles
    have member : addrs.any (·.contains ip) = decide (ip ∈ addrs.map (·.addr)) := by
      rw [Bool.eq_iff_iff, List.any_eq_true, decide_eq_true_eq, List.mem_map]
      refine exists_congr fun p => and_congr_right fun hp => ?_
      rw [Prefix.contains_of_single (single p hp), eq_comm]
    rw [member]
    split <;> simp [emptySet, oneIP, twoIP, ipInMap]

end IPSet

namespace Match

def SrcIn (m : Match) (a : Addr) : Prop := ∃ p ∈ m.srcs, p.contains a

def HasCap (m : Match) (hasCap : Option CapTestFunc) (a : Addr) : Prop :=
  ∃ test, hasCap = some test ∧ ∃ c ∈ m.srcCaps, test a c

theorem HasCap.ne_nil {m : Match} {hasCap : Option CapTestFunc} {a : Addr}
    (h : m.HasCap hasCap a) : m.srcCaps ≠ [] := by
  obtain ⟨_, _, c, mem, _⟩ := h
  exact List.ne_nil_of_mem mem

def DstIn (m : Match) (a : Addr) : Prop := ∃ dst ∈ m.dsts, dst.net.contains a

def DstPortIn (m : Match) (a : AddrPort) : Prop :=
  ∃ dst ∈ m.dsts, dst.net.contains a.addr ∧ dst.ports.contains a.port

def DstAllPorts (m : Match) (a : Addr) : Prop :=
  ∃ dst ∈ m.dsts, dst.ports = .allPorts ∧ dst.net.contains a

end Match

theorem srcMatches_iff {m : Match} {a : Addr} {hasCap : Option CapTestFunc} :
    srcMatches m a hasCap ↔ m.srcsContains a ∨ m.HasCap hasCap a := by
  cases hasCap <;> simp [srcMatches, Match.HasCap]

structure IsFamily (keep : Addr → Bool) : Prop where
  agree : ∀ {p : Prefix} {ip : Addr}, p.contains ip → keep p.addr = keep ip

theorem IsFamily.four : IsFamily Addr.is4 := ⟨Prefix.is4_of_contains⟩

theorem IsFamily.six : IsFamily Addr.is6 := by
  refine ⟨fun h => ?_⟩
  rw [Addr.is6_eq_not_is4, Addr.is6_eq_not_is4, Prefix.is4_of_contains h]

section
variable [BartLite] {keep : Addr → Bool} {ms : List Match} {m m' : Match} {q : Parsed}
  {hasCap : Option CapTestFunc} {a : Addr}

theorem mem_matchesFamily : m' ∈ matchesFamily ms keep ↔
    ∃ m ∈ ms, matchFamily keep m = some m' := List.mem_filterMap

theorem matchFamily_eq_some (kept : matchFamily keep m = some m') :
    m' = ⟨m.ipProto, m.srcs.filter (keep ·.addr),
      IPSet.newContainsIPFunc (m.srcs.filter (keep ·.addr)), m.srcCaps,
      m.dsts.filter (keep ·.net.addr)⟩ ∧ ∃ dst ∈ m.dsts, keep dst.net.addr := by
  unfold matchFamily at kept
  dsimp only at kept
  split at kept
  next nonempty =>
    obtain ⟨dst, mem⟩ := List.exists_mem_of_length_pos nonempty.2
    rw [List.mem_filter] at mem
    exact ⟨(Option.some.inj kept).symm, dst, mem⟩
  · cases kept

theorem matchFamily_kept (src : (∃ p ∈ m.srcs, keep p.addr) ∨ m.srcCaps ≠ [])
    (dst : ∃ dst ∈ m.dsts, keep dst.net.addr) :
    matchFamily keep m = some ⟨m.ipProto, m.srcs.filter (keep ·.addr),
      IPSet.newContainsIPFunc (m.srcs.filter (keep ·.addr)), m.srcCaps,
      m.dsts.filter (keep ·.net.addr)⟩ := by
  have srcs : 0 < (m.srcs.filter (keep ·.addr)).length ∨ 0 < m.srcCaps.length := by
    rcases src with ⟨p, hp, family⟩ | caps
    · exact .inl (List.length_pos_of_mem (List.mem_filter.2 ⟨hp, family⟩))
    · exact .inr (List.length_pos_iff.2 caps)
  obtain ⟨dst, mem, family⟩ := dst
  have dsts : 0 < (m.dsts.filter (keep ·.net.addr)).length :=
    List.length_pos_of_mem (List.mem_filter.2 ⟨mem, family⟩)
  exact if_pos ⟨srcs, dsts⟩

theorem newContains_filter (family : IsFamily keep) (ha : keep a) (ps : List Prefix) :
    IPSet.newContainsIPFunc (ps.filter (keep ·.addr)) a ↔ ∃ p ∈ ps, p.contains a := by
  rw [IPSet.newContainsIPFunc_eq, List.any_eq_true]
  refine exists_congr fun p => ?_
  rw [List.mem_filter, and_assoc]
  refine and_congr_right fun _ => and_iff_right_of_imp fun h => ?_
  exact (family.agree h).trans ha

theorem exists_family (ms : List Match) (family : IsFamily keep) (ha : keep a) (proto : List Proto → Prop)
    (caps : List NodeCapability → Prop) (named : ¬ caps []) (P : NetPortRange → Prop)
    (inFamily : ∀ dst, P dst → keep dst.net.addr) :
    (∃ m ∈ matchesFamily ms keep, proto m.ipProto ∧ (m.srcsContains a ∨ caps m.srcCaps) ∧
        ∃ dst ∈ m.dsts, P dst) ↔
      ∃ m ∈ ms, proto m.ipProto ∧ (m.SrcIn a ∨ caps m.srcCaps) ∧ ∃ dst ∈ m.dsts, P dst := by
  constructor
  · rintro ⟨m', mem, hproto, src, dst, hdst, hP⟩
    obtain ⟨m, hm, kept⟩ := mem_matchesFamily.1 mem
    obtain ⟨rfl, -⟩ := matchFamily_eq_some kept
    refine ⟨m, hm, hproto, ?_, dst, (List.mem_filter.1 hdst).1, hP⟩
    exact src.imp_left (newContains_filter family ha m.srcs).1
  · rintro ⟨m, hm, hproto, src, dst, hdst, hP⟩
    have srcs : (∃ p ∈ m.srcs, keep p.addr) ∨ m.srcCaps ≠ [] := by
      rcases src with ⟨p, hp, h⟩ | hcaps
      · exact .inl ⟨p, hp, (family.agree h).trans ha⟩
      · exact .inr fun empty => named (empty ▸ hcaps)
    have kept := matchFamily_kept srcs ⟨dst, hdst, inFamily dst hP⟩
    refine ⟨_, mem_matchesFamily.2 ⟨m, hm, kept⟩, hproto, ?_, dst,
      List.mem_filter.2 ⟨hdst, inFamily dst hP⟩, hP⟩
    exact src.imp_left (newContains_filter family ha m.srcs).2

section
variable (family : IsFamily keep) (src : keep q.src.addr) (dst : keep q.dst.addr)
include family src dst

theorem matchRules_family :
    matchRules (matchesFamily ms keep) q hasCap ↔ ∃ m ∈ ms, q.ipProto ∈ m.ipProto ∧
      (m.SrcIn q.src.addr ∨ m.HasCap hasCap q.src.addr) ∧ m.DstPortIn q.dst := by
  have split := exists_family ms family src (q.ipProto ∈ ·)
    (fun caps => ∃ test, hasCap = some test ∧ ∃ c ∈ caps, test q.src.addr c) (by simp)
    (fun d => d.net.contains q.dst.addr ∧ d.ports.contains q.dst.port)
    (fun d h => (family.agree h.1).trans dst)
  refine Iff.trans ?_ split
  simp [matchRules, srcMatches_iff, Match.HasCap, and_assoc]

theorem matchIPsOnly_family :
    matchIPsOnly (matchesFamily ms keep) q hasCap ↔
      (∃ m ∈ ms, m.SrcIn q.src.addr ∧ m.DstIn q.dst.addr) ∨
        ∃ m ∈ ms, m.HasCap hasCap q.src.addr ∧ ∃ d ∈ m.dsts, keep d.net.addr := by
  have byAddress := exists_family ms family src (fun _ => True) (fun _ => False) id
    (fun d => d.net.contains q.dst.addr) (fun d h => (family.agree h).trans dst)
  have byCap : (∃ m ∈ matchesFamily ms keep, m.HasCap hasCap q.src.addr) ↔
      ∃ m ∈ ms, m.HasCap hasCap q.src.addr ∧ ∃ d ∈ m.dsts, keep d.net.addr := by
    constructor
    · rintro ⟨m', mem, cap⟩
      obtain ⟨m, hm, kept⟩ := mem_matchesFamily.1 mem
      obtain ⟨rfl, hd⟩ := matchFamily_eq_some kept
      exact ⟨m, hm, cap, hd⟩
    · rintro ⟨m, hm, cap, hd⟩
      have kept := matchFamily_kept (.inr cap.ne_nil) hd
      exact ⟨_, mem_matchesFamily.2 ⟨m, hm, kept⟩, cap⟩
  rw [← byCap]
  refine Iff.trans ?_ (or_congr_left (by simpa [Match.DstIn] using byAddress))
  cases hasCap <;> simp [matchIPsOnly, Match.HasCap]

theorem matchAllPorts_family :
    matchProtoAndIPsOnlyIfAllPorts (matchesFamily ms keep) q ↔ ∃ m ∈ ms, q.ipProto ∈ m.ipProto ∧
      m.SrcIn q.src.addr ∧ m.DstAllPorts q.dst.addr := by
  have split := exists_family ms family src (q.ipProto ∈ ·) (fun _ => False) id
    (fun d => d.ports = .allPorts ∧ d.net.contains q.dst.addr)
    (fun d h => (family.agree h.2).trans dst)
  refine Iff.trans ?_ (by simpa [Match.DstAllPorts] using split)
  simp [matchProtoAndIPsOnlyIfAllPorts, and_assoc]

end

end

end ScaleTail.Net
