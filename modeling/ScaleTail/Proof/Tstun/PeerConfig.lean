import ScaleTail.Tstun.PeerConfig

/-! # Peer configuration and ownership -/

namespace ScaleTail.Tstun
open Net Lib List Option Config Peer PeerConfig

inductive Family
  | four
  | six
  deriving DecidableEq

namespace Family

def has : Family → Addr → Bool
  | four => Addr.is4
  | six => Addr.is6

end Family

def Config.native (wcfg : Config) : Family → Option Addr
  | .four => findV4 wcfg.addresses
  | .six => findV6 wcfg.addresses

def Peer.masqAddr (p : Peer) : Family → Option Addr
  | .four => p.v4MasqAddr
  | .six => p.v6MasqAddr

def PeerConfig.dstMasqAddr (c : PeerConfig) : Family → Option Addr
  | .four => c.dstMasqAddr4
  | .six => c.dstMasqAddr6

variable {wcfg : Config} {x d n : Addr} {f : Family} {keep : Peer → Bool} {o : Peer}

theorem Config.native_has (found : wcfg.native f = some n) : f.has n = true := by
  cases f with
  | four | six =>
    have both := find?_some (show List.find? _ _ = some n from found)
    exact (Bool.and_eq_true_iff.1 both).1

theorem Peer.masqAddr_has {p : Peer} {a : Addr} (some : p.masqAddr f = some a) : f.has a = true := by
  cases f with
  | four => exact p.is4 a some
  | six => exact p.is6 a some

def Config.hasNative (wcfg : Config) : Bool :=
  (findV4 wcfg.addresses).isSome || (findV6 wcfg.addresses).isSome

def entriesOf (keep : Peer → Bool) (peers : List Peer) : List (Prefix × Peer) :=
  (peers.filter keep).flatMap fun p => p.allowedIPs.map fun ip => (ip, p)

def ownerAmong (keep : Peer → Bool) (wcfg : Config) (x : Addr) : Option Peer :=
  longestMatch (entriesOf keep wcfg.peers) x

def owner (wcfg : Config) (x : Addr) : Option Peer :=
  ownerAmong (fun _ => true) wcfg x

def Exclusive (wcfg : Config) : Prop :=
  wcfg.peers.Pairwise fun a b =>
    ∀ p ∈ a.allowedIPs, ∀ q ∈ b.allowedIPs, ¬ (p.bits = q.bits ∧ p.contains q.addr = true)

theorem contains_addr_of_contains {p q : Prefix} (hp : p.contains x = true) (hq : q.contains x = true)
    (same : p.bits = q.bits) : p.contains q.addr = true := by
  have cancel : ∀ {w : Nat} (a b c : BitVec w) (k : Nat),
      (a ^^^ c) >>> k = 0 → (b ^^^ c) >>> k = 0 → (a ^^^ b) >>> k = 0 := by
    intro w a b c k left right
    have split : a ^^^ b = (a ^^^ c) ^^^ (b ^^^ c) := by
      rw [BitVec.xor_comm b c, BitVec.xor_assoc, ← BitVec.xor_assoc c c b, BitVec.xor_self,
        BitVec.zero_xor]
    rw [split, BitVec.ushiftRight_xor_distrib, left, right, BitVec.xor_self]
    rfl
  unfold Prefix.contains at *
  cases hpa : p.addr <;> cases hqa : q.addr <;> cases x <;> simp_all only [decide_eq_true_eq, Bool.false_eq_true]
  · exact cancel _ _ _ _ hp hq
  · exact cancel _ _ _ _ hp hq

theorem mem_entriesOf {peers : List Peer} {e : Prefix × Peer} :
    e ∈ entriesOf keep peers ↔ e.2 ∈ peers ∧ keep e.2 = true ∧ e.1 ∈ e.2.allowedIPs := by
  simp only [entriesOf, mem_flatMap, mem_filter, List.mem_map]
  constructor
  · rintro ⟨p, ⟨mem, kept⟩, ip, listed, rfl⟩
    exact ⟨mem, kept, listed⟩
  · rintro ⟨mem, kept, listed⟩
    exact ⟨e.2, ⟨mem, kept⟩, e.1, listed, rfl⟩

def Apart (x : Addr) (a b : Peer) : Prop :=
  ∀ p ∈ a.allowedIPs, ∀ q ∈ b.allowedIPs, p.bits = q.bits → p.contains x = true → q.contains x = false

instance (x : Addr) : Std.Symm (Apart x) where
  symm := by
    intro a b apart q hq p hp same coversQ
    by_contra coversP
    simp [apart p hp q hq same.symm (by simpa using coversP)] at coversQ

theorem Exclusive.agree (exclusive : Exclusive wcfg) (x : Addr) :
    LongestMatch.Agree Prefix.contains Prefix.bits x (entriesOf (fun _ => true) wcfg.peers) := by
  intro e he f hf coversE coversF same
  obtain ⟨memE, -, listedE⟩ := mem_entriesOf.1 he
  obtain ⟨memF, -, listedF⟩ := mem_entriesOf.1 hf
  have apart : wcfg.peers.Pairwise (Apart x) := by
    refine List.Pairwise.imp ?_ exclusive
    intro a b different p hp q hq same coversP
    by_contra coversQ
    exact different p hp q hq ⟨same, contains_addr_of_contains coversP (by simpa using coversQ) same⟩
  by_contra different
  simp [apart.forall memE memF different e.1 listedE f.1 listedF same coversE] at coversF

theorem entriesOf_subset (keep : Peer → Bool) (peers : List Peer) :
    entriesOf keep peers ⊆ entriesOf (fun _ => true) peers := by
  intro e mem
  obtain ⟨mem, -, listed⟩ := mem_entriesOf.1 mem
  exact mem_entriesOf.2 ⟨mem, rfl, listed⟩

theorem ownerAmong_eq_none (unowned : owner wcfg x = none) :
    ownerAmong keep wcfg x = none := by
  unfold owner ownerAmong longestMatch at *
  rw [map_eq_none_iff, LongestMatch.find_eq_none] at *
  exact fun e mem => unowned e (entriesOf_subset keep _ mem)

theorem Exclusive.ownerAmong_of_keep (exclusive : Exclusive wcfg)
    (owns : owner wcfg x = some o) (kept : keep o = true) : ownerAmong keep wcfg x = some o := by
  obtain ⟨e, found, rfl⟩ := map_eq_some_iff.1 owns
  obtain ⟨mem, -, listed⟩ := mem_entriesOf.1 (LongestMatch.find_eq_some found).1
  obtain ⟨k, again⟩ := LongestMatch.find_of_subset (exclusive.agree x) (entriesOf_subset keep _) found
    (mem_entriesOf.2 ⟨mem, kept, listed⟩)
  exact map_eq_some_iff.2 ⟨_, again, rfl⟩

def Config.configOf (wcfg : Config) (p : Peer) : PeerConfig where
  dstMasqAddr4 := addrToUse wcfg.exitNodeRequiresMasq (findV4 wcfg.addresses) p.v4MasqAddr
  dstMasqAddr6 := addrToUse wcfg.exitNodeRequiresMasq (findV6 wcfg.addresses) p.v6MasqAddr
  jailed := p.isJailed

def Config.lists (wcfg : Config) (p : Peer) : Bool :=
  let c := wcfg.configOf p
  c.dstMasqAddr4.isSome || c.dstMasqAddr6.isSome || c.jailed

theorem Config.configOf_dstMasqAddr (wcfg : Config) (p : Peer) (f : Family) :
    (wcfg.configOf p).dstMasqAddr f =
      addrToUse wcfg.exitNodeRequiresMasq (wcfg.native f) (p.masqAddr f) := by
  cases f <;> rfl

def found (wcfg : Config) (x : Addr) : Option PeerConfig :=
  if wcfg.hasNative then (ownerAmong wcfg.lists wcfg x).map wcfg.configOf else none

def Agrees (wcfg : Config) (x : Addr) : Prop :=
  (found wcfg x).any PeerConfig.jailed = (owner wcfg x).any Peer.isJailed ∧
  ∀ f n, wcfg.native f = some n →
    ((found wcfg x).bind (·.dstMasqAddr f)).getD n = ((owner wcfg x).bind (·.masqAddr f)).getD n

theorem found_has {f : Family} {a : Addr} (entry : (found wcfg x).bind (·.dstMasqAddr f) = some a) :
    f.has a = true := by
  obtain ⟨c, entry, masq⟩ := bind_eq_some_iff.1 entry
  obtain ⟨-, entry⟩ := ite_none_right_eq_some.1 entry
  obtain ⟨q, -, rfl⟩ := map_eq_some_iff.1 entry
  rw [configOf_dstMasqAddr, addrToUse] at masq
  split at masq
  next =>
    cases own : q.masqAddr f with
    | none => exact native_has (by simpa [own] using masq)
    | some b =>
      have same : b = a := by simpa [own] using masq
      exact same ▸ masqAddr_has own
  next => exact masqAddr_has masq

theorem mapped_iff {used own : Option Addr} (same : used.getD n = own.getD n) :
    (if used = some d then n else d) = n ↔ d = n ∨ own = some d := by
  by_cases native : d = n
  · simp [native]
  · cases used <;> cases own <;> grind

def Peer.needsEntry (p : Peer) : Bool := p.hasMasqAddr || p.isJailed

def Harmless (wcfg : Config) (q : Peer) : Prop :=
  q.isJailed = false ∧ ∀ f n m, wcfg.native f = some n → q.masqAddr f = some m → m = n

/-- An address that has an owner without need of an entry is not covered by a prefix of a peer with
an entry that does harm, unless all peers are in the table. -/
def Covered (wcfg : Config) (x : Addr) : Prop :=
  ∀ o, owner wcfg x = some o →
    if wcfg.hasNative then
      wcfg.exitNodeRequiresMasq = true ∨ o.needsEntry = true ∨
        ∀ q, ownerAmong Peer.needsEntry wcfg x = some q → Harmless wcfg q
    else o.isJailed = false

theorem Config.lists_of_exit (native : wcfg.hasNative = true)
    (exit : wcfg.exitNodeRequiresMasq = true) (p : Peer) : wcfg.lists p = true := by
  simp only [lists, configOf, addrToUse, exit, if_true, isSome_or]
  rw [Config.hasNative] at native
  grind

theorem Config.lists_of_not_exit (exit : wcfg.exitNodeRequiresMasq = false) :
    wcfg.lists = needsEntry := by
  funext p
  simp [lists, configOf, addrToUse, exit, needsEntry, hasMasqAddr]

theorem configOf_getD (p : Peer) (native : wcfg.native f = some n) :
    ((wcfg.configOf p).dstMasqAddr f).getD n = (p.masqAddr f).getD n := by
  rw [configOf_dstMasqAddr, addrToUse, native]
  cases wcfg.exitNodeRequiresMasq <;> cases p.masqAddr f <;> simp

theorem Peer.plain (plain : o.needsEntry = false) :
    o.isJailed = false ∧ ∀ f, o.masqAddr f = none := by
  simp only [needsEntry, hasMasqAddr, Bool.or_eq_false_iff, isSome_eq_false_iff,
    isNone_iff_eq_none] at plain
  refine ⟨plain.2, fun f => ?_⟩
  cases f with
  | four => exact plain.1.1
  | six => exact plain.1.2

theorem agrees_of_found (owns : owner wcfg x = some o)
    (entry : found wcfg x = some (wcfg.configOf o)) : Agrees wcfg x := by
  constructor
  · rw [entry, owns]
    rfl
  · intro f n native
    rw [entry, owns]
    exact configOf_getD o native

theorem agrees_iff_harmless {o q : Peer} (owns : owner wcfg x = some o) (plain : o.needsEntry = false)
    (entry : found wcfg x = some (wcfg.configOf q)) : Agrees wcfg x ↔ Harmless wcfg q := by
  obtain ⟨free, none⟩ := Peer.plain plain
  have masq : ∀ f n, wcfg.native f = some n →
      (((found wcfg x).bind (·.dstMasqAddr f)).getD n = ((owner wcfg x).bind (·.masqAddr f)).getD n ↔
        ∀ m, q.masqAddr f = some m → m = n) := by
    intro f n native
    rw [entry, owns, bind_some, bind_some, none, configOf_getD q native]
    cases q.masqAddr f <;> simp
  unfold Agrees Harmless
  rw [entry, owns] at *
  apply and_congr
  · simp [free, configOf]
  constructor
  · intro all f n m native
    exact (masq f n native).1 (all f n native) m
  · intro all f n native
    exact (masq f n native).2 fun m => all f n m native

theorem agrees_iff_covered (exclusive : Exclusive wcfg) : Agrees wcfg x ↔ Covered wcfg x := by
  cases owns : owner wcfg x with
  | none =>
    have nothing : found wcfg x = none := by simp [found, ownerAmong_eq_none owns]
    simp [Agrees, Covered, owns, nothing]
  | some o =>
    simp only [Covered, owns, Option.some.injEq, forall_eq']
    by_cases native : wcfg.hasNative = true
    · rw [if_pos native]
      have listed : found wcfg x = (ownerAmong wcfg.lists wcfg x).map wcfg.configOf := if_pos native
      cases exit : wcfg.exitNodeRequiresMasq with
      | true =>
        have lists := lists_of_exit native exit o
        rw [exclusive.ownerAmong_of_keep owns lists] at listed
        simp [agrees_of_found owns listed]
      | false =>
        rw [lists_of_not_exit exit] at listed
        cases needs : o.needsEntry with
        | true =>
          rw [exclusive.ownerAmong_of_keep owns needs] at listed
          simp [agrees_of_found owns listed]
        | false =>
          cases other : ownerAmong needsEntry wcfg x with
          | none =>
            rw [other] at listed
            obtain ⟨free, none⟩ := Peer.plain needs
            simp [Agrees, owns, listed, free, none]
          | some =>
            rw [other] at listed
            simp [agrees_iff_harmless owns needs listed]
    · rw [if_neg native]
      have no : ∀ f, wcfg.native f = none := by
        intro f
        cases f <;> simp_all [Config.hasNative, Config.native]
      have nothing : found wcfg x = none := if_neg native
      simp only [Agrees, owns, nothing, no, reduceCtorEq, false_implies, implies_true, and_true]
      exact eq_comm

section Table
variable [Bart PeerConfig]

def built (wcfg : Config) (b : Built) (peers : List Peer) : Built :=
  peers.foldl (addPeer wcfg.exitNodeRequiresMasq (findV4 wcfg.addresses) (findV6 wcfg.addresses)) b

theorem addPeer_eq (wcfg : Config) (b : Built) (p : Peer) :
    (addPeer wcfg.exitNodeRequiresMasq (findV4 wcfg.addresses) (findV6 wcfg.addresses) b p).byIP =
      ((entriesOf wcfg.lists [p]).map fun e => (e.1, wcfg.configOf e.2)).foldl
        (fun t e => Bart.insert t e.1 e.2) b.byIP ∧
    (addPeer wcfg.exitNodeRequiresMasq (findV4 wcfg.addresses) (findV6 wcfg.addresses) b p).byIPSize =
      b.byIPSize + (entriesOf wcfg.lists [p]).length := by
  have skip : ((wcfg.configOf p).dstMasqAddr4.isNone && (wcfg.configOf p).dstMasqAddr6.isNone &&
      !p.isJailed) = !wcfg.lists p := by
    rw [lists, Bool.not_or, Bool.not_or, not_isSome, not_isSome]
    rfl
  have cases : addPeer wcfg.exitNodeRequiresMasq (findV4 wcfg.addresses) (findV6 wcfg.addresses) b p =
      if (wcfg.configOf p).dstMasqAddr4.isNone && (wcfg.configOf p).dstMasqAddr6.isNone &&
        !p.isJailed then _ else _ := rfl
  rw [cases, skip]
  cases lists : wcfg.lists p with
  | true =>
    simp only [entriesOf, lists, filter_cons_of_pos, filter_nil, flatMap_singleton,
      List.map_map, foldl_map, Bool.not_true, Bool.false_eq_true, if_false, length_map,
      and_true]
    rfl
  | false => simp [entriesOf, lists]

theorem built_eq (wcfg : Config) (b : Built) (peers : List Peer) :
    (built wcfg b peers).byIP =
      ((entriesOf wcfg.lists peers).map fun e => (e.1, wcfg.configOf e.2)).foldl
        (fun t e => Bart.insert t e.1 e.2) b.byIP ∧
    (built wcfg b peers).byIPSize = b.byIPSize + (entriesOf wcfg.lists peers).length := by
  induction peers generalizing b with
  | nil => exact ⟨rfl, rfl⟩
  | cons p peers ih =>
    have split : entriesOf wcfg.lists (p :: peers) =
        entriesOf wcfg.lists [p] ++ entriesOf wcfg.lists peers := by
      simp only [entriesOf, ← flatMap_append, ← filter_append, singleton_append]
    obtain ⟨byIP, size⟩ := addPeer_eq wcfg b p
    rw [split, map_append, foldl_append, ← byIP, length_append, ← Nat.add_assoc, ← size]
    exact ih _

theorem lookup_built (x : Addr) :
    Bart.lookup (built wcfg ⟨Bart.empty, 0, []⟩ wcfg.peers).byIP x =
      (ownerAmong wcfg.lists wcfg x).map wcfg.configOf := by
  rw [(built_eq _ _ _).1, Bart.lookup_foldl, longestMatch, LongestMatch.find_map_snd, ownerAmong, longestMatch]
  simp [Function.comp_def]

theorem table_cases (wcfg : Config) :
    (peerConfigTableFromWGConfig (some wcfg) = none ∧ ∀ x, found wcfg x = none) ∨
    ∃ pc, peerConfigTableFromWGConfig (some wcfg) = some pc ∧
      pc.nativeAddr4 = findV4 wcfg.addresses ∧ pc.nativeAddr6 = findV6 wcfg.addresses ∧
      ∀ x, Bart.lookup pc.byIP x = found wcfg x := by
  have size := (built_eq wcfg ⟨Bart.empty, 0, []⟩ wcfg.peers).2
  by_cases native : wcfg.hasNative = true
  · have has : ¬ ((findV4 wcfg.addresses).isNone && (findV6 wcfg.addresses).isNone) = true := by
      simpa [Config.hasNative, isSome_iff_ne_none, imp_iff_not_or] using native
    have table : peerConfigTableFromWGConfig (some wcfg) =
        if (built wcfg ⟨Bart.empty, 0, []⟩ wcfg.peers).byIPSize == 0 &&
          (built wcfg ⟨Bart.empty, 0, []⟩ wcfg.peers).masqAddrs.isEmpty then none else _ :=
      if_neg has
    rw [table]
    split
    next nothing =>
      left
      rw [size] at nothing
      have empty : entriesOf wcfg.lists wcfg.peers = [] := by
        simpa using (Bool.and_eq_true_iff.1 nothing).1
      simp [found, ownerAmong, empty, longestMatch, LongestMatch.find]
    next =>
      right
      refine ⟨_, rfl, rfl, rfl, fun x => ?_⟩
      rw [found, if_pos native]
      exact lookup_built x
  · left
    have none : ((findV4 wcfg.addresses).isNone && (findV6 wcfg.addresses).isNone) = true := by
      simpa [Config.hasNative] using native
    exact ⟨if_pos none, fun x => if_neg native⟩

theorem inbound_eq (p : Parsed) :
    inboundPacketIsJailed (peerConfigTableFromWGConfig (some wcfg)) p =
      (found wcfg p.src.addr).any jailed := by
  obtain ⟨none, nothing⟩ | ⟨pc, table, -, -, lookup⟩ := table_cases wcfg
  · simp [inboundPacketIsJailed, none, nothing]
  · simp only [inboundPacketIsJailed, table, lookup]
    cases found wcfg p.src.addr <;> rfl

theorem outbound_eq (p : Parsed) :
    outboundPacketIsJailed (peerConfigTableFromWGConfig (some wcfg)) p =
      (found wcfg p.dst.addr).any jailed := by
  obtain ⟨none, nothing⟩ | ⟨pc, table, -, -, lookup⟩ := table_cases wcfg
  · simp [outboundPacketIsJailed, none, nothing]
  · simp only [outboundPacketIsJailed, table, lookup]
    cases found wcfg p.dst.addr <;> rfl

theorem selectSrcIP_eq (native : wcfg.native f = some n) :
    selectSrcIP (peerConfigTableFromWGConfig (some wcfg)) n x =
      ((found wcfg x).bind (·.dstMasqAddr f)).getD n := by
  have family := native_has native
  obtain ⟨none, nothing⟩ | ⟨pc, table, native4, native6, lookup⟩ := table_cases wcfg
  · simp [selectSrcIP, none, nothing]
  cases f with
  | four =>
    have same : pc.nativeAddr4 = some n := native4.trans native
    cases n with
    | v4 => cases entry : found wcfg x <;>
        simp [selectSrcIP, table, same, lookup, entry, Addr.is4, Addr.is6, dstMasqAddr]
    | v6 => simp [Family.has, Addr.is4] at family
  | six =>
    have same : pc.nativeAddr6 = some n := native6.trans native
    cases n with
    | v4 => simp [Family.has, Addr.is6] at family
    | v6 => cases entry : found wcfg x <;>
        simp [selectSrcIP, table, same, lookup, entry, Addr.is4, Addr.is6, dstMasqAddr]

theorem mapDstIP_eq (native : wcfg.native f = some n) (family : f.has d = true) :
    mapDstIP (peerConfigTableFromWGConfig (some wcfg)) x d =
      if (found wcfg x).bind (·.dstMasqAddr f) = some d then n else d := by
  obtain ⟨none, nothing⟩ | ⟨pc, table, native4, native6, lookup⟩ := table_cases wcfg
  · simp [mapDstIP, none, nothing]
  cases entry : found wcfg x with
  | none => simp [mapDstIP, table, lookup, entry]
  | some c =>
    cases f with
    | four =>
      have same : pc.nativeAddr4 = some n := native4.trans native
      cases d with
      | v4 a =>
        by_cases masq : c.dstMasqAddr4 = some (.v4 a) <;>
          simp [mapDstIP, table, lookup, entry, toNative, same, Addr.is4, Addr.is6,
            dstMasqAddr, masq]
      | v6 => simp [Family.has, Addr.is4] at family
    | six =>
      have same : pc.nativeAddr6 = some n := native6.trans native
      cases d with
      | v4 => simp [Family.has, Addr.is6] at family
      | v6 a =>
        by_cases masq : c.dstMasqAddr6 = some (.v6 a) <;>
          simp [mapDstIP, table, lookup, entry, toNative, same, Addr.is4, Addr.is6,
            dstMasqAddr, masq]

theorem untranslated (native : wcfg.native f = none) (family : f.has d = true) :
    selectSrcIP (peerConfigTableFromWGConfig (some wcfg)) d x = d ∧
      mapDstIP (peerConfigTableFromWGConfig (some wcfg)) x d = d := by
  obtain ⟨none, -⟩ | ⟨pc, table, native4, native6, -⟩ := table_cases wcfg
  · simp [selectSrcIP, mapDstIP, none]
  rw [table]
  cases f with
  | four =>
    have missing : pc.nativeAddr4 = none := native4.trans native
    cases d with
    | v4 => cases entry : Bart.lookup pc.byIP x <;>
        simp [selectSrcIP, mapDstIP, entry, toNative, missing, Addr.is4, Addr.is6]
    | v6 => simp [Family.has, Addr.is4] at family
  | six =>
    have missing : pc.nativeAddr6 = none := native6.trans native
    cases d with
    | v4 => simp [Family.has, Addr.is6] at family
    | v6 => cases entry : Bart.lookup pc.byIP x <;>
        simp [selectSrcIP, mapDstIP, entry, toNative, missing, Addr.is4, Addr.is6]

structure Follows (wcfg : Config) (x : Addr) : Prop where
  inbound : ∀ p : Parsed, p.src.addr = x →
    inboundPacketIsJailed (peerConfigTableFromWGConfig (some wcfg)) p =
      (owner wcfg x).any Peer.isJailed
  outbound : ∀ p : Parsed, p.dst.addr = x →
    outboundPacketIsJailed (peerConfigTableFromWGConfig (some wcfg)) p =
      (owner wcfg x).any Peer.isJailed
  select : ∀ f n, wcfg.native f = some n →
    selectSrcIP (peerConfigTableFromWGConfig (some wcfg)) n x =
      ((owner wcfg x).bind (·.masqAddr f)).getD n
  map : ∀ f n d, wcfg.native f = some n → f.has d = true →
    (mapDstIP (peerConfigTableFromWGConfig (some wcfg)) x d = n ↔
      d = n ∨ (owner wcfg x).bind (·.masqAddr f) = some d)
  reply : ∀ f n, wcfg.native f = some n →
    mapDstIP (peerConfigTableFromWGConfig (some wcfg)) x
      (selectSrcIP (peerConfigTableFromWGConfig (some wcfg)) n x) = n

theorem follows_iff_agrees : Follows wcfg x ↔ Agrees wcfg x := by
  constructor
  · rintro ⟨inbound, outbound, select, map, reply⟩
    constructor
    · rw [← inbound ⟨[], 0, 0, 0, ⟨x, 0⟩, ⟨x, 0⟩, 0⟩ rfl, inbound_eq]
    · intro f n native
      rw [← select f n native, selectSrcIP_eq native]
  · rintro ⟨jailed, masq⟩
    refine ⟨?_, ?_, ?_, ?_, ?_⟩
    · rintro p rfl
      rw [inbound_eq, jailed]
    · rintro p rfl
      rw [outbound_eq, jailed]
    · intro f n native
      rw [selectSrcIP_eq native, masq f n native]
    · intro f n d native family
      have same := masq f n native
      rw [mapDstIP_eq native family]
      exact mapped_iff same
    · intro f n native
      rw [selectSrcIP_eq native]
      cases used : (found wcfg x).bind (·.dstMasqAddr f) with
      | none => simp [mapDstIP_eq native (native_has native), used]
      | some => simp [mapDstIP_eq native (found_has used), used]

/-- Of every configuration, also of one whose table does not follow the owners. The packet `p` leaves
from the native address, and `q` comes from where it went: a reply to `p` arrives at the native
address, and if `q` was translated then `p` is translated back. Without a native address of the family
nothing is translated. -/
theorem translates_back (wcfg : Config) (f : Family) (p q : Parsed) :
    (∀ n, wcfg.native f = some n → p.src.addr = n → q.src.addr = p.dst.addr →
      (q.dst.addr = (snat (peerConfigTableFromWGConfig (some wcfg)) p).src.addr →
        (dnat (peerConfigTableFromWGConfig (some wcfg)) q).dst.addr = n) ∧
      (f.has q.dst.addr = true →
        (dnat (peerConfigTableFromWGConfig (some wcfg)) q).dst.addr ≠ q.dst.addr →
        (dnat (peerConfigTableFromWGConfig (some wcfg)) q).dst.addr = n ∧
          (snat (peerConfigTableFromWGConfig (some wcfg)) p).src.addr = q.dst.addr)) ∧
    (wcfg.native f = none →
      (f.has p.src.addr = true → snat (peerConfigTableFromWGConfig (some wcfg)) p = p) ∧
      (f.has q.dst.addr = true → dnat (peerConfigTableFromWGConfig (some wcfg)) q = q)) := by
  constructor
  · intro n native here peer
    dsimp only [dnat, snat]
    rw [here, peer, selectSrcIP_eq native]
    refine ⟨fun reply => ?_, fun family => ?_⟩
    · rw [reply]
      cases entry : (found wcfg p.dst.addr).bind (·.dstMasqAddr f) with
      | none => rw [getD_none, mapDstIP_eq native (native_has native), entry, if_neg nofun]
      | some a => rw [getD_some, mapDstIP_eq native (found_has entry), entry, if_pos rfl]
    · rw [mapDstIP_eq native family]
      split
      next entry => exact fun _ => ⟨rfl, by rw [entry, getD_some]⟩
      · exact absurd rfl
  · intro native
    constructor
    · intro family
      rw [snat, (untranslated native family).1]
    · intro family
      rw [dnat, (untranslated native family).2]

/-- For every configuration and address: packets to and from it are treated as its owner asks if and
only if the condition holds. -/
theorem follows_iff_covered (exclusive : Exclusive wcfg) : Follows wcfg x ↔ Covered wcfg x :=
  follows_iff_agrees.trans (agrees_iff_covered exclusive)

end Table

namespace Sample

abbrev listTable : Bart PeerConfig where
  Table := List (Prefix × PeerConfig)
  empty := []
  insert t ip v := t ++ [(ip, v)]
  lookup t x := longestMatch t x
  lookup_foldl entries x := by
    congr 1
    show entries.foldl (fun t e => t ++ [e]) [] = entries
    rw [foldl_append_eq_append, nil_append, ← flatMap_def, flatMap_singleton']

def host (a : BitVec 32) : Prefix := .single (.v4 a)

def plainPeer (ips : List Prefix) (jailed : Bool) : Peer where
  allowedIPs := ips
  v4MasqAddr := none
  v6MasqAddr := none
  isJailed := jailed
  is4 := by simp
  is6 := by simp

def hosts : Config where
  addresses := [host 0x64656602]
  peers := [plainPeer [host 0x64656603] true, plainPeer [host 0x64656604] false]

theorem hosts_exclusive : Exclusive hosts := by
  unfold Exclusive
  decide +kernel

theorem hosts_covered : Covered hosts (.v4 0x64656604) := by
  intro o owns
  have none : ownerAmong needsEntry hosts (.v4 0x64656604) = none := by rfl
  rw [if_pos (by decide +kernel), none]
  simp

theorem hosts_follows : Exclusive hosts ∧ (owner hosts (.v4 0x64656604)).isSome = true ∧
    @Follows listTable hosts (.v4 0x64656604) :=
  ⟨hosts_exclusive, by decide +kernel,
    (@follows_iff_covered hosts _ listTable hosts_exclusive).2 hosts_covered⟩

/-- The exit node is jailed and needs no masquerading, so the other peers are not in the table. -/
def jailedExit : Config where
  addresses := [host 0x64656602]
  peers := [plainPeer [host 0x64656603, ⟨.v4 0, 0, Nat.zero_le _⟩] true,
    plainPeer [host 0x64656605] false]

theorem jailedExit_exclusive : Exclusive jailedExit := by
  unfold Exclusive
  decide +kernel

theorem jailedExit_not_follows :
    Exclusive jailedExit ∧ ¬ @Follows listTable jailedExit (.v4 0x64656605) := by
  refine ⟨jailedExit_exclusive, fun follows => ?_⟩
  have same := @Follows.inbound listTable _ _ follows
    ⟨[], 0, 4, .udp, ⟨.v4 0x64656605, 1⟩, ⟨.v4 0x64656602, 2⟩, 0⟩ rfl
  exact absurd same (by decide +kernel)

def masqueraded : Config where
  addresses := [host 0x64656602]
  peers := [{ plainPeer [host 0x64656603] false with
    v4MasqAddr := some (.v4 0x64656607)
    is4 := by simp [Addr.is4] }]

def query : Parsed := ⟨[], 0, 4, .udp, ⟨.v4 0x64656602, 53⟩, ⟨.v4 0x64656603, 53⟩, 0⟩

theorem masqueraded_reply : (@dnat listTable (@peerConfigTableFromWGConfig listTable (some masqueraded))
    { query with src := query.dst, dst := ⟨.v4 0x64656607, 53⟩ }).dst.addr = .v4 0x64656602 :=
  ((@translates_back listTable masqueraded .four query _).1 _ (by decide) rfl rfl).1
    (by decide +kernel)

end Sample

end ScaleTail.Tstun
