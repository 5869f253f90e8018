import ScaleTail.Proof.Conn25.Assign
import ScaleTail.Proof.Conn25.Connector
import ScaleTail.Proof.Conn25.Flows

/-! # From an application through a connector and back -/

namespace ScaleTail.Net

def Addr.Plain (a : Addr) : Prop := a.unmap = a

theorem Addr.as16_inj {a b : Addr} (family : a.is4 = b.is4) (same : a.as16 = b.as16) : a = b := by
  cases a with
  | v4 a => cases b with
      | v4 b =>
        have low : (0xffff#96 ++ a).extractLsb' 0 32 = (0xffff#96 ++ b).extractLsb' 0 32 :=
          congrArg (BitVec.extractLsb' 0 32) same
        rw [BitVec.extractLsb'_append_eq_right, BitVec.extractLsb'_append_eq_right] at low
        exact congrArg v4 low
      | v6 => cases family
  | v6 => cases b with
      | v4 => cases family
      | v6 => exact congrArg v6 same

theorem Addr.not_plain_mapped (a : BitVec 32) : ¬ (v6 (0xffff#96 ++ a)).Plain := by
  have high : (0xffff#96 ++ a).extractLsb' 32 96 = 0xffff#96 := BitVec.extractLsb'_append_eq_left
  intro plain
  change (if (0xffff#96 ++ a).extractLsb' 32 96 = 0xffff#96 then _ else _) = _ at plain
  rw [if_pos high] at plain
  cases plain

theorem Addr.Plain.inj {a b : Addr} (plain : a.Plain) (plain' : b.Plain) (same : a.as16 = b.as16) :
    a = b := by
  cases a with
  | v4 a => cases b with
      | v4 => exact as16_inj rfl same
      | v6 =>
        subst same
        exact absurd plain' (not_plain_mapped a)
  | v6 => cases b with
      | v4 b =>
        subst same
        exact absurd plain (not_plain_mapped b)
      | v6 => exact congrArg v6 same

def Flowtrack.Tuple.swap (t : Flowtrack.Tuple) : Flowtrack.Tuple :=
  ⟨t.proto, t.dst, t.dstPort, t.src, t.srcPort⟩

theorem Flowtrack.Tuple.swap_inj {t u : Flowtrack.Tuple} (same : t.swap = u.swap) : t = u := by
  cases t
  cases u
  simp only [swap, mk.injEq] at same ⊢
  obtain ⟨rfl, rfl, rfl, rfl, rfl⟩ := same
  exact ⟨rfl, rfl, rfl, rfl, rfl⟩

end ScaleTail.Net

namespace ScaleTail.Conn25
open Net Flowtrack Lib List Option IPMapper Packet FlowTable

variable {p q x : Packet} {a : Addr} {o : Origin} {t : FlowTable} {k : Tuple}
  {route : Packet → Option Addr} {log : List (Packet × Packet)} {e : Packet × Packet} {m : IPMapper}

namespace Packet

def back (p : Packet) (a : Addr) : Tuple := makeTuple p.ipProto ⟨a, p.dst.port⟩ p.src

theorem updateDstAddr_eq (updated : p.updateDstAddr a = some q) :
    p.src.addr.is4 = a.is4 ∧ q.ipProto = p.ipProto ∧ q.src = p.src ∧ q.dst = ⟨a, p.dst.port⟩ ∧
      q.payload = p.payload := by
  unfold updateDstAddr at updated
  split at updated
  next family =>
    cases updated
    exact ⟨family, rfl, rfl, rfl, rfl⟩
  · cases updated

theorem updateSrcAddr_eq (updated : p.updateSrcAddr a = some q) :
    a.is4 = p.dst.addr.is4 ∧ q.ipProto = p.ipProto ∧ q.src = ⟨a, p.src.port⟩ ∧ q.dst = p.dst ∧
      q.payload = p.payload := by
  unfold updateSrcAddr at updated
  split at updated
  next family =>
    cases updated
    exact ⟨family, rfl, rfl, rfl, rfl⟩
  · cases updated

theorem updateDstAddr_twice (updated : p.updateDstAddr a = some q) (b : Addr) :
    q.updateDstAddr b = p.updateDstAddr b := by
  unfold updateDstAddr at updated
  split at updated
  · cases updated
    rfl
  · cases updated

theorem back_eq (updated : p.updateDstAddr a = some q) : p.back a = q.tuple.swap := by
  obtain ⟨-, proto, src, dst, -⟩ := updateDstAddr_eq updated
  rw [back, tuple, proto, src, dst]
  rfl

theorem ends_of_tuple {p p' : Packet} (same : p.tuple = p'.tuple)
    (family : p.src.addr.is4 = p'.src.addr.is4) :
    p.ipProto = p'.ipProto ∧ p.src = p'.src ∧ p.dst = p'.dst := by
  have family' : p.dst.addr.is4 = p'.dst.addr.is4 := by rw [← p.family, ← p'.family, family]
  have proto := congrArg Tuple.proto same
  have src := Addr.as16_inj family (congrArg Tuple.src same)
  have dst := Addr.as16_inj family' (congrArg Tuple.dst same)
  have srcPort : p.src.port = p'.src.port := congrArg Tuple.srcPort same
  have dstPort : p.dst.port = p'.dst.port := congrArg Tuple.dstPort same
  refine ⟨proto, ?_, ?_⟩
  · cases hp : p.src
    cases hp' : p'.src
    simp_all
  · cases hp : p.dst
    cases hp' : p'.dst
    simp_all

end Packet

structure Routes (route : Packet → Option Addr) : Prop where
  proto : ∀ p a, route p = some a → p.ipProto = .tcp ∨ p.ipProto = .udp
  same : ∀ p p' : Packet, p.ipProto = p'.ipProto → p.src = p'.src → p.dst = p'.dst → route p = route p'
  family : ∀ p a, route p = some a → a.is4 = p.dst.addr.is4
  plain : ∀ p a, route p = some a → p.dst.addr.Plain ∧ a.Plain

def lastTo (log : List (Packet × Packet)) (k : Tuple) : Option (Packet × Packet) :=
  (log.filter fun e => e.2.tuple = k).getLast?

theorem lastTo_concat (log : List (Packet × Packet)) (e : Packet × Packet) (k : Tuple) :
    lastTo (log ++ [e]) k = if e.2.tuple = k then some e else lastTo log k := by
  unfold lastTo
  rw [filter_append]
  split
  next same => rw [filter_cons_of_pos (by simpa using same), filter_nil, getLast?_concat]
  next differ => rw [filter_cons_of_neg (by simpa using differ), filter_nil, append_nil]

theorem lastTo_mem (found : lastTo log k = some e) : e ∈ log ∧ e.2.tuple = k := by
  obtain ⟨member, same⟩ := mem_filter.1 (mem_of_getLast? found)
  exact ⟨member, of_decide_eq_true same⟩

theorem exists_lastTo (member : e ∈ log) : ∃ e', lastTo log e.2.tuple = some e' := by
  apply ne_none_iff_exists'.1
  rw [lastTo, Ne, getLast?_eq_none_iff]
  exact ne_nil_of_mem (mem_filter.2 ⟨member, decide_eq_true rfl⟩)

def returnEntry (p : Packet) (a : Addr) : CachedFlow := ⟨⟨p.back a, .snat p.dst.addr⟩, p.tuple⟩

structure Kept (o : Origin) (route : Packet → Option Addr) (t : FlowTable)
    (log : List (Packet × Packet)) : Prop where
  unbounded : t.Unbounded
  fwd : ∀ k e, t.view o k = some e → ∃ p a, p.tuple = k ∧ route p = some a ∧
    e.flow.action = .dnat a ∧ t.view o.other (p.back a) = some (returnEntry p a)
  logged : ∀ p q, (p, q) ∈ log → ∃ a, route p = some a ∧ p.updateDstAddr a = some q
  last : ∀ k p q, lastTo log k = some (p, q) → ∃ a, route p = some a ∧
    t.view o.other (p.back a) = some (returnEntry p a)

namespace Kept

theorem start : Kept o route (.newFlowTable 0) [] where
  unbounded o := by cases o <;> rfl
  fwd k e found := by cases o <;> cases found
  logged p q member := by cases member
  last k p q found := by cases found

section
variable (kept : Kept o route t log)
include kept

theorem of_view {t' : FlowTable} (same : t'.view = t.view)
    (unbounded : t'.Unbounded) : Kept o route t' log where
  unbounded := unbounded
  fwd := by
    rw [same]
    exact kept.fwd
  logged := kept.logged
  last := by
    rw [same]
    exact kept.last

theorem hit (routes : Routes route) {e : CachedFlow}
    (found : t.view o p.tuple = some e) (updated : e.flow.action.run p = some q) :
    ∃ a, route p = some a ∧ p.updateDstAddr a = some q ∧
      t.view o.other (p.back a) = some (returnEntry p a) := by
  obtain ⟨p', a, same, routed, action, back⟩ := kept.fwd _ e found
  rw [action] at updated
  have family : p.src.addr.is4 = p'.src.addr.is4 := by
    rw [(updateDstAddr_eq updated).1, routes.family p' a routed, p'.family]
  obtain ⟨proto, src, dst⟩ := ends_of_tuple same.symm family
  have equal : p.back a = p'.back a := by rw [Packet.back, Packet.back, proto, src, dst]
  refine ⟨a, (routes.same p p' proto src dst).trans routed, updated, ?_⟩
  rw [equal, back, returnEntry, returnEntry, equal, same, dst]

theorem logged_concat (routed : route p = some a)
    (updated : p.updateDstAddr a = some q) (p' q' : Packet) (member : (p', q') ∈ log ++ [(p, q)]) :
    ∃ a, route p' = some a ∧ p'.updateDstAddr a = some q' := by
  rcases mem_append.1 member with old | new
  · exact kept.logged p' q' old
  · cases mem_singleton.1 new
    exact ⟨a, routed, updated⟩

theorem record (routed : route p = some a) (updated : p.updateDstAddr a = some q)
    (back : t.view o.other (p.back a) = some (returnEntry p a)) : Kept o route t (log ++ [(p, q)]) where
  unbounded := kept.unbounded
  fwd := kept.fwd
  logged := kept.logged_concat routed updated
  last k p' q' found := by
    rw [lastTo_concat] at found
    split at found
    · cases found
      exact ⟨a, routed, back⟩
    · exact kept.last k p' q' found

theorem install (fresh : t.view o p.tuple = none) (routed : route p = some a)
    (updated : p.updateDstAddr a = some q) :
    Kept o route (t.newFlow o ⟨p.tuple, .dnat a⟩ ⟨p.back a, .snat p.dst.addr⟩) (log ++ [(p, q)]) where
  unbounded := kept.unbounded.newFlow fresh
  fwd k e found := by
    rw [view_newFlow kept.unbounded fresh] at found
    split at found
    next same =>
      cases found
      refine ⟨p, a, same.symm, routed, rfl, ?_⟩
      rw [view_newFlow_other kept.unbounded fresh, if_pos rfl]
      rfl
    next differ =>
      obtain ⟨paired, found⟩ := ite_none_left_eq_some.1 found
      -- an entry whose return entry is overwritten was removed
      obtain ⟨p', a', same, routed', action, back⟩ := kept.fwd k e found
      refine ⟨p', a', same, routed', action, ?_⟩
      rw [view_newFlow_other kept.unbounded fresh, if_neg, back]
      intro overwritten
      rw [overwritten] at back
      rw [back] at paired
      exact paired (decide_eq_true same)
  logged := kept.logged_concat routed updated
  last k p' q' found := by
    rw [lastTo_concat] at found
    split at found
    · cases found
      refine ⟨a, routed, ?_⟩
      rw [view_newFlow_other kept.unbounded fresh, if_pos rfl]
      rfl
    next differ =>
      obtain ⟨a', routed', back⟩ := kept.last k p' q' found
      obtain ⟨member, same⟩ := lastTo_mem found
      obtain ⟨a'', routed'', updated'⟩ := kept.logged p' q' member
      cases Option.some.inj (routed'.symm.trans routed'')
      refine ⟨a', routed', ?_⟩
      rw [view_newFlow_other kept.unbounded fresh, if_neg, back]
      intro overwritten
      rw [back_eq updated, back_eq updated'] at overwritten
      exact differ (((Tuple.swap_inj overwritten).symm).trans same)

end

end Kept

def Role.other : Role → Role
  | .client => .connector
  | .connector => .client

namespace DatapathHandler
variable {dh dh' : DatapathHandler} {role : Role}

@[simp] theorem table_setTable (u : FlowTable) : (dh.setTable u role).table role = u := by
  cases role <;> rfl

theorem table_setTable_other (u : FlowTable) : (dh.setTable u role).table role.other = dh.table role.other := by
  cases role <;> rfl

theorem existing_table (dh : DatapathHandler) (o : Origin) (k : Tuple) (role : Role) :
    (dh.existing o k).2.table role = dh.table role ∨
      (dh.existing o k).2.table role = ((dh.table role).lookup k o).2 := by
  unfold existing
  split
  next flow t found =>
    cases role with
    | client => exact .inr (congrArg Prod.snd found).symm
    | connector => exact .inl rfl
  next t found =>
    cases role with
    | client => exact .inr (congrArg Prod.snd found).symm
    | connector => exact .inr rfl

theorem view_existing (dh : DatapathHandler) (o : Origin) (k : Tuple) (role : Role) :
    ((dh.existing o k).2.table role).view = (dh.table role).view := by
  rcases dh.existing_table o k role with same | same
  · rw [same]
  · rw [same, view_lookup]

theorem unbounded_existing (unbounded : (dh.table role).Unbounded) (k : Tuple) :
    ((dh.existing o k).2.table role).Unbounded := by
  rcases dh.existing_table o k role with same | same
  · rwa [same]
  · rw [same]
    exact .lookup unbounded k

theorem existing_fst (empty : ∀ o k, (dh.table role.other).view o k = none) :
    (dh.existing o k).1 = ((dh.table role).view o k).map (·.flow) := by
  have client := dh.clientFlowTable.lookup_fst k o
  have connector := dh.connectorFlowTable.lookup_fst k o
  unfold existing
  split
  next flow t found =>
    rw [found] at client
    cases role with
    | client => exact client
    | connector =>
      have nothing : dh.clientFlowTable.view o k = none := empty o k
      rw [nothing] at client
      cases client
  next t found =>
    rw [found] at client
    cases role with
    | client =>
      have nothing : dh.connectorFlowTable.view o k = none := empty o k
      rw [nothing] at connector
      exact connector.trans client
    | connector => exact connector

section Handle
variable {unmapped : MapError} {mapped : Except MapError (Option Addr)}
  (proto : p.ipProto = .tcp ∨ p.ipProto = .udp)
include proto

theorem handlePacket_hit {flow : FlowData} (found : (dh.existing o p.tuple).1 = some flow)
    (updated : flow.action.run p = some q) :
    dh.handlePacket o role unmapped mapped p = some ((.accept, q), (dh.existing o p.tuple).2) := by
  rw [handlePacket, if_neg (by tauto)]
  cases looked : dh.existing o p.tuple with
  | mk =>
    rw [looked] at found
    cases found
    exact congrArg (Option.map _) updated

theorem handlePacket_start (missing : (dh.existing o p.tuple).1 = none) (somewhere : mapped = .ok (some a))
    (updated : p.updateDstAddr a = some q) :
    ∃ dh', dh.handlePacket o role unmapped mapped p = some ((.accept, q), dh') := by
  rw [handlePacket, if_neg (by tauto)]
  cases looked : dh.existing o p.tuple with
  | mk =>
    rw [looked] at missing
    cases missing
    cases somewhere
    exact ⟨_, congrArg (Option.map _) updated⟩

end Handle

end DatapathHandler

structure Node (role : Role) (o : Origin) (route : Packet → Option Addr) (dh : DatapathHandler)
    (log : List (Packet × Packet)) : Prop where
  empty : ∀ o k, (dh.table role.other).view o k = none
  kept : Kept o route (dh.table role) log

namespace Node
variable {dh dh' : DatapathHandler} {role : Role} {unmapped : MapError}
  {mapped : Except MapError (Option Addr)} {result : Response × Packet}

theorem start (role : Role) : Node role o route .newDatapathHandler [] := by
  constructor
  · intro o k
    cases role <;> cases o <;> rfl
  · cases role <;> exact .start

section
variable (node : Node role o route dh log)
include node

theorem existing (o' : Origin) (k : Tuple) :
    Node role o route (dh.existing o' k).2 log := by
  constructor
  · intro o k
    rw [dh.view_existing]
    exact node.empty o k
  · exact node.kept.of_view (dh.view_existing ..) (dh.unbounded_existing node.kept.unbounded k)

theorem inward {o' : Origin} {role' : Role} (nowhere : ∀ a, mapped ≠ .ok (some a))
    (handled : dh.handlePacket o' role' unmapped mapped p = some (result, dh')) :
    Node role o route dh' log := by
  unfold DatapathHandler.handlePacket at handled
  split at handled
  · cases handled
    exact node
  have same := node.existing o' p.tuple
  cases looked : dh.existing o' p.tuple with
  | mk flow =>
    rw [looked] at handled same
    cases flow with
    | some =>
      obtain ⟨q, -, done⟩ := map_eq_some_iff.1 handled
      cases done
      exact same
    | none =>
      cases mapped with
      | error =>
        cases handled
        exact same
      | ok a =>
        cases a with
        | none =>
          cases handled
          exact same
        | some a => exact absurd rfl (nowhere a)

theorem outward (routes : Routes route)
    (routed : p.ipProto = .tcp ∨ p.ipProto = .udp → route p = mapped.toOption.join)
    (handled : dh.handlePacket o role unmapped mapped p = some (result, dh')) :
    Node role o route dh' (if (route p).isSome then log ++ [(p, result.2)] else log) := by
  unfold DatapathHandler.handlePacket at handled
  by_cases proto : p.ipProto ≠ .tcp ∧ p.ipProto ≠ .udp
  · rw [if_pos proto] at handled
    cases handled
    have unrouted : route p = none := by
      rw [eq_none_iff_forall_ne_some]
      intro a found
      exact (routes.proto p a found).elim proto.1 proto.2
    rw [unrouted]
    exact node
  · rw [if_neg proto] at handled
    have routed := routed (by tauto)
    have same := node.existing o p.tuple
    have found : (dh.existing o p.tuple).1 = _ := dh.existing_fst node.empty
    have view := dh.view_existing o p.tuple role
    cases looked : dh.existing o p.tuple with
    | mk flow after =>
      rw [looked] at handled same found view
      cases flow with
      | some =>
        obtain ⟨e, viewed, rfl⟩ := map_eq_some_iff.1 found.symm
        obtain ⟨q, updated, done⟩ := map_eq_some_iff.1 handled
        cases done
        obtain ⟨a, routed', updated', back⟩ := node.kept.hit routes viewed updated
        rw [← view] at back
        rw [routed']
        exact ⟨same.empty, same.kept.record routed' updated' back⟩
      | none =>
        have fresh : (after.table role).view o p.tuple = none := by
          rw [view]
          exact map_eq_none_iff.1 found.symm
        cases mapped with
        | error =>
          cases handled
          rw [routed]
          exact same
        | ok a =>
          cases a with
          | none =>
            cases handled
            rw [routed]
            exact same
          | some =>
            obtain ⟨q, updated, done⟩ := map_eq_some_iff.1 handled
            cases done
            rw [routed]
            refine ⟨?_, ?_⟩
            · rw [DatapathHandler.table_setTable_other]
              exact same.empty
            · rw [DatapathHandler.table_setTable]
              exact same.kept.install fresh routed updated

theorem outward_eq (routes : Routes route) (routed : route p = some a)
    (somewhere : mapped = .ok (some a)) :
    ∃ q dh', p.updateDstAddr a = some q ∧
      dh.handlePacket o role unmapped mapped p = some ((.accept, q), dh') := by
  have proto := routes.proto p a routed
  have family : p.src.addr.is4 = a.is4 := by rw [routes.family p a routed, p.family]
  obtain ⟨q, updated⟩ : ∃ q, p.updateDstAddr a = some q := ⟨_, dif_pos family⟩
  have found : (dh.existing o p.tuple).1 = _ := dh.existing_fst node.empty
  cases viewed : (dh.table role).view o p.tuple with
  | none =>
    rw [viewed] at found
    obtain ⟨dh', handled⟩ := dh.handlePacket_start proto found somewhere updated
    exact ⟨q, dh', updated, handled⟩
  | some e =>
    rw [viewed] at found
    obtain ⟨p', a', same, routed', action, -⟩ := node.kept.fwd _ e viewed
    have dst := (routes.plain p' a' routed').1.inj (routes.plain p a routed).1 (congrArg Tuple.dst same)
    have family' : p'.src.addr.is4 = p.src.addr.is4 := by rw [p'.family, p.family, dst]
    obtain ⟨proto', src, dst⟩ := ends_of_tuple same family'
    have equal := (routes.same p' p proto' src dst).symm.trans routed'
    cases Option.some.inj (routed.symm.trans equal)
    refine ⟨q, _, updated, dh.handlePacket_hit proto found ?_⟩
    rw [action]
    exact updated

theorem reply_eq (last : lastTo log k = some (p, q))
    (proto : x.ipProto = .tcp ∨ x.ipProto = .udp) (swapped : x.tuple = k.swap)
    (family : p.dst.addr.is4 = x.dst.addr.is4) (role' : Role) :
    ∃ y dh', x.updateSrcAddr p.dst.addr = some y ∧
      dh.handlePacket o.other role' unmapped mapped x = some ((.accept, y), dh') := by
  obtain ⟨y, updated⟩ : ∃ y, x.updateSrcAddr p.dst.addr = some y := ⟨_, dif_pos family⟩
  obtain ⟨a, routed, back⟩ := node.kept.last k p q last
  obtain ⟨member, same⟩ := lastTo_mem last
  obtain ⟨a', routed', updated'⟩ := node.kept.logged p q member
  cases Option.some.inj (routed.symm.trans routed')
  have tuple : x.tuple = p.back a := by rw [back_eq updated', swapped, ← same]
  have found : (dh.existing o.other x.tuple).1 = _ := dh.existing_fst node.empty
  rw [tuple, back, ← tuple] at found
  exact ⟨y, _, updated, dh.handlePacket_hit proto found updated⟩

end

end Node

structure Mapping (mc mk : IPMapper) : Prop where
  client : ∀ src t a, mc.connectorRealIPForTransitIPConnection src t ≠ .ok (some a)
  connector : ∀ m a, mk.clientTransitIPForMagicIP m ≠ .ok (some a)
  transit : ∀ m t, mc.clientTransitIPForMagicIP m = .ok (some t) → t.is4 = m.is4 ∧ m.Plain ∧ t.Plain
  real : ∀ src t r, mk.connectorRealIPForTransitIPConnection src t = .ok (some r) →
    r.is4 = t.is4 ∧ t.Plain ∧ r.Plain
  injective : ∀ m m' t, mc.clientTransitIPForMagicIP m = .ok (some t) →
    mc.clientTransitIPForMagicIP m' = .ok (some t) → m = m'

theorem IPMapper.route_proto {role : Role} (routed : m.route role p = some a) :
    p.ipProto = .tcp ∨ p.ipProto = .udp := by
  unfold route at routed
  split at routed
  · cases routed
  · tauto

theorem IPMapper.route_same (m : IPMapper) (role : Role) {p p' : Packet} (proto : p.ipProto = p'.ipProto)
    (src : p.src = p'.src) (dst : p.dst = p'.dst) : m.route role p = m.route role p' := by
  unfold route
  rw [proto, src, dst]

theorem toOption_join {mapped : Except MapError (Option Addr)} :
    mapped.toOption.join = some a ↔ mapped = .ok (some a) := by
  cases mapped with
  | error | ok => simp [Except.toOption]

theorem IPMapper.route_client (proto : p.ipProto = .tcp ∨ p.ipProto = .udp) :
    m.route .client p = (m.clientTransitIPForMagicIP p.dst.addr).toOption.join := by
  rw [route, if_neg (by tauto)]

theorem IPMapper.route_connector (proto : p.ipProto = .tcp ∨ p.ipProto = .udp) :
    m.route .connector p =
      (m.connectorRealIPForTransitIPConnection p.src.addr p.dst.addr).toOption.join := by
  rw [route, if_neg (by tauto)]

theorem IPMapper.transit_of_route (routed : m.route .client p = some a) :
    m.clientTransitIPForMagicIP p.dst.addr = .ok (some a) := by
  rwa [route_client (route_proto routed), toOption_join] at routed

namespace Mapping
variable {mc mk : IPMapper}

theorem routesClient (mapping : Mapping mc mk) : Routes (mc.route .client) where
  proto _ _ routed := route_proto routed
  same _ _ proto src dst := mc.route_same .client proto src dst
  family _ _ routed := (mapping.transit _ _ (transit_of_route routed)).1
  plain _ _ routed := (mapping.transit _ _ (transit_of_route routed)).2

theorem routesConnector (mapping : Mapping mc mk) : Routes (mk.route .connector) where
  proto _ _ routed := route_proto routed
  same _ _ proto src dst := mk.route_same .connector proto src dst
  family p a routed := by
    rw [route_connector (route_proto routed), toOption_join] at routed
    exact (mapping.real _ _ _ routed).1
  plain p a routed := by
    rw [route_connector (route_proto routed), toOption_join] at routed
    exact (mapping.real _ _ _ routed).2

end Mapping

section OfRuns
variable {assignments : AddrAssignments} {now : Time} {e : Extension}

theorem ipMapper_transit {m t : Addr}
    (mapped : (ipMapper assignments now e).clientTransitIPForMagicIP m = .ok (some t)) :
    ∃ as, assignments.lookupByMagicIP m now = some as ∧ as.transit = t := by
  unfold ipMapper at mapped
  dsimp only at mapped
  split at mapped
  next as found =>
    cases mapped
    exact ⟨as, found, rfl⟩
  · split at mapped <;> cases mapped

theorem ipMapper_real {src t r : Addr}
    (mapped : (ipMapper assignments now e).connectorRealIPForTransitIPConnection src t = .ok (some r)) :
    ∃ v, e.connector.lookupBySrcIPAndTransitIP src (some t) = some v ∧ v.addr = some r := by
  unfold ipMapper at mapped
  dsimp only at mapped
  split at mapped
  next addr found =>
    cases mapped
    exact map_eq_some_iff.1 found
  · split at mapped <;> cases mapped

theorem mapping_of_runs {c : Client} {ops : List Op} (run : Run step .newClient ops c) (later : c.now ≤ now)
    (clean : e.connector.transitIPs = ∅) (events : List Extension.Event) {k : Extension}
    (reached : events.foldl Extension.step .newConn25 = k)
    (transit : ∀ m as, c.assignments.lookupByMagicIP m now = some as →
      as.transit.is4 = as.magic.is4 ∧ as.magic.Plain ∧ as.transit.Plain)
    (real : ∀ src t v r, k.connector.lookupBySrcIPAndTransitIP src (some t) = some v → v.addr = some r →
      t.Plain ∧ r.Plain) : Mapping (ipMapper c.assignments now e) (ipMapper .empty now k) := by
  have consistent := ((indexed_of_run run).later later).consistent
  constructor
  · intro src t a mapped
    obtain ⟨v, found, -⟩ := ipMapper_real mapped
    rw [Connector.lookupBySrcIPAndTransitIP, clean, AList.lookup_empty] at found
    cases found
  · intro m a mapped
    obtain ⟨as, found, -⟩ := ipMapper_transit mapped
    cases found
  · intro m t mapped
    obtain ⟨as, found, rfl⟩ := ipMapper_transit mapped
    obtain rfl := consistent.magic m as found
    exact transit _ as found
  · intro src t r mapped
    obtain ⟨v, found, addr⟩ := ipMapper_real mapped
    have family := Extension.family_of_run events src (some t) v (reached ▸ found)
    rw [addr] at family
    exact ⟨family.symm, real src t v r found addr⟩
  · intro m m' t mapped mapped'
    obtain ⟨as, found, rfl⟩ := ipMapper_transit mapped
    obtain ⟨as', found', same⟩ := ipMapper_transit mapped'
    obtain rfl := consistent.magic m as found
    obtain rfl := consistent.magic m' as' found'
    exact congrArg Addrs.magic (consistent.apart as as' found found' (.inr (.inl same.symm)))

end OfRuns

structure Path.Flows (mc mk : IPMapper) (s : Path) : Prop where
  client : Node .client .fromTun (mc.route .client) s.client s.sent
  connector : Node .connector .fromWireGuard (mk.route .connector) s.connector s.left

namespace Path
variable {mc mk : IPMapper} {s s' : Path} {ops : List Hop}

theorem Flows.next (flows : s.Flows mc mk) (mapping : Mapping mc mk) {op : Hop}
    (taken : s.step mc mk op = some s') : s'.Flows mc mk := by
  cases op with
  | send =>
    obtain ⟨⟨⟨resp, q⟩, client⟩, handled, rfl⟩ := map_eq_some_iff.1 taken
    exact ⟨flows.client.outward mapping.routesClient route_client handled, flows.connector⟩
  | forward =>
    obtain ⟨⟨⟨resp, q⟩, connector⟩, handled, rfl⟩ := map_eq_some_iff.1 taken
    exact ⟨flows.client,
      flows.connector.outward mapping.routesConnector route_connector handled⟩
  | reply =>
    obtain ⟨⟨result, connector⟩, handled, rfl⟩ := map_eq_some_iff.1 taken
    exact ⟨flows.client, flows.connector.inward (mapping.connector _) handled⟩
  | deliver =>
    obtain ⟨⟨result, client⟩, handled, rfl⟩ := map_eq_some_iff.1 taken
    exact ⟨flows.client.inward (mapping.client _ _) handled, flows.connector⟩

theorem Flows.after (flows : s.Flows mc mk) (mapping : Mapping mc mk) (run : Run (step mc mk) s ops s') :
    s'.Flows mc mk := by
  induction run with
  | refl => exact flows
  | snoc _ taken ih => exact ih.next mapping taken

theorem sent_mono (run : Run (step mc mk) s ops s') (member : e ∈ s.sent) :
    e ∈ s'.sent := by
  induction run with
  | refl => exact member
  | @snoc _ _ _ op _ taken ih =>
    cases op with
    | send =>
      obtain ⟨⟨⟨resp, q⟩, client⟩, -, rfl⟩ := map_eq_some_iff.1 taken
      show e ∈ if _ then _ else _
      split
      · exact mem_append_left _ ih
      · exact ih
    | forward | reply | deliver =>
      obtain ⟨-, -, rfl⟩ := map_eq_some_iff.1 taken
      exact ih

theorem deliver_eq (mapping : Mapping mc mk) (flows : s.Flows mc mk) {y : Packet} {transit : Addr}
    (routed : mc.route .client p = some transit) (updated : p.updateDstAddr transit = some q)
    (member : (p, q) ∈ s.sent) (proto : y.ipProto = p.ipProto) (src : y.src = q.dst)
    (dst : y.dst = p.src) :
    ∃ z client, s.client.handlePacketFromWireGuard mc y = some ((.accept, z), client) ∧
      y.updateSrcAddr p.dst.addr = some z := by
  obtain ⟨-, qproto, qsrc, qdst, -⟩ := updateDstAddr_eq updated
  have same : y.tuple = q.tuple.swap := by
    rw [tuple, tuple, proto, src, dst, ← qproto, ← qsrc]
    rfl
  obtain ⟨⟨p', q'⟩, last⟩ := exists_lastTo member
  obtain ⟨member', tuple⟩ := lastTo_mem last
  obtain ⟨transit', routed', updated'⟩ := flows.client.kept.logged p' q' member'
  obtain ⟨-, -, -, qdst', -⟩ := updateDstAddr_eq updated'
  -- the two packets were sent to one transit address, which has one magic address
  have equal : transit' = transit := by
    have value := congrArg Tuple.dst tuple
    change q'.dst.addr.as16 = q.dst.addr.as16 at value
    rw [qdst, qdst'] at value
    exact (mapping.routesClient.plain p' _ routed').2.inj (mapping.routesClient.plain p _ routed).2 value
  subst equal
  have magic : p'.dst.addr = p.dst.addr :=
    mapping.injective _ _ _ (transit_of_route routed') (transit_of_route routed)
  have proto' : y.ipProto = .tcp ∨ y.ipProto = .udp := by
    rw [proto]
    exact route_proto routed
  have family : p'.dst.addr.is4 = y.dst.addr.is4 := by rw [magic, dst, p.family]
  obtain ⟨z, client, updatedz, handled⟩ := flows.client.reply_eq last proto' same family .connector
  exact ⟨z, client, handled, magic ▸ updatedz⟩

/-- A packet of an application is sent on to a real address, whenever it arrives at the connector. -/
def Transparent (mc mk : IPMapper) (s : Path) (p : Packet) (transit real : Addr) : Prop :=
  ∃ q r, p.updateDstAddr transit = some q ∧ p.updateDstAddr real = some r ∧
    (∃ client, s.client.handlePacketFromTunDevice mc p = some ((.accept, q), client)) ∧
    (∀ more s', Run (step mc mk) s more s' →
      ∃ connector, s'.connector.handlePacketFromWireGuard mk q = some ((.accept, r), connector)) ∧
    ((p, q) ∈ s.sent → (∃ q' r', lastTo s.left r.tuple = some (q', r') ∧ q'.dst = q.dst) →
      ∀ x : Packet, x.ipProto = p.ipProto → x.src = r.dst → x.dst = r.src →
      ∃ y connector, s.connector.handlePacketFromTunDevice mk x = some ((.accept, y), connector) ∧
        ∀ more s', Run (step mc mk) s more s' →
        ∃ z client, s'.client.handlePacketFromWireGuard mc y = some ((.accept, z), client) ∧
          z.ipProto = p.ipProto ∧ z.src = p.dst ∧ z.dst = p.src ∧ z.payload = x.payload)

theorem transparent_of_run (mapping : Mapping mc mk) (run : Run (step mc mk) .new ops s)
    {transit real : Addr} (assigned : mc.route .client p = some transit)
    (registered : mk.connectorRealIPForTransitIPConnection p.src.addr transit = .ok (some real)) :
    s.Transparent mc mk p transit real := by
  have flows := Flows.after ⟨.start .client, .start .connector⟩ mapping run
  have proto := route_proto assigned
  have out : ∃ q client, p.updateDstAddr transit = some q ∧
      s.client.handlePacketFromTunDevice mc p = some ((.accept, q), client) :=
    flows.client.outward_eq mapping.routesClient assigned (transit_of_route assigned)
  obtain ⟨q, client, sent, handled⟩ := out
  obtain ⟨-, qproto, qsrc, qdst, qpayload⟩ := updateDstAddr_eq sent
  have registered' : mk.connectorRealIPForTransitIPConnection q.src.addr q.dst.addr = .ok (some real) := by
    rw [qsrc, qdst]
    exact registered
  have routed : mk.route .connector q = some real := by
    rw [route_connector (qproto ▸ proto), registered']
    rfl
  have family : p.src.addr.is4 = real.is4 := by
    rw [mapping.routesConnector.family q real routed, ← q.family, qsrc]
  obtain ⟨r, left⟩ : ∃ r, p.updateDstAddr real = some r := ⟨_, dif_pos family⟩
  obtain ⟨-, rproto, rsrc, rdst, -⟩ := updateDstAddr_eq left
  refine ⟨q, r, sent, left, ⟨client, handled⟩, ?_, ?_⟩
  · intro more s' later
    have on : ∃ r' connector, q.updateDstAddr real = some r' ∧
        s'.connector.handlePacketFromWireGuard mk q = some ((.accept, r'), connector) :=
      (flows.after mapping later).connector.outward_eq mapping.routesConnector routed registered'
    obtain ⟨r', connector, left', handled'⟩ := on
    rw [updateDstAddr_twice sent, left] at left'
    cases left'
    exact ⟨connector, handled'⟩
  · rintro member ⟨q', r', last, same⟩ x xproto xsrc xdst
    have xproto' : x.ipProto = .tcp ∨ x.ipProto = .udp := by
      rw [xproto]
      exact proto
    have swapped : x.tuple = r.tuple.swap := by
      rw [tuple, tuple, xproto, xsrc, xdst, ← rproto]
      rfl
    have xfamily : q'.dst.addr.is4 = x.dst.addr.is4 := by rw [same, ← q.family, xdst, rsrc, qsrc]
    have back : ∃ y connector, x.updateSrcAddr q'.dst.addr = some y ∧
        s.connector.handlePacketFromTunDevice mk x = some ((.accept, y), connector) :=
      flows.connector.reply_eq last xproto' swapped xfamily .client
    obtain ⟨y, connector, updated, handled'⟩ := back
    obtain ⟨-, yproto, ysrc, ydst, ypayload⟩ := updateSrcAddr_eq updated
    refine ⟨y, connector, handled', fun more s' later => ?_⟩
    have ysrc' : y.src = q.dst := by rw [ysrc, same, xsrc, rdst, qdst]
    have ydst' : y.dst = p.src := by rw [ydst, xdst, rsrc]
    obtain ⟨z, client', delivered, updated'⟩ := deliver_eq mapping (flows.after mapping later) assigned sent
      (sent_mono later member) (yproto.trans xproto) ysrc' ydst'
    obtain ⟨-, zproto, zsrc, zdst, zpayload⟩ := updateSrcAddr_eq updated'
    refine ⟨z, client', delivered, ?_, ?_, ?_, ?_⟩
    · rw [zproto, yproto, xproto]
    · rw [zsrc, ysrc', qdst]
    · rw [zdst, ydst']
    · rw [zpayload, ypayload]

end Path

namespace Sample

def twinSets : IPSets :=
  { ipSets with v4Magic := v4Set 0x64640000 0x6464007f (by decide) }

def shared : Addr := .v4 0x0a000002

def magic (n : Nat) : Addr := .v4 (0x64640000 + BitVec.ofNat 32 n)

def transitOf (n : Nat) : Addr := .v4 (0xa9fe0000 + BitVec.ofNat 32 n)

def twinOps : List Op :=
  [.reconfig twinSets, .reserveAddresses [97] [1] (some shared) 1 1,
    .reserveAddresses [97] [2] (some shared) 1 1]

def twinEvents : List Extension.Event :=
  [.reconfig config,
    .request peer [⟨some (transitOf 0), some shared, [97]⟩, ⟨some (transitOf 1), some shared, [97]⟩]]

def twinClient : Client := (twinOps.foldlM step .newClient).getD .newClient

def twinConnector : Extension := twinEvents.foldl Extension.step .newConn25

def clientMapper : IPMapper := ipMapper twinClient.assignments 1 .newConn25

def connectorMapper : IPMapper := ipMapper .empty 1 twinConnector

theorem twin_facts :
    (twinOps.foldlM step .newClient).isSome = true ∧ twinClient.now ≤ 1 ∧
    (∀ e ∈ twinClient.assignments.byMagicIP.entries,
      e.2.transit.is4 = e.2.magic.is4 ∧ e.2.magic.unmap = e.2.magic ∧ e.2.transit.unmap = e.2.transit) ∧
    ∀ e ∈ twinConnector.connector.transitIPs.entries, ∀ f ∈ e.2.entries,
      (∀ t ∈ f.1, t.unmap = t) ∧ ∀ r ∈ f.2.addr, r.unmap = r := by
  decide +kernel

theorem twin_run : Run step .newClient twinOps twinClient :=
  run_of_foldlM (getD_of_ne_none (ne_none_iff_isSome.2 twin_facts.1) _).symm

theorem twin_mapping : Mapping clientMapper connectorMapper := by
  obtain ⟨-, now, transit, real⟩ := twin_facts
  refine mapping_of_runs twin_run now rfl twinEvents rfl ?_ ?_
  · intro m as found
    have stored := (AddrAssignments.unexpired_eq_some.1 found).1
    exact transit _ (AList.mem_lookup_iff.1 stored)
  · intro src t v r found addr
    obtain ⟨peerMap, outer, inner⟩ := bind_eq_some_iff.1 found
    obtain ⟨plain, plain'⟩ := real _ (AList.mem_lookup_iff.1 outer) _ (AList.mem_lookup_iff.1 inner)
    exact ⟨plain t rfl, plain' r addr⟩

def toMagic (n : Nat) : Packet :=
  ⟨.tcp, ⟨.v4 0x64400001, 5000⟩, ⟨magic n, 80⟩, [1], rfl⟩

def toTransit (n : Nat) : Packet :=
  ⟨.tcp, ⟨.v4 0x64400001, 5000⟩, ⟨transitOf n, 80⟩, [1], rfl⟩

def toReal : Packet := ⟨.tcp, ⟨.v4 0x64400001, 5000⟩, ⟨shared, 80⟩, [1], rfl⟩

def fromReal : Packet := ⟨.tcp, ⟨shared, 80⟩, ⟨.v4 0x64400001, 5000⟩, [2], rfl⟩

def twoFlows : List Hop :=
  [.send (toMagic 0), .forward (toTransit 0), .send (toMagic 1), .forward (toTransit 1)]

/-- Where a reply is delivered from after some hops, with what was sent and what left before. -/
def answered (hops : List Hop) : Option ((List (Packet × Packet) × List (Packet × Packet)) × Packet) :=
  (hops.foldlM (Path.step clientMapper connectorMapper) .new).bind fun s =>
    (s.connector.handlePacketFromTunDevice connectorMapper fromReal).bind fun ((_, y), _) =>
      (s.client.handlePacketFromWireGuard clientMapper y).map fun ((_, z), _) => ((s.sent, s.left), z)

theorem answered_facts :
    clientMapper.route .client (toMagic 0) = some (transitOf 0) ∧
    connectorMapper.connectorRealIPForTransitIPConnection (toMagic 0).src.addr (transitOf 0) =
      .ok (some shared) ∧
    (answered (twoFlows.take 2)).map (fun e => e.2.src) = some (toMagic 0).dst ∧
    (answered twoFlows).map (fun e => (decide ((toMagic 0, toTransit 0) ∈ e.1.1 ∧
      (toTransit 0, toReal) ∈ e.1.2), e.2.src)) = some (true, (toMagic 1).dst) := by
  decide +kernel

theorem first_transparent : ∃ s,
    Run (Path.step clientMapper connectorMapper) .new (twoFlows.take 2) s ∧
      s.Transparent clientMapper connectorMapper (toMagic 0) (transitOf 0) shared := by
  obtain ⟨assigned, registered, returned, -⟩ := answered_facts
  obtain ⟨e, found, -⟩ := map_eq_some_iff.1 returned
  obtain ⟨s, reached, -⟩ := bind_eq_some_iff.1 found
  have run := run_of_foldlM reached
  exact ⟨s, run, Path.transparent_of_run twin_mapping run assigned registered⟩

def assigning (transit : Addr → Addr) : IPMapper := ⟨fun m => .ok (some (transit m)), fun _ _ => .ok none⟩

/-- The packet to the first magic address, with IPv6 addresses that stand for its own. -/
def toMapped : Packet :=
  ⟨.tcp, ⟨.v6 (toMagic 0).src.addr.as16, 5000⟩, ⟨.v6 (toMagic 0).dst.addr.as16, 80⟩, [1], rfl⟩

def app : Addr := (toMagic 0).src.addr

/-- A node that is both a client and a connector. -/
def bothRoles (m transit real : Addr) : IPMapper :=
  ⟨fun a => .ok (if a = m then some transit else none), fun _ _ => .ok (some real)⟩

/-- A packet of TCP on the ports of a reply. -/
def crossing (src dst : BitVec 32) : Packet := ⟨.tcp, ⟨.v4 src, 80⟩, ⟨.v4 dst, 5000⟩, [1], rfl⟩

/-- A reply to the packet to the first magic address comes back from the second one. A client panics
whose transit address is of another family, or that has seen a packet whose addresses stand for those
of another. A packet through a node in both roles takes the flow that a packet of the other role left
there. -/
theorem reply_from_other_magic : (∃ s y z connector client,
    Run (Path.step clientMapper connectorMapper) .new twoFlows s ∧
      (toMagic 0, toTransit 0) ∈ s.sent ∧ (toTransit 0, toReal) ∈ s.left ∧
      fromReal.src = toReal.dst ∧ fromReal.dst = toReal.src ∧
      s.connector.handlePacketFromTunDevice connectorMapper fromReal = some (y, connector) ∧
      s.client.handlePacketFromWireGuard clientMapper y.2 = some (z, client) ∧
      z.2.src = (toMagic 1).dst ∧ z.2.src ≠ (toMagic 0).dst) ∧
    Path.new.step (assigning fun _ => .v6 1) connectorMapper (.send (toMagic 0)) = none ∧
    (∃ s, Path.new.step (assigning fun m => if m.is4 then transitOf 0 else .v6 1) connectorMapper
        (.send (toMagic 0)) = some s ∧
      s.step (assigning fun m => if m.is4 then transitOf 0 else .v6 1) connectorMapper
        (.send toMapped) = none) ∧
    (∃ s q client, Path.new.step (bothRoles (magic 0) (transitOf 0) app) connectorMapper
        (.deliver (crossing 0x64640000 0x0a000002)) = some s ∧
      s.client.handlePacketFromTunDevice (bothRoles (magic 0) (transitOf 0) app) (toMagic 0) =
        some ((.accept, q), client) ∧ q.dst = (toMagic 0).dst) ∧
    ∃ s q connector, Path.new.step clientMapper (bothRoles shared app shared)
        (.reply (crossing 0xa9fe0000 0x0a000002)) = some s ∧
      s.connector.handlePacketFromWireGuard (bothRoles shared app shared) (toTransit 0) =
        some ((.accept, q), connector) ∧ q.dst = (toTransit 0).dst := by
  refine ⟨?_, rfl, ⟨_, rfl, rfl⟩, ⟨_, _, _, rfl, rfl, rfl⟩, _, _, _, rfl, rfl, rfl⟩
  obtain ⟨e, found, facts⟩ := map_eq_some_iff.1 answered_facts.2.2.2
  obtain ⟨s, reached, rest⟩ := bind_eq_some_iff.1 found
  obtain ⟨⟨y, connector⟩, handled, rest⟩ := bind_eq_some_iff.1 rest
  obtain ⟨⟨z, client⟩, delivered, rfl⟩ := map_eq_some_iff.1 rest
  obtain ⟨members, src⟩ := Prod.mk.inj facts
  obtain ⟨sent, left⟩ := of_decide_eq_true members
  refine ⟨s, y, z, connector, client, run_of_foldlM reached, sent, left, rfl, rfl, handled, delivered,
    src, ?_⟩
  rw [show z.2.src = (toMagic 1).dst from src]
  decide

end Sample

end ScaleTail.Conn25
