import ScaleTail.Lib.Lookup
import ScaleTail.Lib.Runs
import ScaleTail.Relay.Server

/-! # The endpoints of the relay -/

namespace ScaleTail.Relay
open Lib Go Net List Option AList Nat Server ServerEndpoint

def vniAt (j : Nat) : UInt32 := UInt32.ofNat (j % totalPossibleVNI + 1)

theorem totalPossibleVNI_eq : totalPossibleVNI = 16777215 := by decide

theorem toNat_vniAt (j : Nat) : (vniAt j).toNat = j % totalPossibleVNI + 1 := by
  rw [vniAt, UInt32.toNat_ofNat', totalPossibleVNI_eq]
  omega

theorem advanceVNI_vniAt (j : Nat) : advanceVNI (vniAt j) = vniAt (j + 1) := by
  have top : maxVNI.toNat = 16777215 := by decide
  apply UInt32.toNat_inj.1
  unfold advanceVNI
  split
  next last =>
    have here := congrArg UInt32.toNat last
    rw [toNat_vniAt, totalPossibleVNI_eq, top] at here
    rw [toNat_vniAt, totalPossibleVNI_eq]
    have bottom : minVNI.toNat = 1 := by decide
    omega
  next inner =>
    have here : (vniAt j).toNat ≠ maxVNI.toNat := fun same => inner (UInt32.toNat_inj.1 same)
    have one : (1 : UInt32).toNat = 1 := rfl
    rw [UInt32.toNat_add, one]
    rw [toNat_vniAt, totalPossibleVNI_eq, top] at here
    rw [toNat_vniAt, toNat_vniAt, totalPossibleVNI_eq]
    omega

theorem exists_vniAt {v : UInt32} : (∃ j, v = vniAt j) ↔ minVNI ≤ v ∧ v ≤ maxVNI := by
  have top : maxVNI.toNat = 16777215 := by decide
  have bottom : minVNI.toNat = 1 := by decide
  rw [UInt32.le_iff_toNat_le, UInt32.le_iff_toNat_le, top, bottom]
  constructor
  · rintro ⟨j, rfl⟩
    rw [toNat_vniAt, totalPossibleVNI_eq]
    omega
  · rintro ⟨low, high⟩
    refine ⟨v.toNat - 1, UInt32.toNat_inj.1 ?_⟩
    rw [toNat_vniAt, totalPossibleVNI_eq]
    omega

variable {s s' : Server}

theorem nextVNILoop_spec (s : Server) (rounds j : Nat) :
    (∃ i, s.nextVNILoop rounds (vniAt j) = (some (vniAt i), vniAt (i + 1)) ∧
      s.serverEndpointByVNI.lookup (vniAt i) = none) ∨
    (s.nextVNILoop rounds (vniAt j) = (none, vniAt (j + rounds)) ∧
      ∀ i < rounds, s.serverEndpointByVNI.lookup (vniAt (j + i)) ≠ none) := by
  induction rounds generalizing j with
  | zero => exact .inr ⟨rfl, nofun⟩
  | succ rounds ih =>
    cases used : s.serverEndpointByVNI.lookup (vniAt j) with
    | none =>
      refine .inl ⟨j, ?_, used⟩
      rw [nextVNILoop, used, advanceVNI_vniAt]
      rfl
    | some =>
      have next : s.nextVNILoop (rounds + 1) (vniAt j) = s.nextVNILoop rounds (vniAt (j + 1)) := by
        rw [nextVNILoop, used, advanceVNI_vniAt]
        rfl
      rw [next]
      rcases ih (j + 1) with ⟨i, found, free⟩ | ⟨failed, all⟩
      · exact .inl ⟨i, found, free⟩
      refine .inr ⟨by rw [failed, add_right_comm, add_assoc], fun i less => ?_⟩
      cases i with
      | zero => simp [used]
      | succ i =>
        have rest := all i (lt_of_succ_lt_succ less)
        rwa [add_assoc, add_comm 1] at rest

theorem getNextVNILocked_spec (next : minVNI ≤ s.nextVNI ∧ s.nextVNI ≤ maxVNI) :
    (∃ i, s.getNextVNILocked = (some (vniAt i), vniAt (i + 1)) ∧
      s.serverEndpointByVNI.lookup (vniAt i) = none) ∨ (∃ i, s.getNextVNILocked = (none, vniAt i)) ∧
      ∀ v, minVNI ≤ v → v ≤ maxVNI → s.serverEndpointByVNI.lookup v ≠ none := by
  obtain ⟨j, at_⟩ := exists_vniAt.2 next
  rw [getNextVNILocked, at_]
  rcases nextVNILoop_spec s totalPossibleVNI j with found | ⟨failed, all⟩
  · exact .inl found
  refine .inr ⟨⟨_, failed⟩, fun v low high => ?_⟩
  -- the round in which the cursor was at `v`
  obtain ⟨i, rfl⟩ := exists_vniAt.2 ⟨low, high⟩
  have positive : 0 < totalPossibleVNI := by decide
  have tried := all ((i % totalPossibleVNI + totalPossibleVNI - j % totalPossibleVNI) %
    totalPossibleVNI) (mod_lt _ positive)
  have same : vniAt (j + (i % totalPossibleVNI + totalPossibleVNI - j % totalPossibleVNI) %
      totalPossibleVNI) = vniAt i := by
    apply UInt32.toNat_inj.1
    rw [toNat_vniAt, toNat_vniAt, totalPossibleVNI_eq]
    omega
  rwa [same] at tried

structure Identity where
  pair : SortedPairOfDiscoPublic
  vni : UInt32
  lamportID : UInt64
  closed : Bool

def ServerEndpoint.identity (e : ServerEndpoint) : Identity :=
  ⟨e.discoPubKeys, e.vni, e.lamportID, e.closed⟩

def Server.identity (s : Server) (p : Nat) : Option Identity :=
  s.endpoints[p]?.map ServerEndpoint.identity

variable {e : ServerEndpoint} {k : SortedPairOfDiscoPublic}

theorem identity_of_getElem? {p : Nat} (here : s.endpoints[p]? = some e) :
    s.identity p = some e.identity :=
  congrArg (Option.map ServerEndpoint.identity) here

def Server.Open (s : Server) (p : Nat) (e : Identity) : Prop :=
  s.closed = false ∧ s.identity p = some e ∧ e.closed = false

structure Registered (s : Server) : Prop where
  disco : Indexes s.serverEndpointByDisco s.Open Identity.pair
  vni : Indexes s.serverEndpointByVNI s.Open Identity.vni
  range : ∀ p e, s.identity p = some e → minVNI ≤ e.vni ∧ e.vni ≤ maxVNI
  next : minVNI ≤ s.nextVNI ∧ s.nextVNI ≤ maxVNI
  last : s.lamportID = UInt64.ofNat s.endpoints.length
  lamport : ∀ p e, s.identity p = some e → e.lamportID = UInt64.ofNat (p + 1)
  retired : ∀ p q e f, s.identity p = some e → s.identity q = some f → p < q → e.vni = f.vni →
    e.closed = true

theorem newServer_registered (k : DiscoPublic) : Registered (newServer k) where
  disco := .empty nofun
  vni := .empty nofun
  range := nofun
  next := show minVNI ≤ minVNI ∧ minVNI ≤ maxVNI by decide
  last := rfl
  lamport := nofun
  retired := nofun

section Insert
variable {pair : SortedPairOfDiscoPublic} {vni nextVNI : UInt32} {now : Time} {p : Nat} {e : Identity}

theorem identity_insertEndpoint : (s.insertEndpoint pair vni nextVNI now).2.identity p = some e ↔
    s.identity p = some e ∨ p = s.endpoints.length ∧ e = ⟨pair, vni, s.lamportID + 1, false⟩ := by
  rw [Server.identity, Server.identity]
  dsimp only [insertEndpoint]
  rcases lt_trichotomy p s.endpoints.length with inside | rfl | outside
  · simp [getElem?_append_left inside, Nat.ne_of_lt inside]
  · simp [ServerEndpoint.identity, eq_comm]
  · simp [le_of_lt outside, Nat.ne_of_gt outside, outside]

theorem lt_of_identity (found : s.identity p = some e) : p < s.endpoints.length := by
  obtain ⟨e', at_, -⟩ := map_eq_some_iff.1 found
  exact (List.getElem?_eq_some_iff.1 at_).1

theorem Registered.insert (reg : Registered s) (opened : s.closed = false)
    (newPair : s.serverEndpointByDisco.lookup pair = none)
    (newVNI : s.serverEndpointByVNI.lookup vni = none) (range : minVNI ≤ vni ∧ vni ≤ maxVNI)
    (next : minVNI ≤ nextVNI ∧ nextVNI ≤ maxVNI) :
    Registered (s.insertEndpoint pair vni nextVNI now).2 := by
  have counter : s.lamportID + 1 = UInt64.ofNat (s.endpoints.length + 1) := by
    rw [reg.last]
    exact (UInt64.ofNat_add _ 1).symm
  have opens : ∀ p e, (s.insertEndpoint pair vni nextVNI now).2.Open p e ↔
      s.Open p e ∨ p = s.endpoints.length ∧ e = ⟨pair, vni, s.lamportID + 1, false⟩ := by
    intro p e
    unfold Server.Open
    rw [identity_insertEndpoint]
    constructor
    · rintro ⟨-, here | last, unclosed⟩
      · exact .inl ⟨opened, here, unclosed⟩
      · exact .inr last
    · rintro (⟨-, here, unclosed⟩ | ⟨rfl, rfl⟩)
      · exact ⟨opened, .inl here, unclosed⟩
      · exact ⟨opened, .inr ⟨rfl, rfl⟩, rfl⟩
  constructor
  case disco => exact reg.disco.insert newPair opens
  case vni => exact reg.vni.insert newVNI opens
  case range =>
    intro p e at_
    rcases identity_insertEndpoint.1 at_ with at_ | ⟨-, rfl⟩
    · exact reg.range p e at_
    · exact range
  case next => exact next
  case last =>
    refine counter.trans ?_
    dsimp only [insertEndpoint]
    rw [List.length_append]
    rfl
  case lamport =>
    intro p e at_
    rcases identity_insertEndpoint.1 at_ with at_ | ⟨rfl, rfl⟩
    · exact reg.lamport p e at_
    · exact counter
  case retired =>
    intro p q e f atP atQ less same
    rcases identity_insertEndpoint.1 atQ with atQ | ⟨rfl, rfl⟩
    · have inside := lt_of_identity atQ
      have atP := (identity_insertEndpoint.1 atP).resolve_right fun last => absurd last.1 (by omega)
      exact reg.retired p q e f atP atQ less same
    · have atP := (identity_insertEndpoint.1 atP).resolve_right fun last => absurd last.1 (by omega)
      by_contra unclosed
      have held := (reg.vni e.vni p).2 ⟨e, ⟨opened, atP, Bool.not_eq_true _ ▸ unclosed⟩, rfl⟩
      exact ne_of_none held newVNI same

end Insert

structure Server.Serves (s : Server) (discoA discoB : DiscoPublic) : Prop where
  opened : s.closed = false
  ready : ¬ (s.staticAddrPorts.length = 0 ∧ s.dynamicAddrPorts.length = 0)
  clients : ¬ (discoA = s.discoPublic ∨ discoB = s.discoPublic)

inductive Allocates (s : Server) (discoA discoB : DiscoPublic) (now : Time) :
    Except Err Allocation × Server → Prop
  | refused {err : Err} : ¬ s.Serves discoA discoB → err ≠ .vniPoolExhausted →
      Allocates s discoA discoB now (.error err, s)
  | held {p : Nat} {e : ServerEndpoint} :
      s.serverEndpointByDisco.lookup (newSortedPairOfDiscoPublic discoA discoB) = some p →
      s.endpoints[p]? = some e → Allocates s discoA discoB now (.ok (s.allocation e), s)
  | full {j : Nat} : (∀ v, minVNI ≤ v → v ≤ maxVNI → s.serverEndpointByVNI.lookup v ≠ none) →
      Allocates s discoA discoB now (.error .vniPoolExhausted, { s with nextVNI := vniAt j })
  | new {j : Nat} {t : ServerEndpoint × Server} : s.closed = false →
      s.serverEndpointByDisco.lookup (newSortedPairOfDiscoPublic discoA discoB) = none →
      s.serverEndpointByVNI.lookup (vniAt j) = none →
      t = s.insertEndpoint (newSortedPairOfDiscoPublic discoA discoB) (vniAt j) (vniAt (j + 1)) now →
      Allocates s discoA discoB now (.ok (t.2.allocation t.1), t.2)

theorem Registered.allocates (reg : Registered s) (discoA discoB : DiscoPublic) (now : Time) :
    Allocates s discoA discoB now (s.allocateEndpoint discoA discoB now) := by
  unfold allocateEndpoint
  split
  next closed => exact .refused (fun serves => Bool.false_ne_true (serves.opened ▸ closed)) nofun
  next opened =>
  split
  next empty => exact .refused (fun serves => serves.ready empty) nofun
  split
  next own => exact .refused (fun serves => serves.clients own) nofun
  dsimp only
  cases found : s.serverEndpointByDisco.lookup (newSortedPairOfDiscoPublic discoA discoB) with
  | some p =>
    obtain ⟨e, ⟨-, at_, -⟩, -⟩ := (reg.disco _ p).1 found
    obtain ⟨ep, here, -⟩ := map_eq_some_iff.1 at_
    rw [bind_some, here]
    exact .held found here
  | none =>
    rcases getNextVNILocked_spec reg.next with ⟨j, next, free⟩ | ⟨⟨j, failed⟩, all⟩
    · rw [next]
      exact .new (Bool.not_eq_true _ ▸ opened) found free rfl
    · rw [failed]
      exact .full all

theorem range_vniAt (j : Nat) : minVNI ≤ vniAt j ∧ vniAt j ≤ maxVNI := exists_vniAt.1 ⟨j, rfl⟩

theorem Registered.allocateEndpoint (reg : Registered s) (discoA discoB : DiscoPublic) (now : Time) :
    Registered (s.allocateEndpoint discoA discoB now).2 := by
  generalize outcome : s.allocateEndpoint discoA discoB now = r
  have allocates := reg.allocates discoA discoB now
  rw [outcome] at allocates
  cases allocates with
  | refused | held => exact reg
  | full => exact { reg with next := range_vniAt _ }
  | new opened absent free same =>
    rw [same]
    exact reg.insert opened absent free (range_vniAt _) (range_vniAt _)

theorem Registered.of_was (reg : Registered s) (disco : Indexes s'.serverEndpointByDisco s'.Open Identity.pair)
    (vni : Indexes s'.serverEndpointByVNI s'.Open Identity.vni) (next : s'.nextVNI = s.nextVNI)
    (last : s'.lamportID = s.lamportID) (length : s'.endpoints.length = s.endpoints.length)
    (was : ∀ p e, s'.identity p = some e → ∃ closed, s.identity p = some { e with closed } ∧
      (closed = true → e.closed = true)) : Registered s' where
  disco := disco
  vni := vni
  range := by
    intro p e at_
    obtain ⟨closed, at_, -⟩ := was p e at_
    exact reg.range p { e with closed } at_
  next := next ▸ reg.next
  last := by rw [last, length, reg.last]
  lamport := by
    intro p e at_
    obtain ⟨closed, at_, -⟩ := was p e at_
    exact reg.lamport p { e with closed } at_
  retired := by
    intro p q e f atP atQ less same
    obtain ⟨closed, atP, stays⟩ := was p e atP
    obtain ⟨_, atQ, -⟩ := was q f atQ
    exact stays (reg.retired p q _ _ atP atQ less same)

theorem Registered.expireOne (reg : Registered s) (now : Time) {v : Nat}
    (held : s.serverEndpointByDisco.lookup k = some v) : Registered (s.expireOne now k v) := by
  obtain ⟨e, opened, rfl⟩ := (reg.disco k v).1 held
  obtain ⟨ep, here, rfl⟩ := map_eq_some_iff.1 opened.2.1
  unfold Server.expireOne
  rw [here]
  dsimp only
  split
  swap
  · exact reg
  generalize endpoints_eq : s.endpoints.modify v ({ · with closed := true }) = endpoints
  have identity (p : Nat) : endpoints[p]?.map ServerEndpoint.identity =
      if p = v then some { ep.identity with closed := true } else s.identity p := by
    rw [Server.identity, ← endpoints_eq, getElem?_modify]
    by_cases same : p = v
    · rw [same, here, if_pos rfl]
      simp [ServerEndpoint.identity]
    · simp [same, Ne.symm same]
  have opens (p : Nat) (e : Identity) : (s.closed = false ∧ endpoints[p]?.map ServerEndpoint.identity =
      some e ∧ e.closed = false) ↔ s.Open p e ∧ p ≠ v := by
    unfold Server.Open
    rw [identity]
    split
    next same =>
      simp only [same, ne_eq, not_true_eq_false, and_false, iff_false]
      rintro ⟨-, ⟨⟩, ⟨⟩⟩
    next differ => simp [differ]
  have only : ∀ e, s.Open v e → e = ep.identity := fun e here => some.inj (here.2.1.symm.trans opened.2.1)
  refine reg.of_was (reg.disco.erase opened only opens) (reg.vni.erase opened only opens) rfl rfl
    (by rw [← endpoints_eq, length_modify]) fun p e at_ => ?_
  have at_ := (identity p).symm.trans at_
  split at at_
  next same =>
    cases at_
    exact ⟨false, same ▸ opened.2.2 ▸ opened.2.1, nofun⟩
  · exact ⟨e.closed, at_, id⟩

theorem lookup_expireOne (s : Server) (now : Time) {k' : SortedPairOfDiscoPublic} (other : k' ≠ k)
    (v : Nat) :
    (s.expireOne now k v).serverEndpointByDisco.lookup k' = s.serverEndpointByDisco.lookup k' := by
  unfold Server.expireOne
  split
  · rfl
  split
  · exact lookup_erase_ne other
  · rfl

theorem Registered.foldl_expireOne (now : Time) {entries : List (Sigma fun _ => Nat)}
    (nodup : entries.NodupKeys) (reg : Registered s)
    (held : ∀ entry ∈ entries, s.serverEndpointByDisco.lookup entry.1 = some entry.2) :
    Registered (entries.foldl (fun s entry => s.expireOne now entry.1 entry.2) s) := by
  induction entries generalizing s with
  | nil => exact reg
  | cons entry _ ih =>
    obtain ⟨fresh, nodup⟩ := nodupKeys_cons.1 nodup
    refine ih nodup (reg.expireOne now (held entry mem_cons_self)) fun later mem => ?_
    have other : later.1 ≠ entry.1 := by
      intro same
      exact fresh (same ▸ mem_keys_of_mem mem)
    rw [lookup_expireOne s now other]
    exact held later (mem_cons_of_mem _ mem)

theorem Registered.endpointGC (reg : Registered s) (now : Time) : Registered (s.endpointGC now) :=
  reg.foldl_expireOne now s.serverEndpointByDisco.nodupKeys
    fun _ mem => mem_lookup_iff.2 mem

theorem Registered.close (reg : Registered s) : Registered s.close := by
  unfold Server.close
  split
  · exact reg
  · exact ⟨.empty nofun, .empty nofun, reg.range, reg.next, reg.last, reg.lamport, reg.retired⟩

theorem receive_eq (s : Server) (src : AddrPort) (b : Bytes) (now : Time) (fresh : Bytes) :
    ∃ macSecrets macSecretRotatedAt events packets, s.receive src b now fresh =
      { s with macSecrets, macSecretRotatedAt, events, packets } := by
  unfold Server.receive maybeRotateMACSecretLocked
  split
  · exact ⟨_, _, _, _, rfl⟩
  split
  · exact ⟨_, _, _, _, rfl⟩
  split
  · exact ⟨_, _, _, _, rfl⟩
  split
  · split
    · exact ⟨_, _, _, _, rfl⟩
    · split <;> exact ⟨_, _, _, _, rfl⟩
  · exact ⟨_, _, _, _, rfl⟩

theorem Registered.receive (reg : Registered s) (src : AddrPort) (b : Bytes) (now : Time)
    (fresh : Bytes) : Registered (s.receive src b now fresh) := by
  obtain ⟨_, _, _, _, same⟩ := receive_eq s src b now fresh
  rw [same]
  exact { reg with }

def Kept (s s' : Server) : Prop :=
  ∀ p e, s.identity p = some e → ∃ closed, s'.identity p = some { e with closed } ∧
    (e.closed = true → closed = true)

theorem Kept.of_eq (same : s'.identity = s.identity) : Kept s s' := by
  intro p e at_
  exact ⟨e.closed, same ▸ at_, id⟩

theorem Kept.trans {s'' : Server} (first : Kept s s') (second : Kept s' s'') : Kept s s'' := by
  intro p e at_
  obtain ⟨closed, at_', stays⟩ := first p e at_
  obtain ⟨closed', at_'', stays'⟩ := second p _ at_'
  exact ⟨closed', at_'', stays' ∘ stays⟩

theorem identity_allocateEndpoint (discoA discoB : DiscoPublic) (now : Time) {p : Nat} {e : Identity}
    (at_ : s.identity p = some e) : (s.allocateEndpoint discoA discoB now).2.identity p = some e := by
  unfold allocateEndpoint
  split
  · exact at_
  split
  · exact at_
  split
  · exact at_
  dsimp only
  split
  · exact at_
  split
  · exact at_
  · exact identity_insertEndpoint.2 (.inl at_)

/-- The time that an endpoint has to be bound, or to be used once it is, has passed. -/
def ServerEndpoint.Elapsed (e : ServerEndpoint) (bindLifetime steadyStateLifetime : Int64) (now : Time) :
    Prop :=
  if ∀ i, (e.boundAddrPorts i).isSome then ∃ i, steadyStateLifetime < now - e.lastSeen i
  else bindLifetime < now - e.allocatedAt

theorem elapsed_of_isExpired {bindLifetime steadyStateLifetime : Int64} {now : Time}
    (expired : e.isExpiredLocked now bindLifetime steadyStateLifetime = true) :
    e.Elapsed bindLifetime steadyStateLifetime now := by
  rw [isExpiredLocked] at expired
  simpa [Elapsed, Fin.forall_fin_two, Fin.exists_fin_two, isBoundLocked, apply_ite] using expired

/-- Only endpoints are closed whose time has passed. -/
structure Expires (now : Time) (s s' : Server) : Prop where
  only : ∃ endpoints byDisco byVNI, s' = { s with
    endpoints, serverEndpointByDisco := byDisco, serverEndpointByVNI := byVNI }
  length : s'.endpoints.length = s.endpoints.length
  kept : ∀ {p : Nat} {e : ServerEndpoint}, s.endpoints[p]? = some e → s'.endpoints[p]? = some e ∨
    s'.endpoints[p]? = some { e with closed := true } ∧
      e.Elapsed s.bindLifetime s.steadyStateLifetime now

theorem Expires.refl (now : Time) (s : Server) : Expires now s s := ⟨⟨_, _, _, rfl⟩, rfl, .inl⟩

theorem expires_expireOne (s : Server) (now : Time) (k : SortedPairOfDiscoPublic) (v : Nat) :
    Expires now s (s.expireOne now k v) := by
  unfold Server.expireOne
  split
  · exact .refl now s
  next e' here' =>
    split
    next expired =>
      refine ⟨⟨_, _, _, rfl⟩, length_modify _ _ _, fun {p e} here => ?_⟩
      rw [getElem?_modify, here]
      by_cases same : v = p
      · subst same
        cases here.symm.trans here'
        exact .inr ⟨by simp, elapsed_of_isExpired expired⟩
      · exact .inl (by simp [same])
    · exact .refl now s

theorem expires_endpointGC (s : Server) (now : Time) : Expires now s (s.endpointGC now) := by
  unfold endpointGC
  generalize s.serverEndpointByDisco.entries = entries
  induction entries generalizing s with
  | nil => exact .refl now s
  | cons entry _ ih =>
    obtain ⟨⟨_, _, _, same⟩, length, kept⟩ := expires_expireOne s now entry.1 entry.2
    obtain ⟨⟨_, _, _, same'⟩, length', kept'⟩ := ih (s.expireOne now entry.1 entry.2)
    rw [foldl_cons]
    refine ⟨⟨_, _, _, same'.trans (by rw [same])⟩, length'.trans length, fun here => ?_⟩
    rcases kept here with here | ⟨here, elapsed⟩
    · have later := kept' here
      rwa [same] at later ⊢
    · exact .inr ⟨(kept' here).elim id And.left, elapsed⟩

theorem Expires.identity (expires : Expires now s s') : Kept s s' := by
  intro p e at_
  obtain ⟨ep, here, rfl⟩ := map_eq_some_iff.1 at_
  rcases expires.kept here with here | ⟨here, -⟩
  · exact ⟨ep.closed, identity_of_getElem? here, id⟩
  · exact ⟨true, identity_of_getElem? here, fun _ => rfl⟩

theorem identity_close (s : Server) : s.close.identity = s.identity := by
  unfold Server.close
  split <;> rfl

theorem identity_set {p : Nat} {e' : ServerEndpoint} {events : List Event}
    (here : s.endpoints[p]? = some e) (same : e'.identity = e.identity) :
    { s with endpoints := s.endpoints.set p e', events }.identity = s.identity := by
  funext q
  rw [Server.identity, Server.identity]
  by_cases at_ : p = q
  · rw [← at_, getElem?_set_self (List.getElem?_eq_some_iff.1 here).1, here]
    exact congrArg some same
  · rw [getElem?_set_ne at_]

section Packets
variable [Crypto]

inductive Handles (p : Packet) (e : ServerEndpoint) : ServerEndpoint × Effect → Prop
  | drop : Handles p e (e, .drop)
  | challenge {i : Fin 2} {generation : UInt32} : Handles p e
      ({ e with inProgressGeneration := Function.update e.inProgressGeneration i generation },
        .challenge ⟨p.src, i, e.vni, generation, e.discoPubKeys.get (ServerEndpoint.otherSender i),
          p.macSecrets.getD 0 []⟩)
  | bind {i : Fin 2} {m : BindCommon} {secret : Bytes} : p.control = true → e.closed = false →
      e.openDisco (p.b.drop geneveFixedHeaderLength) = some (i, .answer m) →
      e.validVNIAndRemoteKey i m = true → secret ∈ p.macSecrets →
      Crypto.mac secret (bindInput p.src m) = m.challenge → Handles p e
      ({ e with
          boundAddrPorts := Function.update e.boundAddrPorts i (some p.src)
          lastSeen := Function.update e.lastSeen i p.now
          inProgressGeneration := Function.update e.inProgressGeneration i 0 },
        .bind i m.generation)
  | forward {i : Fin 2} {dst : AddrPort} : e.boundAddrPorts i = some p.src →
      e.boundAddrPorts (ServerEndpoint.otherSender i) = some dst →
      Handles p e (e.seen i p.b p.now, .forward dst)

variable {p : Packet} {ops : List Op}

theorem handles_answer {i : Fin 2} {m : BindCommon}
    (control : p.control = true) (opened : e.closed = false)
    (answer : e.openDisco (p.b.drop geneveFixedHeaderLength) = some (i, .answer m)) :
    Handles p e (e.handleAnswer p.src i m p.macSecrets p.now) := by
  unfold handleAnswer
  dsimp only
  split
  · exact .drop
  next checked =>
    push Not at checked
    obtain ⟨valid, -, generation⟩ := checked
    rw [generation]
    split
    next verified =>
      obtain ⟨secret, mem, mac⟩ := verified
      exact .bind control opened answer (Bool.not_eq_false _ ▸ valid) mem mac
    · exact .drop

theorem handles_control (e : ServerEndpoint) (control : p.control = true) :
    Handles p e (e.handleSealedDiscoControlMsg p.src (p.b.drop geneveFixedHeaderLength) p.macSecrets
      p.now) := by
  unfold handleSealedDiscoControlMsg
  split
  · exact .drop
  next i m message =>
    unfold handleDiscoControlMsg
    split
    · exact .drop
    next opened =>
      cases m with
      | bind =>
        dsimp only [handleBind]
        split
        · exact .drop
        · exact .challenge
      | answer => exact handles_answer control (Bool.not_eq_true _ ▸ opened) message
      | _ => exact .drop

theorem handles_data (p : Packet) (e : ServerEndpoint) :
    Handles p e (e.handleDataPacket p.src p.b p.now) := by
  unfold handleDataPacket
  split
  · exact .drop
  split
  next a₀ a₁ bound₀ bound₁ =>
    split
    next from₀ => exact .forward (from₀ ▸ bound₀) bound₁
    split
    next from₁ => exact .forward (from₁ ▸ bound₁) bound₀
    · exact .drop
  · exact .drop

theorem handles_packetEffect (p : Packet) (e : ServerEndpoint) :
    Handles p e (packetEffect p e) := by
  unfold packetEffect
  split
  next control => exact handles_control e control
  · exact handles_data p e

theorem Handles.identity {r : ServerEndpoint × Effect}
    (handles : Handles p e r) : r.1.identity = e.identity := by
  cases handles <;> rfl

theorem identity_handle (s : Server) (p : Packet) : (s.handle p).identity = s.identity := by
  unfold Server.handle
  split
  · rfl
  next e here => exact identity_set here (handles_packetEffect p e).identity

theorem length_handle (s : Server) (p : Packet) :
    (s.handle p).endpoints.length = s.endpoints.length := by
  unfold Server.handle
  split
  · rfl
  · exact length_set

theorem Registered.handle (reg : Registered s) (p : Packet) : Registered (s.handle p) := by
  have identity := identity_handle s p
  have length := length_handle s p
  obtain ⟨endpoints, events, same⟩ : ∃ endpoints events, s.handle p = { s with endpoints, events } := by
    unfold Server.handle
    split <;> exact ⟨_, _, rfl⟩
  rw [same] at identity length ⊢
  have opens : Server.Open { s with endpoints, events } = s.Open := by
    funext p e
    exact congrArg (fun i => s.closed = false ∧ i p = some e ∧ e.closed = false) identity
  refine reg.of_was (opens.symm ▸ reg.disco) (opens.symm ▸ reg.vni) rfl rfl length fun p e at_ => ?_
  exact ⟨e.closed, identity ▸ at_, id⟩

theorem Registered.step (reg : Registered s) {op : Op} (taken : s.step op = some s') :
    Registered s' := by
  cases op with
  | allocateEndpoint discoA discoB now =>
    cases taken
    exact reg.allocateEndpoint discoA discoB now
  | endpointGC now =>
    cases taken
    exact reg.endpointGC now
  | close =>
    cases taken
    exact reg.close
  | setAddrPorts =>
    cases taken
    exact { reg with }
  | receive src b now fresh =>
    cases taken
    exact reg.receive src b now fresh
  | handle =>
    obtain ⟨p, -, rfl⟩ := map_eq_some_iff.1 taken
    apply Registered.handle
    exact { reg with }

theorem Registered.run (reg : Registered s) (run : Run Server.step s ops s') : Registered s' := by
  induction run with
  | refl => exact reg
  | snoc _ taken ih => exact ih.step taken

theorem identity_step {op : Op} (taken : s.step op = some s') {p : Nat} {e : Identity}
    (at_ : s.identity p = some e) : s'.identity p = some e ∨ ∃ now, op = .endpointGC now := by
  cases op with
  | allocateEndpoint discoA discoB now =>
    cases taken
    exact .inl (identity_allocateEndpoint discoA discoB now at_)
  | endpointGC now => exact .inr ⟨now, rfl⟩
  | close =>
    cases taken
    exact .inl (identity_close s ▸ at_)
  | setAddrPorts =>
    cases taken
    exact .inl at_
  | receive src b now fresh =>
    cases taken
    obtain ⟨_, _, _, _, same⟩ := receive_eq s src b now fresh
    rw [same]
    exact .inl at_
  | handle =>
    obtain ⟨p, -, rfl⟩ := map_eq_some_iff.1 taken
    exact .inl ((identity_handle _ p).symm ▸ at_)

theorem kept_step {op : Op} (taken : s.step op = some s') : Kept s s' := by
  intro p e at_
  rcases identity_step taken at_ with same | ⟨now, rfl⟩
  · exact ⟨e.closed, same, id⟩
  · cases taken
    exact (expires_endpointGC s now).identity p e at_

theorem kept_of_run (run : Run Server.step s ops s') : Kept s s' := by
  induction run with
  | refl => exact .of_eq rfl
  | snoc _ taken ih => exact ih.trans (kept_step taken)

theorem elapsed_of_step {op : Op} {e' : ServerEndpoint} {p : Nat} (taken : s.step op = some s')
    (here : s.endpoints[p]? = some e) (opened : e.closed = false)
    (here' : s'.endpoints[p]? = some e') (closed : e'.closed = true) :
    ∃ now, op = .endpointGC now ∧ e.Elapsed s.bindLifetime s.steadyStateLifetime now := by
  rcases identity_step taken (identity_of_getElem? here) with same | ⟨now, rfl⟩
  · have flags := congrArg (Option.map Identity.closed) ((identity_of_getElem? here').symm.trans same)
    cases closed.symm.trans ((some.inj flags).trans opened)
  cases taken
  rcases (expires_endpointGC s now).kept here with kept | ⟨-, elapsed⟩
  · cases here'.symm.trans kept
    cases closed.symm.trans opened
  · exact ⟨now, rfl, elapsed⟩

theorem elapsed_of_run {e' : ServerEndpoint} {p : Nat} (run : Run Server.step s ops s')
    (here : s.endpoints[p]? = some e) (opened : e.closed = false)
    (here' : s'.endpoints[p]? = some e') (closed : e'.closed = true) :
    ∃ before now after u f, ops = before ++ .endpointGC now :: after ∧ Run Server.step s before u ∧
      u.endpoints[p]? = some f ∧ f.closed = false ∧
      f.Elapsed u.bindLifetime u.steadyStateLifetime now := by
  induction run generalizing e' with
  | refl =>
    cases here.symm.trans here'
    cases closed.symm.trans opened
  | @snoc ops u _ op run taken ih =>
    obtain ⟨_, at_, -⟩ := kept_of_run run p _ (identity_of_getElem? here)
    obtain ⟨f, here₁, -⟩ := map_eq_some_iff.1 at_
    cases flag : f.closed with
    | true =>
      obtain ⟨before, now, after, v, g, split, rest⟩ := ih here₁ flag
      exact ⟨before, now, after ++ [op], v, g, by simp [split], rest⟩
    | false =>
      obtain ⟨now, rfl, elapsed⟩ := elapsed_of_step taken here₁ flag here' closed
      exact ⟨ops, now, [], u, f, rfl, run, here₁, flag, elapsed⟩

end Packets

end ScaleTail.Relay
