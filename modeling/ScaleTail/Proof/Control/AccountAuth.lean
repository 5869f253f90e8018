import ScaleTail.Control.AccountAuth
import ScaleTail.Proof.Control.Pin

/-! # The credential request protocol -/

namespace ScaleTail.Control

open Go List

inductive AuthEvent
  | began (token : RequestToken)
  | stored (controlURL username password : Bytes)
  | refused
  | looked
  | cleared

def AuthEvent.counts : AuthEvent → Bool
  | began _ | stored _ _ _ | cleared => true
  | refused | looked => false

def AuthEvent.replaces : AuthEvent → Bool
  | stored _ _ _ | cleared => true
  | began _ | refused | looked => false

inductive AuthOp
  | beginRequest
  | setIfCurrentRequest (token : RequestToken) (controlURL username password : Bytes)
  | get (controlURL : Bytes)
  | clear

section
variable [Unicode] [Netip]

namespace AuthOp

def step (c : Credential) : AuthOp → Credential × AuthEvent
  | beginRequest => (c.beginRequest.2, .began c.beginRequest.1)
  | setIfCurrentRequest token controlURL username password =>
    let (ok, next) := c.setIfCurrentRequest token controlURL username password
    (next, if ok then .stored controlURL username password else .refused)
  | get _ => (c, .looked)
  | clear => (c.clear, .cleared)

def run : Credential × List AuthEvent → List AuthOp → Credential × List AuthEvent
  | s, [] => s
  | (c, events), op :: ops => run ((op.step c).1, (op.step c).2 :: events) ops

end AuthOp

def ValidArgs (controlURL username password : Bytes) : Prop :=
  Credential.canonicalControlURL controlURL ≠ [] ∧ trimSpace username ≠ [] ∧ password ≠ []

def LatestOf (kind : AuthEvent → Bool) (events : List AuthEvent) (e : AuthEvent) : Prop :=
  ∃ later earlier, events = later ++ e :: earlier ∧ ∀ x ∈ later, ¬ kind x

omit [Unicode] [Netip] in
theorem latestOf_cons {kind : AuthEvent → Bool} {events : List AuthEvent} {e x : AuthEvent} :
    LatestOf kind (x :: events) e ↔ e = x ∨ ¬ kind x ∧ LatestOf kind events e := by
  constructor
  · rintro ⟨later, earlier, same, none⟩
    cases later with
    | nil => exact .inl (List.cons.inj same).1.symm
    | cons y later =>
      obtain ⟨rfl, rest⟩ := List.cons.inj same
      exact .inr ⟨none x mem_cons_self, later, earlier, rest,
        fun z hz => none z (mem_cons_of_mem x hz)⟩
  · rintro (rfl | ⟨kept, later, earlier, rfl, none⟩)
    · exact ⟨[], events, rfl, fun x hx => absurd hx not_mem_nil⟩
    · refine ⟨x :: later, earlier, rfl, ?_⟩
      intro z hz
      rcases mem_cons.1 hz with rfl | old
      · exact kept
      · exact none z old

def StoredBy (c : Credential) (events : List AuthEvent) : Prop :=
  c.controlURL ≠ [] → ∃ controlURL username,
    LatestOf AuthEvent.replaces events (.stored controlURL username c.password) ∧
      c.controlURL = Credential.canonicalControlURL controlURL ∧ c.username = trimSpace username

structure AuthInv (c : Credential) (events : List AuthEvent) : Prop where
  few : events.length < 2 ^ 64
  counted : c.requestID.toNat = events.countP AuthEvent.counts
  tokens : ∀ token, .began token ∈ events →
    0 < token.toNat ∧ token.toNat ≤ c.requestID.toNat ∧
      (token = c.requestID ↔ LatestOf AuthEvent.counts events (.began token))
  stored : StoredBy c events

namespace AuthInv

variable {c : Credential} {events : List AuthEvent} {controlURL username password : Bytes}
  {x : AuthEvent} {token : RequestToken}

theorem init : AuthInv .init [] :=
  ⟨by decide, rfl, fun _ mem => absurd mem not_mem_nil, fun set => absurd rfl set⟩

theorem next (h : AuthInv c events) (few : events.length + 1 < 2 ^ 64) :
    (c.requestID + 1).toNat = c.requestID.toNat + 1 := by
  have bound : c.requestID.toNat ≤ events.length := h.counted ▸ countP_le_length
  exact Nat.mod_eq_of_lt (by simpa using by omega)

theorem storedBy_cons (h : StoredBy c events) {c' : Credential}
    (kept : ¬ x.replaces) (same : c'.controlURL = c.controlURL ∧ c'.username = c.username ∧
      c'.password = c.password) : StoredBy c' (x :: events) := by
  obtain ⟨url, user, pass⟩ := same
  intro set
  obtain ⟨controlURL, username, latest, rest⟩ := h (url ▸ set)
  rw [url, user, pass]
  exact ⟨controlURL, username, latestOf_cons.2 (.inr ⟨kept, latest⟩), rest⟩

theorem idle (h : AuthInv c events) (few : events.length + 1 < 2 ^ 64)
    (idle : ¬ x.counts) (kept : ¬ x.replaces) : AuthInv c (x :: events) where
  few := few
  counted := by rw [h.counted, countP_cons_of_neg idle]
  tokens := by
    intro token mem
    have ne : AuthEvent.began token ≠ x := by
      rintro rfl
      exact idle rfl
    obtain ⟨pos, le, current⟩ := h.tokens token ((mem_cons.1 mem).resolve_left ne)
    refine ⟨pos, le, ?_⟩
    rw [current, latestOf_cons, or_iff_right ne, and_iff_right idle]
  stored := storedBy_cons h.stored kept ⟨rfl, rfl, rfl⟩

theorem count (h : AuthInv c events) (few : events.length + 1 < 2 ^ 64) {c' : Credential}
    (number : c'.requestID = c.requestID + 1) (counts : x.counts)
    (began : ∀ token, .began token = x → token = c.requestID + 1)
    (stored : StoredBy c' (x :: events)) : AuthInv c' (x :: events) where
  few := few
  counted := by rw [number, h.next few, h.counted, countP_cons_of_pos counts]
  tokens := by
    intro token mem
    rw [number, h.next few, latestOf_cons]
    by_cases this : AuthEvent.began token = x
    · have same := began token this
      rw [same, h.next few]
      exact ⟨by omega, le_rfl, iff_of_true rfl (.inl (same ▸ this))⟩
    · obtain ⟨pos, le, -⟩ := h.tokens token ((mem_cons.1 mem).resolve_left this)
      have old : token ≠ c.requestID + 1 := by
        rintro rfl
        rw [h.next few] at le
        omega
      refine ⟨pos, by omega, iff_of_false old ?_⟩
      rintro (this' | ⟨bad, -⟩)
      · exact this this'
      · exact bad counts
  stored := stored

theorem set_ok :
    (c.setIfCurrentRequest token controlURL username password).1 = true ↔
      ValidArgs controlURL username password ∧ token ≠ 0 ∧ token = c.requestID := by
  unfold Credential.setIfCurrentRequest ValidArgs
  dsimp only
  split_ifs with bad stale
  · tauto
  · tauto
  · tauto

theorem set_eq :
    (c.setIfCurrentRequest token controlURL username password).2 =
      if (c.setIfCurrentRequest token controlURL username password).1 then
        ⟨c.requestID + 1, Credential.canonicalControlURL controlURL, trimSpace username, password⟩
      else c := by
  unfold Credential.setIfCurrentRequest
  dsimp only
  split_ifs <;> simp_all

theorem step (h : AuthInv c events) (few : events.length + 1 < 2 ^ 64) (op : AuthOp) :
    AuthInv (op.step c).1 ((op.step c).2 :: events) := by
  cases op with
  | beginRequest =>
    refine h.count few rfl rfl ?_ (storedBy_cons h.stored Bool.false_ne_true ⟨rfl, rfl, rfl⟩)
    intro token same
    exact AuthEvent.began.inj same
  | setIfCurrentRequest token controlURL username password =>
    simp only [AuthOp.step, set_eq]
    split_ifs with ok
    · refine h.count few rfl rfl nofun ?_
      intro _
      exact ⟨controlURL, username, latestOf_cons.2 (.inl rfl), rfl, rfl⟩
    · exact h.idle few (by decide) (by decide)
  | get controlURL => exact h.idle few Bool.false_ne_true Bool.false_ne_true
  | clear =>
    refine h.count few rfl rfl nofun ?_
    intro set
    exact absurd rfl set

theorem run (h : AuthInv c events) (ops : List AuthOp) (few : events.length + ops.length < 2 ^ 64) :
    AuthInv (AuthOp.run (c, events) ops).1 (AuthOp.run (c, events) ops).2 := by
  induction ops generalizing c events with
  | nil => exact h
  | cons op ops ih =>
    rw [length_cons] at few
    refine ih (h.step (by omega) op) ?_
    rw [length_cons]
    omega

end AuthInv

/-- A token of an earlier request, or none, is accepted exactly if its request was the latest one
and nothing was stored or cleared since. -/
theorem accountAuth_protocol (ops : List AuthOp) (few : ops.length < 2 ^ 64) {c : Credential}
    {events : List AuthEvent} (ran : AuthOp.run (.init, []) ops = (c, events)) :
    (∀ (token : RequestToken) (controlURL username password : Bytes),
      (token = 0 ∨ .began token ∈ events) → ValidArgs controlURL username password →
      ((c.setIfCurrentRequest token controlURL username password).1 = true ↔
        LatestOf AuthEvent.counts events (.began token))) ∧
    ∀ (controlURL username password : Bytes), c.get controlURL = some (username, password) →
      ∃ controlURL' username', LatestOf AuthEvent.replaces events
          (.stored controlURL' username' password) ∧ username = trimSpace username' ∧
        Credential.canonicalControlURL controlURL' = Credential.canonicalControlURL controlURL := by
  have inv := AuthInv.init.run ops (by simpa using few)
  rw [ran] at inv
  constructor
  · intro token controlURL username password issued valid
    rw [AuthInv.set_ok, and_iff_right valid]
    rcases issued with rfl | began
    · refine iff_of_false (fun h => h.1 rfl) ?_
      rintro ⟨later, earlier, same, -⟩
      have mem : AuthEvent.began 0 ∈ events := by
        rw [same]
        exact mem_append_right _ mem_cons_self
      exact absurd (inv.tokens 0 mem).1 (by decide)
    · obtain ⟨pos, -, current⟩ := inv.tokens token began
      rw [← current, and_iff_right]
      rintro rfl
      exact absurd pos (by decide)
  · intro controlURL username password found
    unfold Credential.get at found
    split_ifs at found with none
    push Not at none
    obtain ⟨set, same, -, -⟩ := none
    obtain ⟨rfl, rfl⟩ := Prod.mk.inj (Option.some.inj found)
    obtain ⟨controlURL', username', latest, url, user⟩ := inv.stored set
    exact ⟨controlURL', username', latest, user, by rw [← url, same]⟩

end

namespace Sample

attribute [local instance] Unicode.ascii Netip.none

def server : Bytes := bytes "https://control.example"

/-- A token that no request returned is accepted after the state has been cleared. -/
theorem set_unissued :
    AuthOp.run (.init, []) [.clear] = (⟨1, [], [], []⟩, [.cleared]) ∧
      ((⟨1, [], [], []⟩ : Credential).setIfCurrentRequest 1 server (bytes "alice")
        (bytes "secret")).1 = true := by
  exact ⟨rfl, by decide⟩

theorem set_latest :
    ((AuthOp.run (.init, []) [.beginRequest, .beginRequest]).1.setIfCurrentRequest 2 server
      (bytes "alice") (bytes "secret")).1 = true := by
  refine ((accountAuth_protocol [.beginRequest, .beginRequest] (by decide) rfl).1 2 server
    (bytes "alice") (bytes "secret") (.inr mem_cons_self)
    ⟨by decide, by decide, by decide⟩).2 ?_
  exact ⟨[], _, rfl, fun x hx => absurd hx not_mem_nil⟩

end Sample

end ScaleTail.Control
