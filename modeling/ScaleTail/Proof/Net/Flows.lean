import ScaleTail.Lib.LRU
import ScaleTail.Proof.Net.Verdict

/-! # Tracked flows -/

namespace ScaleTail.Net

open Flowtrack Lib List

namespace Flowtrack.Cache

variable {V : Type} {t : Tuple}

theorem keys_eraseP (l : List (Tuple × V)) (t : Tuple) :
    (l.eraseP (·.1 = t)).map Prod.fst = (l.map Prod.fst).erase t := by
  rw [erase_eq_eraseP, eraseP_map]
  congr 2
  funext e
  by_cases same : e.1 = t
  · simp [same]
  · simp [same, Ne.symm same]

theorem keys_moveToFront (c : Cache V) (e : Tuple × V) :
    (c.moveToFront e).keys = LRU.touch e.1 c.keys := by
  rw [keys, moveToFront, map_cons, keys_eraseP]
  rfl

theorem keys_get {c : Cache V} (hit : (c.get t).1.isSome) :
    (c.get t).2.keys = LRU.touch t c.keys := by
  unfold get at hit ⊢
  cases found : c.ll.find? (·.1 = t) with
  | none => simp [found] at hit
  | some e =>
    have key : e.1 = t := by simpa using find?_some found
    simp [keys_moveToFront, key]

theorem get_miss {c : Cache V} (miss : ¬ (c.get t).1.isSome) : (c.get t).2 = c := by
  unfold get at miss ⊢
  cases found : c.ll.find? (·.1 = t) with
  | none => rfl
  | some e => simp [found] at miss

theorem get_maxEntries (c : Cache V) (t : Tuple) : (c.get t).2.maxEntries = c.maxEntries := by
  unfold get
  split <;> rfl

theorem add_maxEntries (c : Cache V) (t : Tuple) (v : V) :
    (c.add t v).maxEntries = c.maxEntries := by
  unfold add
  dsimp only
  split_ifs <;> rfl

theorem keys_add (c : Cache V) (bounded : c.maxEntries ≠ 0) (t : Tuple) (v : V) :
    (c.add t v).keys = LRU.add c.maxEntries t c.keys := by
  have present : c.ll.any (·.1 = t) ↔ t ∈ c.keys := by
    simp [keys]
  unfold add LRU.add
  by_cases found : t ∈ c.keys
  · rw [if_pos (present.2 found), if_pos found, keys_moveToFront]
  rw [if_neg (fun h => found (present.1 h)), if_neg found]
  have length : c.maxEntries < (t :: c.keys).length ↔
      c.maxEntries < (⟨c.maxEntries, (t, v) :: c.ll⟩ : Cache V).len := by
    simp [len, keys]
  by_cases full : c.maxEntries < (t :: c.keys).length
  · rw [if_pos ⟨bounded, length.1 full⟩, if_pos full]
    simp [keys, removeOldest, map_dropLast]
  · rw [if_neg (fun h => full (length.2 h.2)), if_neg full]
    simp [keys]

end Flowtrack.Cache

inductive FilterOp
  | runOut (q : Parsed)
  | runIn (q : Parsed)
  | replace (ms : List Match) (capTest : Option CapTestFunc) (localNets : Option (List Prefix))

inductive FlowUse
  | recorded (t : Tuple)
  | found (t : Tuple)

def FlowUse.tuple : FlowUse → Tuple
  | recorded t => t
  | found t => t

def Parsed.reply (q : Parsed) : Tuple := makeTuple q.ipProto q.dst q.src

abbrev Parsed.Tracked (q : Parsed) : Prop := q.ipProto = .udp ∨ q.ipProto = .sctp

section
variable [BartLite]

namespace FilterOp

def step (f : Filter) : FilterOp → Filter
  | runOut q => (f.runOut q).2.2
  | runIn q => (f.runIn q).2
  | replace ms capTest localNets => Filter.new ms capTest localNets (some f)

/-- A flow is recorded for a packet that `runOut` accepts, and looked up successfully for an inbound
packet that is found in the table. -/
def use (f : Filter) : FilterOp → Option FlowUse
  | runOut q =>
    if (f.pre q).1 = .noVerdict ∧ q.Tracked then some (.recorded q.reply) else none
  | runIn q =>
    if ((f.pre q).1 = .noVerdict ∧ f.isLocal q ∧ q.Tracked) ∧ (f.state.get q.flow).1.isSome then
      some (.found q.flow)
    else none
  | replace _ _ _ => none

/-- The filter after a sequence of calls, and what they did with the table, latest first. -/
def run : Filter × List FlowUse → List FilterOp → Filter × List FlowUse
  | s, [] => s
  | (f, uses), op :: ops => run (op.step f, (op.use f).toList ++ uses) ops

end FilterOp

structure Tracks (f : Filter) (uses : List FlowUse) : Prop where
  noHooks : f.ingressAllowHooks = [] ∧ f.linkLocalAllowHooks = []
  maxEntries : f.state.maxEntries = lruMax
  keys : f.state.keys = (LRU.recent (uses.map FlowUse.tuple)).take lruMax
  recorded : ∀ t ∈ uses.map FlowUse.tuple, .recorded t ∈ uses

namespace Tracks

variable {f : Filter} {uses : List FlowUse}

omit [BartLite] in
theorem recorded_of_key (h : Tracks f uses) {t : Tuple} (key : t ∈ f.state.keys) :
    .recorded t ∈ uses := by
  rw [h.keys] at key
  exact h.recorded t (LRU.mem_recent.1 (mem_of_mem_take key))

theorem runOut (h : Tracks f uses) (q : Parsed) :
    Tracks ((FilterOp.runOut q).step f) (((FilterOp.runOut q).use f).toList ++ uses) := by
  have pos : 0 < lruMax := by decide
  by_cases recorded : (f.pre q).1 = .noVerdict ∧ q.Tracked
  · have after : (FilterOp.runOut q).step f = { f with state := f.state.add q.reply () } := by
      obtain ⟨undecided, tracked⟩ := recorded
      simp only [FilterOp.step, Filter.runOut, undecided, Filter.runOutFlow]
      rw [if_neg (by simp), if_pos tracked]
      rfl
    rw [after, FilterOp.use, if_pos recorded]
    refine ⟨h.noHooks, ?_, ?_, ?_⟩
    · rw [Cache.add_maxEntries, h.maxEntries]
    · rw [Cache.keys_add _ (by rw [h.maxEntries]; decide), h.maxEntries, h.keys,
        LRU.add_recent pos]
      rfl
    · intro t mem
      rcases mem_cons.1 mem with rfl | older
      · exact mem_cons_self
      · exact mem_cons_of_mem _ (h.recorded t older)
  · have after : (FilterOp.runOut q).step f = f := by
      simp only [FilterOp.step, Filter.runOut]
      split_ifs with decided
      · rfl
      have undecided : (f.pre q).1 = .noVerdict := by
        rcases Filter.pre_cases f q with accept | drop | undecided
        · exact absurd (.inl accept) decided
        · exact absurd (.inr drop) decided
        · exact undecided
      rw [Filter.runOutFlow, if_neg (fun tracked => recorded ⟨undecided, tracked⟩)]
    rw [after, FilterOp.use, if_neg recorded]
    exact h

theorem runIn (h : Tracks f uses) (q : Parsed) :
    Tracks ((FilterOp.runIn q).step f) (((FilterOp.runIn q).use f).toList ++ uses) := by
  rw [FilterOp.step, Filter.runIn_filter h.noHooks.1, FilterOp.use]
  by_cases looked : (f.pre q).1 = .noVerdict ∧ f.isLocal q ∧ q.Tracked
  · rw [if_pos looked]
    by_cases hit : (f.state.get q.flow).1.isSome
    · rw [if_pos ⟨looked, hit⟩]
      have key := (Cache.get_isSome f.state q.flow).1 hit
      refine ⟨h.noHooks, ?_, ?_, ?_⟩
      · rw [Cache.get_maxEntries, h.maxEntries]
      · rw [Cache.keys_get hit, h.keys, LRU.touch_recent (h.keys ▸ key)]
        rfl
      · intro t mem
        rcases mem_cons.1 mem with rfl | older
        · exact mem_cons_of_mem _ (h.recorded_of_key key)
        · exact mem_cons_of_mem _ (h.recorded t older)
    · rw [if_neg (fun both => hit both.2), Cache.get_miss hit]
      exact h
  · rw [if_neg looked, if_neg (fun both => looked both.1)]
    exact h

theorem run (h : Tracks f uses) (ops : List FilterOp) :
    Tracks (FilterOp.run (f, uses) ops).1 (FilterOp.run (f, uses) ops).2 := by
  induction ops generalizing f uses with
  | nil => exact h
  | cons op ops ih =>
    rw [FilterOp.run]
    cases op with
    | runOut q => exact ih (h.runOut q)
    | runIn q => exact ih (h.runIn q)
    | replace ms capTest localNets => exact ih ⟨⟨rfl, rfl⟩, h.maxEntries, h.keys, h.recorded⟩

end Tracks

theorem tracks_new (ms : List Match) (capTest : Option CapTestFunc)
    (localNets : Option (List Prefix)) : Tracks (Filter.new ms capTest localNets none) [] :=
  ⟨⟨rfl, rfl⟩, rfl, rfl, by simp⟩

theorem FilterOp.recorded_of_run {f : Filter} {uses : List FlowUse} {t : Tuple} (ops : List FilterOp)
    (used : .recorded t ∈ (FilterOp.run (f, uses) ops).2) :
    .recorded t ∈ uses ∨ ∃ q, .runOut q ∈ ops ∧ q.Tracked ∧ q.reply = t := by
  induction ops generalizing f uses with
  | nil => exact .inl used
  | cons op ops ih =>
    rcases ih used with used | ⟨q, mem, tracked⟩
    · rcases mem_append.1 used with now | before
      · cases op with
        | runOut q =>
          obtain ⟨⟨-, tracked⟩, same⟩ := Option.ite_none_right_eq_some.1 (Option.mem_toList.1 now)
          exact .inr ⟨q, mem_cons_self, tracked, FlowUse.recorded.inj (Option.some.inj same)⟩
        | runIn q =>
          obtain ⟨-, same⟩ := Option.ite_none_right_eq_some.1 (Option.mem_toList.1 now)
          cases same
        | replace => cases now
      · exact .inl before
    · exact .inr ⟨q, mem_cons_of_mem op mem, tracked⟩

def Filter.ruleMatches (f : Filter) (q : Parsed) : Bool :=
  matchRules (if q.ipVersion = 4 then f.matches4 else f.matches6) q f.srcIPHasCap

end

theorem passes_tracked {q : Parsed} {icmp : Proto} (known : IsICMP icmp) (tracked : q.Tracked)
    {flows : Cache Unit} {A B C : Prop} : Passes icmp flows q A B C ↔ q.flow ∈ flows.keys ∨ B := by
  obtain ⟨h₁, h₂⟩ : q.ipProto ≠ .tcp ∧ q.ipProto ≠ .tsmp := by
    rcases tracked with same | same <;> rw [same] <;> decide
  have h₃ : q.ipProto ≠ icmp := by
    rcases tracked with same | same <;> rw [same]
    exacts [known.udp.symm, known.sctp.symm]
  have h₄ : ¬ q.OtherProto icmp := by
    rintro ⟨-, -, udp, sctp, -⟩
    exact tracked.elim udp sctp
  have both : q.ipProto = .udp ∨ q.ipProto = .sctp := tracked
  simp [Passes, h₁, h₂, h₃, h₄, both]

theorem runInVersion_tracked {f : Filter} {q : Parsed} (tracked : q.Tracked)
    (here : f.isLocal q) : (f.runInVersion q).1 = .accept ↔
      q.flow ∈ f.state.keys ∨ f.ruleMatches q := by
  unfold Filter.isLocal at here
  unfold Filter.runInVersion Filter.ruleMatches
  split_ifs at here ⊢ with four six
  · rw [Filter.runIn4, Filter.runInFamily_accept .v4, passes_tracked .v4 tracked,
      and_iff_right here]
  · rw [Filter.runIn6, Filter.runInFamily_accept .v6, passes_tracked .v6 tracked,
      and_iff_right here]

/-- An inbound packet that no rule matches is let in exactly if its flow was recorded and fewer
than 512 other flows have been recorded or found since it was last recorded or found. -/
theorem runIn_flow_iff [BartLite] (ms : List Match) (capTest : Option CapTestFunc)
    (localNets : Option (List Prefix)) (ops : List FilterOp) {f : Filter} {uses : List FlowUse}
    (ran : FilterOp.run (Filter.new ms capTest localNets none, []) ops = (f, uses)) {q : Parsed}
    (tracked : q.Tracked) (whole : 20 ≤ q.b.length) (routable : ¬ q.Unroutable)
    (here : f.isLocal q) (unmatched : ¬ f.ruleMatches q) :
    (f.runIn q).1 = .accept ↔ .recorded q.flow ∈ uses ∧
      ((uses.map FlowUse.tuple).takeWhile (· ≠ q.flow)).toFinset.card < 512 := by
  have tracks := (tracks_new ms capTest localNets).run ops
  rw [ran] at tracks
  obtain ⟨known, notFragment⟩ : q.ipProto ≠ .unknown ∧ q.ipProto ≠ .fragment := by
    rcases tracked with same | same <;> rw [same] <;> decide
  rw [Filter.runIn_accept whole notFragment tracks.noHooks.2 tracks.noHooks.1,
    and_iff_right known, and_iff_right routable, runInVersion_tracked tracked here,
    or_iff_left unmatched, tracks.keys, LRU.mem_take_recent]
  refine and_congr_left fun _ => ⟨tracks.recorded _, fun recorded => ?_⟩
  exact List.mem_map.2 ⟨_, recorded, rfl⟩

/-- The table of flows never has more than 512 entries, and an entry is there only for a packet given
to `RunOut`: no inbound packet makes one, and a replaced filter keeps those of the old one. -/
theorem flows_bounded [BartLite] (ms : List Match) (capTest : Option CapTestFunc)
    (localNets : Option (List Prefix)) (ops : List FilterOp) :
    let f := (FilterOp.run (Filter.new ms capTest localNets none, []) ops).1
    f.state.keys.length ≤ 512 ∧ f.state.keys.Nodup ∧
      ∀ t ∈ f.state.keys, ∃ q, .runOut q ∈ ops ∧ q.Tracked ∧ q.reply = t := by
  have tracks := (tracks_new ms capTest localNets).run ops
  refine ⟨?_, ?_, fun t key => ?_⟩
  · rw [tracks.keys]
    exact length_take_le _ _
  · rw [tracks.keys]
    exact (LRU.nodup_recent _).sublist (take_sublist _ _)
  · have used := FilterOp.recorded_of_run ops (tracks.recorded_of_key key)
    exact used.resolve_left not_mem_nil

namespace Sample

attribute [local instance] bart

def datagram (src dst : Addr) : Parsed := ⟨zeros, 20, 4, .udp, ⟨src, 53⟩, ⟨dst, 4000⟩, 0⟩

/-- The answer from the address the datagram went to, back to a local multicast address, is
dropped. -/
theorem runIn_drops_answer :
    FilterOp.use (Filter.new [] none (some everywhere) none)
        (.runOut (datagram (ip 224 0 0 1) (ip 100 64 0 1))) =
      some (.recorded (makeTuple .udp ⟨ip 100 64 0 1, 4000⟩ ⟨ip 224 0 0 1, 53⟩)) ∧
    LocalTo (some everywhere) (ip 224 0 0 1) ∧
    ((FilterOp.run (Filter.new [] none (some everywhere) none, [])
      [.runOut (datagram (ip 224 0 0 1) (ip 100 64 0 1))]).1.runIn
      ⟨zeros, 20, 4, .udp, ⟨ip 100 64 0 1, 4000⟩, ⟨ip 224 0 0 1, 53⟩, 0⟩).1 = .drop := by
  refine ⟨rfl, ?_, by decide⟩
  exact ⟨_, rfl, _, mem_singleton_self _, by decide⟩

def answered : List FilterOp :=
  [.runOut (datagram (ip 100 64 0 2) (ip 100 64 0 1)), .replace [ssh] none (some everywhere)]

def answer : Parsed := ⟨zeros, 20, 4, .udp, ⟨ip 100 64 0 1, 4000⟩, ⟨ip 100 64 0 2, 53⟩, 0⟩

theorem runIn_answer :
    ((FilterOp.run (Filter.new [] none (some everywhere) none, []) answered).1.runIn answer).1 =
      .accept := by
  refine (runIn_flow_iff [] none (some everywhere) answered rfl (.inl rfl) (by decide)
    (by unfold Parsed.Unroutable; decide) (by decide) (by decide)).2 ⟨?_, by decide⟩
  exact mem_cons_self

end Sample

end ScaleTail.Net
