import ScaleTail.Proof.TKA.Lineage
import ScaleTail.Proof.TKA.Storage

/-! # `FS` is a lawful storage -/

namespace ScaleTail.TKA.FS

open Lib List AList
open Option (some)

variable {c c' : FS} {a b : AUM} {h e : AUMHash}

theorem unix_pos (now : WallTime) : 0 < now.unix := by
  have later : (1000000000 : Int) ≤ now.nanos := now.afterEpoch
  have : now.unix = (now.nanos : Int) / 1000000000 := rfl
  omega

theorem lastActiveAncestor_congr (same : c'.lastActive = c.lastActive) :
    FS.lastActiveAncestor c' = FS.lastActiveAncestor c := by
  unfold FS.lastActiveAncestor
  rw [same]

section
variable [Crypto]

structure Consistent (c : FS) : Prop where
  named : ∀ {h file}, c.files.lookup h = some file → ∃ a, file.info.aum = some a ∧ a.hash = h
  encoded : ∀ {h file}, c.files.lookup h = some file → file.info.omitEmpty = file.info

def Live (file : FsFile) (a : AUM) : Prop := file.info.aum = some a ∧ file.info.purgedUnix ≤ 0

variable {file : FsFile} {hs : List AUMHash} {info : FsHashInfo}

section
variable (consistent : c.Consistent)
include consistent

theorem get_ok : c.get h = .ok file ↔ c.files.lookup h = some file := by
  unfold get
  cases found : c.files.lookup h with
  | none => simp
  | some =>
    obtain ⟨a, holds, hash⟩ := consistent.named found
    simp [holds, hash]

theorem get_error {err : Err} (missing : c.get h = .error err) :
    err = .notExist ∧ c.files.lookup h = none := by
  unfold get at missing
  cases found : c.files.lookup h with
  | none =>
    rw [found] at missing
    exact ⟨(Except.error.inj missing).symm, rfl⟩
  | some =>
    obtain ⟨a, holds, hash⟩ := consistent.named found
    simp [found, holds, hash] at missing

theorem aum_ok :
    FS.aum c h = .ok a ↔ ∃ file, c.files.lookup h = some file ∧ Live file a := by
  unfold FS.aum
  cases got : c.get h with
  | error =>
    obtain ⟨-, missing⟩ := get_error consistent got
    simp [missing]
  | ok file =>
    rw [get_ok consistent] at got
    obtain ⟨b, holds, -⟩ := consistent.named got
    rcases Int.lt_or_le 0 file.info.purgedUnix with purged | live
    · simp [got, holds, purged, Int.not_le.2 purged, Live]
    · simp [got, holds, live, Int.not_lt.2 live, Live]

theorem aum_error {err : Err} (missing : FS.aum c h = .error err) :
    err = .notExist := by
  unfold FS.aum at missing
  cases got : c.get h with
  | error =>
    rw [got] at missing
    obtain ⟨rfl, -⟩ := get_error consistent got
    exact (Except.error.inj missing).symm
  | ok =>
    obtain ⟨b, holds, -⟩ := consistent.named ((get_ok consistent).1 got)
    rw [got] at missing
    simp only [holds] at missing
    split at missing
    · exact (Except.error.inj missing).symm
    · cases missing

theorem mem_stored :
    a ∈ stored c ↔ ∃ file, c.files.lookup a.hash = some file ∧ Live file a :=
  aum_ok consistent

end

theorem chonkDir_consistent (clock : Nat → WallTime) : (chonkDir clock).Consistent := by
  constructor <;> simp [chonkDir]

section
variable (consistent : c.Consistent)
include consistent

theorem scanFiles_spec (files : ∀ h ∈ hs, h ∈ c.files) : ∃ infos, c.scanFiles hs = .ok infos ∧
      ∀ a, a ∈ infos.filterMap (·.aum) ↔ a ∈ stored c ∧ a.hash ∈ hs := by
  induction hs with
  | nil => exact ⟨[], rfl, by simp⟩
  | cons h _ ih =>
    obtain ⟨here, rest⟩ := forall_mem_cons.1 files
    obtain ⟨infos, scanned, spec⟩ := ih rest
    obtain ⟨file, found⟩ := Option.isSome_iff_exists.1 (lookup_isSome.2 here)
    obtain ⟨b, holds, hash⟩ := consistent.named found
    rw [scanFiles, (get_ok consistent).2 found, scanned]
    refine ⟨_, rfl, fun a => ?_⟩
    rw [mem_cons, and_or_left, ← spec a]
    -- The file of `h` contributes its AUM exactly when it is live.
    have head : a ∈ stored c ∧ a.hash = h ↔ b = a ∧ file.info.purgedUnix ≤ 0 := by
      rw [mem_stored consistent]
      constructor
      · rintro ⟨⟨file', found', holds', live⟩, same⟩
        rw [same, found, some.injEq] at found'
        subst found'
        rw [holds, some.injEq] at holds'
        exact ⟨holds', live⟩
      · rintro ⟨rfl, live⟩
        exact ⟨⟨file, hash ▸ found, holds, live⟩, hash⟩
    rw [head]
    split
    next purged => simp [Int.not_le.2 purged]
    next live => simp [Int.not_lt.1 live, holds, eq_comm]

theorem scanHashes_spec : ∃ infos, c.scanHashes = .ok infos ∧
    ∀ a, a ∈ infos.filterMap (·.aum) ↔ a ∈ stored c := by
  have files : ∀ h ∈ c.files.keys, h ∈ c.files := fun _ mem => mem
  obtain ⟨infos, scanned, spec⟩ := scanFiles_spec consistent files
  refine ⟨infos, scanned, fun a => ?_⟩
  rw [spec, and_iff_left_of_imp]
  intro ha
  obtain ⟨file, found, -⟩ := (mem_stored consistent).1 ha
  exact AList.mem_keys.1 (lookup_isSome.1 (by rw [found]; rfl))

theorem childAUMs_spec (h : AUMHash) : ∃ cs,
    FS.childAUMs c h = .ok cs ∧
      ∀ d, d ∈ cs ↔ d ∈ stored c ∧ d.prevAUMHash.getD [] = h.bytes := by
  obtain ⟨infos, scanned, spec⟩ := scanHashes_spec consistent
  refine ⟨_, by rw [FS.childAUMs, scanned, ok_bind], fun d => ?_⟩
  rw [mem_filter, spec, decide_eq_true_eq]

theorem allAUMs_spec : ∃ hs, FS.allAUMs c = .ok hs ∧
    ∀ h, h ∈ hs ↔ ∃ a ∈ stored c, a.hash = h := by
  obtain ⟨infos, scanned, spec⟩ := scanHashes_spec consistent
  refine ⟨_, by rw [FS.allAUMs, scanned, ok_bind], fun h => ?_⟩
  simp only [List.mem_map, spec]

end

theorem readAll_spec (live : ∀ h ∈ hs, ∃ a ∈ stored c, a.hash = h) :
    ∃ as, c.readAll hs = .ok as ∧ ∀ a, a ∈ as ↔ a ∈ stored c ∧ a.hash ∈ hs := by
  induction hs with
  | nil => exact ⟨[], rfl, by simp⟩
  | cons _ _ ih =>
    obtain ⟨⟨b, hb, rfl⟩, rest⟩ := forall_mem_cons.1 live
    obtain ⟨as, read, spec⟩ := ih rest
    have here : c.aum b.hash = .ok b := hb
    refine ⟨b :: as, by rw [readAll, here, ok_bind, read, ok_bind], fun a => ?_⟩
    rw [mem_cons, mem_cons, spec, and_or_left]
    refine or_congr_left ⟨?_, fun ⟨ha, same⟩ => stored_injective ha hb same⟩
    rintro rfl
    exact ⟨hb, rfl⟩

theorem heads_spec (consistent : c.Consistent) : ∃ hs, FS.heads c = .ok hs ∧
    ∀ a, a ∈ hs ↔ a ∈ stored c ∧ ∀ d ∈ stored c, d.parent ≠ some a.hash := by
  obtain ⟨all, listed, specAll⟩ := allAUMs_spec consistent
  obtain ⟨aums, readAums, specAums⟩ := readAll_spec fun h hh => (specAll h).1 hh
  have childless : ∀ h ∈ all.filter fun h => h ∉ aums.filterMap AUM.parent,
      ∃ a ∈ stored c, a.hash = h := fun h hh => (specAll h).1 (mem_filter.1 hh).1
  obtain ⟨hs, readHeads, specHeads⟩ := readAll_spec childless
  refine ⟨hs, ?_, fun a => ?_⟩
  · rw [FS.heads, listed, ok_bind, readAums, ok_bind]
    exact readHeads
  · rw [specHeads, mem_filter, decide_eq_true_eq, mem_filterMap]
    refine and_congr_right fun ha => ?_
    rw [and_iff_right ((specAll _).2 ⟨a, ha, rfl⟩)]
    constructor
    · exact fun none d hd parent =>
        none ⟨d, (specAums d).2 ⟨hd, (specAll _).2 ⟨d, hd, rfl⟩⟩, parent⟩
    · rintro none ⟨d, hd, parent⟩
      exact none d ((specAums d).1 hd).1 parent

def written (c : FS) (h : AUMHash) (info : FsHashInfo) : FS :=
  { c with files := c.files.insert h ⟨info, c.now.nanos⟩, reads := c.reads + 1 }

omit [Crypto] in
theorem omitEmpty_eq (holds : info.aum = some a) : info.omitEmpty = info ↔ a.omitEmpty = a := by
  obtain ⟨_, created, purged⟩ := info
  subst holds
  simp [FsHashInfo.omitEmpty]

theorem commit_eq {updater : FsHashInfo → FsHashInfo}
    (start : c.existing h = .ok info) (holds : (updater info).aum = some a) (hash : a.hash = h)
    (encoded : a.omitEmpty = a) : c.commit h updater = (.ok (), c.written h (updater info)) := by
  have same : (updater info).aum.filter (·.hash ≠ h) = none := by
    rw [holds, Option.filter_some]
    simp [hash]
  simp only [commit, start, same, written, (omitEmpty_eq holds).2 encoded]

theorem existing_of_get (got : c.get h = .ok file) : c.existing h = .ok file.info := by
  simp [existing, got]

theorem existing_ok (consistent : c.Consistent) : ∃ info, c.existing h = .ok info := by
  cases got : c.get h with
  | ok => exact ⟨_, existing_of_get got⟩
  | error =>
    obtain ⟨rfl, -⟩ := get_error consistent got
    exact ⟨⟨none, c.now.unix, 0⟩, by simp only [existing, got]⟩

theorem Consistent.written (consistent : c.Consistent) (holds : info.aum = some a)
    (hash : a.hash = h) (encoded : a.omitEmpty = a) : (c.written h info).Consistent := by
  unfold FS.written
  constructor
  all_goals
    intro h' file found
    by_cases same : h' = h
    · subst same
      rw [lookup_insert, some.injEq] at found
      subst found
      first | exact ⟨a, holds, hash⟩ | exact (omitEmpty_eq holds).2 encoded
    · rw [lookup_insert_ne same] at found
      first | exact consistent.named found | exact consistent.encoded found

theorem mem_stored_written (consistent : c.Consistent)
    (holds : info.aum = some a) (hash : a.hash = h) (encoded : a.omitEmpty = a) :
    b ∈ stored (c.written h info) ↔
      if b.hash = h then a = b ∧ info.purgedUnix ≤ 0 else b ∈ stored c := by
  rw [mem_stored (consistent.written holds hash encoded), mem_stored consistent]
  unfold FS.written
  split
  next same =>
    rw [same, lookup_insert]
    simp [Live, holds]
  next differ => rw [lookup_insert_ne differ]

theorem commitLoop_spec {us : List AUM} (i : Nat) (consistent : c.Consistent)
    (injective : Set.InjOn AUM.hash (stored c ∪ {a | a ∈ us}))
    (encoded : ∀ a ∈ us, a.omitEmpty = a) :
    ∃ c', c.commitLoop (us.zipIdx i) = (.ok (), c') ∧ c'.Consistent ∧
      stored c' = stored c ∪ {a | a ∈ us} ∧ c'.lastActive = c.lastActive := by
  induction us generalizing c i with
  | nil => exact ⟨c, rfl, consistent, by simp, rfl⟩
  | cons u us ih =>
    obtain ⟨here, encoded⟩ := forall_mem_cons.1 encoded
    obtain ⟨info, start⟩ := existing_ok (h := u.hash) consistent
    let info' : FsHashInfo := { info with purgedUnix := 0, aum := some u }
    have step : c.commit u.hash (fun info => { info with purgedUnix := 0, aum := some u }) =
        (.ok (), c.written u.hash info') := commit_eq start rfl rfl here
    have kept : (c.written u.hash info').Consistent := consistent.written rfl rfl here
    have union : stored (c.written u.hash info') ∪ {a | a ∈ us} =
        stored c ∪ {a | a ∈ u :: us} := by
      ext b
      simp only [Set.mem_union, Set.mem_ofPred_eq, mem_cons]
      have holds : info'.aum = some u := rfl
      rw [mem_stored_written consistent holds rfl here, ← or_assoc]
      refine or_congr_left ?_
      split
      next same =>
        constructor
        · rintro ⟨rfl, -⟩
          exact .inr rfl
        · rintro (hb | rfl)
          · exact ⟨injective (.inr mem_cons_self) (.inl hb) same.symm, le_rfl⟩
          · exact ⟨rfl, le_rfl⟩
      next differ =>
        refine ⟨.inl, fun h => h.resolve_right ?_⟩
        rintro rfl
        exact differ rfl
    obtain ⟨c', rest, kept', contents, recorded⟩ := ih (i + 1) kept (union ▸ injective) encoded
    refine ⟨c', ?_, kept', contents.trans union, recorded⟩
    rw [zipIdx_cons, commitLoop, step]
    exact rest

theorem purge_round (now : WallTime) (consistent : c.Consistent) (file : h ∈ c.files) (i : Nat)
    (rest : List (AUMHash × Nat)) :
    ∃ c', purgeLoop now c ((h, i) :: rest) = purgeLoop now c' rest ∧ c'.Consistent ∧
      stored c' = {a ∈ stored c | a.hash ≠ h} ∧ (∀ h', h' ∈ c'.files ↔ h' ∈ c.files) ∧
      c'.lastActive = c.lastActive := by
  obtain ⟨file, found⟩ := Option.isSome_iff_exists.1 (lookup_isSome.2 file)
  obtain ⟨a, holds, hash⟩ := consistent.named found
  have encoded := (omitEmpty_eq holds).1 (consistent.encoded found)
  have got := (get_ok consistent).2 found
  by_cases skipped : file.info.aum = none ∨ 0 < file.info.purgedUnix
  · refine ⟨c, by simp only [purgeLoop, got, if_pos skipped], consistent, ?_, fun _ => .rfl, rfl⟩
    ext b
    refine (and_iff_left_of_imp fun hb same => ?_).symm
    obtain ⟨file', found', holds', live⟩ := (mem_stored consistent).1 hb
    rw [same, found, some.injEq] at found'
    subst found'
    rcases skipped with none | purged
    · rw [none] at holds'
      cases holds'
    · omega
  · let info' : FsHashInfo := { file.info with purgedUnix := now.unix }
    have step : c.commit h (fun info => { info with purgedUnix := now.unix }) =
        (.ok (), c.written h info') := commit_eq (existing_of_get got) holds hash encoded
    have holds' : info'.aum = some a := holds
    refine ⟨c.written h info', ?_, consistent.written holds' hash encoded, ?_, ?_, rfl⟩
    · simp only [purgeLoop, got, if_neg skipped, step]
    · ext b
      rw [mem_stored_written consistent holds' hash encoded, Set.mem_sep_iff]
      have epoch : ¬ info'.purgedUnix ≤ 0 := Int.not_le.2 (unix_pos now)
      split
      next same => simp [same, epoch]
      next differ => simp [differ]
    · intro h'
      rw [FS.written, mem_insert]
      refine ⟨fun mem => mem.elim ?_ id, .inr⟩
      rintro rfl
      exact lookup_isSome.1 (by rw [found]; rfl)

theorem purgeLoop_spec (now : WallTime) (hs : List AUMHash) (i : Nat) (consistent : c.Consistent) :
    ∃ c', c'.Consistent ∧ (∀ h, h ∈ c'.files ↔ h ∈ c.files) ∧ c'.lastActive = c.lastActive ∧
      (purgeLoop now c (hs.zipIdx i) = (.ok (), c') ∧ (∀ h ∈ hs, h ∈ c.files) ∧
          stored c' = {a ∈ stored c | a.hash ∉ hs} ∨
        ∃ context done h rest, purgeLoop now c (hs.zipIdx i) = (.error (.wrap context .notExist), c') ∧
          hs = done ++ h :: rest ∧ h ∉ c.files ∧ stored c' = {a ∈ stored c | a.hash ∉ done}) := by
  induction hs generalizing c i with
  | nil => exact ⟨c, consistent, fun _ => .rfl, rfl, .inl ⟨rfl, by simp, by simp⟩⟩
  | cons h hs ih =>
    by_cases here : h ∈ c.files
    · obtain ⟨c₁, round, kept, contents, same, recorded⟩ :=
        purge_round now consistent here i (hs.zipIdx (i + 1))
      have minus : ∀ l : List AUMHash,
          {a ∈ stored c₁ | a.hash ∉ l} = {a ∈ stored c | a.hash ∉ h :: l} := by
        intro l
        rw [contents]
        ext b
        simp [and_assoc]
      obtain ⟨c', kept', same', recorded', outcome⟩ := ih (i + 1) kept
      refine ⟨c', kept', fun k => (same' k).trans (same k), recorded'.trans recorded, ?_⟩
      rw [zipIdx_cons, round]
      rcases outcome with ⟨ok, files, left⟩ | ⟨context, done, k, rest, failed, split, absent, left⟩
      · refine .inl ⟨ok, forall_mem_cons.2 ⟨here, fun k hk => (same k).1 (files k hk)⟩, ?_⟩
        rw [left, minus]
      · refine .inr ⟨context, h :: done, k, rest, failed, by rw [split]; rfl, ?_, ?_⟩
        · exact fun present => absent ((same k).2 present)
        · rw [left, minus]
    · refine ⟨c, consistent, fun _ => .rfl, rfl, .inr ⟨s!"reading {i} ({h.hex})", [], h, hs, ?_⟩⟩
      refine ⟨?_, rfl, here, by simp⟩
      cases got : c.get h with
      | error =>
        obtain ⟨rfl, -⟩ := get_error consistent got
        simp only [zipIdx_cons, purgeLoop, got]
      | ok =>
        have found := (get_ok consistent).1 got
        exact absurd (lookup_isSome.1 (by rw [found]; rfl)) here

instance : LawfulCompactableChonk FS where
  Consistent := Consistent
  aum_ok consistent found := by
    obtain ⟨file, looked, holds, -⟩ := (FS.aum_ok consistent).1 found
    obtain ⟨a, holds', hash⟩ := consistent.named looked
    rw [holds, Option.some.injEq] at holds'
    exact holds' ▸ hash
  aum_error consistent missing := FS.aum_error consistent missing
  childAUMs consistent h := by
    obtain ⟨cs, ok, spec⟩ := childAUMs_spec consistent h
    refine ⟨cs, ok, fun d hd => ?_, fun d hd prev => (spec d).2 ⟨hd, by rw [prev, Option.getD_some]⟩⟩
    obtain ⟨stored, bytes⟩ := (spec d).1 hd
    exact ⟨stored, AUM.parent_of_prev (AUM.prev_of_bytes bytes)⟩
  heads := heads_spec
  commitVerifiedAUMs consistent injective encoded := by
    obtain ⟨c', ok, kept, contents, recorded⟩ := commitLoop_spec 0 consistent injective encoded
    exact ⟨c', ok, kept, contents, lastActiveAncestor_congr recorded⟩
  setLastActiveAncestor {c} consistent h := by
    refine ⟨_, rfl, ⟨consistent.named, consistent.encoded⟩, rfl, ?_⟩
    simp [Chonk.lastActiveAncestor, FS.lastActiveAncestor, h.size, AUMHash.copyFrom_bytes]
  allAUMs := allAUMs_spec
  commitTime_error {c h e} consistent missing := by
    change FS.commitTime c h = _ at missing
    unfold FS.commitTime at missing
    split at missing
    · rename_i got
      obtain rfl := Except.error.inj missing
      exact (get_error consistent got).1
    · split at missing
      · exact (Except.error.inj missing).symm
      · split at missing <;> cases missing
  purgeAUMs {c c' hs} consistent purged := by
    obtain ⟨c₁, kept, -, recorded, outcome⟩ := purgeLoop_spec c.now hs 0 consistent
    change purgeLoop c.now c (hs.zipIdx 0) = _ at purged
    rcases outcome with ⟨ok, -, contents⟩ | ⟨context, done, h, rest, failed, -⟩
    · obtain ⟨-, rfl⟩ := Prod.mk.inj (ok.symm.trans purged)
      exact ⟨kept, contents, lastActiveAncestor_congr recorded⟩
    · cases (Prod.mk.inj (failed.symm.trans purged)).1

end

end ScaleTail.TKA.FS
