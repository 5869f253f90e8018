import ScaleTail.Taildrop.Transfer

/-! # The content of a received file -/

namespace ScaleTail.Taildrop
open Go List

theorem extensionSuffix_suffix (s : Bytes) : extensionSuffix s <:+ s := by
  unfold extensionSuffix
  cases found : s.tails.find? isExtensions with
  | none => exact nil_suffix
  | some => exact (mem_tails _ _).1 (mem_of_find?_eq_some found)

theorem trimPrefix_suffix (s p : Bytes) : trimPrefix s p <:+ s := by
  unfold trimPrefix
  split
  · exact drop_suffix ..
  · exact suffix_rfl

theorem nextFilename_eq {name next : Bytes} (found : nextFilename name = some next) :
    ∃ first ext, ext <:+ name ∧ next = first ++ (bytes ")" ++ ext) := by
  have suffix := (extensionSuffix_suffix (trimPrefix name (bytes "."))).trans (trimPrefix_suffix ..)
  have numbered first : first ++ bytes ")" ++ extensionSuffix (trimPrefix name (bytes ".")) = next →
      ∃ first ext, ext <:+ name ∧ next = first ++ (bytes ")" ++ ext) := by
    rintro rfl
    exact ⟨first, _, suffix, append_assoc ..⟩
  dsimp only [nextFilename] at found
  split at found
  · split at found
    · cases found
    split at found
    · cases found
    · split at found
      · exact numbered _ (Option.some.inj found)
      · exact numbered _ (Option.some.inj found)
  · exact numbered _ (Option.some.inj found)

theorem not_hasSuffix_nextFilename {name next suffix : Bytes} (found : nextFilename name = some next)
    (free : 41 ∉ suffix) (old : hasSuffix name suffix = false) : hasSuffix next suffix = false := by
  obtain ⟨first, ext, ends, rfl⟩ := nextFilename_eq found
  rw [hasSuffix, Bool.eq_false_iff, Ne, isSuffixOf_iff_suffix] at old ⊢
  intro new
  have whole : ext <:+ first ++ (bytes ")" ++ ext) :=
    (suffix_append ..).trans (suffix_append ..)
  by_cases short : suffix.length ≤ ext.length
  · exact old ((suffix_of_suffix_length_le new whole short).trans ends)
  have inside : bytes ")" ++ ext <:+ suffix := by
    apply suffix_of_suffix_length_le (suffix_append ..) new
    show ext.length + 1 ≤ _
    omega
  exact free (inside.subset (mem_append_left _ mem_cons_self))

theorem partialName_hasSuffix (key : IncomingFileKey) : hasSuffix key.partialName partialSuffix = true := by
  rw [hasSuffix, isSuffixOf_iff_suffix, IncomingFileKey.partialName]
  split
  · exact suffix_append ..
  · exact (suffix_append ..).trans (suffix_append ..)

variable {wellFormed : Bytes → Bool}

theorem not_hasSuffix_of_valid {name : Bytes}
    (valid : validateBaseName wellFormed name = true) : hasSuffix name partialSuffix = false := by
  simp only [validateBaseName, isPartialOrDeleted, Bool.and_eq_true, Bool.not_eq_true',
    Bool.or_eq_false_iff] at valid
  exact valid.2.2

section Sender
variable {H : Type} [DecidableEq H] {hash : Bytes → H} (injective : Function.Injective hash)
  (ended : Option ResumeError)
include injective

theorem resumeReader_block {b : Bytes} (nonempty : b ≠ []) (bound : b.length ≤ blockSize) (offset : Nat)
    (r : Bytes) (rest : List (BlockChecksum H)) :
    resumeReader hash ended offset r (⟨hash b, hashAlgorithm, b.length⟩ :: rest) =
      if b <+: r then resumeReader hash ended (offset + b.length) (r.drop b.length) rest
      else (offset, r, none) := by
  have valid : ¬ (hashAlgorithm ≠ hashAlgorithm ∨ (b.length : Int) < 0 ∨
      (blockSize : Int) < b.length) := by
    push Not
    exact ⟨rfl, by omega, by omega⟩
  simp only [resumeReader, if_neg valid, Int.toNat_natCast]
  by_cases common : b <+: r
  · have same : r.take b.length = b := (prefix_iff_eq_take.1 common).symm
    simp only [same, if_pos common, nonempty, ne_eq, not_true_eq_false, or_self, if_false]
  · have differ : hash b ≠ hash (r.take b.length) := by
      intro same
      exact common (prefix_iff_eq_take.2 (injective same))
    rw [if_neg common, if_pos (Or.inr differ), take_append_drop]

theorem resumeReader_blocks (n : Nat) (offset received : Nat) (r f : Bytes) (enough : f.length ≤ n) :
    ∃ m err, resumeReader hash ended offset r
        (((blocks n f).map fun b => ⟨hash b, hashAlgorithm, b.length⟩).take received) =
          (offset + m, r.drop m, err) ∧
      m ≤ f.length ∧ m ≤ r.length ∧ f.take m = r.take m ∧
      (m ≠ 0 ↔ received ≠ 0 ∧ f ≠ [] ∧ f.take blockSize <+: r) := by
  induction n generalizing offset received r f with
  | zero =>
    obtain rfl := length_eq_zero_iff.1 (Nat.le_zero.1 enough)
    exact ⟨0, ended, by simp [blocks, resumeReader], by simp⟩
  | succ _ ih =>
    rw [blocks]
    by_cases empty : f = []
    · subst empty
      exact ⟨0, ended, by simp [resumeReader], by simp⟩
    rw [if_neg empty, map_cons]
    cases received with
    | zero => exact ⟨0, ended, by simp [resumeReader], by simp⟩
    | succ received =>
      rw [take_succ_cons, resumeReader_block injective ended (by simpa [blockSize] using empty)
        (length_take_le ..)]
      by_cases common : f.take blockSize <+: r
      · rw [if_pos common]
        obtain ⟨rest, rfl⟩ := common
        obtain ⟨m, err, resumed, inside, inside', same, -⟩ :=
          ih (offset + (f.take blockSize).length) received rest (f.drop blockSize) (by
            rw [length_drop]
            have positive : 0 < f.length := length_pos_iff.2 empty
            unfold blockSize
            omega)
        have positive : (f.take blockSize).length ≠ 0 := by simpa [blockSize] using empty
        refine ⟨(f.take blockSize).length + m, err, ?_, ?_, ?_, ?_, ?_⟩
        · rw [drop_left, resumed, Nat.add_assoc, drop_length_add_append]
        · rw [length_drop] at inside
          rw [length_take]
          omega
        · rw [length_append]
          omega
        · rw [take_length_add_append, ← same, ← take_length_add_append,
            take_append_drop]
        · exact iff_of_true (by omega) ⟨Nat.succ_ne_zero _, empty, prefix_append ..⟩
      · refine ⟨0, none, ?_, by simp [common]⟩
        rw [if_neg common]
        rfl

end Sender

theorem writeAt_zero (content r : Bytes) : writeAt content 0 r = r ++ content.drop r.length := by
  simp [writeAt]

theorem writeAt_length (content r : Bytes) : writeAt content content.length r = content ++ r := by
  simp [writeAt]

section Receiver
variable {H : Type} [DecidableEq H] {hash : Bytes → H} (injective : Function.Injective hash)
  {files files' : Files} {old content final : Bytes}
include injective

theorem renameFrom_content {retries : Nat} {dst : Bytes} (partly : hasSuffix old partialSuffix = true)
    (proper : hasSuffix dst partialSuffix = false)
    (renamed : renameFrom hash files old content retries dst = some (final, files')) :
    files'.lookup final = some content := by
  induction retries generalizing dst with
  | zero => cases renamed
  | succ _ ih =>
    rw [renameFrom] at renamed
    split at renamed
    next missing =>
      cases renamed
      exact AList.lookup_insert _
    next other found =>
      split at renamed
      next same =>
        cases renamed
        have differ : final ≠ old := by
          rintro rfl
          exact Bool.false_ne_true (proper.symm.trans partly)
        rw [AList.lookup_erase_ne differ, found, injective same.2]
      next =>
        obtain ⟨next, found, rest⟩ := Option.bind_eq_some_iff.1 renamed
        exact ih (not_hasSuffix_nextFilename found (by decide) proper) rest

theorem putFile_content {key : IncomingFileKey} {r : Bytes} {offset length n : Int}
    (put : putFile hash wellFormed files key r offset length = .ok (n, final, files')) :
    n = offset + r.length ∧
      ∃ content pos, openWriter ((files.lookup key.partialName).getD []) offset = some (content, pos) ∧
        files'.lookup final = some (writeAt content pos r) := by
  unfold putFile at put
  split at put
  · cases put
  next valid =>
    split at put
    · cases put
    next content pos opened =>
      split at put
      · cases put
      split at put
      · cases put
      next final' files'' renamed =>
        cases put
        obtain ⟨written, found, renamed⟩ := Option.bind_eq_some_iff.1 renamed
        rw [AList.lookup_insert, Option.some_inj] at found
        subst found
        exact ⟨rfl, content, pos, opened, renameFrom_content injective (partialName_hasSuffix key)
          (not_hasSuffix_of_valid (not_not.1 valid)) renamed⟩

/-- A transfer that is resumed and completed leaves the sender's file, if the partial file was not
longer or something of it was kept. -/
theorem putFile_resumed_iff {wellFormed : Bytes → Bool} {key : IncomingFileKey} {l f : Bytes}
    {ended : Option ResumeError} {received : Nat} {length n : Int}
    (before : (files.lookup key.partialName).getD [] = f) {offset : Nat} {r : Bytes}
    {err : Option ResumeError}
    (resumed : resumeReader hash ended 0 l ((hashPartialFile hash f).take received) = (offset, r, err))
    (put : putFile hash wellFormed files key r offset length = .ok (n, final, files')) :
    files'.lookup final = some l ∧ n = l.length ↔
      f.length ≤ l.length ∨ received ≠ 0 ∧ f.take blockSize <+: l := by
  obtain ⟨m, err', resumed', inside, inside', same, kept⟩ :=
    resumeReader_blocks injective ended f.length 0 received l f le_rfl
  cases resumed.symm.trans resumed'
  obtain ⟨rfl, content, pos, opened, found⟩ := putFile_content injective put
  have whole : ((0 + m : Nat) : Int) + (l.drop m).length = l.length := by
    rw [length_drop]
    omega
  rw [whole, found, Option.some_inj, and_iff_left rfl]
  rw [before, Nat.zero_add, openWriter] at opened
  by_cases resumes : m = 0
  · -- the file is written over from the start
    subst resumes
    cases opened
    have nothing : ¬ (received ≠ 0 ∧ f.take blockSize <+: l ∧ f ≠ []) := by
      rintro ⟨arrived, common, nonempty⟩
      exact kept.2 ⟨arrived, nonempty, common⟩ rfl
    rw [drop_zero, writeAt_zero, append_right_eq_self, drop_eq_nil_iff]
    refine ⟨Or.inl, ?_⟩
    rintro (short | ⟨arrived, common⟩)
    · exact short
    · by_cases empty : f = []
      · simp [empty]
      · exact absurd ⟨arrived, common, empty⟩ nothing
  · -- the file is cut to the common part
    obtain ⟨arrived, -, common⟩ := kept.1 resumes
    have valid : ¬ ((m : Int) < 0 ∨ (f.length : Int) < m) := by omega
    rw [if_pos (by omega), if_neg valid, Int.toNat_natCast] at opened
    cases opened
    refine iff_of_true ?_ (.inr ⟨arrived, common⟩)
    have length : (f.take m).length = m := by rw [length_take, min_eq_left inside]
    calc writeAt (f.take m) m (l.drop m)
        = f.take m ++ l.drop m := by rw [← writeAt_length, length]
      _ = l := by rw [same, take_append_drop]

end Receiver

namespace Sample

def sent : IncomingFileKey := ⟨bytes "n1", bytes "foo"⟩

def left (content : Bytes) : Files := (∅ : Files).insert sent.partialName content

/-- A transfer of `l` after one that left `f`, with the content of the received file. -/
def transfer (f l : Bytes) : Except PutError (Int × Option Bytes) :=
  let (offset, r, _) := resumeReader id none 0 l ((hashPartialFile id f).take 1)
  (putFile id (fun _ => true) (left f) sent r offset (-1)).map fun (n, final, files) =>
    (n, files.lookup final)

theorem resumed_iff : ∃ n final files',
    putFile id (fun _ => true) (left [1, 2]) sent [3] 2 (-1) = .ok (n, final, files') ∧
      (files'.lookup final = some [1, 2, 3] ∧ n = ([1, 2, 3] : Bytes).length ↔
        ([1, 2] : Bytes).length ≤ ([1, 2, 3] : Bytes).length ∨
          1 ≠ 0 ∧ ([1, 2] : Bytes).take blockSize <+: [1, 2, 3]) := by
  have succeeds : (putFile id (fun _ => true) (left [1, 2]) sent [3] 2 (-1)).toOption.isSome := by
    decide +kernel
  cases put : putFile id (fun _ => true) (left [1, 2]) sent [3] 2 (-1) with
  | error e =>
    rw [put] at succeeds
    cases succeeds
  | ok result =>
    obtain ⟨n, final, files'⟩ := result
    have before : ((left [1, 2]).lookup sent.partialName).getD [] = [1, 2] := by decide +kernel
    have resumed : resumeReader id none 0 [1, 2, 3] ((hashPartialFile id [1, 2]).take 1) =
        (2, [3], none) := by decide +kernel
    exact ⟨n, final, files', rfl, putFile_resumed_iff Function.injective_id before resumed put⟩

/-- A shorter file that differs in its first block keeps the tail of the old one. -/
theorem stale_tail : transfer [1, 2, 3] [9] = .ok (1, some [9, 2, 3]) := by
  decide +kernel

end Sample

end ScaleTail.Taildrop
