import ScaleTail.OTA.Version

/-! # Versions in the daemon and in the desktop client -/

namespace ScaleTail.OTA

open Go Lib List Decimal
open Option (isSome_iff_exists not_isSome_iff_eq_none some)

def readVersion (s : Bytes) : Option Version :=
  (matchVersion s).filter fun v => ¬ v.prerelease.any isBadNum

abbrev IsVersion (s : Bytes) : Prop := (readVersion (dropV s)).isSome

variable {s : Bytes} {ids : List Bytes} {part : Option Bytes} {v : Version} {c : UInt8}
  {left right : List Bytes}

theorem isNumeral_iff : isNumeral s ↔ Decimal.Canonical s := by
  simp only [isNumeral, Decimal.Canonical, decide_eq_true_eq, List.all_eq_true]

theorem identifiers_visible
    (read : identifiers part = some ids) : ∀ s ∈ part, ∀ c ∈ s, Visible c := by
  rintro s rfl c hc
  simp only [identifiers] at read
  split_ifs at read with all
  have bytes : ∀ c, c = 46 ∨ (isAlnum c || decide (c = 45)) = true → Visible c := by grind
  apply bytes
  rcases mem_splitOn 46 hc with same | ⟨id, hid, hc⟩
  · exact .inl same
  have good := List.all_eq_true.1 all id hid
  simp only [isIdentifier, decide_eq_true_eq] at good
  exact .inr (List.all_eq_true.1 good.2 c hc)

theorem matchVersion_parts (read : matchVersion s = some v) :
    (Decimal.Canonical v.core.1 ∧ Decimal.Canonical v.core.2.1 ∧ Decimal.Canonical v.core.2.2) ∧
      ∃ rest, s = v.core.1 ++ 46 :: (v.core.2.1 ++ 46 :: v.core.2.2) ++ rest ∧
        ∀ c ∈ rest, Visible c := by
  unfold matchVersion at read
  dsimp only at read
  split at read
  next major minor patch pre build split preRead buildRead =>
    split_ifs at read with numerals
    obtain rfl := some.inj read
    simp only [isNumeral_iff] at numerals
    refine ⟨numerals, ?_⟩
    have core : (cut (cut s 43).1 45).1 = major ++ 46 :: (minor ++ 46 :: patch) := by
      have whole : [46].intercalate ((cut (cut s 43).1 45).1.splitOn 46) = (cut (cut s 43).1 45).1 :=
        intercalate_splitOn 46
      rw [← whole, split, intercalate_cons_cons, intercalate_cons_cons,
        intercalate_singleton]
      simp
    have visible := identifiers_visible preRead
    have visible' := identifiers_visible buildRead
    rcases cut_cases s 43 with ⟨-, same⟩ | ⟨head, tail, rfl, -, same⟩
    · rw [same] at core visible
      rcases cut_cases s 45 with ⟨-, same⟩ | ⟨front, ids, rfl, -, same⟩
      · rw [same] at core
        exact ⟨[], by rw [append_nil]; exact core, fun _ hc => absurd hc not_mem_nil⟩
      · rw [same] at core visible
        refine ⟨45 :: ids, congrArg (· ++ 45 :: ids) core, ?_⟩
        exact forall_mem_cons.2 ⟨by decide, visible ids rfl⟩
    · rw [same] at core visible visible'
      have build : ∀ c ∈ 43 :: tail, Visible c :=
        forall_mem_cons.2 ⟨by decide, visible' tail rfl⟩
      rcases cut_cases head 45 with ⟨-, same⟩ | ⟨front, ids, rfl, -, same⟩
      · rw [same] at core
        exact ⟨43 :: tail, congrArg (· ++ 43 :: tail) core, build⟩
      · rw [same] at core visible
        refine ⟨45 :: ids ++ 43 :: tail, ?_, ?_⟩
        · rw [← append_assoc]
          exact congrArg (· ++ 45 :: ids ++ 43 :: tail) core
        · rw [forall_mem_append, forall_mem_cons]
          exact ⟨⟨by decide, visible ids rfl⟩, build⟩
  · cases read

theorem digit_ne_letter : ∀ {c}, isDigit c → c ≠ 118 ∧ c ≠ 86 := by grind

theorem digit_visible : ∀ {c}, isDigit c → Visible c := by grind

theorem matchVersion_visible (read : matchVersion s = some v) : ∀ c ∈ s, Visible c := by
  obtain ⟨⟨major, minor, patch⟩, rest, rfl, visible⟩ := matchVersion_parts read
  have numeral : ∀ {n : Bytes}, Decimal.Canonical n → ∀ c ∈ n, Visible c :=
    fun h c hc => digit_visible (h.2.1 c hc)
  simp only [forall_mem_append, forall_mem_cons]
  exact ⟨⟨numeral major, by decide, numeral minor, by decide, numeral patch⟩, visible⟩

theorem matchVersion_head (read : matchVersion s = some v) :
    ∃ c t, s = c :: t ∧ isDigit c := by
  obtain ⟨⟨⟨nonempty, digits, -⟩, -⟩, rest, rfl, -⟩ := matchVersion_parts read
  obtain ⟨c, t, same⟩ := exists_cons_of_ne_nil nonempty
  rw [same] at digits ⊢
  exact ⟨c, _, rfl, digits c mem_cons_self⟩

theorem dropV_version (read : matchVersion s = some v) : dropV s = s := by
  obtain ⟨c, t, rfl, digit⟩ := matchVersion_head read
  have ne := digit_ne_letter digit
  simp [dropV, ne]

theorem readVersion_some (read : readVersion s = some v) :
    matchVersion s = some v ∧ ∀ id ∈ v.prerelease, ¬ isBadNum id := by
  obtain ⟨matched, good⟩ := Option.filter_eq_some_iff.1 read
  exact ⟨matched, by simpa using good⟩

theorem mem_dropV (mem : c ∈ s) : c ∈ dropV s ∨ c = 118 ∨ c = 86 := by
  unfold dropV
  split_ifs with letter
  · cases s with
    | nil => cases mem
    | cons =>
      rcases mem_cons.1 mem with rfl | mem
      · exact .inr (by simpa using letter)
      · exact .inl mem
  · exact .inl mem

theorem IsVersion.visible (h : IsVersion s) : ∀ c ∈ s, Visible c := by
  obtain ⟨v, read⟩ := isSome_iff_exists.1 h
  intro c hc
  rcases mem_dropV hc with mem | rfl | rfl
  · exact matchVersion_visible (readVersion_some read).1 c mem
  · decide
  · decide

theorem invisible_of_flatten {ws : List Bytes} (all : ws.flatten.all fun c => ¬ Visible c) :
    ∀ w ∈ ws, ∀ c ∈ w, ¬ Visible c := by
  intro w hw c hc
  simpa using List.all_eq_true.1 all c (mem_flatten.2 ⟨w, hw, hc⟩)

theorem spaces_invisible : ∀ w ∈ Go.spaces, ∀ c ∈ w, ¬ Visible c := invisible_of_flatten (by decide)

theorem desktop_spaces_invisible : ∀ w ∈ Desktop.spaces, ∀ c ∈ w, ¬ Visible c :=
  invisible_of_flatten (by decide)

theorem trim_eq_of_versions {a : Bytes} (go : IsVersion (trimSpace a))
    (desktop : IsVersion (Desktop.trim a)) : trimSpace a = Desktop.trim a := by
  have left : (trimSpace a).filter (Visible ·) = a.filter (Visible ·) :=
    Trim.both_filter (by simpa using spaces_invisible) a
  have right : (Desktop.trim a).filter (Visible ·) = a.filter (Visible ·) :=
    Trim.both_filter (by simpa using desktop_spaces_invisible) a
  rw [filter_eq_self.2 fun c hc => decide_eq_true (go.visible c hc)] at left
  rw [filter_eq_self.2 fun c hc => decide_eq_true (desktop.visible c hc)] at right
  exact left.trans right.symm

theorem desktop_trim_eq (visible : ∀ c ∈ s, Visible c) : Desktop.trim s = s := by
  refine Trim.both_eq_of_letters (p := Visible) ?_ visible
  decide

theorem trimPrefix_one (c d : UInt8) (s : Bytes) :
    trimPrefix (d :: s) [c] = if d = c then s else d :: s := by
  by_cases same : c = d
  · simp [trimPrefix, same]
  · simp [trimPrefix, same, Ne.symm same]

theorem trimPrefix_letters (read : (matchVersion (dropV s)).isSome) :
    trimPrefix (trimPrefix s (bytes "v")) (bytes "V") = dropV s := by
  obtain ⟨v, read⟩ := isSome_iff_exists.1 read
  obtain ⟨c, t, same, digit⟩ := matchVersion_head read
  have ne := digit_ne_letter digit
  have v : bytes "v" = [118] := rfl
  have V : bytes "V" = [86] := rfl
  cases s with
  | nil => cases same
  | cons d s =>
    unfold dropV at same ⊢
    rw [v, V, trimPrefix_one]
    by_cases small : d = 118
    · obtain rfl : s = c :: t := by simpa [small] using same
      simp [small, trimPrefix_one, ne.2]
    · simp [small, trimPrefix_one]

theorem canonicalVersion_eq (a : Bytes) : canonicalVersion a =
    if IsVersion (trimSpace a) then some (118 :: dropV (trimSpace a)) else none := by
  unfold canonicalVersion IsVersion semanticVersionPattern
  by_cases matched : (matchVersion (dropV (trimSpace a))).isSome
  · rw [if_neg (not_not.2 matched), trimPrefix_letters matched]
    rfl
  · have none : ¬ (readVersion (dropV (trimSpace a))).isSome := by
      rw [readVersion, not_isSome_iff_eq_none.1 matched]
      simp
    rw [if_pos matched, if_neg none]

theorem parseSemver_eq (value : Bytes) : Desktop.parseSemver value =
    (readVersion (dropV (Desktop.trim value))).map fun v =>
      ⟨[Desktop.number v.core.1, Desktop.number v.core.2.1, Desktop.number v.core.2.2],
        v.prerelease⟩ := by
  unfold Desktop.parseSemver readVersion
  cases matchVersion (dropV (Desktop.trim value)) with
  | none => rfl
  | some =>
    simp only [Option.filter]
    split_ifs <;> simp_all

theorem desktop_canonicalVersion_eq (a : Bytes) : Desktop.canonicalVersion a =
    if IsVersion (Desktop.trim (dropV (Desktop.trim a))) then some (dropV (Desktop.trim a))
    else none := by
  unfold Desktop.canonicalVersion IsVersion
  simp only [parseSemver_eq, Option.isSome_map]

def SameTrim (a : Bytes) : Prop := IsVersion (trimSpace a) ↔ IsVersion (Desktop.trim a)

def StrayV (a : Bytes) : Prop :=
  ¬ IsVersion (Desktop.trim a) ∧ IsVersion (Desktop.trim (dropV (Desktop.trim a)))

theorem IsVersion.again (h : IsVersion s) : IsVersion (Desktop.trim (dropV s)) := by
  obtain ⟨v, read⟩ := isSome_iff_exists.1 h
  have matched := (readVersion_some read).1
  unfold IsVersion
  rw [desktop_trim_eq (matchVersion_visible matched), dropV_version matched]
  exact h

theorem canonicalVersion_agrees_iff (a : Bytes) :
    (canonicalVersion a).map List.tail = Desktop.canonicalVersion a ↔ SameTrim a ∧ ¬ StrayV a := by
  rw [canonicalVersion_eq, desktop_canonicalVersion_eq, SameTrim, StrayV]
  by_cases go : IsVersion (trimSpace a) <;> by_cases desktop : IsVersion (Desktop.trim a)
  · rw [trim_eq_of_versions go desktop, if_pos desktop, if_pos desktop.again]
    simp [desktop]
  · -- The daemon's version is not what the desktop client leaves over.
    have differ : dropV (trimSpace a) ≠ dropV (Desktop.trim a) := by
      intro same
      apply desktop
      rw [IsVersion, ← same]
      exact go
    split_ifs <;> simp [go, desktop, differ]
  · rw [if_neg go, if_pos desktop.again]
    simp [go, desktop]
  · split_ifs with stray <;> simp [go, desktop, stray]

section
variable {x y : Bytes}

theorem compareInt_gt (hx : Decimal.Canonical x) (hy : Decimal.Canonical y) :
    compareInt x y = .gt ↔ value y < value x := by
  rw [value_lt_iff hy hx]
  unfold compareInt
  split_ifs with same short long less
  · simp [same]
  · simp only [false_iff, not_or, not_and]
    omega
  · simp [long]
  · have lengths : y.length = x.length := by omega
    simp only [lengths, lt_irrefl, true_and, false_or, false_iff]
    exact List.lt_asymm less
  · have lengths : y.length = x.length := by omega
    simp only [lengths, lt_irrefl, true_and, false_or, true_iff]
    exact (List.le_iff_lt_or_eq.1 (List.not_lt.1 less)).resolve_right (Ne.symm same)

theorem compareInt_eq : compareInt x y = .eq ↔ x = y := by
  unfold compareInt
  split_ifs with same <;> simp [same]

theorem number_lt_iff (ne : Desktop.number x ≠ Desktop.number y) :
    Desktop.number y < Desktop.number x ↔ value y < value x :=
  Binary64.ofNat_lt_iff ne.symm

end

def PrereleaseFaithful : List Bytes → List Bytes → Prop
  | l :: left, r :: right =>
    if l = r then PrereleaseFaithful left right
    else isNum l ∧ isNum r ∧ Decimal.value r < Decimal.value l →
      Desktop.number l ≠ Desktop.number r
  | _, _ => True

def newerNumerals : List (Bytes × Bytes) → Bool → Bool
  | (x, y) :: rest, otherwise =>
    if x = y then newerNumerals rest otherwise else Decimal.value y < Decimal.value x
  | [], otherwise => otherwise

def newerDoubles (pairs : List (Bytes × Bytes)) (otherwise : Bool) : Bool :=
  Desktop.newerCore (pairs.map fun p => Desktop.number p.1) (pairs.map fun p => Desktop.number p.2)
    otherwise

def CoreFaithful (otherwise : Bool) (prereleases : Prop) : List (Bytes × Bytes) → Prop
  | (x, y) :: rest =>
    if x = y then CoreFaithful otherwise prereleases rest
    else Desktop.number x = Desktop.number y →
      (newerDoubles rest otherwise ↔ Decimal.value y < Decimal.value x)
  | [] => prereleases

theorem newerDoubles_cons (x y : Bytes) (rest : List (Bytes × Bytes)) (otherwise : Bool) :
    newerDoubles ((x, y) :: rest) otherwise =
      if Desktop.number x ≠ Desktop.number y then decide (Desktop.number y < Desktop.number x)
      else newerDoubles rest otherwise := rfl

theorem newerNumerals_eq_iff (pairs : List (Bytes × Bytes)) (go desktop : Bool) :
    newerNumerals pairs go = newerDoubles pairs desktop ↔
      CoreFaithful desktop (go = desktop) pairs := by
  induction pairs with
  | nil => rfl
  | cons pair _ ih =>
    obtain ⟨x, y⟩ := pair
    rw [newerNumerals, newerDoubles_cons, CoreFaithful]
    by_cases same : x = y
    · rw [if_pos same, if_pos same, if_neg (by simp [same])]
      exact ih
    · rw [if_neg same, if_neg same]
      by_cases double : Desktop.number x = Desktop.number y
      · rw [if_neg (not_not.2 double)]
        simp only [double, forall_const]
        rw [eq_comm, Bool.eq_iff_iff, decide_eq_true_iff]
      · simp [double, number_lt_iff double]

theorem canonical_of_num {id : Bytes} (nonempty : id ≠ []) (num : isNum id) (good : ¬ isBadNum id) :
    Decimal.Canonical id := by
  refine ⟨nonempty, List.all_eq_true.1 num, ?_⟩
  intro zero
  cases id with
  | nil => exact absurd rfl nonempty
  | cons _ id =>
    cases id with
    | nil => simpa using zero
    | cons => simp [isBadNum, num, zero] at good

def GoodIds (ids : List Bytes) : Prop := ∀ id ∈ ids, id ≠ [] ∧ ¬ isBadNum id

theorem GoodIds.tail {id : Bytes} (h : GoodIds (id :: ids)) : GoodIds ids :=
  fun i hi => h i (mem_cons_of_mem id hi)

theorem compareIdents_num {l r : Bytes} (left right : List Bytes) (ne : l ≠ r)
    (hl : isNum l) (hr : isNum r) (canonical : Decimal.Canonical l)
    (canonical' : Decimal.Canonical r) :
    compareIdents (l :: left) (r :: right) = .gt ↔ value r < value l := by
  rw [← compareInt_gt canonical canonical']
  simp [compareIdents, compareInt, ne, hl, hr]

theorem compareIdents_agrees_iff (hl : GoodIds left) (hr : GoodIds right) :
    (compareIdents left right = .gt ↔ 0 < Desktop.compareParts left right) ↔
      PrereleaseFaithful left right := by
  induction left generalizing right with
  | nil => cases right <;> simp [compareIdents, Desktop.compareParts, PrereleaseFaithful]
  | cons l left ih =>
    cases right with
    | nil => simp [compareIdents, Desktop.compareParts, PrereleaseFaithful]
    | cons r right =>
      rw [PrereleaseFaithful, Desktop.compareParts]
      by_cases same : l = r
      · rw [if_pos same, if_pos same, compareIdents, if_neg (not_not.2 same)]
        exact ih hl.tail hr.tail
      rw [if_neg same, if_neg same]
      by_cases both : isNum l ∧ isNum r
      · -- Two numbers: the desktop client compares their doubles.
        obtain ⟨numL, numR⟩ := both
        have goodL := hl l mem_cons_self
        have goodR := hr r mem_cons_self
        rw [compareIdents_num left right same numL numR
          (canonical_of_num goodL.1 numL goodL.2) (canonical_of_num goodR.1 numR goodR.2),
          if_pos ⟨numL, numR⟩]
        by_cases double : Desktop.number l = Desktop.number r
        · simp [double, numL, numR]
        · rw [← number_lt_iff double]
          split_ifs with more <;> simp [more, double]
      · rw [if_neg both, compareIdents, if_pos same]
        have faithful : isNum l ∧ isNum r ∧ value r < value l →
            Desktop.number l ≠ Desktop.number r := fun h => absurd ⟨h.1, h.2.1⟩ both
        refine iff_of_true ?_ faithful
        by_cases mixed : isNum l ≠ isNum r
        · split_ifs <;> simp
        have numL : ¬ isNum l := fun h => both ⟨h, (not_not.1 mixed) ▸ h⟩
        rw [if_neg mixed, if_neg mixed]
        by_cases less : l < r
        · simp [numL, less, List.lt_asymm less]
        have more : r < l := by
          rcases List.le_iff_lt_or_eq.1 (List.not_lt.1 less) with more | equal
          · exact more
          · exact absurd equal.symm same
        simp [numL, less, more]

theorem compareParts_self (ids : List Bytes) : Desktop.compareParts ids ids = 0 := by
  induction ids with
  | nil => rfl
  | cons _ _ ih => rw [Desktop.compareParts, if_pos rfl, ih]

theorem prereleaseFaithful_self (ids : List Bytes) : PrereleaseFaithful ids ids := by
  induction ids with
  | nil => trivial
  | cons _ _ ih => rw [PrereleaseFaithful, if_pos rfl]; exact ih

theorem comparePrerelease_agrees_iff (hl : GoodIds left) (hr : GoodIds right) :
    (comparePrerelease left right = .gt ↔ 0 < Desktop.comparePrerelease left right) ↔
      PrereleaseFaithful left right := by
  unfold comparePrerelease Desktop.comparePrerelease
  cases left with
  | nil => cases right <;> simp [PrereleaseFaithful]
  | cons l left =>
    cases right with
    | nil => simp [PrereleaseFaithful]
    | cons r right =>
      by_cases same : l :: left = r :: right
      · rw [← same, compareParts_self]
        simp [prereleaseFaithful_self]
      · simp only [same, reduceCtorEq, length_cons, Nat.add_eq_zero_iff, one_ne_zero,
          and_false, or_self, if_false]
        exact compareIdents_agrees_iff hl hr

def corePairs (v w : Version) : List (Bytes × Bytes) :=
  [(v.core.1, w.core.1), (v.core.2.1, w.core.2.1), (v.core.2.2, w.core.2.2)]

def Faithful (v w : Version) : Prop :=
  CoreFaithful (0 < Desktop.comparePrerelease v.prerelease w.prerelease)
    (PrereleaseFaithful v.prerelease w.prerelease) (corePairs v w)

theorem identifiers_nonempty (read : identifiers part = some ids) : ∀ id ∈ ids, id ≠ [] := by
  unfold identifiers at read
  split at read
  · obtain rfl := some.inj read
    exact fun _ h => absurd h not_mem_nil
  · split_ifs at read with all
    obtain rfl := some.inj read
    intro id hid
    have good := List.all_eq_true.1 all id hid
    simp only [isIdentifier, decide_eq_true_eq] at good
    exact good.1

theorem readVersion_goodIds (read : readVersion s = some v) : GoodIds v.prerelease := by
  obtain ⟨matched, good⟩ := readVersion_some read
  unfold matchVersion at matched
  dsimp only at matched
  split at matched
  next pre build split preRead buildRead =>
    split_ifs at matched
    obtain rfl := some.inj matched
    exact fun id hid => ⟨identifiers_nonempty preRead id hid, good id hid⟩
  · cases matched

section
variable {t : Bytes} {w : Version} (hv : readVersion s = some v) (hw : readVersion t = some w)
include hv hw

theorem compareVersions_gt : (decide (compareVersions v w = .gt)) =
      newerNumerals (corePairs v w) (comparePrerelease v.prerelease w.prerelease = .gt) := by
  obtain ⟨⟨major, minor, patch⟩, -⟩ := matchVersion_parts (readVersion_some hv).1
  obtain ⟨⟨major', minor', patch'⟩, -⟩ := matchVersion_parts (readVersion_some hw).1
  unfold compareVersions corePairs
  simp only [newerNumerals, ne_eq, compareInt_eq]
  by_cases h₁ : v.core.1 = w.core.1
  · by_cases h₂ : v.core.2.1 = w.core.2.1
    · by_cases h₃ : v.core.2.2 = w.core.2.2
      · simp [h₁, h₂, h₃]
      · simp [h₁, h₂, h₃, compareInt_gt patch patch']
    · simp [h₁, h₂, compareInt_gt minor minor']
  · simp [h₁, compareInt_gt major major']

theorem faithful_iff : decide (compareVersions v w = .gt) =
      newerDoubles (corePairs v w) (0 < Desktop.comparePrerelease v.prerelease w.prerelease) ↔
        Faithful v w := by
  rw [compareVersions_gt hv hw, newerNumerals_eq_iff, decide_eq_decide,
    comparePrerelease_agrees_iff (readVersion_goodIds hv) (readVersion_goodIds hw)]
  rfl

end

theorem isNewerVersion_eq (a b : Bytes) : isNewerVersion a b =
    match readVersion (dropV (trimSpace a)), readVersion (dropV (trimSpace b)) with
    | some v, some w => decide (compareVersions v w = .gt)
    | _, _ => false := by
  have parse : ∀ s, semverParse (118 :: s) = readVersion s := fun _ => rfl
  have canonical : ∀ a, canonicalVersion a =
      (readVersion (dropV (trimSpace a))).map fun _ => 118 :: dropV (trimSpace a) := by
    intro a
    rw [canonicalVersion_eq]
    split_ifs with version
    · obtain ⟨v, read⟩ := isSome_iff_exists.1 version
      rw [read, Option.map_some]
    · rw [not_isSome_iff_eq_none.1 version, Option.map_none]
  unfold isNewerVersion
  rw [canonical, canonical]
  cases left : readVersion (dropV (trimSpace a)) <;>
    cases right : readVersion (dropV (trimSpace b)) <;>
    simp [left, right, semverCompare, parse]

theorem desktop_isNewerVersion_eq (a b : Bytes) : Desktop.isNewerVersion a b =
    match readVersion (dropV (Desktop.trim a)), readVersion (dropV (Desktop.trim b)) with
    | some v, some w =>
      newerDoubles (corePairs v w) (0 < Desktop.comparePrerelease v.prerelease w.prerelease)
    | _, _ => false := by
  unfold Desktop.isNewerVersion
  rw [parseSemver_eq, parseSemver_eq]
  cases readVersion (dropV (Desktop.trim a)) <;>
    cases readVersion (dropV (Desktop.trim b)) <;> rfl

theorem SameTrim.read {a : Bytes} (h : SameTrim a) :
    readVersion (dropV (Desktop.trim a)) = readVersion (dropV (trimSpace a)) := by
  by_cases go : IsVersion (trimSpace a)
  · rw [trim_eq_of_versions go (h.1 go)]
  · have desktop : ¬ IsVersion (Desktop.trim a) := fun d => go (h.2 d)
    rw [not_isSome_iff_eq_none.1 go, not_isSome_iff_eq_none.1 desktop]

/-- The daemon and the desktop client give the same canonical versions and the same answer to the
question which of them is newer exactly under these conditions. -/
theorem versions_agree_iff (a b : Bytes) :
    ((canonicalVersion a).map List.tail = Desktop.canonicalVersion a ∧
      (canonicalVersion b).map List.tail = Desktop.canonicalVersion b ∧
      isNewerVersion a b = Desktop.isNewerVersion a b) ↔
    (SameTrim a ∧ ¬ StrayV a) ∧ (SameTrim b ∧ ¬ StrayV b) ∧
      ∀ v w, readVersion (dropV (trimSpace a)) = some v →
        readVersion (dropV (trimSpace b)) = some w → Faithful v w := by
  rw [canonicalVersion_agrees_iff, canonicalVersion_agrees_iff]
  refine and_congr_right fun ha => and_congr_right fun hb => ?_
  rw [isNewerVersion_eq, desktop_isNewerVersion_eq, ha.1.read, hb.1.read]
  cases left : readVersion (dropV (trimSpace a)) with
  | none => simp
  | some v =>
    cases right : readVersion (dropV (trimSpace b)) with
    | none => simp
    | some w =>
      rw [faithful_iff left right]
      simp

/-- A version with two letters, one behind a byte order mark, and two numbers with one double. -/
theorem versions_differ :
    canonicalVersion (bytes "vv1.2.3") = none ∧
      Desktop.canonicalVersion (bytes "vv1.2.3") = some (bytes "v1.2.3") ∧
    canonicalVersion (0xef :: 0xbb :: 0xbf :: bytes "1.2.3") = none ∧
      Desktop.canonicalVersion (0xef :: 0xbb :: 0xbf :: bytes "1.2.3") = some (bytes "1.2.3") ∧
    isNewerVersion (bytes "9007199254740993.0.0") (bytes "9007199254740992.0.0") = true ∧
      Desktop.isNewerVersion (bytes "9007199254740993.0.0") (bytes "9007199254740992.0.0") =
        false := by
  decide

end ScaleTail.OTA
