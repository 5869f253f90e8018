import ScaleTail.Go.URL

/-! # Parsing URLs -/

namespace ScaleTail.Go

open Lib Percent List URL Decimal
open Option (bind_eq_bind bind_some map_eq_some_iff map_none)

theorem unescape_path (s : Bytes) : unescape .path s = (scan s).map (·.map Tok.value) := by
  fun_induction scan s with
  | case1 => rfl
  | case2 _ _ s hex ih =>
    simp only [unescape, if_true, hex, not_true_eq_false, if_false, reduceCtorEq, false_and, ih]
    cases scan s <;> simp
  | case3 _ _ _ hex => simp [unescape, hex]
  | case4 =>
    rw [unescape.eq_def]
    simp only [if_true, map_none]
  | case5 _ s ne ih =>
    rw [unescape.eq_def]
    simp only [ne, if_false, reduceCtorEq, or_self, false_and, ih]
    cases scan s <;> simp [Tok.value]

def hostTok : Tok → Bool
  | .lit c => ¬ (c < 0x80 ∧ shouldEscape c .host)
  | .esc h l => ¬ (unhex h < 8 ∧ ¬ (h = 50 ∧ l = 53))

theorem filter_map_cons (p : Tok → Bool) (t : Tok) (read : Option (List Tok)) :
    (read.map (t :: ·)).filter (·.all p) =
      if p t then (read.filter (·.all p)).map (t :: ·) else none := by
  cases read <;> cases ht : p t <;> simp [Option.filter, ht, apply_ite]

theorem unescape_host (s : Bytes) : unescape .host s =
    ((scan s).filter (·.all hostTok)).map (·.map Tok.value) := by
  fun_induction scan s with
  | case1 => rfl
  | case2 h l s hex ih =>
    simp only [unescape, if_true, hex, not_true_eq_false, if_false, reduceCtorEq, false_and, ih,
      true_and, filter_map_cons]
    by_cases bad : unhex h < 8 ∧ ¬ (h = 50 ∧ l = 53)
    · simp [bad, hostTok]
    · have good : hostTok (.esc h l) := decide_eq_true bad
      rw [if_neg bad, if_pos good]
      simp [Function.comp_def]
  | case3 _ _ _ hex => simp [unescape, hex]
  | case4 =>
    rw [unescape.eq_def]
    simp only [if_true, Option.filter_none, map_none]
  | case5 c s ne ih =>
    rw [unescape.eq_def]
    simp only [ne, if_false, true_or, true_and, ih, filter_map_cons]
    by_cases bad : c < 0x80 ∧ shouldEscape c .host
    · simp [bad, hostTok]
    · have good : hostTok (.lit c) := decide_eq_true bad
      rw [if_neg bad, if_pos good]
      simp [Function.comp_def, Tok.value]

def escapeTok (mode : Encoding) (c : UInt8) : Tok :=
  if shouldEscape c mode then .escape c else .lit c

theorem escape_eq (mode : Encoding) (s : Bytes) : escape mode s = render (s.map (escapeTok mode)) := by
  rw [escape, render, flatMap_map]
  congr 1
  funext c
  unfold escapeTok
  split <;> rfl

theorem shouldEscape_percent : shouldEscape 37 .path := by decide

theorem escape_proper (c : UInt8) : (Tok.escape c).Proper ∧ (Tok.escape c).value = c := by
  have bytes : ∀ c, (isHex (upperHex (c / 16)) ∧ isHex (upperHex (c % 16))) ∧
      (Tok.escape c).value = c := by decide +kernel
  exact bytes c

theorem escapeTok_proper (c : UInt8) : (escapeTok .path c).Proper := by
  unfold escapeTok
  split
  · exact (escape_proper c).1
  next no =>
    rintro rfl
    exact no shouldEscape_percent

def pathTok : Tok → Bool
  | .lit c => (bytes "!$&'()*+,;=:@").contains c || (bytes "[]").contains c || ¬ shouldEscape c .path
  | .esc _ _ => true

theorem hex_stands : ∀ c, isHex c → ¬ shouldEscape c .path := by
  grind [shouldEscape]

variable {s : Bytes}

theorem validEncoded_path {ts : List Tok} (read : scan s = some ts) :
    validEncoded s .path = ts.all pathTok := by
  obtain ⟨rfl, proper⟩ := scan_eq_some.1 read
  unfold validEncoded
  clear read
  induction ts with
  | nil => rfl
  | cons t _ ih =>
    rw [render_cons, all_append, all_cons,
      ih fun u hu => proper u (mem_cons_of_mem t hu)]
    congr 1
    cases t with
    | lit c =>
      have ne : c ≠ 37 := proper _ mem_cons_self
      simp [Tok.bytes, pathTok, ne]
    | esc h l =>
      obtain ⟨high, low⟩ : isHex h ∧ isHex l := proper _ mem_cons_self
      simp [Tok.bytes, pathTok, hex_stands h high, hex_stands l low]

theorem pathTok_escapeTok (c : UInt8) : pathTok (escapeTok .path c) := by
  unfold escapeTok
  split
  · rfl
  next no => simp [pathTok, no]

def pathToks (ts : List Tok) : List Tok :=
  if ts.all pathTok then ts else ts.map fun t => escapeTok .path t.value

variable {u v : URL}

theorem escapedPath_setPath {p : Bytes} (set : u.setPath p = some v)
    (rooted : p = [] ∨ p.head? = some 47) :
    ∃ ts, scan p = some ts ∧ v.escapedPath = render (pathToks ts) := by
  unfold setPath at set
  rw [unescape_path] at set
  cases read : scan p with
  | none => simp [read] at set
  | some ts =>
    refine ⟨ts, rfl, ?_⟩
    simp only [read, Option.map_some, bind_eq_bind, bind_some,
      Option.some.injEq] at set
    subst set
    obtain ⟨whole, -⟩ := scan_eq_some.1 read
    have star : ts.map Tok.value ≠ bytes "*" := by
      intro same
      rcases rooted with rfl | slash
      · obtain rfl := Option.some.inj read
        cases same
      · cases p with
        | nil => cases slash
        | cons c =>
          obtain rfl : c = 47 := by simpa using slash
          rw [scan_cons (by decide)] at read
          obtain ⟨us, -, rfl⟩ := map_eq_some_iff.1 read
          exact absurd (List.cons.inj same).1 (by decide)
    have again : escape .path (ts.map Tok.value) =
        render (ts.map fun t => escapeTok .path t.value) := by
      rw [escape_eq, List.map_map]
      rfl
    unfold escapedPath escapedPart pathToks
    by_cases valid : ts.all pathTok
    · rw [if_pos valid, whole]
      by_cases same : p = escape .path (ts.map Tok.value)
      · rw [if_pos same, if_neg (fun h => h.1 rfl), if_neg (fun h => star h.2)]
        exact same.symm
      · have nonempty : p ≠ [] := by
          rintro rfl
          obtain rfl := Option.some.inj read
          exact same rfl
        rw [if_neg same, if_pos]
        rw [validEncoded_path read, unescape_path, read]
        exact ⟨nonempty, valid, rfl⟩
    · have invalid : ¬ validEncoded p .path := by
        rw [validEncoded_path read]
        exact valid
      rw [if_neg valid, ← again, if_neg, if_neg (fun h => star h.2)]
      rintro ⟨nonempty, ok, -⟩
      split_ifs at nonempty ok
      · exact nonempty rfl
      · exact invalid ok

def after (sep : UInt8) : Option Bytes → Bytes
  | none => []
  | some s => sep :: s

structure Parts where
  scheme : Bytes
  authority : Bytes
  path : Bytes
  query : Option Bytes
  hash : Bool

namespace Parts

def hierarchy (p : Parts) : Bytes := 47 :: 47 :: (p.authority ++ p.path)

def beforeHash (p : Parts) : Bytes := p.scheme ++ 58 :: (p.hierarchy ++ after 63 p.query)

def text (p : Parts) : Bytes := p.beforeHash ++ if p.hash then [35] else []

structure Proper (p : Parts) : Prop where
  scheme : p.scheme.map lowerASCII = bytes "https"
  authority : ∀ c ∈ p.authority, c ≠ 47 ∧ c ≠ 63 ∧ c ≠ 35
  path : (p.path = [] ∨ p.path.head? = some 47) ∧ ∀ c ∈ p.path, c ≠ 63 ∧ c ≠ 35
  query : ∀ q ∈ p.query, q ≠ [] ∧ 35 ∉ q
  control : ∀ c ∈ p.beforeHash, ¬ (c < 0x20 ∨ c = 0x7f)

def start (p : Parts) : URL :=
  { URL.empty with scheme := bytes "https", rawQuery := p.query.getD [] }

end Parts

section
variable {p : Parts} {c : UInt8} {u : URL}

theorem Parts.Proper.scheme_mem (h : p.Proper) (mem : c ∈ p.scheme) :
    isSchemeByte c ∧ (isUpper c ∨ isLower c) ∧ c ≠ 35 ∧ c ≠ 63 := by
  have bytes : ∀ c, lowerASCII c ∈ bytes "https" →
      isSchemeByte c ∧ (isUpper c ∨ isLower c) ∧ c ≠ 35 ∧ c ≠ 63 := by decide +kernel
  apply bytes c
  rw [← h.scheme]
  exact List.mem_map_of_mem mem

theorem Parts.Proper.getScheme (h : p.Proper) :
    getScheme p.beforeHash = some (p.scheme, p.hierarchy ++ after 63 p.query) := by
  have all : ∀ c ∈ p.scheme, isSchemeByte c := fun c hc => (h.scheme_mem hc).1
  have nonempty : p.scheme ≠ [] := by
    intro none
    have := h.scheme
    rw [none] at this
    cases this
  obtain ⟨c, rest, same⟩ := exists_cons_of_ne_nil nonempty
  have letter := (h.scheme_mem (c := c) (by rw [same]; exact mem_cons_self)).2.1
  have colon : ¬ isSchemeByte 58 := by decide
  unfold Go.getScheme Parts.beforeHash
  rw [takeWhile_append_of_pos all, dropWhile_append_of_pos all,
    takeWhile_cons_of_neg colon, dropWhile_cons_of_neg colon, append_nil, same]
  simp [letter]

theorem Parts.Proper.hash_free (h : p.Proper) : 35 ∉ p.beforeHash := by
  unfold Parts.beforeHash Parts.hierarchy
  simp only [mem_append, mem_cons, not_or]
  refine ⟨fun mem => (h.scheme_mem mem).2.2.1 rfl, by decide, ⟨by decide, by decide, ?_, ?_⟩, ?_⟩
  · exact fun mem => (h.authority _ mem).2.2 rfl
  · exact fun mem => (h.path.2 _ mem).2 rfl
  · unfold after
    split
    · exact not_mem_nil
    next q same =>
      rw [mem_cons, not_or]
      exact ⟨by decide, (h.query q same).2⟩

theorem Parts.Proper.query_free (h : p.Proper) : 63 ∉ p.hierarchy := by
  unfold Parts.hierarchy
  simp only [mem_append, mem_cons, not_or]
  refine ⟨by decide, by decide, ?_, ?_⟩
  · exact fun mem => (h.authority _ mem).2.1 rfl
  · exact fun mem => (h.path.2 _ mem).1 rfl

theorem Parts.Proper.not_forced (h : p.Proper) :
    ¬ ((p.hierarchy ++ after 63 p.query).getLast? = some 63 ∧
      (p.hierarchy ++ after 63 p.query).count 63 = 1) := by
  have none : p.hierarchy.count 63 = 0 := count_eq_zero.2 h.query_free
  rintro ⟨last, count⟩
  cases same : p.query with
  | none => simp [same, after, none] at count
  | some q =>
    obtain ⟨nonempty, -⟩ := h.query q same
    rw [same, after] at last count
    have mem : (63 : UInt8) ∈ q := by
      rw [getLast?_append_of_ne_nil _ (cons_ne_nil _ _),
        getLast?_cons_of_ne_nil nonempty] at last
      exact mem_of_getLast? last
    have := count_pos_iff.2 mem
    rw [count_append, none, count_cons_self] at count
    omega

theorem cut_after (free : c ∉ s) (o : Option Bytes) :
    cut (s ++ after c o) c = (s, o) := by
  cases o with
  | none => rw [after, append_nil, cut_free free]
  | some => exact cut_append free

theorem Parts.Proper.parse [Netip] (h : p.Proper) : URL.parse p.text =
    (parseAuthority (bytes "https") p.authority).bind fun a =>
      setPath { p.start with user := a.1, host := a.2 } p.path := by
  have raw : parseRaw p.beforeHash = (parseAuthority (bytes "https") p.authority).bind fun a =>
      setPath { p.start with user := a.1, host := a.2 } p.path := by
    have control : ¬ p.beforeHash.any fun c => c < 0x20 || c = 0x7f := by
      simpa using h.control
    have star : p.beforeHash ≠ bytes "*" := by
      intro same
      have mem : (58 : UInt8) ∈ p.beforeHash :=
        mem_append_right _ mem_cons_self
      rw [same] at mem
      exact absurd mem (by decide)
    rw [parseRaw, if_neg control, if_neg star, h.getScheme]
    simp only [bind_eq_bind, bind_some]
    rw [if_neg h.not_forced, cut_after h.query_free, h.scheme]
    -- The authority ends at the first slash.
    have noSlash : ∀ c ∈ p.authority, decide (c ≠ 47) = true := by
      intro c hc
      simpa using (h.authority c hc).1
    have split : (p.authority ++ p.path).takeWhile (fun c => decide (c ≠ 47)) = p.authority ∧
        (p.authority ++ p.path).dropWhile (fun c => decide (c ≠ 47)) = p.path := by
      rw [takeWhile_append_of_pos noSlash, dropWhile_append_of_pos noSlash]
      rcases h.path.1 with none | slash
      · simp [none]
      cases path : p.path with
      | nil => simp
      | cons c =>
        obtain rfl : c = 47 := by simpa [path] using slash
        simp
    unfold parseHierarchy Parts.hierarchy
    simp only [head?_cons, ne_eq, not_true_eq_false, false_and, if_false]
    rw [if_pos ⟨.inl (by decide), by simp [show bytes "//" = [47, 47] from rfl]⟩]
    simp only [drop_succ_cons, drop_zero, split.1, split.2]
    rfl
  unfold URL.parse Parts.text
  by_cases hash : p.hash
  · rw [if_pos hash, cut_append h.hash_free]
    simp only [bind_eq_bind, raw]
    simp
  · rw [if_neg hash, append_nil, cut_free h.hash_free]
    simp only [bind_eq_bind, raw]
    simp

theorem unescape_ne_nil {mode : Encoding} {s t : Bytes} (read : unescape mode s = some t)
    (nonempty : s ≠ []) : t ≠ [] := by
  rintro rfl
  cases s with
  | nil => exact nonempty rfl
  | cons =>
    rw [unescape.eq_def] at read
    dsimp only at read
    split_ifs at read
    · split at read
      · split_ifs at read
        simp at read
      · cases read
    · simp at read

theorem getScheme_some {raw scheme rest : Bytes} (read : getScheme raw = some (scheme, rest))
    (nonempty : scheme ≠ []) : raw = scheme ++ 58 :: rest := by
  unfold Go.getScheme at read
  dsimp only at read
  have parts := takeWhile_append_dropWhile (p := isSchemeByte) (l := raw)
  split at read
  next tail colon =>
    split at read
    · cases read
    next c more same =>
      split_ifs at read
      · obtain ⟨rfl, rfl⟩ := Prod.mk.inj (Option.some.inj read)
        rw [← colon]
        exact parts.symm
      · exact absurd (Prod.mk.inj (Option.some.inj read)).1.symm nonempty
  · exact absurd (Prod.mk.inj (Option.some.inj read)).1.symm nonempty

theorem setPath_eq {p : Bytes} (set : u.setPath p = some v) :
    v = { u with path := v.path, rawPath := v.rawPath } := by
  unfold setPath at set
  cases read : unescape .path p with
  | none => simp [read] at set
  | some =>
    simp only [read, bind_eq_bind, bind_some, Option.some.injEq] at set
    subst set
    rfl

theorem exists_setPath (u : URL) {p : Bytes} {ts : List Tok} (read : scan p = some ts) :
    ∃ v, u.setPath p = some v := by
  simp [setPath, unescape_path, read]

theorem parseHierarchy_some [Netip] {rest : Bytes}
    (parsed : parseHierarchy u rest = some v) (none : u.host = []) (host : v.host ≠ []) :
    v.scheme = u.scheme ∧ v.forceQuery = u.forceQuery ∧ ∃ r, rest = 47 :: 47 :: r := by
  unfold parseHierarchy at parsed
  split_ifs at parsed with opaq colon slashes
  · obtain rfl := Option.some.inj parsed
    exact absurd none host
  · obtain ⟨r, same⟩ := isPrefixOf_iff_prefix.1 slashes.2
    cases read : parseAuthority u.scheme ((rest.drop 2).takeWhile (· ≠ 47)) with
    | none => simp only [read, bind_eq_bind, Option.bind_none, reduceCtorEq] at parsed
    | some =>
      simp only [read, bind_eq_bind, bind_some] at parsed
      have scheme := congrArg scheme (setPath_eq parsed)
      have forced := congrArg forceQuery (setPath_eq parsed)
      exact ⟨scheme, forced, r, same.symm⟩
  · rw [setPath_eq parsed] at host
    exact absurd none host

theorem parse_beforeHash [Netip] {t : Bytes} (parsed : URL.parse t = some u)
    (fragment : u.fragment = []) : ∃ before, ∃ hash : Bool, t = before ++ (if hash then [35] else []) ∧
      35 ∉ before ∧ parseRaw before = some u := by
  unfold URL.parse at parsed
  rcases cut_cases t 35 with ⟨free, same⟩ | ⟨before, f, rfl, free, same⟩
  · rw [same] at parsed
    refine ⟨t, false, by simp, free, ?_⟩
    cases raw : parseRaw t with
    | none => simp [raw] at parsed
    | some => simpa [raw] using parsed
  · rw [same] at parsed
    cases raw : parseRaw before with
    | none => simp [raw] at parsed
    | some =>
      simp only [raw, bind_eq_bind, bind_some] at parsed
      cases f with
      | nil =>
        refine ⟨before, true, rfl, free, ?_⟩
        rw [raw]
        exact parsed
      | cons c f =>
        simp only [setFragment] at parsed
        cases read : unescape .fragment (c :: f) with
        | none => simp [read] at parsed
        | some =>
          simp only [read, bind_eq_bind, bind_some, Option.some.injEq] at parsed
          subst parsed
          exact absurd fragment (unescape_ne_nil read (cons_ne_nil c f))

theorem exists_parts [Netip] {t : Bytes} (parsed : URL.parse t = some u)
    (scheme : u.scheme.map lowerASCII = bytes "https") (host : u.host ≠ [])
    (fragment : u.fragment = []) (forced : ¬ u.forceQuery) : ∃ p : Parts, p.Proper ∧ p.text = t := by
  obtain ⟨before, hash, rfl, free, raw⟩ := parse_beforeHash parsed fragment
  unfold parseRaw at raw
  split_ifs at raw with control star
  · obtain rfl := Option.some.inj raw
    exact absurd rfl host
  cases read : getScheme before with
  | none => simp [read] at raw
  | some parts =>
    obtain ⟨name, rest⟩ := parts
    simp only [read, bind_eq_bind, bind_some] at raw
    split_ifs at raw with query
    · obtain ⟨-, same, -⟩ := parseHierarchy_some raw rfl host
      exact absurd same forced
    obtain ⟨same, -, r, slashes⟩ := parseHierarchy_some raw rfl host
    have lower : name.map lowerASCII = bytes "https" := by
      rw [← scheme, same, List.map_map]
      exact map_congr_left fun c _ => (lowerASCII_lowerASCII c).symm
    have nonempty : name ≠ [] := by
      rintro rfl
      cases lower
    have whole := getScheme_some read nonempty
    have restParts : rest = (cut rest 63).1 ++ after 63 (cut rest 63).2 ∧
        63 ∉ (cut rest 63).1 := by
      rcases cut_cases rest 63 with ⟨free, same⟩ | ⟨x, y, rfl, free, same⟩
      · rw [same]
        exact ⟨(append_nil rest).symm, free⟩
      · rw [same]
        exact ⟨rfl, free⟩
    have rParts := takeWhile_append_dropWhile (p := fun c => decide (c ≠ 47)) (l := r)
    have mem : ∀ c ∈ r, c ≠ 63 ∧ c ≠ 35 := by
      intro c hc
      have here : c ∈ (cut rest 63).1 := by
        rw [slashes]
        exact mem_cons_of_mem _ (mem_cons_of_mem _ hc)
      refine ⟨fun same => restParts.2 (same ▸ here), fun same => free ?_⟩
      rw [whole, restParts.1, ← same]
      exact mem_append_right _ (mem_cons_of_mem _ (mem_append_left _ here))
    let p : Parts := ⟨name, r.takeWhile fun c => decide (c ≠ 47),
      r.dropWhile fun c => decide (c ≠ 47), (cut rest 63).2, hash⟩
    have text : p.beforeHash = before := by
      have hierarchy : p.hierarchy = (cut rest 63).1 := by
        rw [slashes, Parts.hierarchy, rParts]
      rw [Parts.beforeHash, hierarchy, ← restParts.1, whole]
    refine ⟨p, ⟨lower, ?_, ⟨?_, ?_⟩, ?_, ?_⟩, by rw [Parts.text, text]⟩
    · intro c hc
      exact ⟨by simpa using mem_takeWhile_imp hc,
        mem c (takeWhile_subset _ hc)⟩
    · cases left : r.dropWhile fun c => decide (c ≠ 47) with
      | nil => exact .inl left
      | cons c more =>
        have stop := head?_dropWhile_not (fun c => decide (c ≠ 47)) r
        rw [left] at stop
        have slash : c = 47 := by simpa using stop
        refine .inr ?_
        rw [show p.path = c :: more from left, slash, head?_cons]
    · exact fun c hc => mem c (dropWhile_subset _ hc)
    · intro q hq
      have part : after 63 p.query = 63 :: q := by
        rw [show p.query = some q from hq, after]
      constructor
      · rintro rfl
        apply query
        rw [restParts.1, show (cut rest 63).2 = some [] from hq, after]
        refine ⟨by simp, ?_⟩
        rw [count_append, count_eq_zero.2 restParts.2]
        rfl
      · intro bad
        apply free
        rw [← text, Parts.beforeHash, part]
        exact mem_append_right _ (mem_cons_of_mem _
          (mem_append_right _ (mem_cons_of_mem _ bad)))
    · rw [text]
      simpa using control

end

structure PlainHost (host : Bytes) (port : Option Bytes) : Prop where
  host : ∀ c ∈ host, c ≠ 64 ∧ c ≠ 91 ∧ c ≠ 58
  port : ∀ d ∈ port, ∀ c ∈ d, Decimal.isDigit c

theorem escape_high : ∀ h : UInt8, ¬ unhex h < 8 → ∀ l : UInt8, 0x80 ≤ (Tok.esc h l).value := by
  have small : ∀ c, unhex c < 16 := by grind [unhex]
  intro h high l
  have hh := small h
  have hl := small l
  simp only [Tok.value, UInt8.le_iff_toNat_le, UInt8.lt_iff_toNat_lt, UInt8.toNat_add,
    UInt8.toNat_mul] at *
  simp only [UInt8.reduceToNat] at *
  omega

theorem mem_unescape_host {s h : Bytes} (read : unescape .host s = some h) {c : UInt8}
    (mem : c ∈ h) : c ∈ s ∨ 0x80 ≤ c ∨ c = 37 := by
  rw [unescape_host] at read
  obtain ⟨ts, kept, rfl⟩ := map_eq_some_iff.1 read
  obtain ⟨scanned, all⟩ := Option.filter_eq_some_iff.1 kept
  obtain ⟨rfl, -⟩ := scan_eq_some.1 scanned
  obtain ⟨t, ht, rfl⟩ := List.mem_map.1 mem
  have good := List.all_eq_true.1 all t ht
  cases t with
  | lit => exact .inl (mem_flatMap.2 ⟨_, ht, mem_cons_self⟩)
  | esc h l =>
    have allowed : ¬ (unhex h < 8 ∧ ¬ (h = 50 ∧ l = 53)) := of_decide_eq_true good
    by_cases high : unhex h < 8
    · obtain ⟨rfl, rfl⟩ : h = 50 ∧ l = 53 := by
        by_contra no
        exact allowed ⟨high, no⟩
      exact .inr (.inr (by decide))
    · exact .inr (.inl (escape_high h high l))

theorem digit_host : ∀ c, isDigit c → hostTok (.lit c) ∧ c ≠ 37 ∧ c ≠ 58 ∧ c ≠ 64 ∧ c ≠ 91 := by
  grind [hostTok, shouldEscape]

theorem unescape_host_append {port : Option Bytes} (digits : ∀ d ∈ port, ∀ c ∈ d, isDigit c)
    (s : Bytes) : unescape .host (s ++ after 58 port) =
      (unescape .host s).map (· ++ after 58 port) := by
  cases port with
  | none => simp [after]
  | some d =>
    have plain := scan_of_forall fun c hc => (digit_host c (digits d rfl c hc)).2.1
    have good : (d.map Tok.lit).all hostTok := by
      rw [List.all_map, List.all_eq_true]
      exact fun c hc => (digit_host c (digits d rfl c hc)).1
    have colon : hostTok (.lit 58) := by decide
    have values : (d.map Tok.lit).map Tok.value = d := by
      rw [List.map_map]
      exact List.map_id' d
    rw [after, unescape_host, unescape_host, scan_append_cons (by decide) (by decide), plain]
    cases scan s with
    | none => rfl
    | some ts =>
      by_cases all : ts.all hostTok
      · simp [Option.filter, all, good, colon, values, Tok.value]
      · simp [Option.filter, all]

section
variable [Netip] {host : Bytes} {port : Option Bytes}

omit [Netip] in
theorem PlainHost.free (h : PlainHost host port) {c : UInt8} (mem : c ∈ host ++ after 58 port) :
    c ≠ 64 ∧ c ≠ 91 := by
  rcases mem_append.1 mem with mem | mem
  · exact ⟨(h.host c mem).1, (h.host c mem).2.1⟩
  cases port with
  | none => cases mem
  | some d =>
    rcases mem_cons.1 mem with rfl | mem
    · decide
    · exact (digit_host c (h.port d rfl c mem)).2.2.2

theorem PlainHost.parse (h : PlainHost host port) :
    parseAuthority (bytes "https") (host ++ after 58 port) =
      (unescape .host host).map fun name => (none, name ++ after 58 port) := by
  have user : 64 ∉ host ++ after 58 port := fun mem => (h.free mem).1 rfl
  have bracket : 91 ∉ host ++ after 58 port := fun mem => (h.free mem).2 rfl
  have colon : 58 ∉ host := fun mem => (h.host _ mem).2.2 rfl
  have whole := unescape_host_append h.port host
  rw [parseAuthority, cutLast_free user]
  simp only [parseHost, cutLast_free bracket]
  cases port with
  | none =>
    rw [after, append_nil] at whole ⊢
    rw [cutLast_free colon]
    cases unescape .host host <;> simp
  | some d =>
    have noColon : 58 ∉ d := fun mem => (digit_host _ (h.port d rfl _ mem)).2.2.1 rfl
    have valid : validOptionalPort (58 :: d) := by
      simpa [validOptionalPort] using h.port d rfl
    rw [after] at whole ⊢
    rw [cutLast_append noColon]
    simp only [colon, false_and, if_false, valid, not_true_eq_false, whole]
    cases unescape .host host <;> simp

theorem colon_of_v6 (v6 : parseAddr s = some .v6) : 58 ∈ s := by
  unfold parseAddr at v6
  split at v6
  · dsimp only at v6
    split_ifs at v6
    cases v6
  next found => exact mem_of_find?_eq_some found
  · cases v6

theorem authority_cases {a name : Bytes} (read : parseAuthority (bytes "https") a = some (none, name)) :
    (∃ host port, a = host ++ after 58 port ∧ PlainHost host port) ∨
      ∃ literal port, name = 91 :: literal ++ 93 :: port ∧ 58 ∈ literal ∧
        (port = [] ∨ ∃ d, port = 58 :: d ∧ ∀ c ∈ d, isDigit c) := by
  unfold parseAuthority at read
  rcases cutLast_cases a 64 with ⟨user, same⟩ | ⟨x, y, -, -, same⟩
  · rw [same] at read
    obtain ⟨name', parsed, same⟩ := map_eq_some_iff.1 read
    obtain rfl := (Prod.mk.inj same).2
    unfold parseHost at parsed
    rcases cutLast_cases a 91 with ⟨bracket, same⟩ | ⟨x, y, rfl, -, same⟩
    · rw [same] at parsed
      left
      rcases cutLast_cases a 58 with ⟨colon, same⟩ | ⟨host, d, rfl, -, same⟩
      · refine ⟨a, none, (append_nil a).symm, ?_, nofun⟩
        intro c hc
        exact ⟨fun h => user (h ▸ hc), fun h => bracket (h ▸ hc), fun h => colon (h ▸ hc)⟩
      · simp only [same] at parsed
        split_ifs at parsed with colons bad
        refine ⟨host, some d, rfl, ?_, ?_⟩
        · intro c hc
          refine ⟨fun h => user (h ▸ mem_append_left _ hc),
            fun h => bracket (h ▸ mem_append_left _ hc), fun h => colons ⟨h ▸ hc, .inr trivial⟩⟩
        · intro d' hd'
          obtain rfl := Option.some.inj hd'
          simpa [validOptionalPort] using bad
    · rw [same] at parsed
      right
      cases x with
      | cons => cases parsed
      | nil =>
        dsimp only at parsed
        rcases cutLast_cases y 93 with ⟨-, same⟩ | ⟨literal, colonPort, -, -, same⟩
        · rw [same] at parsed
          cases parsed
        rw [same] at parsed
        dsimp only at parsed
        split_ifs at parsed with bad
        cases portRead : unescape .host colonPort with
        | none => simp [portRead] at parsed
        | some port =>
          cases literalRead : unescapeLiteral literal with
          | none => simp [portRead, literalRead] at parsed
          | some text =>
            simp only [portRead, literalRead, bind_eq_bind, bind_some] at parsed
            split at parsed
            next v6 =>
              obtain rfl := Option.some.inj parsed
              refine ⟨text, port, rfl, colon_of_v6 v6, ?_⟩
              cases colonPort with
              | nil => exact .inl (Option.some.inj portRead).symm
              | cons c d =>
                obtain ⟨rfl, digits⟩ : c = 58 ∧ ∀ c ∈ d, isDigit c := by
                  simpa [validOptionalPort] using bad
                have same := @unescape_host_append (some d)
                  (fun d' hd' => Option.some.inj hd' ▸ digits) []
                rw [nil_append, after, portRead] at same
                exact .inr ⟨d, Option.some.inj same, digits⟩
            · cases parsed
  · rw [same] at read
    cases hostRead : parseHost (bytes "https") y with
    | none => simp [hostRead] at read
    | some =>
      cases userRead : parseUserinfo x with
      | none | some => simp [hostRead, userRead] at read

omit [Netip] in
theorem PlainHost.split (h : PlainHost host port) {u : URL} {name : Bytes}
    (read : unescape .host host = some name) (same : u.host = name ++ after 58 port) :
    u.hostname = name ∧ u.port = port.getD [] := by
  have free : ∀ c, c = 58 ∨ c = 91 → c ∉ name := by
    intro c which mem
    rcases mem_unescape_host read mem with mem | high | percent
    · obtain ⟨-, bracket, colon⟩ := h.host c mem
      exact which.elim colon bracket
    · rcases which with rfl | rfl <;> exact absurd high (by decide)
    · rcases which with rfl | rfl <;> exact absurd percent (by decide)
  have noBracket : name.head? ≠ some 91 := fun first => free 91 (.inr rfl) (mem_of_head? first)
  unfold URL.hostname URL.port URL.splitHostPort
  rw [same]
  cases port with
  | none =>
    rw [after, append_nil, cutLast_free (free 58 (.inl rfl))]
    simp [noBracket]
  | some d =>
    have noColon : 58 ∉ d := fun mem => (digit_host _ (h.port d rfl _ mem)).2.2.1 rfl
    have digits : d.all isDigit := List.all_eq_true.2 (h.port d rfl)
    rw [after, cutLast_append noColon]
    simp [digits, noBracket]

omit [Netip] in
theorem colon_in_hostname {u : URL} {literal port : Bytes} (colon : 58 ∈ literal)
    (digits : port = [] ∨ ∃ d, port = 58 :: d ∧ ∀ c ∈ d, isDigit c)
    (same : u.host = 91 :: literal ++ 93 :: port) : 58 ∈ u.hostname := by
  have ends : (91 :: literal ++ [93]).head? = some 91 ∧
      (91 :: literal ++ [93]).getLast? = some 93 := ⟨rfl, getLast?_concat⟩
  have inner : (91 :: literal ++ [93]).tail.dropLast = literal := by simp
  unfold URL.hostname URL.splitHostPort
  rcases digits with rfl | ⟨d, rfl, digits⟩
  · obtain ⟨x, y, rfl, free⟩ : ∃ x y, literal = x ++ 58 :: y ∧ 58 ∉ y := by
      obtain ⟨y, x, rev, free⟩ := eq_append_cons_of_mem (mem_reverse.2 colon)
      refine ⟨x.reverse, y.reverse, ?_, by simpa using free⟩
      rw [← reverse_reverse literal, rev]
      simp
    have host : u.host = (91 :: x) ++ 58 :: (y ++ [93]) := by rw [same]; simp
    have noColon : 58 ∉ y ++ [93] := by simpa using free
    have notDigits : ¬ (y ++ [93]).all isDigit := by
      simp [show isDigit 93 = false by decide]
    rw [host, cutLast_append noColon]
    simp only [notDigits, if_false]
    rw [← host, same, if_pos ends, inner]
    exact colon
  · have host : u.host = (91 :: literal ++ [93]) ++ 58 :: d := by rw [same]; simp
    have noColon : 58 ∉ d := fun mem => (digit_host _ (digits _ mem)).2.2.1 rfl
    rw [host, cutLast_append noColon]
    simp only [List.all_eq_true.2 digits, if_true]
    rw [if_pos ends, inner]
    exact colon

end

end ScaleTail.Go
