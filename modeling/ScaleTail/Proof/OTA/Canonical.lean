import ScaleTail.OTA.Manifest
import ScaleTail.Proof.Go.URL
import ScaleTail.Proof.OTA.Version

/-! # Canonical download URLs and policies -/

namespace ScaleTail.OTA

open Go Lib Percent Option Function Decimal
open List (mem_cons mem_map)

def normalTok : Tok → Tok
  | .lit c => .lit c
  | .esc h l =>
    if isUnreserved (Tok.esc h l).value then .lit (Tok.esc h l).value
    else .esc (upperASCII h) (upperASCII l)

def plainTok : Tok → Bool
  | .lit c => ¬ (c < 0x21 ∨ c > 0x7e ∨ c = 92)
  | .esc _ _ => true

theorem plainTok_visible : ∀ c, plainTok (.lit c) → Visible c := by grind [plainTok]

theorem unreserved_byte : ∀ c, isUnreserved c →
    c ≠ 37 ∧ plainTok (.lit c) ∧ pathTok (.lit c) ∧ c ≠ 35 ∧ c ≠ 63 := by
  decide +kernel

theorem upper_hex : ∀ c, isHex c → isHex (upperASCII c) ∧ unhex (upperASCII c) = unhex c ∧
    upperASCII (upperASCII c) = upperASCII c := by
  grind [isHex, upperASCII, unhex, isLower]

theorem digit_parts : ∀ c, isDigit c → c ≠ 47 ∧ c ≠ 63 ∧ c ≠ 35 := by grind

theorem visible_control : ∀ c, Visible c → ¬ (c < 0x20 ∨ c = 0x7f) := by grind

theorem hex_byte : ∀ c, isHex c → (Visible c ∧ c < 0x80) ∧ c ≠ 35 ∧ c ≠ 63 := by grind

theorem host_byte : ∀ c, isHostByte c → Visible c ∧ (c ≠ 47 ∧ c ≠ 63 ∧ c ≠ 35) ∧
    (c ≠ 64 ∧ c ≠ 91 ∧ c ≠ 58) ∧ (c ≠ 37 ∧ hostTok (.lit c)) ∧ c < 0x80 ∧ ¬ isUpper c := by
  decide +kernel

variable {c : UInt8}

theorem toOption_map {ε α β : Type} (f : α → β) (e : Except ε α) :
    (e.map f).toOption = e.toOption.map f := by
  cases e <;> rfl

theorem toOption_eq_some {ε α : Type} {e : Except ε α} {a : α} : e.toOption = some a ↔ e = .ok a := by
  cases e <;> simp [Except.toOption]

theorem normalizeURLComponent_toOption (s : Bytes) : (normalizeURLComponent s).toOption =
    ((scan s).filter (·.all plainTok)).map fun ts => render (ts.map normalTok) := by
  fun_induction scan s with
  | case1 => rfl
  | case2 h l s hex ih =>
    have plain : ¬ ((37 : UInt8) < 0x21 ∨ (37 : UInt8) > 0x7e ∨ (37 : UInt8) = 92) := by decide
    rw [normalizeURLComponent, if_neg plain, if_neg (fun h => h rfl)]
    simp only [hex, not_true_eq_false, if_false]
    rw [filter_map_cons, if_pos (show plainTok (.esc h l) from rfl)]
    split
    next free => simp [toOption_map, ih, comp_def, normalTok, free, Tok.bytes]
    next no => simp [toOption_map, ih, comp_def, normalTok, no, Tok.bytes]
  | case3 _ _ _ hex => simp [normalizeURLComponent, hex, Except.toOption]
  | case4 =>
    have plain : ¬ ((37 : UInt8) < 0x21 ∨ (37 : UInt8) > 0x7e ∨ (37 : UInt8) = 92) := by decide
    rw [normalizeURLComponent.eq_def]
    simp only [if_neg plain, ne_eq, not_true_eq_false, if_false]
    rfl
  | case5 c s ne ih =>
    rw [normalizeURLComponent.eq_def]
    simp only [ne_eq, ne, not_false_eq_true, if_true]
    split
    next bad =>
      have not : plainTok (.lit c) = false := by simp only [plainTok, bad, not_true, decide_false]
      simp [filter_map_cons, not, Except.toOption]
    next good =>
      have plain : plainTok (.lit c) := by simp only [plainTok, good, not_false_eq_true, decide_true]
      simp [filter_map_cons, plain, toOption_map, ih, comp_def, normalTok, Tok.bytes]

theorem normalizeURLComponent_ok {s r : Bytes} : normalizeURLComponent s = .ok r ↔
    ∃ ts, scan s = some ts ∧ ts.all plainTok ∧ render (ts.map normalTok) = r := by
  rw [← toOption_eq_some, normalizeURLComponent_toOption, map_eq_some_iff]
  simp only [filter_eq_some_iff, and_assoc]

theorem normalTok_cases (h l : UInt8) :
    isUnreserved (Tok.esc h l).value ∧ normalTok (.esc h l) = .lit (Tok.esc h l).value ∨
      ¬ isUnreserved (Tok.esc h l).value ∧
        normalTok (.esc h l) = .esc (upperASCII h) (upperASCII l) := by
  rw [normalTok]
  split
  next free => exact .inl ⟨free, rfl⟩
  next no => exact .inr ⟨no, rfl⟩

section
variable {t : Tok}

theorem normalTok_value (proper : t.Proper) : (normalTok t).value = t.value := by
  cases t with
  | lit => rfl
  | esc h l =>
    rcases normalTok_cases h l with ⟨-, same⟩ | ⟨-, same⟩
    · rw [same, Tok.value]
    · rw [same, Tok.value, Tok.value, (upper_hex h proper.1).2.1, (upper_hex l proper.2).2.1]

theorem normalTok_proper (proper : t.Proper) : (normalTok t).Proper := by
  cases t with
  | lit => exact proper
  | esc h l =>
    rcases normalTok_cases h l with ⟨free, same⟩ | ⟨-, same⟩
    · rw [same]
      exact (unreserved_byte _ free).1
    · rw [same]
      exact ⟨(upper_hex h proper.1).1, (upper_hex l proper.2).1⟩

theorem normalTok_normalTok (proper : t.Proper) : normalTok (normalTok t) = normalTok t := by
  cases t with
  | lit => rfl
  | esc h l =>
    rcases normalTok_cases h l with ⟨-, same⟩ | ⟨no, same⟩
    · rw [same, normalTok]
    have value := normalTok_value proper
    rw [same] at value ⊢
    rw [normalTok, value, if_neg no, (upper_hex h proper.1).2.2, (upper_hex l proper.2).2.2]

theorem normalTok_keeps {p : Tok → Bool} (free : ∀ c, isUnreserved c → p (.lit c))
    (escaped : ∀ h l, p (.esc h l)) (ht : p t) : p (normalTok t) := by
  cases t with
  | lit => exact ht
  | esc h l =>
    rcases normalTok_cases h l with ⟨here, same⟩ | ⟨-, same⟩
    · rw [same]
      exact free _ here
    · rw [same]
      exact escaped _ _

theorem plainTok_normalTok : plainTok t → plainTok (normalTok t) :=
  normalTok_keeps (fun c free => (unreserved_byte c free).2.1) fun _ _ => rfl

theorem pathTok_plain : ∀ t, pathTok t → plainTok t ∧ t ≠ .lit 35 ∧ t ≠ .lit 63 := by
  have bytes : ∀ c, pathTok (.lit c) → plainTok (.lit c) ∧ c ≠ 35 ∧ c ≠ 63 := by decide +kernel
  intro t stands
  cases t with
  | lit c => simpa using bytes c stands
  | esc => exact ⟨rfl, Tok.noConfusion, Tok.noConfusion⟩

theorem pathToks_path (ts : List Tok) : ∀ t ∈ pathToks ts, pathTok t := by
  unfold pathToks
  split
  next all => exact List.all_eq_true.1 all
  · intro t ht
    obtain ⟨u, -, rfl⟩ := mem_map.1 ht
    exact pathTok_escapeTok u.value

theorem pathToks_proper {ts : List Tok} (proper : ∀ t ∈ ts, t.Proper) :
    ∀ t ∈ pathToks ts, t.Proper := by
  unfold pathToks
  split
  · exact proper
  intro t ht
  obtain ⟨u, -, rfl⟩ := mem_map.1 ht
  exact escapeTok_proper u.value

end

def canonicalPath (ts : List Tok) : List Tok := (pathToks ts).map normalTok

section
variable {ts : List Tok}

theorem mem_map_normalTok {t : Tok} (mem : t ∈ ts.map normalTok) (proper : ∀ t ∈ ts, t.Proper) :
    t.Proper ∧ normalTok t = t := by
  obtain ⟨u, hu, rfl⟩ := mem_map.1 mem
  exact ⟨normalTok_proper (proper u hu), normalTok_normalTok (proper u hu)⟩

theorem map_normalTok_map (proper : ∀ t ∈ ts, t.Proper) :
    (ts.map normalTok).map normalTok = ts.map normalTok := by
  conv_rhs => rw [← List.map_id (ts.map normalTok)]
  exact List.map_congr_left fun t ht => (mem_map_normalTok ht proper).2

theorem canonicalPath_path (ts : List Tok) : ∀ t ∈ canonicalPath ts, pathTok t := by
  intro t ht
  obtain ⟨u, hu, rfl⟩ := mem_map.1 ht
  exact normalTok_keeps (fun c free => (unreserved_byte c free).2.2.1) (fun _ _ => rfl)
    (pathToks_path ts u hu)

theorem canonicalPath_canonicalPath (proper : ∀ t ∈ ts, t.Proper) :
    canonicalPath (canonicalPath ts) = canonicalPath ts := by
  have all : (canonicalPath ts).all pathTok := List.all_eq_true.2 (canonicalPath_path ts)
  rw [canonicalPath, pathToks, if_pos all]
  exact map_normalTok_map (pathToks_proper proper)

end

structure Download where
  parts : Parts
  host : Bytes
  port : Option Bytes
  name : Bytes
  canonicalPort : Bytes
  path : List Tok
  query : List Tok

theorem normalizeURLComponent_path {ts : List Tok} (proper : ∀ t ∈ ts, t.Proper) :
    normalizeURLComponent (render (pathToks ts)) = .ok (render (canonicalPath ts)) := by
  refine normalizeURLComponent_ok.2 ⟨pathToks ts, scan_eq_some.2 ⟨rfl, pathToks_proper proper⟩, ?_, rfl⟩
  exact List.all_eq_true.2 fun t ht => (pathTok_plain t (pathToks_path ts t ht)).1

def present (s : Bytes) : Option Bytes := if s = [] then none else some s

theorem present_getD (s : Bytes) : (present s).getD [] = s := by
  by_cases empty : s = [] <;> simp [present, empty]

theorem present_digits {port : Bytes} (digits : ∀ c ∈ port, isDigit c) :
    ∀ s ∈ present port, ∀ c ∈ s, isDigit c := by
  intro s hs
  unfold present at hs
  split_ifs at hs
  · cases hs
  · obtain rfl := some.inj hs
    exact digits

theorem after_present (c : UInt8) (s : Bytes) : after c (present s) = if s ≠ [] then c :: s else [] := by
  by_cases empty : s = [] <;> simp [present, after, empty]

theorem unescape_plain {s : Bytes} (plain : ∀ c ∈ s, c ≠ 37 ∧ hostTok (.lit c)) :
    unescape .host s = some s := by
  have all : (s.map Tok.lit).all hostTok := by
    rw [List.all_map, List.all_eq_true]
    exact fun c hc => (plain c hc).2
  rw [unescape_host, scan_of_forall fun c hc => (plain c hc).1, filter_some, if_pos all,
    map_some, List.map_map]
  exact congrArg some (List.map_id' s)

theorem normalizePort_fixed {port out : Bytes} (ok : normalizePort port = some out) :
    normalizePort out = some out ∧ ∀ c ∈ out, isDigit c := by
  unfold normalizePort at ok
  split_ifs at ok
  · obtain rfl := some.inj ok
    exact ⟨rfl, by simp⟩
  split at ok
  · cases ok
  next n read =>
    split_ifs at ok with range default
    · obtain rfl := some.inj ok
      exact ⟨rfl, by simp⟩
    · obtain rfl := some.inj ok
      have small := (atoi_eq_some.1 read).2.2
      refine ⟨?_, fun c => encode_digits⟩
      rw [normalizePort, if_neg (show itoa n ≠ [] from encode_ne_nil n), atoi_itoa small]
      dsimp only
      rw [if_neg range, if_neg default]

section
theorem canonicalVersion_letter {value version : Bytes} (read : canonicalVersion value = some version) :
    version = 118 :: trimPrefix version (bytes "v") := by
  rw [canonicalVersion_eq] at read
  split_ifs at read
  obtain rfl := some.inj read
  rw [show bytes "v" = [118] from rfl, trimPrefix_one, if_pos rfl]

variable [Unicode] [Netip]

structure Download.Accepted (d : Download) : Prop where
  proper : d.parts.Proper
  short : d.parts.text.length ≤ 2048
  authority : d.parts.authority = d.host ++ after 58 d.port
  plain : PlainHost d.host d.port
  name : unescape .host d.host = some d.name
  valid : validOTAHost (toLower d.name)
  port : normalizePort (d.port.getD []) = some d.canonicalPort
  path : scan d.parts.path = some d.path
  query : scan (d.parts.query.getD []) = some d.query
  queryPlain : d.query.all plainTok

omit [Netip] in
def Download.canonical (d : Download) : Bytes :=
  canonicalURL (toLower d.name) d.canonicalPort (render (canonicalPath d.path))
    (render (d.query.map normalTok))

omit [Unicode] in
theorem validOTAHost_iff {host : Bytes} : validOTAHost host ↔
    ¬ (host = [] ∨ host.getLast? = some 46 ∨ host = bytes "localhost" ∨
        (bytes ".localhost").isSuffixOf host) ∧
      ¬ ((parseAddr host).isSome ∨ numericHostLiteral host) ∧
      (∀ c ∈ host, isHostByte c) ∧ ∀ label ∈ host.splitOn 46, isHostLabel label := by
  unfold validOTAHost
  rw [decide_eq_true_eq, List.all_eq_true, List.all_eq_true]

theorem validOTAHost_ne_nil {name : Bytes} (valid : validOTAHost (toLower name)) : name ≠ [] := by
  rintro rfl
  exact (validOTAHost_iff.1 valid).1 (.inl rfl)

theorem Download.Accepted.normalize {d : Download} (h : d.Accepted) {raw : Bytes}
    (text : d.parts.text = trimSpace raw) : normalizeDownloadURL raw = .ok d.canonical := by
  obtain ⟨u, set⟩ := exists_setPath
    { d.parts.start with user := none, host := d.name ++ after 58 d.port } h.path
  have parsed : URL.parse (trimSpace raw) = some u := by
    rw [← text, h.proper.parse, h.authority, h.plain.parse, h.name]
    exact set
  have fields := setPath_eq set
  have host : u.host = d.name ++ after 58 d.port := by rw [fields]
  obtain ⟨hostname, port⟩ := h.plain.split h.name host
  obtain ⟨ts, read, escaped⟩ := escapedPath_setPath set h.proper.path.1
  obtain rfl : d.path = ts := some.inj (h.path.symm.trans read)
  have path : normalizeURLComponent u.escapedPath = .ok (render (canonicalPath d.path)) := by
    rw [escaped, normalizeURLComponent_path (scan_eq_some.1 h.path).2]
  have query : normalizeURLComponent u.rawQuery = .ok (render (d.query.map normalTok)) := by
    rw [fields]
    exact normalizeURLComponent_ok.2 ⟨d.query, h.query, h.queryPlain, rfl⟩
  have nonempty : d.parts.text ≠ [] := by simp [Parts.text, Parts.beforeHash]
  have usable : ¬ (u.scheme = [] ∨ u.host = [] ∨ u.opaq ≠ [] ∨ u.user ≠ none ∨ u.fragment ≠ [] ∨
      u.forceQuery) := by
    have name : d.name ≠ [] := validOTAHost_ne_nil h.valid
    rw [host, fields]
    simp [Parts.start, URL.empty, name, show bytes "https" ≠ [] by decide]
  have https : equalFold u.scheme (bytes "https") := by
    rw [fields]
    exact rfl
  unfold normalizeDownloadURL
  rw [← text, if_neg (not_or.2 ⟨nonempty, not_lt.2 h.short⟩), text, parsed]
  dsimp only
  rw [if_neg usable, if_neg (not_not.2 https), hostname, if_neg (not_not.2 h.valid), port, h.port]
  rw [path, query]
  rfl

theorem normalizeDownloadURL_parts {raw c : Bytes} (ok : normalizeDownloadURL raw = .ok c) :
    ∃ d : Download, d.Accepted ∧ d.parts.text = trimSpace raw ∧ d.canonical = c := by
  unfold normalizeDownloadURL at ok
  dsimp only at ok
  split_ifs at ok with long
  split at ok
  · cases ok
  next u parsed =>
    split_ifs at ok with unusable https valid
    split at ok
    · cases ok
    next portOut port =>
      simp only [not_or, not_not] at unusable https valid
      obtain ⟨-, host, -, user, fragment, forced⟩ := unusable
      have scheme : u.scheme.map lowerASCII = bytes "https" := by
        have same : u.scheme.map lowerASCII = (bytes "https").map lowerASCII := of_decide_eq_true https
        rw [same]
        rfl
      obtain ⟨p, proper, text⟩ := exists_parts parsed scheme host fragment forced
      rw [← text, proper.parse] at parsed
      obtain ⟨⟨user', name⟩, authority, set⟩ := bind_eq_some_iff.1 parsed
      have fields := setPath_eq set
      obtain rfl : user' = none := by
        rw [fields] at user
        exact user
      have hostname : u.host = name := by rw [fields]
      have query : u.rawQuery = p.query.getD [] := by rw [fields]; rfl
      obtain ⟨ts, read, escaped⟩ := escapedPath_setPath set proper.path.1
      rcases authority_cases authority with ⟨h, port', same, plain⟩ | ⟨literal, rest, same, colon, digits⟩
      · rw [same, plain.parse] at authority
        obtain ⟨n, unescaped, pair⟩ := map_eq_some_iff.1 authority
        obtain rfl := (Prod.mk.inj pair).2
        obtain ⟨nameOf, portOf⟩ := plain.split unescaped hostname
        rw [escaped, normalizeURLComponent_path (scan_eq_some.1 read).2, nameOf, query] at ok
        rw [nameOf] at valid
        rw [portOf] at port
        cases component : normalizeURLComponent (p.query.getD []) with
        | error => simp [component, bind, Except.bind] at ok
        | ok =>
          obtain ⟨us, scanned, all, rfl⟩ := normalizeURLComponent_ok.1 component
          simp only [component, bind, Except.bind, Except.ok.injEq] at ok
          refine ⟨⟨p, h, port', n, portOut, ts, us⟩, ?_, text, ok⟩
          exact
            { proper, authority := same, plain, name := unescaped, path := read, query := scanned
              queryPlain := all, port
              short := by rw [text]; exact not_lt.1 fun l => long (.inr l)
              valid }
      · -- The name of an IP literal is no valid host.
        have mem : (58 : UInt8) ∈ toLower u.hostname :=
          lowerASCII_mem_toLower (colon_in_hostname colon digits (hostname.trans same)) (by decide)
        have bad := (validOTAHost_iff.1 valid).2.2.1 58 mem
        exact absurd bad (by decide)

def Download.fixed (d : Download) : Download where
  parts :=
    { scheme := bytes "https"
      authority := toLower d.name ++ after 58 (present d.canonicalPort)
      path := if render (canonicalPath d.path) = [] then bytes "/" else render (canonicalPath d.path)
      query := present (render (d.query.map normalTok))
      hash := false }
  host := toLower d.name
  port := present d.canonicalPort
  name := toLower d.name
  canonicalPort := d.canonicalPort
  path := if canonicalPath d.path = [] then [.lit 47] else canonicalPath d.path
  query := d.query.map normalTok

omit [Netip] in
theorem Download.fixed_text (d : Download) : d.fixed.parts.text = d.canonical := by
  have https : bytes "https://" = bytes "https" ++ [58, 47, 47] := by decide
  simp [Download.fixed, Download.canonical, canonicalURL, Parts.text, Parts.beforeHash,
    Parts.hierarchy, after_present, https]

section
variable {d : Download}

section
variable (h : d.Accepted)
include h

theorem Download.Accepted.host_mem (mem : c ∈ toLower d.name) :
    isHostByte c :=
  (validOTAHost_iff.1 h.valid).2.2.1 c mem

theorem Download.Accepted.path_mem
    (mem : c ∈ render (canonicalPath d.path)) : Visible c ∧ c ≠ 63 ∧ c ≠ 35 := by
  have proper : ∀ t ∈ canonicalPath d.path, t.Proper := fun t ht =>
    (mem_map_normalTok ht (pathToks_proper (scan_eq_some.1 h.path).2)).1
  rcases mem_render proper mem with lit | rfl | hex
  · obtain ⟨plain, hash, question⟩ := pathTok_plain _ (canonicalPath_path d.path _ lit)
    exact ⟨plainTok_visible c plain, fun same => question (same ▸ rfl), fun same => hash (same ▸ rfl)⟩
  · decide
  · obtain ⟨visible, hash, question⟩ := hex_byte c hex
    exact ⟨visible.1, question, hash⟩

theorem Download.Accepted.query_mem
    (mem : c ∈ render (d.query.map normalTok)) : Visible c ∧ c ≠ 35 := by
  have proper := (scan_eq_some.1 h.query).2
  have proper' : ∀ t ∈ d.query.map normalTok, t.Proper := fun t ht => (mem_map_normalTok ht proper).1
  rcases mem_render proper' mem with lit | rfl | hex
  · obtain ⟨t, ht, same⟩ := mem_map.1 lit
    have plain := List.all_eq_true.1 h.queryPlain t ht
    refine ⟨plainTok_visible c (same ▸ plainTok_normalTok plain), ?_⟩
    rintro rfl
    cases t with
    | lit c =>
      obtain rfl : c = 35 := by simpa [normalTok] using same
      have mem : (35 : UInt8) ∈ d.parts.query.getD [] := by
        rw [← (scan_eq_some.1 h.query).1]
        exact List.mem_flatMap.2 ⟨_, ht, List.mem_cons_self⟩
      cases query : d.parts.query with
      | none => simp [query] at mem
      | some q =>
        rw [query] at mem
        exact (h.proper.query q query).2 mem
    | esc h l =>
      rcases normalTok_cases h l with ⟨free, same'⟩ | ⟨-, same'⟩
      · rw [same'] at same
        have value := Tok.lit.inj same
        rw [value] at free
        exact absurd free (by decide)
      · rw [same'] at same
        cases same
  · decide
  · exact ⟨(hex_byte c hex).1.1, (hex_byte c hex).2.1⟩

theorem Download.Accepted.path_head :
    d.path = [] ∨ ∃ ts, canonicalPath d.path = .lit 47 :: ts := by
  have slash : escapeTok .path (Tok.lit 47).value = .lit 47 := by decide
  have read := h.path
  rcases h.proper.path.1 with none | head
  · rw [none] at read
    exact .inl (some.inj read).symm
  cases path : d.parts.path with
  | nil =>
    rw [path] at read
    exact .inl (some.inj read).symm
  | cons c =>
    rw [path] at read head
    obtain rfl : c = 47 := by simpa using head
    rw [scan_cons (by decide)] at read
    obtain ⟨ts, -, same⟩ := map_eq_some_iff.1 read
    refine .inr ?_
    rw [← same, canonicalPath, pathToks]
    split
    · exact ⟨_, rfl⟩
    · exact ⟨_, rfl⟩

theorem Download.Accepted.text_mem (mem : c ∈ d.canonical) : Visible c := by
  have scheme : (bytes "https://").all (Visible ·) := by decide
  have port := (normalizePort_fixed h.port).2
  simp only [Download.canonical, canonicalURL, List.mem_append] at mem
  rcases mem with (((mem | mem) | mem) | mem) | mem
  · exact of_decide_eq_true (List.all_eq_true.1 scheme c mem)
  · exact (host_byte c (h.host_mem mem)).1
  · split_ifs at mem
    · rcases mem_cons.1 mem with rfl | mem
      · decide
      · exact digit_visible (port c mem)
    · cases mem
  · split_ifs at mem
    · obtain rfl : c = 47 := List.mem_singleton.1 mem
      decide
    · exact (h.path_mem mem).1
  · split_ifs at mem
    · rcases mem_cons.1 mem with rfl | mem
      · decide
      · exact (h.query_mem mem).1
    · cases mem

theorem Download.Accepted.lower : toLower (toLower d.name) = toLower d.name :=
  toLower_lower fun c hc => (host_byte c (h.host_mem hc)).2.2.2.2

theorem Download.Accepted.fixed_proper : d.fixed.parts.Proper where
  scheme := rfl
  authority := by
    intro c hc
    rcases List.mem_append.1 hc with mem | mem
    · exact (host_byte c (h.host_mem mem)).2.1
    rw [after_present] at mem
    split_ifs at mem
    · rcases mem_cons.1 mem with rfl | mem
      · decide
      · exact digit_parts c ((normalizePort_fixed h.port).2 c mem)
    · cases mem
  path := by
    dsimp only [Download.fixed]
    split_ifs with empty
    · refine ⟨.inr rfl, fun c hc => ?_⟩
      obtain rfl : c = 47 := List.mem_singleton.1 hc
      decide
    · refine ⟨.inr ?_, fun c hc => (h.path_mem hc).2⟩
      rcases h.path_head with none | ⟨ts, same⟩
      · rw [none] at empty
        exact absurd rfl empty
      · rw [same]
        rfl
  query := by
    intro q hq
    dsimp only [Download.fixed, present] at hq
    split_ifs at hq with empty
    · cases hq
    · obtain rfl := some.inj hq
      exact ⟨empty, fun mem => (h.query_mem mem).2 rfl⟩
  control := by
    intro c hc
    have mem : c ∈ d.canonical := by
      rw [← d.fixed_text]
      exact List.mem_append_left _ hc
    exact visible_control c (h.text_mem mem)

theorem Download.Accepted.fixed (short : d.canonical.length ≤ 2048) :
    d.fixed.Accepted where
  proper := h.fixed_proper
  short := by
    rw [d.fixed_text]
    exact short
  authority := rfl
  plain := by
    refine ⟨fun c hc => (host_byte c (h.host_mem hc)).2.2.1, ?_⟩
    exact present_digits (normalizePort_fixed h.port).2
  name := unescape_plain fun c hc => (host_byte c (h.host_mem hc)).2.2.2.1
  valid := by
    dsimp only [Download.fixed]
    rw [h.lower]
    exact h.valid
  port := by
    dsimp only [Download.fixed]
    rw [present_getD]
    exact (normalizePort_fixed h.port).1
  path := by
    dsimp only [Download.fixed]
    simp only [render_eq_nil]
    split_ifs
    · rfl
    · refine scan_eq_some.2 ⟨rfl, fun t ht => ?_⟩
      exact (mem_map_normalTok ht (pathToks_proper (scan_eq_some.1 h.path).2)).1
  query := by
    dsimp only [Download.fixed]
    rw [present_getD]
    refine scan_eq_some.2 ⟨rfl, fun t ht => ?_⟩
    exact (mem_map_normalTok ht (scan_eq_some.1 h.query).2).1
  queryPlain := by
    rw [List.all_eq_true]
    intro t ht
    obtain ⟨u, hu, rfl⟩ := mem_map.1 ht
    exact plainTok_normalTok (List.all_eq_true.1 h.queryPlain u hu)

theorem Download.Accepted.fixed_canonical : d.fixed.canonical = d.canonical := by
  have query : (d.query.map normalTok).map normalTok = d.query.map normalTok :=
    map_normalTok_map (scan_eq_some.1 h.query).2
  dsimp only [Download.canonical, Download.fixed]
  rw [h.lower, query]
  split_ifs with empty
  · rw [empty]
    rfl
  · rw [canonicalPath_canonicalPath (scan_eq_some.1 h.path).2]

end

end

theorem normalizeDownloadURL_fixed {raw c : Bytes} (ok : normalizeDownloadURL raw = .ok c)
    (short : c.length ≤ 2048) : normalizeDownloadURL c = .ok c := by
  obtain ⟨d, accepted, -, rfl⟩ := normalizeDownloadURL_parts ok
  have visible : trimSpace d.canonical = d.canonical := trimSpace_eq fun c hc => accepted.text_mem hc
  rw [(accepted.fixed short).normalize (d.fixed_text.trans visible.symm), accepted.fixed_canonical]

structure Canonicalized (policy canonical : Policy) : Prop where
  revision : canonical.revision = policy.revision
  range : ¬ (canonical.revision = 0 ∨ canonical.revision > maxPolicyRevision)
  action : canonical.action = toLower (trimSpace policy.action)
  known : canonical.action = actionSuggested ∨ canonical.action = actionForced ∨
    canonical.action = actionClear
  version : canonicalVersion (trimSpace policy.version) = some (118 :: canonical.version)
  platform : canonical.platform = toLower (trimSpace policy.platform)
  validPlatform : validPlatform canonical.platform
  sha256 : canonical.sha256 = toLower (trimSpace policy.sha256)
  fileSize : canonical.fileSize = policy.fileSize
  signature : canonical.signature = trimSpace policy.signature
  installer :
    if canonical.action = actionClear then
      canonical.sha256 = [] ∧ canonical.fileSize = 0 ∧ trimSpace policy.downloadURL = [] ∧
        canonical.downloadURL = []
    else
      canonical.sha256.length = 64 ∧ isHexString canonical.sha256 ∧
        ¬ (canonical.fileSize ≤ 0 ∨ canonical.fileSize > maxPolicyArtifactSize) ∧
        normalizeDownloadURL (trimSpace policy.downloadURL) = .ok canonical.downloadURL

variable {p c : Policy}

theorem canonicalize_ok : canonicalize p = .ok c ↔ Canonicalized p c := by
  unfold canonicalize
  dsimp only
  constructor
  · intro ok
    cases read : canonicalVersion (trimSpace p.version) with
    | none =>
      simp only [read] at ok
      split_ifs at ok
    | some =>
      simp only [read] at ok
      rw [canonicalVersion_letter read] at read
      split_ifs at ok with range known platform clear installer short hex size
      all_goals simp only [not_and_or, not_not] at known platform
      · obtain rfl := Except.ok.inj ok
        simp only [not_or, not_not] at installer
        refine ⟨rfl, range, rfl, known, read, rfl, platform, rfl, rfl, rfl, ?_⟩
        rw [if_pos clear]
        exact ⟨installer.1, installer.2.1, installer.2.2, installer.2.2⟩
      · cases url : normalizeDownloadURL (trimSpace p.downloadURL) with
        | error => simp [url, bind, Except.bind] at ok
        | ok =>
          simp only [url, bind, Except.bind, Except.ok.injEq] at ok
          subst ok
          refine ⟨rfl, range, rfl, known, read, rfl, platform, rfl, rfl, rfl, ?_⟩
          rw [if_neg clear]
          exact ⟨not_not.1 short, hex, size, url⟩
  · rintro ⟨revision, range, action, known, version, platform, valid, sha256, fileSize, signature,
      installer⟩
    have acts : ¬ (c.action ≠ actionSuggested ∧ c.action ≠ actionForced ∧ c.action ≠ actionClear) :=
      fun no => known.elim no.1 fun rest => rest.elim no.2.1 no.2.2
    have letter : trimPrefix (118 :: c.version) (bytes "v") = c.version := by
      rw [show bytes "v" = [118] from rfl, trimPrefix_one, if_pos rfl]
    rw [← revision, ← action, ← platform, ← sha256, ← fileSize, ← signature, version, if_neg range,
      if_neg acts]
    dsimp only
    rw [letter, if_neg (not_not.2 valid)]
    by_cases clear : c.action = actionClear
    · rw [if_pos clear] at installer ⊢
      obtain ⟨noHash, noSize, empty, noURL⟩ := installer
      rw [if_neg]
      · rw [empty, ← noURL]
      · simp [noHash, noSize, empty]
    · rw [if_neg clear] at installer ⊢
      obtain ⟨length, hex, size, url⟩ := installer
      rw [if_neg (not_not.2 length), if_neg (not_not.2 hex), if_neg size, url]
      rfl

omit [Netip] in
theorem toLower_action {action : Bytes} (known : action = actionSuggested ∨ action = actionForced ∨
    action = actionClear) : toLower (trimSpace action) = action := by
  have all : ∀ s : Bytes, s.all (fun c => Visible c ∧ c < 0x80 ∧ ¬ isUpper c) →
      toLower (trimSpace s) = s := by
    intro s good
    have each := List.all_eq_true.1 good
    rw [trimSpace_eq fun c hc => (of_decide_eq_true (each c hc)).1,
      toLower_lower fun c hc => (of_decide_eq_true (each c hc)).2]
  rcases known with rfl | rfl | rfl
  · exact all _ (by decide)
  · exact all _ (by decide)
  · exact all _ (by decide)

section
variable {p c : Policy} (h : Canonicalized p c)
include h

theorem Canonicalized.version_read : ∃ v, readVersion c.version = some v := by
  have read := h.version
  rw [canonicalVersion_eq] at read
  split_ifs at read with good
  obtain ⟨v, parsed⟩ := isSome_iff_exists.1 good
  have same : dropV (trimSpace (trimSpace p.version)) = c.version :=
    (List.cons.inj (some.inj read)).2
  exact ⟨v, same ▸ parsed⟩

theorem Canonicalized.platform_mem : ∀ d ∈ c.platform, Visible d ∧ d < 0x80 ∧ ¬ isUpper d := by
  have valid := of_decide_eq_true h.validPlatform
  have bytes : ∀ c, isLower c || isDigit c || c = 45 → Visible c ∧ c < 0x80 ∧ ¬ isUpper c := by
    grind
  exact fun d hd => bytes d (List.all_eq_true.1 valid.2.2 d hd)

theorem Canonicalized.sha256_mem : ∀ d ∈ c.sha256, Visible d ∧ d < 0x80 := by
  have installer := h.installer
  split_ifs at installer
  · rw [installer.1]
    exact fun d hd => absurd hd List.not_mem_nil
  · have hex := (of_decide_eq_true installer.2.1).2
    exact fun d hd => (hex_byte d (List.all_eq_true.1 hex d hd)).1

theorem Canonicalized.fixed (short : c.downloadURL.length ≤ 2048) : Canonicalized c c where
  revision := rfl
  range := h.range
  action := (toLower_action h.known).symm
  known := h.known
  version := by
    obtain ⟨v, parsed⟩ := h.version_read
    obtain ⟨matched, -⟩ := readVersion_some parsed
    have trimmed : trimSpace c.version = c.version := trimSpace_eq (matchVersion_visible matched)
    have whole := dropV_version matched
    rw [canonicalVersion_eq, trimmed, trimmed, if_pos, whole]
    rw [IsVersion, whole, parsed]
    rfl
  platform := by
    rw [trimSpace_eq fun d hd => (h.platform_mem d hd).1,
      toLower_lower fun d hd => (h.platform_mem d hd).2]
  validPlatform := h.validPlatform
  sha256 := by
    have capital : ∀ d ∈ c.sha256, ¬ isUpper d := by
      rw [h.sha256]
      exact fun d hd => toLower_capital hd
    rw [trimSpace_eq fun d hd => (h.sha256_mem d hd).1,
      toLower_lower fun d hd => ⟨(h.sha256_mem d hd).2, capital d hd⟩]
  fileSize := rfl
  signature := by rw [h.signature, trimSpace_trimSpace]
  installer := by
    have installer := h.installer
    split_ifs at installer ⊢
    · obtain ⟨noHash, noSize, -, noURL⟩ := installer
      exact ⟨noHash, noSize, by rw [noURL]; rfl, noURL⟩
    · obtain ⟨length, hex, size, url⟩ := installer
      obtain ⟨d, accepted, -, same⟩ := normalizeDownloadURL_parts url
      refine ⟨length, hex, size, ?_⟩
      rw [trimSpace_eq fun b hb => accepted.text_mem (same.symm ▸ hb)]
      exact normalizeDownloadURL_fixed url short

theorem Canonicalized.short {c' : Policy} (h' : Canonicalized c c') :
    c.downloadURL.length ≤ 2048 := by
  have installer := h.installer
  have installer' := h'.installer
  rw [h'.action, toLower_action h.known] at installer'
  split_ifs at installer installer'
  · simp [installer.2.2.2]
  obtain ⟨d, accepted, -, same⟩ := normalizeDownloadURL_parts installer.2.2.2
  obtain ⟨d', accepted', text, -⟩ := normalizeDownloadURL_parts installer'.2.2.2
  have trimmed : trimSpace c.downloadURL = c.downloadURL :=
    trimSpace_eq fun b hb => accepted.text_mem (same.symm ▸ hb)
  have short := accepted'.short
  rwa [text, trimmed, trimmed] at short

end

theorem canonicalize_again {p c c' : Policy} (once : canonicalize p = .ok c)
    (again : canonicalize c = .ok c') : c' = c := by
  have h := canonicalize_ok.1 once
  have same := canonicalize_ok.2 (h.fixed (h.short (canonicalize_ok.1 again)))
  rw [again] at same
  exact Except.ok.inj same

variable [Signing]

def Authentic (c : Policy) : Prop :=
  ∃ key, Signing.base64Decode publicKeyBase64 = some key ∧ key.length = 32 ∧
    ∃ signature, parseSignature c.signature = .ok signature ∧
      ∃ text, message c = .ok text ∧ Signing.verify key text signature

theorem verify_ok : verify p = .ok c ↔ canonicalize p = .ok c ∧ Authentic c := by
  unfold verify Authentic
  constructor
  · intro ok
    cases once : canonicalize p with
    | error => simp [once, bind, Except.bind] at ok
    | ok d =>
      simp only [once, bind, Except.bind] at ok
      split at ok
      · cases ok
      next key decoded =>
        split_ifs at ok with length
        cases signature : parseSignature d.signature with
        | error => simp [signature] at ok
        | ok sig =>
          cases text : message d with
          | error => simp [signature, text] at ok
          | ok msg =>
            simp only [signature, text] at ok
            split_ifs at ok with good
            obtain rfl := Except.ok.inj ok
            exact ⟨rfl, key, decoded, not_not.1 length, sig, signature, msg, text, good⟩
  · rintro ⟨once, key, decoded, length, sig, signature, msg, text, good⟩
    simp only [once, bind, Except.bind, decoded, length, ne_eq, not_true_eq_false, if_false,
      signature, text, good]

theorem verify_verified (ok : verify p = .ok c) : verify c = .ok c := by
  obtain ⟨once, authentic⟩ := verify_ok.1 ok
  obtain ⟨-, -, -, -, -, text, signed, -⟩ := id authentic
  cases again : canonicalize c with
  | error => simp [message, again, bind, Except.bind] at signed
  | ok =>
    obtain rfl := canonicalize_again once again
    exact verify_ok.2 ⟨again, authentic⟩

end

end ScaleTail.OTA
