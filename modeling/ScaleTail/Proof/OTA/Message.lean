import ScaleTail.Proof.OTA.Policy

/-! # What a signature of a policy binds -/

namespace ScaleTail.OTA
open Go Lib

variable {s t : Bytes}

theorem line_free (visible : ∀ c ∈ s, Visible c) : 10 ∉ s :=
  fun mem => absurd (visible 10 mem) (by decide)

theorem line_inj {a b : Bytes} (ha : 10 ∉ a) (hb : 10 ∉ b)
    (same : a ++ (bytes "\n" ++ s) = b ++ (bytes "\n" ++ t)) : a = b ∧ s = t := by
  have cuts : cut (a ++ 10 :: s) 10 = cut (b ++ 10 :: t) 10 := congrArg (cut · 10) same
  rw [cut_append ha, cut_append hb] at cuts
  simpa using cuts

theorem itoa_injective {n k : Nat} (same : itoa n = itoa k) : n = k := by
  rw [← Decimal.value_encode n, ← Decimal.value_encode k]
  exact congrArg Decimal.value same

theorem itoa_free (n : Nat) : 10 ∉ itoa n :=
  line_free fun _ mem => digit_visible (Decimal.encode_digits mem)

theorem formatInt_nonneg {n : Int} (nonneg : 0 ≤ n) : formatInt n = itoa n.natAbs :=
  if_neg (not_lt.2 nonneg)

section
variable [Unicode] [Netip] {p q c d : Policy} {m : Bytes}

theorem Canonicalized.short_iff (h : Canonicalized p c) : c.downloadURL.length ≤ 2048 ↔
    ∀ url, normalizeDownloadURL (trimSpace p.downloadURL) = .ok url → url.length ≤ 2048 := by
  have installer := h.installer
  split_ifs at installer
  · rw [installer.2.2.1, installer.2.2.2]
    exact iff_of_true (Nat.zero_le _) fun _ ok => by cases ok
  · simp [installer.2.2.2]

/-- The limit is on the URL that is normalized, and its canonical form may be longer. -/
theorem canonicalize_fixed_iff (ok : canonicalize p = .ok c) : canonicalize c = .ok c ↔
    ∀ url, normalizeDownloadURL (trimSpace p.downloadURL) = .ok url → url.length ≤ 2048 := by
  have h := canonicalize_ok.1 ok
  rw [← h.short_iff]
  constructor
  · intro again
    exact h.short (canonicalize_ok.1 again)
  · intro short
    exact canonicalize_ok.2 (h.fixed short)

theorem Canonicalized.fileSize_nonneg (h : Canonicalized p c) : 0 ≤ c.fileSize := by
  have installer := h.installer
  split_ifs at installer
  · exact installer.2.1.ge
  · have size := installer.2.2.1
    omega

theorem Canonicalized.action_free (h : Canonicalized p c) : 10 ∉ c.action := by
  rcases h.known with same | same | same
  all_goals
    rw [same]
    decide

theorem Canonicalized.version_free (h : Canonicalized p c) : 10 ∉ c.version := by
  obtain ⟨v, parsed⟩ := h.version_read
  exact line_free (matchVersion_visible (readVersion_some parsed).1)

theorem message_ok : message p = .ok m ↔ ∃ c, canonicalize p = .ok c ∧
    m = bytes "scaletail-update-v3\n" ++ (itoa c.revision ++ (bytes "\n" ++ (c.action ++
      (bytes "\n" ++ (c.version ++ (bytes "\n" ++ (c.platform ++ (bytes "\n" ++ (c.sha256 ++
      (bytes "\n" ++ (formatInt c.fileSize ++ (bytes "\n" ++ (c.downloadURL ++ bytes "\n")))))))))))))
    := by
  cases once : canonicalize p with
  | error => simp [message, once, bind, Except.bind]
  | ok => simp [message, once, bind, Except.bind, eq_comm]

theorem Canonicalized.free (h : Canonicalized p c) : (10 ∉ c.platform ∧ 10 ∉ c.sha256) ∧
    formatInt c.fileSize = itoa c.fileSize.natAbs :=
  ⟨⟨line_free fun b hb => (h.platform_mem b hb).1, line_free fun b hb => (h.sha256_mem b hb).1⟩,
    formatInt_nonneg h.fileSize_nonneg⟩

theorem message_binds (hp : message p = .ok m) (hq : message q = .ok m) :
    ∃ c d, canonicalize p = .ok c ∧ canonicalize q = .ok d ∧ d = { c with signature := d.signature } := by
  obtain ⟨c, ok, rfl⟩ := message_ok.1 hp
  obtain ⟨d, ok', same⟩ := message_ok.1 hq
  have h := canonicalize_ok.1 ok
  have h' := canonicalize_ok.1 ok'
  obtain ⟨⟨platform, sha256⟩, size⟩ := h.free
  obtain ⟨⟨platform', sha256'⟩, size'⟩ := h'.free
  rw [size, size'] at same
  have same := List.append_cancel_left same
  obtain ⟨revisions, same⟩ := line_inj (itoa_free _) (itoa_free _) same
  obtain ⟨actions, same⟩ := line_inj h.action_free h'.action_free same
  obtain ⟨versions, same⟩ := line_inj h.version_free h'.version_free same
  obtain ⟨platforms, same⟩ := line_inj platform platform' same
  obtain ⟨hashes, same⟩ := line_inj sha256 sha256' same
  obtain ⟨sizes, same⟩ := line_inj (itoa_free _) (itoa_free _) same
  have sizes : c.fileSize = d.fileSize := by
    rw [← Int.natAbs_of_nonneg h.fileSize_nonneg, ← Int.natAbs_of_nonneg h'.fileSize_nonneg,
      itoa_injective sizes]
  refine ⟨c, d, ok, ok', ?_⟩
  obtain ⟨revision, action, version, platform, sha256, fileSize, downloadURL, signature⟩ := d
  simp only at revisions actions versions platforms hashes sizes same
  rw [itoa_injective revisions, actions, versions, platforms, hashes, sizes,
    List.append_cancel_right same]

end

namespace Sample

attribute [local instance] Unicode.ascii Netip.none

def quoted : Policy := { forced with downloadURL := bytes "https://a.example/" ++ List.replicate 700 34 }

def escaped : Policy :=
  { forced with
    downloadURL := bytes "https://a.example/" ++ (List.replicate 700 (bytes "%22")).flatten }

theorem quoted_rejected : canonicalize quoted = .ok escaped ∧
    canonicalize escaped = .error (bytes "invalid OTA download URL") := by
  constructor <;> decide +kernel

theorem forced_fixed : canonicalize forced = .ok forced := by
  have once : canonicalize forced = .ok forced := by decide +kernel
  apply (canonicalize_fixed_iff once).2
  rw [← (canonicalize_ok.1 once).short_iff]
  decide +kernel

theorem forced_bound : ∃ c d, canonicalize forced = .ok c ∧
    canonicalize { forced with signature := [] } = .ok d ∧ d = { c with signature := d.signature } := by
  have same : message { forced with signature := [] } = message forced := by decide +kernel
  have succeeds : (message forced).toOption.isSome := by decide +kernel
  cases signed : message forced with
  | error e => simp [signed, Except.toOption] at succeeds
  | ok m => exact message_binds signed (same.trans signed)

end Sample

end ScaleTail.OTA
