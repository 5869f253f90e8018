import Mathlib

/-! # Text as lists -/

namespace ScaleTail.Lib
open List

namespace Trim

variable {α : Type} [DecidableEq α] {ws ws' : List (List α)} {s : List α}

def dropWords (ws : List (List α)) : Nat → List α → List α
  | 0, s => s
  | n + 1, s =>
    match ws.find? (·.isPrefixOf s) with
    | some w => dropWords ws n (s.drop w.length)
    | none => s

def front (ws : List (List α)) (s : List α) : List α := dropWords ws s.length s

def back (ws : List (List α)) (s : List α) : List α :=
  (front (ws.map List.reverse) s.reverse).reverse

def both (ws : List (List α)) (s : List α) : List α := back ws (front ws s)

theorem find_none : ws.find? (·.isPrefixOf s) = none ↔ ∀ w ∈ ws, ¬ w <+: s := by
  simp [find?_eq_none]

theorem dropWords_final (ws : List (List α)) (n : Nat) (s : List α) : dropWords ws n s <:+ s := by
  induction n generalizing s with
  | zero => exact suffix_rfl
  | succ _ ih =>
    rw [dropWords]
    split
    · exact (ih _).trans (drop_suffix _ _)
    · exact suffix_rfl

theorem dropWords_done (nonempty : [] ∉ ws) (n : Nat) (s : List α) (enough : s.length ≤ n) :
    ∀ w ∈ ws, ¬ w <+: dropWords ws n s := by
  induction n generalizing s with
  | zero =>
    intro w mem fits
    obtain rfl : s = [] := length_eq_zero_iff.1 (Nat.le_zero.1 enough)
    rw [prefix_nil.1 fits] at mem
    exact nonempty mem
  | succ _ ih =>
    rw [dropWords]
    split
    next w found =>
      have pos : 0 < w.length := by
        rw [length_pos_iff]
        rintro rfl
        exact nonempty (mem_of_find?_eq_some found)
      apply ih
      rw [length_drop]
      omega
    next found => exact find_none.1 found

theorem front_done (nonempty : [] ∉ ws) (s : List α) : ∀ w ∈ ws, ¬ w <+: front ws s :=
  dropWords_done nonempty _ s le_rfl

theorem front_eq (done : ∀ w ∈ ws, ¬ w <+: s) : front ws s = s := by
  unfold front
  cases s with
  | nil => rfl
  | cons =>
    rw [length_cons, dropWords, find_none.2 done]

theorem back_initial (ws : List (List α)) (s : List α) : back ws s <+: s := by
  rw [back, ← reverse_suffix, reverse_reverse]
  exact dropWords_final _ _ _

theorem back_done (nonempty : [] ∉ ws) (s : List α) : ∀ w ∈ ws, ¬ w <:+ back ws s := by
  intro w mem fits
  have nonempty' : [] ∉ ws.map List.reverse := by simpa using nonempty
  apply front_done nonempty' s.reverse w.reverse (List.mem_map_of_mem mem)
  rw [← reverse_suffix, reverse_reverse]
  exact fits

theorem back_eq (done : ∀ w ∈ ws, ¬ w <:+ s) : back ws s = s := by
  rw [back, front_eq, reverse_reverse]
  intro w mem fits
  obtain ⟨v, hv, rfl⟩ := List.mem_map.1 mem
  exact done v hv ( reverse_prefix.1 fits)

theorem both_eq (front : ∀ w ∈ ws, ¬ w <+: s) (back : ∀ w ∈ ws, ¬ w <:+ s) : both ws s = s := by
  rw [both, front_eq front, back_eq back]

theorem both_both (nonempty : [] ∉ ws) (s : List α) : both ws (both ws s) = both ws s := by
  refine both_eq ?_ (back_done nonempty _)
  intro w mem fits
  exact front_done nonempty s w mem (fits.trans (back_initial _ _))

theorem both_eq_of_letters {p : α → Prop} (words : ∀ w ∈ ws, ∃ a ∈ w, ¬ p a)
    (letters : ∀ a ∈ s, p a) : both ws s = s := by
  have no : ∀ w ∈ ws, ¬ w <:+: s := by
    intro w mem fits
    obtain ⟨a, ha, bad⟩ := words w mem
    exact bad (letters a (fits.subset ha))
  exact both_eq (fun w mem fits => no w mem fits.isInfix) fun w mem fits => no w mem fits.isInfix

theorem dropWords_filter {p : α → Bool} (words : ∀ w ∈ ws, ∀ a ∈ w, ¬ p a) (n : Nat) (s : List α) :
    (dropWords ws n s).filter p = s.filter p := by
  induction n generalizing s with
  | zero => rfl
  | succ _ ih =>
    rw [dropWords]
    split
    next w found =>
      obtain ⟨rest, rfl⟩ : w <+: s := by simpa using find?_some found
      have none : w.filter p = [] :=
        filter_eq_nil_iff.2 (words w (mem_of_find?_eq_some found))
      rw [ih, drop_left, filter_append, none, nil_append]
    next => rfl

theorem both_filter {p : α → Bool} (words : ∀ w ∈ ws, ∀ a ∈ w, ¬ p a) (s : List α) :
    (both ws s).filter p = s.filter p := by
  have reversed : ∀ w ∈ ws.map List.reverse, ∀ a ∈ w, ¬ p a := by
    intro w mem a ha
    obtain ⟨v, hv, rfl⟩ := List.mem_map.1 mem
    exact words v hv a (mem_reverse.1 ha)
  rw [both, back, filter_reverse, front, dropWords_filter reversed, filter_reverse,
    reverse_reverse, front, dropWords_filter words]

end Trim

theorem mem_intercalate {α : Type} {sep c : α} {parts : List (List α)}
    (mem : c ∈ [sep].intercalate parts) : c = sep ∨ ∃ part ∈ parts, c ∈ part := by
  induction parts with
  | nil => simp at mem
  | cons part parts ih =>
    cases parts with
    | nil =>
      rw [intercalate_singleton] at mem
      exact .inr ⟨part, mem_cons_self, mem⟩
    | cons =>
      rw [intercalate_cons_cons, mem_append, mem_append,
        mem_singleton] at mem
      rcases mem with (mem | same) | mem
      · exact .inr ⟨part, mem_cons_self, mem⟩
      · exact .inl same
      · rcases ih mem with same | ⟨other, hother, hc⟩
        · exact .inl same
        · exact .inr ⟨other, mem_cons_of_mem part hother, hc⟩

theorem mem_splitOn {α : Type} [DecidableEq α] (sep : α) {c : α} {s : List α} (mem : c ∈ s) :
    c = sep ∨ ∃ part ∈ s.splitOn sep, c ∈ part := by
  have whole : [sep].intercalate (s.splitOn sep) = s := intercalate_splitOn sep
  rw [← whole] at mem
  exact mem_intercalate mem

namespace Percent

@[grind =]
def isHex (c : UInt8) : Bool :=
  (48 ≤ c && c ≤ 57) || (97 ≤ c && c ≤ 102) || (65 ≤ c && c ≤ 70)

def unhex (c : UInt8) : UInt8 :=
  if 48 ≤ c && c ≤ 57 then c - 48
  else if 97 ≤ c && c ≤ 102 then c - 97 + 10
  else if 65 ≤ c && c ≤ 70 then c - 65 + 10
  else 0

def upperHex (n : UInt8) : UInt8 := if n < 10 then n + 48 else n - 10 + 65

inductive Tok
  | lit (c : UInt8)
  | esc (h l : UInt8)
  deriving DecidableEq

namespace Tok

def bytes : Tok → List UInt8
  | lit c => [c]
  | esc h l => [37, h, l]

def value : Tok → UInt8
  | lit c => c
  | esc h l => unhex h * 16 + unhex l

def Proper : Tok → Prop
  | lit c => c ≠ 37
  | esc h l => isHex h ∧ isHex l

def escape (c : UInt8) : Tok := esc (upperHex (c / 16)) (upperHex (c % 16))

end Tok

def render (ts : List Tok) : List UInt8 := ts.flatMap Tok.bytes

def scan : List UInt8 → Option (List Tok)
  | [] => some []
  | c :: s =>
    if c = 37 then
      match s with
      | h :: l :: s => if isHex h && isHex l then (scan s).map (.esc h l :: ·) else none
      | _ => none
    else (scan s).map (.lit c :: ·)

@[simp]
theorem render_cons (t : Tok) (ts : List Tok) : render (t :: ts) = t.bytes ++ render ts := rfl

variable {ts : List Tok} {c : UInt8}

theorem render_eq_nil : render ts = [] ↔ ts = [] := by
  cases ts with
  | nil => simp [render]
  | cons t => cases t <;> simp [Tok.bytes]

theorem mem_render (proper : ∀ t ∈ ts, t.Proper) (mem : c ∈ render ts) :
    .lit c ∈ ts ∨ c = 37 ∨ isHex c := by
  obtain ⟨t, ht, hc⟩ := mem_flatMap.1 mem
  cases t with
  | lit =>
    rw [Tok.bytes, mem_singleton] at hc
    exact .inl (hc ▸ ht)
  | esc h l =>
    obtain ⟨high, low⟩ : isHex h ∧ isHex l := proper _ ht
    simp only [Tok.bytes, mem_cons, not_mem_nil, or_false] at hc
    rcases hc with rfl | rfl | rfl
    · exact .inr (.inl rfl)
    · exact .inr (.inr high)
    · exact .inr (.inr low)

theorem scan_bytes {t : Tok} (proper : t.Proper) (s : List UInt8) :
    scan (t.bytes ++ s) = (scan s).map (t :: ·) := by
  cases t with
  | lit c =>
    have ne : c ≠ 37 := proper
    rw [Tok.bytes, singleton_append, scan.eq_def]
    simp only [ne, if_false]
  | esc =>
    obtain ⟨high, low⟩ := proper
    simp only [Tok.bytes, cons_append, nil_append, scan, if_true, high, low,
      Bool.and_self]

theorem scan_cons (ne : c ≠ 37) (s : List UInt8) : scan (c :: s) = (scan s).map (.lit c :: ·) :=
  scan_bytes (t := .lit c) ne s

theorem scan_render (proper : ∀ t ∈ ts, t.Proper) (s : List UInt8) :
    scan (render ts ++ s) = (scan s).map (ts ++ ·) := by
  induction ts with
  | nil => simp [render]
  | cons t _ ih =>
    rw [render_cons, append_assoc, scan_bytes (proper t mem_cons_self),
      ih fun u hu => proper u (mem_cons_of_mem t hu), Option.map_map]
    rfl

theorem scan_eq_some {s : List UInt8} : scan s = some ts ↔ render ts = s ∧ ∀ t ∈ ts, t.Proper := by
  constructor
  · intro read
    fun_induction scan s generalizing ts with
    | case1 =>
      obtain rfl := Option.some.inj read
      simp [render]
    | case2 h l _ hex ih =>
      obtain ⟨us, inner, rfl⟩ := Option.map_eq_some_iff.1 read
      obtain ⟨rfl, proper⟩ := ih inner
      have digits : isHex h ∧ isHex l := by simpa using hex
      refine ⟨rfl, ?_⟩
      simpa using ⟨digits, proper⟩
    | case3 | case4 => cases read
    | case5 _ _ ne ih =>
      obtain ⟨us, inner, rfl⟩ := Option.map_eq_some_iff.1 read
      obtain ⟨rfl, proper⟩ := ih inner
      refine ⟨rfl, ?_⟩
      simpa using ⟨ne, proper⟩
  · rintro ⟨rfl, proper⟩
    have := scan_render proper []
    simpa [scan] using this

theorem scan_append_cons (noHex : ¬ isHex c) (noPercent : c ≠ 37) (s t : List UInt8) :
    scan (s ++ c :: t) = (scan s).bind fun ts => (scan t).map (ts ++ .lit c :: ·) := by
  have here := scan_cons noPercent
  fun_induction scan s with
  | case1 => simp [here]
  | case2 _ _ s hex ih =>
    simp only [cons_append, scan, if_true, hex, ih]
    cases scan s <;> simp [Function.comp_def]
  | case3 _ _ _ hex => simp [scan, hex]
  | case4 s short =>
    cases s with
    | nil =>
      rw [singleton_append, Option.bind_none]
      cases t <;> simp [scan, noHex]
    | cons h s =>
      cases s with
      | nil => simp [scan, noHex]
      | cons l s => exact absurd rfl (short h l s)
  | case5 _ s ne ih =>
    rw [cons_append, scan.eq_def]
    simp only [ne, if_false, ih]
    cases scan s <;> simp [Function.comp_def]

theorem scan_of_forall {s : List UInt8} (plain : ∀ c ∈ s, c ≠ 37) : scan s = some (s.map .lit) := by
  refine scan_eq_some.2 ⟨?_, ?_⟩
  · induction s with
    | nil => rfl
    | cons c _ ih =>
      rw [map_cons, render_cons, ih fun d hd => plain d (mem_cons_of_mem c hd)]
      rfl
  · intro t ht
    obtain ⟨c, hc, rfl⟩ := List.mem_map.1 ht
    exact plain c hc

end Percent

end ScaleTail.Lib
