import ScaleTail.Go.Strings
import ScaleTail.Lib.Binary64

/-! # Versions -/

namespace ScaleTail.OTA

open Go Lib

/-- What the pattern captures. A version without prerelease has none of its identifiers. -/
structure Version where
  core : Bytes × Bytes × Bytes
  prerelease : List Bytes
  deriving DecidableEq

def isNumeral (s : Bytes) : Bool := s ≠ [] ∧ s.all Decimal.isDigit ∧ (s.head? = some 48 → s = [48])

def isIdentifier (s : Bytes) : Bool := s ≠ [] ∧ s.all fun c => isAlnum c || c = 45

def identifiers : Option Bytes → Option (List Bytes)
  | none => some []
  | some s => if (s.splitOn 46).all isIdentifier then some (s.splitOn 46) else none

def matchVersion (s : Bytes) : Option Version :=
  let (head, build) := cut s 43
  let (core, prerelease) := cut head 45
  match core.splitOn 46, identifiers prerelease, identifiers build with
  | [major, minor, patch], some prerelease, some _ =>
    if isNumeral major ∧ isNumeral minor ∧ isNumeral patch then
      some ⟨(major, minor, patch), prerelease⟩
    else none
  | _, _, _ => none

def dropV (s : Bytes) : Bytes := if s.head? = some 118 ∨ s.head? = some 86 then s.tail else s

def isNum (s : Bytes) : Bool := s.all Decimal.isDigit

def isBadNum (s : Bytes) : Bool := isNum s && 1 < s.length && s.head? = some 48

def semanticVersionPattern (s : Bytes) : Bool := (matchVersion (dropV s)).isSome

def semverParse : Bytes → Option Version
  | 118 :: s => (matchVersion s).filter fun v => ¬ v.prerelease.any isBadNum
  | _ => none

def semverIsValid (s : Bytes) : Bool := (semverParse s).isSome

def compareInt (x y : Bytes) : Ordering :=
  if x = y then .eq
  else if x.length < y.length then .lt
  else if y.length < x.length then .gt
  else if x < y then .lt
  else .gt

def compareIdents : List Bytes → List Bytes → Ordering
  | dx :: x, dy :: y =>
    if dx ≠ dy then
      if isNum dx ≠ isNum dy then (if isNum dx then .lt else .gt)
      else if isNum dx ∧ dx.length < dy.length then .lt
      else if isNum dx ∧ dy.length < dx.length then .gt
      else if dx < dy then .lt
      else .gt
    else compareIdents x y
  | [], _ => .lt
  | _, [] => .gt

def comparePrerelease (x y : List Bytes) : Ordering :=
  if x = y then .eq
  else if x = [] then .gt
  else if y = [] then .lt
  else compareIdents x y

def compareVersions (v w : Version) : Ordering :=
  let (major, minor, patch) := v.core
  let (major', minor', patch') := w.core
  if compareInt major major' ≠ .eq then compareInt major major'
  else if compareInt minor minor' ≠ .eq then compareInt minor minor'
  else if compareInt patch patch' ≠ .eq then compareInt patch patch'
  else comparePrerelease v.prerelease w.prerelease

def semverCompare (v w : Bytes) : Ordering :=
  match semverParse v, semverParse w with
  | none, none => .eq
  | none, some _ => .lt
  | some _, none => .gt
  | some v, some w => compareVersions v w

def canonicalVersion (value : Bytes) : Option Bytes :=
  let value := trimSpace value
  if ¬ semanticVersionPattern value then none
  else
    let value := 118 :: trimPrefix (trimPrefix value (bytes "v")) (bytes "V")
    if semverIsValid value then some value else none

def isNewerVersion (candidate current : Bytes) : Bool :=
  match canonicalVersion candidate, canonicalVersion current with
  | some candidate, some current => semverCompare candidate current = .gt
  | _, _ => false

def versionAtLeast (current required : Bytes) : Bool :=
  match canonicalVersion current, canonicalVersion required with
  | some current, some required => semverCompare current required ≠ .lt
  | _, _ => false

namespace Desktop

def spaces : List Bytes :=
  [[0x09], [0x0a], [0x0b], [0x0c], [0x0d], [0x20], [0xc2, 0xa0], [0xe1, 0x9a, 0x80],
    [0xe2, 0x80, 0x80], [0xe2, 0x80, 0x81], [0xe2, 0x80, 0x82], [0xe2, 0x80, 0x83],
    [0xe2, 0x80, 0x84], [0xe2, 0x80, 0x85], [0xe2, 0x80, 0x86], [0xe2, 0x80, 0x87],
    [0xe2, 0x80, 0x88], [0xe2, 0x80, 0x89], [0xe2, 0x80, 0x8a], [0xe2, 0x80, 0xa8],
    [0xe2, 0x80, 0xa9], [0xe2, 0x80, 0xaf], [0xe2, 0x81, 0x9f], [0xe3, 0x80, 0x80],
    [0xef, 0xbb, 0xbf]]

def trim (s : Bytes) : Bytes := Trim.both spaces s

def number (s : Bytes) : WithTop Nat := Binary64.ofNat (Decimal.value s)

structure ParsedSemver where
  core : List (WithTop Nat)
  prerelease : List Bytes

def parseSemver (value : Bytes) : Option ParsedSemver :=
  match matchVersion (dropV (trim value)) with
  | none => none
  | some v =>
    if v.prerelease.any isBadNum then none
    else some ⟨[number v.core.1, number v.core.2.1, number v.core.2.2], v.prerelease⟩

def canonicalVersion (value : Bytes) : Option Bytes :=
  let clean := dropV (trim value)
  if (parseSemver clean).isSome then some clean else none

def compareParts : List Bytes → List Bytes → Int
  | l :: left, r :: right =>
    if l = r then compareParts left right
    else if isNum l ∧ isNum r then (if number r < number l then 1 else -1)
    else if isNum l ≠ isNum r then (if isNum l then -1 else 1)
    else (if r < l then 1 else -1)
  | [], [] => 0
  | _ :: _, [] => 1
  | [], _ :: _ => -1

def comparePrerelease (left right : List Bytes) : Int :=
  if left.length = 0 ∨ right.length = 0 then
    if left.length = right.length then 0
    else if left.length = 0 then 1
    else -1
  else compareParts left right

def newerCore : List (WithTop Nat) → List (WithTop Nat) → Bool → Bool
  | l :: left, r :: right, otherwise => if l ≠ r then r < l else newerCore left right otherwise
  | _, _, otherwise => otherwise

def isNewerVersion (candidate current : Bytes) : Bool :=
  match parseSemver candidate, parseSemver current with
  | some left, some right =>
    newerCore left.core right.core (0 < comparePrerelease left.prerelease right.prerelease)
  | _, _ => false

end Desktop

end ScaleTail.OTA
