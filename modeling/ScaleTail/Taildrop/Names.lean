import ScaleTail.Go.Strings

/-!
# File names of Taildrop

The names of partial files, what the start-up scan reads off them, and the names that are tried for a
file whose own name is taken.
-/

namespace ScaleTail.Taildrop
open Go Lib

def partialSuffix : Bytes := bytes ".partial"

def deletedSuffix : Bytes := bytes ".deleted"

def hasSuffix (s suffix : Bytes) : Bool := suffix.isSuffixOf s

def isPartialOrDeleted (s : Bytes) : Bool := hasSuffix s deletedSuffix || hasSuffix s partialSuffix

/-- The checks on a name. Those of its encoding, spaces, length, path and characters are `wellFormed`. -/
def validateBaseName (wellFormed : Bytes → Bool) (name : Bytes) : Bool :=
  wellFormed name && !isPartialOrDeleted name

structure IncomingFileKey where
  id : Bytes
  name : Bytes
  deriving DecidableEq

namespace IncomingFileKey

def partialName (key : IncomingFileKey) : Bytes :=
  key.name ++ if key.id = [] then partialSuffix else bytes "." ++ key.id ++ partialSuffix

/-- The key that the start-up scan looks up for a partial file, if its name has the shape of one. -/
def ofPartial (filename : Bytes) : Option IncomingFileKey :=
  match cutLast (trimSuffix filename partialSuffix) 46 with
  | some (name, id) => if name = [] then none else some ⟨id, name⟩
  | none => none

end IncomingFileKey

def isExtension (s : Bytes) : Bool :=
  s.all isAlnum && (List.range 4).any fun i =>
    match s.drop i with
    | [] => false
    | c :: rest => (isUpper c || isLower c) && rest.length ≤ 3

def isExtensions (s : Bytes) : Bool :=
  match s.splitOn 46 with
  | [] :: extensions => extensions.all isExtension
  | _ => false

def extensionSuffix (s : Bytes) : Bytes := (s.tails.find? isExtensions).getD []

def hasNumber (s : Bytes) : Bool :=
  s.tails.any fun t =>
    (bytes " (").isPrefixOf t &&
      let rest := (t.drop 2).dropWhile Decimal.isDigit
      rest.length < (t.drop 2).length && rest.head? = some 41

/-- `strconv.ParseUint` in base ten, without its error: the largest number if the value is too large,
and zero if it is not one. -/
def parseUint (s : Bytes) : Nat :=
  if s = [] ∨ ¬ s.all Decimal.isDigit then 0 else min (Decimal.value s) (2 ^ 64 - 1)

def nextFilename (name : Bytes) : Option Bytes :=
  let ext := extensionSuffix (trimPrefix name (bytes "."))
  let name := trimSuffix name ext
  let numbered (name : Bytes) (n : Nat) := name ++ bytes " (" ++ itoa ((n + 1) % 2 ^ 64) ++ bytes ")" ++ ext
  if hasNumber name then
    match name.tails.reverse.find? (bytes " (").isPrefixOf with
    | none => none
    | some last =>
      if last.length < 3 then none
      else
        let n := parseUint (last.drop 2).dropLast
        if 0 < n then some (numbered (name.take (name.length - last.length)) n)
        else some (numbered name 0)
  else some (numbered name 0)

example : nextFilename (bytes "foo.tar.gz") = some (bytes "foo (1).tar.gz") := by decide +kernel

example : nextFilename (bytes "foo (9).txt") = some (bytes "foo (10).txt") := by decide +kernel

end ScaleTail.Taildrop
