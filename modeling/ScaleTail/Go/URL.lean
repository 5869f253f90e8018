import ScaleTail.Go.Strings

/-! # URLs -/

namespace ScaleTail.Go

open Lib Percent

inductive Encoding
  | path
  | host
  | zone
  | userPassword
  | fragment
  deriving DecidableEq

def shouldEscape (c : UInt8) (mode : Encoding) : Bool :=
  if isAlnum c then false
  else if (mode = .host ∨ mode = .zone) ∧ (bytes "!$&'()*+,;=:[]<>\"").contains c then false
  else if (bytes "-_.~").contains c then false
  else if (bytes "$&+,/:;=?@").contains c then
    match mode with
    | .path => c = 63
    | .userPassword => (bytes "@/?:").contains c
    | .fragment => false
    | .host | .zone => true
  else if mode = .fragment ∧ (bytes "!()*").contains c then false
  else true

def unescape (mode : Encoding) : Bytes → Option Bytes
  | [] => some []
  | c :: s =>
    if c = 37 then
      match s with
      | h :: l :: s =>
        if ¬ (isHex h && isHex l) then none
        -- Hosts may escape bytes that are not ASCII only, apart from the percent sign.
        else if mode = .host ∧ unhex h < 8 ∧ ¬ (h = 50 ∧ l = 53) then none
        else if mode = .zone ∧ ¬ (h = 50 ∧ l = 53) ∧ (Tok.esc h l).value ≠ 32 ∧
            shouldEscape (Tok.esc h l).value .host then none
        else (unescape mode s).map ((Tok.esc h l).value :: ·)
      | _ => none
    else if (mode = .host ∨ mode = .zone) ∧ c < 0x80 ∧ shouldEscape c mode then none
    else (unescape mode s).map (c :: ·)

def escape (mode : Encoding) (s : Bytes) : Bytes :=
  s.flatMap fun c => if shouldEscape c mode then (Tok.escape c).bytes else [c]

def validEncoded (s : Bytes) (mode : Encoding) : Bool :=
  s.all fun c => (bytes "!$&'()*+,;=:@").contains c || (bytes "[]").contains c || c = 37 ||
    ¬ shouldEscape c mode

class Netip where
  isIPv6 : Bytes → Bool

@[reducible]
def Netip.none : Netip := ⟨fun _ => false⟩

inductive Family
  | v4
  | v6
  deriving DecidableEq

def isIPv4Field (s : Bytes) : Bool :=
  s ≠ [] ∧ s.all Decimal.isDigit ∧ (s.length > 1 → s.head? ≠ some 48) ∧ Decimal.value s ≤ 255

def parseAddr [Netip] (s : Bytes) : Option Family :=
  match s.find? ((bytes ".:%").contains ·) with
  | some 46 =>
    let fields := s.splitOn 46
    if fields.length = 4 ∧ fields.all isIPv4Field then some .v4 else none
  | some 58 => if Netip.isIPv6 s then some .v6 else none
  | _ => none

def joinHostPort (host port : Bytes) : Bytes :=
  if 58 ∈ host then 91 :: host ++ bytes "]:" ++ port else host ++ 58 :: port

structure URL where
  scheme : Bytes
  opaq : Bytes
  user : Option (Bytes × Option Bytes)
  host : Bytes
  path : Bytes
  fragment : Bytes
  rawQuery : Bytes
  rawPath : Bytes
  rawFragment : Bytes
  forceQuery : Bool
  omitHost : Bool
  deriving DecidableEq

def URL.empty : URL := ⟨[], [], none, [], [], [], [], [], [], false, false⟩

def isSchemeByte (c : UInt8) : Bool := isAlnum c || (bytes "+-.").contains c

def getScheme (raw : Bytes) : Option (Bytes × Bytes) :=
  let scheme := raw.takeWhile isSchemeByte
  match raw.dropWhile isSchemeByte with
  | 58 :: rest =>
    match scheme with
    | [] => none
    | c :: _ => if isUpper c ∨ isLower c then some (scheme, rest) else some ([], raw)
  | _ => some ([], raw)

def validOptionalPort : Bytes → Bool
  | [] => true
  | c :: port => c = 58 && port.all Decimal.isDigit

def validUserinfo (s : Bytes) : Bool :=
  s.all fun c => isAlnum c || (bytes "-._:~!$&'()*+,;=%@").contains c

def parseUserinfo (s : Bytes) : Option (Bytes × Option Bytes) :=
  if ¬ validUserinfo s then none
  else
    match cut s 58 with
    | (name, none) => (unescape .userPassword name).map (·, none)
    | (name, some password) => do
        let name ← unescape .userPassword name
        let password ← unescape .userPassword password
        some (name, some password)

def unescapeLiteral (s : Bytes) : Option Bytes :=
  match (List.range s.length).find? fun i => (bytes "%25").isPrefixOf (s.drop i) with
  | some i => do
      let hostPart ← unescape .host (s.take i)
      let zonePart ← unescape .zone (s.drop i)
      some (hostPart ++ zonePart)
  | none => unescape .host s

def parseHost [Netip] (scheme host : Bytes) : Option Bytes :=
  match cutLast host 91 with
  | some (_ :: _, _) => none
  | some ([], rest) =>
    match cutLast rest 93 with
    | none => none
    | some (literal, colonPort) =>
      if ¬ validOptionalPort colonPort then none
      else do
        let port ← unescape .host colonPort
        let literal ← unescapeLiteral literal
        match parseAddr literal with
        | some .v6 => some (91 :: literal ++ 93 :: port)
        | _ => none
  | none =>
    match cutLast host 58 with
    | some (before, port) =>
      -- Colons in the host are left to the schemes that use them.
      if 58 ∈ before ∧ (scheme = bytes "http" ∨ scheme = bytes "https") then none
      else if ¬ validOptionalPort (58 :: port) then none
      else unescape .host host
    | none => unescape .host host

def parseAuthority [Netip] (scheme authority : Bytes) :
    Option (Option (Bytes × Option Bytes) × Bytes) :=
  match cutLast authority 64 with
  | none => (parseHost scheme authority).map (none, ·)
  | some (userinfo, host) => do
      let host ← parseHost scheme host
      let user ← parseUserinfo userinfo
      some (some user, host)

def URL.setPath (u : URL) (p : Bytes) : Option URL := do
  let path ← unescape .path p
  some { u with path := path, rawPath := if p = escape .path path then [] else p }

def URL.setFragment (u : URL) (f : Bytes) : Option URL := do
  let fragment ← unescape .fragment f
  some { u with
    fragment := fragment
    rawFragment := if f = escape .fragment fragment then [] else f }

def parseHierarchy [Netip] (u : URL) (rest : Bytes) : Option URL :=
  if rest.head? ≠ some 47 ∧ u.scheme ≠ [] then some { u with opaq := rest }
  else if rest.head? ≠ some 47 ∧ 58 ∈ (cut rest 47).1 then none
  else if (u.scheme ≠ [] ∨ ¬ (bytes "///").isPrefixOf rest) ∧ (bytes "//").isPrefixOf rest then do
    let authority := (rest.drop 2).takeWhile (· ≠ 47)
    let (user, host) ← parseAuthority u.scheme authority
    URL.setPath { u with user := user, host := host } ((rest.drop 2).dropWhile (· ≠ 47))
  else
    URL.setPath { u with omitHost := u.scheme ≠ [] && rest.head? = some 47 } rest

def parseRaw [Netip] (raw : Bytes) : Option URL :=
  if raw.any fun c => c < 0x20 || c = 0x7f then none
  else if raw = bytes "*" then some { URL.empty with path := raw }
  else do
    let (scheme, rest) ← getScheme raw
    let scheme := scheme.map lowerASCII
    if rest.getLast? = some 63 ∧ rest.count 63 = 1 then
      parseHierarchy { URL.empty with scheme := scheme, forceQuery := true } rest.dropLast
    else
      let (rest, query) := cut rest 63
      parseHierarchy { URL.empty with scheme := scheme, rawQuery := query.getD [] } rest

def URL.parse [Netip] (raw : Bytes) : Option URL := do
  let (before, fragment) := cut raw 35
  let u ← parseRaw before
  match fragment with
  | none | some [] => some u
  | some f => u.setFragment f

namespace URL

def splitHostPort (u : URL) : Bytes × Bytes :=
  let (host, port) :=
    match cutLast u.host 58 with
    | some (host, port) => if port.all Decimal.isDigit then (host, port) else (u.host, [])
    | none => (u.host, [])
  if host.head? = some 91 ∧ host.getLast? = some 93 then (host.tail.dropLast, port)
  else (host, port)

def hostname (u : URL) : Bytes := u.splitHostPort.1

def port (u : URL) : Bytes := u.splitHostPort.2

def escapedPart (mode : Encoding) (raw decoded : Bytes) : Bytes :=
  if raw ≠ [] ∧ validEncoded raw mode ∧ unescape mode raw = some decoded then raw
  else if mode = .path ∧ decoded = bytes "*" then decoded
  else escape mode decoded

def escapedPath (u : URL) : Bytes := escapedPart .path u.rawPath u.path

def escapedFragment (u : URL) : Bytes := escapedPart .fragment u.rawFragment u.fragment

def authority (u : URL) : Bytes :=
  if (u.scheme = [] ∧ u.host = [] ∧ u.user = none) ∨
      (u.omitHost ∧ u.host = [] ∧ u.user = none) then []
  else
    (if u.host ≠ [] ∨ u.path ≠ [] ∨ u.user ≠ none then bytes "//" else []) ++
      (match u.user with
        | none => []
        | some (name, none) => escape .userPassword name ++ bytes "@"
        | some (name, some password) =>
          escape .userPassword name ++ 58 :: escape .userPassword password ++ bytes "@") ++
      escape .host u.host

def string (u : URL) : Bytes :=
  let scheme := if u.scheme = [] then [] else u.scheme ++ bytes ":"
  let hierarchy :=
    if u.opaq ≠ [] then u.opaq
    else
      let path := u.escapedPath
      let slash := if path ≠ [] ∧ path.head? ≠ some 47 ∧ u.host ≠ [] then bytes "/" else []
      let before := scheme ++ u.authority ++ slash
      let dot := if before = [] ∧ 58 ∈ (cut path 47).1 then bytes "./" else []
      u.authority ++ slash ++ dot ++ path
  let query := if u.forceQuery ∨ u.rawQuery ≠ [] then 63 :: u.rawQuery else []
  let fragment := if u.fragment ≠ [] then 35 :: u.escapedFragment else []
  scheme ++ hierarchy ++ query ++ fragment

end URL

end ScaleTail.Go
