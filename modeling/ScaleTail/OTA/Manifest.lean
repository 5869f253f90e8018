import ScaleTail.Go.URL
import ScaleTail.OTA.Version

/-! # The signed manifest -/

namespace ScaleTail.OTA

open Go Lib Percent

/-- Base64 decoding and ed25519 verification of a message and a signature under a public key. -/
class Signing where
  base64Decode : Bytes → Option Bytes
  verify : (publicKey message signature : Bytes) → Bool

def publicKeyBase64 : Bytes := bytes "vLGmMjFWFdcyPurQt1EZ1cDZgY4FcroH4aRMfDpEP2o="

def signatureV3Prefix : Bytes := bytes "v3."

def maxPolicyRevision : Nat := 2 ^ 53 - 1

def maxPolicyArtifactSize : Int := 2 ^ 30

def actionSuggested : Bytes := bytes "suggested"

def actionForced : Bytes := bytes "forced"

def actionClear : Bytes := bytes "clear"

structure Policy where
  revision : Nat
  action : Bytes
  version : Bytes
  platform : Bytes
  sha256 : Bytes
  fileSize : Int
  downloadURL : Bytes
  signature : Bytes
  deriving DecidableEq

def isUnreserved (c : UInt8) : Bool := isAlnum c || (bytes "-._~").contains c

def normalizeURLComponent : Bytes → Except Bytes Bytes
  | [] => .ok []
  | c :: s =>
    if c < 0x21 ∨ c > 0x7e ∨ c = 92 then .error (bytes "invalid OTA download URL component")
    else if c ≠ 37 then (normalizeURLComponent s).map (c :: ·)
    else
      match s with
      | h :: l :: s =>
        if ¬ (isHex h && isHex l) then .error (bytes "invalid OTA download URL escape")
        else if isUnreserved (Tok.esc h l).value then
          (normalizeURLComponent s).map ((Tok.esc h l).value :: ·)
        else (normalizeURLComponent s).map (37 :: upperASCII h :: upperASCII l :: ·)
      | _ => .error (bytes "invalid OTA download URL escape")

def isHexLabel (label : Bytes) : Bool :=
  label.length ≠ 2 && (label.drop 2).all fun c => Decimal.isDigit c || (97 ≤ c && c ≤ 102)

def numericHostLiteral (host : Bytes) : Bool :=
  (host.splitOn 46).all fun label =>
    label ≠ [] ∧
      if (bytes "0x").isPrefixOf label then isHexLabel label else label.all Decimal.isDigit

def isHostByte (c : UInt8) : Bool := isLower c || Decimal.isDigit c || c = 46 || c = 45

def isHostLabel (label : Bytes) : Bool :=
  label ≠ [] ∧ label.length ≤ 63 ∧ label.head? ≠ some 45 ∧ label.getLast? ≠ some 45

def validOTAHost [Netip] (host : Bytes) : Bool :=
  ¬ (host = [] ∨ host.getLast? = some 46 ∨ host = bytes "localhost" ∨
      (bytes ".localhost").isSuffixOf host) ∧
    ¬ ((parseAddr host).isSome ∨ numericHostLiteral host) ∧
    host.all isHostByte ∧ (host.splitOn 46).all isHostLabel

def normalizePort (port : Bytes) : Option Bytes :=
  if port = [] then some []
  else
    match atoi port with
    | none => none
    | some n =>
      if n < 1 ∨ n > 65535 then none
      else if n = 443 then some []
      else some (itoa n)

def canonicalURL (host port path query : Bytes) : Bytes :=
  bytes "https://" ++ host ++ (if port ≠ [] then 58 :: port else []) ++
    (if path = [] then bytes "/" else path) ++ if query ≠ [] then 63 :: query else []

def normalizeDownloadURL [Unicode] [Netip] (raw : Bytes) : Except Bytes Bytes :=
  let raw := trimSpace raw
  if raw = [] ∨ raw.length > 2048 then .error (bytes "invalid OTA download URL")
  else
    match URL.parse raw with
    | none => .error (bytes "invalid OTA download URL")
    | some u =>
      if u.scheme = [] ∨ u.host = [] ∨ u.opaq ≠ [] ∨ u.user ≠ none ∨ u.fragment ≠ [] ∨
          u.forceQuery then .error (bytes "invalid OTA download URL")
      else if ¬ equalFold u.scheme (bytes "https") then
        .error (bytes "OTA download URL must use HTTPS")
      else
        let host := toLower u.hostname
        if ¬ validOTAHost host then .error (bytes "OTA download URL host is not allowed")
        else
          match normalizePort u.port with
          | none => .error (bytes "invalid OTA download URL port")
          | some port => do
              let path ← normalizeURLComponent u.escapedPath
              let query ← normalizeURLComponent u.rawQuery
              .ok (canonicalURL host port path query)

def validPlatform (platform : Bytes) : Bool :=
  platform ≠ [] ∧ platform.length ≤ 64 ∧
    platform.all fun c => isLower c || Decimal.isDigit c || c = 45

def isHexString (s : Bytes) : Bool := s.length % 2 = 0 ∧ s.all isHex

section
variable [Unicode] [Netip]

def canonicalize (policy : Policy) : Except Bytes Policy :=
  let policy := { policy with
    action := toLower (trimSpace policy.action)
    version := trimSpace policy.version
    platform := toLower (trimSpace policy.platform)
    sha256 := toLower (trimSpace policy.sha256)
    downloadURL := trimSpace policy.downloadURL
    signature := trimSpace policy.signature }
  if policy.revision = 0 ∨ policy.revision > maxPolicyRevision then
    .error (bytes "invalid OTA policy revision")
  else if policy.action ≠ actionSuggested ∧ policy.action ≠ actionForced ∧
      policy.action ≠ actionClear then
    .error (bytes "invalid OTA policy action")
  else
    match canonicalVersion policy.version with
    | none => .error (bytes "invalid OTA policy version")
    | some version =>
      let policy := { policy with version := trimPrefix version (bytes "v") }
      if ¬ validPlatform policy.platform then .error (bytes "invalid OTA policy platform")
      else if policy.action = actionClear then
        if policy.sha256 ≠ [] ∨ policy.fileSize ≠ 0 ∨ policy.downloadURL ≠ [] then
          .error (bytes "clear OTA policy must not include installer metadata")
        else .ok policy
      else if policy.sha256.length ≠ 64 then .error (bytes "invalid OTA policy SHA-256")
      else if ¬ isHexString policy.sha256 then .error (bytes "invalid OTA policy SHA-256")
      else if policy.fileSize ≤ 0 ∨ policy.fileSize > maxPolicyArtifactSize then
        .error (bytes "invalid OTA policy file size")
      else do
        let downloadURL ← normalizeDownloadURL policy.downloadURL
        .ok { policy with downloadURL := downloadURL }

def formatInt (n : Int) : Bytes := if n < 0 then 45 :: itoa n.natAbs else itoa n.natAbs

def message (policy : Policy) : Except Bytes Bytes := do
  let policy ← canonicalize policy
  .ok (bytes "scaletail-update-v3\n" ++ itoa policy.revision ++ bytes "\n" ++ policy.action ++
    bytes "\n" ++ policy.version ++ bytes "\n" ++ policy.platform ++ bytes "\n" ++ policy.sha256 ++
    bytes "\n" ++ formatInt policy.fileSize ++ bytes "\n" ++ policy.downloadURL ++ bytes "\n")

variable [Signing]

omit [Unicode] [Netip] in
def parseSignature (value : Bytes) : Except Bytes Bytes :=
  let value := trimSpace value
  if ¬ signatureV3Prefix.isPrefixOf value ∨ value.count 46 ≠ 1 then
    .error (bytes "OTA signature must use v3 envelope")
  else
    match Signing.base64Decode (trimPrefix value signatureV3Prefix) with
    | some signature =>
      if signature.length = 64 then .ok signature
      else .error (bytes "invalid OTA signature encoding")
    | none => .error (bytes "invalid OTA signature encoding")

def verify (policy : Policy) : Except Bytes Policy := do
  let canonical ← canonicalize policy
  match Signing.base64Decode publicKeyBase64 with
  | none => .error (bytes "invalid embedded OTA public key")
  | some publicKey =>
    if publicKey.length ≠ 32 then .error (bytes "invalid embedded OTA public key")
    else do
      let signature ← parseSignature canonical.signature
      let message ← message canonical
      if ¬ Signing.verify publicKey message signature then
        .error (bytes "OTA signature verification failed")
      else .ok canonical

end

end ScaleTail.OTA
