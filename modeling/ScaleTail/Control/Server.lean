import ScaleTail.Go.URL

/-!
# Control servers

`internal/controlurl` and the pin of `control/controlclient` on the Noise key of a control server
that is reached over plain HTTP.
-/

namespace ScaleTail.Control

open Go Lib

variable [Unicode] [Netip]

def canonicalHostname (hostname : Bytes) : Bytes := trimSuffix (toLower hostname) (bytes ".")

def effectivePort (u : URL) : Bytes :=
  if u.port ≠ [] then
    match atoi u.port with
    | some n => itoa n
    | none => u.port
  else if toLower u.scheme = bytes "https" then bytes "443"
  else if toLower u.scheme = bytes "http" then bytes "80"
  else []

def parseServer (raw : Bytes) : Except Bytes URL :=
  match URL.parse (trimSpace raw) with
  | none => .error (bytes "invalid ScaleTail server URL")
  | some u =>
    if u.scheme = [] ∨ u.host = [] ∨ canonicalHostname u.hostname = [] ∨ u.user ≠ none then
      .error (bytes "invalid ScaleTail server URL")
    else if u.host.getLast? = some 58 then .error (bytes "invalid ScaleTail server port")
    else if u.port ≠ [] ∧ ¬ (∃ n ∈ atoi u.port, 1 ≤ n ∧ n ≤ 65535) then
      .error (bytes "invalid ScaleTail server port")
    else
      let u := { u with scheme := toLower u.scheme }
      if u.scheme = bytes "http" ∨ u.scheme = bytes "https" then .ok u
      else .error (bytes "invalid control server URL scheme")

def parseControl (raw : Bytes) : Except Bytes URL := do
  let u ← parseServer raw
  if u.rawQuery ≠ [] ∨ u.forceQuery ∨ u.fragment ≠ [] ∨ u.rawPath ≠ [] ∨
      u.path ≠ [] ∧ u.path ≠ bytes "/" then
    .error (bytes "invalid control server URL")
  else .ok u

def origin (u : URL) : Bytes :=
  let scheme := toLower u.scheme
  let hostname := canonicalHostname u.hostname
  let port := if u.port ≠ [] then itoa ((atoi u.port).getD 0) else []
  let port := if port = effectivePort { URL.empty with scheme } then [] else port
  let hostname :=
    if port ≠ [] then joinHostPort hostname port
    else if 58 ∈ hostname then 91 :: hostname ++ bytes "]"
    else hostname
  scheme ++ bytes "://" ++ hostname

structure MachinePublic where
  k : Vector UInt8 32
  deriving DecidableEq

namespace MachinePublic

def isZero (m : MachinePublic) : Bool := m.k = Vector.replicate 32 0

def base64Digits : Bytes := bytes "ABCDEFGHIJKLMNOPQRSTUVWXYZabcdefghijklmnopqrstuvwxyz0123456789+/"

def shortString (m : MachinePublic) : Bytes :=
  if m.isZero then []
  else
    let word := (m.k.toList.take 4).foldl (fun n b => 256 * n + b.toNat) 0
    91 :: (List.range 5).map (fun i => base64Digits.getD (word / 2 ^ (26 - 6 * i) % 64) 0) ++
      bytes "]"

end MachinePublic

structure Persist where
  controlServerNoiseKeyOrigin : Bytes
  controlServerNoiseKey : MachinePublic
  deriving DecidableEq

def checkOrSetHTTPNoiseKeyPin (serverURL : Bytes) (serverNoiseKey : MachinePublic)
    (p : Option Persist) : Except Bytes Unit × Option Persist :=
  match parseControl serverURL with
  | .error err => (.error (bytes "invalid control server URL: " ++ err), p)
  | .ok u =>
    if u.scheme ≠ bytes "http" then (.ok (), p)
    else if serverNoiseKey.isZero then
      (.error (bytes "control server is too old; no noise key"), p)
    else
      match p with
      | none => (.error (bytes "missing persistent state for HTTP control server pin"), p)
      | some p =>
        let o := origin u
        if p.controlServerNoiseKeyOrigin = o ∧ ¬ p.controlServerNoiseKey.isZero then
          if p.controlServerNoiseKey ≠ serverNoiseKey then
            (.error (bytes "control server Noise key changed for " ++ o ++
              bytes " (expected " ++ p.controlServerNoiseKey.shortString ++ bytes ", got " ++
              serverNoiseKey.shortString ++ bytes
                "); exit the current network before trusting a replacement key"), some p)
          else (.ok (), some p)
        else (.ok (), some ⟨o, serverNoiseKey⟩)

end ScaleTail.Control
