import ScaleTail.Go.URL

/-! # Account credentials -/

namespace ScaleTail.Control

open Go

abbrev RequestToken := UInt64

structure Credential where
  requestID : UInt64
  controlURL : Bytes
  username : Bytes
  password : Bytes
  deriving DecidableEq

namespace Credential

def init : Credential := ⟨0, [], [], []⟩

variable [Unicode] [Netip]

def canonicalControlURL (controlURL : Bytes) : Bytes :=
  match URL.parse (trimSpace controlURL) with
  | none => []
  | some u =>
    if u.scheme = [] ∨ u.host = [] ∨ u.user ≠ none then []
    else
      let scheme := toLower u.scheme
      let hostname := toLower u.hostname
      let port :=
        if scheme = bytes "https" ∧ u.port = bytes "443" ∨
            scheme = bytes "http" ∧ u.port = bytes "80" then []
        else u.port
      let host :=
        if port ≠ [] then joinHostPort hostname port
        else if 58 ∈ hostname then 91 :: hostname ++ bytes "]"
        else hostname
      URL.string { u with
        scheme := scheme
        host := host
        path := trimRight u.path 47
        rawPath := trimRight u.rawPath 47 }

def beginRequest (c : Credential) : RequestToken × Credential :=
  (c.requestID + 1, { c with requestID := c.requestID + 1 })

def setIfCurrentRequest (c : Credential) (token : RequestToken)
    (controlURL username password : Bytes) : Bool × Credential :=
  let controlURL := canonicalControlURL controlURL
  let username := trimSpace username
  if controlURL = [] ∨ username = [] ∨ password = [] then (false, c)
  else if token = 0 ∨ token ≠ c.requestID then (false, c)
  else (true, ⟨c.requestID + 1, controlURL, username, password⟩)

def get (c : Credential) (controlURL : Bytes) : Option (Bytes × Bytes) :=
  if c.controlURL = [] ∨ c.controlURL ≠ canonicalControlURL controlURL ∨ c.username = [] ∨
      c.password = [] then none
  else some (c.username, c.password)

def clear (c : Credential) : Credential := ⟨c.requestID + 1, [], [], []⟩

end Credential

end ScaleTail.Control
