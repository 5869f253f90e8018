import Mathlib

/-! # Addresses, prefixes and sets of addresses -/

namespace ScaleTail.Net

inductive Addr
  | v4 (bits : BitVec 32)
  | v6 (bits : BitVec 128)
  deriving DecidableEq

namespace Addr

def is4 : Addr → Bool
  | v4 _ => true
  | v6 _ => false

def is6 : Addr → Bool
  | v4 _ => false
  | v6 _ => true

def bitLen : Addr → Nat
  | v4 _ => 32
  | v6 _ => 128

/-- The sixteen bytes of an address. An IPv4 address is mapped to `::ffff:0:0/96`. -/
def as16 : Addr → BitVec 128
  | v4 a => 0xffff#96 ++ a
  | v6 a => a

def unmap : Addr → Addr
  | v4 a => v4 a
  | v6 a => if a.extractLsb' 32 96 = 0xffff#96 then v4 (a.extractLsb' 0 32) else v6 a

def isMulticast (ip : Addr) : Bool :=
  match ip.unmap with
  | v4 a => a.extractLsb' 28 4 = 0xe#4
  | v6 a => a.extractLsb' 120 8 = 0xff#8

def isLinkLocalUnicast (ip : Addr) : Bool :=
  match ip.unmap with
  | v4 a => a.extractLsb' 16 16 = 0xa9fe#16
  | v6 a => a.extractLsb' 118 10 = 0x3fa#10

def isLoopback (ip : Addr) : Bool :=
  match ip.unmap with
  | v4 a => a.extractLsb' 24 8 = 127#8
  | v6 a => a = 1#128

def isPrivate (ip : Addr) : Bool :=
  match ip.unmap with
  | v4 a => a.extractLsb' 24 8 = 10#8 || a.extractLsb' 20 12 = 0xac1#12 || a.extractLsb' 16 16 = 0xc0a8#16
  | v6 a => a.extractLsb' 121 7 = 0x7e#7

end Addr

structure AddrPort where
  addr : Addr
  port : UInt16
  deriving DecidableEq

structure Prefix where
  addr : Addr
  bits : Nat
  le : bits ≤ addr.bitLen

namespace Prefix

def isSingleIP (p : Prefix) : Bool := p.bits = p.addr.bitLen

def single (a : Addr) : Prefix := ⟨a, a.bitLen, le_rfl⟩

def contains (p : Prefix) (ip : Addr) : Bool :=
  match p.addr, ip with
  | .v4 a, .v4 b => (a ^^^ b) >>> (32 - p.bits) = 0
  | .v6 a, .v6 b => (a ^^^ b) >>> (128 - p.bits) = 0
  | _, _ => false

end Prefix

/-- The routing table `bart.Lite`: it contains the addresses of the prefixes inserted into it. -/
class BartLite where
  Table : Type
  empty : Table
  insert : Table → Prefix → Table
  contains : Table → Addr → Bool
  contains_foldl (ps : List Prefix) (ip : Addr) :
    contains (ps.foldl insert empty) ip = ps.any (·.contains ip)

namespace IPSet

def emptySet : Addr → Bool := fun _ => false

def prefixContainsLoop (addrs : List Prefix) : Addr → Bool := fun ip => addrs.any (·.contains ip)

def oneIP (ip1 : Addr) : Addr → Bool := fun ip => ip = ip1

def twoIP (ip1 ip2 : Addr) : Addr → Bool := fun ip => ip = ip1 ∨ ip = ip2

def ipInMap (m : List Addr) : Addr → Bool := fun ip => ip ∈ m

def newContainsIPFunc [BartLite] (addrs : List Prefix) : Addr → Bool :=
  if addrs.any (!·.isSingleIP) then
    match addrs with
    | [p] => p.contains
    | _ =>
      if addrs.length ≤ 6 then prefixContainsLoop addrs
      else BartLite.contains (addrs.foldl BartLite.insert BartLite.empty)
  else
    match addrs with
    | [] => emptySet
    | [p] => oneIP p.addr
    | [p, q] => twoIP p.addr q.addr
    | _ => ipInMap (addrs.map (·.addr))

end IPSet

end ScaleTail.Net
