import ScaleTail.Derp.Registry

/-!
# The mesh of a DERP region

`AddPacketForwarder` and `RemovePacketForwarder`: where the other servers of the region have the
keys, with a `multiForwarder` for a key that several of them have.
-/

namespace ScaleTail.Derp

variable {φ : Type} [DecidableEq φ]

structure MultiForwarder (φ : Type) where
  fwd : φ
  all : AList fun _ : φ => UInt8

inductive PacketForwarder (φ : Type)
  | single (fwd : φ)
  | multi (m : MultiForwarder φ)

def PacketForwarder.preferred : PacketForwarder φ → φ
  | .single fwd => fwd
  | .multi m => m.fwd

namespace MultiForwarder

variable (f : MultiForwarder φ)

def new (prev fwd : φ) : MultiForwarder φ where
  fwd := prev
  all := ((∅ : AList fun _ : φ => UInt8).insert prev 0).insert fwd 1

def max : UInt8 := f.all.entries.foldl (fun max e => if e.2 > max then e.2 else max) 0

def add (fwd : φ) : MultiForwarder φ := { f with all := f.all.insert fwd (f.max + 1) }

def lowest (all : AList fun _ : φ => UInt8) (order : List φ) : Option (φ × UInt8) :=
  order.foldl (fun lowest k =>
    match all.lookup k, lowest with
    | none, _ => lowest
    | some v, none => some (k, v)
    | some v, some (k', v') => if v < v' then some (k, v) else some (k', v')) none

def delete (fwd : φ) (order : List φ) : MultiForwarder φ where
  all := f.all.erase fwd
  fwd :=
    if fwd = f.fwd then ((lowest (f.all.erase fwd) order).map Prod.fst).getD f.fwd
    else f.fwd

def deleteLocked (fwd : φ) (order : List φ) : MultiForwarder φ × Option φ :=
  let f := f.delete fwd order
  (f, match f.all.entries with
    | [e] => some e.1
    | _ => none)

end MultiForwarder

abbrev ClientsMesh (φ : Type) := AList fun _ : NodePublic => Option (PacketForwarder φ)

inductive Removal
  | kept
  | gone
  | panicked
  deriving DecidableEq

namespace ClientsMesh

variable (clientsMesh : ClientsMesh φ)

def addPacketForwarder (dst : NodePublic) (fwd : φ) : ClientsMesh φ :=
  match clientsMesh.lookup dst with
  | none | some none => clientsMesh.insert dst (some (.single fwd))
  | some (some (.single prev)) =>
    if prev = fwd then clientsMesh
    else clientsMesh.insert dst (some (.multi (.new prev fwd)))
  | some (some (.multi m)) =>
    if fwd ∈ m.all then clientsMesh
    else clientsMesh.insert dst (some (.multi (m.add fwd)))

def removePacketForwarder (dst : NodePublic) (fwd : φ) (isLocal : Bool) (order : List φ) :
    ClientsMesh φ × Removal :=
  match clientsMesh.lookup dst with
  | none | some none => (clientsMesh, .kept)
  | some (some (.multi m)) =>
    if m.all.entries.length < 2 then (clientsMesh, .panicked)
    else
      match m.deleteLocked fwd order with
      | (m, none) => (clientsMesh.insert dst (some (.multi m)), .kept)
      | (_, some remain) => (clientsMesh.insert dst (some (.single remain)), .kept)
  | some (some (.single v)) =>
    if v ≠ fwd then (clientsMesh, .kept)
    else if isLocal then (clientsMesh.insert dst none, .kept)
    else (clientsMesh.erase dst, .gone)

def isIteration (dst : NodePublic) (fwd : φ) (order : List φ) : Bool :=
  match clientsMesh.lookup dst with
  | some (some (.multi m)) => order.isPerm (m.all.erase fwd).keys
  | _ => true

end ClientsMesh

end ScaleTail.Derp
