import ScaleTail.Taildrop.Names

/-! # Resumed transfers -/

namespace ScaleTail.Taildrop
open Go

variable {H : Type} [DecidableEq H] (hash : Bytes → H)

def blockSize : Nat := 64 * 2 ^ 10

def hashAlgorithm : Bytes := bytes "sha256"

structure BlockChecksum (H : Type) where
  checksum : H
  algorithm : Bytes
  size : Int
  deriving DecidableEq

def blocks : Nat → Bytes → List Bytes
  | 0, _ => []
  | n + 1, f => if f = [] then [] else f.take blockSize :: blocks n (f.drop blockSize)

def hashPartialFile (f : Bytes) : List (BlockChecksum H) :=
  (blocks f.length f).map fun b => ⟨hash b, hashAlgorithm, b.length⟩

inductive ResumeError
  | hashNext
  | invalidBlock
  deriving DecidableEq

/-- The offset from which to resume, and what is left to read there. The checksums end with an error,
or with none at the end of the partial file. -/
def resumeReader (ended : Option ResumeError) :
    Nat → Bytes → List (BlockChecksum H) → Nat × Bytes × Option ResumeError
  | offset, r, [] => (offset, r, ended)
  | offset, r, cs :: rest =>
    if cs.algorithm ≠ hashAlgorithm ∨ cs.size < 0 ∨ (blockSize : Int) < cs.size then
      (offset, r, some .invalidBlock)
    else
      let b := r.take cs.size.toNat
      let r := r.drop cs.size.toNat
      if b = [] ∨ cs.checksum ≠ hash b then (offset, b ++ r, none)
      else resumeReader ended (offset + b.length) r rest

/-- `OpenWriter` on a file with some content, or on one that it creates empty: the content, and the
position to write at. -/
def openWriter (content : Bytes) (offset : Int) : Option (Bytes × Nat) :=
  if offset ≠ 0 then
    if offset < 0 ∨ (content.length : Int) < offset then none
    else some (content.take offset.toNat, offset.toNat)
  else some (content, 0)

def writeAt (content : Bytes) (pos : Nat) (p : Bytes) : Bytes :=
  (content ++ List.replicate (pos - content.length) 0).take pos ++ p ++ content.drop (pos + p.length)

abbrev Files := AList fun _ : Bytes => Bytes

def maxRetries : Nat := 10

def renameFrom (files : Files) (old content : Bytes) : Nat → Bytes → Option (Bytes × Files)
  | 0, _ => none
  | retries + 1, dst =>
    match files.lookup dst with
    | none => some (dst, (files.erase old).insert dst content)
    | some other =>
      if other.length = content.length ∧ hash other = hash content then
        some (dst, files.erase old)
      else (nextFilename dst).bind (renameFrom files old content retries)

def rename (files : Files) (old newName : Bytes) : Option (Bytes × Files) :=
  (files.lookup old).bind fun content => renameFrom hash files old content maxRetries newName

inductive PutError
  | invalidFileName
  | create
  | copy
  | rename
  deriving DecidableEq

/-- `PutFile` without other calls at the same time: the length, the name of the file and the files. -/
def putFile (wellFormed : Bytes → Bool) (files : Files) (key : IncomingFileKey) (r : Bytes)
    (offset length : Int) : Except PutError (Int × Bytes × Files) :=
  if ¬ validateBaseName wellFormed key.name then .error .invalidFileName
  else
    match openWriter ((files.lookup key.partialName).getD []) offset with
    | none => .error .create
    | some (content, pos) =>
      if 0 ≤ length ∧ (r.length : Int) ≠ length then .error .copy
      else
        match rename hash (files.insert key.partialName (writeAt content pos r)) key.partialName
            key.name with
        | none => .error .rename
        | some (final, files) => .ok (offset + r.length, final, files)

end ScaleTail.Taildrop
