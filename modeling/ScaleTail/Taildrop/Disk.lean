import ScaleTail.Lib.Lookup
import ScaleTail.Go.Strings

/-! # Files under names -/

namespace ScaleTail.Taildrop
open Go

abbrev Dir := AList fun _ : Bytes => Nat

structure Dir.Placed (dir : Dir) (next : Nat) : Prop where
  distinct : ∀ m n i, dir.lookup m = some i → dir.lookup n = some i → m = n
  bound : ∀ n i, dir.lookup n = some i → i < next

def Dir.rename (dir : Dir) (old dst : Bytes) : Dir :=
  (dir.lookup old).elim dir fun i => (dir.erase old).insert dst i

section Placed
variable {dir : Dir} {next i : Nat} {m n : Bytes}

theorem Dir.lookup_insert_eq : (dir.insert n i).lookup m = if m = n then some i else dir.lookup m :=
  Lib.lookup_insert_ite

theorem Dir.lookup_erase_eq : (dir.erase n).lookup m = if m = n then none else dir.lookup m :=
  Lib.lookup_erase_ite

theorem Dir.Placed.insert (placed : dir.Placed next) (unused : ∀ m, dir.lookup m ≠ some i)
    (below : i < next) (n : Bytes) : Dir.Placed (dir.insert n i) next := by
  constructor
  · intro m k j first second
    rw [Dir.lookup_insert_eq] at first second
    split at first
    next same =>
      cases first
      split at second
      next same' => exact same.trans same'.symm
      · exact absurd second (unused k)
    · split at second
      · cases second
        exact absurd first (unused m)
      · exact placed.distinct m k j first second
  · intro m j found
    rw [Dir.lookup_insert_eq] at found
    split at found
    · cases found
      exact below
    · exact placed.bound m j found

theorem Dir.Placed.create (placed : dir.Placed next) (n : Bytes) :
    Dir.Placed (dir.insert n next) (next + 1) := by
  have more : Dir.Placed dir (next + 1) :=
    ⟨placed.distinct, fun m i found => Nat.lt_succ_of_lt (placed.bound m i found)⟩
  exact more.insert (fun m found => lt_irrefl _ (placed.bound m next found)) next.lt_succ_self n

theorem Dir.Placed.erase (placed : dir.Placed next) (n : Bytes) : Dir.Placed (dir.erase n) next := by
  have old m i (found : (dir.erase n).lookup m = some i) : dir.lookup m = some i := by
    rw [Dir.lookup_erase_eq] at found
    split at found
    · cases found
    · exact found
  constructor
  · exact fun m k i first second => placed.distinct m k i (old m i first) (old k i second)
  · exact fun m i found => placed.bound m i (old m i found)

theorem Dir.Placed.rename (placed : dir.Placed next) (old dst : Bytes) :
    Dir.Placed (dir.rename old dst) next := by
  unfold Dir.rename
  cases found : dir.lookup old with
  | none => exact placed
  | some i =>
    refine (placed.erase old).insert (fun m other => ?_) (placed.bound old i found) dst
    rw [Dir.lookup_erase_eq] at other
    split at other
    · cases other
    next differ => exact differ (placed.distinct m old i other found)

theorem Dir.placed_empty : Dir.Placed ∅ 0 := ⟨by simp, by simp⟩

end Placed

structure Disk where
  dir : Dir
  data : Nat → Bytes
  next : Nat
  placed : dir.Placed next

namespace Disk

def empty : Disk := ⟨∅, fun _ => [], 0, Dir.placed_empty⟩

variable (d : Disk)

def content (n : Bytes) : Option Bytes := (d.dir.lookup n).map d.data

def create (n : Bytes) : Disk :=
  ⟨d.dir.insert n d.next, Function.update d.data d.next [], d.next + 1, d.placed.create n⟩

def openFile (n : Bytes) : Disk × Nat :=
  match d.dir.lookup n with
  | some i => (d, i)
  | none => (d.create n, d.next)

def write (i : Nat) (content : Bytes) : Disk := { d with data := Function.update d.data i content }

def unlink (n : Bytes) : Disk := ⟨d.dir.erase n, d.data, d.next, d.placed.erase n⟩

def rename (old dst : Bytes) : Disk :=
  ⟨d.dir.rename old dst, d.data, d.next, d.placed.rename old dst⟩

variable {d} {i : Nat} {m n : Bytes}

theorem content_eq (found : d.dir.lookup n = some i) : d.content n = some (d.data i) := by
  rw [content, found, Option.map_some]

theorem openFile_found (found : d.dir.lookup n = some i) : d.openFile n = (d, i) := by
  rw [openFile, found]

theorem lookup_openFile : (d.openFile n).1.dir.lookup m =
    if m = n then some (d.openFile n).2 else d.dir.lookup m := by
  unfold openFile
  cases found : d.dir.lookup n with
  | some i =>
    dsimp only
    split
    next same => rw [same, found]
    · rfl
  | none => exact Dir.lookup_insert_eq

theorem lookup_rename {old dst : Bytes} (aside : m ≠ dst) (other : m ≠ old) :
    (d.rename old dst).dir.lookup m = d.dir.lookup m := by
  show (d.dir.rename old dst).lookup m = _
  unfold Dir.rename
  cases d.dir.lookup old with
  | none => rfl
  | some i =>
    rw [Option.elim_some, Dir.lookup_insert_eq, if_neg aside, Dir.lookup_erase_eq, if_neg other]

end Disk

end ScaleTail.Taildrop
