import FileCourier.Bytes

/-!
Virtual paths: names of files on the master, written after the mark `salt://`. A virtual directory
copied below a destination keeps its last segment; `CopyRoot` says which listed paths lie below the
directory and where each of them goes.
-/

namespace FileCourier

namespace VirtualPath

/-- The mark of a virtual path. -/
def mark : Bytes := "salt://"

/-- The environment of a request that names none. -/
def defaultEnv : Bytes := "base"

/-- Whether a path carries the mark; letter case counts. -/
def marked (path : Bytes) : Bool := mark.isPrefixOf path

/-- What follows the mark. -/
def strip? (path : Bytes) : Option Bytes :=
  if marked path then some (path.drop mark.length) else none

/-- The path without the escape `|` that may lead it. -/
def unescape : Bytes → Bytes
  | [] => []
  | c :: r => if c = Bytes.ascii '|' then r else c :: r

/-- A path without the slashes that lead it. -/
def dropSlashes (path : Bytes) : Bytes := path.dropWhile (· == Bytes.ascii '/')

theorem strip?_eq_some_iff {path rest : Bytes} : strip? path = some rest ↔ path = mark ++ rest := by
  unfold strip? marked
  constructor
  · intro h
    split at h
    · rename_i hp
      obtain ⟨t, rfl⟩ := List.isPrefixOf_iff_prefix.1 hp
      simpa using h
    · simp at h
  · rintro rfl
    simp

end VirtualPath

/-- A virtual directory to be copied below a destination. Of `a/b` the copy keeps `b`, so that
`a/b/c` goes to `b/c`. -/
structure CopyRoot where
  /-- The directory without slashes at its end. -/
  path : Bytes
  /-- The part of `path` before its last slash, empty when it has none. -/
  parent : Bytes
  deriving DecidableEq, Repr

namespace CopyRoot

/-- The copy root of a virtual path, if it carries the mark. -/
def of? (virtual : Bytes) : Option CopyRoot :=
  (VirtualPath.strip? virtual).map fun rest =>
    let path := (rest.reverse.dropWhile (· == Bytes.ascii '/')).reverse
    ⟨path, match Bytes.breakAtLast? (Bytes.ascii '/') path with
      | some (before, _) => before
      | none => []⟩

/-- Whether a listed path lies strictly below the directory: `foo` does not hold `foobar/x`. -/
def contains (root : CopyRoot) (listed : Bytes) : Bool :=
  (root.path ++ [Bytes.ascii '/']).isPrefixOf listed

/-- Where a listed path goes, relative to the destination. There is no answer for a listed path
shorter than the part that is cut off. -/
def destination? (root : CopyRoot) (listed : Bytes) : Option Bytes :=
  if root.parent.length ≤ listed.length then
    some (VirtualPath.dropSlashes (listed.drop root.parent.length))
  else none

end CopyRoot

end FileCourier
