import FileCourier.Courier
import FileCourier.Disk

/-!
A disk made by hand: what stands on it before a rehearsal, and what can be seen of it afterwards; and
template engines that work on it.
-/

namespace FileCourier.Rehearsal

/-- One thing to be put on a disk, or taken off it. -/
inductive Fixture where
  | dir (path : Path)
  | file (path : Path) (executable : Bool) (content : Bytes)
  | link (path : Path) (target : Bytes)
  | remove (path : Path)
  deriving DecidableEq, Repr

namespace Fixture

/-- The disk on which the directories above a path are made. -/
def withParents (d : Disk) (p : Path) : Disk := (d.makeDirectories p.parent).2

/-- The disk with one thing more. -/
def apply (d : Disk) : Fixture → Disk
  | dir path => (d.makeDirectories path).2
  | file path executable content =>
    match (withParents d path).openForWriting path with
    | .ok (place, d) =>
      if executable then d.put place (.file true content) else d.append place content
    | .error _ => d
  | link path target =>
    let d := withParents d path
    match d.locate false (Disk.systemText path) with
    | .ok (.free parent name) => d.put (parent ++ [name]) (.link target)
    | _ => d
  | remove path =>
    match d.emptied path with
    | .ok (some d) =>
      match d.remove path with
      | .ok (some d) => d
      | _ => d
    | _ => d

def applyAll (d : Disk) (l : List Fixture) : Disk := l.foldl apply d

end Fixture

/-- The directories from the root down to a place. -/
def directoriesTo (p : Place) : List (Place × Entry) :=
  (List.range p.length).map fun i => (p.take (i + 1), .dir Disk.openMode)

/-- A disk with empty directories at a place, which is the working directory, and at some others. -/
def emptyDisk (scratch : Place) (others : List Place) : Disk where
  entries := directoriesTo scratch ++ others.flatMap directoriesTo
  cwd := scratch

/-- All that stands below the working directory, each directory followed by what it holds. -/
def tree (d : Disk) : List (List Bytes × Entry) :=
  (d.entries.filterMap fun (place, entry) =>
    if d.cwd.isPrefixOf place && place != d.cwd then some (place.drop d.cwd.length, entry)
    else none).mergeSort fun a b => decide (a.1 ≤ b.1)

end FileCourier.Rehearsal

/-! ## Engines

Template engines that are simple enough to foretell what they render.
-/

namespace FileCourier.Rehearsal.Engine

/-- Parameters after the text: a space, the name, an equals sign and the value of each. -/
def appendix (parameters : Parameters) : Bytes :=
  parameters.toList.flatMap fun (name, value) => " " ++ name ++ "=" ++ value

/-- Writes the source in capitals and the parameters beside the source. -/
def upper : Engine := fun source parameters => do
  let content :=
    match (← get).read source with
    | .ok (_, content) => content
    | .error _ => []
  let target : Path := source.text ++ Bytes.ofString ".rendered"
  match (← get).openForWriting target with
  | .ok (place, d) => set (d.append place (content.map Bytes.upper ++ appendix parameters))
  | .error _ => pure ()
  return .rendered target.text

/-- Fails with a reason. -/
def failing (reason : Bytes) : Engine := fun _ _ => return .failed reason

/-- Says that the rendered file is at a path, and writes nothing. -/
def claiming (path : Bytes) : Engine := fun _ _ => return .rendered path

end FileCourier.Rehearsal.Engine
