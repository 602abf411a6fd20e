import FileCourier.Cache.Making
import FileCourier.VirtualPath

/-!
The cache: where files fetched from the master, local files and files from foreign addresses are
kept below one directory. Directories that the cache makes are for their owner alone.
-/

namespace FileCourier

/-- A cache below the directory `root`. -/
structure Cache where
  root : Path
  deriving DecidableEq, Repr

namespace Cache

def filesRoot (c : Cache) (env : Bytes) : Path := c.root / "files" / env

def localFilesRoot (c : Cache) : Path := c.root / "localfiles"

def filePath (c : Cache) (env path : Bytes) : Path := c.filesRoot env / VirtualPath.dropSlashes path

def localPath (c : Cache) (path : Bytes) : Path := c.localFilesRoot / VirtualPath.dropSlashes path

/-- The place of a file from a foreign host. -/
def foreignPath (c : Cache) (env host path : Bytes) : Path :=
  c.root / "extrn_files" / env / host / VirtualPath.dropSlashes path

/-- Makes sure that a path leads to a directory. -/
def ensureDirectory (c : Cache) (p : Path) : Action Disk Unit := fun d =>
  match Making.complete c.root p d with
  | (.finished, d) => (.ok (), d)
  | (.failed fault, d) => (.error fault, d)
  | (.at _ _ _, d) => (.error .impatient, d)

/-- Makes the directories above a path, and gives the path. -/
def prepare (c : Cache) (p : Path) : Action Disk Path := do
  if !p.parent.isEmpty then c.ensureDirectory p.parent
  return p

/-- Where a file of the master goes. -/
def destination (c : Cache) (env path : Bytes) : Action Disk Path := c.prepare (c.filePath env path)

def localDestination (c : Cache) (path : Bytes) : Action Disk Path := c.prepare (c.localPath path)

def foreignDestination (c : Cache) (env host path : Bytes) : Action Disk Path :=
  c.prepare (c.foreignPath env host path)

/-- Copies a local file into the cache. The source is opened before anything is made, and is read
only after the copy has been emptied. -/
def storeLocalFile (c : Cache) (source : Path) : Action Disk Path := do
  match (← get).read source with
  | .error _ => throw (.store (.unreadable source))
  | .ok (origin, content) =>
    let dest ← c.localDestination source.text
    match (← get).openForWriting dest with
    | .error _ => throw (.store (.notCreated dest))
    | .ok (place, d) =>
      set (d.append place (if place = origin then [] else content))
      return dest

/-- The regular files below a directory, links followed. -/
def filesBelow (d : Disk) (root : Path) : List Path :=
  ((d.below root).filter fun f => f.isFile d).map (·.path)

/-- The files kept of an environment, and the local files, in path order. -/
def listCached (c : Cache) (env : Bytes) (d : Disk) : List Path :=
  Path.sortUnique (filesBelow d (c.filesRoot env) ++ filesBelow d c.localFilesRoot)

/-- Where a path is kept, if it is. A path without the mark is looked for among the local files
first. -/
def isCached (c : Cache) (path env : Bytes) (d : Disk) : Option Path :=
  let places :=
    match VirtualPath.strip? path with
    | some rest => [c.filePath env rest]
    | none => [c.localPath path, c.filePath env path]
  places.find? d.isPresent

end Cache

end FileCourier
