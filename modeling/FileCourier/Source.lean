import FileCourier.Action
import FileCourier.Digest
import FileCourier.Fault
import FileCourier.Message

/-!
Where files come from. A source serves files under virtual names, lists them, and knows a few things
about them; the master is one and directories on the disk are another.
-/

namespace FileCourier.DigestRecord

/-- The digest of the regular file at a path. -/
def ofFile (l : Digests) (d : Disk) (path : Path) (name : Bytes) : Except Fault DigestRecord :=
  match d.entryAt? path with
  | some (.file _ content) => ((l.hexOf name content).map (DigestRecord.mk name)).mapError .digest
  | _ => .error (.missingFile path)

/-- Whether the file at a path has the digest of the record. -/
def verifies (l : Digests) (r : DigestRecord) (d : Disk) (path : Path) : Except Fault Bool :=
  (ofFile l d path r.algorithm).map fun actual => actual.sum == r.sum

end FileCourier.DigestRecord

namespace FileCourier

/-- A request for one file. -/
structure FileRequest where
  /-- The virtual path. -/
  path : Bytes
  /-- Where the file is to be stored; in the cache when empty. -/
  dest : Bytes := []
  /-- Whether directories that are missing above `dest` are made. -/
  makeParents : Bool := false
  env : Bytes
  /-- How hard to compress on the way; not at all when zero. -/
  gzip : Int := 0
  deriving DecidableEq, Repr

/-- How a request for a file ended. -/
inductive Fetched where
  | stored (path : Path)
  | notFound
  /-- The directory of the destination is missing and must not be made. -/
  | destinationUnavailable
  /-- The master could not be reached. What was written before stays. -/
  | timeout
  deriving DecidableEq, Repr

namespace Fetched

def message : Fetched → Bytes
  | stored _ => "OK"
  | notFound => "Not found"
  | destinationUnavailable => "Destination unavailable"
  | timeout => "Timeout"

/-- Where the file is, if it was stored. -/
def path? : Fetched → Option Path
  | stored path => some path
  | _ => none

/-- The text of the path, empty when nothing was stored. -/
def pathText (f : Fetched) : Bytes :=
  match f.path? with
  | some path => path.text
  | none => []

end Fetched

/-- A listing, or `none` when the master could not be reached, which is not an empty one. -/
abbrev Listing := Option (List Bytes)

/-- Whatever serves files. Paths in listings are relative and separated by slashes. -/
structure Source (σ : Type) where
  getFile : FileRequest → Action (World σ) Fetched
  files : Bytes → Action (World σ) Listing
  directories : Bytes → Action (World σ) Listing
  /-- Directories with neither files nor directories in them. -/
  emptyDirectories : Bytes → Action (World σ) Listing
  environment : Bytes → Action (World σ) Listing
  /-- The digest of a virtual path in an environment, or of a local file. -/
  digest : Bytes → Bytes → Action (World σ) (Option DigestRecord)
  options : Action (World σ) (Option Message)
  /-- The classes of the client in each environment. -/
  classes : Action (World σ) (Option (ByteMap (List Bytes)))

end FileCourier
