import FileCourier.Cache
import FileCourier.Download
import FileCourier.MasterLink
import FileCourier.Settings
import FileCourier.Source

/-!
Files from the master. A file comes in pieces: each request says how many bytes have been written
so far, and a reply without data ends the file. If that reply carries a digest, the file is checked,
and fetched again when it does not match, three times at most.
-/

namespace FileCourier

/-- What is needed to fetch files from the master. -/
structure MasterFiles (σ : Type) where
  settings : Settings
  digests : Digests
  ask : Master σ
  /-- How many replies are awaited for one file. -/
  patience : Nat

namespace MasterFiles

variable {σ : Type}

def cache (m : MasterFiles σ) : Cache := ⟨m.settings.cachedir⟩

/-- A file that does not match its digest is kept after so many downloads. -/
def maxAttempts : Nat := 3

/-- The request for the piece of a file that begins at `offset`. -/
def pieceRequest (r : FileRequest) (relative : Bytes) (offset : Nat) : Message :=
  let fields := Message.ofList [
    ("path", .bytes relative), ("env", .bytes r.env), ("cmd", .bytes "_serve_file"),
    ("loc", .int (.ofNat offset))]
  if 0 < r.gzip then fields.set "gzip" (.int (.ofInt r.gzip)) else fields

/-- Starts a download in the cache. A directory that is kept at its place is removed. -/
def startInCache (m : MasterFiles σ) (d : Download) (env relative : Bytes) : Action Disk Download := do
  let dest ← m.cache.destination env relative
  if (← get).isDirectory dest then Chores.removeAll dest
  Download.act (d.start dest)

/-- The digest that a closing reply announces, if it announces one. -/
def announced (reply : Message) : Option DigestRecord :=
  if reply.has "hsum" then
    some ⟨reply.bytesOr "hash_type" Digest.defaultName, reply.bytesOr "hsum" []⟩
  else none

/-- What follows a reply: another request, or the end. -/
inductive Turn where
  | more (d : Download)
  | done (result : Fetched)
  deriving DecidableEq, Repr

/-- The end of a download, or a fresh start when the file does not match what was announced. -/
def conclude (m : MasterFiles σ) (d : Download) (reply : Message) : Action Disk Turn := do
  match announced reply with
  | none => return .done (.stored d.dest)
  | some record =>
    let d := d.countAttempt
    let good ← Action.ofExcept id (record.verifies m.digests (← get) d.dest)
    if good || maxAttempts ≤ d.attempts then return .done (.stored d.dest)
    else return .more (← Download.act d.restart)

/-- Takes a reply without data. It says where an empty file goes; when it says nothing, and no
destination was asked for, there is no such file. -/
def takeEnd (m : MasterFiles σ) (r : FileRequest) (d : Download) (reply : Message) :
    Action Disk Turn := do
  if d.isOpen then m.conclude d reply
  else
    match reply.bytesOr "dest" [] with
    | [] => return .done .notFound
    | dest => m.conclude (← m.startInCache d r.env dest) reply

/-- The bytes of a piece. It is expanded only if that was asked for and the reply says so. -/
def pieceOf (r : FileRequest) (reply : Message) (data : Bytes) : Except GzipError Bytes :=
  if 0 < r.gzip && reply.boolOr "gzip" false then Gzip.uncompress data else .ok data

/-- Takes a reply with data. The first one opens the file in the cache when no destination was
asked for. -/
def takePiece (m : MasterFiles σ) (r : FileRequest) (relative : Bytes) (d : Download)
    (reply : Message) (data : Bytes) : Action Disk Turn := do
  let d ←
    if d.isOpen then pure d
    else
      match reply.bytesOr "dest" [] with
      | [] => m.startInCache d r.env relative
      | dest => m.startInCache d r.env dest
  let piece ← Action.ofExcept .gzip (pieceOf r reply data)
  return .more (← Download.act (d.write piece))

def take (m : MasterFiles σ) (r : FileRequest) (relative : Bytes) (d : Download) (reply : Message) :
    Action Disk Turn :=
  match reply.bytesOr "data" [] with
  | [] => m.takeEnd r d reply
  | data => m.takePiece r relative d reply data

/-- One request, and what its reply brings. -/
def turn (m : MasterFiles σ) (r : FileRequest) (relative : Bytes) (d : Download) :
    Action (World σ) Turn := do
  match ← Action.reached (Action.onBeyond (m.ask (pieceRequest r relative d.offset))) with
  | none => return .done .timeout
  | some reply => Action.onDisk (m.take r relative d reply)

/-- Asks for piece after piece, at most `n` times. -/
def fetch (m : MasterFiles σ) (r : FileRequest) (relative : Bytes) :
    Nat → Download → Action (World σ) Fetched
  | 0, _ => throw .impatient
  | n + 1, d => do
    match ← m.turn r relative d with
    | .done result => return result
    | .more d => fetch m r relative n d

/-- The download of a request before the first reply: open at the destination that was asked for.
`none` when that is out of reach. -/
def begin (r : FileRequest) : Action Disk (Option Download) := do
  if r.dest.isEmpty then return some {}
  else if ← Chores.prepareParent (Path.parent r.dest) r.makeParents then
    return some (← Download.act (Download.start {} r.dest))
  else return none

def getFile (m : MasterFiles σ) (r : FileRequest) : Action (World σ) Fetched := do
  let relative ← Action.ofOption (.unmarked r.path) (VirtualPath.strip? r.path)
  match ← Action.onDisk (begin r) with
  | none => return .destinationUnavailable
  | some d => m.fetch r relative m.patience d

/-- The reply to a command; `none` when the master could not be reached. -/
def command (m : MasterFiles σ) (request : Message) : Action (World σ) (Option Message) :=
  Action.reached (Action.onBeyond (m.ask request))

def listing (m : MasterFiles σ) (name env : Bytes) : Action (World σ) Listing := do
  let reply ← m.command (.ofList [("env", .bytes env), ("cmd", .bytes name)])
  return reply.map fun reply => reply.list "return"

/-- The digest of a file of the master, or of a local file. -/
def digest (m : MasterFiles σ) (path env : Bytes) : Action (World σ) (Option DigestRecord) := do
  match VirtualPath.strip? path with
  | none =>
    let record ← Action.ofExcept id (DigestRecord.ofFile m.digests (← get).disk path Digest.defaultName)
    return some record
  | some relative =>
    let reply ← m.command
      (.ofList [("path", .bytes relative), ("env", .bytes env), ("cmd", .bytes "_file_hash")])
    return reply.bind fun reply =>
      match reply.bytesOr "hsum" [] with
      | [] => none
      | sum => some ⟨reply.bytesOr "hash_type" m.settings.hashType, sum⟩

/-- The request for the classes of the client, which carries its options. -/
def classesRequest (s : Settings) : Message :=
  .ofList [("cmd", .bytes "_ext_nodes"), ("id", .bytes s.id),
    ("opts", .bytes (Wire.write s.toMessage))]

def source (m : MasterFiles σ) : Source σ where
  getFile := m.getFile
  files := m.listing "_file_list"
  directories := m.listing "_dir_list"
  emptyDirectories := m.listing "_file_list_emptydirs"
  environment := m.listing "_file_list"
  digest := m.digest
  options := m.command (.ofList [("cmd", .bytes "_master_opts")])
  classes := return (← m.command (classesRequest m.settings)).map fun reply => reply.map "return"

end MasterFiles

end FileCourier
