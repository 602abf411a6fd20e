import FileCourier.Fault

/-!
A master kept in memory, with all that it serves and the moment from which it is out of reach.
-/

namespace FileCourier.Rehearsal

/-- What a master serves, and how. -/
structure ScriptedMaster where
  /-- For each environment the content of each path. -/
  files : ByteMap (ByteMap Bytes) := .empty
  emptyDirectories : ByteMap (List Bytes) := .empty
  /-- The size of the pieces in which files are served. -/
  chunkSize : Nat := 4
  hashType : Bytes := "md5"
  /-- Whether the end of a file announces its digest. -/
  announces : Bool := true
  /-- The digest that is announced instead of the true one, unless empty. -/
  forcedSum : Bytes := []
  /-- Whether pieces are compressed for those who ask for it. -/
  compresses : Bool := true
  options : Message := .empty
  classes : ByteMap (List Bytes) := .empty
  /-- After so many requests the master is out of reach. -/
  reachable : Option Nat := none
  /-- Replies that are given one after the other, instead of serving. -/
  replies : Option (List Message) := none

namespace ScriptedMaster

def content? (m : ScriptedMaster) (env path : Bytes) : Option Bytes :=
  (m.files.get? env).bind fun files => files.get? path

/-- The paths of an environment, in the order of their bytes. -/
def paths (m : ScriptedMaster) (env : Bytes) : List Bytes := ((m.files.get? env).map (·.keys)).getD []

/-- The parts of a path before each of its slashes. -/
def ancestors (path : Bytes) : List Bytes :=
  ((List.range path.length).filter fun i => path[i]? == some slash).map path.take

/-- The directories of an environment, in the order of their bytes. -/
def directories (m : ScriptedMaster) (env : Bytes) : List Bytes :=
  (ByteMap.ofList (((m.paths env).flatMap ancestors).map fun d => (d, ()))).keys

/-- The digest of a content under the name of the master. -/
def sumOf (m : ScriptedMaster) (content : Bytes) : Except Fault Bytes :=
  (Digest.library.hexOf m.hashType content).mapError .digest

/-- The reply at the end of a file. -/
def closing (m : ScriptedMaster) (path content : Bytes) : Except Fault Message := do
  let reply := Message.ofList [("dest", .bytes path), ("data", .bytes [])]
  if !m.announces then return reply
  let sum ← if m.forcedSum.isEmpty then m.sumOf content else pure m.forcedSum
  return (reply.set "hsum" (.bytes sum)).set "hash_type" (.bytes m.hashType)

/-- The reply that carries a piece of a file. -/
def piece (m : ScriptedMaster) (request : Message) (path data : Bytes) : Except Fault Message := do
  let reply := Message.ofList [("dest", .bytes path)]
  if m.compresses && 0 < request.intOr "gzip" 0 then
    let packed ← (Gzip.compress Gzip.deflater Gzip.defaultLevel data).mapError .gzip
    return (reply.set "data" (.bytes packed)).set "gzip" (.bool true)
  else return reply.set "data" (.bytes data)

/-- Serves a piece of a file. -/
def serve (m : ScriptedMaster) (request : Message) : Except Fault Message :=
  let path := request.bytesOr "path" []
  match m.content? (request.bytesOr "env" []) path with
  | none => .ok (.ofList [("data", .bytes []), ("dest", .bytes [])])
  | some content =>
    match (content.drop (request.intOr "loc" 0).toUInt64.toNat).take m.chunkSize with
    | [] => m.closing path content
    | data => m.piece request path data

def listing (paths : List Bytes) : Message := .ofList [("return", .list paths)]

/-- The reply to a request by what it asks for. -/
def answer (m : ScriptedMaster) (request : Message) : Except Fault Message :=
  let command := request.bytesOr "cmd" []
  let env := request.bytesOr "env" []
  if command == "_serve_file" then m.serve request
  else if command == "_file_list" then .ok (listing (m.paths env))
  else if command == "_dir_list" then .ok (listing (m.directories env))
  else if command == "_file_list_emptydirs" then
    .ok (listing ((m.emptyDirectories.get? env).getD []))
  else if command == "_file_hash" then
    match m.content? env (request.bytesOr "path" []) with
    | none => .ok .empty
    | some content =>
      (m.sumOf content).map fun sum =>
        .ofList [("hsum", .bytes sum), ("hash_type", .bytes m.hashType)]
  else if command == "_master_opts" then .ok m.options
  else if command == "_ext_nodes" then .ok (.ofList [("return", .map m.classes)])
  else .ok .empty

/-- The reply to the request that follows `earlier` others. Replies written down beforehand are
given in their order, and when they are used up an empty one. -/
def reply (m : ScriptedMaster) (earlier : Nat) (request : Message) : Except Fault Message :=
  if m.reachable.any (· ≤ earlier) then .error (.unreachable "fake master unreachable" .timeout)
  else
    match m.replies with
    | some replies => .ok (replies.getD earlier .empty)
    | none => m.answer request

end ScriptedMaster

end FileCourier.Rehearsal
