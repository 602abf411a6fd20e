import FileCourier.Courier

/-!
The console: a prompt, a line, an answer, and so on until the line `quit` or the end of the input.
A request that fails is answered by one line and does not end the console.
-/

namespace FileCourier

/-- What a line may want of a courier. -/
inductive Request where
  | files
  | directories
  | emptyDirectories
  | listCached
  | listStates
  | cacheFile (url : Bytes)
  | cacheDir (path : Bytes)
  | cacheLocalFile (path : Bytes)
  | isCached (path : Bytes)
  | digest (path : Bytes)
  | getState (state : Bytes)
  | getUrl (url dest : Bytes)
  | getFile (path dest : Bytes)
  | getDir (path dest : Bytes)
  deriving DecidableEq, Repr

/-- What a line asks for. -/
inductive Command where
  | help
  | env (name : Bytes)
  | request (r : Request)
  | unknown
  deriving DecidableEq, Repr

namespace Command

def words (line : Bytes) : List Bytes :=
  (line.splitOnP Bytes.isSpace).filter fun w => !w.isEmpty

/-- The command of a name with up to two arguments, which are empty when they are missing. -/
def ofWords (name first second : Bytes) : Command :=
  if name == "help" then help
  else if name == "file_list" then request .files
  else if name == "dir_list" then request .directories
  else if name == "emptydirs" then request .emptyDirectories
  else if name == "local_list" then request .listCached
  else if name == "list_states" then request .listStates
  else if first.isEmpty then unknown
  else if name == "env" then env first
  else if name == "cache_file" then request (.cacheFile first)
  else if name == "cache_dir" then request (.cacheDir first)
  else if name == "cache_local_file" then request (.cacheLocalFile first)
  else if name == "is_cached" then request (.isCached first)
  else if name == "hash_file" then request (.digest first)
  else if name == "get_state" then request (.getState first)
  else if name == "get_url" then request (.getUrl first second)
  else if second.isEmpty then unknown
  else if name == "get_file" then request (.getFile first second)
  else if name == "get_dir" then request (.getDir first second)
  else unknown

/-- The name and the command of a line, if it is not blank. Words after the third do not count. -/
def ofLine? (line : Bytes) : Option (Bytes × Command) :=
  match words line with
  | [] => none
  | name :: arguments =>
    some (name, ofWords name (arguments.headD []) (arguments.tail.headD []))

end Command

namespace Request

/-- What the answer to a request is made of. -/
abbrev Result : Request → Type
  | files | directories | emptyDirectories => Listing
  | listCached | listStates | cacheDir _ | getDir .. => List Bytes
  | cacheFile _ | cacheLocalFile _ | isCached _ | getUrl .. => Bytes
  | digest _ => Option DigestRecord
  | getState _ => Option StateFile
  | getFile .. => Fetched

def listingLines : Listing → List Bytes
  | none => ["Master unreachable"]
  | some l => l

/-- A path, or what is said when it is empty. -/
def placeLines (absent path : Bytes) : List Bytes := [if path.isEmpty then absent else path]

/-- The lines in which the result of a request is shown. -/
def lines (here : Bytes) : (r : Request) → r.Result → List Bytes
  | files, l => listingLines l
  | directories, l => listingLines l
  | emptyDirectories, l => listingLines l
  | listCached, l => l
  | listStates, l => l
  | cacheDir _, l => l
  | getDir .., l => l
  | cacheFile url, path => placeLines ("Could not cache " ++ url) path
  | cacheLocalFile path, copy => placeLines ("Could not cache " ++ path) copy
  | isCached path, place => placeLines ("Not cached: " ++ path) place
  | getUrl url _, path => placeLines ("Could not fetch " ++ url) path
  | digest _, some record => [record.algorithm ++ " " ++ record.sum]
  | digest path, none => ["No hash available for " ++ path]
  | getState _, some file => [file.source ++ " -> " ++ file.dest]
  | getState name, none => ["No state " ++ name ++ " in " ++ here]
  | getFile .., .stored path => [path.text]
  | getFile path _, result => ["Failed to fetch " ++ path ++ ": " ++ result.message]

end Request

namespace Console

/-- What is written when a line is awaited. -/
def prompt : Bytes := "fileclient> "

def quit : Bytes := "quit"

/-- Lines, each with its line end. -/
def unlines (l : List Bytes) : Bytes := l.flatMap fun line => line ++ [10]

/-- The lines of an input. The last one need not have a line end. -/
def linesOf (input : Bytes) : List Bytes :=
  let parts := input.splitOn 10
  if parts.getLast? = some [] then parts.dropLast else parts

def helpLines : List Bytes := [
  "Available commands:",
  "  help                      Display this help message",
  "  cache_file <url>          Cache a salt:// path or a URL",
  "  get_file <path> <dest>    Fetch a salt:// path to <dest>",
  "  cache_dir <path>          Cache every file below a salt:// directory",
  "  get_dir <path> <dest>     Copy a salt:// directory below <dest>",
  "  get_url <url> [dest]      Fetch a URL, into the cache without dest",
  "  cache_local_file <path>   Copy a local file into the cache",
  "  is_cached <path>          Show where <path> is cached",
  "  hash_file <path>          Hash a salt:// path or local file",
  "  file_list                 List files of the environment",
  "  dir_list                  List directories of the environment",
  "  emptydirs                 List empty directories of the environment",
  "  local_list                List cached files",
  "  list_states               List state modules",
  "  get_state <sls>           Cache a state file",
  "  env <name>                Switch environment",
  "  quit                      Exit the shell",
  ""]

/-- What is shown of a request that has ended. -/
def report (name here : Bytes) (r : Request) : Except Fault r.Result → Bytes
  | .ok result => unlines (r.lines here result)
  | .error fault => unlines ["Error running " ++ name ++ ": " ++ fault.message]

variable {τ : Type}

/-- Whoever answers requests: it is given the request and the environment, and may fail. -/
abbrev Attendant (τ : Type) := (r : Request) → Bytes → Action τ r.Result

/-- What is written after one line, up to the next prompt, and the environment after it. -/
def respond (attend : Attendant τ) (here line : Bytes) : StateM τ (Bytes × Bytes) :=
  match Command.ofLine? line with
  | none => return ([], here)
  | some (_, .help) => return (unlines helpLines, here)
  | some (_, .env name) => return (unlines ["Environment set to " ++ name], name)
  | some (_, .unknown) => return (unlines ["Unknown command or invalid arguments"], here)
  | some (name, .request r) => return (report name here r (← (attend r here).run), here)

/-- What is written after the first prompt, and the environment at the end. -/
def converse (attend : Attendant τ) : Bytes → List Bytes → StateM τ (Bytes × Bytes)
  | here, [] => return ([], here)
  | here, line :: rest => do
    if line = quit then return ([], here)
    let (text, here) ← respond attend here line
    let (more, here) ← converse attend here rest
    return (text ++ prompt ++ more, here)

/-- All that is written for an input, and the environment at the end. -/
def run (attend : Attendant τ) (here input : Bytes) : StateM τ (Bytes × Bytes) := do
  let (text, here) ← converse attend here (linesOf input)
  return (prompt ++ text, here)

/-- A courier at the console. Missing directories are made, empty ones are left out of the cache, and no
compression is asked for. -/
def attendant {σ : Type} (c : Courier σ) : Attendant (World σ)
  | .files, env => c.source.files env
  | .directories, env => c.source.directories env
  | .emptyDirectories, env => c.source.emptyDirectories env
  | .listCached, env => c.listCached env
  | .listStates, env => c.listStates env
  | .cacheFile url, env => c.cacheFile url env
  | .cacheDir path, env => c.cacheDir path env false
  | .cacheLocalFile path, _ => c.cacheLocalFile path
  | .isCached path, env => c.isCached path env
  | .digest path, env => c.source.digest path env
  | .getState state, env => c.getState state env
  | .getUrl url dest, env => c.getUrl url dest true env
  | .getFile path dest, env => c.getFile { path, dest, makeParents := true, env }
  | .getDir path dest, env => c.getDir path dest env 0

end Console

end FileCourier
