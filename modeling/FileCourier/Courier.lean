import FileCourier.Cache
import FileCourier.Chores
import FileCourier.Settings
import FileCourier.Source
import FileCourier.WebFetch

/-!
The courier: everything that can be done with files from a source and from the web, and with the cache.
-/

/-! ## Engines

Template engines by name. An engine turns a file into a rendered one and says where that is.
-/

namespace FileCourier

/-- What an engine gives: the path of the rendered file, or why there is none. -/
inductive Rendering where
  | rendered (path : Bytes)
  | failed (reason : Bytes)
  deriving DecidableEq, Repr

/-- Values by name. -/
abbrev Parameters := ByteMap Bytes

/-- An engine: it renders a file under parameters. -/
abbrev Engine := Path → Parameters → Action Disk Rendering

/-- The engines. A name can be taken without an engine behind it. -/
abbrev Engines := ByteMap (Option Engine)

namespace Engines

/-- Renders a file with the engine of a name. -/
def render (e : Engines) (name : Bytes) (source : Path) (parameters : Parameters) :
    Action Disk Rendering :=
  match e.get? name with
  | some (some engine) => engine source parameters
  | _ => return .failed ("Unknown template engine: " ++ name)

end Engines

end FileCourier

/-! ## The courier -/

namespace FileCourier

/-- What a courier works with. -/
structure Courier (σ : Type) where
  settings : Settings
  source : Source σ
  web : Web σ
  /-- Whether two directories are on different devices. -/
  apart : Place → Place → Bool := fun _ _ => false
  engines : Engines := .empty

/-- A state file: its virtual path, and where it is kept. -/
structure StateFile where
  source : Bytes
  dest : Bytes
  deriving DecidableEq, Repr

namespace Courier

variable {σ : Type}

/-- The courier over a source, if there is one. -/
def of? (settings : Settings) (source : Option (Source σ)) (web : Web σ)
    (apart : Place → Place → Bool) : Except Fault (Courier σ) :=
  match source with
  | some source => .ok { settings, source, web, apart }
  | none => .error (.misuse .noSource)

def cache (c : Courier σ) : Cache := ⟨c.settings.cachedir⟩

def getFile (c : Courier σ) (r : FileRequest) : Action (World σ) Fetched := c.source.getFile r

/-- The place for the file of a foreign address, or `none` when its directory is missing and must
not be made. Without a destination it lies in the cache. -/
def foreignTarget (c : Courier σ) (url : Url) (dest : Bytes) (makeParents : Bool) (env : Bytes) :
    Action Disk (Option Path) := do
  if dest.isEmpty then return some (← c.cache.foreignDestination env url.host url.path)
  else if ← Chores.prepareParent (Path.parent dest) makeParents then return some dest
  else return none

/-- Gets a file by any address and gives its path, empty when there is no such file. -/
def getUrl (c : Courier σ) (text dest : Bytes) (makeParents : Bool) (env : Bytes) :
    Action (World σ) Bytes := do
  let url := Url.parse text
  if url.isVirtual then
    return (← c.getFile { path := text, dest, makeParents, env }).pathText
  else if url.scheme.isEmpty then throw (.web (.unknownScheme text))
  else
    match ← Action.onDisk (c.foreignTarget url dest makeParents env) with
    | none => return []
    | some target =>
      WebFetch.fetch c.web url target
      return target.text

/-- Gets a file by any address into the cache. -/
def cacheFile (c : Courier σ) (text env : Bytes) : Action (World σ) Bytes := c.getUrl text [] true env

def cacheFiles (c : Courier σ) (texts : List Bytes) (env : Bytes) : Action (World σ) (List Bytes) :=
  texts.mapM fun text => c.cacheFile text env

/-- The addresses between commas. A comma at the end is followed by an empty one. -/
def addresses (text : Bytes) : List Bytes := text.splitOn (Bytes.ascii ',')

/-- Gets every file of an environment into the cache. -/
def cacheMaster (c : Courier σ) (env : Bytes) : Action (World σ) (List Bytes) := do
  match ← c.source.files env with
  | none => return []
  | some files => c.cacheFiles (files.map (VirtualPath.mark ++ ·)) env

def isBlank (s : Bytes) : Bool := s.all fun c => c == 32 || c == 9 || c == 13 || c == 10

/-- The copy root of a virtual directory. -/
def copyRoot (path : Bytes) : Action (World σ) CopyRoot :=
  Action.ofOption (.unmarked path) (CopyRoot.of? path)

/-- Caches the files of a listing and gives the places of those that exist. -/
def cacheListed (c : Courier σ) (files : List Bytes) (env : Bytes) : Action (World σ) (List Bytes) := do
  let places ← files.mapM fun listed => c.cacheFile (VirtualPath.mark ++ listed) env
  return places.filter fun place => !place.isEmpty

/-- Makes the directories of a listing in the cache and gives their places. -/
def cacheDirectories (c : Courier σ) (directories : List Bytes) (env : Bytes) :
    Action (World σ) (List Bytes) :=
  directories.mapM fun (listed : Bytes) => do
    let place := c.cache.filesRoot env / listed
    Action.onDisk (c.cache.ensureDirectory place)
    return place.text

/-- Gets the files below a virtual directory into the cache, with the empty directories if asked
for. -/
def cacheDir (c : Courier σ) (path env : Bytes) (includeEmpty : Bool) : Action (World σ) (List Bytes) := do
  let root ← copyRoot path
  let files := (← c.source.files env).getD []
  let cached ← c.cacheListed (files.filter fun f => !isBlank f && root.contains f) env
  if !includeEmpty then return cached
  let directories := (← c.source.emptyDirectories env).getD []
  return cached ++ (← c.cacheDirectories (directories.filter root.contains) env)

/-- Copies a local file into the cache. -/
def cacheLocalFile (c : Courier σ) (path : Bytes) : Action (World σ) Bytes :=
  Action.onDisk do return (← c.cache.storeLocalFile path).text

/-- Where a listed path goes below a destination. -/
def targetOf (root : CopyRoot) (dest listed : Bytes) : Action (World σ) Path := do
  let relative ← Action.ofOption .pastEnd (root.destination? listed)
  return Path.mk dest / relative

/-- Gets the files of a listing below a destination and gives the places of those that were
stored. -/
def getListed (c : Courier σ) (root : CopyRoot) (dest env : Bytes) (gzip : Int) (files : List Bytes) :
    Action (World σ) (List Bytes) := do
  let places ← files.mapM fun listed => do
    let target ← targetOf root dest listed
    let fetched ← c.getFile
      { path := VirtualPath.mark ++ listed, dest := target.text, makeParents := true, env, gzip }
    return fetched.path?.map fun path => path.text
  return places.filterMap id

/-- Makes the directories of a listing below a destination and gives their places. -/
def makeListed (root : CopyRoot) (dest : Bytes) (directories : List Bytes) :
    Action (World σ) (List Bytes) :=
  directories.mapM fun (listed : Bytes) => do
    let target ← targetOf root dest listed
    Action.onDisk (Chores.makeDirectories target)
    return target.text

/-- Copies a virtual directory with its empty directories below a destination and gives the sorted
places of all that was copied. -/
def getDir (c : Courier σ) (path dest env : Bytes) (gzip : Int) : Action (World σ) (List Bytes) := do
  let root ← copyRoot path
  let files := (← c.source.files env).getD []
  let copied ← c.getListed root dest env gzip (files.filter root.contains)
  let directories := (← c.source.emptyDirectories env).getD []
  let made ← makeListed root dest (directories.filter root.contains)
  return Bytes.sort (copied ++ made)

/-- Puts a rendered file where it was asked for, or in the cache; the answer is empty, and the
rendered file is discarded, when its directory is missing and must not be made. -/
def placeRendered (c : Courier σ) (rendered : Path) (url : Url) (dest : Bytes) (makeParents : Bool)
    (env : Bytes) : Action Disk Bytes := do
  let target : Path := if dest.isEmpty then c.cache.foreignPath env url.host url.path else dest
  if ← Chores.prepareParent target.parent makeParents then
    Chores.move c.apart rendered target
    return target.text
  else
    Chores.discard rendered
    return []

/-- Gets a template, renders it and gives the place of the result; empty when the template or its
engine is missing, or when rendering fails. The environment is among the parameters. -/
def getTemplate (c : Courier σ) (text dest engine : Bytes) (makeParents : Bool) (env : Bytes)
    (parameters : Parameters) : Action (World σ) Bytes := do
  let source ← c.cacheFile text env
  if source.isEmpty || !(← get).disk.isPresent source || !c.engines.contains engine then return []
  match ← Action.onDisk (c.engines.render engine source (parameters.insert "env" env)) with
  | .failed _ => return []
  | .rendered path => Action.onDisk (c.placeRendered path (Url.parse text) dest makeParents env)

/-- The virtual paths under which a state may be found. Dots in its name are slashes in the path. -/
def stateCandidates (state : Bytes) : List Bytes :=
  let path := VirtualPath.mark ++ Bytes.replace state (Bytes.ascii '.') slash
  [path ++ ".sls", path ++ "/init.sls"]

/-- Caches the first of several candidates that exists. -/
def firstState (c : Courier σ) (env : Bytes) : List Bytes → Action (World σ) (Option StateFile)
  | [] => return none
  | candidate :: rest => do
    match ← c.cacheFile candidate env with
    | [] => firstState c env rest
    | dest => return some ⟨candidate, dest⟩

def getState (c : Courier σ) (state env : Bytes) : Action (World σ) (Option StateFile) :=
  c.firstState env (stateCandidates state)

/-- The name of the state that a listed file holds, if it holds one. -/
def stateOf? (file : Bytes) : Option Bytes :=
  let stem (suffix : Bytes) : Option Bytes :=
    if suffix.length < file.length ∧ Bytes.endsWith file suffix then
      some (file.take (file.length - suffix.length))
    else none
  ((stem ".sls").map fun name => (stem "/init.sls").getD name).map fun name =>
    Bytes.replace name slash (Bytes.ascii '.')

def listStates (c : Courier σ) (env : Bytes) : Action (World σ) (List Bytes) :=
  return ((← c.source.files env).getD []).filterMap stateOf?

/-- The paths of the files that are kept for an environment. -/
def listCached (c : Courier σ) (env : Bytes) : Action (World σ) (List Bytes) :=
  Action.looking fun d => (c.cache.listCached env d).map (·.text)

/-- Where a path is kept, empty when it is not. -/
def isCached (c : Courier σ) (path env : Bytes) : Action (World σ) Bytes :=
  Action.looking fun d =>
    match c.cache.isCached path env d with
    | some place => place.text
    | none => []

end Courier

end FileCourier
