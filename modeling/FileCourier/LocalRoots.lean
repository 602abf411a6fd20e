import FileCourier.ByteMap
import FileCourier.Settings
import FileCourier.ShellWord
import FileCourier.Source
import FileCourier.VirtualPath
import FileCourier.Yaml

/-!
Files from directories on this host, and the classes that an external classifier on this host gives.
-/

/-! ## Classes

The answer of an external classifier is a document that names an environment and the classes of a client.
-/

namespace FileCourier.NodeClasses

/-- The environment of a document: a scalar, or the default one. -/
def environment (doc : Yaml) : Bytes :=
  match doc.get? "environment" with
  | some (.scalar text) => text
  | _ => VirtualPath.defaultEnv

/-- The names of the classes: the keys of a mapping or the items of a list, in document order.
Anything else names none. -/
def names? (l : Yaml.Library) : Yaml → Except YamlError (Option (List Bytes))
  | .map entries => ((entries.map (·.1)).mapM l.asText).map some
  | .list items => (items.mapM l.asText).map some
  | _ => .ok none

/-- The classes for each environment that a text gives. A text that is no document, or a document of
another shape, gives none; a name that has no text is an error. -/
def read (l : Yaml.Library) (text : Bytes) : Except YamlError (ByteMap (List Bytes)) :=
  match l.parse text with
  | .error _ => .ok .empty
  | .ok doc =>
    match doc.get? "classes" with
    | none => .ok .empty
    | some classes =>
      (names? l classes).map fun
        | some names => .ofList [(environment doc, names)]
        | none => .empty

end FileCourier.NodeClasses

/-! ## Roots

Each environment has its directories, its roots; a file is
taken from the first root that holds it, and a listing gives one root after the other.
-/

namespace FileCourier

/-- What is needed to serve files from local directories. -/
structure LocalRoots (σ : Type) where
  settings : Settings
  digests : Digests
  yaml : Yaml.Library
  /-- The directories in which commands are looked up, separated by colons, if they are known. -/
  searchPath : Option Bytes
  /-- Runs a command line and gives what it writes. -/
  run : Bytes → Action (World σ) Bytes

namespace LocalRoots

variable {σ : Type}

def rootsOf (s : Settings) (env : Bytes) : List Path := ((s.fileRoots.get? env).getD []).map Path.mk

/-- The path below a root that a virtual path stands for. It never leads to the root of the system,
and nothing has no path. -/
def relative? (path : Bytes) : Option Bytes :=
  match VirtualPath.dropSlashes (VirtualPath.unescape path) with
  | [] => none
  | relative => some relative

/-- The file that a virtual path stands for, the mark left out. -/
def find (s : Settings) (path env : Bytes) (d : Disk) : Option Path :=
  (relative? path).bind fun relative =>
    ((rootsOf s env).map fun root => root / relative).find? d.isFile

/-- What lies below one root. -/
structure Contents where
  files : List Bytes := []
  directories : List Bytes := []
  emptyDirectories : List Bytes := []
  deriving DecidableEq, Repr

/-- A path below a root as it is listed. -/
def listed (names : List Bytes) : Bytes := (names.intersperse [slash]).flatten

/-- What lies below a root, sorted. The root itself is listed as a dot, and everything that is not a
directory is listed as a file. -/
def contents (d : Disk) (root : Path) : Contents :=
  if !d.isDirectory root then {}
  else
    let found := d.below root
    let directories := found.filter fun f => f.isDirectory d
    { files := Bytes.sort ((found.filter fun f => !f.isDirectory d).map fun f => listed f.names)
      directories := Bytes.sort (Path.dot :: directories.map fun f => listed f.names)
      emptyDirectories := Bytes.sort
        ((if d.isEmptyDirectory root then [Path.dot] else []) ++
          (directories.filter fun f => d.isEmptyDirectory f.path).map fun f => listed f.names) }

/-- One listing of an environment, root after root. -/
def listing (s : Settings) (part : Contents → List Bytes) (env : Bytes) (d : Disk) : List Bytes :=
  (rootsOf s env).flatMap fun root => part (contents d root)

/-- The file that a marked path stands for. -/
def resolve (s : Settings) (path env : Bytes) : Action (World σ) (Option Path) := do
  let relative ← Action.ofOption (.unmarked path) (VirtualPath.strip? path)
  return find s relative env (← get).disk

/-- The place of a file. Nothing is copied. -/
def getFile (s : Settings) (r : FileRequest) : Action (World σ) Fetched := do
  match ← resolve s r.path r.env with
  | some path => return .stored path
  | none => return .notFound

/-- The digest of a file below the roots, or of a local file. -/
def digest (l : LocalRoots σ) (path env : Bytes) : Action (World σ) (Option DigestRecord) := do
  let disk := (← get).disk
  match VirtualPath.strip? path with
  | none =>
    return some (← Action.ofExcept id (DigestRecord.ofFile l.digests disk path Digest.defaultName))
  | some relative =>
    match find l.settings relative env disk with
    | none => return none
    | some found =>
      return some
        (← Action.ofExcept id (DigestRecord.ofFile l.digests disk found l.settings.hashType))

/-- The entries of a list separated by colons. A colon at the end starts no entry. -/
def entries (searchPath : Bytes) : List Bytes :=
  let parts := searchPath.splitOn (Bytes.ascii ':')
  if parts.getLast? = some [] then parts.dropLast else parts

/-- Whether a command can be run: by its path if it has a slash, and else by its name in one of the
directories of the search path, where an empty entry is the working directory. -/
def isRunnable (searchPath : Option Bytes) (command : Bytes) (d : Disk) : Bool :=
  if command.contains slash then d.isExecutable command
  else
    match searchPath with
    | none => false
    | some searchPath =>
      (entries searchPath).any fun dir =>
        let candidate : Path := Path.mk (if dir.isEmpty then Path.dot else dir) / command
        d.isFile candidate && d.isExecutable candidate

/-- The command line that classifies the client. -/
def commandLine (s : Settings) : Bytes := s.externalNodes ++ " " ++ ShellWord.write s.id

/-- The classes that the external classifier gives. There are none without one, or when it cannot
be run. -/
def classes (l : LocalRoots σ) : Action (World σ) (ByteMap (List Bytes)) := do
  if l.settings.externalNodes.isEmpty then return .empty
  else if !isRunnable l.searchPath l.settings.externalNodes (← get).disk then return .empty
  else
    let text ← l.run (commandLine l.settings)
    Action.ofExcept .yaml (NodeClasses.read l.yaml text)

def source (l : LocalRoots σ) : Source σ where
  getFile := getFile l.settings
  files env := return some (listing l.settings (·.files) env (← get).disk)
  directories env := return some (listing l.settings (·.directories) env (← get).disk)
  emptyDirectories env := return some (listing l.settings (·.emptyDirectories) env (← get).disk)
  environment env := return some (listing l.settings (·.files) env (← get).disk)
  digest := l.digest
  options := return some l.settings.toMessage
  classes := return some (← l.classes)

end LocalRoots

end FileCourier
