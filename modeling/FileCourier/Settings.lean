import FileCourier.Bytes
import FileCourier.Message
import FileCourier.Yaml

/-!
The options of a client, and how grave a log record must be to be kept.
-/

namespace FileCourier

/-- The gravity of a log record. -/
inductive Severity where
  | trace
  | debug
  | info
  | warning
  | error
  | fatal
  deriving DecidableEq, Repr

namespace Severity

def name : Severity → Bytes
  | trace => "trace"
  | debug => "debug"
  | info => "info"
  | warning => "warning"
  | error => "error"
  | fatal => "fatal"

def all : List Severity := [trace, debug, info, warning, error, fatal]

/-- The severity of a name; a name that is none stands for `warning`. -/
def ofName (name : Bytes) : Severity := (all.find? fun s => s.name == name).getD warning

end Severity

end FileCourier

/-! ## Options

The options of a client are read from a document. What the document leaves out, or sets to null, keeps
its default.
-/

namespace FileCourier

/-- The options of a client. -/
structure Settings where
  cachedir : Bytes
  /-- `local` serves files from `fileRoots`; anything else asks the master. -/
  fileClient : Bytes
  /-- For each environment its directories; earlier ones win. -/
  fileRoots : ByteMap (List Bytes)
  hashType : Bytes
  externalNodes : Bytes
  id : Bytes
  master : Bytes
  masterPort : Int
  keyFile : Bytes
  requestTries : Int
  requestTimeout : Int
  logFile : Bytes
  logLevel : Bytes

/-- Why there are no settings. -/
inductive SettingsError where
  | unreadable (file : Bytes) (cause : YamlError)
  | unparsable (cause : YamlError)
  | notMapping
  | rootsNotMapping
  | portOutOfRange (port : Int)
  | notPositive
  deriving DecidableEq, Repr

namespace SettingsError

def message : SettingsError → Bytes
  | unreadable file cause => "Failed to read configuration " ++ file ++ ": " ++ cause.message
  | unparsable cause => "Failed to parse configuration: " ++ cause.message
  | notMapping => "Configuration must be a mapping"
  | rootsNotMapping => "file_roots must map environments to lists of directories"
  | portOutOfRange port => "master_port out of range: " ++ Bytes.ofInt port
  | notPositive => "request_tries and request_timeout must be positive"

end SettingsError

namespace Settings

/-- The options of an empty document. -/
def defaults : Settings where
  cachedir := "/var/cache/fileclient"
  fileClient := "remote"
  fileRoots := .ofList [("base", ["/srv/salt"])]
  hashType := "md5"
  externalNodes := []
  id := []
  master := "salt"
  masterPort := 4506
  keyFile := []
  requestTries := 3
  requestTimeout := 60
  logFile := []
  logLevel := "warning"

/-- Whether files are served from local directories. -/
def isLocal (s : Settings) : Bool := s.fileClient == "local"

/-- An option of the document, converted by `read`; the default when it is absent or null. -/
def option {α : Type} (doc : Yaml) (key : Bytes) (read : Yaml → Except YamlError α) (default : α) :
    Except YamlError α :=
  match doc.get? key with
  | none | some .null => .ok default
  | some value => read value

/-- The directories of one environment: a list of scalars, or a single one. Anything else stands
for none. -/
def readRoots (l : Yaml.Library) : Yaml → Except YamlError (List Bytes)
  | .list items => items.mapM l.asText
  | .scalar text => .ok [text]
  | _ => .ok []

/-- The directories of each environment. -/
def readAllRoots (l : Yaml.Library) (entries : List (Yaml × Yaml)) :
    Except YamlError (ByteMap (List Bytes)) := do
  let pairs ← entries.mapM fun (env, roots) => return (← l.asText env, ← readRoots l roots)
  return .ofList pairs

/-- The directories that a document lists, or the default ones. -/
def fileRootsOption (l : Yaml.Library) (blame : YamlError → SettingsError) (doc : Yaml) :
    Except SettingsError (ByteMap (List Bytes)) :=
  match doc.get? "file_roots" with
  | none | some .null => .ok defaults.fileRoots
  | some (.map entries) => (readAllRoots l entries).mapError blame
  | some _ => .error .rootsNotMapping

/-- The options of a mapping, before ranges are checked. `blame` says how a value that cannot be
converted is reported. -/
def ofMapping (l : Yaml.Library) (blame : YamlError → SettingsError) (doc : Yaml) :
    Except SettingsError Settings := do
  let base := defaults
  let text (key : Bytes) (default : Bytes) : Except SettingsError Bytes :=
    (option doc key l.asText default).mapError blame
  let number (key : Bytes) (default : Int) : Except SettingsError Int :=
    (option doc key l.asInt default).mapError blame
  let cachedir ← text "cachedir" base.cachedir
  let fileClient ← text "file_client" base.fileClient
  let hashType ← text "hash_type" base.hashType
  let externalNodes ← text "external_nodes" base.externalNodes
  let id ← text "id" base.id
  let master ← text "master" base.master
  let masterPort ← number "master_port" base.masterPort
  let keyFile ← text "key_file" base.keyFile
  let requestTries ← number "request_tries" base.requestTries
  let requestTimeout ← number "request_timeout" base.requestTimeout
  let logFile ← text "log_file" base.logFile
  let logLevel ← text "log_level" base.logLevel
  let fileRoots ← fileRootsOption l blame doc
  return { cachedir, fileClient, fileRoots, hashType, externalNodes, id, master, masterPort, keyFile,
           requestTries, requestTimeout, logFile, logLevel }

/-- The settings, if the numbers in them make sense. -/
def check (s : Settings) : Except SettingsError Settings :=
  if s.masterPort ≤ 0 ∨ 65535 < s.masterPort then .error (.portOutOfRange s.masterPort)
  else if s.requestTries < 1 ∨ s.requestTimeout < 1 then .error .notPositive
  else .ok s

/-- The settings with the name of the host as the name of the client, when it has none. -/
def named (host : Bytes) (s : Settings) : Settings := if s.id.isEmpty then { s with id := host } else s

/-- The settings of a document. -/
def ofDocument (l : Yaml.Library) (blame : YamlError → SettingsError) (host : Bytes) (doc : Yaml) :
    Except SettingsError Settings :=
  match doc with
  | .null => .ok (named host defaults)
  | .map _ => ((ofMapping l blame doc).bind check).map (named host)
  | _ => .error .notMapping

/-- The settings of a text on the host `host`; `blame` says how a text that is no document, or a value
that cannot be converted, is reported. -/
def read (l : Yaml.Library) (blame : YamlError → SettingsError) (host text : Bytes) :
    Except SettingsError Settings :=
  match l.parse text with
  | .error e => .error (blame e)
  | .ok doc => ofDocument l blame host doc

/-- The settings of a text on the host `host`. -/
def parse (l : Yaml.Library) (host text : Bytes) : Except SettingsError Settings :=
  read l .unparsable host text

/-- The settings of a file on the host `host`; `text?` is what the file holds, if it can be read. -/
def load (l : Yaml.Library) (host file : Bytes) (text? : Option Bytes) :
    Except SettingsError Settings :=
  match text? with
  | none => .error (.unreadable file (.unreadableFile file))
  | some text => read l (.unreadable file) host text

/-- The options as a message, which is how they are shown and sent. -/
def toMessage (s : Settings) : Message :=
  .ofList [
    ("cachedir", .bytes s.cachedir),
    ("file_client", .bytes s.fileClient),
    ("file_roots", .map s.fileRoots),
    ("hash_type", .bytes s.hashType),
    ("external_nodes", .bytes s.externalNodes),
    ("id", .bytes s.id),
    ("master", .bytes s.master),
    ("master_port", .int (.ofInt s.masterPort)),
    ("request_tries", .int (.ofInt s.requestTries)),
    ("request_timeout", .int (.ofInt s.requestTimeout)),
    ("log_level", .bytes s.logLevel)]

end Settings

end FileCourier
