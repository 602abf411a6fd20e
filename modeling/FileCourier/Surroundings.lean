import FileCourier.Courier
import FileCourier.LocalRoots
import FileCourier.MasterFiles

/-!
What a host offers to a courier, and the courier that its settings describe.
-/

namespace FileCourier

/-- What a host offers. -/
structure Surroundings (σ : Type) where
  hostName : Bytes
  digests : Digests
  yaml : Yaml.Library
  /-- The directories in which commands are looked up, separated by colons. -/
  searchPath : Option Bytes
  /-- Runs a command line and gives what it writes. -/
  run : Bytes → Action (World σ) Bytes
  dial : Dialer σ
  /-- Sixteen fresh random bytes. -/
  fresh : Action σ Aes.Block
  web : Web σ
  /-- Whether two directories are on different devices. -/
  apart : Place → Place → Bool
  /-- How many replies are awaited for one file. -/
  patience : Nat

namespace Surroundings

variable {σ : Type}

/-- The bytes of the key in a key file whose digits `decode?` decodes. A directory is opened like a file,
and fails only when it is read. -/
def loadKeyBy (decode? : Bytes → Option Bytes) (file : Path) (d : Disk) : Except KeyError Bytes :=
  if d.isDirectory file then .error .directory
  else
    match d.read file with
    | .error _ => .error (.unreadable file.text)
    | .ok (_, text) => KeyFile.read decode? file.text text

/-- The bytes of the key in a key file. -/
def loadKey (file : Path) (d : Disk) : Except KeyError Bytes := loadKeyBy Base64.decode? file d

/-- The session key in a key file. -/
def loadSessionKey (file : Path) (d : Disk) : Except KeyError SessionKey := do
  match SessionKey.ofBytes? (← loadKey file d) with
  | some key => return key
  | none => throw .wrongSize

/-- The settings in a file. -/
def loadSettings (s : Surroundings σ) (file : Bytes) (d : Disk) : Except SettingsError Settings :=
  Settings.load s.yaml s.hostName file
    (match d.read file with
      | .ok (_, text) => some text
      | .error _ => none)

def localSource (s : Surroundings σ) (settings : Settings) : Source σ :=
  LocalRoots.source
    { settings, digests := s.digests, yaml := s.yaml, searchPath := s.searchPath, run := s.run }

def masterSource (s : Surroundings σ) (settings : Settings) (link : MasterLink σ) : Source σ :=
  MasterFiles.source { settings, digests := s.digests, ask := link.ask, patience := s.patience }

/-- The link to the master that the settings name. -/
def link (s : Surroundings σ) (settings : Settings) (key : SessionKey) : MasterLink σ where
  channel := Line.channel s.dial ⟨settings.master, .ofInt settings.masterPort⟩
  key := key
  fresh := s.fresh
  tries := settings.requestTries
  timeout := settings.requestTimeout

/-- The courier that the settings describe. -/
def courier (s : Surroundings σ) (settings : Settings) : Action (World σ) (Courier σ) := do
  if settings.isLocal then
    return { settings, source := s.localSource settings, web := s.web, apart := s.apart }
  else
    let key ← Action.ofExcept .key (loadSessionKey settings.keyFile (← get).disk)
    return { settings, source := s.masterSource settings (s.link settings key), web := s.web,
             apart := s.apart }

end Surroundings

end FileCourier
