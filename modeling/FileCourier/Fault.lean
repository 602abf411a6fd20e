import FileCourier.Attempt
import FileCourier.Cipher.Envelope
import FileCourier.Cipher.KeyFile
import FileCourier.Digest
import FileCourier.Disk
import FileCourier.Gzip
import FileCourier.Message.Wire
import FileCourier.Settings
import FileCourier.Url

/-!
Every way in which an action can fail, and the wording of each.
-/

namespace FileCourier

/-- Why a file is not stored. -/
inductive StoreError where
  | noDirectory (path : Path)
  | unreadable (path : Path)
  | notCreated (path : Path)
  | notOpened (path : Path)
  | notWritten (path : Path)
  deriving DecidableEq, Repr

namespace StoreError

def message : StoreError → Bytes
  | noDirectory path => "Cache store: Failed to create directory: " ++ path.text
  | unreadable path => "Cache store: Failed to open local file: " ++ path.text
  | notCreated path => "Cache store: Failed to create file: " ++ path.text
  | notOpened path => "Remote client: Failed to open file: " ++ path.text
  | notWritten path => "Remote client: Failed to write file: " ++ path.text

end StoreError

/-- A file operation that the system refused and that nothing else can replace. -/
structure SystemError where
  action : Bytes
  cause : Errno
  paths : List Path
  deriving DecidableEq, Repr

namespace SystemError

def bracket (p : Path) : Bytes := " [" ++ p.text ++ "]"

def message (e : SystemError) : Bytes :=
  "filesystem error: " ++ e.action ++ ": " ++ e.cause.message ++ e.paths.flatMap bracket

end SystemError

/-- A call that no argument can make right. -/
inductive Misuse where
  | kindTooLong (kind : Bytes)
  | noChannel
  | noSource
  deriving DecidableEq, Repr

namespace Misuse

def message : Misuse → Bytes
  | kindTooLong kind => "TCP channel: Request kind too long: " ++ kind
  | noChannel => "Master channel: Channel and crypticle are required"
  | noSource => "Client: A file backend is required"

end Misuse

/-- Why an action failed. -/
inductive Fault where
  | unmarked (path : Bytes)
  | missingFile (path : Path)
  | web (cause : WebError)
  | key (cause : KeyError)
  | envelope (cause : EnvelopeError)
  | digest (cause : DigestError)
  | wire (cause : WireError)
  | unreachable (what : Bytes) (last : NetworkError)
  | store (cause : StoreError)
  | gzip (cause : GzipError)
  | settings (cause : SettingsError)
  | misuse (cause : Misuse)
  /-- A listed path is shorter than what is cut off it. -/
  | pastEnd
  | system (cause : SystemError)
  | yaml (cause : YamlError)
  /-- The patience of the caller is exhausted. -/
  | impatient
  deriving DecidableEq, Repr

namespace Fault

/-- The full wording. -/
def wording : Fault → Bytes
  | unmarked path => "Unsupported path: " ++ path
  | missingFile path => "Specified file " ++ path.text ++ " is not present to generate hash"
  | web cause => cause.message
  | key cause => cause.message
  | envelope cause => cause.message
  | digest cause => cause.message
  | wire cause => cause.message
  | unreachable what _ => what
  | store cause => cause.message
  | gzip cause => cause.message
  | settings cause => cause.message
  | misuse cause => cause.message
  | pastEnd => "Position past the end"
  | system cause => cause.message
  | yaml cause => cause.message
  | impatient => "Patience exhausted"

/-- The wording as it is shown, which ends before the first NUL. -/
def message (f : Fault) : Bytes := f.wording.untilNul

end Fault

end FileCourier
