import FileCourier.Console
import FileCourier.Surroundings

/-!
The program: its arguments, and what it writes from start to end.
-/

namespace FileCourier

/-- What is wrong with the arguments. -/
inductive ArgumentError where
  | unknown (argument : Bytes)
  | noValue (flag : Bytes)
  | noSettings
  deriving DecidableEq, Repr

/-- What the arguments say. -/
structure Arguments where
  settingsFile : Bytes := []
  env : Bytes := VirtualPath.defaultEnv
  deriving DecidableEq, Repr

namespace Arguments

/-- Reads flags with their values. What was read before an error counts. -/
def read (a : Arguments) : List Bytes → Option ArgumentError × Arguments
  | [] => (if a.settingsFile.isEmpty then some .noSettings else none, a)
  | [flag] =>
    (some (if flag == "-c" || flag == "--config" || flag == "-e" || flag == "--env" then .noValue flag
      else .unknown flag), a)
  | flag :: value :: rest =>
    if flag == "-c" || flag == "--config" then read { a with settingsFile := value } rest
    else if flag == "-e" || flag == "--env" then read { a with env := value } rest
    else (some (.unknown flag), a)

/-- What arguments say. An argument ends before its first NUL. -/
def parse (arguments : List Bytes) : Option ArgumentError × Arguments :=
  read {} (arguments.map Bytes.untilNul)

end Arguments

namespace ArgumentError

def message : ArgumentError → Bytes
  | unknown argument => "Unknown argument: " ++ argument
  | noValue flag => "Missing value for " ++ flag
  | noSettings => "A configuration file is required"

end ArgumentError

namespace Program

/-- How the program is called. -/
def usage (name : Bytes) : Bytes :=
  Console.unlines [
    "Usage: " ++ name ++ " -c <config> [-e <environment>]",
    "Required arguments:",
    "  -c, --config  Configuration file (YAML)",
    "Optional arguments:",
    "  -e, --env     Environment, defaults to base",
    "Example: " ++ name ++ " -c /etc/fileclient/minion.yaml -e base"]

/-- What is written when the arguments are wrong. -/
def complaint (name : Bytes) (e : ArgumentError) : Bytes :=
  Console.unlines ["Error: " ++ e.message] ++ usage name

/-- What a run of the program leaves. -/
structure Outcome where
  exitCode : Nat
  output : Bytes := []
  errors : Bytes := []
  deriving DecidableEq, Repr

variable {σ : Type}

/-- The courier that the settings in a file describe. -/
def start (s : Surroundings σ) (settingsFile : Bytes) : Action (World σ) (Courier σ) := do
  s.courier (← Action.ofExcept .settings (s.loadSettings settingsFile (← get).disk))

def run (s : Surroundings σ) (name : Bytes) (arguments : List Bytes) (input : Bytes) :
    StateM (World σ) Outcome := do
  match Arguments.parse arguments with
  | (some e, _) => return { exitCode := 1, errors := complaint name.untilNul e }
  | (none, a) =>
    match ← (start s a.settingsFile).run with
    | .error fault =>
      return { exitCode := 1,
               errors := Console.unlines ["Error: Failed to start file client: " ++ fault.message] }
    | .ok courier =>
      let (output, _) ← Console.run (Console.attendant courier) a.env input
      return { exitCode := 0, output }

end Program

end FileCourier
