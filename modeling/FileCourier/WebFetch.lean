import FileCourier.Chores
import FileCourier.Url

/-!
Fetching a file from an address that is not the master's. The file is made when the first chunk of a
response arrives that is no error, so that the text of an error page is not stored. A fetch that
fails leaves no file.
-/

namespace FileCourier

/-- Whatever carries out transfers. -/
abbrev Web (σ : Type) := WebRequest → Action σ Transfer

/-- What has been received of a transfer: where its body goes, once that is open, and the status of
the last response. -/
structure Reception where
  place : Option Place := none
  status : Int := 0
  reason : Bytes := []
  deriving DecidableEq, Repr

namespace Reception

/-- The number at the front of a text: white space, a sign and digits, within 64 bits. A text that
has none counts as zero. -/
def number (s : Bytes) : Int :=
  let s := s.dropWhile Bytes.isSpace
  let (negative, s) :=
    match s with
    | c :: r =>
      if c = Bytes.ascii '-' then (true, r) else if c = Bytes.ascii '+' then (false, r) else (false, s)
    | [] => (false, [])
  let n : Int := (s.takeWhile Bytes.isDigit).foldl (fun n d => 10 * n + (d.toNat - 48)) 0
  if negative then max (-n) Int64.minValue.toInt else min n Int64.maxValue.toInt

/-- A text without the line ends at its end. -/
def chomp (s : Bytes) : Bytes := (s.reverse.dropWhile fun c => c == 13 || c == 10).reverse

/-- Takes a line of a header. A status line replaces the status. -/
def takeHeader (r : Reception) (line : Bytes) : Reception :=
  if !List.isPrefixOf ("HTTP/" : Bytes) line then r
  else
    match Bytes.breakAt? " " line with
    | none => r
    | some (_, rest) =>
      { r with
        status := number rest
        reason := match Bytes.breakAt? " " rest with
          | some (_, reason) => chomp reason
          | none => [] }

/-- Whether the last response is an error. -/
def isError (r : Reception) : Bool := 400 ≤ r.status

/-- Opens the file, unless it is open; `none` when it cannot be opened. -/
def openFile (r : Reception) (dest : Path) (d : Disk) : Option (Place × Disk) :=
  match r.place with
  | some place => some (place, d)
  | none =>
    match d.openForWriting dest with
    | .ok opened => some opened
    | .error _ => none

/-- Takes a chunk of a body. The answer is false when it cannot be stored. -/
def takeBody (r : Reception) (dest : Path) (chunk : Bytes) (d : Disk) : Bool × Reception × Disk :=
  if r.isError then (true, r, d)
  else
    match r.openFile dest d with
    | some (place, d) => (true, { r with place := some place }, d.append place chunk)
    | none => (chunk.isEmpty, r, d)

/-- Takes what arrives one after the other, until something is not taken. -/
def takeAll (dest : Path) : List WebEvent → Reception → Disk → Bool × Reception × Disk
  | [], r, d => (true, r, d)
  | .header line :: rest, r, d => takeAll dest rest (r.takeHeader line) d
  | .body chunk :: rest, r, d =>
    match r.takeBody dest chunk d with
    | (true, r, d) => takeAll dest rest r d
    | (false, r, d) => (false, r, d)

end Reception

namespace WebFetch

variable {σ : Type}

/-- The reason of a transfer that ends because a chunk was not taken. -/
def notTaken : Bytes := "Failure writing output to destination"

/-- The schemes under which user and password are sent. -/
def sendsLogin (url : Url) : Bool := url.scheme == "http" || url.scheme == "https"

/-- What is asked for under an address. User and password are not part of it. A text ends before its
first NUL. -/
def requestOf (url : Url) : WebRequest :=
  { url := url.withoutCredentials.untilNul
    login :=
      if sendsLogin url then url.credentials.map fun (user, password) =>
        (user.untilNul, password.untilNul)
      else none }

/-- Stores what a transfer brings. -/
def store (url : Url) (dest : Path) (t : Transfer) : Action Disk Unit := do
  let (taken, r, d) := Reception.takeAll dest t.events {} (← get)
  set d
  let shown := url.withoutCredentials
  if r.isError then
    Chores.discard dest
    throw (.web (.status r.status shown r.reason))
  match if taken then t.broken else some notTaken with
  | some reason =>
    Chores.discard dest
    throw (.web (.broken shown reason))
  | none =>
    match r.openFile dest (← get) with
    | some (_, d) => set d
    | none => throw (.web (.unwritable shown dest.text))

def fetch (web : Web σ) (url : Url) (dest : Path) : Action (World σ) Unit := do
  Action.onDisk (store url dest (← Action.onBeyond (web (requestOf url))))

end WebFetch

end FileCourier
