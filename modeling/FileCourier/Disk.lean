import FileCourier.Path

/-!
The file system as a value: what stands at each place, and the directory from which relative paths
start. Paths are looked up as the system does: links are followed, at most forty of them, a name has
at most 255 bytes and a path at most 4095, and a path ends at its first NUL.
-/

namespace FileCourier

/-- A place in the file system: the names from the root down. -/
abbrev Place := List Bytes

/-- What stands at a place. -/
inductive Entry where
  | file (executable : Bool) (content : Bytes)
  | dir (mode : Nat)
  | link (target : Bytes)
  deriving DecidableEq, Repr

/-- Why the system refuses. -/
inductive Errno where
  | missing
  | notDirectory
  | tooManyLinks
  | tooLong
  | alreadyThere
  | isDirectory
  | notEmpty
  | invalid
  deriving DecidableEq, Repr

namespace Errno

def message : Errno → Bytes
  | missing => "No such file or directory"
  | notDirectory => "Not a directory"
  | tooManyLinks => "Too many levels of symbolic links"
  | tooLong => "File name too long"
  | alreadyThere => "File exists"
  | isDirectory => "Is a directory"
  | notEmpty => "Directory not empty"
  | invalid => "Invalid argument"

end Errno

/-- The file system. The root is a directory and has no entry of its own. -/
structure Disk where
  entries : List (Place × Entry)
  cwd : Place
  deriving DecidableEq, Repr

namespace Disk

/-- The permissions of a directory that everybody may read. -/
def openMode : Nat := 0o755

/-- The permissions of a directory for its owner alone. -/
def ownerMode : Nat := 0o700

def get? (d : Disk) (p : Place) : Option Entry :=
  if p = [] then some (.dir openMode) else (d.entries.find? fun e => e.1 == p).map (·.2)

/-- Puts an entry at a place, instead of what stands there. -/
def put (d : Disk) (p : Place) (e : Entry) : Disk :=
  { d with entries := (p, e) :: d.entries.filter fun x => x.1 != p }

def drop (d : Disk) (p : Place) : Disk := { d with entries := d.entries.filter fun x => x.1 != p }

/-- Takes every entry strictly below a place away. -/
def clear (d : Disk) (p : Place) : Disk :=
  { d with entries := d.entries.filter fun x => !(p.isPrefixOf x.1 && x.1 != p) }

/-- The names in a directory and what stands at each. -/
def children (d : Disk) (p : Place) : List (Bytes × Entry) :=
  d.entries.filterMap fun x =>
    match x.1.getLast? with
    | some name => if x.1 = p ++ [name] then some (name, x.2) else none
    | none => none

/-- Where a path leads: to an entry, or to a name that is still free in a directory. -/
inductive Spot where
  | at (place : Place) (entry : Entry)
  | free (parent : Place) (name : Bytes)
  deriving DecidableEq, Repr

/-- The place of what is there, or of what can be put there. -/
def Spot.place : Spot → Place
  | .at place _ => place
  | .free parent name => parent ++ [name]

/-- How far the names of a path lead without following a link. -/
inductive Reach where
  | spot (s : Spot)
  | refused (e : Errno)
  | link (dir : Place) (target : Bytes) (rest : List Bytes)
  deriving DecidableEq, Repr

/-- Names longer than this are refused. -/
def maxName : Nat := 255

/-- Paths longer than this are refused. -/
def maxPath : Nat := 4095

/-- So many links are followed on the way. -/
def maxLinks : Nat := 40

/-- Walks from a directory along names up to a link. A link at the end is followed only on
request. -/
def reach (d : Disk) (followLast : Bool) : Place → List Bytes → Reach
  | p, [] =>
    match d.get? p with
    | some e => .spot (.at p e)
    | none => .refused .missing
  | p, c :: r =>
    if c = Path.dot then reach d followLast p r
    else if c = Path.dotDot then reach d followLast p.dropLast r
    else if maxName < c.length then .refused .tooLong
    else
      match d.get? (p ++ [c]) with
      | none => if r = [] ∧ d.get? p ≠ none then .spot (.free p c) else .refused .missing
      | some (.dir _) => reach d followLast (p ++ [c]) r
      | some (.file x s) => if r = [] then .spot (.at (p ++ [c]) (.file x s)) else .refused .notDirectory
      | some (.link t) =>
        if r = [] ∧ !followLast then .spot (.at (p ++ [c]) (.link t)) else .link p t r

/-- The names along which a path is walked. A slash at its end asks for a directory. -/
def route (text : Bytes) : List Bytes :=
  (Path.mk text).names ++ if (Path.mk text).endsInSlash then [Path.dot] else []

/-- The directory at which the walk along a path starts, seen from `here`. -/
def origin (here : Place) (text : Bytes) : Place := if (Path.mk text).isAbsolute then [] else here

/-- Walks along names and follows links. -/
def follow (d : Disk) (followLast : Bool) : Nat → Place → List Bytes → Except Errno Spot
  | budget, p, names =>
    match reach d followLast p names with
    | .spot s => .ok s
    | .refused e => .error e
    | .link dir target rest =>
      match budget with
      | 0 => .error .tooManyLinks
      | budget + 1 => follow d followLast budget (origin dir target) (route target ++ rest)

/-- The part of a path that the system reads. -/
def systemText (p : Path) : Bytes := p.text.untilNul

def locate (d : Disk) (followLast : Bool) (text : Bytes) : Except Errno Spot :=
  if text.isEmpty then .error .missing
  else if maxPath < text.length then .error .tooLong
  else follow d followLast maxLinks (origin d.cwd text) (route text)

/-- The spot to which a path leads, links followed. -/
def find (d : Disk) (p : Path) : Except Errno Spot := d.locate true (systemText p)

/-- What stands at the end of a path, links followed. -/
def entryAt? (d : Disk) (p : Path) : Option Entry :=
  match d.find p with
  | .ok (.at _ e) => some e
  | _ => none

def isDirectory (d : Disk) (p : Path) : Bool :=
  match d.entryAt? p with
  | some (.dir _) => true
  | _ => false

def isFile (d : Disk) (p : Path) : Bool :=
  match d.entryAt? p with
  | some (.file _ _) => true
  | _ => false

def isPresent (d : Disk) (p : Path) : Bool := (d.entryAt? p).isSome

/-- Why the system cannot even say whether anything stands at a path, if it cannot. -/
def unknowable? (d : Disk) (p : Path) : Option Errno :=
  match d.find p with
  | .error .missing | .error .notDirectory | .ok _ => none
  | .error e => some e

def isExecutable (d : Disk) (p : Path) : Bool :=
  match d.entryAt? p with
  | some (.file x _) => x
  | some (.dir mode) => mode &&& 0o111 != 0
  | _ => false

/-- What can be read at a path, and the place it is read from. A directory can be opened, but
nothing can be read from it. -/
def read (d : Disk) (p : Path) : Except Errno (Place × Bytes) :=
  match d.find p with
  | .ok (.at place (.file _ content)) => .ok (place, content)
  | .ok (.at place _) => .ok (place, [])
  | .ok (.free _ _) => .error .missing
  | .error e => .error e

def makeDirectory (d : Disk) (p : Path) : Except Errno Disk :=
  let text := systemText p
  if maxPath < text.length then .error .tooLong
  else
    match d.locate false (if (Path.mk text).names.isEmpty then text else Path.trimEnd text) with
    | .ok (.at _ _) => .error .alreadyThere
    | .ok (.free parent name) => .ok (d.put (parent ++ [name]) (.dir openMode))
    | .error e => .error e

/-- Gives the directory at the end of a path other permissions. -/
def setMode (d : Disk) (p : Path) (mode : Nat) : Disk :=
  match d.find p with
  | .ok (.at place (.dir _)) => d.put place (.dir mode)
  | _ => d

/-- Opens a file to be written from its start: it is made, or emptied if it exists. -/
def openForWriting (d : Disk) (p : Path) : Except Errno (Place × Disk) :=
  match d.find p with
  | .ok (.at place (.file x _)) => .ok (place, d.put place (.file x []))
  | .ok (.at _ _) => .error .isDirectory
  | .ok (.free parent name) => .ok (parent ++ [name], d.put (parent ++ [name]) (.file false []))
  | .error e => .error e

/-- Adds bytes to the end of the file at a place. -/
def append (d : Disk) (place : Place) (s : Bytes) : Disk :=
  match d.get? place with
  | some (.file x content) => d.put place (.file x (content ++ s))
  | _ => d

/-- The spot of the last name of a path, with that name not followed and slashes after it ignored.
A path that ends in a step to a directory, or that has no name, names nothing that can be removed or
moved. -/
def locateName (d : Disk) (text : Bytes) : Except Errno Spot :=
  match (Path.mk text).names.getLast? with
  | none => if text.isEmpty then .error .missing else .error .invalid
  | some last =>
    if last = Path.dot ∨ last = Path.dotDot then
      match d.locate true text with
      | .ok _ => .error .invalid
      | .error e => .error e
    else if maxPath < text.length then .error .tooLong
    else d.locate false (Path.trimEnd text)

/-- Removes a file, a link or an empty directory; `none` when nothing stands at the path. -/
def remove (d : Disk) (p : Path) : Except Errno (Option Disk) :=
  let text := systemText p
  match d.locateName text with
  | .error .missing => .ok none
  | .error e => .error e
  | .ok (.free _ _) => .ok none
  | .ok (.at place (.dir _)) =>
    if (d.children place).isEmpty then .ok (some (d.drop place)) else .error .notEmpty
  | .ok (.at place _) =>
    if (Path.mk text).endsInSlash then .error .notDirectory else .ok (some (d.drop place))

/-- The disk without what lies below the directory at a path; `none` when nothing stands at the
path. Nothing lies below anything but a directory. -/
def emptied (d : Disk) (p : Path) : Except Errno (Option Disk) :=
  let text := systemText p
  let last := (Path.mk text).names.getLastD []
  let followLast := (Path.mk text).endsInSlash || last == Path.dot || last == Path.dotDot
  match d.locate followLast text with
  | .ok (.at place (.dir _)) => .ok (some (d.clear place))
  | .ok (.free _ _) | .error .missing => .ok none
  | .ok (.at _ _) | .error .notDirectory | .error .tooManyLinks => .ok (some d)
  | .error e => .error e

/-- Moves everything at and below a place to another place, where nothing stands. -/
def move (d : Disk) (source target : Place) : Disk :=
  { d with
    entries := d.entries.map fun x =>
      if source.isPrefixOf x.1 then (target ++ x.1.drop source.length, x.2) else x }

/-- Renames what stands at a path. A file or link takes the place of a file or link, a directory
that of an empty directory. -/
def rename (d : Disk) (source target : Path) : Except Errno Disk :=
  let sourceText := systemText source
  let targetText := systemText target
  match d.locateName sourceText, d.locateName targetText with
  | .error e, _ => .error e
  | _, .error e => .error e
  | .ok (.free _ _), _ => .error .missing
  | .ok (.at old entry), .ok spot =>
    match entry with
    | .dir _ =>
      match spot with
      | .free parent name =>
        if old.isPrefixOf (parent ++ [name]) then .error .invalid
        else .ok (d.move old (parent ++ [name]))
      | .at new (.dir _) =>
        if old = new then .ok d
        else if old.isPrefixOf new then .error .invalid
        else if (d.children new).isEmpty then .ok ((d.drop new).move old new)
        else .error .notEmpty
      | .at _ _ => .error .notDirectory
    | _ =>
      if (Path.mk sourceText).endsInSlash || (Path.mk targetText).endsInSlash then
        .error .notDirectory
      else
        match spot with
        | .free parent name => .ok (d.move old (parent ++ [name]))
        | .at _ (.dir _) => .error .isDirectory
        | .at new _ => if old = new then .ok d else .ok ((d.drop new).move old new)

/-- Whether a name and the name that it is to be given are in directories on different devices, where
nothing is renamed from one to the other. -/
def crosses (d : Disk) (apart : Place → Place → Bool) (source target : Path) : Bool :=
  match d.locateName (systemText source), d.locateName (systemText target) with
  | .ok old, .ok new => apart old.place.dropLast new.place.dropLast
  | _, _ => false

/-- Why no file is made at a path that leads to nothing. -/
def whyNotMade (d : Disk) (p : Path) (cause : Errno) : Errno :=
  match d.locateName (systemText p) with
  | .error e => e
  | .ok _ => if (Path.mk (systemText p)).endsInSlash then .isDirectory else cause

/-- Copies a file with its permissions. Links are followed on both sides, and a file at the target is
overwritten. -/
def copyFile (d : Disk) (source target : Path) : Except Errno Disk :=
  match d.find target, d.find source with
  | .error .tooManyLinks, _ => .error .tooManyLinks
  | .error .tooLong, _ => .error .tooLong
  | _, .error e => .error e
  | _, .ok (.free _ _) => .error .missing
  | .ok (.at new (.file _ _)), .ok (.at old (.file x content)) =>
    if old = new then .error .alreadyThere else .ok (d.put new (.file x content))
  | .ok (.free parent name), .ok (.at _ (.file x content)) =>
    .ok (d.put (parent ++ [name]) (.file x content))
  | .error e, .ok (.at _ (.file _ _)) => .error (d.whyNotMade target e)
  | _, .ok (.at _ _) => .error .invalid

/-- No more directories than this are made for one path. -/
def maxMissing : Nat := 1000

/-- The directories that are missing on the way to a path, the deepest first, up to one that exists
or can never exist; at most `room` of them. -/
def missing (d : Disk) : Nat → Nat → Path → Except Errno (List Path)
  | 0, _, _ => .error .tooLong
  | fuel + 1, room, p => do
    let here := if p.filename = Path.dot ∨ p.filename = Path.dotDot then [] else [p]
    if room < here.length then .error .tooLong
    else
      let above := p.parent
      if above.isEmpty then return here
      else
        match d.find above with
        | .ok (.at _ (.dir _)) => return here
        | .ok (.at _ _) => .error .notDirectory
        | .ok (.free _ _) | .error .missing | .error .notDirectory =>
          if above = p then return here
          else return here ++ (← missing d fuel (room - here.length) above)
        | .error e => .error e

/-- Makes one directory after the other; one that has meanwhile come to exist is no failure. -/
def makeEach (d : Disk) : List Path → Except Errno Unit × Disk
  | [] => (.ok (), d)
  | p :: r =>
    match d.makeDirectory p with
    | .ok d => makeEach d r
    | .error .alreadyThere =>
      if d.isDirectory p then makeEach d r else (.error .alreadyThere, d)
    | .error e => (.error e, d)

/-- Makes a directory and those above it that are missing. A failure leaves the directories made so
far. -/
def makeDirectories (d : Disk) (p : Path) : Except Errno Unit × Disk :=
  if p.isEmpty then (.error .invalid, d)
  else
    match d.find p with
    | .ok (.at _ (.dir _)) => (.ok (), d)
    | .ok (.at _ _) => (.error .notDirectory, d)
    | .ok (.free _ _) | .error .missing | .error .notDirectory =>
      -- Each step up leaves a shorter text.
      match d.missing (p.text.length + 1) maxMissing (if p.endsInSlash then p.parent else p) with
      | .error e => (.error e, d)
      | .ok l => d.makeEach l.reverse
    | .error e => (.error e, d)

/-- What is found below a directory: the names from that directory on, and the entry under the last of
them. -/
structure Found where
  names : List Bytes
  path : Path
  entry : Entry
  deriving DecidableEq, Repr

namespace Found

/-- Whether a file was found. Only a link is looked up by its path. -/
def isFile (d : Disk) (f : Found) : Bool :=
  match f.entry with
  | .file _ _ => true
  | .dir _ => false
  | .link _ => d.isFile f.path

/-- Whether a directory was found. Only a link is looked up by its path. -/
def isDirectory (d : Disk) (f : Found) : Bool :=
  match f.entry with
  | .file _ _ => false
  | .dir _ => true
  | .link _ => d.isDirectory f.path

end Found

/-- Everything below the directory at `place`, reached by the path `here`. Links to directories are
entered as long as the path that leads through them can be looked up. -/
def walk (d : Disk) : Nat → List Bytes → Path → Place → List Found
  | 0, _, _, _ => []
  | fuel + 1, names, here, place =>
    (d.children place).flatMap fun (name, entry) =>
      let path := here / name
      let found : Found := ⟨names ++ [name], path, entry⟩
      match entry with
      | .file _ _ => [found]
      | .dir _ => found :: walk d fuel (names ++ [name]) path (place ++ [name])
      | .link _ =>
        match d.find path with
        | .ok (.at target (.dir _)) => found :: walk d fuel (names ++ [name]) path target
        | _ => [found]

/-- Everything below a directory, nothing if the path does not lead to one. -/
def below (d : Disk) (root : Path) : List Found :=
  match d.find root with
  | .ok (.at place (.dir _)) => d.walk (maxPath + 1) [] root place
  | _ => []

/-- Whether a path leads to a directory without entries. -/
def isEmptyDirectory (d : Disk) (p : Path) : Bool :=
  match d.find p with
  | .ok (.at place (.dir _)) => (d.children place).isEmpty
  | _ => false

end Disk

end FileCourier
