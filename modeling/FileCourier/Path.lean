import FileCourier.Bytes

/-!
Paths as they are written. A path is kept as its text: joining and taking parents work on the text,
and nothing is resolved or simplified unless asked for. `components` is how a path is walked,
`normal` its simplest spelling as components.
-/

namespace FileCourier

/-- The separator of the components of a path. -/
def slash : UInt8 := Bytes.ascii '/'

/-- A path as it is written. -/
structure Path where
  text : Bytes
  deriving DecidableEq, Repr

namespace Path

instance : Inhabited Path := ⟨⟨[]⟩⟩

instance : Coe Bytes Path := ⟨Path.mk⟩

/-- The component of the directory itself. -/
def dot : Bytes := "."

/-- The component of the directory above. -/
def dotDot : Bytes := ".."

/-- Whether the path starts at the root. -/
def isAbsolute (p : Path) : Bool := p.text.head? == some slash

def isEmpty (p : Path) : Bool := p.text.isEmpty

/-- The names between the slashes. -/
def names (p : Path) : List Bytes := (p.text.splitOn slash).filter fun n => !n.isEmpty

/-- Whether a slash follows the last name. -/
def endsInSlash (p : Path) : Bool := p.text.getLast? == some slash && !p.names.isEmpty

/-- The components one after the other: a slash for the root, the names, and an empty one when a
slash follows the last name. -/
def components (p : Path) : List Bytes :=
  (if p.isAbsolute then [[slash]] else []) ++ p.names ++ (if p.endsInSlash then [[]] else [])

/-- The path `q` seen from `p`. An absolute `q` stays as it is, and an empty one adds a slash. -/
def join (p q : Path) : Path :=
  if q.isAbsolute || p.isEmpty then q
  else if p.text.getLast? == some slash then ⟨p.text ++ q.text⟩
  else ⟨p.text ++ slash :: q.text⟩

instance : HDiv Path Path Path := ⟨join⟩

instance : HDiv Path Bytes Path := ⟨fun p q => join p ⟨q⟩⟩

instance : HDiv Path String Path := ⟨fun p q => join p ⟨Bytes.ofString q⟩⟩

/-- A text without the slashes at its end. -/
def trimEnd (s : Bytes) : Bytes := (s.reverse.dropWhile (· == slash)).reverse

/-- The path without its last component. The root is its own parent, and the parent of a single name
is empty. -/
def parent (p : Path) : Path :=
  if p.names.isEmpty then p
  else if p.endsInSlash then ⟨trimEnd p.text⟩
  else
    let head := (p.text.reverse.dropWhile (· != slash)).reverse
    let trimmed := trimEnd head
    if trimmed.isEmpty && !head.isEmpty then ⟨[slash]⟩ else ⟨trimmed⟩

/-- The last component: empty for the root and for a path that ends in a slash. -/
def filename (p : Path) : Bytes := if p.endsInSlash then [] else p.names.getLastD []

/-- The spelling of a path while it is simplified: whether it starts at the root, its names, and
whether a slash follows them. -/
structure Normal where
  absolute : Bool
  names : List Bytes
  slashed : Bool
  deriving DecidableEq, Repr

namespace Normal

/-- One more component. The directory itself only leaves a slash, the directory above takes the last
name away, unless that is itself a step up or there is none. -/
def push (n : Normal) (c : Bytes) : Normal :=
  if c = dot ∨ c = [] then { n with slashed := !n.names.isEmpty }
  else if c = dotDot then
    match n.names.getLast? with
    | none => if n.absolute then n else { n with names := [dotDot], slashed := false }
    | some last =>
      if last = dotDot then { n with names := n.names ++ [dotDot], slashed := false }
      else { n with names := n.names.dropLast, slashed := !n.names.dropLast.isEmpty }
  else { n with names := n.names ++ [c], slashed := false }

/-- The components. No slash follows a step up, and the directory itself is a single dot. -/
def components (n : Normal) : List Bytes :=
  if n.names.isEmpty then [if n.absolute then [slash] else dot]
  else
    (if n.absolute then [[slash]] else []) ++ n.names ++
      (if n.slashed && n.names.getLast? != some dotDot then [[]] else [])

end Normal

/-- The components of the simplest path that means the same when no link is followed. -/
def normal (p : Path) : List Bytes :=
  if p.isEmpty then []
  else
    ((p.names ++ if p.endsInSlash then [[]] else []).foldl Normal.push
      ⟨p.isAbsolute, [], false⟩).components

/-- Whether a path lies, by its spelling, at or below another. -/
def isWithin (p root : Path) : Bool := (root.normal.filter fun c => !c.isEmpty).isPrefixOf p.normal

/-- What paths are ordered by: relative ones first, then component by component. -/
def key (p : Path) : List Bytes :=
  (if p.isAbsolute then [slash] else []) ::
    (p.names ++ if p.endsInSlash then [[]] else [])

/-- Path order, component by component. -/
def le (p q : Path) : Bool := decide (p.key ≤ q.key)

/-- A path before a sorted list; it takes the place of the first one there if that is the same. -/
def prepend (p : Path) : List Path → List Path
  | [] => [p]
  | q :: r => if p.key = q.key then p :: r else p :: q :: r

/-- The paths in path order, each once. -/
def sortUnique (l : List Path) : List Path := (l.mergeSort le).foldr prepend []

end Path

end FileCourier
