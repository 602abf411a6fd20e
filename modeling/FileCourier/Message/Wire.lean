import FileCourier.Message

/-!
The wire form of messages. All numbers are big endian:

    count:u32, then for each field  length:u32 key tag:u8 value

A truth value is one byte, an integer eight; a string is its length as eight bytes and its bytes; a
list is its count as four bytes and its strings; a map is its count as four bytes and, for each
name, the name and its list. Fields and names are written in the order of their bytes.

A reader takes what it needs from the front of the input and returns the rest, so that several
messages can stand one after the other.
-/

namespace FileCourier

/-- Why an input holds no message. -/
inductive WireError where
  /-- An earlier read has already run past the end. -/
  | unreadable
  | inputEnded
  | unknownTag
  | lengthOutOfRange
  deriving DecidableEq, Repr

namespace WireError

def message : WireError → Bytes
  | unreadable => "Codec: Invalid input stream"
  | inputEnded => "Codec: Failed to read from input stream"
  | unknownTag => "Codec: Unknown field tag"
  | lengthOutOfRange => "Codec: String length out of range"

end WireError

namespace Wire

/-- A read that failed: its cause, and what a later read finds. After running past the end nothing
can be read any more. -/
structure Failure where
  cause : WireError
  unread : Option Bytes
  deriving DecidableEq

/-- Takes a value from the front of the input. -/
abbrev Reader := StateT Bytes (Except Failure)

/-- No string is longer than this. -/
def maxLength : Nat := 1 <<< 32

/-- The next `n` bytes. -/
def take (n : Nat) : Reader Bytes := fun s =>
  if n ≤ s.length then .ok (s.take n, s.drop n) else .error ⟨.inputEnded, none⟩

/-- A number of `width` bytes. -/
def readNat (width : Nat) : Reader Nat := return Bytes.ofBigEndian (← take width)

/-- Stops with an error that leaves the rest of the input readable. -/
def refuse {α : Type} (cause : WireError) : Reader α := fun s => .error ⟨cause, some s⟩

/-- The same reader `n` times. -/
def readMany {α : Type} (read : Reader α) : Nat → Reader (List α)
  | 0 => return []
  | n + 1 => do
    let x ← read
    return x :: (← readMany read n)

def readString : Reader Bytes := do
  let n ← readNat 8
  if n ≤ maxLength then take n else refuse .lengthOutOfRange

def readList : Reader (List Bytes) := do readMany readString (← readNat 4)

def readEntry : Reader (Bytes × List Bytes) := return (← readString, ← readList)

/-- A value after its tag. -/
def readValueOf (tag : Nat) : Reader Value :=
  match tag with
  | 0 => return .bool ((← readNat 1) != 0)
  | 1 => return .int (Int64.ofNat (← readNat 8))
  | 2 => return .bytes (← readString)
  | 3 => return .list (← readList)
  | 4 => return .map (.ofList (← readMany readEntry (← readNat 4)))
  | _ => refuse .unknownTag

/-- A key, a tag and a value. -/
def readField : Reader (Bytes × Value) := do
  let key ← take (← readNat 4)
  let tag ← readNat 1
  return (key, ← readValueOf tag)

/-- A message. Of two fields with one name the later counts. -/
def readMessage : Reader Message := do
  return .ofList (← readMany readField (← readNat 4))

def writeString (s : Bytes) : Bytes := Bytes.bigEndian 8 s.length ++ s

def writeList (l : List Bytes) : Bytes := Bytes.bigEndian 4 l.length ++ l.flatMap writeString

def writeEntry (e : Bytes × List Bytes) : Bytes := writeString e.1 ++ writeList e.2

/-- The tag that tells the kinds of value apart. -/
def tag : Value → UInt8
  | .bool _ => 0
  | .int _ => 1
  | .bytes _ => 2
  | .list _ => 3
  | .map _ => 4

/-- A value without its tag. -/
def writeValue : Value → Bytes
  | .bool b => [if b then 1 else 0]
  | .int n => Bytes.bigEndian 8 n.toUInt64.toNat
  | .bytes s => writeString s
  | .list l => writeList l
  | .map m => Bytes.bigEndian 4 m.size ++ m.toList.flatMap writeEntry

def writeField (f : Bytes × Value) : Bytes :=
  Bytes.bigEndian 4 f.1.length ++ f.1 ++ tag f.2 :: writeValue f.2

/-- The wire form of a message. -/
def write (m : Message) : Bytes :=
  Bytes.bigEndian 4 m.fields.size ++ m.fields.toList.flatMap writeField

def stringSize (s : Bytes) : Nat := 8 + s.length

def listSize (l : List Bytes) : Nat := 4 + total stringSize l

def entrySize (e : Bytes × List Bytes) : Nat := stringSize e.1 + listSize e.2

/-- How many bytes a value takes without its tag. -/
def valueSize : Value → Nat
  | .bool _ => 1
  | .int _ => 8
  | .bytes s => stringSize s
  | .list l => listSize l
  | .map m => 4 + total entrySize m.toList

def fieldSize (f : Bytes × Value) : Nat := 4 + f.1.length + 1 + valueSize f.2

/-- How many bytes are reported as written, added up part by part. -/
def size (m : Message) : Nat := 4 + total fieldSize m.fields.toList

/-- The message at the front of a byte string; bytes after it do not count. -/
def read (s : Bytes) : Except WireError Message :=
  match readMessage.run s with
  | .ok (m, _) => .ok m
  | .error e => .error e.cause

/-- The next message of an input that is read piece by piece. `none` stands for an input that an
earlier read has run past. -/
def readNext : Option Bytes → Except WireError Message × Option Bytes
  | none => (.error .unreadable, none)
  | some s =>
    match readMessage.run s with
    | .ok (m, rest) => (.ok m, some rest)
    | .error e => (.error e.cause, e.unread)

/-- The next `n` messages of an input, and what is left of it. -/
def readEach : Nat → Option Bytes → List (Except WireError Message) × Option Bytes
  | 0, s => ([], s)
  | n + 1, s =>
    let (r, s) := readNext s
    let (l, s) := readEach n s
    (r :: l, s)

end Wire

end FileCourier
