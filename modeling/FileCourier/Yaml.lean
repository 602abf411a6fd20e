import FileCourier.Bytes

/-!
Documents: `null`, scalars, lists and mappings, nested freely. A scalar is a text; what kind of value it
spells is decided by whoever asks for it. A library parses documents and converts values (`Library`);
one of them is given here, for documents in flow style with lists in brackets and mappings in braces
(`flow`). An empty document is null.
-/

namespace FileCourier

/-- A document or a part of one. -/
inductive Yaml where
  | null
  | scalar (text : Bytes)
  | list (items : List Yaml)
  | map (entries : List (Yaml × Yaml))
  deriving Inhabited

/-- Why a document, or a value in it, cannot be read. -/
inductive YamlError where
  | unreadableFile (file : Bytes)
  | malformed
  | badConversion
  deriving DecidableEq, Repr

namespace YamlError

def message : YamlError → Bytes
  | unreadableFile file => "bad file: " ++ file
  | malformed => "malformed document"
  | badConversion => "bad conversion"

end YamlError

namespace Yaml

/-- White space between tokens. -/
def isBlank (c : UInt8) : Bool := c == 32 || c == 9 || c == 10 || c == 13

/-- A byte that a word may hold. -/
def isWord (c : UInt8) : Bool :=
  !isBlank c && !("\x2c\x3a\x5b\x5d\x7b\x7d\x22\x23" : Bytes).contains c

/-- The input after white space. -/
def trim (s : Bytes) : Bytes := s.dropWhile isBlank

/-- The byte that an escape in a quoted scalar stands for. -/
def unescape? (c : UInt8) : Option UInt8 :=
  if c = Bytes.ascii '"' ∨ c = Bytes.ascii '\\' ∨ c = Bytes.ascii '/' then some c
  else if c = Bytes.ascii 'n' then some 10
  else if c = Bytes.ascii 't' then some 9
  else none

/-- The text up to the closing quote, and what follows it. -/
def quoted? : Bytes → Option (Bytes × Bytes)
  | [] => none
  | [c] => if c = Bytes.ascii '"' then some ([], []) else none
  | c :: d :: r =>
    if c = Bytes.ascii '"' then some ([], d :: r)
    else if c = Bytes.ascii '\\' then do
      let c ← unescape? d
      let (text, rest) ← quoted? r
      return (c :: text, rest)
    else (quoted? (d :: r)).map fun (text, rest) => (c :: text, rest)

/-- The meaning of a word. -/
def ofWord (word : Bytes) : Yaml := if word == "null" || word == "~" then null else scalar word

mutual

/-- A value, after white space, and what follows it. -/
def value? : Nat → Bytes → Option (Yaml × Bytes)
  | 0, _ => none
  | fuel + 1, s =>
    match trim s with
    | [] => none
    | c :: r =>
      if c = Bytes.ascii '"' then (quoted? r).map fun (text, rest) => (scalar text, rest)
      else if c = Bytes.ascii '[' then
        (items? fuel r).map fun (items, rest) => (list items, rest)
      else if c = Bytes.ascii '\x7b' then
        (entries? fuel r).map fun (entries, rest) => (map entries, rest)
      else if isWord c then some (ofWord ((c :: r).takeWhile isWord), (c :: r).dropWhile isWord)
      else none

/-- The items up to a closing bracket, and what follows it. -/
def items? : Nat → Bytes → Option (List Yaml × Bytes)
  | 0, _ => none
  | fuel + 1, s =>
    match trim s with
    | [] => none
    | c :: r =>
      if c = Bytes.ascii ']' then some ([], r)
      else do
        let (item, rest) ← value? fuel (c :: r)
        let (items, rest) ←
          match trim rest with
          | [] => none
          | c :: r =>
            if c = Bytes.ascii ',' then items? fuel r
            else if c = Bytes.ascii ']' then some ([], r)
            else none
        return (item :: items, rest)

/-- The entries up to a closing brace, and what follows it. A key without value is given null. -/
def entries? : Nat → Bytes → Option (List (Yaml × Yaml) × Bytes)
  | 0, _ => none
  | fuel + 1, s =>
    match trim s with
    | [] => none
    | c :: r =>
      if c = Bytes.ascii '\x7d' then some ([], r)
      else do
        let (key, rest) ← value? fuel (c :: r)
        let (value, rest) ←
          match trim rest with
          | [] => none
          | c :: r =>
            if c = Bytes.ascii ':' then
              match trim r with
              | [] => none
              | c :: r =>
                if c = Bytes.ascii ',' ∨ c = Bytes.ascii '\x7d' then some (null, c :: r)
                else value? fuel (c :: r)
            else some (null, c :: r)
        let (entries, rest) ←
          match trim rest with
          | [] => none
          | c :: r =>
            if c = Bytes.ascii ',' then entries? fuel r
            else if c = Bytes.ascii '\x7d' then some ([], r)
            else none
        return ((key, value) :: entries, rest)

end

/-- The document that a text spells. -/
def parse (s : Bytes) : Except YamlError Yaml :=
  if (trim s).isEmpty then .ok null
  else
    match value? (s.length + 1) s with
    | some (doc, rest) => if (trim rest).isEmpty then .ok doc else .error .malformed
    | none => .error .malformed

/-- The first entry of a mapping whose key is the scalar `key`. -/
def get? (doc : Yaml) (key : Bytes) : Option Yaml :=
  match doc with
  | map entries =>
    (entries.find? fun e => match e.1 with
      | scalar text => text == key
      | _ => false).map (·.2)
  | _ => none

/-- The number that decimal digits spell. -/
def ofDigits (digits : Bytes) : Nat := digits.foldl (fun n d => 10 * n + (d.toNat - 48)) 0

/-- The number that digits spell which nothing but white space follows. -/
def numeral? (s : Bytes) : Option Nat :=
  let digits := s.takeWhile Bytes.isDigit
  if digits.isEmpty || !(s.dropWhile Bytes.isDigit).all Bytes.isSpace then none
  else some (ofDigits digits)

/-- The number that such digits spell after a sign or none. -/
def signed? : Bytes → Option Int
  | [] => none
  | c :: r =>
    if c = Bytes.ascii '-' then (numeral? r).map fun n => -Int.ofNat n
    else if c = Bytes.ascii '+' then (numeral? r).map Int.ofNat
    else (numeral? (c :: r)).map Int.ofNat

/-- The number of 32 bits that decimal digits spell between white space. -/
def number? (text : Bytes) : Option Int32 :=
  match signed? (text.dropWhile Bytes.isSpace) with
  | none => none
  | some n => if n < -2147483648 ∨ 2147483647 < n then none else some (.ofInt n)

/-- What a library makes of texts and of the values in documents. Releases differ in what they make of
nulls and of numbers that are not spelled plainly. -/
structure Library where
  /-- The document that a text spells. -/
  parse : Bytes → Except YamlError Yaml
  /-- The text of a null, if it has one. -/
  nullText? : Option Bytes
  /-- The number that the text of a scalar spells. -/
  number? : Bytes → Option Int32

namespace Library

/-- The text that a value is converted to. -/
def asText (l : Library) : Yaml → Except YamlError Bytes
  | scalar text => .ok text
  | null =>
    match l.nullText? with
    | some text => .ok text
    | none => .error .badConversion
  | _ => .error .badConversion

/-- The number that a value is converted to. -/
def asInt (l : Library) : Yaml → Except YamlError Int
  | scalar text =>
    match l.number? text with
    | some n => .ok n.toInt
    | none => .error .badConversion
  | _ => .error .badConversion

end Library

/-- The library of documents in flow style. A null has no text, and numbers are decimal. -/
def flow : Library where
  parse := parse
  nullText? := none
  number? := number?

end Yaml

end FileCourier
