import FileCourier.Bytes

/-!
Words of a command line. A text is quoted so that a shell reads it as one word whatever it holds:
between single quotes every byte stands for itself, and a single quote is written outside of them,
after a backslash. A reader of words follows the same rules.
-/

namespace FileCourier.ShellWord

def quote : UInt8 := Bytes.ascii '\''

def backslash : UInt8 := Bytes.ascii '\\'

/-- The inside of a quoted text: at each single quote the quotes are closed and opened again. -/
def escape (s : Bytes) : Bytes :=
  s.flatMap fun c => if c = quote then [quote, backslash, quote, quote] else [c]

def write (s : Bytes) : Bytes := quote :: (escape s ++ [quote])

/-! ## How a shell reads words -/

def isBlank (c : UInt8) : Bool := c == 32 || c == 9

/-- The bytes by which a shell may do something else than read a word, unless they are quoted:
operators, expansions, patterns, comments, assignments, braces and double quotes. -/
def special : Bytes := "|&;<>()\n$`\"*?[#~=%!\x7b\x7d"

/-- Where a reader of words stands. -/
inductive Place where
  /-- Outside of quotes, in a word if one has begun. -/
  | plain (word : Option Bytes)
  /-- Behind a backslash. -/
  | escaped (word : Option Bytes)
  /-- Between single quotes. They begin a word, even when nothing stands between them. -/
  | quoted (word : Bytes)
  deriving DecidableEq, Repr

/-- A reader of words: the words that have ended, and where it stands. -/
structure Reader where
  words : List Bytes := []
  place : Place := .plain none
  deriving DecidableEq, Repr

namespace Reader

/-- Reads a byte by the rules for single quotes and backslashes. There is no NUL in a command line,
and nothing is said of a special byte that is not quoted. -/
def step? (r : Reader) (c : UInt8) : Option Reader :=
  if c = 0 then none
  else
    match r.place with
    | .plain word =>
      if c = quote then some ⟨r.words, .quoted (word.getD [])⟩
      else if c = backslash then some ⟨r.words, .escaped word⟩
      else if isBlank c then some ⟨r.words ++ word.toList, .plain none⟩
      else if special.contains c then none
      else some ⟨r.words, .plain (some (word.getD [] ++ [c]))⟩
    | .escaped word =>
      -- A backslash at the end of a line joins it to the next one.
      if c = 10 then some ⟨r.words, .plain word⟩
      else some ⟨r.words, .plain (some (word.getD [] ++ [c]))⟩
    | .quoted word =>
      if c = quote then some ⟨r.words, .plain (some word)⟩
      else some ⟨r.words, .quoted (word ++ [c])⟩

def read? (r : Reader) (text : Bytes) : Option Reader := text.foldlM step? r

end Reader

/-- The words of a text in which every quote is closed and nothing follows other rules. -/
def words? (text : Bytes) : Option (List Bytes) :=
  match ({} : Reader).read? text with
  | some ⟨words, .plain word⟩ => some (words ++ word.toList)
  | _ => none

end FileCourier.ShellWord
