import FileCourier.Bytes

/-!
Small shell scripts: commands one after the other, each a line of words with quotes and with the
arguments of the script. The commands are `printf`, `echo` and `exit`; any other writes nothing.
-/

namespace FileCourier.Rehearsal.Script

/-- How the words of a command are read. -/
inductive Mode where
  | plain
  | single
  | double
  | comment
  deriving DecidableEq, Repr

/-- What has been read of a script: the commands, the words of the command that is being read, and
the word that is being read, if one has begun. -/
structure State where
  mode : Mode := .plain
  commands : List (List Bytes) := []
  words : List Bytes := []
  word : Option Bytes := none
  deriving DecidableEq, Repr

namespace State

def push (s : State) (text : Bytes) : State := { s with word := some (s.word.getD [] ++ text) }

def endWord (s : State) : State :=
  match s.word with
  | some word => { s with words := s.words ++ [word], word := none }
  | none => s

def endCommand (s : State) : State :=
  let s := s.endWord
  if s.words.isEmpty then s else { s with commands := s.commands ++ [s.words], words := [] }

/-- Adds the value of a parameter. Outside of quotes white space in it separates words. -/
def expand (s : State) (value : Bytes) : State :=
  if s.mode = .double then s.push value
  else value.foldl (fun s c => if Bytes.isSpace c then s.endWord else s.push [c]) s

end State

/-- The value of a parameter: the number of arguments, all of them, or one. -/
def parameter (arguments : List Bytes) (c : UInt8) : Option Bytes :=
  if c = Bytes.ascii '#' then some (Bytes.ofNat (arguments.length - 1))
  else if c = Bytes.ascii '@' ∨ c = Bytes.ascii '*' then
    some (arguments.tail.intersperse [32]).flatten
  else if Bytes.isDigit c then some (arguments.getD (c.toNat - 48) [])
  else none

/-- Reads a script on from a state. -/
def read (arguments : List Bytes) : State → Bytes → State
  | s, [] => s.endCommand
  | s, [c] =>
    match s.mode with
    | .plain =>
      if c = 10 ∨ c = Bytes.ascii ';' ∨ Bytes.isSpace c then s.endCommand else (s.push [c]).endCommand
    | _ => s.endCommand
  | s, c :: d :: r =>
    match s.mode with
    | .comment => if c = 10 then read arguments { s with mode := .plain } (d :: r)
      else read arguments s (d :: r)
    | .single =>
      if c = Bytes.ascii '\'' then read arguments { s with mode := .plain } (d :: r)
      else read arguments (s.push [c]) (d :: r)
    | .double =>
      if c = Bytes.ascii '"' then read arguments { s with mode := .plain } (d :: r)
      else if c = Bytes.ascii '\\' ∧ ("$`\"\\" : Bytes).contains d then
        read arguments (s.push [d]) r
      else if c = Bytes.ascii '$' then
        match parameter arguments d with
        | some value => read arguments (s.expand value) r
        | none => read arguments (s.push [c]) (d :: r)
      else read arguments (s.push [c]) (d :: r)
    | .plain =>
      if c = Bytes.ascii '\'' then
        read arguments { s.push [] with mode := .single } (d :: r)
      else if c = Bytes.ascii '"' then
        read arguments { s.push [] with mode := .double } (d :: r)
      else if c = Bytes.ascii '\\' then
        read arguments (if d = 10 then s else s.push [d]) r
      else if c = Bytes.ascii '$' then
        match parameter arguments d with
        | some value => read arguments (s.expand value) r
        | none => read arguments (s.push [c]) (d :: r)
      else if c = 10 ∨ c = Bytes.ascii ';' then read arguments s.endCommand (d :: r)
      else if Bytes.isSpace c then read arguments s.endWord (d :: r)
      else if c = Bytes.ascii '#' ∧ s.word = none then
        read arguments { s with mode := .comment } (d :: r)
      else read arguments (s.push [c]) (d :: r)

/-- The commands of a script under arguments, the first of which is its own name. -/
def parse (arguments : List Bytes) (script : Bytes) : List (List Bytes) :=
  (read arguments {} script).commands

/-- The byte that a letter stands for after a backslash. -/
def escape? (c : UInt8) : Option UInt8 :=
  if c = Bytes.ascii 'n' then some 10
  else if c = Bytes.ascii 't' then some 9
  else if c = Bytes.ascii 'r' then some 13
  else if c = Bytes.ascii '\\' then some c
  else none

/-- Writes a format once: its text, and the arguments that are left. -/
def format : Bytes → List Bytes → Bytes × List Bytes
  | [], arguments => ([], arguments)
  | [c], arguments => ([c], arguments)
  | c :: d :: r, arguments =>
    if c = Bytes.ascii '\\' then
      match escape? d, format r arguments with
      | some e, (text, arguments) => (e :: text, arguments)
      | none, (text, arguments) => (c :: d :: text, arguments)
    else if c = Bytes.ascii '%' then
      if d = c then
        match format r arguments with
        | (text, arguments) => (c :: text, arguments)
      else
        match format r arguments.tail with
        | (text, rest) => (arguments.headD [] ++ text, rest)
    else
      match format (d :: r) arguments with
      | (text, arguments) => (c :: text, arguments)

/-- Writes a format again and again until no argument is left. -/
def formatAll (f : Bytes) : Nat → List Bytes → Bytes
  | 0, _ => []
  | n + 1, arguments =>
    match format f arguments with
    | (text, rest) =>
      text ++ if rest.isEmpty || rest.length = arguments.length then [] else formatAll f n rest

/-- Whether a word sends the output elsewhere. -/
def redirects (word : Bytes) : Bool :=
  (">" : Bytes).isPrefixOf word || ("1>" : Bytes).isPrefixOf word

def output (words : List Bytes) : Bytes :=
  if words.any redirects then []
  else
    match words with
    | name :: first :: rest =>
      if name == "printf" then formatAll first (rest.length + 1) rest
      else if name == "echo" then ((first :: rest).intersperse [32]).flatten ++ [10]
      else []
    | [name] => if name == "echo" then [10] else []
    | [] => []

/-- What commands write, up to one that ends the script. -/
def outputs (commands : List (List Bytes)) : Bytes :=
  (commands.takeWhile fun words => words.head? != some (Bytes.ofString "exit")).flatMap output

/-- What a script writes under arguments, the first of which is its own name. -/
def run (arguments : List Bytes) (script : Bytes) : Bytes := outputs (parse arguments script)

end FileCourier.Rehearsal.Script
