import FileCourier.Bytes

/-!
Key files: a session key in base 64, with white space anywhere.
-/

/-! ## Base 64

Three bytes as four digits, a last group of one or two bytes filled up with `=`.
-/

namespace FileCourier.Base64

/-- The digit of a number below sixty-four. -/
def digit (n : Nat) : UInt8 :=
  UInt8.ofNat <|
    if n < 26 then 65 + n
    else if n < 52 then 71 + n
    else if n < 62 then n - 4
    else if n = 62 then 43
    else 47

/-- The value of a digit; the filler `=` counts as zero wherever it stands. -/
def value? (c : UInt8) : Option Nat :=
  let n := c.toNat
  if 65 ≤ n ∧ n ≤ 90 then some (n - 65)
  else if 97 ≤ n ∧ n ≤ 122 then some (n - 71)
  else if 48 ≤ n ∧ n ≤ 57 then some (n + 4)
  else if n = 43 then some 62
  else if n = 47 then some 63
  else if n = 61 then some 0
  else none

def encode : Bytes → Bytes
  | [] => []
  | [a] => [digit (a.toNat / 4), digit (a.toNat % 4 * 16), 61, 61]
  | [a, b] =>
    [digit (a.toNat / 4), digit (a.toNat % 4 * 16 + b.toNat / 16), digit (b.toNat % 16 * 4), 61]
  | a :: b :: c :: r =>
    digit (a.toNat / 4) :: digit (a.toNat % 4 * 16 + b.toNat / 16) ::
      digit (b.toNat % 16 * 4 + c.toNat / 64) :: digit (c.toNat % 64) :: encode r

/-- Three bytes for each four digits, fillers included, if there are whole groups of digits only. -/
def decodeGroups? : Bytes → Option Bytes
  | [] => some []
  | a :: b :: c :: d :: r => do
    let n := (((← value? a) * 64 + (← value? b)) * 64 + (← value? c)) * 64 + (← value? d)
    return UInt8.ofNat (n / 65536) :: UInt8.ofNat (n / 256) :: UInt8.ofNat n :: (← decodeGroups? r)
  | _ => none

/-- The text without the dashes at its end, of which the first three bytes are never taken. -/
def dropDashes (s : Bytes) : Bytes :=
  s.take 3 ++ ((s.drop 3).reverse.dropWhile (· == 45)).reverse

/-- Three bytes for each four digits of a text that dashes may follow. -/
def decode? (s : Bytes) : Option Bytes := decodeGroups? (dropDashes s)

end FileCourier.Base64

/-! ## Keys -/

namespace FileCourier

/-- Why there is no session key. -/
inductive KeyError where
  | unreadable (file : Bytes)
  | malformed (file : Bytes)
  | wrongSize
  /-- The file is a directory, which can be opened but not read. -/
  | directory
  /-- A length is more than a container takes. -/
  | overlong (request : Bytes)
  deriving DecidableEq, Repr

namespace KeyError

/-- Whether the error is one that is announced: the others come from the library underneath. -/
def isAnnounced : KeyError → Bool
  | unreadable _ | malformed _ | wrongSize => true
  | directory | overlong _ => false

def message : KeyError → Bytes
  | unreadable file => "Initialization error: Failed to open key file: " ++ file
  | malformed file => "Initialization error: Malformed key file: " ++ file
  | wrongSize => "Initialization error: Invalid key size"
  | directory => "basic_filebuf::underflow error reading the file: Is a directory"
  | overlong request => request

end KeyError

namespace KeyFile

/-- A size as a signed number of thirty-two bits, which is how it is passed on. -/
def passed (size : Nat) : Int := (Int32.ofNat size).toInt

/-- The written form of a key. Its length comes back as a signed number, too. -/
def write (key : Bytes) : Except KeyError Bytes :=
  let digits := Base64.encode (key.take (passed key.length).toNat)
  if passed digits.length < 0 then .error (.overlong "basic_string::_M_replace_aux")
  else .ok (digits.take (passed digits.length).toNat)

/-- What is left of a text without its white space. -/
def digits (text : Bytes) : Bytes := text.filter fun c => !Bytes.isSpace c

/-- How many `=` there are among the last two digits. -/
def fillers (digits : Bytes) : Nat := (digits.drop (digits.length - 2)).count 61

/-- The key in the text of a file, whose digits `decode?` decodes, three bytes for each four of them. One
byte is cut off for each filler at the end. -/
def read (decode? : Bytes → Option Bytes) (file text : Bytes) : Except KeyError Bytes :=
  let digits := digits text
  if digits.isEmpty || digits.length % 4 != 0 then .error (.malformed file)
  else
    match decode? (digits.take (passed digits.length).toNat) with
    | none => .error (.malformed file)
    | some key =>
      if key.length < fillers digits then .error (.overlong "vector::_M_default_append")
      else .ok (key.take (key.length - fillers digits))

end KeyFile

end FileCourier
