import FileCourier.Gzip.Code
import Std.Data.HashMap

/-!
Writing compressed blocks. Repetitions are found by looking up where the next three bytes stood
last; what is found is compared byte by byte, so the lookup decides how short the result is but
never what it means. The fixed code is used, or stored blocks where these are shorter.
-/

namespace FileCourier.Gzip.Deflate

/-- A step of the output: a byte, or a repetition of earlier output. -/
inductive Token where
  | literal (b : UInt8)
  | repetition (length distance : Nat)
  deriving DecidableEq, Repr

/-- How many bytes from `i` on equal those from `j` on, up to a bound. -/
def common (s : Array UInt8) (j i : Nat) : Nat → Nat
  | 0 => 0
  | n + 1 =>
    if i < s.size ∧ s.getD j 0 = s.getD i 0 then common s (j + 1) (i + 1) n + 1 else 0

/-- The three bytes from `i` on, as one number. -/
def trigram (s : Array UInt8) (i : Nat) : Nat :=
  ((s.getD i 0).toNat * 256 + (s.getD (i + 1) 0).toNat) * 256 + (s.getD (i + 2) 0).toNat

/-- Notes where the trigrams of `count` positions from `i` on stand. -/
def note (s : Array UInt8) (i : Nat) : Nat → Std.HashMap Nat Nat → Std.HashMap Nat Nat
  | 0, seen => seen
  | count + 1, seen => note s (i + 1) count (seen.insert (trigram s i) i)

/-- The repetition that begins at `i`, if one of at least three bytes is known. -/
def repetition? (s : Array UInt8) (seen : Std.HashMap Nat Nat) (i : Nat) : Option (Nat × Nat) :=
  match seen[trigram s i]? with
  | none => none
  | some j =>
    let length := common s j i 258
    if j < i ∧ i - j ≤ 32768 ∧ 3 ≤ length then some (length, i - j) else none

/-- The tokens of the bytes from `i` on, added to those so far. -/
def tokensFrom (s : Array UInt8) :
    Nat → Nat → Std.HashMap Nat Nat → Array Token → Array Token
  | 0, _, _, out => out
  | fuel + 1, i, seen, out =>
    if i < s.size then
      match repetition? s seen i with
      | some (length, distance) =>
        tokensFrom s fuel (i + length) (note s i length seen) (out.push (.repetition length distance))
      | none => tokensFrom s fuel (i + 1) (note s i 1 seen) (out.push (.literal (s.getD i 0)))
    else out

def tokens (s : Bytes) : List Token :=
  (tokensFrom s.toArray s.length 0 ∅ #[]).toList

/-- The bits of a number, highest first. -/
def word (n v : Nat) : List Bool := (Bits.ofNat n v).reverse

/-- The word of a literal or length symbol in the fixed code. -/
def fixedWord (symbol : Nat) : List Bool :=
  if symbol < 144 then word 8 (0x30 + symbol)
  else if symbol < 256 then word 9 (0x190 + (symbol - 144))
  else if symbol < 280 then word 7 (symbol - 256)
  else word 8 (0xc0 + (symbol - 280))

/-- The symbol of a number and its extra bits: the last entry of the table that is not above it. -/
def scale (table : List (Nat × Nat)) (n : Nat) : Nat × List Bool :=
  let symbol := (table.takeWhile fun e => e.1 ≤ n).length - 1
  let (base, extra) := table.getD symbol (0, 0)
  (symbol, Bits.ofNat extra (n - base))

/-- The bits of a token in the fixed code. -/
def Token.write : Token → List Bool
  | literal b => fixedWord b.toNat
  | repetition length distance =>
    let (symbol, extra) := scale lengths length
    let (place, more) := scale distances distance
    fixedWord (257 + symbol) ++ extra ++ word 5 place ++ more

/-- One last block in the fixed code. -/
def writeFixed (l : List Token) : Bytes :=
  Bits.pack (true :: true :: false :: (l.flatMap Token.write ++ fixedWord 256))

/-- One stored block. -/
def writeStoredBlock (last : Bool) (s : Bytes) : Bytes :=
  (if last then 1 else 0) :: Bytes.littleEndian 2 s.length ++
    Bytes.littleEndian 2 (0xffff - s.length) ++ s

/-- Stored blocks, as many as are needed. -/
def writeStored : Nat → Bytes → Bytes
  | 0, s => writeStoredBlock true s
  | more + 1, s =>
    writeStoredBlock false (s.take 0xffff) ++ writeStored more (s.drop 0xffff)

/-- The byte string in stored blocks, all but the last of them full. -/
def store (s : Bytes) : Bytes := writeStored ((s.length - 1) / 0xffff) s

/-- The byte string compressed, or stored where that is shorter. -/
def shorten (s : Bytes) : Bytes :=
  let fixed := writeFixed (tokens s)
  if 5 * ((s.length - 1) / 0xffff + 1) + s.length < fixed.length then store s else fixed

end FileCourier.Gzip.Deflate
