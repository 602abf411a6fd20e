import FileCourier.Bytes

/-!
What compressed data is made of: bits, the words of a code, and the tables of the format.
-/

/-! ## Bits

Bit strings inside byte strings: the first bit of a byte is its lowest.
-/

namespace FileCourier.Gzip

/-- Why compressed data cannot be read on: it breaks a rule of the format, or it stops. -/
inductive Fault where
  | corrupt
  | ended
  deriving DecidableEq, Repr

/-- An input that is read bit by bit: what is left of the byte begun, and the bytes after it. -/
structure Bits where
  pending : List Bool
  rest : Bytes
  deriving DecidableEq, Repr

namespace Bits

/-- The bits of a byte, lowest first. -/
def ofByte (b : UInt8) : List Bool := (List.range 8).map fun i => b.toNat.testBit i

def ofBytes (s : Bytes) : Bits := ⟨[], s⟩

def size (b : Bits) : Nat := b.pending.length + 8 * b.rest.length

def next : Bits → Except Fault (Bool × Bits)
  | ⟨x :: p, rest⟩ => .ok (x, ⟨p, rest⟩)
  | ⟨[], b :: rest⟩ =>
    match ofByte b with
    | [] => .error .ended
    | x :: p => .ok (x, ⟨p, rest⟩)
  | ⟨[], []⟩ => .error .ended

/-- A number of `n` bits, lowest first. -/
def take : Nat → Bits → Except Fault (Nat × Bits)
  | 0, b => .ok (0, b)
  | n + 1, b => do
    let (x, b) ← b.next
    let (v, b) ← take n b
    return (x.toNat + 2 * v, b)

/-- The number that bits spell, lowest first. -/
def toNat : List Bool → Nat
  | [] => 0
  | x :: r => x.toNat + 2 * toNat r

/-- The `n` lowest bits of a number, lowest first. -/
def ofNat : Nat → Nat → List Bool
  | 0, _ => []
  | n + 1, v => (v % 2 == 1) :: ofNat n (v / 2)

/-- The bytes that a bit string fills, the last of them filled up with zeros. -/
def pack : List Bool → Bytes
  | a :: b :: c :: d :: e :: f :: g :: h :: r =>
    UInt8.ofNat (toNat [a, b, c, d, e, f, g, h]) :: pack r
  | [] => []
  | r => [UInt8.ofNat (toNat r)]

end Bits

end FileCourier.Gzip

/-! ## Codes

Codes in which no word begins another, as binary trees. A code is given by the length of each
symbol's word; shorter words come first, and among words of one length the smaller symbol.
-/

namespace FileCourier.Gzip

/-- A code: at a leaf a symbol is complete, at a gap no symbol has this word. -/
inductive Code where
  | leaf (symbol : Nat)
  | node (zero one : Code)
  | gap
  deriving DecidableEq, Repr

namespace Code

def decode : Code → Bits → Except Fault (Nat × Bits)
  | leaf symbol, b => .ok (symbol, b)
  | gap, _ => .error .corrupt
  | node zero one, b =>
    match b.next with
    | .error e => .error e
    | .ok (x, b) => if x then one.decode b else zero.decode b

/-- Whether some bit string begins no word. -/
def hasGap : Code → Bool
  | leaf _ => false
  | gap => true
  | node zero one => zero.hasGap || one.hasGap

/-- Lays out symbols, sorted by the lengths of their words, below a node of the given depth, and
returns the symbols that found no place. `height` is how much deeper the tree may grow. -/
def layOut : Nat → Nat → List (Nat × Nat) → Code × List (Nat × Nat)
  | _, _, [] => (gap, [])
  | 0, _, (_, symbol) :: r => (leaf symbol, r)
  | height + 1, depth, (length, symbol) :: r =>
    if length ≤ depth then (leaf symbol, r)
    else
      let (zero, r) := layOut height (depth + 1) ((length, symbol) :: r)
      let (one, r) := layOut height (depth + 1) r
      (node zero one, r)

/-- No word is longer. -/
def maxLength : Nat := 15

/-- The symbols that have a word, with its length, shorter words first. -/
def inOrder (lengths : List Nat) : List (Nat × Nat) :=
  (List.range maxLength).flatMap fun n => lengths.zipIdx.filter fun e => e.1 == n + 1

/-- The code with words of the given lengths, zero for a symbol without a word, and the symbols for
which there was no room. -/
def ofLengths (lengths : List Nat) : Code × List (Nat × Nat) := layOut maxLength 0 (inOrder lengths)

/-- The code without words; reading from it takes a bit to notice. -/
def none : Code := node gap gap

/-- The code of a block, from the lengths of its words. All words must have room. Bit strings may
be left over only if no word is longer than one bit. -/
def ofBlock? (lengths : List Nat) : Option Code :=
  let (code, homeless) := ofLengths lengths
  if !homeless.isEmpty then Option.none
  else
    match lengths.foldl max 0 with
    | 0 => some none
    | 1 => some code
    | _ => if code.hasGap then Option.none else some code

end Code

end FileCourier.Gzip

/-! ## Tables

The tables of the compressed format: what the symbols for lengths and distances stand for, the
order in which a block states the lengths of its own code, and the code of blocks that state none.
-/

namespace FileCourier.Gzip.Deflate

/-- The smallest length and the number of extra bits of the symbols 257 to 285. -/
def lengths : List (Nat × Nat) :=
  [(3, 0), (4, 0), (5, 0), (6, 0), (7, 0), (8, 0), (9, 0), (10, 0), (11, 1), (13, 1), (15, 1),
    (17, 1), (19, 2), (23, 2), (27, 2), (31, 2), (35, 3), (43, 3), (51, 3), (59, 3), (67, 4),
    (83, 4), (99, 4), (115, 4), (131, 5), (163, 5), (195, 5), (227, 5), (258, 0)]

/-- The smallest distance and the number of extra bits of the distance symbols 0 to 29. -/
def distances : List (Nat × Nat) :=
  [(1, 0), (2, 0), (3, 0), (4, 0), (5, 1), (7, 1), (9, 2), (13, 2), (17, 3), (25, 3), (33, 4),
    (49, 4), (65, 5), (97, 5), (129, 6), (193, 6), (257, 7), (385, 7), (513, 8), (769, 8),
    (1025, 9), (1537, 9), (2049, 10), (3073, 10), (4097, 11), (6145, 11), (8193, 12), (12289, 12),
    (16385, 13), (24577, 13)]

/-- The order in which the word lengths of the length code are stated. -/
def statedOrder : List Nat := [16, 17, 18, 0, 8, 7, 9, 6, 10, 5, 11, 4, 12, 3, 13, 2, 14, 1, 15]

/-- The word lengths of the fixed code for literals and lengths. -/
def fixedLengths : List Nat :=
  List.replicate 144 8 ++ List.replicate 112 9 ++ List.replicate 24 7 ++ List.replicate 8 8

/-- The fixed code for literals and lengths. -/
def fixedCode : Code := (Code.ofLengths fixedLengths).1

/-- The fixed code for distances. -/
def fixedDistanceCode : Code := (Code.ofLengths (List.replicate 32 5)).1

/-- `count` more bytes, each a copy of the one `distance` bytes before it. -/
def copy (distance : Nat) : Nat → Array UInt8 → Array UInt8
  | 0, out => out
  | count + 1, out => copy distance count (out.push (out.getD (out.size - distance) 0))

end FileCourier.Gzip.Deflate
