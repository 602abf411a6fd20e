import FileCourier.Bytes

/-!
AES with keys of 256 bits, on blocks of four columns of four bytes. `Key.decrypt` undoes
`Key.encrypt` step by step: each step of a round has its own inverse.
-/

namespace FileCourier.Aes

/-- Four bytes of a block. -/
structure Column where
  b0 : UInt8
  b1 : UInt8
  b2 : UInt8
  b3 : UInt8
  deriving DecidableEq, Repr

/-- Sixteen bytes, column by column. -/
structure Block where
  c0 : Column
  c1 : Column
  c2 : Column
  c3 : Column
  deriving DecidableEq, Repr

/-- Substitutes for the bytes 0 to 255. -/
def substitutes : Array UInt8 := #[
    0x63, 0x7c, 0x77, 0x7b, 0xf2, 0x6b, 0x6f, 0xc5, 0x30, 0x01, 0x67, 0x2b,
    0xfe, 0xd7, 0xab, 0x76, 0xca, 0x82, 0xc9, 0x7d, 0xfa, 0x59, 0x47, 0xf0,
    0xad, 0xd4, 0xa2, 0xaf, 0x9c, 0xa4, 0x72, 0xc0, 0xb7, 0xfd, 0x93, 0x26,
    0x36, 0x3f, 0xf7, 0xcc, 0x34, 0xa5, 0xe5, 0xf1, 0x71, 0xd8, 0x31, 0x15,
    0x04, 0xc7, 0x23, 0xc3, 0x18, 0x96, 0x05, 0x9a, 0x07, 0x12, 0x80, 0xe2,
    0xeb, 0x27, 0xb2, 0x75, 0x09, 0x83, 0x2c, 0x1a, 0x1b, 0x6e, 0x5a, 0xa0,
    0x52, 0x3b, 0xd6, 0xb3, 0x29, 0xe3, 0x2f, 0x84, 0x53, 0xd1, 0x00, 0xed,
    0x20, 0xfc, 0xb1, 0x5b, 0x6a, 0xcb, 0xbe, 0x39, 0x4a, 0x4c, 0x58, 0xcf,
    0xd0, 0xef, 0xaa, 0xfb, 0x43, 0x4d, 0x33, 0x85, 0x45, 0xf9, 0x02, 0x7f,
    0x50, 0x3c, 0x9f, 0xa8, 0x51, 0xa3, 0x40, 0x8f, 0x92, 0x9d, 0x38, 0xf5,
    0xbc, 0xb6, 0xda, 0x21, 0x10, 0xff, 0xf3, 0xd2, 0xcd, 0x0c, 0x13, 0xec,
    0x5f, 0x97, 0x44, 0x17, 0xc4, 0xa7, 0x7e, 0x3d, 0x64, 0x5d, 0x19, 0x73,
    0x60, 0x81, 0x4f, 0xdc, 0x22, 0x2a, 0x90, 0x88, 0x46, 0xee, 0xb8, 0x14,
    0xde, 0x5e, 0x0b, 0xdb, 0xe0, 0x32, 0x3a, 0x0a, 0x49, 0x06, 0x24, 0x5c,
    0xc2, 0xd3, 0xac, 0x62, 0x91, 0x95, 0xe4, 0x79, 0xe7, 0xc8, 0x37, 0x6d,
    0x8d, 0xd5, 0x4e, 0xa9, 0x6c, 0x56, 0xf4, 0xea, 0x65, 0x7a, 0xae, 0x08,
    0xba, 0x78, 0x25, 0x2e, 0x1c, 0xa6, 0xb4, 0xc6, 0xe8, 0xdd, 0x74, 0x1f,
    0x4b, 0xbd, 0x8b, 0x8a, 0x70, 0x3e, 0xb5, 0x66, 0x48, 0x03, 0xf6, 0x0e,
    0x61, 0x35, 0x57, 0xb9, 0x86, 0xc1, 0x1d, 0x9e, 0xe1, 0xf8, 0x98, 0x11,
    0x69, 0xd9, 0x8e, 0x94, 0x9b, 0x1e, 0x87, 0xe9, 0xce, 0x55, 0x28, 0xdf,
    0x8c, 0xa1, 0x89, 0x0d, 0xbf, 0xe6, 0x42, 0x68, 0x41, 0x99, 0x2d, 0x0f,
    0xb0, 0x54, 0xbb, 0x16]

/-- The bytes that `substitutes` replaces by 0 to 255. -/
def originals : Array UInt8 := #[
    0x52, 0x09, 0x6a, 0xd5, 0x30, 0x36, 0xa5, 0x38, 0xbf, 0x40, 0xa3, 0x9e,
    0x81, 0xf3, 0xd7, 0xfb, 0x7c, 0xe3, 0x39, 0x82, 0x9b, 0x2f, 0xff, 0x87,
    0x34, 0x8e, 0x43, 0x44, 0xc4, 0xde, 0xe9, 0xcb, 0x54, 0x7b, 0x94, 0x32,
    0xa6, 0xc2, 0x23, 0x3d, 0xee, 0x4c, 0x95, 0x0b, 0x42, 0xfa, 0xc3, 0x4e,
    0x08, 0x2e, 0xa1, 0x66, 0x28, 0xd9, 0x24, 0xb2, 0x76, 0x5b, 0xa2, 0x49,
    0x6d, 0x8b, 0xd1, 0x25, 0x72, 0xf8, 0xf6, 0x64, 0x86, 0x68, 0x98, 0x16,
    0xd4, 0xa4, 0x5c, 0xcc, 0x5d, 0x65, 0xb6, 0x92, 0x6c, 0x70, 0x48, 0x50,
    0xfd, 0xed, 0xb9, 0xda, 0x5e, 0x15, 0x46, 0x57, 0xa7, 0x8d, 0x9d, 0x84,
    0x90, 0xd8, 0xab, 0x00, 0x8c, 0xbc, 0xd3, 0x0a, 0xf7, 0xe4, 0x58, 0x05,
    0xb8, 0xb3, 0x45, 0x06, 0xd0, 0x2c, 0x1e, 0x8f, 0xca, 0x3f, 0x0f, 0x02,
    0xc1, 0xaf, 0xbd, 0x03, 0x01, 0x13, 0x8a, 0x6b, 0x3a, 0x91, 0x11, 0x41,
    0x4f, 0x67, 0xdc, 0xea, 0x97, 0xf2, 0xcf, 0xce, 0xf0, 0xb4, 0xe6, 0x73,
    0x96, 0xac, 0x74, 0x22, 0xe7, 0xad, 0x35, 0x85, 0xe2, 0xf9, 0x37, 0xe8,
    0x1c, 0x75, 0xdf, 0x6e, 0x47, 0xf1, 0x1a, 0x71, 0x1d, 0x29, 0xc5, 0x89,
    0x6f, 0xb7, 0x62, 0x0e, 0xaa, 0x18, 0xbe, 0x1b, 0xfc, 0x56, 0x3e, 0x4b,
    0xc6, 0xd2, 0x79, 0x20, 0x9a, 0xdb, 0xc0, 0xfe, 0x78, 0xcd, 0x5a, 0xf4,
    0x1f, 0xdd, 0xa8, 0x33, 0x88, 0x07, 0xc7, 0x31, 0xb1, 0x12, 0x10, 0x59,
    0x27, 0x80, 0xec, 0x5f, 0x60, 0x51, 0x7f, 0xa9, 0x19, 0xb5, 0x4a, 0x0d,
    0x2d, 0xe5, 0x7a, 0x9f, 0x93, 0xc9, 0x9c, 0xef, 0xa0, 0xe0, 0x3b, 0x4d,
    0xae, 0x2a, 0xf5, 0xb0, 0xc8, 0xeb, 0xbb, 0x3c, 0x83, 0x53, 0x99, 0x61,
    0x17, 0x2b, 0x04, 0x7e, 0xba, 0x77, 0xd6, 0x26, 0xe1, 0x69, 0x14, 0x63,
    0x55, 0x21, 0x0c, 0x7d]

def substitute (b : UInt8) : UInt8 := substitutes.getD b.toNat 0

/-- The byte that a substitute stands for. -/
def restore (b : UInt8) : UInt8 := originals.getD b.toNat 0

/-- Twice a byte in the field of 256 elements. -/
def double (b : UInt8) : UInt8 := b <<< 1 ^^^ (if b &&& 0x80 = 0 then 0 else 0x1b)

namespace Column

def map (f : UInt8 → UInt8) (c : Column) : Column := ⟨f c.b0, f c.b1, f c.b2, f c.b3⟩

def add (c d : Column) : Column := ⟨c.b0 ^^^ d.b0, c.b1 ^^^ d.b1, c.b2 ^^^ d.b2, c.b3 ^^^ d.b3⟩

/-- One byte of the mixed column: `2a + 3b + c + d`. -/
def mixByte (a b c d : UInt8) : UInt8 := double a ^^^ (double b ^^^ b) ^^^ c ^^^ d

/-- The column multiplied by the mixing matrix. -/
def mix (c : Column) : Column :=
  ⟨mixByte c.b0 c.b1 c.b2 c.b3, mixByte c.b1 c.b2 c.b3 c.b0,
    mixByte c.b2 c.b3 c.b0 c.b1, mixByte c.b3 c.b0 c.b1 c.b2⟩

/-- One byte of the unmixed column: `14a + 11b + 13c + 9d`. -/
def unmixByte (a b c d : UInt8) : UInt8 :=
  let eight := double (double (double (a ^^^ b ^^^ c ^^^ d)))
  eight ^^^ double (double (a ^^^ c)) ^^^ double (a ^^^ b) ^^^ b ^^^ c ^^^ d

/-- The column multiplied by the inverse of the mixing matrix. -/
def unmix (c : Column) : Column :=
  ⟨unmixByte c.b0 c.b1 c.b2 c.b3, unmixByte c.b1 c.b2 c.b3 c.b0,
    unmixByte c.b2 c.b3 c.b0 c.b1, unmixByte c.b3 c.b0 c.b1 c.b2⟩

/-- The bytes of the column turned up by one. -/
def turn (c : Column) : Column := ⟨c.b1, c.b2, c.b3, c.b0⟩

end Column

namespace Block

def zero : Block := ⟨⟨0, 0, 0, 0⟩, ⟨0, 0, 0, 0⟩, ⟨0, 0, 0, 0⟩, ⟨0, 0, 0, 0⟩⟩

instance : Inhabited Block := ⟨zero⟩

def map (f : UInt8 → UInt8) (b : Block) : Block := ⟨b.c0.map f, b.c1.map f, b.c2.map f, b.c3.map f⟩

def add (b d : Block) : Block := ⟨b.c0.add d.c0, b.c1.add d.c1, b.c2.add d.c2, b.c3.add d.c3⟩

/-- Each row turned left by its number. -/
def shift (b : Block) : Block :=
  ⟨⟨b.c0.b0, b.c1.b1, b.c2.b2, b.c3.b3⟩, ⟨b.c1.b0, b.c2.b1, b.c3.b2, b.c0.b3⟩,
    ⟨b.c2.b0, b.c3.b1, b.c0.b2, b.c1.b3⟩, ⟨b.c3.b0, b.c0.b1, b.c1.b2, b.c2.b3⟩⟩

/-- Each row turned right by its number. -/
def unshift (b : Block) : Block :=
  ⟨⟨b.c0.b0, b.c3.b1, b.c2.b2, b.c1.b3⟩, ⟨b.c1.b0, b.c0.b1, b.c3.b2, b.c2.b3⟩,
    ⟨b.c2.b0, b.c1.b1, b.c0.b2, b.c3.b3⟩, ⟨b.c3.b0, b.c2.b1, b.c1.b2, b.c0.b3⟩⟩

def mix (b : Block) : Block := ⟨b.c0.mix, b.c1.mix, b.c2.mix, b.c3.mix⟩

def unmix (b : Block) : Block := ⟨b.c0.unmix, b.c1.unmix, b.c2.unmix, b.c3.unmix⟩

def toBytes (b : Block) : Bytes :=
  [b.c0.b0, b.c0.b1, b.c0.b2, b.c0.b3, b.c1.b0, b.c1.b1, b.c1.b2, b.c1.b3,
    b.c2.b0, b.c2.b1, b.c2.b2, b.c2.b3, b.c3.b0, b.c3.b1, b.c3.b2, b.c3.b3]

/-- The block at the front of a byte string, and the bytes after it. -/
def take? : Bytes → Option (Block × Bytes)
  | a₀ :: a₁ :: a₂ :: a₃ :: b₀ :: b₁ :: b₂ :: b₃ :: c₀ :: c₁ :: c₂ :: c₃ :: d₀ :: d₁ :: d₂ :: d₃ ::
      rest =>
    some (⟨⟨a₀, a₁, a₂, a₃⟩, ⟨b₀, b₁, b₂, b₃⟩, ⟨c₀, c₁, c₂, c₃⟩, ⟨d₀, d₁, d₂, d₃⟩⟩, rest)
  | _ => none

@[simp] theorem take?_toBytes (b : Block) (rest : Bytes) :
    take? (b.toBytes ++ rest) = some (b, rest) := rfl

@[simp] theorem unshift_shift (b : Block) : b.shift.unshift = b := rfl

@[simp] theorem shift_unshift (b : Block) : b.unshift.shift = b := rfl

end Block

/-- The keys of the fifteen additions of an encryption. -/
structure Key where
  first : Block
  middle : List Block
  last : Block

namespace Key

/-- The words of a key schedule after the eight of the key, last first. `round` is the constant of
the next turned word. -/
def extend : Nat → UInt8 → List Column → List Column
  | 0, _, words => words
  | n + 1, round, words =>
    let previous := words.headD ⟨0, 0, 0, 0⟩
    let back := words.getD 7 ⟨0, 0, 0, 0⟩
    if words.length % 8 = 0 then
      let turned := previous.turn.map substitute
      extend n (double round) (back.add ⟨turned.b0 ^^^ round, turned.b1, turned.b2, turned.b3⟩ :: words)
    else if words.length % 8 = 4 then
      extend n round (back.add (previous.map substitute) :: words)
    else extend n round (back.add previous :: words)

/-- Columns of four bytes each. -/
def columns : Bytes → List Column
  | a :: b :: c :: d :: r => ⟨a, b, c, d⟩ :: columns r
  | _ => []

/-- Blocks of four columns each. -/
def blocks : List Column → List Block
  | a :: b :: c :: d :: r => ⟨a, b, c, d⟩ :: blocks r
  | _ => []

/-- The schedule of a key of thirty-two bytes. -/
def ofBytes (key : Bytes) : Key :=
  let schedule := blocks (extend 52 1 (columns key).reverse).reverse
  ⟨schedule.headD .zero, (schedule.drop 1).dropLast, (schedule.drop 1).getLastD .zero⟩

/-- A middle round: substitute, shift, mix, add. -/
def round (b key : Block) : Block := ((b.map substitute).shift.mix).add key

def unround (b key : Block) : Block := ((b.add key).unmix.unshift).map restore

def encrypt (key : Key) (b : Block) : Block :=
  (((key.middle.foldl round (b.add key.first)).map substitute).shift).add key.last

def decrypt (key : Key) (b : Block) : Block :=
  (key.middle.reverse.foldl unround (((b.add key.last).unshift).map restore)).add key.first

end Key

end FileCourier.Aes
