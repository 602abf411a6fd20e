import FileCourier.Cipher.Aes
import FileCourier.Digest.Hashes

/-!
Chained encryption of payloads of any length, whole and piece by piece.
-/

/-! ## Whole payloads

Each block is added to the encrypted one before it before it is encrypted
itself. A payload of any length is first filled up to whole blocks. Filling always adds something,
so that it can be taken off again without doubt.
-/

namespace FileCourier.Aes

/-- The bytes that fill up a payload of the given length: 1 to 16, each of them their number. -/
def filling (length : Nat) : Bytes :=
  let n := 16 - length % 16
  List.replicate n (UInt8.ofNat n)

/-- The payload filled up to whole blocks. -/
def fillUp (s : Bytes) : Bytes := s ++ filling s.length

/-- The payload of a filled byte string, if its end is a possible filling. -/
def takeOff? (s : Bytes) : Option Bytes :=
  match s.getLast? with
  | none => none
  | some last =>
    let n := last.toNat
    if 1 ≤ n ∧ n ≤ 16 ∧ n ≤ s.length ∧ s.drop (s.length - n) = List.replicate n last then
      some (s.take (s.length - n))
    else none

/-- One of the two directions of a chained cipher. `step` takes the block to which the next one is
chained and that next block; it gives what becomes of it, and the block to which the one after it is
chained. -/
structure Direction where
  step : Block → Block → Block × Block
  /-- Whether a whole block waits until more is known to follow. -/
  waits : Bool

/-- What becomes of a list of blocks after `previous`, and the block to which the next is chained. -/
def Direction.chain (d : Direction) : Block → List Block → List Block × Block
  | previous, [] => ([], previous)
  | previous, b :: r =>
    let (out, next) := d.step previous b
    let (more, last) := d.chain next r
    (out :: more, last)

namespace Key

def encryption (key : Key) : Direction where
  step previous b :=
    let c := key.encrypt (previous.add b)
    (c, c)
  waits := false

/-- The last block of what is decrypted carries the filling, so a block waits until it is known not
to be the last. -/
def decryption (key : Key) : Direction where
  step previous c := ((key.decrypt c).add previous, c)
  waits := true

end Key

end FileCourier.Aes

/-! ## Pieces

Chained encryption and decryption of byte strings that are fed to the cipher piece by piece. What
has become of whole blocks is given out at once; bytes that do not fill a block are held until the
next piece.
-/

namespace FileCourier.Aes

/-- The whole blocks at the front of a byte string, and the bytes after them. If a block waits for
more to follow, one at the very end is left among those bytes. -/
def Block.cut (waits : Bool) : Bytes → List Block × Bytes
  | a₀ :: a₁ :: a₂ :: a₃ :: b₀ :: b₁ :: b₂ :: b₃ :: c₀ :: c₁ :: c₂ :: c₃ :: d₀ :: d₁ :: d₂ :: d₃ ::
      rest =>
    let b : Block := ⟨⟨a₀, a₁, a₂, a₃⟩, ⟨b₀, b₁, b₂, b₃⟩, ⟨c₀, c₁, c₂, c₃⟩, ⟨d₀, d₁, d₂, d₃⟩⟩
    if waits && rest.isEmpty then ([], b.toBytes)
    else
      let (blocks, left) := cut waits rest
      (b :: blocks, left)
  | s => ([], s)

/-- How far a cipher has come: the block to which the next one is chained, and the bytes held. -/
structure Feed where
  previous : Block
  held : Bytes

namespace Direction

/-- Takes a piece, and gives out what it makes ready. -/
def update (d : Direction) (f : Feed) (piece : Bytes) : Bytes × Feed :=
  let (blocks, held) := Block.cut d.waits (f.held ++ piece)
  let (out, previous) := d.chain f.previous blocks
  (out.flatMap Block.toBytes, ⟨previous, held⟩)

/-- Takes one piece after the other. -/
def feed (d : Direction) : Feed → List Bytes → Bytes × Feed
  | f, [] => ([], f)
  | f, piece :: r =>
    let (out, f) := d.update f piece
    let (more, f) := d.feed f r
    (out ++ more, f)

end Direction

/-- How many bytes are fed at a time. -/
def bufferSize : Nat := 8192

/-- A byte string in pieces of the size of the buffer, the last of which may be shorter. -/
def inPieces (s : Bytes) : List Bytes :=
  Digest.pieces bufferSize ((s.length + bufferSize - 1) / bufferSize) s

namespace Key

/-- The encryption of a payload after the block `iv`. -/
def encryptBytes (key : Key) (iv : Block) (payload : Bytes) : Bytes :=
  let (out, f) := key.encryption.feed ⟨iv, []⟩ (inPieces payload)
  out ++ (key.encryption.update f (filling f.held.length)).1

/-- The payload whose encryption is given, if its length and its filling are right. -/
def decryptBytes? (key : Key) (iv : Block) (s : Bytes) : Option Bytes :=
  let (out, f) := key.decryption.feed ⟨iv, []⟩ (inPieces s)
  match Block.take? f.held with
  | some (b, []) => (takeOff? (key.decryption.step f.previous b).1.toBytes).map (out ++ ·)
  | _ => none

end Key

end FileCourier.Aes
