import FileCourier.Bytes

/-!
Digests of messages: MD5, SHA-1, SHA-2 and HMAC with SHA-256.
-/

/-! ## Blocks

A message is filled up with one set bit, zeros and its length in bits, cut into blocks of equal size,
and the blocks are folded into a chaining state.
-/

namespace FileCourier.Digest

/-- The message followed by the bit one, by zeros, and by room for a length of `tail` bytes, so that
the whole is a multiple of `block` bytes long. The length itself is not yet in it. -/
def fill (block tail : Nat) (s : Bytes) : Bytes :=
  s ++ 0x80 :: List.replicate ((2 * block - 1 - tail - s.length % block) % block) 0

/-- The first `count` pieces of `size` elements each. -/
def pieces {α : Type} (size : Nat) : Nat → List α → List (List α)
  | 0, _ => []
  | count + 1, l => l.take size :: pieces size count (l.drop size)

/-- Words of 32 bits, most significant byte first. -/
def words32 : Bytes → List UInt32
  | a :: b :: c :: d :: r =>
    (a.toUInt32 <<< 24 ||| b.toUInt32 <<< 16 ||| c.toUInt32 <<< 8 ||| d.toUInt32) :: words32 r
  | _ => []

/-- Words of 32 bits, least significant byte first. -/
def wordsLittle32 : Bytes → List UInt32
  | a :: b :: c :: d :: r =>
    (d.toUInt32 <<< 24 ||| c.toUInt32 <<< 16 ||| b.toUInt32 <<< 8 ||| a.toUInt32) ::
      wordsLittle32 r
  | _ => []

/-- Words of 64 bits, most significant byte first. -/
def words64 (s : Bytes) : List UInt64 := join (words32 s)
where
  join : List UInt32 → List UInt64
    | hi :: lo :: r => (hi.toUInt64 <<< 32 ||| lo.toUInt64) :: join r
    | _ => []

/-- The words turned left by `n` bits. -/
def turnLeft (x : UInt32) (n : UInt32) : UInt32 := x <<< n ||| x >>> (32 - n)

def turnRight (x : UInt32) (n : UInt32) : UInt32 := x >>> n ||| x <<< (32 - n)

/-- A word of 64 bits turned right by `n` bits. -/
def turnRight64 (x : UInt64) (n : UInt64) : UInt64 := x >>> n ||| x <<< (64 - n)

end FileCourier.Digest

/-! ## MD5

Sixty-four steps on a state of four words, little endian throughout.
-/

namespace FileCourier.Digest.Md5

/-- The chaining state. -/
structure State where
  a : UInt32
  b : UInt32
  c : UInt32
  d : UInt32

/-- The state before the first block. -/
def start : State := ⟨0x67452301, 0xefcdab89, 0x98badcfe, 0x10325476⟩

/-- The additive constant of each step: the sine of its number. -/
def sines : List UInt32 :=
  [
    0xd76aa478, 0xe8c7b756, 0x242070db, 0xc1bdceee, 0xf57c0faf, 0x4787c62a,
    0xa8304613, 0xfd469501, 0x698098d8, 0x8b44f7af, 0xffff5bb1, 0x895cd7be,
    0x6b901122, 0xfd987193, 0xa679438e, 0x49b40821, 0xf61e2562, 0xc040b340,
    0x265e5a51, 0xe9b6c7aa, 0xd62f105d, 0x02441453, 0xd8a1e681, 0xe7d3fbc8,
    0x21e1cde6, 0xc33707d6, 0xf4d50d87, 0x455a14ed, 0xa9e3e905, 0xfcefa3f8,
    0x676f02d9, 0x8d2a4c8a, 0xfffa3942, 0x8771f681, 0x6d9d6122, 0xfde5380c,
    0xa4beea44, 0x4bdecfa9, 0xf6bb4b60, 0xbebfbc70, 0x289b7ec6, 0xeaa127fa,
    0xd4ef3085, 0x04881d05, 0xd9d4d039, 0xe6db99e5, 0x1fa27cf8, 0xc4ac5665,
    0xf4292244, 0x432aff97, 0xab9423a7, 0xfc93a039, 0x655b59c3, 0x8f0ccc92,
    0xffeff47d, 0x85845dd1, 0x6fa87e4f, 0xfe2ce6e0, 0xa3014314, 0x4e0811a1,
    0xf7537e82, 0xbd3af235, 0x2ad7d2bb, 0xeb86d391]

/-- How far each step turns, four amounts for each round of sixteen. -/
def turns : List UInt32 :=
  [7, 12, 17, 22, 5, 9, 14, 20, 4, 11, 16, 23, 6, 10, 15, 21]

/-- One step: the mixing function and the word taken depend on the round. -/
def step (block : Array UInt32) (s : State) (i : Nat) (sine : UInt32) : State :=
  let (mixed, word) :=
    if i < 16 then ((s.b &&& s.c) ||| (~~~s.b &&& s.d), i)
    else if i < 32 then ((s.d &&& s.b) ||| (~~~s.d &&& s.c), (5 * i + 1) % 16)
    else if i < 48 then (s.b ^^^ s.c ^^^ s.d, (3 * i + 5) % 16)
    else (s.c ^^^ (s.b ||| ~~~s.d), 7 * i % 16)
  let sum := s.a + mixed + sine + block.getD word 0
  ⟨s.d, s.b + turnLeft sum (turns.getD (4 * (i / 16) + i % 4) 0), s.b, s.c⟩

/-- One block folded into the state. -/
def compress (s : State) (block : List UInt32) : State :=
  let words := block.toArray
  let t := sines.zipIdx.foldl (fun s e => step words s e.2 e.1) s
  ⟨s.a + t.a, s.b + t.b, s.c + t.c, s.d + t.d⟩

def hash (s : Bytes) : Bytes :=
  let words := wordsLittle32 (fill 64 8 s ++ Bytes.littleEndian 8 (8 * s.length))
  let t := (pieces 16 (words.length / 16) words).foldl compress start
  [t.a, t.b, t.c, t.d].flatMap fun w => Bytes.littleEndian 4 w.toNat

end FileCourier.Digest.Md5

/-! ## SHA-1

Eighty steps on a state of five words, big endian throughout.
-/

namespace FileCourier.Digest.Sha1

/-- The chaining state. -/
structure State where
  a : UInt32
  b : UInt32
  c : UInt32
  d : UInt32
  e : UInt32

/-- The state before the first block. -/
def start : State := ⟨0x67452301, 0xefcdab89, 0x98badcfe, 0x10325476, 0xc3d2e1f0⟩

/-- `n` further words of the schedule, whose words so far are given last first. -/
def extend : Nat → List UInt32 → List UInt32
  | 0, w => w
  | n + 1, w =>
    extend n (turnLeft (w.getD 2 0 ^^^ w.getD 7 0 ^^^ w.getD 13 0 ^^^ w.getD 15 0) 1 :: w)

/-- One step; function and constant change every twenty steps. -/
def step (s : State) (i : Nat) (word : UInt32) : State :=
  let (mixed, constant) : UInt32 × UInt32 :=
    if i < 20 then ((s.b &&& s.c) ||| (~~~s.b &&& s.d), 0x5a827999)
    else if i < 40 then (s.b ^^^ s.c ^^^ s.d, 0x6ed9eba1)
    else if i < 60 then ((s.b &&& s.c) ||| (s.b &&& s.d) ||| (s.c &&& s.d), 0x8f1bbcdc)
    else (s.b ^^^ s.c ^^^ s.d, 0xca62c1d6)
  ⟨turnLeft s.a 5 + mixed + s.e + constant + word, s.a, turnLeft s.b 30, s.c, s.d⟩

def compress (s : State) (block : List UInt32) : State :=
  let schedule := (extend 64 block.reverse).reverse
  let t := schedule.zipIdx.foldl (fun s e => step s e.2 e.1) s
  ⟨s.a + t.a, s.b + t.b, s.c + t.c, s.d + t.d, s.e + t.e⟩

def hash (s : Bytes) : Bytes :=
  let words := words32 (fill 64 8 s ++ Bytes.bigEndian 8 (8 * s.length))
  let t := (pieces 16 (words.length / 16) words).foldl compress start
  [t.a, t.b, t.c, t.d, t.e].flatMap fun w => Bytes.bigEndian 4 w.toNat

end FileCourier.Digest.Sha1

/-! ## SHA-256 and SHA-224

Sixty-four steps on a state of eight words of 32 bits; SHA-224 is the shortened form.
-/

namespace FileCourier.Digest.Sha256

/-- The chaining state. -/
structure State where
  a : UInt32
  b : UInt32
  c : UInt32
  d : UInt32
  e : UInt32
  f : UInt32
  g : UInt32
  h : UInt32

/-- The state before the first block of SHA-256. -/
def start256 : State :=
  ⟨0x6a09e667, 0xbb67ae85, 0x3c6ef372, 0xa54ff53a,
    0x510e527f, 0x9b05688c, 0x1f83d9ab, 0x5be0cd19⟩

/-- The state before the first block of SHA-224. -/
def start224 : State :=
  ⟨0xc1059ed8, 0x367cd507, 0x3070dd17, 0xf70e5939,
    0xffc00b31, 0x68581511, 0x64f98fa7, 0xbefa4fa4⟩

/-- The additive constant of each step: a cube root of a prime. -/
def roots : List UInt32 :=
  [
    0x428a2f98, 0x71374491, 0xb5c0fbcf, 0xe9b5dba5, 0x3956c25b, 0x59f111f1,
    0x923f82a4, 0xab1c5ed5, 0xd807aa98, 0x12835b01, 0x243185be, 0x550c7dc3,
    0x72be5d74, 0x80deb1fe, 0x9bdc06a7, 0xc19bf174, 0xe49b69c1, 0xefbe4786,
    0x0fc19dc6, 0x240ca1cc, 0x2de92c6f, 0x4a7484aa, 0x5cb0a9dc, 0x76f988da,
    0x983e5152, 0xa831c66d, 0xb00327c8, 0xbf597fc7, 0xc6e00bf3, 0xd5a79147,
    0x06ca6351, 0x14292967, 0x27b70a85, 0x2e1b2138, 0x4d2c6dfc, 0x53380d13,
    0x650a7354, 0x766a0abb, 0x81c2c92e, 0x92722c85, 0xa2bfe8a1, 0xa81a664b,
    0xc24b8b70, 0xc76c51a3, 0xd192e819, 0xd6990624, 0xf40e3585, 0x106aa070,
    0x19a4c116, 0x1e376c08, 0x2748774c, 0x34b0bcb5, 0x391c0cb3, 0x4ed8aa4a,
    0x5b9cca4f, 0x682e6ff3, 0x748f82ee, 0x78a5636f, 0x84c87814, 0x8cc70208,
    0x90befffa, 0xa4506ceb, 0xbef9a3f7, 0xc67178f2]

/-- `n` further words of the schedule, whose words so far are given last first. -/
def extend : Nat → List UInt32 → List UInt32
  | 0, w => w
  | n + 1, w =>
    let x := w.getD 14 0
    let y := w.getD 1 0
    let small := turnRight x 7 ^^^ turnRight x 18 ^^^ x >>> 3
    let large := turnRight y 17 ^^^ turnRight y 19 ^^^ y >>> 10
    extend n ((large + w.getD 6 0 + small + w.getD 15 0) :: w)

/-- One step with its constant and its word of the schedule. -/
def step (s : State) (constant word : UInt32) : State :=
  let turned := turnRight s.e 6 ^^^ turnRight s.e 11 ^^^ turnRight s.e 25
  let choice := (s.e &&& s.f) ^^^ (~~~s.e &&& s.g)
  let first := s.h + turned + choice + constant + word
  let turned := turnRight s.a 2 ^^^ turnRight s.a 13 ^^^ turnRight s.a 22
  let majority := (s.a &&& s.b) ^^^ (s.a &&& s.c) ^^^ (s.b &&& s.c)
  ⟨first + turned + majority, s.a, s.b, s.c, s.d + first, s.e, s.f, s.g⟩

def compress (s : State) (block : List UInt32) : State :=
  let schedule := (extend 48 block.reverse).reverse
  let t := (roots.zip schedule).foldl (fun s e => step s e.1 e.2) s
  ⟨s.a + t.a, s.b + t.b, s.c + t.c, s.d + t.d, s.e + t.e, s.f + t.f, s.g + t.g, s.h + t.h⟩

/-- The final state of a message, as bytes. -/
def run (start : State) (s : Bytes) : Bytes :=
  let words := words32 (fill 64 8 s ++ Bytes.bigEndian 8 (8 * s.length))
  let t := (pieces 16 (words.length / 16) words).foldl compress start
  [t.a, t.b, t.c, t.d, t.e, t.f, t.g, t.h].flatMap fun w => Bytes.bigEndian 4 w.toNat

def hash256 (s : Bytes) : Bytes := run start256 s

def hash224 (s : Bytes) : Bytes := (run start224 s).take 28

theorem length_run (start : State) (s : Bytes) : (run start s).length = 32 := by
  simp [run, Bytes.length_bigEndian]

end FileCourier.Digest.Sha256

/-! ## HMAC

The keyed digest with SHA-256 that authenticates a message.
-/

namespace FileCourier.Digest.Hmac

/-- The key filled up with zeros to one block; a longer key is digested first. -/
def blockKey (key : Bytes) : Bytes :=
  let key := if 64 < key.length then Sha256.hash256 key else key
  key ++ List.replicate (64 - key.length) 0

/-- The keyed digest of a message, thirty-two bytes. -/
def sign (key message : Bytes) : Bytes :=
  let key := blockKey key
  let inner := Sha256.hash256 (key.map (· ^^^ 0x36) ++ message)
  Sha256.hash256 (key.map (· ^^^ 0x5c) ++ inner)

theorem length_sign (key message : Bytes) : (sign key message).length = 32 :=
  Sha256.length_run _ _

end FileCourier.Digest.Hmac

/-! ## SHA-512 and SHA-384

Eighty steps on a state of eight words of 64 bits; SHA-384 is the shortened form.
-/

namespace FileCourier.Digest.Sha512

/-- The chaining state. -/
structure State where
  a : UInt64
  b : UInt64
  c : UInt64
  d : UInt64
  e : UInt64
  f : UInt64
  g : UInt64
  h : UInt64

/-- The state before the first block of SHA-512. -/
def start512 : State :=
  ⟨0x6a09e667f3bcc908, 0xbb67ae8584caa73b, 0x3c6ef372fe94f82b, 0xa54ff53a5f1d36f1,
    0x510e527fade682d1, 0x9b05688c2b3e6c1f, 0x1f83d9abfb41bd6b, 0x5be0cd19137e2179⟩

/-- The state before the first block of SHA-384. -/
def start384 : State :=
  ⟨0xcbbb9d5dc1059ed8, 0x629a292a367cd507, 0x9159015a3070dd17, 0x152fecd8f70e5939,
    0x67332667ffc00b31, 0x8eb44a8768581511, 0xdb0c2e0d64f98fa7, 0x47b5481dbefa4fa4⟩

/-- The additive constant of each step: a cube root of a prime. -/
def roots : List UInt64 :=
  [
    0x428a2f98d728ae22, 0x7137449123ef65cd, 0xb5c0fbcfec4d3b2f, 0xe9b5dba58189dbbc,
    0x3956c25bf348b538, 0x59f111f1b605d019, 0x923f82a4af194f9b, 0xab1c5ed5da6d8118,
    0xd807aa98a3030242, 0x12835b0145706fbe, 0x243185be4ee4b28c, 0x550c7dc3d5ffb4e2,
    0x72be5d74f27b896f, 0x80deb1fe3b1696b1, 0x9bdc06a725c71235, 0xc19bf174cf692694,
    0xe49b69c19ef14ad2, 0xefbe4786384f25e3, 0x0fc19dc68b8cd5b5, 0x240ca1cc77ac9c65,
    0x2de92c6f592b0275, 0x4a7484aa6ea6e483, 0x5cb0a9dcbd41fbd4, 0x76f988da831153b5,
    0x983e5152ee66dfab, 0xa831c66d2db43210, 0xb00327c898fb213f, 0xbf597fc7beef0ee4,
    0xc6e00bf33da88fc2, 0xd5a79147930aa725, 0x06ca6351e003826f, 0x142929670a0e6e70,
    0x27b70a8546d22ffc, 0x2e1b21385c26c926, 0x4d2c6dfc5ac42aed, 0x53380d139d95b3df,
    0x650a73548baf63de, 0x766a0abb3c77b2a8, 0x81c2c92e47edaee6, 0x92722c851482353b,
    0xa2bfe8a14cf10364, 0xa81a664bbc423001, 0xc24b8b70d0f89791, 0xc76c51a30654be30,
    0xd192e819d6ef5218, 0xd69906245565a910, 0xf40e35855771202a, 0x106aa07032bbd1b8,
    0x19a4c116b8d2d0c8, 0x1e376c085141ab53, 0x2748774cdf8eeb99, 0x34b0bcb5e19b48a8,
    0x391c0cb3c5c95a63, 0x4ed8aa4ae3418acb, 0x5b9cca4f7763e373, 0x682e6ff3d6b2b8a3,
    0x748f82ee5defb2fc, 0x78a5636f43172f60, 0x84c87814a1f0ab72, 0x8cc702081a6439ec,
    0x90befffa23631e28, 0xa4506cebde82bde9, 0xbef9a3f7b2c67915, 0xc67178f2e372532b,
    0xca273eceea26619c, 0xd186b8c721c0c207, 0xeada7dd6cde0eb1e, 0xf57d4f7fee6ed178,
    0x06f067aa72176fba, 0x0a637dc5a2c898a6, 0x113f9804bef90dae, 0x1b710b35131c471b,
    0x28db77f523047d84, 0x32caab7b40c72493, 0x3c9ebe0a15c9bebc, 0x431d67c49c100d4c,
    0x4cc5d4becb3e42b6, 0x597f299cfc657e2a, 0x5fcb6fab3ad6faec, 0x6c44198c4a475817]

/-- `n` further words of the schedule, whose words so far are given last first. -/
def extend : Nat → List UInt64 → List UInt64
  | 0, w => w
  | n + 1, w =>
    let x := w.getD 14 0
    let y := w.getD 1 0
    let small := turnRight64 x 1 ^^^ turnRight64 x 8 ^^^ x >>> 7
    let large := turnRight64 y 19 ^^^ turnRight64 y 61 ^^^ y >>> 6
    extend n ((large + w.getD 6 0 + small + w.getD 15 0) :: w)

/-- One step with its constant and its word of the schedule. -/
def step (s : State) (constant word : UInt64) : State :=
  let turned := turnRight64 s.e 14 ^^^ turnRight64 s.e 18 ^^^ turnRight64 s.e 41
  let choice := (s.e &&& s.f) ^^^ (~~~s.e &&& s.g)
  let first := s.h + turned + choice + constant + word
  let turned := turnRight64 s.a 28 ^^^ turnRight64 s.a 34 ^^^ turnRight64 s.a 39
  let majority := (s.a &&& s.b) ^^^ (s.a &&& s.c) ^^^ (s.b &&& s.c)
  ⟨first + turned + majority, s.a, s.b, s.c, s.d + first, s.e, s.f, s.g⟩

def compress (s : State) (block : List UInt64) : State :=
  let schedule := (extend 64 block.reverse).reverse
  let t := (roots.zip schedule).foldl (fun s e => step s e.1 e.2) s
  ⟨s.a + t.a, s.b + t.b, s.c + t.c, s.d + t.d, s.e + t.e, s.f + t.f, s.g + t.g, s.h + t.h⟩

def run (start : State) (s : Bytes) : Bytes :=
  let words := words64 (fill 128 16 s ++ Bytes.bigEndian 16 (8 * s.length))
  let t := (pieces 16 (words.length / 16) words).foldl compress start
  [t.a, t.b, t.c, t.d, t.e, t.f, t.g, t.h].flatMap fun w => Bytes.bigEndian 8 w.toNat

def hash512 (s : Bytes) : Bytes := run start512 s

def hash384 (s : Bytes) : Bytes := (run start384 s).take 48

end FileCourier.Digest.Sha512
