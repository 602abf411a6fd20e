import FileCourier.Bytes
import FileCourier.Gzip.Inflate
import FileCourier.Gzip.Shorten

/-!
Gzip data: members one after the other, each a header, compressed blocks, a checksum and a length. Data
is taken from the compressor and from the decoder in portions, call by call.
-/

/-! ## The checksum

CRC-32: one byte after the other divided by the polynomial `0xedb88320`.
-/

namespace FileCourier.Gzip

/-- Eight steps of the division. -/
def divide : Nat → UInt32 → UInt32
  | 0, c => c
  | n + 1, c => divide n (if c &&& 1 = 0 then c >>> 1 else c >>> 1 ^^^ 0xedb88320)

/-- The division of each single byte. -/
def quotients : Array UInt32 := ((List.range 256).map fun i => divide 8 (UInt32.ofNat i)).toArray

/-- The state after one more byte. -/
def crcStep (c : UInt32) (b : UInt8) : UInt32 :=
  quotients.getD ((c ^^^ b.toUInt32) &&& 0xff).toNat 0 ^^^ c >>> 8

def crc32 (s : Bytes) : UInt32 := s.foldl crcStep 0xffffffff ^^^ 0xffffffff

end FileCourier.Gzip

namespace FileCourier

/-- Why data is not compressed or not expanded. -/
inductive GzipError where
  | unknownLevel
  | refused
  | corrupt
  | truncated
  deriving DecidableEq, Repr

namespace GzipError

def message : GzipError → Bytes
  | unknownLevel => "Gzip: Failed to initialize compressor"
  | refused => "Gzip: Compression failed"
  | corrupt => "Gzip: Corrupt compressed data"
  | truncated => "Gzip: Truncated compressed data"

end GzipError

namespace Gzip

/-- What is taken of data: as much as its size says when it is cut to thirty-two bits. -/
def counted (s : Bytes) : Bytes := s.take (UInt32.ofNat s.length).toNat

/-- Output is handed over in portions of this size. -/
def portion : Nat := 16384

/-! ## Compressing -/

/-- The level of compression where none is asked for. -/
def defaultLevel : Int := 6

/-- What a call of a compressor comes to. -/
inductive Call (α : Type) where
  /-- There is more to come. -/
  | ongoing (output : Bytes) (next : α)
  | finished (output : Bytes)
  | refused

/-- A compressor, which is called until it has finished. -/
structure Deflater where
  State : Type
  /-- Begins to compress data at a level, if it knows the level. -/
  start : Int → Bytes → Option State
  call : State → Call State
  /-- How much is left to do. -/
  left : State → Nat
  /-- A call that is not the last one does some of it. -/
  left_lt : ∀ {s t : State} {output : Bytes}, call s = .ongoing output t → left t < left s

/-- Calls a compressor until it has finished. -/
def Deflater.collect (z : Deflater) (s : z.State) : Except GzipError Bytes :=
  match _h : z.call s with
  | .refused => .error .refused
  | .finished output => .ok output
  | .ongoing output t => (z.collect t).map (output ++ ·)
termination_by z.left s
decreasing_by exact z.left_lt _h

/-- The data compressed. -/
def compress (z : Deflater) (level : Int) (s : Bytes) : Except GzipError Bytes :=
  match z.start level (counted s) with
  | none => .error .unknownLevel
  | some state => z.collect state

/-- The byte of the header that tells the best and the fastest compression apart from the others. -/
def effort (level : Int) : UInt8 := if level = 9 then 2 else if level = 0 || level = 1 then 4 else 0

/-- The header of a member without name, comment, time or extra fields. -/
def header (level : Int) : Bytes := [0x1f, 0x8b, 8, 0, 0, 0, 0, 0, effort level, 3]

/-- The checksum and the length at the end of a member. -/
def trailer (s : Bytes) : Bytes :=
  Bytes.littleEndian 4 (crc32 s).toNat ++ Bytes.littleEndian 4 s.length

/-- One member that holds the data. -/
def member (level : Int) (s : Bytes) : Bytes :=
  header level ++ (if level = 0 then Deflate.store s else Deflate.shorten s) ++ trailer s

/-- A compressor that hands over one member portion by portion. Level -1 stands for the usual one, level
0 stores. -/
def deflater : Deflater where
  State := Bytes
  start level s := if level < -1 ∨ 9 < level then none else some (member level s)
  call pending :=
    if portion < pending.length then .ongoing (pending.take portion) (pending.drop portion)
    else .finished pending
  left := List.length
  left_lt := by
    intro s t output h
    have hportion : 0 < portion := by decide
    split at h
    · cases h
      rw [List.length_drop]
      omega
    · cases h

/-! ## Expanding -/

/-- What follows a field that ends with a NUL, with the field. -/
def skipText (s : Bytes) : Except Fault Bytes :=
  match s.dropWhile (· != 0) with
  | [] => .error .ended
  | _ :: r => .ok r

/-- What follows `n` bytes. -/
def skip (n : Nat) (s : Bytes) : Except Fault Bytes :=
  if s.length < n then .error .ended else .ok (s.drop n)

/-- What follows a field that begins with its length. -/
def skipExtra : Bytes → Except Fault Bytes
  | a :: b :: r => skip (Bytes.ofLittleEndian [a, b]) r
  | _ => .error .ended

/-- What follows the checksum of a header; `whole` is the input from the start of the member. -/
def checkHeader (whole : Bytes) (s : Bytes) : Except Fault Bytes :=
  match s with
  | a :: b :: r =>
    if (crc32 (whole.take (whole.length - s.length))).toNat % 65536 = Bytes.ofLittleEndian [a, b]
    then .ok r else .error .corrupt
  | _ => .error .ended

/-- What follows an optional part. -/
def skipIf (present : Bool) (part : Bytes → Except Fault Bytes) (s : Bytes) : Except Fault Bytes :=
  if present then part s else .ok s

/-- What follows the optional parts of a header, which `flags` announces; `whole` is the input from
the start of the member. -/
def skipOptions (whole : Bytes) (flags : UInt8) (s : Bytes) : Except Fault Bytes := do
  let s ← skipIf (flags &&& 4 != 0) skipExtra s
  let s ← skipIf (flags &&& 8 != 0) skipText s
  let s ← skipIf (flags &&& 16 != 0) skipText s
  skipIf (flags &&& 2 != 0) (checkHeader whole) s

/-- What follows the header of a member. -/
def skipHeader (s : Bytes) : Except Fault Bytes :=
  match s with
  | magic₀ :: magic₁ :: r =>
    if magic₀ ≠ 0x1f ∨ magic₁ ≠ 0x8b then .error .corrupt
    else
      match r with
      | method :: flags :: r =>
        if method ≠ 8 ∨ flags &&& 0xe0 ≠ 0 then .error .corrupt
        else (skip 6 r).bind (skipOptions s flags)
      | _ => .error .ended
  | _ => .error .ended

/-- What follows the trailer of a member that holds `out`. -/
def checkTrailer (out s : Bytes) : Except Fault Bytes :=
  match s with
  | a :: b :: c :: d :: r =>
    if [a, b, c, d] ≠ Bytes.littleEndian 4 (crc32 out).toNat then .error .corrupt
    else
      match r with
      | a :: b :: c :: d :: r =>
        if [a, b, c, d] ≠ Bytes.littleEndian 4 out.length then .error .corrupt else .ok r
      | _ => .error .ended
  | _ => .error .ended

/-- The data of the first member and the bytes after it. A failure comes with the data that was decoded
before it. -/
def readMember (s : Bytes) : Except (Fault × Bytes) (Bytes × Bytes) :=
  match skipHeader s with
  | .error e => .error (e, [])
  | .ok r =>
    match Deflate.inflate r with
    | .error (e, out) => .error (e, out.toList)
    | .ok (out, r) =>
      match checkTrailer out.toList r with
      | .error e => .error (e, out.toList)
      | .ok r => .ok (out.toList, r)

/-- A member that is being decoded. -/
structure Decoding where
  /-- What has been decoded and is still to be handed over. -/
  pending : Bytes
  /-- How the member ends behind that. -/
  ending : Except Fault Unit
  /-- Whether the next call reads some of the input. -/
  reads : Bool

/-- What a call of the decoder comes to. -/
inductive Status where
  /-- There may be more to decode. -/
  | ongoing
  /-- The member has ended. -/
  | finished
  /-- The member breaks a rule of the format. -/
  | broken
  /-- Nothing could be read and nothing handed over. -/
  | stuck
  deriving DecidableEq, Repr

namespace Decoding

/-- Begins the member at the front of an input. With it come the bytes after the member, none if it
fails. -/
def start (s : Bytes) : Decoding × Bytes :=
  match readMember s with
  | .ok (out, rest) => (⟨out, .ok (), !s.isEmpty⟩, rest)
  | .error (e, out) => (⟨out, .error e, !s.isEmpty⟩, [])

/-- What a call hands over. -/
def output (d : Decoding) : Bytes := d.pending.take portion

/-- What a call leaves for the next one. -/
def next (d : Decoding) : Decoding := ⟨d.pending.drop portion, d.ending, false⟩

/-- What a call comes to. -/
def status (d : Decoding) : Status :=
  if portion < d.pending.length then .ongoing
  else
    match d.ending with
    | .ok () => .finished
    | .error .corrupt => .broken
    | .error .ended => if d.reads || !d.output.isEmpty then .ongoing else .stuck

/-- What is left to do: bytes to hand over, and input to read. -/
def remaining (d : Decoding) : Nat := d.pending.length + d.reads.toNat

/-- A call that may not be the last one does some of what is left. -/
theorem remaining_next_lt {d : Decoding} (h : d.status = .ongoing) : d.next.remaining < d.remaining := by
  have hportion : 0 < portion := by decide
  have hleft : 0 < d.remaining := by
    refine Nat.pos_of_ne_zero fun hzero => ?_
    obtain ⟨hpending, hreads⟩ := Nat.add_eq_zero_iff.1 hzero
    rw [status, output, List.length_eq_zero_iff.1 hpending] at h
    cases hread : d.reads with
    | true => simp [hread] at hreads
    | false =>
      rw [hread] at h
      split at h
      · rename_i hlong
        simp at hlong
      · split at h <;> simp at h
  rw [remaining, next, List.length_drop]
  rw [remaining] at hleft ⊢
  simp only [Bool.toNat_false]
  omega

end Decoding

/-- Calls the decoder up to the end of the input. Each member after the first begins with the decoder
reset; `fuel` bounds how often. -/
def drain (fuel : Nat) (d : Decoding) (rest : Bytes) : Except GzipError Bytes :=
  match _h : d.status with
  | .broken | .stuck => .error .corrupt
  | .finished =>
    if rest.isEmpty then .ok d.output
    else
      match fuel with
      | 0 => .error .corrupt
      | fuel + 1 =>
        let (member, rest) := Decoding.start rest
        (drain fuel member rest).map (d.output ++ ·)
  | .ongoing =>
    -- The input has stopped before the end of the member.
    if rest.isEmpty && d.output.length < portion then .error .truncated
    else (drain fuel d.next rest).map (d.output ++ ·)
termination_by (fuel, d.remaining)
decreasing_by
  · exact Prod.Lex.left _ _ (Nat.lt_succ_self fuel)
  · exact Prod.Lex.right _ (Decoding.remaining_next_lt _h)

/-- The data of all members of an input. -/
def expand (s : Bytes) : Except GzipError Bytes :=
  let (member, rest) := Decoding.start s
  drain s.length member rest

/-- The data that was compressed, of all members. -/
def uncompress (s : Bytes) : Except GzipError Bytes := expand (counted s)

/-- Nothing is not gzip data. -/
theorem expand_nil : expand [] = .error .corrupt := by
  change drain 0 ⟨[], .error .ended, false⟩ [] = .error .corrupt
  rw [drain.eq_def]
  rfl

theorem uncompress_nil : uncompress [] = .error .corrupt := expand_nil

end Gzip

end FileCourier
