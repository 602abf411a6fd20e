import FileCourier.Gzip.Code

/-!
Reading compressed blocks. A failure is reported with the output produced before it.
-/

namespace FileCourier.Gzip.Deflate

/-- Reads from the front of a bit string. -/
abbrev Reader := StateT Bits (Except Fault)

def readNat (n : Nat) : Reader Nat := Bits.take n

/-- A failure that breaks a rule of the format. -/
def corrupt {α : Type} : Reader α := fun _ => .error .corrupt

/-- A number stated by a symbol of `table` and by its extra bits. -/
@[irreducible] def readScaled (table : List (Nat × Nat)) (symbol : Nat) : Reader Nat :=
  match table[symbol]? with
  | some (base, extra) => return base + (← readNat extra)
  | none => corrupt

/-- The length and distance of a repetition whose length symbol has been read. -/
def readRepetition (distanceCode : Code) (symbol : Nat) : Reader (Nat × Nat) := do
  let length ← readScaled lengths (symbol - 257)
  let symbol ← distanceCode.decode
  return (length, ← readScaled distances symbol)

/-- Symbols up to the end of a block, added to the output. `fuel` bounds their number. -/
def readSymbols (code distanceCode : Code) :
    Nat → Bits → Array UInt8 → Except (Fault × Array UInt8) (Array UInt8 × Bits)
  | 0, _, out => .error (.ended, out)
  | fuel + 1, b, out =>
    match code.decode b with
    | .error e => .error (e, out)
    | .ok (symbol, b) =>
      if symbol < 256 then readSymbols code distanceCode fuel b (out.push (UInt8.ofNat symbol))
      else if symbol = 256 then .ok (out, b)
      else
        match readRepetition distanceCode symbol b with
        | .error e => .error (e, out)
        | .ok ((length, distance), b) =>
          if out.size < distance then .error (.corrupt, out)
          else readSymbols code distanceCode fuel b (copy distance length out)

/-- A stored block: its length twice, the second time inverted, and its bytes. -/
def readStored (b : Bits) (out : Array UInt8) : Except (Fault × Array UInt8) (Array UInt8 × Bits) :=
  match b.rest with
  | l₀ :: l₁ :: m₀ :: m₁ :: rest =>
    let length := Bytes.ofLittleEndian [l₀, l₁]
    if length + Bytes.ofLittleEndian [m₀, m₁] ≠ 0xffff then .error (.corrupt, out)
    else if rest.length < length then .error (.ended, out ++ rest)
    else .ok (out ++ rest.take length, .ofBytes (rest.drop length))
  | _ => .error (.ended, out)

/-- How often a symbol repeats a length at least, and how many extra bits say how much more often. -/
def repeats (symbol : Nat) : Nat × Nat :=
  if symbol = 16 then (3, 2) else if symbol = 17 then (3, 3) else (11, 7)

/-- Word lengths until there are `count`, those so far given last first. Some symbols repeat the
last length or zero. -/
def readLengths (code : Code) (count : Nat) : Nat → List Nat → Reader (List Nat)
  | 0, _ => corrupt
  | fuel + 1, sofar =>
    if sofar.length = count then return sofar.reverse
    else do
      let symbol ← code.decode
      if symbol < 16 then readLengths code count fuel (symbol :: sofar)
      else
        let (least, extra) := repeats symbol
        let times := least + (← readNat extra)
        match if symbol = 16 then sofar.head? else some 0 with
        | none => corrupt
        | some last =>
          if count < sofar.length + times then corrupt
          else readLengths code count fuel (List.replicate times last ++ sofar)

/-- `n` numbers of three bits. -/
def readTriples : Nat → Reader (List Nat)
  | 0 => return []
  | n + 1 => return (← readNat 3) :: (← readTriples n)

/-- The code of the stated word lengths. Without any word each bit states the length zero;
otherwise no bit string may be left over. -/
def lengthCode? (stated : List Nat) : Option Code :=
  let lengths := (List.range 19).map fun symbol =>
    (((statedOrder.zip stated).find? fun e => e.1 == symbol).map (·.2)).getD 0
  if lengths.all (· == 0) then some (.node (.leaf 0) (.leaf 0))
  else
    let (code, homeless) := Code.ofLengths lengths
    if homeless.isEmpty && !code.hasGap then some code else none

/-- The codes that a block states for itself. The end of the block must have a word. -/
def readCodes : Reader (Code × Code) := do
  let literals := 257 + (← readNat 5)
  let distances := 1 + (← readNat 5)
  let stated := 4 + (← readNat 4)
  if 286 < literals || 30 < distances then corrupt
  else
    match lengthCode? (← readTriples stated) with
    | none => corrupt
    | some code =>
      let lengths ← readLengths code (literals + distances) (literals + distances + 1) []
      if lengths.getD 256 0 = 0 then corrupt
      else
        match Code.ofBlock? (lengths.take literals), Code.ofBlock? (lengths.drop literals) with
        | some code, some distanceCode => return (code, distanceCode)
        | _, _ => corrupt

/-- Whether a block is the last, and its kind. -/
def readHead : Reader (Nat × Nat) := do return (← readNat 1, ← readNat 2)

/-- What follows the head of a block. -/
def readBody (kind : Nat) (b : Bits) (out : Array UInt8) :
    Except (Fault × Array UInt8) (Array UInt8 × Bits) :=
  match kind with
  | 0 => readStored b out
  | 1 => readSymbols fixedCode fixedDistanceCode (b.size + 1) b out
  | 2 =>
    match readCodes b with
    | .error e => .error (e, out)
    | .ok ((code, distanceCode), b) => readSymbols code distanceCode (b.size + 1) b out
  | _ => .error (.corrupt, out)

/-- A block: whether it is the last, the output after it, and the input after it. -/
def readBlock (b : Bits) (out : Array UInt8) :
    Except (Fault × Array UInt8) (Bool × Array UInt8 × Bits) :=
  match readHead b with
  | .error e => .error (e, out)
  | .ok ((last, kind), b) => (readBody kind b out).map fun (out, b) => (last == 1, out, b)

/-- Blocks up to the last one, then the bytes after the byte it ends in. -/
def readBlocks : Nat → Bits → Array UInt8 → Except (Fault × Array UInt8) (Array UInt8 × Bytes)
  | 0, _, out => .error (.ended, out)
  | fuel + 1, b, out =>
    match readBlock b out with
    | .error e => .error e
    | .ok (true, out, b) => .ok (out, b.rest)
    | .ok (false, out, b) => readBlocks fuel b out

/-- The output of the blocks at the front of a byte string, and the bytes after them. -/
def inflate (s : Bytes) : Except (Fault × Array UInt8) (Array UInt8 × Bytes) :=
  readBlocks (8 * s.length + 1) (.ofBytes s) #[]

end FileCourier.Gzip.Deflate
