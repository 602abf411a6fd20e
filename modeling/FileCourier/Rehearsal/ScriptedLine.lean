import FileCourier.Cipher.Aes
import FileCourier.MasterLink

/-!
Lines to a master that follow a script, and the random bytes that they use.
-/

/-! ## Random bytes

They can be foretold: a seed is repeated without end.
-/

namespace FileCourier.Rehearsal

/-- A stream of bytes that repeats a seed. An empty seed stands for zeros. -/
structure Randomness where
  seed : Bytes
  /-- How many bytes have been taken. -/
  taken : Nat := 0
  deriving DecidableEq, Repr

namespace Randomness

/-- The byte at a position of the stream. -/
def byteAt (r : Randomness) (i : Nat) : UInt8 := r.seed.getD (i % r.seed.length) 0

/-- The next `n` bytes. -/
def take (r : Randomness) (n : Nat) : Bytes × Randomness :=
  ((List.range' r.taken n).map r.byteAt, { r with taken := r.taken + n })

def block (r : Randomness) : Aes.Block × Randomness :=
  match r.take 16 with
  | (s, r) =>
    (match Aes.Block.take? s with
      | some (b, _) => b
      | none => .zero, r)

end Randomness

end FileCourier.Rehearsal

/-! ## Lines

Lines to a master that follow a script: one attempt after the other, or one reply written down
beforehand. Both remember what was sent.
-/

namespace FileCourier.Rehearsal

/-- What was seen of an attempt. -/
inductive Sight where
  | resolving (e : Endpoint)
  | wrote (frame : Bytes)
  deriving DecidableEq, Repr

/-- Attempts that happen one after the other. -/
structure ScriptedLine where
  attempts : List Attempt
  /-- What has been seen, in its order. -/
  seen : List Sight := []
  deriving DecidableEq, Repr

/-- Dials along the script. When it is used up the connection is refused. -/
def ScriptedLine.dial : Dialer ScriptedLine := fun e _ frame => do
  let s ← get
  let attempt := s.attempts.headD (.fails .connecting)
  set (ScriptedLine.mk s.attempts.tail
    (s.seen ++ .resolving e :: if attempt.wrote then [.wrote frame] else []))
  return attempt

/-- A reply written down beforehand. -/
inductive CannedReply where
  | unreachable
  | raw (s : Bytes)
  /-- A body that is put into an envelope under a key. -/
  | packed (key body : Bytes)
  deriving DecidableEq, Repr

/-- A channel that gives one reply. -/
structure CannedChannel where
  random : Randomness
  reply : CannedReply
  /-- What has been sent, in its order. -/
  sent : List Parcel := []

namespace CannedChannel

def fresh : Action CannedChannel Aes.Block := do
  let s ← get
  let (block, random) := s.random.block
  set { s with random }
  return block

def send : Channel CannedChannel := fun p => do
  modify fun s => { s with sent := s.sent ++ [p] }
  match (← get).reply with
  | .unreachable => throw (.unreachable "unreachable" .timeout)
  | .raw s => return s
  | .packed key body =>
    let key ← Action.ofOption (.key .wrongSize) (SessionKey.ofBytes? key)
    return Envelope.pack key (← fresh) body

end CannedChannel

end FileCourier.Rehearsal
