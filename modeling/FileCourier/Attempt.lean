import FileCourier.Bytes

/-!
One try to reach the master, and the frame in which the request travels.
-/

/-! ## Frames

How one request travels. The size of what follows as eight bytes, the length of the kind as
one byte, the kind, and the payload up to the end.
-/

namespace FileCourier

/-- What a frame carries. -/
structure Frame where
  kind : Bytes
  payload : Bytes
  deriving DecidableEq, Repr

namespace Frame

/-- No kind is longer than this, since its length is one byte. -/
def maxKind : Nat := 255

/-- What follows the size of a frame. -/
def body (f : Frame) : Bytes := UInt8.ofNat f.kind.length :: (f.kind ++ f.payload)

/-- The bytes of a frame, if its kind is short enough. -/
def write? (f : Frame) : Option Bytes :=
  if maxKind < f.kind.length then none
  else some (Bytes.bigEndian 8 (1 + f.kind.length + f.payload.length) ++ f.body)

/-- The frame that has the given body. -/
def ofBody? : Bytes → Option Frame
  | [] => none
  | n :: r => if r.length < n.toNat then none else some ⟨r.take n.toNat, r.drop n.toNat⟩

/-- The frame at the front of an input, and the bytes after it. -/
def read? (s : Bytes) : Option (Frame × Bytes) :=
  if s.length < 8 then none
  else
    let size := Bytes.ofBigEndian (s.take 8)
    let rest := s.drop 8
    if rest.length < size then none
    else (ofBody? (rest.take size)).map fun f => (f, rest.drop size)

end Frame

end FileCourier

/-! ## Attempts

One try to reach the master: the host is looked up, a connection is opened, the frame of the request
is written, and the reply is read. A reply is its size as eight bytes and then that many bytes; it
arrives in whatever pieces the network makes of it. A try that is still under way when its time is
over has timed out.
-/

namespace FileCourier

/-- How a try ended. -/
inductive NetworkError where
  | success
  | connectionFailed
  | connectionLost
  | timeout
  | malformedReply
  | unknown
  deriving DecidableEq, Repr

namespace NetworkError

def message : NetworkError → Bytes
  | success => "Success"
  | connectionFailed => "Connection failed"
  | connectionLost => "Connection lost"
  | timeout => "Timeout"
  | malformedReply => "Malformed reply"
  | unknown => "Unknown error"

end NetworkError

/-- What happens on the connection of a try: its stages go well or not, bytes of the reply arrive, and
the peer closes the connection. -/
inductive Happening where
  | resolved (ok : Bool)
  | connected (ok : Bool)
  | written (ok : Bool)
  | arrived (bytes : Bytes)
  | closed
  deriving DecidableEq, Repr

/-- How far a try has come, and what of the reply is there already. -/
inductive Progress where
  | resolving
  | connecting
  | writing
  | readingSize (got : Bytes)
  | readingReply (size : Nat) (got : Bytes)
  | over (result : Except NetworkError Bytes)

namespace Progress

/-- A reply that announces more than this is no reply. -/
def maxReply : Nat := 1 <<< 32

/-- So many bytes announce the size of a reply. -/
def sizeWidth : Nat := 8

def readReply (size : Nat) (got : Bytes) : Progress :=
  if got.length < size then .readingReply size got else .over (.ok (got.take size))

def readSize (got : Bytes) : Progress :=
  if got.length < sizeWidth then .readingSize got
  else
    let size := Bytes.ofBigEndian (got.take sizeWidth)
    if maxReply < size then .over (.error .malformedReply)
    else readReply size (got.drop sizeWidth)

def step : Progress → Happening → Progress
  | .resolving, .resolved ok => if ok then .connecting else .over (.error .connectionFailed)
  | .connecting, .connected ok => if ok then .writing else .over (.error .connectionFailed)
  | .writing, .written ok => if ok then .readingSize [] else .over (.error .connectionLost)
  | .readingSize got, .arrived s => readSize (got ++ s)
  | .readingSize _, .closed => .over (.error .connectionLost)
  | .readingReply size got, .arrived s => readReply size (got ++ s)
  | .readingReply _ _, .closed => .over (.error .connectionLost)
  | p, _ => p

/-- What a try has come to when its time is over. -/
def result : Progress → Except NetworkError Bytes
  | .over r => r
  | _ => .error .timeout

end Progress

/-- What has to succeed before a reply can be read. -/
inductive Stage where
  | resolving
  | connecting
  | writing
  deriving DecidableEq, Repr

/-- What the peer and the network do in one try. -/
inductive Attempt where
  /-- A stage fails. -/
  | fails (stage : Stage)
  /-- A stage never ends, until the time is over. -/
  | hangs (stage : Stage)
  /-- The frame is written and the peer sends `stream`. Then it says nothing until the time is
  over, if `silent`, or closes the connection. -/
  | answers (stream : Bytes) (silent : Bool)
  deriving DecidableEq, Repr

namespace Attempt

/-- The stages before the given one go well. -/
def before : Stage → List Happening
  | .resolving => []
  | .connecting => [.resolved true]
  | .writing => [.resolved true, .connected true]

def failure : Stage → Happening
  | .resolving => .resolved false
  | .connecting => .connected false
  | .writing => .written false

/-- What happens when the frame is written and the reply arrives in the given pieces. -/
def dialogue (pieces : List Bytes) (silent : Bool) : List Happening :=
  before .writing ++ .written true :: (pieces.map .arrived ++ if silent then [] else [.closed])

/-- What happens, one after the other. -/
def happenings : Attempt → List Happening
  | fails stage => before stage ++ [failure stage]
  | hangs stage => before stage
  | answers stream silent => dialogue [stream] silent

/-- The reply that a try gives, or why it gives none. -/
def reply (a : Attempt) : Except NetworkError Bytes :=
  (a.happenings.foldl Progress.step .resolving).result

def wrote (a : Attempt) : Bool := a.happenings.contains (.written true)

end Attempt

end FileCourier
