import FileCourier.Action
import FileCourier.Attempt

/-!
How the master is asked: over a line of several tries, in envelopes.
-/

/-! ## The line

A request is put into a frame, and each try opens a connection of its own
until one brings a reply.
-/

namespace FileCourier

/-- Where the master listens. -/
structure Endpoint where
  host : Bytes
  port : UInt16
  deriving DecidableEq, Repr

def Endpoint.text (e : Endpoint) : Bytes := e.host ++ ":" ++ Bytes.ofNat e.port.toNat

/-- What is given to a channel: a payload of some kind, how often to try, and how many seconds to
wait each time. -/
structure Parcel where
  kind : Bytes
  payload : Bytes
  tries : Int
  timeout : Int
  deriving DecidableEq, Repr

/-- Whatever takes a parcel and brings the reply. -/
abbrev Channel (σ : Type) := Parcel → Action σ Bytes

/-- Whatever opens a connection for one try, given the seconds to wait and the frame. -/
abbrev Dialer (σ : Type) := Endpoint → Int → Bytes → Action σ Attempt

namespace Line

variable {σ : Type}

/-- Tries until a try brings a reply, at most `n` times; `last` is how the try before ended. -/
def tryUpTo (dial : Action σ Attempt) : Nat → NetworkError → Action σ (Except NetworkError Bytes)
  | 0, last => return .error last
  | n + 1, _ => do
    match (← dial).reply with
    | .ok reply => return .ok reply
    | .error last => tryUpTo dial n last

/-- The channel that dials an endpoint. -/
def channel (dial : Dialer σ) (e : Endpoint) : Channel σ := fun p => do
  match (Frame.mk p.kind p.payload).write? with
  | none => throw (.misuse (.kindTooLong p.kind))
  | some frame =>
    match ← tryUpTo (dial e p.timeout frame) p.tries.toNat .timeout with
    | .ok reply => return reply
    | .error last => throw (.unreachable ("Request to " ++ e.text ++ " timed out") last)

end Line

end FileCourier

/-! ## The link

Every request is written, put into an envelope and sent, and what comes back
is an envelope around the written reply.
-/

namespace FileCourier

/-- Whoever answers requests. -/
abbrev Master (σ : Type) := Message → Action σ Message

/-- How often a request is tried where nothing else is said. -/
def MasterLink.defaultTries : Int := 3

/-- How many seconds are waited where nothing else is said. -/
def MasterLink.defaultTimeout : Int := 60

/-- What is needed to ask the master: a channel, the session key, fresh random blocks, and how often
and how long to try. -/
structure MasterLink (σ : Type) where
  channel : Channel σ
  key : SessionKey
  fresh : Action σ Aes.Block
  tries : Int := MasterLink.defaultTries
  timeout : Int := MasterLink.defaultTimeout

namespace MasterLink

variable {σ : Type}

/-- The kind of every request. -/
def kind : Bytes := "aes"

/-- The link over a channel under a key, if there are both. -/
def of? (channel : Option (Channel σ)) (key : Option SessionKey) (fresh : Action σ Aes.Block)
    (tries timeout : Int) : Except Fault (MasterLink σ) :=
  match channel, key with
  | some channel, some key => .ok ⟨channel, key, fresh, tries, timeout⟩
  | _, _ => .error (.misuse .noChannel)

def ask (link : MasterLink σ) : Master σ := fun request => do
  let iv ← link.fresh
  let reply ← link.channel
    ⟨kind, Envelope.pack link.key iv (Wire.write request), link.tries, link.timeout⟩
  let body ← Action.ofExcept .envelope (Envelope.unpack link.key reply)
  Action.ofExcept .wire (Wire.read body)

end MasterLink

end FileCourier
