import FileCourier.Rehearsal.Script
import FileCourier.Rehearsal.ScriptedLine
import FileCourier.Rehearsal.ScriptedMaster
import FileCourier.Surroundings

/-!
All that lies beyond the disk, kept in memory: random bytes, a master, connections to it, and the
web. It remembers which requests and transfers it has seen.
-/

namespace FileCourier.Rehearsal

/-- What goes wrong with one connection. -/
inductive Mishap where
  | nothing
  | fails (stage : Stage)
  | hangs (stage : Stage)
  /-- The frame is taken and the connection is closed. -/
  | drops
  deriving DecidableEq, Repr

/-- All that lies beyond the disk. -/
structure Beyond where
  random : Randomness := ⟨[], 0⟩
  key : SessionKey
  master : ScriptedMaster := {}
  /-- What goes wrong with the next connections. -/
  mishaps : List Mishap := []
  /-- What transfers bring, by address. -/
  pages : List (Bytes × Transfer) := []
  /-- The requests that have reached the master, the last one first. -/
  requests : List Message := []
  /-- The transfers that have been asked for, the last one first. -/
  transfers : List WebRequest := []

namespace Beyond

/-- The reason for which a transfer breaks off when nobody knows the address. -/
def unknownHost : Bytes := "Could not resolve host"

/-- How much of a reason is kept. -/
def maxReason : Nat := 255

/-- A transfer by its result: zero when it went well, and else a number with a reason, in place of
which the number is named when the reason is empty. -/
def transferOf (events : List WebEvent) (result : Int) (reason : Bytes) : Transfer :=
  let reason := reason.untilNul.take maxReason
  { events
    broken :=
      if result = 0 then none
      else some (if reason.isEmpty then "curl code " ++ Bytes.ofInt result else reason) }

/-- A fresh block. -/
def fresh : Action Beyond Aes.Block := do
  let s ← get
  let (block, random) := s.random.block
  set { s with random }
  return block

/-- Takes an envelope with a request and gives one with the reply. -/
def exchange (sealed : Bytes) : Action Beyond Bytes := do
  let key := (← get).key
  let request ← Action.ofExcept .wire
    (Wire.read (← Action.ofExcept .envelope (Envelope.unpack key sealed)))
  let earlier := (← get).requests.length
  modify fun s => { s with requests := request :: s.requests }
  let reply ← Action.ofExcept id ((← get).master.reply earlier request)
  return Envelope.pack key (← fresh) (Wire.write reply)

/-- A channel straight to the master. -/
def channel : Channel Beyond := fun p => exchange p.payload

/-- What happens on a connection to the master. -/
def connect (frame : Bytes) : Mishap → Action Beyond Attempt
  | .fails stage => return .fails stage
  | .hangs stage => return .hangs stage
  | .drops => return .answers [] false
  | .nothing => do
    match Frame.read? frame with
    | none => return .answers [] false
    | some (f, _) =>
      let reply ← exchange f.payload
      return .answers (Bytes.bigEndian 8 reply.length ++ reply) false

/-- Dials the master. -/
def dial : Dialer Beyond := fun _ _ frame => do
  let s ← get
  set { s with mishaps := s.mishaps.tail }
  connect frame (s.mishaps.headD .nothing)

def transfer : Web Beyond := fun request => do
  modify fun s => { s with transfers := request :: s.transfers }
  match (← get).pages.find? fun page => page.1 == request.url with
  | some (_, t) => return t
  | none => return ⟨[], some unknownHost⟩

/-- The script that a command names, as a shell finds it. -/
def findScript (searchPath : Option Bytes) (command : Bytes) (d : Disk) : Option Bytes :=
  let places : List Path :=
    if command.contains slash then [command]
    else ((LocalRoots.entries (searchPath.getD [])).map fun dir =>
      Path.mk (if dir.isEmpty then Path.dot else dir) / command)
  (places.find? fun p => d.isFile p && d.isExecutable p).bind fun p =>
    match d.read p with
    | .ok (_, script) => some script
    | .error _ => none

def runCommand (searchPath : Option Bytes) (line : Bytes) : Action (World Beyond) Bytes := do
  match Script.parse [] line.untilNul with
  | [command :: arguments] =>
    match findScript searchPath command (← get).disk with
    | some script => return Script.run (command :: arguments) script
    | none => return []
  | _ => return []

/-- The directory of the one other device. -/
def sharedMemory : Place := ["dev", "shm"]

/-- Whether one of two directories is on the other device and one is not. -/
def apart (p q : Place) : Bool := sharedMemory.isPrefixOf p != sharedMemory.isPrefixOf q

/-- More replies than any rehearsal gives for one file. -/
def patience : Nat := 1000000

/-- What a host offers in a rehearsal. -/
def surroundings (hostName : Bytes) (searchPath : Option Bytes) : Surroundings Beyond where
  hostName := hostName
  digests := Digest.library
  yaml := Yaml.flow
  searchPath := searchPath
  run := runCommand searchPath
  dial := dial
  fresh := fresh
  web := transfer
  apart := apart
  patience := patience

/-- A link straight to the master, with the usual tries. -/
def link (key : SessionKey) : MasterLink Beyond where
  channel := channel
  key := key
  fresh := fresh

end Beyond

end FileCourier.Rehearsal
