import FileCourier.Digest.Hashes

/-!
The digests that a file can be checked by. A library knows them by name; which names it knows, and what
it computes under each, is its own affair.
-/

namespace FileCourier

/-- The step at which the computation of a digest fails. -/
inductive DigestStep where
  | create
  | setUp
  | update
  | finish
  deriving DecidableEq, Repr

/-- Why there is no digest of a message. -/
inductive DigestError where
  /-- No algorithm has this name. -/
  | unknown (name : Bytes)
  | failed (step : DigestStep)
  deriving DecidableEq, Repr

namespace DigestError

def message : DigestError → Bytes
  | unknown name => "Unsupported hash type: " ++ name
  | failed .create => "Digest: Failed to create hash context"
  | failed .setUp => "Digest: Failed to initialize hash context"
  | failed .update => "Digest: Failed to update hash"
  | failed .finish => "Digest: Failed to finalize hash"

end DigestError

/-- The algorithms of a library. One that has the name may still fail on a message. -/
structure Digests where
  find? : Bytes → Option (Bytes → Except DigestStep Bytes)

namespace Digests

/-- The digest of a message in hexadecimal under a name. The name is looked up as far as its first
NUL. -/
def hexOf (l : Digests) (name content : Bytes) : Except DigestError Bytes :=
  match l.find? name.untilNul with
  | none => .error (.unknown name)
  | some hash => ((hash content).map Bytes.hex).mapError .failed

end Digests

namespace Digest

/-- The algorithm for files outside every root, and for replies that name none. -/
def defaultName : Bytes := "md5"

/-- Some widespread algorithms. -/
def widespread : List (Bytes × (Bytes → Bytes)) := [
  ("md5", Md5.hash), ("sha1", Sha1.hash), ("sha224", Sha256.hash224), ("sha256", Sha256.hash256),
  ("sha384", Sha512.hash384), ("sha512", Sha512.hash512)]

/-- A library that knows the widespread algorithms, by their names in capitals or not. -/
def library : Digests where
  find? name :=
    (widespread.find? fun a => a.1 == name.map Bytes.lower).map fun a content => .ok (a.2 content)

end Digest

/-- The digest of a file together with the name it was asked for under. -/
structure DigestRecord where
  algorithm : Bytes
  sum : Bytes
  deriving DecidableEq, Repr

end FileCourier
