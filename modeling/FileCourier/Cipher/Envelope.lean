import FileCourier.Cipher.Chain
import FileCourier.Digest.Hashes

/-!
The envelope around every request and reply: sixteen random bytes, the encrypted payload, and a
keyed digest of both. The digest is checked before anything is decrypted.
-/

namespace FileCourier

/-- Why an envelope is not opened. -/
inductive EnvelopeError where
  | tooShort
  | forged
  | undecipherable
  deriving DecidableEq, Repr

namespace EnvelopeError

def message : EnvelopeError → Bytes
  | tooShort => "Decryption error: Crypticle: Message too short"
  | forged => "Authentication error: Crypticle: Message signature mismatch"
  | undecipherable => "Decryption error: Crypticle: Failed to finalize decryption"

end EnvelopeError

/-- How many bytes a session key has. -/
def SessionKey.length : Nat := 64

/-- A session key: thirty-two bytes to encrypt with and thirty-two to sign with. -/
structure SessionKey where
  bytes : Bytes
  size : bytes.length = SessionKey.length

namespace SessionKey

/-- The session key made of the given bytes, if their number is right. -/
def ofBytes? (bytes : Bytes) : Option SessionKey :=
  if h : bytes.length = length then some ⟨bytes, h⟩ else none

/-- The half that encrypts. -/
def cipher (key : SessionKey) : Aes.Key := .ofBytes (key.bytes.take 32)

def sign (key : SessionKey) (s : Bytes) : Bytes := Digest.Hmac.sign (key.bytes.drop 32) s

end SessionKey

namespace Envelope

/-- The envelope around a payload. -/
def pack (key : SessionKey) (iv : Aes.Block) (payload : Bytes) : Bytes :=
  let signed := iv.toBytes ++ key.cipher.encryptBytes iv payload
  signed ++ key.sign signed

/-- The payload of an envelope. -/
def unpack (key : SessionKey) (s : Bytes) : Except EnvelopeError Bytes :=
  if s.length < 64 then .error .tooShort
  else
    let signed := s.take (s.length - 32)
    if s.drop (s.length - 32) ≠ key.sign signed then .error .forged
    else
      match Aes.Block.take? signed with
      | none => .error .undecipherable
      | some (iv, rest) =>
        match key.cipher.decryptBytes? iv rest with
        | none => .error .undecipherable
        | some payload => .ok payload

end Envelope

end FileCourier
