import FileCourier.Cipher.Envelope
import FileCourier.Proofs.Cipher.Feed

/-!
# What an envelope lets through

An envelope is opened if and only if it is one that `pack` makes, and the payload is the one it was
made of. Everything else is refused in a fixed order: by its length, then by its signature, and only
a message with the right signature by what becomes of its ciphertext. So a wrong filling shows only
to whoever could sign.
-/

namespace FileCourier.Envelope

open Aes (Block Filled)

/-- All but the last thirty-two bytes of a message. -/
def signedPart (m : Bytes) : Bytes := m.take (m.length - 32)

/-- The last thirty-two bytes of a message are the signature of the others. -/
def Signed (key : SessionKey) (m : Bytes) : Prop :=
  m.drop (m.length - 32) = key.sign (signedPart m)

/-- What stands between the first sixteen bytes and the last thirty-two. -/
def ciphertext (m : Bytes) : Bytes := (signedPart m).drop 16

/-- The ciphertext is not made of whole blocks, or they do not end in a filling once they are
decrypted after the first sixteen bytes. -/
def Spoilt (key : SessionKey) (m : Bytes) : Prop :=
  (ciphertext m).length % 16 ≠ 0 ∨
    ∃ (iv : Block) (l : List Block),
      iv.toBytes = m.take 16 ∧ ciphertext m = l.flatMap Block.toBytes ∧
      ¬Filled ((key.cipher.decryption.chain iv l).1.flatMap Block.toBytes)

/-- Why a message is refused: the first of three tests that it fails. Of these errors only `forged`
is one of authentication. -/
inductive Refused (key : SessionKey) (m : Bytes) : EnvelopeError → Prop where
  | tooShort : m.length < 64 → Refused key m .tooShort
  | forged : 64 ≤ m.length → ¬Signed key m → Refused key m .forged
  | undecipherable : 64 ≤ m.length → Signed key m → Spoilt key m → Refused key m .undecipherable

variable {key : SessionKey} {m payload : Bytes} {iv : Block}

/-! ## Parts of a message -/

theorem length_signedPart (m : Bytes) : (signedPart m).length = m.length - 32 := by
  rw [signedPart, List.length_take]
  omega

theorem take_signedPart (h : 64 ≤ m.length) : (signedPart m).take 16 = m.take 16 := by
  rw [signedPart, List.take_take, Nat.min_eq_left (by omega)]

/-- A message that is long enough starts with a block, and the ciphertext follows. -/
theorem exists_signedPart (h : 64 ≤ m.length) :
    ∃ iv : Block, iv.toBytes = m.take 16 ∧ signedPart m = iv.toBytes ++ ciphertext m := by
  have hlong : 16 ≤ (signedPart m).length := by
    rw [length_signedPart]
    omega
  obtain ⟨iv, rest, hrest⟩ := Block.exists_toBytes_append hlong
  have hfirst : iv.toBytes = m.take 16 := by
    rw [← take_signedPart h, hrest]
    rfl
  refine ⟨iv, hfirst, ?_⟩
  rw [ciphertext, hfirst, ← take_signedPart h, List.take_append_drop]

theorem iv_unique {iv iv' : Block} (h : iv.toBytes = m.take 16) (h' : iv'.toBytes = m.take 16) :
    iv = iv' := by
  have hsame : iv.toBytes ++ [] = iv'.toBytes ++ [] := by rw [h, h']
  exact (Block.toBytes_append_inj hsame).1

section Pack

variable (key : SessionKey) (iv : Block) (payload : Bytes)

theorem length_sign (s : Bytes) : (key.sign s).length = 32 := Digest.Hmac.length_sign _ _

theorem signedPart_pack :
    signedPart (pack key iv payload) = iv.toBytes ++ key.cipher.encryptBytes iv payload := by
  rw [signedPart, pack, List.length_append, length_sign, Nat.add_sub_cancel, List.take_left]

theorem signed_pack : Signed key (pack key iv payload) := by
  rw [Signed, signedPart_pack, pack, List.length_append, length_sign, Nat.add_sub_cancel,
    List.drop_left]

theorem le_length_pack : 64 ≤ (pack key iv payload).length := by
  have hfilled := Aes.le_length_fillUp payload
  rw [pack, List.length_append, List.length_append, length_sign, Block.length_toBytes,
    Aes.Key.length_encryptBytes]
  omega

theorem take_pack : (pack key iv payload).take 16 = iv.toBytes := by
  rw [← take_signedPart (le_length_pack key iv payload), signedPart_pack]
  rfl

end Pack

theorem eq_pack_of_signed (hsigned : Signed key m)
    (hpart : signedPart m = iv.toBytes ++ key.cipher.encryptBytes iv payload) :
    m = pack key iv payload := by
  calc m = signedPart m ++ m.drop (m.length - 32) := (List.take_append_drop _ _).symm
    _ = signedPart m ++ key.sign (signedPart m) := by rw [hsigned]
    _ = pack key iv payload := by rw [hpart, pack]

/-! ## The verdict -/

theorem unpack_of_signed (h : 64 ≤ m.length) (hsigned : Signed key m)
    (hpart : signedPart m = iv.toBytes ++ ciphertext m) :
    unpack key m =
      (key.cipher.decryptBytes? iv (ciphertext m)).elim (.error .undecipherable) .ok := by
  have htake : Block.take? (m.take (m.length - 32)) = some (iv, ciphertext m) := by
    rw [← signedPart, hpart, Block.take?_toBytes]
  have hmatch : ¬m.drop (m.length - 32) ≠ key.sign (m.take (m.length - 32)) :=
    fun hne => hne hsigned
  simp only [unpack, if_neg (Nat.not_lt.2 h), if_neg hmatch, htake]
  cases key.cipher.decryptBytes? iv (ciphertext m) <;> rfl

/-- A message that no payload is packed into is refused. -/
theorem pack_or_refused (key : SessionKey) (m : Bytes) :
    (∃ iv payload, m = pack key iv payload) ∨ ∃ e, Refused key m e := by
  rcases Nat.lt_or_ge m.length 64 with hlen | hlen
  · exact .inr ⟨_, .tooShort hlen⟩
  by_cases hsigned : Signed key m
  · obtain ⟨iv, hiv, hpart⟩ := exists_signedPart hlen
    cases hdecrypt : key.cipher.decryptBytes? iv (ciphertext m) with
    | none =>
      have hspoilt : Spoilt key m := by
        refine ((Aes.Key.decryptBytes?_eq_none_iff _ _).1 hdecrypt).imp_right ?_
        rintro ⟨l, hl, hfilling⟩
        exact ⟨iv, l, hiv, hl, hfilling⟩
      exact .inr ⟨_, .undecipherable hlen hsigned hspoilt⟩
    | some payload =>
      rw [Aes.Key.decryptBytes?_eq_some_iff] at hdecrypt
      rw [hdecrypt] at hpart
      exact .inl ⟨iv, payload, eq_pack_of_signed hsigned hpart⟩
  · exact .inr ⟨_, .forged hlen hsigned⟩

theorem unpack_pack (key : SessionKey) (iv : Block) (payload : Bytes) :
    unpack key (pack key iv payload) = .ok payload := by
  have hciphertext : ciphertext (pack key iv payload) = key.cipher.encryptBytes iv payload := by
    rw [ciphertext, signedPart_pack]
    rfl
  have hdecrypt := (Aes.Key.decryptBytes?_eq_some_iff key.cipher iv).2 hciphertext
  rw [unpack_of_signed (le_length_pack key iv payload) (signed_pack key iv payload)
    (by rw [hciphertext, signedPart_pack]), hdecrypt, Option.elim_some]

theorem Refused.unpack_eq {e : EnvelopeError} (h : Refused key m e) : unpack key m = .error e := by
  cases h with
  | tooShort hlen => rw [unpack, if_pos hlen]
  | forged hlen hsigned =>
    rw [unpack, if_neg (Nat.not_lt.2 hlen)]
    exact if_pos hsigned
  | undecipherable hlen hsigned hspoilt =>
    obtain ⟨iv, hiv, hpart⟩ := exists_signedPart hlen
    have hdecrypt : key.cipher.decryptBytes? iv (ciphertext m) = none := by
      refine (Aes.Key.decryptBytes?_eq_none_iff _ _).2 (hspoilt.imp_right ?_)
      rintro ⟨iv', l, hiv', hl, hfilling⟩
      cases iv_unique hiv hiv'
      exact ⟨l, hl, hfilling⟩
    rw [unpack_of_signed hlen hsigned hpart, hdecrypt, Option.elim_none]

theorem unpack_eq_ok_iff : unpack key m = .ok payload ↔ ∃ iv, m = pack key iv payload := by
  constructor
  · intro h
    rcases pack_or_refused key m with ⟨iv, payload', rfl⟩ | ⟨e, he⟩
    · rw [unpack_pack] at h
      cases h
      exact ⟨iv, rfl⟩
    · rw [he.unpack_eq] at h
      cases h
  · rintro ⟨iv, rfl⟩
    exact unpack_pack key iv payload

theorem unpack_eq_error_iff {e : EnvelopeError} : unpack key m = .error e ↔ Refused key m e := by
  constructor
  · intro h
    rcases pack_or_refused key m with ⟨iv, payload, rfl⟩ | ⟨e', he⟩
    · rw [unpack_pack] at h
      cases h
    · rw [he.unpack_eq] at h
      cases h
      exact he
  · exact Refused.unpack_eq

/-- A message is opened just when it is the envelope around its payload after its own first block,
and everything else is refused. -/
theorem unpack_iff_pack (key : SessionKey) (m : Bytes) :
    (∀ iv payload, unpack key (pack key iv payload) = .ok payload) ∧
      (∀ payload, unpack key m = .ok payload ↔
        ∃ iv : Block, iv.toBytes = m.take 16 ∧ m = pack key iv payload) ∧
      ∀ e, unpack key m = .error e ↔ Refused key m e := by
  refine ⟨unpack_pack key, ?_, fun e => unpack_eq_error_iff⟩
  intro payload
  rw [unpack_eq_ok_iff]
  constructor
  · rintro ⟨iv, rfl⟩
    exact ⟨iv, (take_pack key iv payload).symm, rfl⟩
  · rintro ⟨iv, -, h⟩
    exact ⟨iv, h⟩

end FileCourier.Envelope
