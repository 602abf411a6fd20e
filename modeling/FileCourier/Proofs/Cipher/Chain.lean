import FileCourier.Cipher.Chain
import FileCourier.Proofs.Cipher.Aes

/-!
# Chains and fillings

A chain of blocks is undone block by block: whoever decrypts sees the same previous block as whoever
encrypted. A filling tells its own length in every byte, so a byte string of whole blocks ends in at
most one filling, and that is the one `fillUp` adds.
-/

namespace FileCourier.Aes

/-! ## Blocks as byte strings -/

namespace Block

@[simp] theorem length_toBytes (b : Block) : b.toBytes.length = 16 := rfl

theorem take?_eq_some {s rest : Bytes} {b : Block} (h : take? s = some (b, rest)) :
    s = b.toBytes ++ rest := by
  unfold take? at h
  split at h
  · cases h
    rfl
  · cases h

theorem take?_eq_none_iff {s : Bytes} : take? s = none ↔ s.length < 16 := by
  rcases s with _ | ⟨a₀, _ | ⟨a₁, _ | ⟨a₂, _ | ⟨a₃, _ | ⟨b₀, _ | ⟨b₁, _ | ⟨b₂, _ | ⟨b₃,
    _ | ⟨c₀, _ | ⟨c₁, _ | ⟨c₂, _ | ⟨c₃, _ | ⟨d₀, _ | ⟨d₁, _ | ⟨d₂, _ | ⟨d₃, rest⟩⟩⟩⟩⟩⟩⟩⟩⟩⟩⟩⟩⟩⟩⟩⟩ <;>
    simp [take?]

theorem exists_toBytes_append {s : Bytes} (h : 16 ≤ s.length) :
    ∃ b rest, s = toBytes b ++ rest := by
  cases hs : take? s with
  | none => exact absurd (take?_eq_none_iff.1 hs) (Nat.not_lt.2 h)
  | some p => exact ⟨p.1, p.2, take?_eq_some hs⟩

theorem toBytes_append_inj {b d : Block} {s t : Bytes} (h : b.toBytes ++ s = d.toBytes ++ t) :
    b = d ∧ s = t := by
  have htake := congrArg take? h
  simpa using htake

/-- Induction over a byte string block by block. -/
@[elab_as_elim] theorem bytesInduction {motive : Bytes → Prop}
    (short : ∀ s, s.length < 16 → motive s)
    (block : ∀ b rest, motive rest → motive (toBytes b ++ rest)) (s : Bytes) : motive s := by
  rcases Nat.lt_or_ge s.length 16 with hs | hs
  · exact short s hs
  · obtain ⟨b, rest, rfl⟩ := exists_toBytes_append hs
    exact block b rest (bytesInduction short block rest)
termination_by s.length

theorem length_flatMap_toBytes (l : List Block) :
    (l.flatMap toBytes).length = 16 * l.length := by
  induction l with
  | nil => rfl
  | cons b l ih =>
    rw [List.flatMap_cons, List.length_append, ih, length_toBytes, List.length_cons]
    omega

theorem length_flatMap_toBytes_mod (l : List Block) : (l.flatMap toBytes).length % 16 = 0 := by
  rw [length_flatMap_toBytes]
  exact Nat.mul_mod_right 16 l.length

theorem exists_flatMap_toBytes {s : Bytes} (h : s.length % 16 = 0) :
    ∃ l : List Block, s = l.flatMap toBytes := by
  induction s using bytesInduction with
  | short s hs =>
    have hzero : s.length = 0 := by omega
    exact ⟨[], List.length_eq_zero_iff.1 hzero⟩
  | block b rest ih =>
    rw [List.length_append, length_toBytes] at h
    obtain ⟨l, rfl⟩ := ih (by omega)
    exact ⟨b :: l, rfl⟩

end Block

/-! ## Chains -/

namespace Direction

theorem chain_append (d : Direction) (previous : Block) (l m : List Block) :
    d.chain previous (l ++ m) =
      ((d.chain previous l).1 ++ (d.chain (d.chain previous l).2 m).1,
        (d.chain (d.chain previous l).2 m).2) := by
  induction l generalizing previous with
  | nil => rfl
  | cons b l ih => simp only [List.cons_append, chain, ih]

@[simp] theorem length_chain (d : Direction) (previous : Block) (l : List Block) :
    (d.chain previous l).1.length = l.length := by
  induction l generalizing previous with
  | nil => rfl
  | cons b l ih => simp only [chain, List.length_cons, ih]

/-- What `d` makes of a block after another, `e` turns back, and both chain the next one to the same
block. -/
def Undoes (e d : Direction) : Prop :=
  ∀ previous b, e.step previous (d.step previous b).1 = (b, (d.step previous b).2)

theorem Undoes.chain {d e : Direction} (h : e.Undoes d) (previous : Block) (l : List Block) :
    e.chain previous (d.chain previous l).1 = (l, (d.chain previous l).2) := by
  induction l generalizing previous with
  | nil => rfl
  | cons b l ih => simp only [Direction.chain, h previous b, ih]

end Direction

theorem Key.decryption_undoes_encryption (key : Key) : key.decryption.Undoes key.encryption := by
  intro previous b
  simp only [encryption, decryption, decrypt_encrypt]
  rw [Block.add_comm previous, Block.add_add_cancel]

theorem Key.encryption_undoes_decryption (key : Key) : key.encryption.Undoes key.decryption := by
  intro previous c
  simp only [encryption, decryption]
  rw [Block.add_comm previous, Block.add_add_cancel, encrypt_decrypt]

/-! ## Fillings -/

/-- The byte string ends in a possible filling. -/
def Filled (s : Bytes) : Prop :=
  ∃ n, 1 ≤ n ∧ n ≤ 16 ∧ List.replicate n (UInt8.ofNat n) <:+ s

theorem takeOff?_eq_some_iff {s p : Bytes} :
    takeOff? s = some p ↔
      ∃ n, 1 ≤ n ∧ n ≤ 16 ∧ s = p ++ List.replicate n (UInt8.ofNat n) := by
  constructor
  · intro h
    unfold takeOff? at h
    split at h
    · cases h
    · rename_i last hlast
      dsimp only at h
      split at h
      · rename_i hfilling
        obtain ⟨hone, hmost, -, hdrop⟩ := hfilling
        cases h
        refine ⟨last.toNat, hone, hmost, ?_⟩
        rw [UInt8.ofNat_toNat, ← hdrop, List.take_append_drop]
      · cases h
  · rintro ⟨n, hone, hmost, rfl⟩
    have hlast : (p ++ List.replicate n (UInt8.ofNat n)).getLast? = some (UInt8.ofNat n) := by
      obtain ⟨m, rfl⟩ := Nat.exists_eq_add_of_le' hone
      rw [List.replicate_succ', ← List.append_assoc, List.getLast?_concat]
    have hnat : (UInt8.ofNat n).toNat = n := by
      rw [UInt8.toNat_ofNat', Nat.mod_eq_of_lt (by omega)]
    have hlength : (p ++ List.replicate n (UInt8.ofNat n)).length - n = p.length := by simp
    have hfits : n ≤ (p ++ List.replicate n (UInt8.ofNat n)).length := by simp
    simp only [takeOff?, hlast, hnat, hlength]
    rw [if_pos ⟨hone, hmost, hfits, List.drop_left⟩, List.take_left]

theorem filled_iff {s : Bytes} : Filled s ↔ ∃ p, takeOff? s = some p := by
  constructor
  · rintro ⟨n, hone, hmost, p, rfl⟩
    exact ⟨p, takeOff?_eq_some_iff.2 ⟨n, hone, hmost, rfl⟩⟩
  · rintro ⟨p, hp⟩
    obtain ⟨n, hone, hmost, rfl⟩ := takeOff?_eq_some_iff.1 hp
    exact ⟨n, hone, hmost, List.suffix_append _ _⟩

theorem takeOff?_eq_none_iff {s : Bytes} : takeOff? s = none ↔ ¬Filled s := by
  rw [filled_iff]
  cases takeOff? s <;> simp

/-- A filling lies within the last sixteen bytes. -/
theorem takeOff?_append {a b : Bytes} (h : 16 ≤ b.length) :
    takeOff? (a ++ b) = (takeOff? b).map (a ++ ·) := by
  ext p
  rw [Option.map_eq_some_iff, takeOff?_eq_some_iff]
  constructor
  · rintro ⟨n, hone, hmost, heq⟩
    rcases List.append_eq_append_iff.1 heq with ⟨q, rfl, hb⟩ | ⟨q, rfl, hq⟩
    · exact ⟨q, takeOff?_eq_some_iff.2 ⟨n, hone, hmost, hb⟩, rfl⟩
    · -- a filling that began before `b` would have more than sixteen bytes
      have hlength := congrArg List.length hq
      rw [List.length_append, List.length_replicate] at hlength
      obtain rfl : q = [] := List.length_eq_zero_iff.1 (by omega)
      exact ⟨[], takeOff?_eq_some_iff.2 ⟨n, hone, hmost, hq.symm⟩, by simp⟩
  · rintro ⟨q, hq, rfl⟩
    obtain ⟨n, hone, hmost, rfl⟩ := takeOff?_eq_some_iff.1 hq
    exact ⟨n, hone, hmost, (List.append_assoc ..).symm⟩

theorem filling_mod (n : Nat) : filling (n % 16) = filling n := by
  rw [filling, filling, Nat.mod_mod]

theorem length_fillUp_mod (p : Bytes) : (fillUp p).length % 16 = 0 := by
  rw [fillUp, List.length_append, filling, List.length_replicate]
  omega

theorem le_length_fillUp (p : Bytes) : 16 ≤ (fillUp p).length := by
  rw [fillUp, List.length_append, filling, List.length_replicate]
  omega

/-- Among whole blocks, the bytes with a payload of `p` are those that `fillUp` makes of it. -/
theorem takeOff?_eq_some_iff_of_whole {s p : Bytes} (hs : s.length % 16 = 0) :
    takeOff? s = some p ↔ s = fillUp p := by
  rw [takeOff?_eq_some_iff]
  constructor
  · rintro ⟨n, hone, hmost, rfl⟩
    rw [List.length_append, List.length_replicate] at hs
    have hn : n = 16 - p.length % 16 := by omega
    rw [fillUp, filling, ← hn]
  · rintro rfl
    exact ⟨16 - p.length % 16, by omega, by omega, rfl⟩

end FileCourier.Aes
