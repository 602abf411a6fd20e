import FileCourier.Cipher.Chain
import FileCourier.Proofs.Cipher.Chain

/-!
# Feeding a cipher in pieces

How a byte string is cut into pieces makes no difference to what a cipher makes of it
(`Direction.update_append`), so encryption and decryption act on the whole: the one chains the
blocks of the filled payload, the other takes the filling off the chained blocks. Together they are
each other's inverse, and decryption accepts nothing but what encryption makes
(`Key.decryptBytes?_eq_some_iff`).
-/

namespace FileCourier.Aes

namespace Block

variable {waits : Bool}

theorem cut_of_short {s : Bytes} (h : s.length < 16) : cut waits s = ([], s) := by
  unfold cut
  split
  · simp at h
    omega
  · rfl

theorem cut_toBytes (b : Block) :
    cut waits b.toBytes = if waits then ([], b.toBytes) else ([b], []) := by
  cases waits <;> rfl

theorem cut_toBytes_append {b : Block} {s : Bytes} (h : waits = false ∨ s ≠ []) :
    cut waits (b.toBytes ++ s) = (b :: (cut waits s).1, (cut waits s).2) := by
  have hgoes : (waits && s.isEmpty) = false := by
    rcases h with rfl | h
    · rfl
    · simp [h]
  simp only [toBytes, List.cons_append, List.nil_append, cut, hgoes]
  rfl

/-- A block waits only at the very end. -/
theorem waits_or_goes (waits : Bool) (s : Bytes) :
    (waits = true ∧ s = []) ∨ (waits = false ∨ s ≠ []) := by
  cases waits <;> cases s <;> simp

/-- What was held is cut together with the bytes that follow. -/
theorem cut_append (s t : Bytes) :
    cut waits (s ++ t) =
      ((cut waits s).1 ++ (cut waits ((cut waits s).2 ++ t)).1,
        (cut waits ((cut waits s).2 ++ t)).2) := by
  induction s using bytesInduction with
  | short s hs => simp only [cut_of_short hs, List.nil_append]
  | block b rest ih =>
    rcases waits_or_goes waits rest with ⟨rfl, rfl⟩ | hgoes
    · simp only [List.append_nil, cut_toBytes, if_pos, List.nil_append]
    · have hgoes' : waits = false ∨ rest ++ t ≠ [] :=
        hgoes.imp_right (List.append_ne_nil_of_left_ne_nil · t)
      rw [List.append_assoc, cut_toBytes_append hgoes', cut_toBytes_append hgoes, ih,
        List.cons_append]

theorem cut_flatMap_append (l : List Block) {s : Bytes} (h : waits = false ∨ s ≠ []) :
    cut waits (l.flatMap toBytes ++ s) = (l ++ (cut waits s).1, (cut waits s).2) := by
  induction l with
  | nil => rfl
  | cons b l ih =>
    have hgoes : waits = false ∨ l.flatMap toBytes ++ s ≠ [] :=
      h.imp_right (List.append_ne_nil_of_right_ne_nil _)
    rw [List.flatMap_cons, List.append_assoc, cut_toBytes_append hgoes, ih, List.cons_append]

/-- Cutting loses nothing. -/
theorem flatMap_cut_append (waits : Bool) (s : Bytes) :
    (cut waits s).1.flatMap toBytes ++ (cut waits s).2 = s := by
  induction s using bytesInduction with
  | short s hs => rw [cut_of_short hs, List.flatMap_nil, List.nil_append]
  | block b rest ih =>
    rcases waits_or_goes waits rest with ⟨rfl, rfl⟩ | hgoes
    · rw [List.append_nil, cut_toBytes, if_pos rfl, List.flatMap_nil, List.nil_append]
    · rw [cut_toBytes_append hgoes, List.flatMap_cons, List.append_assoc, ih]

theorem length_cut_mod (waits : Bool) (s : Bytes) :
    (cut waits s).2.length % 16 = s.length % 16 := by
  have hlength := congrArg List.length (flatMap_cut_append waits s)
  rw [List.length_append, length_flatMap_toBytes] at hlength
  omega

end Block

/-! ## Pieces -/

namespace Direction

variable (d : Direction)

/-- Two pieces at once are the one and then the other. -/
theorem update_append (f : Feed) (s t : Bytes) :
    d.update f (s ++ t) =
      ((d.update f s).1 ++ (d.update (d.update f s).2 t).1, (d.update (d.update f s).2 t).2) := by
  simp only [update, ← List.append_assoc, Block.cut_append (f.held ++ s), chain_append,
    List.flatMap_append]

theorem feed_cons (f : Feed) (piece : Bytes) (l : List Bytes) :
    d.feed f (piece :: l) = d.update f (piece ++ l.flatten) := by
  induction l generalizing f piece with
  | nil => simp [feed]
  | cons second l ih =>
    have hfirst : d.feed f (piece :: second :: l) =
        ((d.update f piece).1 ++ (d.feed (d.update f piece).2 (second :: l)).1,
          (d.feed (d.update f piece).2 (second :: l)).2) := rfl
    rw [hfirst, ih, List.flatten_cons, update_append d f piece]

theorem feed_start (iv : Block) (l : List Bytes) :
    d.feed ⟨iv, []⟩ l = d.update ⟨iv, []⟩ l.flatten := by
  cases l with
  | nil => rfl
  | cons piece l => rw [feed_cons, List.flatten_cons]

end Direction

theorem flatten_pieces (size count : Nat) (s : Bytes) :
    (Digest.pieces size count s).flatten = s.take (count * size) := by
  induction count generalizing s with
  | zero => simp [Digest.pieces]
  | succ count ih =>
    rw [Digest.pieces, List.flatten_cons, ih, Nat.succ_mul, Nat.add_comm, List.take_add]

@[simp] theorem flatten_inPieces (s : Bytes) : (inPieces s).flatten = s := by
  rw [inPieces, flatten_pieces]
  apply List.take_of_length_le
  simp only [bufferSize]
  omega

/-! ## Whole payloads -/

namespace Key

variable (key : Key) (iv : Block)

/-- Encryption of a payload whose filled form consists of the blocks `l`. -/
theorem encryptBytes_of_fillUp {payload : Bytes} {l : List Block}
    (h : fillUp payload = l.flatMap Block.toBytes) :
    key.encryptBytes iv payload = (key.encryption.chain iv l).1.flatMap Block.toBytes := by
  have hheld : filling (key.encryption.update ⟨iv, []⟩ payload).2.held.length =
      filling payload.length := by
    rw [← filling_mod, ← filling_mod payload.length]
    congr 1
    exact Block.length_cut_mod false payload
  have hcut : Block.cut false (fillUp payload) = (l, []) := by
    rw [h, ← List.append_nil (l.flatMap Block.toBytes), Block.cut_flatMap_append l (.inl rfl)]
    exact congrArg (·, []) (List.append_nil l)
  calc key.encryptBytes iv payload
      = (key.encryption.update ⟨iv, []⟩ (fillUp payload)).1 := by
        simp only [encryptBytes, Direction.feed_start, flatten_inPieces, hheld, fillUp,
          Direction.update_append]
    _ = (key.encryption.chain iv l).1.flatMap Block.toBytes := by
        simp only [Direction.update, List.nil_append, encryption, hcut]

theorem length_encryptBytes (payload : Bytes) :
    (key.encryptBytes iv payload).length = (fillUp payload).length := by
  obtain ⟨l, hl⟩ := Block.exists_flatMap_toBytes (length_fillUp_mod payload)
  rw [encryptBytes_of_fillUp key iv hl, hl, Block.length_flatMap_toBytes,
    Block.length_flatMap_toBytes, Direction.length_chain]

/-- Whole blocks are decrypted, and the filling of the last is that of all of them. -/
theorem decryptBytes?_flatMap (l : List Block) :
    key.decryptBytes? iv (l.flatMap Block.toBytes) =
      takeOff? ((key.decryption.chain iv l).1.flatMap Block.toBytes) := by
  rw [decryptBytes?, Direction.feed_start, flatten_inPieces]
  rcases List.eq_nil_or_concat l with rfl | ⟨init, b, rfl⟩
  · rfl
  · -- all blocks but the last have been given out, and the last one is held
    rw [List.concat_eq_append]
    have hcut : Block.cut true ((init ++ [b]).flatMap Block.toBytes) = (init, b.toBytes) := by
      rw [List.flatMap_append, List.flatMap_singleton,
        Block.cut_flatMap_append init (.inr (by simp [Block.toBytes])), Block.cut_toBytes]
      simp
    have htake : Block.take? b.toBytes = some (b, []) := Block.take?_toBytes b []
    simp only [Direction.update, List.nil_append, decryption, hcut, htake]
    rw [Direction.chain_append, List.flatMap_append, ← takeOff?_append (by simp)]
    simp [Direction.chain]

theorem decryptBytes?_of_ragged {s : Bytes} (h : s.length % 16 ≠ 0) :
    key.decryptBytes? iv s = none := by
  rw [decryptBytes?, Direction.feed_start, flatten_inPieces]
  have hheld : (key.decryption.update ⟨iv, []⟩ s).2.held.length % 16 ≠ 0 := by
    rw [← Block.length_cut_mod true] at h
    exact h
  dsimp only
  split
  · rename_i b htake
    rw [Block.take?_eq_some htake] at hheld
    simp at hheld
  · rfl

/-- Decryption gives a payload just for what encryption makes of it. -/
theorem decryptBytes?_eq_some_iff {s payload : Bytes} :
    key.decryptBytes? iv s = some payload ↔ s = key.encryptBytes iv payload := by
  constructor
  · intro h
    by_cases hwhole : s.length % 16 = 0
    · obtain ⟨l, rfl⟩ := Block.exists_flatMap_toBytes hwhole
      rw [decryptBytes?_flatMap,
        takeOff?_eq_some_iff_of_whole (Block.length_flatMap_toBytes_mod _)] at h
      rw [encryptBytes_of_fillUp key iv h.symm, key.encryption_undoes_decryption.chain]
    · rw [decryptBytes?_of_ragged key iv hwhole] at h
      cases h
  · rintro rfl
    obtain ⟨l, hl⟩ := Block.exists_flatMap_toBytes (length_fillUp_mod payload)
    rw [encryptBytes_of_fillUp key iv hl, decryptBytes?_flatMap,
      key.decryption_undoes_encryption.chain,
      takeOff?_eq_some_iff_of_whole (Block.length_flatMap_toBytes_mod _), hl]

/-- Decryption fails for a wrong length, and for blocks that do not end in a filling. -/
theorem decryptBytes?_eq_none_iff {s : Bytes} :
    key.decryptBytes? iv s = none ↔
      s.length % 16 ≠ 0 ∨
        ∃ l, s = l.flatMap Block.toBytes ∧
          ¬Filled ((key.decryption.chain iv l).1.flatMap Block.toBytes) := by
  constructor
  · intro h
    by_cases hwhole : s.length % 16 = 0
    · obtain ⟨l, rfl⟩ := Block.exists_flatMap_toBytes hwhole
      rw [decryptBytes?_flatMap, takeOff?_eq_none_iff] at h
      exact .inr ⟨l, rfl, h⟩
    · exact .inl hwhole
  · rintro (hragged | ⟨l, rfl, hl⟩)
    · exact decryptBytes?_of_ragged key iv hragged
    · rwa [decryptBytes?_flatMap, takeOff?_eq_none_iff]

end Key

end FileCourier.Aes
