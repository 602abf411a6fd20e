import FileCourier.Cipher.Aes

/-!
# Encryption and decryption undo each other

Each step of a round has its inverse: substitutes stand in one table and originals in another, rows
are turned left and right, and the matrix that mixes a column is undone by `14a + 11b + 13c + 9d`.
The last holds because doubling is additive. So `Key.decrypt` undoes `Key.encrypt` step by step
(`Key.decrypt_encrypt`), and the other way round (`Key.encrypt_decrypt`).
-/

namespace FileCourier.Aes

/-! ## Bytes -/

theorem forall_byte {p : UInt8 → Prop} (h : ∀ n : Fin 256, p (UInt8.ofFin n)) (b : UInt8) :
    p b := by
  have hb := h b.toFin
  rwa [UInt8.ofFin_toFin] at hb

theorem substitute_eq (b : UInt8) : substitute b = substitutes.toList.getD b.toNat 0 := by
  simp [substitute]

theorem restore_eq (b : UInt8) : restore b = originals.toList.getD b.toNat 0 := by
  simp [restore]

/-- Two tables that lead back to every byte. -/
theorem getD_getD_of_map {table back : List UInt8}
    (h : table.map (fun b => back.getD b.toNat 0) = (List.range 256).map UInt8.ofNat) (b : UInt8) :
    back.getD (table.getD b.toNat 0).toNat 0 = b := by
  have hb := congrArg (·[b.toNat]?) h
  simp only [List.getElem?_map, List.getElem?_range b.toNat_lt, Option.map_some,
    UInt8.ofNat_toNat, Option.map_eq_some_iff] at hb
  obtain ⟨c, hc, hback⟩ := hb
  have htable : table.getD b.toNat 0 = c := by
    rw [List.getD_eq_getElem?_getD, hc, Option.getD_some]
  rwa [htable]

theorem originals_of_substitutes :
    substitutes.toList.map (fun b => originals.toList.getD b.toNat 0) =
      (List.range 256).map UInt8.ofNat := by decide +kernel

theorem substitutes_of_originals :
    originals.toList.map (fun b => substitutes.toList.getD b.toNat 0) =
      (List.range 256).map UInt8.ofNat := by decide +kernel

theorem restore_substitute (b : UInt8) : restore (substitute b) = b := by
  rw [substitute_eq, restore_eq]
  exact getD_getD_of_map originals_of_substitutes b

theorem substitute_restore (b : UInt8) : substitute (restore b) = b := by
  rw [substitute_eq, restore_eq]
  exact getD_getD_of_map substitutes_of_originals b

@[simp] theorem xor_cancel_left (a b : UInt8) : a ^^^ (a ^^^ b) = b := by
  rw [← UInt8.xor_assoc, UInt8.xor_self, UInt8.zero_xor]

@[simp] theorem xor_cancel_right (a b : UInt8) : a ^^^ b ^^^ b = a := by
  rw [UInt8.xor_assoc, UInt8.xor_self, UInt8.xor_zero]

theorem xor_left_comm (a b c : UInt8) : a ^^^ (b ^^^ c) = b ^^^ (a ^^^ c) := by
  rw [← UInt8.xor_assoc, UInt8.xor_comm a, UInt8.xor_assoc]

theorem xor_and (a b c : UInt8) : (a ^^^ b) &&& c = (a &&& c) ^^^ (b &&& c) := by
  rw [← UInt8.toNat_inj]
  exact Nat.and_xor_distrib_right

theorem high_bit (b : UInt8) : b &&& 0x80 = 0 ∨ b &&& 0x80 = 0x80 := by
  revert b
  apply forall_byte
  decide +kernel

theorem double_xor (a b : UInt8) : double (a ^^^ b) = double a ^^^ double b := by
  rw [double, xor_and, UInt8.shiftLeft_xor]
  unfold double
  rcases high_bit a with ha | ha <;> rcases high_bit b with hb | hb <;>
    simp [ha, hb, UInt8.xor_assoc, xor_left_comm, UInt8.xor_comm]

/-! ## Columns -/

namespace Column

variable (a b c d : UInt8)

theorem mixByte_eq :
    mixByte a b c d = (a ^^^ b ^^^ c ^^^ d) ^^^ a ^^^ double (a ^^^ b) := by
  simp [mixByte, double_xor, UInt8.xor_assoc, xor_left_comm, UInt8.xor_comm]

theorem unmixByte_eq {s : UInt8} (h : a ^^^ b ^^^ c ^^^ d = s) :
    unmixByte a b c d = double (double (double s)) ^^^ double (double (a ^^^ c)) ^^^
      double (a ^^^ b) ^^^ s ^^^ a := by
  subst h
  simp [unmixByte, UInt8.xor_assoc, xor_left_comm, UInt8.xor_comm]

/-- Mixing keeps the sum of a column. -/
theorem mixByte_sum :
    mixByte a b c d ^^^ mixByte b c d a ^^^ mixByte c d a b ^^^ mixByte d a b c =
      a ^^^ b ^^^ c ^^^ d := by
  simp [mixByte_eq, double_xor, UInt8.xor_assoc, xor_left_comm, UInt8.xor_comm]

theorem mixByte_add_next :
    mixByte a b c d ^^^ mixByte b c d a = a ^^^ b ^^^ double (a ^^^ c) := by
  simp [mixByte_eq, double_xor, UInt8.xor_assoc, xor_left_comm, UInt8.xor_comm]

theorem mixByte_add_opposite :
    mixByte a b c d ^^^ mixByte c d a b = a ^^^ c ^^^ double (a ^^^ b ^^^ c ^^^ d) := by
  simp [mixByte_eq, double_xor, UInt8.xor_assoc, xor_left_comm, UInt8.xor_comm]

theorem unmixByte_mixByte :
    unmixByte (mixByte a b c d) (mixByte b c d a) (mixByte c d a b) (mixByte d a b c) = a := by
  rw [unmixByte_eq _ _ _ _ (mixByte_sum a b c d), mixByte_add_next, mixByte_add_opposite,
    mixByte_eq]
  simp [double_xor, UInt8.xor_assoc, xor_left_comm, UInt8.xor_comm]

theorem unmixByte_add_next :
    unmixByte a b c d ^^^ unmixByte b c d a =
      a ^^^ b ^^^ double (a ^^^ c) ^^^ double (double (a ^^^ b ^^^ c ^^^ d)) := by
  have hturned : b ^^^ c ^^^ d ^^^ a = a ^^^ b ^^^ c ^^^ d := by
    simp [xor_left_comm, UInt8.xor_comm]
  rw [unmixByte_eq a b c d rfl, unmixByte_eq b c d a hturned]
  -- this summand stands on both sides and cancels, so it need not be multiplied out
  generalize double (double (double (a ^^^ b ^^^ c ^^^ d))) = eight
  simp [double_xor, UInt8.xor_assoc, xor_left_comm, UInt8.xor_comm]

/-- Unmixing keeps the sum of a column as well. -/
theorem unmixByte_sum :
    unmixByte a b c d ^^^ unmixByte b c d a ^^^ unmixByte c d a b ^^^ unmixByte d a b c =
      a ^^^ b ^^^ c ^^^ d := by
  rw [UInt8.xor_assoc (unmixByte a b c d ^^^ unmixByte b c d a), unmixByte_add_next a b c d,
    unmixByte_add_next c d a b]
  simp [double_xor, UInt8.xor_assoc, xor_left_comm, UInt8.xor_comm]

theorem mixByte_unmixByte :
    mixByte (unmixByte a b c d) (unmixByte b c d a) (unmixByte c d a b) (unmixByte d a b c) =
      a := by
  rw [mixByte_eq, unmixByte_sum, unmixByte_add_next, unmixByte_eq a b c d rfl]
  simp [double_xor, UInt8.xor_assoc, xor_left_comm, UInt8.xor_comm]

@[simp] theorem unmix_mix (c : Column) : c.mix.unmix = c := by
  simp only [mix, unmix, unmixByte_mixByte]

@[simp] theorem mix_unmix (c : Column) : c.unmix.mix = c := by
  simp only [mix, unmix, mixByte_unmixByte]

@[simp] theorem map_restore_substitute (c : Column) : (c.map substitute).map restore = c := by
  simp only [map, restore_substitute]

@[simp] theorem map_substitute_restore (c : Column) : (c.map restore).map substitute = c := by
  simp only [map, substitute_restore]

@[simp] theorem add_add_cancel (c e : Column) : (c.add e).add e = c := by
  simp only [add, xor_cancel_right]

end Column

/-! ## Blocks and keys -/

namespace Block

@[simp] theorem unmix_mix (b : Block) : b.mix.unmix = b := by
  simp only [mix, unmix, Column.unmix_mix]

@[simp] theorem mix_unmix (b : Block) : b.unmix.mix = b := by
  simp only [mix, unmix, Column.mix_unmix]

@[simp] theorem map_restore_substitute (b : Block) : (b.map substitute).map restore = b := by
  simp only [map, Column.map_restore_substitute]

@[simp] theorem map_substitute_restore (b : Block) : (b.map restore).map substitute = b := by
  simp only [map, Column.map_substitute_restore]

@[simp] theorem add_add_cancel (b d : Block) : (b.add d).add d = b := by
  simp only [add, Column.add_add_cancel]

theorem add_comm (b d : Block) : b.add d = d.add b := by
  simp only [add, Column.add, UInt8.xor_comm]

end Block

namespace Key

theorem unround_round (b k : Block) : unround (round b k) k = b := by
  rw [unround, round, Block.add_add_cancel, Block.unmix_mix, Block.unshift_shift,
    Block.map_restore_substitute]

theorem round_unround (b k : Block) : round (unround b k) k = b := by
  rw [unround, round, Block.map_substitute_restore, Block.shift_unshift, Block.mix_unmix,
    Block.add_add_cancel]

/-- What is undone step by step is undone in the opposite order. -/
theorem foldl_reverse_foldl {undo step : Block → Block → Block} (h : ∀ b k, undo (step b k) k = b)
    (keys : List Block) (b : Block) : keys.reverse.foldl undo (keys.foldl step b) = b := by
  induction keys generalizing b with
  | nil => rfl
  | cons k keys ih =>
    rw [List.reverse_cons, List.foldl_append, List.foldl_cons, List.foldl_nil, List.foldl_cons, ih]
    exact h b k

theorem decrypt_encrypt (key : Key) (b : Block) : key.decrypt (key.encrypt b) = b := by
  rw [decrypt, encrypt, Block.add_add_cancel, Block.unshift_shift, Block.map_restore_substitute,
    foldl_reverse_foldl unround_round, Block.add_add_cancel]

theorem encrypt_decrypt (key : Key) (b : Block) : key.encrypt (key.decrypt b) = b := by
  have hrounds := foldl_reverse_foldl round_unround key.middle.reverse
  rw [List.reverse_reverse] at hrounds
  rw [encrypt, decrypt, Block.add_add_cancel, hrounds, Block.map_substitute_restore,
    Block.shift_unshift, Block.add_add_cancel]

end Key

end FileCourier.Aes
