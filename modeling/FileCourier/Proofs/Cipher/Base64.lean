import FileCourier.Cipher.KeyFile

/-!
# Base 64 there and back

The digits of a text decode to the text, followed by one zero for each filler
(`decodeGroups?_encode`). What is decoded has three bytes for each four digits
(`length_of_decodeGroups?`). A decoder that takes `=` for a zero and refuses every other character that
is no digit decodes group by group (`Decodes.eq_decodeGroups?`); the one that drops dashes is of this
kind wherever no dash stands at the end (`decodes_of_getLast?`).
-/

namespace FileCourier.Base64

/-! ## Digits -/

theorem value?_digit : ∀ n < 64, value? (digit n) = some n := by decide

theorem digit_ne_filler : ∀ n < 64, digit n ≠ 61 := by decide

theorem digit_ne_dash : ∀ n < 64, digit n ≠ 45 := by decide

theorem isSpace_digit : ∀ n < 64, Bytes.isSpace (digit n) = false := by decide

theorem value?_filler : value? 61 = some 0 := rfl

/-- A written text has digits and fillers only. -/
theorem mem_encode {c : UInt8} {s : Bytes} (h : c ∈ encode s) : c = 61 ∨ ∃ n < 64, c = digit n := by
  fun_induction encode s with
  | case1 => exact absurd h List.not_mem_nil
  | case2 a =>
    have ha := a.toNat_lt
    simp only [List.mem_cons, List.not_mem_nil, or_false] at h
    rcases h with rfl | rfl | rfl | rfl
    · exact .inr ⟨_, by omega, rfl⟩
    · exact .inr ⟨_, by omega, rfl⟩
    · exact .inl rfl
    · exact .inl rfl
  | case3 a b =>
    have ha := a.toNat_lt
    have hb := b.toNat_lt
    simp only [List.mem_cons, List.not_mem_nil, or_false] at h
    rcases h with rfl | rfl | rfl | rfl
    · exact .inr ⟨_, by omega, rfl⟩
    · exact .inr ⟨_, by omega, rfl⟩
    · exact .inr ⟨_, by omega, rfl⟩
    · exact .inl rfl
  | case4 a b c r ih =>
    have ha := a.toNat_lt
    have hb := b.toNat_lt
    have hc := c.toNat_lt
    simp only [List.mem_cons] at h
    rcases h with rfl | rfl | rfl | rfl | h
    · exact .inr ⟨_, by omega, rfl⟩
    · exact .inr ⟨_, by omega, rfl⟩
    · exact .inr ⟨_, by omega, rfl⟩
    · exact .inr ⟨_, by omega, rfl⟩
    · exact ih h

theorem isSpace_of_mem_encode {c : UInt8} {s : Bytes} (h : c ∈ encode s) :
    Bytes.isSpace c = false := by
  rcases mem_encode h with rfl | ⟨n, hn, rfl⟩
  · rfl
  · exact isSpace_digit n hn

theorem ne_dash_of_mem_encode {c : UInt8} {s : Bytes} (h : c ∈ encode s) : c ≠ 45 := by
  rcases mem_encode h with rfl | ⟨n, hn, rfl⟩
  · decide
  · exact digit_ne_dash n hn

theorem length_encode (s : Bytes) : (encode s).length = 4 * ((s.length + 2) / 3) := by
  fun_induction encode s with
  | case1 => rfl
  | case2 => simp
  | case3 => simp
  | case4 a b c r ih =>
    simp only [List.length_cons, ih]
    omega

/-! ## Groups -/

/-- Four digits that spell three bytes. -/
theorem decodeGroups?_group {w x y z : UInt8} (a b c : UInt8) (hw : value? w = some (a.toNat / 4))
    (hx : value? x = some (a.toNat % 4 * 16 + b.toNat / 16))
    (hy : value? y = some (b.toNat % 16 * 4 + c.toNat / 64)) (hz : value? z = some (c.toNat % 64))
    (r : Bytes) :
    decodeGroups? (w :: x :: y :: z :: r) = (decodeGroups? r).map fun t => a :: b :: c :: t := by
  have ha := a.toNat_lt
  have hb := b.toNat_lt
  have hc := c.toNat_lt
  have hfirst : UInt8.ofNat ((((a.toNat / 4 * 64 + (a.toNat % 4 * 16 + b.toNat / 16)) * 64 +
      (b.toNat % 16 * 4 + c.toNat / 64)) * 64 + c.toNat % 64) / 65536) = a := by
    rw [← UInt8.toNat_inj, UInt8.toNat_ofNat']
    omega
  have hsecond : UInt8.ofNat ((((a.toNat / 4 * 64 + (a.toNat % 4 * 16 + b.toNat / 16)) * 64 +
      (b.toNat % 16 * 4 + c.toNat / 64)) * 64 + c.toNat % 64) / 256) = b := by
    rw [← UInt8.toNat_inj, UInt8.toNat_ofNat']
    omega
  have hthird : UInt8.ofNat (((a.toNat / 4 * 64 + (a.toNat % 4 * 16 + b.toNat / 16)) * 64 +
      (b.toNat % 16 * 4 + c.toNat / 64)) * 64 + c.toNat % 64) = c := by
    rw [← UInt8.toNat_inj, UInt8.toNat_ofNat']
    omega
  simp only [decodeGroups?, hw, hx, hy, hz, Option.bind_eq_bind, Option.bind_some, hfirst, hsecond,
    hthird]
  cases decodeGroups? r <;> rfl

/-- How many bytes are missing from the last group of `n` bytes. -/
def shortfall (n : Nat) : Nat := (3 - n % 3) % 3

theorem decodeGroups?_encode (s : Bytes) :
    decodeGroups? (encode s) = some (s ++ List.replicate (shortfall s.length) 0) := by
  fun_induction encode s with
  | case1 => rfl
  | case2 a =>
    have ha := a.toNat_lt
    have hsecond : value? (digit (a.toNat % 4 * 16)) =
        some (a.toNat % 4 * 16 + (0 : UInt8).toNat / 16) := value?_digit _ (by omega)
    rw [decodeGroups?_group a 0 0 (value?_digit _ (by omega)) hsecond value?_filler value?_filler]
    rfl
  | case3 a b =>
    have ha := a.toNat_lt
    have hb := b.toNat_lt
    have hthird : value? (digit (b.toNat % 16 * 4)) =
        some (b.toNat % 16 * 4 + (0 : UInt8).toNat / 64) := value?_digit _ (by omega)
    rw [decodeGroups?_group a b 0 (value?_digit _ (by omega)) (value?_digit _ (by omega)) hthird
      value?_filler]
    rfl
  | case4 a b c r ih =>
    have ha := a.toNat_lt
    have hb := b.toNat_lt
    have hc := c.toNat_lt
    have hshort : shortfall (a :: b :: c :: r).length = shortfall r.length := by
      simp only [shortfall, List.length_cons]
      omega
    rw [decodeGroups?_group a b c (value?_digit _ (by omega)) (value?_digit _ (by omega))
      (value?_digit _ (by omega)) (value?_digit _ (by omega)), ih, hshort]
    rfl

theorem length_of_decodeGroups? {s t : Bytes} (h : decodeGroups? s = some t) :
    4 * t.length = 3 * s.length := by
  fun_induction decodeGroups? s generalizing t with
  | case1 => cases h; rfl
  | case2 a b c d r ih =>
    simp only [Option.bind_eq_bind, Option.bind_eq_some_iff, Option.pure_def,
      Option.some.injEq] at h
    obtain ⟨_, -, _, -, _, -, _, -, u, hu, rfl⟩ := h
    have hlength := ih hu
    simp only [List.length_cons]
    omega
  | case3 => cases h

/-- A character that is neither digit nor filler spoils the whole text. -/
theorem decodeGroups?_eq_none {s : Bytes} {c : UInt8} (hc : c ∈ s) (hvalue : value? c = none) :
    decodeGroups? s = none := by
  refine Option.eq_none_iff_forall_ne_some.2 fun t ht => ?_
  fun_induction decodeGroups? s generalizing t with
  | case1 => exact absurd hc List.not_mem_nil
  | case2 w x y z r ih =>
    simp only [Option.bind_eq_bind, Option.bind_eq_some_iff, Option.pure_def,
      Option.some.injEq] at ht
    obtain ⟨_, hw, _, hx, _, hy, _, hz, u, hu, -⟩ := ht
    simp only [List.mem_cons] at hc
    rcases hc with rfl | rfl | rfl | rfl | hc
    · exact absurd (hvalue.symm.trans hw) nofun
    · exact absurd (hvalue.symm.trans hx) nofun
    · exact absurd (hvalue.symm.trans hy) nofun
    · exact absurd (hvalue.symm.trans hz) nofun
    · exact ih hc u hu
  | case3 => cases ht

/-! ## Decoders -/

/-- What is expected of a decoder at a text: `=` counts as zero wherever it stands, and any other
character that is no digit is refused. -/
structure Decodes (decode? : Bytes → Option Bytes) (s : Bytes) : Prop where
  digits : (∀ c ∈ s, value? c ≠ none) → decode? s = decodeGroups? s
  others : ∀ c ∈ s, value? c = none → decode? s = none

theorem Decodes.eq_decodeGroups? {decode? : Bytes → Option Bytes} {s : Bytes}
    (h : Decodes decode? s) : decode? s = decodeGroups? s := by
  by_cases hother : ∃ c ∈ s, value? c = none
  · obtain ⟨c, hc, hvalue⟩ := hother
    rw [h.others c hc hvalue, decodeGroups?_eq_none hc hvalue]
  · exact h.digits fun c hc hvalue => hother ⟨c, hc, hvalue⟩

theorem dropDashes_of_getLast? {s : Bytes} (h : s.getLast? ≠ some 45) : dropDashes s = s := by
  have hkept : (s.drop 3).reverse.dropWhile (· == 45) = (s.drop 3).reverse := by
    cases hreverse : (s.drop 3).reverse with
    | nil => rfl
    | cons x r =>
      have hdrop : s.drop 3 = r.reverse ++ [x] := by
        rw [← List.reverse_reverse (s.drop 3), hreverse, List.reverse_cons]
      have hlast : s.getLast? = some x := by
        rw [← List.take_append_drop 3 s, hdrop, ← List.append_assoc, List.getLast?_concat]
      have hx : ¬(x == 45) = true := fun hdash => h (hlast.trans (congrArg some (beq_iff_eq.1 hdash)))
      exact List.dropWhile_cons_of_neg hx
  rw [dropDashes, hkept, List.reverse_reverse, List.take_append_drop]

theorem decodes_of_getLast? {s : Bytes} (h : s.getLast? ≠ some 45) : Decodes decode? s where
  digits _ := by rw [decode?, dropDashes_of_getLast? h]
  others c hc hvalue := by rw [decode?, dropDashes_of_getLast? h, decodeGroups?_eq_none hc hvalue]

end FileCourier.Base64
