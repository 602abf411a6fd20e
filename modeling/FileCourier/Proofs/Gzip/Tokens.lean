import FileCourier.Gzip.Shorten
import FileCourier.Proofs.Gzip.Extending

/-!
# Tokens in the fixed code

The fixed code leads every symbol's word to that symbol (`follow_fixedWord`), and a number is read back
from its symbol and extra bits because each entry of a table reaches up to the next one
(`readScaled_scale`). So the tokens of a block, whatever they are, are read back as the steps of the
output that they stand for (`readSymbols_tokens`).
-/

namespace FileCourier.Gzip

variable {b b' : Bits} {l : List Bool} {symbol n top : Nat} {out out' : Array UInt8}

/-! ## Words -/

/-- The part of a code to which some bits lead. -/
def Code.follow : Code → List Bool → Code
  | c, [] => c
  | .node zero one, x :: l => (bif x then one else zero).follow l
  | _, _ :: _ => .gap

theorem Code.decode_of_follow {code : Code} (hreads : Bits.Reads b l b')
    (h : code.follow l = .leaf symbol) : code.decode b = .ok (symbol, b') := by
  induction hreads generalizing code with
  | nil =>
    rw [Code.follow] at h
    rw [h, decode]
  | @cons b b₁ b₂ x l hnext _ ih =>
    cases code with
    | leaf | gap => cases h
    | node zero one =>
      rw [decode, hnext]
      cases x with
      | true => exact ih h
      | false => exact ih h

namespace Deflate

theorem follow_fixedWord : ∀ symbol < 288, fixedCode.follow (fixedWord symbol) = .leaf symbol := by
  decide +kernel

theorem follow_fixedDistanceCode :
    ∀ place < 32, fixedDistanceCode.follow (word 5 place) = .leaf place := by
  decide +kernel

theorem fixedWord_ne_nil (symbol : Nat) : fixedWord symbol ≠ [] := by
  have hword (n v : Nat) : word (n + 1) v ≠ [] := by
    rw [word, Bits.ofNat]
    simp
  rw [fixedWord]
  split
  · exact hword 7 _
  split
  · exact hword 8 _
  split
  · exact hword 6 _
  · exact hword 7 _

/-! ## Tables -/

/-- Each entry of a table, with its extra bits, reaches up to the next one, and the last up to
`top`. -/
def Reaches (top : Nat) : List (Nat × Nat) → Prop
  | [] => True
  | [(base, extra)] => top ≤ base + 2 ^ extra
  | (base, extra) :: next :: r => next.1 ≤ base + 2 ^ extra ∧ Reaches top (next :: r)

theorem reaches_lengths : Reaches 259 lengths := by simp [Reaches, lengths]

theorem reaches_distances : Reaches 32769 distances := by simp [Reaches, distances]

variable {first : Nat × Nat} {table : List (Nat × Nat)}

/-- The last entry that is not above a number reaches it. -/
theorem exists_entry (h : Reaches top table) (hhead : table.head? = some first) (hfirst : first.1 ≤ n)
    (htop : n < top) :
    ∃ base extra, table[(table.takeWhile fun e => e.1 ≤ n).length - 1]? = some (base, extra) ∧
      base ≤ n ∧ n < base + 2 ^ extra := by
  induction table generalizing first with
  | nil => cases hhead
  | cons entry table ih =>
    cases hhead
    rw [List.takeWhile_cons, decide_eq_true hfirst, if_pos rfl]
    cases table with
    | nil => exact ⟨entry.1, entry.2, rfl, hfirst, Nat.lt_of_lt_of_le htop h⟩
    | cons next table =>
      obtain ⟨hnext, hrest⟩ := h
      by_cases hle : next.1 ≤ n
      · obtain ⟨base, extra, hentry, hbounds⟩ := ih hrest rfl hle
        refine ⟨base, extra, ?_, hbounds⟩
        rw [List.takeWhile_cons, decide_eq_true hle, if_pos rfl] at hentry ⊢
        exact hentry
      · refine ⟨entry.1, entry.2, ?_, hfirst, Nat.lt_of_lt_of_le (Nat.not_le.1 hle) hnext⟩
        rw [List.takeWhile_cons, decide_eq_false hle, if_neg Bool.false_ne_true]
        rfl

/-- A number is read back from its symbol and its extra bits. -/
theorem readScaled_scale (h : Reaches top table) (hhead : table.head? = some first)
    (hfirst : first.1 ≤ n) (htop : n < top) (hreads : Bits.Reads b (scale table n).2 b') :
    (scale table n).1 < table.length ∧
      readScaled table (scale table n).1 b = .ok (n, b') := by
  obtain ⟨base, extra, hentry, hle, hlt⟩ := exists_entry h hhead hfirst htop
  have hsymbol : (scale table n).1 = (table.takeWhile fun e => e.1 ≤ n).length - 1 := rfl
  have hextra : (scale table n).2 = Bits.ofNat extra (n - base) := by
    rw [scale]
    simp only [List.getD_eq_getElem?_getD, hentry]
    rfl
  rw [hextra] at hreads
  rw [hsymbol]
  obtain ⟨hindex, -⟩ := List.getElem?_eq_some_iff.1 hentry
  have htake : readNat extra b = .ok (n - base, b') := hreads.take_ofNat (by omega)
  refine ⟨hindex, ?_⟩
  rw [readScaled, hentry]
  change (readNat extra >>= fun v => pure (base + v)) b = _
  rw [bind_ok htake, Nat.add_sub_cancel' hle]
  rfl

/-! ## Tokens -/

/-- What the output becomes when some tokens are carried out one after the other. -/
inductive Builds : Array UInt8 → List Token → Array UInt8 → Prop
  | nil {out : Array UInt8} : Builds out [] out
  | literal {out out' : Array UInt8} {c : UInt8} {tokens : List Token} :
      Builds (out.push c) tokens out' → Builds out (.literal c :: tokens) out'
  | repetition {out out' : Array UInt8} {length distance : Nat} {tokens : List Token} :
      3 ≤ length → length ≤ 258 → 1 ≤ distance → distance ≤ 32768 → distance ≤ out.size →
      Builds (copy distance length out) tokens out' →
      Builds out (.repetition length distance :: tokens) out'

theorem write_repetition (length distance : Nat) : (Token.repetition length distance).write =
    fixedWord (257 + (scale lengths length).1) ++ ((scale lengths length).2 ++
      word 5 (scale distances distance).1 ++ (scale distances distance).2) := by
  simp only [Token.write, List.append_assoc]

theorem write_ne_nil (token : Token) : token.write ≠ [] := by
  cases token with
  | literal c => exact fixedWord_ne_nil _
  | repetition length distance =>
    rw [write_repetition]
    exact List.append_ne_nil_of_left_ne_nil (fixedWord_ne_nil _) _

/-- Every token has at least one bit. -/
theorem length_le_flatMap_write (tokens : List Token) :
    tokens.length ≤ (tokens.flatMap Token.write).length := by
  induction tokens with
  | nil => exact Nat.le_refl 0
  | cons token tokens ih =>
    have hpos := List.length_pos_iff.2 (write_ne_nil token)
    rw [List.flatMap_cons, List.length_append, List.length_cons]
    omega

theorem decode_fixedWord (hreads : Bits.Reads b (fixedWord symbol) b') (h : symbol < 288) :
    fixedCode.decode b = .ok (symbol, b') :=
  Code.decode_of_follow hreads (follow_fixedWord symbol h)

/-- A repetition is read back once the word of its length symbol has been read. -/
theorem readRepetition_write {length distance : Nat} (hlength : 3 ≤ length ∧ length ≤ 258)
    (hdistance : 1 ≤ distance ∧ distance ≤ 32768)
    (hreads : Bits.Reads b ((scale lengths length).2 ++ word 5 (scale distances distance).1 ++
      (scale distances distance).2) b') :
    (scale lengths length).1 < 29 ∧
      readRepetition fixedDistanceCode (257 + (scale lengths length).1) b =
        .ok ((length, distance), b') := by
  rw [List.append_assoc] at hreads
  obtain ⟨b₁, hextra, hreads⟩ := hreads.of_append
  obtain ⟨b₂, hplace, hmore⟩ := hreads.of_append
  obtain ⟨hsymbol, hlong⟩ :=
    readScaled_scale reaches_lengths rfl hlength.1 (Nat.lt_succ_of_le hlength.2) hextra
  obtain ⟨hindex, hfar⟩ :=
    readScaled_scale reaches_distances rfl hdistance.1 (Nat.lt_succ_of_le hdistance.2) hmore
  have hdecode : fixedDistanceCode.decode b₁ = .ok ((scale distances distance).1, b₂) :=
    Code.decode_of_follow hplace
      (follow_fixedDistanceCode _ (Nat.lt_of_lt_of_le hindex (by decide)))
  refine ⟨hsymbol, ?_⟩
  rw [readRepetition, Nat.add_sub_cancel_left, bind_ok hlong, bind_ok hdecode, bind_ok hfar]
  rfl

/-- The tokens of a block are read back as the steps that they stand for. -/
theorem readSymbols_tokens {tokens : List Token} {fuel : Nat} (h : Builds out tokens out')
    (hreads : Bits.Reads b (tokens.flatMap Token.write ++ fixedWord 256) b')
    (hfuel : tokens.length < fuel) :
    readSymbols fixedCode fixedDistanceCode fuel b out = .ok (out', b') := by
  induction h generalizing b fuel with
  | nil =>
    obtain ⟨fuel, rfl⟩ := Nat.exists_eq_add_one.2 (Nat.zero_lt_of_lt hfuel)
    have hend : Bits.Reads b (fixedWord 256) b' := hreads
    rw [readSymbols, decode_fixedWord hend (by decide)]
    rfl
  | @literal out out' c tokens _ ih =>
    obtain ⟨fuel, rfl⟩ := Nat.exists_eq_add_one.2 (Nat.zero_lt_of_lt hfuel)
    rw [List.flatMap_cons, List.append_assoc] at hreads
    obtain ⟨b₁, hfirst, hrest⟩ := hreads.of_append
    have hbyte : c.toNat < 256 := c.toNat_lt
    rw [readSymbols, decode_fixedWord hfirst (by omega)]
    dsimp only
    rw [if_pos hbyte, UInt8.ofNat_toNat]
    exact ih hrest (Nat.lt_of_succ_lt_succ hfuel)
  | @repetition out out' length distance tokens h₃ h₂₅₈ h₁ hfar hsize _ ih =>
    obtain ⟨fuel, rfl⟩ := Nat.exists_eq_add_one.2 (Nat.zero_lt_of_lt hfuel)
    rw [List.flatMap_cons, write_repetition, List.append_assoc, List.append_assoc] at hreads
    obtain ⟨b₁, hword, hreads⟩ := hreads.of_append
    obtain ⟨b₂, hpair, hrest⟩ := hreads.of_append
    obtain ⟨hsymbol, hrepetition⟩ := readRepetition_write ⟨h₃, h₂₅₈⟩ ⟨h₁, hfar⟩ hpair
    rw [readSymbols, decode_fixedWord hword (by omega)]
    dsimp only
    rw [if_neg (by omega), if_neg (by omega), hrepetition]
    dsimp only
    rw [if_neg (Nat.not_lt.2 hsize)]
    exact ih hrest (Nat.lt_of_succ_lt_succ hfuel)

end Deflate

end FileCourier.Gzip
