import FileCourier.Proofs.Gzip.Tokens

/-!
# The tokens of a byte string

What is known of earlier trigrams only proposes repetitions. Each one is compared byte by byte, and
bytes that equal those some distance before them are what copying from that distance gives
(`copy_extract`). So the tokens build the byte string, whatever was proposed (`builds_tokens`).
-/

namespace FileCourier.Gzip.Deflate

variable {s : Array UInt8} {i j n fuel length distance : Nat} {seen : Std.HashMap Nat Nat}

/-- The `n` bytes from `i` on equal those from `j` on. -/
def Equal (s : Array UInt8) (j i n : Nat) : Prop :=
  ∀ k < n, i + k < s.size ∧ s.getD (j + k) 0 = s.getD (i + k) 0

theorem Equal.tail (h : Equal s j i (n + 1)) : Equal s (j + 1) (i + 1) n := by
  intro k hk
  obtain ⟨hsize, heq⟩ := h (k + 1) (Nat.succ_lt_succ hk)
  rw [Nat.add_right_comm j, Nat.add_right_comm i]
  exact ⟨hsize, heq⟩

theorem common_le (s : Array UInt8) (j i n : Nat) : common s j i n ≤ n := by
  induction n generalizing i j with
  | zero => exact Nat.le_refl 0
  | succ n ih =>
    rw [common]
    split
    · exact Nat.succ_le_succ (ih _ _)
    · exact Nat.zero_le _

theorem equal_common (s : Array UInt8) (j i n : Nat) : Equal s j i (common s j i n) := by
  induction n generalizing i j with
  | zero => exact nofun
  | succ n ih =>
    rw [common]
    split
    · rename_i hfirst
      intro k hk
      cases k with
      | zero => exact hfirst
      | succ k =>
        obtain ⟨hsize, heq⟩ := ih (j + 1) (i + 1) k (Nat.lt_of_succ_lt_succ hk)
        rw [Nat.add_right_comm] at hsize
        rw [Nat.add_right_comm j, Nat.add_right_comm i] at heq
        exact ⟨hsize, heq⟩
    · exact nofun

theorem push_extract (h : i < s.size) :
    (s.extract 0 i).push (s.getD i 0) = s.extract 0 (i + 1) := by
  have hpush := Array.push_extract_getElem (i := 0) h
  rw [Nat.zero_min] at hpush
  rw [← hpush]
  simp [h]

theorem getD_extract (hj : j < i) (hi : i ≤ s.size) : (s.extract 0 i).getD j 0 = s.getD j 0 := by
  have hsize : j < s.size := Nat.lt_of_lt_of_le hj hi
  simp [hj, hsize, hi]

/-- Copying bytes from some distance gives the bytes that equal them. -/
theorem copy_extract (hj : j < i) (h : Equal s j i n) :
    copy (i - j) n (s.extract 0 i) = s.extract 0 (i + n) := by
  induction n generalizing i j with
  | zero => rfl
  | succ n ih =>
    obtain ⟨hsize, heq⟩ := h 0 (Nat.succ_pos n)
    rw [Nat.add_zero, Nat.add_zero] at heq
    rw [Nat.add_zero] at hsize
    have hlength : (s.extract 0 i).size = i := by
      rw [Array.size_extract]
      omega
    have hback : (s.extract 0 i).size - (i - j) = j := by omega
    rw [copy, hback, getD_extract hj (Nat.le_of_lt hsize), heq, push_extract hsize,
      ← Nat.add_sub_add_right i 1 j, ih (Nat.succ_lt_succ hj) h.tail,
      Nat.succ_add_eq_add_succ]

/-- A repetition that is found is one. -/
theorem exists_of_repetition? (h : repetition? s seen i = some (length, distance)) :
    ∃ j, j < i ∧ distance = i - j ∧ distance ≤ 32768 ∧ 3 ≤ length ∧ length ≤ 258 ∧
      Equal s j i length := by
  rw [repetition?] at h
  split at h
  · cases h
  · rename_i j _
    dsimp only at h
    split at h
    · rename_i hbounds
      cases h
      exact ⟨j, hbounds.1, rfl, hbounds.2.1, hbounds.2.2, common_le s j i 258, equal_common s j i 258⟩
    · cases h

theorem exists_tokensFrom (seen : Std.HashMap Nat Nat) (found : Array Token) (hi : i ≤ s.size)
    (hfuel : s.size ≤ i + fuel) :
    ∃ tokens, (tokensFrom s fuel i seen found).toList = found.toList ++ tokens ∧
      Builds (s.extract 0 i) tokens s := by
  induction fuel generalizing i seen found with
  | zero =>
    refine ⟨[], by simp [tokensFrom], ?_⟩
    rw [show i = s.size by omega, Array.extract_size]
    exact .nil
  | succ fuel ih =>
    by_cases hlt : i < s.size
    · rw [tokensFrom, if_pos hlt]
      cases hfound : repetition? s seen i with
      | some pair =>
        obtain ⟨length, distance⟩ := pair
        obtain ⟨j, hj, rfl, hfar, hshort, hlong, hequal⟩ := exists_of_repetition? hfound
        obtain ⟨hlast, -⟩ := hequal (length - 1) (by omega)
        obtain ⟨tokens, htokens, hbuilds⟩ := ih _ _ (show i + length ≤ s.size by omega) (by omega)
        refine ⟨.repetition length (i - j) :: tokens, ?_, ?_⟩
        · rw [htokens, Array.toList_push, List.append_assoc]
          rfl
        · refine .repetition hshort hlong (by omega) hfar ?_ ?_
          · rw [Array.size_extract]
            omega
          · rwa [copy_extract hj hequal]
      | none =>
        obtain ⟨tokens, htokens, hbuilds⟩ := ih _ _ (show i + 1 ≤ s.size by omega) (by omega)
        refine ⟨.literal (s.getD i 0) :: tokens, ?_, .literal ?_⟩
        · rw [htokens, Array.toList_push, List.append_assoc]
          rfl
        · rwa [push_extract hlt]
    · refine ⟨[], by rw [tokensFrom, if_neg hlt, List.append_nil], ?_⟩
      rw [show i = s.size by omega, Array.extract_size]
      exact .nil

/-- The tokens of a byte string build it. -/
theorem builds_tokens (s : Bytes) : Builds #[] (tokens s) s.toArray := by
  have hsize : s.toArray.size ≤ 0 + s.length := by simp
  obtain ⟨found, htokens, hbuilds⟩ :=
    exists_tokensFrom (∅ : Std.HashMap Nat Nat) #[] (Nat.zero_le s.toArray.size) hsize
  rw [tokens, htokens]
  simpa using hbuilds

end FileCourier.Gzip.Deflate
