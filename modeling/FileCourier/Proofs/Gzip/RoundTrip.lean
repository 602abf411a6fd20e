import FileCourier.Proofs.Gzip.Members
import FileCourier.Proofs.Gzip.Repetitions

/-!
# Compressed and expanded again

Stored blocks and a block in the fixed code are read back up to their last byte (`inflate_store`,
`inflate_shorten`), and so is a member made of them (`readMember_member`). What is compressed is
therefore expanded to itself, and any number of such members to what they hold, one behind the other
(`expand_members`).
-/

namespace FileCourier.Gzip

variable {b b' : Bits} {s r : Bytes} {out : Array UInt8} {last : Bool} {fuel : Nat}

namespace Deflate

/-! ## Stored blocks -/

theorem readHead_of_reads {kind : Nat} (hkind : kind < 4)
    (h : b.Reads (last :: Bits.ofNat 2 kind) b') : readHead b = .ok ((last.toNat, kind), b') := by
  obtain ⟨b₁, hlast, hrest⟩ := Bits.Reads.of_append (l := [last]) h
  have hfirst : readNat 1 b = .ok (last.toNat, b₁) := hlast.take
  have hsecond : readNat 2 b₁ = .ok (kind, b') := hrest.take_ofNat hkind
  rw [readHead, bind_ok hfirst, bind_ok hsecond]
  rfl

theorem readStored_block {p : List Bool} (h : s.length ≤ 0xffff) :
    readStored ⟨p, Bytes.littleEndian 2 s.length ++ Bytes.littleEndian 2 (0xffff - s.length) ++ s ++ r⟩
      out = .ok (out ++ s, .ofBytes r) := by
  have hspelled (n : Nat) (hn : n ≤ 0xffff) :
      Bytes.ofLittleEndian [UInt8.ofNat n, UInt8.ofNat (n / 256)] = n := by
    have hmod : Bytes.ofLittleEndian (Bytes.littleEndian 2 n) = n % 65536 :=
      Bytes.ofLittleEndian_littleEndian 2 n
    rwa [Nat.mod_eq_of_lt (Nat.lt_succ_of_le hn)] at hmod
  rw [readStored]
  dsimp only [Bytes.littleEndian, List.cons_append, List.nil_append]
  rw [hspelled _ h, hspelled _ (Nat.sub_le _ _), if_neg (by omega), List.length_append,
    if_neg (by omega), List.take_left, List.drop_left]

theorem readBlock_stored (h : s.length ≤ 0xffff) :
    readBlock (.ofBytes (writeStoredBlock last s ++ r)) out = .ok (last, out ++ s, .ofBytes r) := by
  have hhead : readHead (.ofBytes (writeStoredBlock last s ++ r)) = .ok ((last.toNat, 0),
      ⟨List.replicate 5 false, Bytes.littleEndian 2 s.length ++
        Bytes.littleEndian 2 (0xffff - s.length) ++ s ++ r⟩) := by
    refine readHead_of_reads (by decide) (Bits.reads_byte (List.cons_ne_nil _ _) ?_)
    cases last <;> decide
  rw [readBlock, hhead]
  dsimp only
  rw [readBody, readStored_block h]
  cases last <;> rfl

theorem lt_length_writeStored (more : Nat) (s : Bytes) : more < (writeStored more s).length := by
  induction more generalizing s with
  | zero => exact Nat.succ_pos _
  | succ more ih =>
    have hrest := ih (s.drop 0xffff)
    rw [writeStored, List.length_append, writeStoredBlock, List.cons_append, List.cons_append]
    simp only [List.length_cons]
    omega

theorem appendList_appendList (out : Array UInt8) (s r : Bytes) : out ++ s ++ r = out ++ (s ++ r) :=
  Array.ext' (by simp)

theorem readBlocks_stored {more : Nat} (h : s.length ≤ 0xffff * (more + 1)) (hfuel : more < fuel) :
    readBlocks fuel (.ofBytes (writeStored more s ++ r)) out = .ok (out ++ s, r) := by
  induction more generalizing s out fuel with
  | zero =>
    obtain ⟨fuel, rfl⟩ := Nat.exists_eq_add_one.2 hfuel
    rw [readBlocks, writeStored, readBlock_stored (by omega)]
    rfl
  | succ more ih =>
    obtain ⟨fuel, rfl⟩ := Nat.exists_eq_add_one.2 (Nat.zero_lt_of_lt hfuel)
    have hfirst : (s.take 0xffff).length ≤ 0xffff := List.length_take_le _ _
    have hrest : (s.drop 0xffff).length ≤ 0xffff * (more + 1) := by
      rw [List.length_drop]
      omega
    rw [readBlocks, writeStored, List.append_assoc, readBlock_stored hfirst]
    dsimp only
    rw [ih hrest (Nat.lt_of_succ_lt_succ hfuel), appendList_appendList, List.take_append_drop]

theorem inflate_store (s r : Bytes) : inflate (store s ++ r) = .ok (s.toArray, r) := by
  have hlong := lt_length_writeStored ((s.length - 1) / 0xffff) s
  rw [inflate, store, readBlocks_stored (by omega) (by rw [List.length_append]; omega)]
  simp

/-! ## Blocks in the fixed code -/

theorem inflate_writeFixed (s r : Bytes) :
    inflate (writeFixed (tokens s) ++ r) = .ok (s.toArray, r) := by
  obtain ⟨p, hreads⟩ := Bits.reads_pack
    (true :: true :: false :: ((tokens s).flatMap Token.write ++ fixedWord 256)) r
  obtain ⟨b₁, hhead, hbody⟩ : ∃ b₁, Bits.Reads (.ofBytes (writeFixed (tokens s) ++ r))
      (true :: Bits.ofNat 2 1) b₁ ∧
      b₁.Reads ((tokens s).flatMap Token.write ++ fixedWord 256) ⟨p, r⟩ := hreads.of_append
  have hfuel : (tokens s).length < b₁.size + 1 := by
    have hsize := hbody.size_eq
    have hle := length_le_flatMap_write (tokens s)
    rw [List.length_append] at hsize
    omega
  have hblock : readBlock (.ofBytes (writeFixed (tokens s) ++ r)) #[] =
      .ok (true, s.toArray, ⟨p, r⟩) := by
    rw [readBlock, readHead_of_reads (by decide) hhead]
    dsimp only
    rw [readBody, readSymbols_tokens (builds_tokens s) hbody hfuel]
    rfl
  rw [inflate, readBlocks, hblock]

theorem inflate_shorten (s r : Bytes) : inflate (shorten s ++ r) = .ok (s.toArray, r) := by
  rw [shorten]
  split
  · exact inflate_store s r
  · exact inflate_writeFixed s r

end Deflate

/-! ## Members -/

theorem skipHeader_header (level : Int) (r : Bytes) : skipHeader (header level ++ r) = .ok r := by
  have hskip : skip 6 ([0, 0, 0, 0, effort level, 3] ++ r) = .ok r := by
    rw [skip, if_neg (by simp)]
    rfl
  rw [skipHeader.eq_def]
  change (skip 6 ([0, 0, 0, 0, effort level, 3] ++ r)).bind _ = _
  rw [hskip]
  rfl

theorem checkTrailer_trailer (s r : Bytes) : checkTrailer s (trailer s ++ r) = .ok r := by
  have hlength : checkTrailer s (trailer s ++ r) =
      if Bytes.littleEndian 4 (crc32 s).toNat ≠ Bytes.littleEndian 4 (crc32 s).toNat then
        .error .corrupt
      else if Bytes.littleEndian 4 s.length ≠ Bytes.littleEndian 4 s.length then .error .corrupt
      else .ok r := rfl
  rw [hlength, if_neg (not_not_intro rfl), if_neg (not_not_intro rfl)]

/-- A member is read back up to its last byte. -/
theorem readMember_member (level : Int) (s r : Bytes) :
    readMember (member level s ++ r) = .ok (s, r) := by
  have hinflate : Deflate.inflate
      ((if level = 0 then Deflate.store s else Deflate.shorten s) ++ (trailer s ++ r)) =
        .ok (s.toArray, trailer s ++ r) := by
    split
    · exact Deflate.inflate_store s _
    · exact Deflate.inflate_shorten s _
  rw [readMember, member, List.append_assoc, List.append_assoc, skipHeader_header]
  dsimp only
  rw [hinflate]
  dsimp only
  rw [checkTrailer_trailer]

/-- A member is expanded to what it holds. -/
theorem expand_member (level : Int) (s : Bytes) : expand (member level s) = .ok s := by
  have hmember := readMember_member level s []
  rw [List.append_nil] at hmember
  rw [expand_of_member hmember]
  rfl

/-- Members one behind the other are expanded to what they hold, in their order. -/
theorem expand_members (level : Int) {parts : List Bytes} (h : parts ≠ []) :
    expand (parts.flatMap (member level)) = .ok parts.flatten := by
  induction parts with
  | nil => exact absurd rfl h
  | cons s parts ih =>
    rw [List.flatMap_cons, List.flatten_cons]
    cases parts with
    | nil => simpa using expand_member level s
    | cons t parts =>
      have hrest : expand ((t :: parts).flatMap (member level)) = .ok (t :: parts).flatten :=
        ih (List.cons_ne_nil t parts)
      have hne : (t :: parts).flatMap (member level) ≠ [] := by
        intro hnil
        rw [hnil, expand_nil] at hrest
        cases hrest
      rw [expand_append (expand_member level s) hne, hrest]
      rfl

end FileCourier.Gzip
