import FileCourier.Proofs.Gzip.RoundTrip

/-!
# Compressed by any compressor

A compressor is given as one whose calls hand over a member between them (`Deflater.Emits`,
`Deflater.Faithful`); calling it until it has finished gives that member (`collect_of_emits`). Data is taken
as far as its size in thirty-two bits says (`counted`). Below that size compressed data is expanded to what
was compressed, and data behind gzip data as it is on its own (`uncompress_append_compress`). A member
above that size is never expanded, because it is cut: stored data just below the size is not read back
(`stored_unread`), and many members one behind the other are not expanded (`members_uncounted`).
-/

namespace FileCourier.Gzip

variable {z : Deflater} {state : z.State} {level : Int} {s m r out : Bytes}

/-! ## What is taken of data -/

theorem counted_of_length_lt (h : s.length < 2 ^ 32) : counted s = s := by
  rw [counted, UInt32.toNat_ofNat', Nat.mod_eq_of_lt h, List.take_length]

/-- What is too large loses something of its end. -/
theorem exists_counted_append (h : 2 ^ 32 ≤ s.length) : ∃ r, r ≠ [] ∧ counted s ++ r = s := by
  refine ⟨s.drop (UInt32.ofNat s.length).toNat, fun hnil => ?_, List.take_append_drop _ s⟩
  have hcut : (UInt32.ofNat s.length).toNat < 2 ^ 32 := UInt32.toNat_lt _
  have hwhole := List.drop_eq_nil_iff.1 hnil
  omega

theorem uncompress_of_length_lt (h : s.length < 2 ^ 32) : uncompress s = expand s := by
  rw [uncompress, counted_of_length_lt h]

/-- The front of a member is no member. -/
theorem expand_front (h : readMember (m ++ r) = .ok (s, [])) (hr : r ≠ []) :
    ∃ e, expand m = .error e := by
  cases hmember : readMember m with
  | error failure => exact ⟨_, expand_of_failure hmember⟩
  | ok p =>
    have hrest := congrArg Prod.snd (Except.ok.inj (h.symm.trans (readMember_append hmember r).2))
    exact absurd (List.append_eq_nil_iff.1 hrest.symm).2 hr

/-! ## Calls of a compressor -/

namespace Deflater

/-- What the calls of a compressor in a state hand over. -/
inductive Emits (z : Deflater) : z.State → Bytes → Prop
  | last {s : z.State} {output : Bytes} : z.call s = .finished output → Emits z s output
  | more {s t : z.State} {output rest : Bytes} : z.call s = .ongoing output t → Emits z t rest →
      Emits z s (output ++ rest)

/-- The compressor knows the levels from -1 to 9, and hands over one member, which holds the data. -/
structure Faithful (z : Deflater) : Prop where
  knows : ∀ level s, -1 ≤ level → level ≤ 9 → ∃ state, z.start level s = some state
  emits : ∀ {level s state}, z.start level s = some state →
    ∃ m, z.Emits state m ∧ readMember m = .ok (s, [])

theorem collect_of_emits (h : z.Emits state m) : z.collect state = .ok m := by
  induction h with
  | last hcall =>
    rw [collect.eq_def]
    split
    · cases hcall.symm.trans ‹_›
    · cases hcall.symm.trans ‹_›
      rfl
    · cases hcall.symm.trans ‹_›
  | more hcall _ ih =>
    rw [collect.eq_def]
    split
    · cases hcall.symm.trans ‹_›
    · cases hcall.symm.trans ‹_›
    · cases hcall.symm.trans ‹_›
      rw [ih]
      rfl

/-- Data that is not too large is compressed to a member. -/
theorem Faithful.compress (hz : z.Faithful) (hlow : -1 ≤ level) (hhigh : level ≤ 9)
    (hs : s.length < 2 ^ 32) :
    ∃ m, Gzip.compress z level s = .ok m ∧ readMember m = .ok (s, []) := by
  obtain ⟨state, hstart⟩ := hz.knows level s hlow hhigh
  obtain ⟨m, hemits, hmember⟩ := hz.emits hstart
  refine ⟨m, ?_, hmember⟩
  rw [Gzip.compress, counted_of_length_lt hs, hstart]
  exact collect_of_emits hemits

end Deflater

/-- What is left of a member is handed over, portion by portion. -/
theorem emits_deflater (pending : Bytes) : deflater.Emits pending pending := by
  induction hn : pending.length using Nat.strongRecOn generalizing pending with
  | ind n ih =>
    subst hn
    by_cases hlong : portion < pending.length
    · have hcall : deflater.call pending =
          .ongoing (pending.take portion) (pending.drop portion) := if_pos hlong
      have hemits := ih _ (deflater.left_lt hcall) (pending.drop portion) rfl
      have hmore := Deflater.Emits.more hcall hemits
      rwa [List.take_append_drop] at hmore
    · exact .last (if_neg hlong)

theorem faithful_deflater : deflater.Faithful where
  knows level s hlow hhigh := ⟨member level s, if_neg (by omega)⟩
  emits {level s state} h := by
    have hstate : state = member level s := by
      simp only [deflater] at h
      split at h
      · cases h
      · exact (Option.some.inj h).symm
    have hmember := readMember_member level s []
    rw [List.append_nil] at hmember
    exact ⟨state, emits_deflater state, hstate ▸ hmember⟩

theorem compress_deflater (hlow : -1 ≤ level) (hhigh : level ≤ 9) (hs : s.length < 2 ^ 32) :
    compress deflater level s = .ok (member level s) := by
  rw [compress, counted_of_length_lt hs]
  have hstart : deflater.start level s = some (member level s) := if_neg (by omega)
  rw [hstart]
  exact Deflater.collect_of_emits (emits_deflater (member level s))

theorem eq_member_of_compress (hlow : -1 ≤ level) (hhigh : level ≤ 9) (hs : s.length < 2 ^ 32)
    (h : compress deflater level s = .ok m) : m = member level s :=
  Except.ok.inj (h.symm.trans (compress_deflater hlow hhigh hs))

/-! ## The size of a member -/

theorem length_writeStored (more : Nat) (s : Bytes) :
    (Deflate.writeStored more s).length = 5 * (more + 1) + s.length := by
  have hblock (last : Bool) (s : Bytes) :
      (Deflate.writeStoredBlock last s).length = 5 + s.length := by
    simp only [Deflate.writeStoredBlock, List.cons_append, List.length_cons, List.length_append,
      Bytes.length_littleEndian]
    omega
  induction more generalizing s with
  | zero => exact hblock true s
  | succ more ih =>
    rw [Deflate.writeStored, List.length_append, hblock, ih, List.length_take, List.length_drop]
    omega

theorem length_store (s : Bytes) :
    (Deflate.store s).length = 5 * ((s.length - 1) / 0xffff + 1) + s.length :=
  length_writeStored _ s

/-- No member is longer than the one that stores the data. -/
theorem length_member_le (level : Int) (s : Bytes) :
    (member level s).length ≤ 23 + 5 * ((s.length - 1) / 0xffff) + s.length := by
  have hshorten : (Deflate.shorten s).length ≤ 5 * ((s.length - 1) / 0xffff + 1) + s.length := by
    rw [Deflate.shorten]
    split
    · exact Nat.le_of_eq (length_store s)
    · omega
  have hheader : (header level).length = 10 := rfl
  have htrailer : (trailer s).length = 8 := rfl
  rw [member, List.length_append, List.length_append, hheader, htrailer]
  split
  · rw [length_store]
    omega
  · omega

theorem lt_length_member_store (s : Bytes) : s.length < (member 0 s).length := by
  rw [member, if_pos rfl, List.length_append, List.length_append, length_store]
  omega

/-! ## Compressed and expanded again -/

/-- Behind gzip data, an input is expanded exactly if it is expanded on its own, and then its data
follows the other. Compressed data is expanded to what was compressed. All of it has to be below the size
that is counted: a longer member is not expanded at all. -/
theorem uncompress_append_compress (hz : z.Faithful) :
    (∀ a x g : Bytes, uncompress a = .ok x → g ≠ [] → (a ++ g).length < 2 ^ 32 →
      uncompress (a ++ g) = (uncompress g).map (x ++ ·)) ∧
    ∀ (level : Int) (s : Bytes), -1 ≤ level → level ≤ 9 → s.length < 2 ^ 32 →
      ∃ m, compress z level s = .ok m ∧ (m.length < 2 ^ 32 → uncompress m = .ok s) ∧
        (2 ^ 32 ≤ m.length → ∃ e, uncompress m = .error e) := by
  refine ⟨fun a x g ha hg hsize => ?_, fun level s hlow hhigh hs => ?_⟩
  · have hparts := hsize
    rw [List.length_append] at hparts
    rw [uncompress_of_length_lt (by omega)] at ha
    rw [uncompress_of_length_lt hsize, uncompress_of_length_lt (s := g) (by omega)]
    exact expand_append ha hg
  · obtain ⟨m, hcompress, hmember⟩ := hz.compress hlow hhigh hs
    refine ⟨m, hcompress, fun hsize => ?_, fun hsize => ?_⟩
    · rw [uncompress_of_length_lt hsize, expand_of_member hmember]
      rfl
    · obtain ⟨r, hr, hcut⟩ := exists_counted_append hsize
      rw [← hcut] at hmember
      exact expand_front hmember hr

/-- Two byte strings compressed at different levels, and a member that is cut short behind one. -/
theorem uncompress_append_compress_two : deflater.Faithful ∧
    ∃ m m', compress deflater 6 [97, 98] = .ok m ∧ compress deflater 0 [99] = .ok m' ∧
      uncompress (m ++ m') = .ok [97, 98, 99] ∧
      uncompress (m ++ [0x1f, 0x8b, 8]) = .error .truncated := by
  obtain ⟨happend, hround⟩ := uncompress_append_compress faithful_deflater
  obtain ⟨m, hm, hexpand, -⟩ := hround 6 [97, 98] (by decide) (by decide) (by decide)
  obtain ⟨m', hm', hexpand', -⟩ := hround 0 [99] (by decide) (by decide) (by decide)
  have hsize : m.length ≤ 25 :=
    eq_member_of_compress (by decide) (by decide) (by decide) hm ▸ length_member_le 6 [97, 98]
  have hsize' : m'.length ≤ 24 ∧ 1 < m'.length :=
    eq_member_of_compress (by decide) (by decide) (by decide) hm' ▸
      ⟨length_member_le 0 [99], lt_length_member_store [99]⟩
  have hne : m' ≠ [] := List.ne_nil_of_length_pos (by omega)
  have hshort : uncompress [0x1f, 0x8b, 8] = .error .truncated := by
    rw [uncompress_of_length_lt (by decide)]
    exact expand_of_failure (s := [0x1f, 0x8b, 8]) rfl
  refine ⟨faithful_deflater, m, m', hm, hm', ?_, ?_⟩
  · rw [happend m [97, 98] m' (hexpand (by omega)) hne (by rw [List.length_append]; omega),
      hexpand' (by omega)]
    rfl
  · rw [happend m [97, 98] _ (hexpand (by omega)) (List.cons_ne_nil _ _)
      (by rw [List.length_append, List.length_cons, List.length_cons, List.length_singleton]; omega),
      hshort]
    rfl

/-! ## Above the size -/

/-- As many bytes as can be counted. -/
def brimful : Bytes := List.replicate (2 ^ 32 - 1) 97

/-- They are stored in a member of more, which is not read back. -/
theorem stored_unread : brimful.length < 2 ^ 32 ∧
    ∃ m, compress deflater 0 brimful = .ok m ∧ ∃ e, uncompress m = .error e := by
  have hs : brimful.length = 2 ^ 32 - 1 := List.length_replicate
  have hlong := lt_length_member_store brimful
  obtain ⟨r, hr, hcut⟩ := exists_counted_append (s := member 0 brimful) (by omega)
  have hmember := readMember_member 0 brimful []
  rw [List.append_nil, ← hcut] at hmember
  exact ⟨by omega, _, compress_deflater (by decide) (by decide) (by omega), expand_front hmember hr⟩

/-- Members that hold nothing, one behind the other. -/
def blanks (n : Nat) : Bytes := (List.replicate n []).flatMap (member 0)

theorem length_blanks (n : Nat) : (blanks n).length = 23 * n := by
  have hone : (member 0 []).length = 23 := by decide
  induction n with
  | zero => rfl
  | succ n ih =>
    rw [blanks] at ih ⊢
    rw [List.replicate_succ, List.flatMap_cons, List.length_append, hone, ih]
    omega

theorem blanks_add (n k : Nat) : blanks (n + k) = blanks n ++ blanks k := by
  rw [blanks, ← List.replicate_append_replicate, List.flatMap_append, blanks, blanks]

theorem uncompress_blanks {n : Nat} (hn : n ≠ 0) (hsize : 23 * n < 2 ^ 32) :
    uncompress (blanks n) = .ok [] := by
  rw [uncompress_of_length_lt (by rwa [length_blanks]), blanks,
    expand_members 0 (fun hnil => hn ((List.replicate_eq_nil_iff []).1 hnil))]
  simp

/-- Members that are read for themselves are not read when they are too many: of all of them only the
front of the first is taken. -/
theorem members_uncounted : uncompress (blanks 186737708) = .ok [] ∧ uncompress (blanks 1) = .ok [] ∧
    ∃ e, uncompress (blanks 186737708 ++ blanks 1) = .error e := by
  refine ⟨uncompress_blanks (by decide) (by decide), uncompress_blanks (by decide) (by decide), ?_⟩
  have hcounted : counted (blanks 186737709) = (member 0 []).take 11 := by
    have hfirst : blanks 186737709 = blanks 1 ++ blanks 186737708 := blanks_add 1 186737708
    rw [counted, length_blanks, hfirst, List.take_append_of_le_length]
    · rfl
    · rw [length_blanks]
      decide
  rw [← blanks_add, uncompress, hcounted]
  refine expand_front (r := (member 0 []).drop 11) (s := []) ?_ (by decide)
  rw [List.take_append_drop]
  exact readMember_member 0 [] []

end FileCourier.Gzip
