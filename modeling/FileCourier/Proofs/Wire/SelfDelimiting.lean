import FileCourier.Proofs.Wire.RoundTrip

/-!
# What is read ends by itself

A successful read takes a front part of the input that is enough and not too much (`Front`): the
same part is read in the same way whatever follows it, and an input that stops inside it ends too
early. Every reader of the wire form is of this kind (`SelfDelimiting`), because the parts it is
made of are. So a message ends where its own bytes say (`readNext_front`), and no message within
the limits of the wire form begins another.
-/

namespace FileCourier.Wire

variable {α β : Type} {x : Reader α} {f : α → Reader β} {s rest p p' : Bytes} {a : α} {b : β}

theorem bind_of_error {e : Failure} (h : x s = .error e) : (x >>= f) s = .error e := by
  simp only [bind, StateT.bind, h, Except.bind]

/-- A sequence of reads that succeeds, taken apart. -/
theorem exists_of_bind_ok (h : (x >>= f) s = .ok (b, rest)) :
    ∃ a t, x s = .ok (a, t) ∧ f a t = .ok (b, rest) := by
  cases hx : x s with
  | error e =>
    rw [bind_of_error hx] at h
    cases h
  | ok result => exact ⟨result.1, result.2, rfl, (bind_of_ok hx).symm.trans h⟩

/-- The front part `p` of an input is read as `a`, and nothing shorter is. -/
structure Front (x : Reader α) (p : Bytes) (a : α) : Prop where
  reads : ∀ rest, x (p ++ rest) = .ok (a, rest)
  ends : ∀ q t, p = q ++ t → t ≠ [] → x q = .error ⟨.inputEnded, none⟩

/-- A reader that takes just such a front part whenever it succeeds. -/
def SelfDelimiting (x : Reader α) : Prop :=
  ∀ ⦃s a rest⦄, x s = .ok (a, rest) → ∃ p, s = p ++ rest ∧ Front x p a

/-! ## Readers made of readers -/

theorem Front.bind (hx : Front x p a) (hf : Front (f a) p' b) : Front (x >>= f) (p ++ p') b where
  reads rest := by
    rw [List.append_assoc, bind_of_ok (hx.reads _)]
    exact hf.reads rest
  ends q t heq ht := by
    -- the input stops in the second part, or at the end of the first, or before it
    rcases List.append_eq_append_iff.1 heq with ⟨q', rfl, hp'⟩ | ⟨r, hp, rfl⟩
    · rw [bind_of_ok (hx.reads q')]
      exact hf.ends q' t hp' ht
    · by_cases hr : r = []
      · subst hr
        rw [List.append_nil] at hp
        have hreads := hx.reads []
        rw [List.append_nil, hp] at hreads
        rw [bind_of_ok hreads]
        exact hf.ends [] p' rfl ht
      · exact bind_of_error (hx.ends q r hp hr)

theorem selfDelimiting_pure (a : α) : SelfDelimiting (pure a : Reader α) := by
  intro s b rest h
  cases h
  exact ⟨[], rfl, fun _ => rfl, fun q t h ht => absurd (List.append_eq_nil_iff.1 h.symm).2 ht⟩

theorem SelfDelimiting.bind (hx : SelfDelimiting x) (hf : ∀ a, SelfDelimiting (f a)) :
    SelfDelimiting (x >>= f) := by
  intro s b rest h
  obtain ⟨a, t, hfirst, hsecond⟩ := exists_of_bind_ok h
  obtain ⟨p, rfl, hp⟩ := hx hfirst
  obtain ⟨p', rfl, hp'⟩ := hf a hsecond
  exact ⟨p ++ p', (List.append_assoc ..).symm, hp.bind hp'⟩

theorem SelfDelimiting.map (hx : SelfDelimiting x) (g : α → β) :
    SelfDelimiting (x >>= fun a => pure (g a)) :=
  hx.bind fun a => selfDelimiting_pure (g a)

theorem selfDelimiting_refuse (cause : WireError) : SelfDelimiting (refuse cause : Reader α) := by
  intro s a rest h
  cases h

theorem selfDelimiting_take (n : Nat) : SelfDelimiting (take n) := by
  intro s a rest h
  rw [take] at h
  split at h
  · rename_i hlength
    cases h
    refine ⟨s.take n, (List.take_append_drop n s).symm, fun t => ?_, fun q t heq ht => ?_⟩
    · have htake := take_append (s.take n) t
      rwa [List.length_take_of_le hlength] at htake
    · have hsum := congrArg List.length heq
      have hpos := List.length_pos_iff.2 ht
      rw [List.length_take_of_le hlength, List.length_append] at hsum
      rw [take, if_neg (by omega)]
  · cases h

theorem SelfDelimiting.readMany (hx : SelfDelimiting x) (n : Nat) :
    SelfDelimiting (readMany x n) := by
  induction n with
  | zero => exact selfDelimiting_pure []
  | succ n ih => exact hx.bind fun a => ih.map (a :: ·)

/-! ## The readers of the wire form -/

theorem selfDelimiting_readNat (width : Nat) : SelfDelimiting (readNat width) :=
  (selfDelimiting_take width).map _

theorem selfDelimiting_readString : SelfDelimiting readString := by
  refine (selfDelimiting_readNat 8).bind fun n => ?_
  split
  · exact selfDelimiting_take n
  · exact selfDelimiting_refuse _

theorem selfDelimiting_readList : SelfDelimiting readList :=
  (selfDelimiting_readNat 4).bind selfDelimiting_readString.readMany

theorem selfDelimiting_readEntry : SelfDelimiting readEntry :=
  selfDelimiting_readString.bind fun name => selfDelimiting_readList.map (name, ·)

theorem selfDelimiting_readValueOf (tag : Nat) : SelfDelimiting (readValueOf tag) := by
  unfold readValueOf
  split
  · exact (selfDelimiting_readNat 1).map _
  · exact (selfDelimiting_readNat 8).map _
  · exact selfDelimiting_readString.map _
  · exact selfDelimiting_readList.map _
  · exact (selfDelimiting_readNat 4).bind fun n => (selfDelimiting_readEntry.readMany n).map _
  · exact selfDelimiting_refuse _

theorem selfDelimiting_readField : SelfDelimiting readField := by
  refine (selfDelimiting_readNat 4).bind fun n => ?_
  refine (selfDelimiting_take n).bind fun key => ?_
  exact (selfDelimiting_readNat 1).bind fun tag => (selfDelimiting_readValueOf tag).map (key, ·)

theorem selfDelimiting_readMessage : SelfDelimiting readMessage :=
  (selfDelimiting_readNat 4).bind fun n => (selfDelimiting_readField.readMany n).map Message.ofList

/-! ## Messages -/

theorem readMessage_of_readNext {m : Message} (h : readNext (some s) = (.ok m, some rest)) :
    readMessage s = .ok (m, rest) := by
  rw [readNext] at h
  split at h
  · rename_i hrun
    cases h
    exact hrun
  · cases h

theorem readNext_of_ok {m : Message} (h : readMessage s = .ok (m, rest)) :
    readNext (some s) = (.ok m, some rest) := by
  rw [readNext, StateT.run, h]

theorem readNext_of_error {e : Failure} (h : readMessage s = .error e) :
    readNext (some s) = (.error e.cause, e.unread) := by
  rw [readNext, StateT.run, h]

/-- Of two messages within the limits, none begins the other. -/
theorem eq_of_write_prefix {m m' : Message} (hm : Fits m) (hm' : Fits m')
    (h : write m <+: write m') : m = m' := by
  obtain ⟨t, ht⟩ := h
  have hread := readMessage_write hm t
  have hread' := readMessage_write hm' []
  rw [List.append_nil, ← ht, hread] at hread'
  cases hread'
  rfl

/-- A message that is read from the front of an input is read from every input with the same first
bytes, and as many bytes are taken of it; each input that stops inside them is refused as one that
ended. Of two messages within the limits, none is written as a beginning of the other. -/
theorem readNext_front :
    (∀ d m rest, readNext (some d) = (.ok m, some rest) →
      ∃ p, d = p ++ rest ∧
        (∀ t, readNext (some (p ++ t)) = (.ok m, some t)) ∧
        ∀ q, q <+: p → q ≠ p →
          readNext (some q) = (.error .inputEnded, none) ∧ read q = .error .inputEnded) ∧
    ∀ m m', Fits m → Fits m' → write m <+: write m' → m = m' := by
  refine ⟨fun d m rest h => ?_, fun m m' => eq_of_write_prefix⟩
  obtain ⟨p, rfl, hfront⟩ := selfDelimiting_readMessage (readMessage_of_readNext h)
  refine ⟨p, rfl, fun t => readNext_of_ok (hfront.reads t), fun q hq hne => ?_⟩
  obtain ⟨t, rfl⟩ := hq
  have ht : t ≠ [] := by
    rintro rfl
    exact hne (List.append_nil q).symm
  have hfail := hfront.ends q t rfl ht
  refine ⟨readNext_of_error hfail, ?_⟩
  rw [read, StateT.run, hfail]

/-- A message of one field. -/
def flag : Message := .ofList [([107], .bool true)]

theorem readNext_front_flag :
    readNext (some (write flag ++ [9])) = (.ok flag, some [9]) ∧
      (∃ p, write flag ++ [9] = p ++ [9] ∧
        (∀ t, readNext (some (p ++ t)) = (.ok flag, some t)) ∧
        ∀ q, q <+: p → q ≠ p →
          readNext (some q) = (.error .inputEnded, none) ∧ read q = .error .inputEnded) ∧
      Fits flag ∧ write flag <+: write flag ∧ flag = flag :=
  have hfits : Fits flag := by decide
  have hread := readNext_write hfits [9]
  ⟨hread, readNext_front.1 _ _ _ hread, hfits, List.prefix_rfl,
    readNext_front.2 _ _ hfits hfits List.prefix_rfl⟩

end FileCourier.Wire
