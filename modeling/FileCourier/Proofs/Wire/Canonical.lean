import FileCourier.Proofs.Wire.SelfDelimiting

/-!
# The canonical form of a message

Several inputs can be read as one message: fields and the names of a map may stand in any order and
may be repeated, and a truth value may be any byte. A `Spelling` keeps what an input says of this.
Each input that is read has just one spelling (`readsOnly_readMessage`, `Spelling.write_injective`).
Writing the message gives the input back when the spelling is canonical, and another input, which
is no longer, when it is not (`write_of_readNext`).
-/

namespace FileCourier.Wire

/-! ## Spellings -/

/-- A value as an input spells it: a truth value by its byte, a map by its entries as they stand. -/
inductive Literal where
  | bool (byte : UInt8)
  | int (n : Int64)
  | bytes (s : Bytes)
  | list (items : List Bytes)
  | map (entries : List (Bytes × List Bytes))
  deriving DecidableEq

namespace Literal

/-- The value that is spelled. -/
def value : Literal → Value
  | bool byte => .bool (byte != 0)
  | int n => .int n
  | bytes s => .bytes s
  | list l => .list l
  | map l => .map (.ofList l)

/-- How a value is spelled when it is written. -/
def ofValue : Value → Literal
  | .bool b => bool (if b then 1 else 0)
  | .int n => int n
  | .bytes s => bytes s
  | .list l => list l
  | .map m => map m.toList

def write : Literal → Bytes
  | bool byte => [byte]
  | int n => Bytes.bigEndian 8 n.toUInt64.toNat
  | bytes s => writeString s
  | list l => writeList l
  | map l => Bytes.bigEndian 4 l.length ++ l.flatMap writeEntry

def Fits : Literal → Prop
  | bool _ | int _ => True
  | bytes s => s.length ≤ maxLength
  | list l => ListFits l
  | map l => l.length < Bytes.capacity 4 ∧ ∀ e ∈ l, e.1.length ≤ maxLength ∧ ListFits e.2

instance : (l : Literal) → Decidable l.Fits
  | bool _ | int _ => .isTrue trivial
  | bytes s => inferInstanceAs (Decidable (s.length ≤ maxLength))
  | list l => inferInstanceAs (Decidable (ListFits l))
  | map l => inferInstanceAs (Decidable (l.length < Bytes.capacity 4 ∧
      ∀ e ∈ l, e.1.length ≤ maxLength ∧ ListFits e.2))

/-- A truth value is 0 or 1, and the names of a map are strictly increasing. -/
def Canonical : Literal → Prop
  | bool byte => byte = 0 ∨ byte = 1
  | map l => l.Pairwise fun a b => a.1 < b.1
  | _ => True

end Literal

/-- The fields of a message as an input spells them, in the order in which they stand. -/
abbrev Spelling := List (Bytes × Literal)

def writeLiteralField (f : Bytes × Literal) : Bytes :=
  Bytes.bigEndian 4 f.1.length ++ f.1 ++ tag f.2.value :: f.2.write

namespace Spelling

/-- The message that is spelled. Of two fields with one name the later counts. -/
def message (fs : Spelling) : Message := .ofList (fs.map (Prod.map id Literal.value))

/-- How a message is spelled when it is written. -/
def ofMessage (m : Message) : Spelling := m.fields.toList.map (Prod.map id Literal.ofValue)

def write (fs : Spelling) : Bytes := Bytes.bigEndian 4 fs.length ++ fs.flatMap writeLiteralField

structure Fits (fs : Spelling) : Prop where
  count : fs.length < Bytes.capacity 4
  fields : ∀ f ∈ fs, f.1.length < Bytes.capacity 4 ∧ f.2.Fits

/-- The keys are strictly increasing, and so are the names of every map; every truth value is a
byte 0 or 1. -/
structure Canonical (fs : Spelling) : Prop where
  keys : fs.Pairwise fun f g => f.1 < g.1
  values : ∀ f ∈ fs, f.2.Canonical

end Spelling

/-! ## Inputs that are read are spelled -/

/-- A reader that accepts nothing but the written forms of what fits, and gives what they mean. -/
def ReadsOnly {α β : Type} (x : Reader β) (fits : α → Prop) (write : α → Bytes) (meaning : α → β) :
    Prop :=
  ∀ ⦃s b rest⦄, x s = .ok (b, rest) → ∃ a, fits a ∧ meaning a = b ∧ s = write a ++ rest

section

variable {α β : Type} {x : Reader β} {fits : α → Prop} {write : α → Bytes} {meaning : α → β}

theorem readsOnly_take (n : Nat) : ReadsOnly (take n) (·.length = n) id id := by
  intro s b rest h
  rw [take] at h
  split at h
  · rename_i hlength
    cases h
    exact ⟨s.take n, List.length_take_of_le hlength, rfl, (List.take_append_drop n s).symm⟩
  · cases h

theorem readsOnly_readNat (width : Nat) :
    ReadsOnly (readNat width) (· < Bytes.capacity width) (Bytes.bigEndian width) id := by
  intro s n rest h
  obtain ⟨a, t, htake, hpure⟩ := exists_of_bind_ok h
  cases hpure
  obtain ⟨_, rfl, rfl, rfl⟩ := readsOnly_take width htake
  exact ⟨_, Bytes.ofBigEndian_lt _, rfl, by rw [Bytes.bigEndian_ofBigEndian]; rfl⟩

theorem readsOnly_readString : ReadsOnly readString (·.length ≤ maxLength) writeString id := by
  intro s b rest h
  obtain ⟨n, t, hcount, hbody⟩ := exists_of_bind_ok h
  obtain ⟨_, -, rfl, rfl⟩ := readsOnly_readNat 8 hcount
  split at hbody
  · rename_i hshort
    obtain ⟨_, rfl, rfl, rfl⟩ := readsOnly_take _ hbody
    exact ⟨_, hshort, rfl, (List.append_assoc ..).symm⟩
  · cases hbody

theorem ReadsOnly.readMany (hx : ReadsOnly x fits write meaning) (n : Nat) :
    ReadsOnly (readMany x n) (fun l : List α => l.length = n ∧ ∀ a ∈ l, fits a)
      (List.flatMap write) (List.map meaning) := by
  induction n with
  | zero =>
    intro s l rest h
    cases h
    exact ⟨[], ⟨rfl, List.forall_mem_nil _⟩, rfl, rfl⟩
  | succ n ih =>
    intro s l rest h
    obtain ⟨b, t, hhead, hmore⟩ := exists_of_bind_ok h
    obtain ⟨r, t', htail, hpure⟩ := exists_of_bind_ok hmore
    cases hpure
    obtain ⟨a, ha, rfl, rfl⟩ := hx hhead
    obtain ⟨l, ⟨hlength, hl⟩, rfl, rfl⟩ := ih htail
    refine ⟨a :: l, ⟨congrArg (· + 1) hlength, List.forall_mem_cons.2 ⟨ha, hl⟩⟩, rfl, ?_⟩
    rw [List.flatMap_cons, List.append_assoc]

/-- A count and as many items. -/
theorem ReadsOnly.counted (hx : ReadsOnly x fits write meaning) :
    ReadsOnly (readNat 4 >>= Wire.readMany x)
      (fun l : List α => l.length < Bytes.capacity 4 ∧ ∀ a ∈ l, fits a)
      (fun l => Bytes.bigEndian 4 l.length ++ l.flatMap write) (List.map meaning) := by
  intro s l rest h
  obtain ⟨n, t, hcount, hitems⟩ := exists_of_bind_ok h
  obtain ⟨_, hlt, rfl, rfl⟩ := readsOnly_readNat 4 hcount
  obtain ⟨l, ⟨rfl, hl⟩, rfl, rfl⟩ := hx.readMany _ hitems
  exact ⟨l, ⟨hlt, hl⟩, rfl, (List.append_assoc ..).symm⟩

theorem readsOnly_readList : ReadsOnly readList ListFits writeList id := by
  intro s l rest h
  obtain ⟨l, ⟨hcount, hitems⟩, rfl, rfl⟩ := readsOnly_readString.counted h
  exact ⟨l, ⟨hcount, hitems⟩, (List.map_id l).symm, rfl⟩

theorem readsOnly_readEntry : ReadsOnly readEntry
    (fun e => e.1.length ≤ maxLength ∧ ListFits e.2) writeEntry id := by
  intro s e rest h
  obtain ⟨name, t, hname, hmore⟩ := exists_of_bind_ok h
  obtain ⟨l, t', hlist, hpure⟩ := exists_of_bind_ok hmore
  cases hpure
  obtain ⟨_, hshort, rfl, rfl⟩ := readsOnly_readString hname
  obtain ⟨_, hfits, rfl, rfl⟩ := readsOnly_readList hlist
  exact ⟨(_, _), ⟨hshort, hfits⟩, rfl, (List.append_assoc ..).symm⟩

end

theorem ofNat_ne_zero {n : Nat} (h : n < 256) : (UInt8.ofNat n != 0) = (n != 0) := by
  rw [Bool.eq_iff_iff, bne_iff_ne, bne_iff_ne, ne_eq, ne_eq, ← UInt8.toNat_inj, UInt8.toNat_ofNat',
    Nat.mod_eq_of_lt h]
  rfl

theorem readsOnly_readValueOf (n : Nat) : ReadsOnly (readValueOf n)
    (fun l : Literal => l.Fits ∧ (tag l.value).toNat = n) Literal.write Literal.value := by
  intro s v rest h
  unfold readValueOf at h
  split at h
  · obtain ⟨_, t, hbyte, hpure⟩ := exists_of_bind_ok h
    cases hpure
    obtain ⟨byte, hlt, rfl, rfl⟩ := readsOnly_readNat 1 hbyte
    exact ⟨.bool (.ofNat byte), ⟨trivial, rfl⟩, congrArg Value.bool (ofNat_ne_zero hlt), rfl⟩
  · obtain ⟨_, t, hint, hpure⟩ := exists_of_bind_ok h
    cases hpure
    obtain ⟨n, hlt, rfl, rfl⟩ := readsOnly_readNat 8 hint
    have hn : (Int64.ofNat n).toUInt64.toNat = n := UInt64.toNat_ofNat_of_lt' hlt
    exact ⟨.int (.ofNat n), ⟨trivial, rfl⟩, rfl, by rw [Literal.write, hn]⟩
  · obtain ⟨_, t, hstring, hpure⟩ := exists_of_bind_ok h
    cases hpure
    obtain ⟨s, hshort, rfl, rfl⟩ := readsOnly_readString hstring
    exact ⟨.bytes s, ⟨hshort, rfl⟩, rfl, rfl⟩
  · obtain ⟨_, t, hlist, hpure⟩ := exists_of_bind_ok h
    cases hpure
    obtain ⟨l, hfits, rfl, rfl⟩ := readsOnly_readList hlist
    exact ⟨.list l, ⟨hfits, rfl⟩, rfl, rfl⟩
  · obtain ⟨n, t, hcount, hmore⟩ := exists_of_bind_ok h
    obtain ⟨_, t', hentries, hpure⟩ := exists_of_bind_ok hmore
    cases hpure
    obtain ⟨l, hfits, rfl, rfl⟩ := readsOnly_readEntry.counted ((bind_of_ok hcount).trans hentries)
    exact ⟨.map l, ⟨hfits, rfl⟩, by rw [List.map_id, Literal.value], rfl⟩
  · cases h

theorem readsOnly_readField : ReadsOnly readField
    (fun f : Bytes × Literal => f.1.length < Bytes.capacity 4 ∧ f.2.Fits) writeLiteralField
    (Prod.map id Literal.value) := by
  intro s f rest h
  obtain ⟨_, t, hlength, hmore⟩ := exists_of_bind_ok h
  obtain ⟨_, t', hkey, hmore⟩ := exists_of_bind_ok hmore
  obtain ⟨_, t'', htag, hmore⟩ := exists_of_bind_ok hmore
  obtain ⟨_, t''', hvalue, hpure⟩ := exists_of_bind_ok hmore
  cases hpure
  obtain ⟨_, hlt, rfl, rfl⟩ := readsOnly_readNat 4 hlength
  obtain ⟨key, rfl, rfl, rfl⟩ := readsOnly_take _ hkey
  obtain ⟨_, -, rfl, rfl⟩ := readsOnly_readNat 1 htag
  obtain ⟨l, ⟨hfits, rfl⟩, rfl, rfl⟩ := readsOnly_readValueOf _ hvalue
  refine ⟨(key, l), ⟨hlt, hfits⟩, rfl, ?_⟩
  have htag : Bytes.bigEndian 1 (tag l.value).toNat = [tag l.value] := by
    simp [Bytes.bigEndian]
  simp only [id, htag, writeLiteralField, List.append_assoc, List.cons_append, List.nil_append]

theorem readsOnly_readMessage :
    ReadsOnly readMessage Spelling.Fits Spelling.write Spelling.message := by
  intro s m rest h
  obtain ⟨n, t, hcount, hmore⟩ := exists_of_bind_ok h
  obtain ⟨_, t', hfields, hpure⟩ := exists_of_bind_ok hmore
  cases hpure
  obtain ⟨fs, ⟨hlt, hfits⟩, rfl, rfl⟩ :=
    readsOnly_readField.counted ((bind_of_ok hcount).trans hfields)
  exact ⟨fs, ⟨hlt, hfits⟩, rfl, rfl⟩

/-! ## A spelling is read as its value -/

theorem readValueOf_literal {l : Literal} (h : l.Fits) (rest : Bytes) :
    readValueOf (tag l.value).toNat (l.write ++ rest) = .ok (l.value, rest) := by
  cases l with
  | bool byte =>
    have hbyte : (byte.toNat != 0) = (byte != 0) := by
      rw [← ofNat_ne_zero byte.toNat_lt, UInt8.ofNat_toNat]
    change (readNat 1 >>= fun n => pure (Value.bool (n != 0)) : Reader Value) _ = _
    rw [Literal.write, List.singleton_append, map_of_ok (readNat_one _ rest), hbyte, Literal.value]
  | int n => exact readValueOf_write (v := .int n) trivial rest
  | bytes s => exact readValueOf_write (v := .bytes s) h rest
  | list l => exact readValueOf_write (v := .list l) h rest
  | map l => exact readValueOf_entries h.1 h.2 rest

theorem readField_literal {f : Bytes × Literal} (hkey : f.1.length < Bytes.capacity 4)
    (hvalue : f.2.Fits) (rest : Bytes) :
    readField (writeLiteralField f ++ rest) = .ok (Prod.map id Literal.value f, rest) :=
  readField_of_value hkey (readValueOf_literal hvalue rest)

theorem readMessage_spelling {fs : Spelling} (h : fs.Fits) (rest : Bytes) :
    readMessage (fs.write ++ rest) = .ok (fs.message, rest) :=
  readMessage_of_fields h.count
    (fun f hf => readField_literal (h.fields f hf).1 (h.fields f hf).2) rest

/-! ## A spelling is read in one way -/

/-- What is written shows what it is and where it ends. -/
def Unambiguous {α : Type} (fits : α → Prop) (write : α → Bytes) : Prop :=
  ∀ ⦃a b r t⦄, fits a → fits b → write a ++ r = write b ++ t → a = b ∧ r = t

theorem unambiguous_of_read {α : Type} {fits : α → Prop} {write : α → Bytes} {x : Reader α}
    (h : ∀ a, fits a → ∀ rest, x (write a ++ rest) = .ok (a, rest)) : Unambiguous fits write := by
  intro a b r t ha hb heq
  have hread := h a ha r
  rw [heq, h b hb t] at hread
  cases hread
  exact ⟨rfl, rfl⟩

theorem Unambiguous.flatMap {α : Type} {fits : α → Prop} {write : α → Bytes}
    (h : Unambiguous fits write) {l l' : List α} {r t : Bytes} (hlength : l.length = l'.length)
    (hl : ∀ a ∈ l, fits a) (hl' : ∀ a ∈ l', fits a)
    (heq : l.flatMap write ++ r = l'.flatMap write ++ t) : l = l' ∧ r = t := by
  induction l generalizing l' with
  | nil =>
    obtain rfl := List.length_eq_zero_iff.1 hlength.symm
    exact ⟨rfl, heq⟩
  | cons a l ih =>
    cases l' with
    | nil => cases hlength
    | cons b l' =>
      rw [List.forall_mem_cons] at hl hl'
      rw [List.flatMap_cons, List.flatMap_cons, List.append_assoc, List.append_assoc] at heq
      obtain ⟨rfl, hmore⟩ := h hl.1 hl'.1 heq
      obtain ⟨rfl, rfl⟩ := ih (Nat.succ.inj hlength) hl.2 hl'.2 hmore
      exact ⟨rfl, rfl⟩

theorem unambiguous_bigEndian (width : Nat) :
    Unambiguous (· < Bytes.capacity width) (Bytes.bigEndian width) :=
  unambiguous_of_read fun _ => readNat_bigEndian

theorem Unambiguous.counted {α : Type} {fits : α → Prop} {write : α → Bytes}
    (h : Unambiguous fits write) :
    Unambiguous (fun l : List α => l.length < Bytes.capacity 4 ∧ ∀ a ∈ l, fits a)
      (fun l => Bytes.bigEndian 4 l.length ++ l.flatMap write) := by
  intro l l' r t hl hl' heq
  rw [List.append_assoc, List.append_assoc] at heq
  obtain ⟨hlength, hitems⟩ := unambiguous_bigEndian 4 hl.1 hl'.1 heq
  exact h.flatMap hlength hl.2 hl'.2 hitems

theorem unambiguous_literal (n : UInt8) :
    Unambiguous (fun l : Literal => l.Fits ∧ tag l.value = n) Literal.write := by
  rintro l l' r t ⟨hl, rfl⟩ ⟨hl', htag⟩ heq
  have hread := readValueOf_literal hl r
  rw [heq, ← htag, readValueOf_literal hl' t] at hread
  -- the values agree, and so does what follows; only bytes and entries may still differ
  injection hread with hread
  injection hread with hvalue hrest
  subst hrest
  have hwrite := List.append_cancel_right heq
  refine ⟨?_, rfl⟩
  cases l with
  | bool byte =>
    cases l' with
    | bool byte' => exact congrArg Literal.bool (List.head_eq_of_cons_eq hwrite)
    | _ => cases hvalue
  | map l =>
    cases l' with
    | map l' =>
      have hentries : Unambiguous (fun e => e.1.length ≤ maxLength ∧ ListFits e.2) writeEntry :=
        unambiguous_of_read fun e he => readEntry_write he.1 he.2
      exact congrArg Literal.map (hentries.counted hl hl' heq).1
    | _ => cases hvalue
  | int | bytes | list =>
    cases l' <;> cases hvalue
    rfl

theorem unambiguous_writeLiteralField :
    Unambiguous (fun f : Bytes × Literal => f.1.length < Bytes.capacity 4 ∧ f.2.Fits)
      writeLiteralField := by
  rintro ⟨key, l⟩ ⟨key', l'⟩ r t ⟨hkey, hl⟩ ⟨hkey', hl'⟩ heq
  simp only [writeLiteralField, List.append_assoc, List.cons_append] at heq
  obtain ⟨hlength, hbody⟩ := unambiguous_bigEndian 4 hkey hkey' heq
  obtain ⟨rfl, hvalue⟩ := List.append_inj hbody hlength
  injection hvalue with htag hvalue
  obtain ⟨rfl, rfl⟩ := unambiguous_literal _ ⟨hl, rfl⟩ ⟨hl', htag.symm⟩ hvalue
  exact ⟨rfl, rfl⟩

namespace Spelling

variable {fs fs' : Spelling}

theorem write_injective (h : fs.Fits) (h' : fs'.Fits) (heq : fs.write = fs'.write) : fs = fs' :=
  (unambiguous_writeLiteralField.counted ⟨h.count, h.fields⟩ ⟨h'.count, h'.fields⟩
    (congrArg (· ++ []) heq)).1

end Spelling

/-! ## What is written is canonical -/

theorem Literal.value_ofValue (v : Value) : (ofValue v).value = v := by
  cases v with
  | bool b => cases b <;> rfl
  | map m => exact congrArg Value.map m.ofList_toList
  | _ => rfl

theorem Literal.write_ofValue (v : Value) : (ofValue v).write = writeValue v := by
  cases v <;> rfl

theorem Literal.canonical_ofValue (v : Value) : (ofValue v).Canonical := by
  cases v with
  | bool b => cases b <;> simp [ofValue, Canonical]
  | map m => exact m.sorted
  | _ => trivial

theorem Literal.fits_ofValue {v : Value} (h : ValueFits v) : (ofValue v).Fits := by
  cases v <;> exact h

/-- A canonical literal is the one that is written for its value. -/
theorem Literal.Canonical.eq_ofValue {l : Literal} (h : l.Canonical) : ofValue l.value = l := by
  cases l with
  | bool byte => rcases h with rfl | rfl <;> rfl
  | map l => exact congrArg Literal.map (ByteMap.toList_ofList h)
  | _ => rfl

theorem writeLiteralField_ofValue (f : Bytes × Value) :
    writeLiteralField (Prod.map id Literal.ofValue f) = writeField f := by
  simp only [writeLiteralField, writeField, Prod.map, id, Literal.value_ofValue,
    Literal.write_ofValue]

namespace Spelling

variable {fs : Spelling} {m : Message}

theorem write_ofMessage (m : Message) : (ofMessage m).write = Wire.write m := by
  rw [write, ofMessage, List.length_map, List.flatMap_map, Wire.write, ByteMap.size]
  simp only [writeLiteralField_ofValue]

theorem canonical_ofMessage (m : Message) : (ofMessage m).Canonical where
  keys := List.pairwise_map.2 m.fields.sorted
  values := by
    intro f hf
    obtain ⟨e, -, rfl⟩ := List.mem_map.1 hf
    exact Literal.canonical_ofValue e.2

theorem fits_ofMessage (h : Wire.Fits m) : (ofMessage m).Fits where
  count := by
    rw [ofMessage, List.length_map]
    exact h.count
  fields := by
    intro f hf
    obtain ⟨e, he, rfl⟩ := List.mem_map.1 hf
    exact ⟨(h.fields e he).1, Literal.fits_ofValue (h.fields e he).2⟩

theorem Canonical.eq_ofMessage (h : fs.Canonical) : ofMessage fs.message = fs := by
  have hsorted : (fs.map (Prod.map id Literal.value)).Pairwise fun a b => a.1 < b.1 :=
    List.pairwise_map.2 h.keys
  have hfields : fs.message.fields.toList = fs.map (Prod.map id Literal.value) :=
    ByteMap.toList_ofList hsorted
  rw [ofMessage, hfields, List.map_map]
  refine (List.map_congr_left fun f hf => ?_).trans (List.map_id fs)
  exact congrArg (Prod.mk f.1) (h.values f hf).eq_ofValue

end Spelling

/-! ## What is read can be written, and takes no more room -/

theorem Literal.Fits.value {l : Literal} (h : l.Fits) : ValueFits l.value := by
  cases l with
  | map l =>
    exact ⟨Nat.lt_of_le_of_lt (ByteMap.size_ofList_le l) h.1,
      fun e he => h.2 e (ByteMap.mem_of_mem_ofList he)⟩
  | _ => exact h

theorem Spelling.Fits.message {fs : Spelling} (h : fs.Fits) : Wire.Fits fs.message where
  count := by
    refine Nat.lt_of_le_of_lt (ByteMap.size_ofList_le _) ?_
    rw [List.length_map]
    exact h.count
  fields := by
    intro f hf
    obtain ⟨e, he, rfl⟩ := List.mem_map.1 (ByteMap.mem_of_mem_ofList hf)
    exact ⟨(h.fields e he).1, Literal.Fits.value (h.fields e he).2⟩

theorem total_le_length_flatMap {α : Type} {write : α → Bytes} {size : α → Nat}
    (h : ∀ a, size a ≤ (write a).length) (l : List α) :
    total size l ≤ (l.flatMap write).length := by
  induction l with
  | nil => exact Nat.le_refl 0
  | cons a l ih =>
    have ha := h a
    rw [total, List.flatMap_cons, List.length_append]
    omega

theorem Literal.valueSize_le (l : Literal) : valueSize l.value ≤ l.write.length := by
  cases l with
  | bool byte => exact Nat.le_refl 1
  | int n => exact Nat.le_of_eq (length_writeValue (.int n)).symm
  | bytes s => exact Nat.le_of_eq (length_writeValue (.bytes s)).symm
  | list l => exact Nat.le_of_eq (length_writeValue (.list l)).symm
  | map l =>
    have hentries := ByteMap.total_ofList_le entrySize l
    rw [write, List.length_append, Bytes.length_bigEndian,
      length_flatMap_of_size length_writeEntry]
    exact Nat.add_le_add_left hentries 4

theorem fieldSize_le (f : Bytes × Literal) :
    fieldSize (Prod.map id Literal.value f) ≤ (writeLiteralField f).length := by
  have hvalue := f.2.valueSize_le
  simp only [fieldSize, writeLiteralField, Prod.map, id, List.length_append, List.length_cons,
    Bytes.length_bigEndian]
  omega

theorem Spelling.length_write_message_le (fs : Spelling) :
    (Wire.write fs.message).length ≤ fs.write.length := by
  have hkept := ByteMap.total_ofList_le fieldSize (fs.map (Prod.map id Literal.value))
  rw [total_map] at hkept
  have hfields := Nat.le_trans hkept (total_le_length_flatMap fieldSize_le fs)
  rw [length_write, size, write, List.length_append, Bytes.length_bigEndian]
  exact Nat.add_le_add_left hfields 4

/-! ## Messages -/

theorem Spelling.write_message_eq_iff {fs : Spelling} (h : fs.Fits) :
    Wire.write fs.message = fs.write ↔ fs.Canonical := by
  constructor
  · intro heq
    have hsame := write_injective (fits_ofMessage h.message) h ((write_ofMessage _).trans heq)
    rw [← hsame]
    exact canonical_ofMessage _
  · intro hcanonical
    rw [← write_ofMessage, hcanonical.eq_ofMessage]

theorem fits_of_read {d : Bytes} {m : Message} (h : read d = .ok m) : Fits m := by
  rw [read, StateT.run] at h
  split at h
  · rename_i hread
    cases h
    obtain ⟨fs, hfits, rfl, -⟩ := readsOnly_readMessage hread
    exact hfits.message
  · cases h

/-- Just the messages within the limits are read back. -/
theorem read_write_iff {m : Message} : read (write m) = .ok m ↔ Fits m :=
  ⟨fits_of_read, read_write⟩

/-- A message that is read from the front of an input can be written in no more bytes than were
taken, and is read back from them. Those bytes have one spelling; they are written again just as
they were if the keys of the spelling and the names of each of its maps are strictly increasing and
its truth values are 0 or 1, and only then. -/
theorem write_of_readNext {d rest : Bytes} {m : Message}
    (h : readNext (some d) = (.ok m, some rest)) :
    ∃ p, d = p ++ rest ∧ (write m).length ≤ p.length ∧ read (write m) = .ok m ∧
      ∃ fs : Spelling, (fs.Fits ∧ fs.write = p) ∧
        (∀ fs' : Spelling, fs'.Fits → fs'.write = p → fs' = fs) ∧
        fs.message = m ∧ (write m = p ↔ fs.Canonical) := by
  obtain ⟨fs, hfits, rfl, rfl⟩ := readsOnly_readMessage (readMessage_of_readNext h)
  refine ⟨fs.write, rfl, fs.length_write_message_le, read_write hfits.message, fs, ⟨hfits, rfl⟩,
    ?_, rfl, ?_⟩
  · intro fs' hfits' heq
    exact Spelling.write_injective hfits' hfits heq
  · exact Spelling.write_message_eq_iff hfits

/-- A key that stands twice, a truth value that is neither 0 nor 1, and names in falling order. -/
def untidy : Spelling := [([107], .bool 7), ([107], .map [([98], []), ([97], [[1, 2]])])]

/-- What is left of it. -/
def tidied : Message := .ofList [([107], .map (.ofList [([97], [[1, 2]]), ([98], [])]))]

theorem write_of_readNext_untidy :
    readNext (some (untidy.write ++ [9])) = (.ok tidied, some [9]) ∧
      ∃ p, untidy.write ++ [9] = p ++ [9] ∧ (write tidied).length ≤ p.length ∧
        read (write tidied) = .ok tidied ∧
        ∃ fs : Spelling, (fs.Fits ∧ fs.write = p) ∧
          (∀ fs' : Spelling, fs'.Fits → fs'.write = p → fs' = fs) ∧
          fs.message = tidied ∧ (write tidied = p ↔ fs.Canonical) :=
  have hmessage : untidy.message = tidied := by decide
  have hread := readNext_of_ok (readMessage_spelling ⟨by decide, by decide⟩ [9])
  ⟨hmessage ▸ hread, write_of_readNext (hmessage ▸ hread)⟩

end FileCourier.Wire
