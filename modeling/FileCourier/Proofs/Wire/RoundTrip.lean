import FileCourier.Message.Wire

/-!
# Reading back what was written

A reader that meets the written form of a value at the front of its input returns the value and
what follows (`readString_write`, `readList_write`, `readValueOf_write`, `readMessage_write`), as
long as the value is within the limits of the wire form (`Fits`). The parts of a message report as
many bytes as they write (`length_write`).
-/

namespace FileCourier.Wire

/-! ## Limits -/

/-- A list of strings whose count and lengths can be written. -/
structure ListFits (l : List Bytes) : Prop where
  count : l.length < Bytes.capacity 4
  items : ∀ s ∈ l, s.length ≤ maxLength

/-- A value whose counts and lengths can be written. -/
def ValueFits : Value → Prop
  | .bool _ | .int _ => True
  | .bytes s => s.length ≤ maxLength
  | .list l => ListFits l
  | .map m => m.size < Bytes.capacity 4 ∧ ∀ e ∈ m.toList, e.1.length ≤ maxLength ∧ ListFits e.2

/-- A message within the limits of the wire form. -/
structure Fits (m : Message) : Prop where
  count : m.fields.size < Bytes.capacity 4
  fields : ∀ f ∈ m.fields.toList, f.1.length < Bytes.capacity 4 ∧ ValueFits f.2

instance (l : List Bytes) : Decidable (ListFits l) :=
  decidable_of_iff (l.length < Bytes.capacity 4 ∧ ∀ s ∈ l, s.length ≤ maxLength)
    ⟨fun h => ⟨h.1, h.2⟩, fun h => ⟨h.count, h.items⟩⟩

instance : (v : Value) → Decidable (ValueFits v)
  | .bool _ | .int _ => .isTrue trivial
  | .bytes s => inferInstanceAs (Decidable (s.length ≤ maxLength))
  | .list l => inferInstanceAs (Decidable (ListFits l))
  | .map m => inferInstanceAs (Decidable (m.size < Bytes.capacity 4 ∧
      ∀ e ∈ m.toList, e.1.length ≤ maxLength ∧ ListFits e.2))

instance (m : Message) : Decidable (Fits m) :=
  decidable_of_iff (m.fields.size < Bytes.capacity 4 ∧
      ∀ f ∈ m.fields.toList, f.1.length < Bytes.capacity 4 ∧ ValueFits f.2)
    ⟨fun h => ⟨h.1, h.2⟩, fun h => ⟨h.count, h.fields⟩⟩

/-! ## Readers -/

variable {α β : Type} {x : Reader α} {f : α → Reader β} {s rest : Bytes}

theorem bind_of_ok {a : α} (h : x s = .ok (a, rest)) : (x >>= f) s = f a rest := by
  simp only [bind, StateT.bind, h, Except.bind]

theorem map_of_ok {g : α → β} {a : α} (h : x s = .ok (a, rest)) :
    (x >>= fun a => pure (g a)) s = .ok (g a, rest) :=
  bind_of_ok h

theorem take_append (p rest : Bytes) : take p.length (p ++ rest) = .ok (p, rest) := by
  rw [take, if_pos (by simp), List.take_left, List.drop_left]

theorem readNat_bigEndian {width n : Nat} (h : n < Bytes.capacity width) (rest : Bytes) :
    readNat width (Bytes.bigEndian width n ++ rest) = .ok (n, rest) := by
  have htake := take_append (Bytes.bigEndian width n) rest
  rw [Bytes.length_bigEndian] at htake
  rw [readNat, map_of_ok htake, Bytes.ofBigEndian_bigEndian, Nat.mod_eq_of_lt h]

theorem readNat_one (b : UInt8) (rest : Bytes) :
    readNat 1 (b :: rest) = .ok (b.toNat, rest) := by
  have htake : take 1 (b :: rest) = .ok ([b], rest) := take_append [b] rest
  rw [readNat, map_of_ok htake]
  simp [Bytes.ofBigEndian]

theorem readMany_flatMap_map {read : Reader β} {write : α → Bytes} {meaning : α → β} {l : List α}
    (h : ∀ a ∈ l, ∀ rest, read (write a ++ rest) = .ok (meaning a, rest)) (rest : Bytes) :
    readMany read l.length (l.flatMap write ++ rest) = .ok (l.map meaning, rest) := by
  induction l with
  | nil => rfl
  | cons a l ih =>
    have hhead := h a List.mem_cons_self (l.flatMap write ++ rest)
    have htail := ih fun b hb => h b (List.mem_cons_of_mem _ hb)
    rw [List.length_cons, List.flatMap_cons, List.append_assoc, readMany, bind_of_ok hhead,
      map_of_ok htail, List.map_cons]

theorem readMany_flatMap {read : Reader α} {write : α → Bytes} {l : List α}
    (h : ∀ a ∈ l, ∀ rest, read (write a ++ rest) = .ok (a, rest)) (rest : Bytes) :
    readMany read l.length (l.flatMap write ++ rest) = .ok (l, rest) := by
  have hmany := readMany_flatMap_map h rest
  rwa [List.map_id'] at hmany

theorem readString_write {s : Bytes} (h : s.length ≤ maxLength) (rest : Bytes) :
    readString (writeString s ++ rest) = .ok (s, rest) := by
  have hlt : s.length < Bytes.capacity 8 := Nat.lt_of_le_of_lt h (by decide)
  rw [readString, writeString, List.append_assoc, bind_of_ok (readNat_bigEndian hlt _), if_pos h,
    take_append]

theorem readList_write {l : List Bytes} (h : ListFits l) (rest : Bytes) :
    readList (writeList l ++ rest) = .ok (l, rest) := by
  rw [readList, writeList, List.append_assoc, bind_of_ok (readNat_bigEndian h.count _)]
  exact readMany_flatMap (fun s hs => readString_write (h.items s hs)) rest

theorem readEntry_write {e : Bytes × List Bytes} (hname : e.1.length ≤ maxLength)
    (hlist : ListFits e.2) (rest : Bytes) :
    readEntry (writeEntry e ++ rest) = .ok (e, rest) := by
  rw [readEntry, writeEntry, List.append_assoc, bind_of_ok (readString_write hname _),
    map_of_ok (readList_write hlist rest)]

/-- The entries of a map may stand in any order. -/
theorem readValueOf_entries {l : List (Bytes × List Bytes)} (hcount : l.length < Bytes.capacity 4)
    (hentries : ∀ e ∈ l, e.1.length ≤ maxLength ∧ ListFits e.2) (rest : Bytes) :
    readValueOf 4 (Bytes.bigEndian 4 l.length ++ l.flatMap writeEntry ++ rest) =
      .ok (.map (.ofList l), rest) := by
  have hmany := readMany_flatMap
    (fun e he => readEntry_write (hentries e he).1 (hentries e he).2) rest
  change (readNat 4 >>= fun n => readMany readEntry n >>= fun l =>
    pure (Value.map (.ofList l)) : Reader Value) _ = _
  rw [List.append_assoc, bind_of_ok (readNat_bigEndian hcount _), map_of_ok hmany]

theorem readValueOf_write {v : Value} (h : ValueFits v) (rest : Bytes) :
    readValueOf (tag v).toNat (writeValue v ++ rest) = .ok (v, rest) := by
  cases v with
  | bool b =>
    change (readNat 1 >>= fun n => pure (Value.bool (n != 0)) : Reader Value) _ = _
    rw [writeValue, List.singleton_append, map_of_ok (readNat_one _ rest)]
    cases b <;> rfl
  | int n =>
    have hlt : n.toUInt64.toNat < Bytes.capacity 8 := n.toUInt64.toNat_lt
    change (readNat 8 >>= fun n => pure (Value.int (Int64.ofNat n)) : Reader Value) _ = _
    rw [writeValue, map_of_ok (readNat_bigEndian hlt rest)]
    simp [Int64.ofNat]
  | bytes s =>
    change (readString >>= fun s => pure (Value.bytes s) : Reader Value) _ = _
    rw [writeValue, map_of_ok (readString_write h rest)]
  | list l =>
    change (readList >>= fun l => pure (Value.list l) : Reader Value) _ = _
    rw [writeValue, map_of_ok (readList_write h rest)]
  | map m =>
    have hread := readValueOf_entries h.1 h.2 rest
    rwa [ByteMap.ofList_toList] at hread

theorem readField_of_value {key body : Bytes} {v : Value} (hkey : key.length < Bytes.capacity 4)
    {rest : Bytes} (hvalue : readValueOf (tag v).toNat (body ++ rest) = .ok (v, rest)) :
    readField (Bytes.bigEndian 4 key.length ++ key ++ tag v :: body ++ rest) =
      .ok ((key, v), rest) := by
  have htag := readNat_one (tag v) (body ++ rest)
  rw [readField, List.append_assoc, List.append_assoc, List.cons_append,
    bind_of_ok (readNat_bigEndian hkey _), bind_of_ok (take_append key _), bind_of_ok htag,
    map_of_ok hvalue]

theorem readField_write {f : Bytes × Value} (hkey : f.1.length < Bytes.capacity 4)
    (hvalue : ValueFits f.2) (rest : Bytes) : readField (writeField f ++ rest) = .ok (f, rest) :=
  readField_of_value hkey (readValueOf_write hvalue rest)

theorem readMessage_of_fields {α : Type} {write : α → Bytes} {field : α → Bytes × Value}
    {l : List α} (hcount : l.length < Bytes.capacity 4)
    (h : ∀ a ∈ l, ∀ rest, readField (write a ++ rest) = .ok (field a, rest)) (rest : Bytes) :
    readMessage (Bytes.bigEndian 4 l.length ++ l.flatMap write ++ rest) =
      .ok (.ofList (l.map field), rest) := by
  rw [readMessage, List.append_assoc, bind_of_ok (readNat_bigEndian hcount _),
    map_of_ok (readMany_flatMap_map h rest)]

theorem readMessage_write {m : Message} (h : Fits m) (rest : Bytes) :
    readMessage (write m ++ rest) = .ok (m, rest) := by
  have hread := readMessage_of_fields h.count
    (fun f hf => readField_write (h.fields f hf).1 (h.fields f hf).2) rest
  rwa [List.map_id', Message.ofList, ByteMap.ofList_toList] at hread

theorem readNext_write {m : Message} (h : Fits m) (rest : Bytes) :
    readNext (some (write m ++ rest)) = (.ok m, some rest) := by
  rw [readNext, StateT.run, readMessage_write h]

theorem read_write {m : Message} (h : Fits m) : read (write m) = .ok m := by
  have hread := readMessage_write h []
  rw [List.append_nil] at hread
  rw [read, StateT.run, hread]

/-! ## Sizes -/

theorem length_flatMap_of_size {α : Type} {write : α → Bytes} {size : α → Nat}
    (h : ∀ a, (write a).length = size a) (l : List α) :
    (l.flatMap write).length = total size l := by
  induction l with
  | nil => rfl
  | cons a l ih => rw [List.flatMap_cons, List.length_append, h, ih, total]

theorem length_writeString (s : Bytes) : (writeString s).length = stringSize s := by
  rw [writeString, List.length_append, Bytes.length_bigEndian, stringSize]

theorem length_writeList (l : List Bytes) : (writeList l).length = listSize l := by
  rw [writeList, List.length_append, Bytes.length_bigEndian, listSize,
    length_flatMap_of_size length_writeString]

theorem length_writeEntry (e : Bytes × List Bytes) : (writeEntry e).length = entrySize e := by
  rw [writeEntry, List.length_append, length_writeString, length_writeList, entrySize]

theorem length_writeValue (v : Value) : (writeValue v).length = valueSize v := by
  cases v with
  | bool b => rfl
  | int n => exact Bytes.length_bigEndian 8 _
  | bytes s => exact length_writeString s
  | list l => exact length_writeList l
  | map m =>
    rw [writeValue, List.length_append, Bytes.length_bigEndian, valueSize,
      length_flatMap_of_size length_writeEntry]

theorem length_writeField (f : Bytes × Value) : (writeField f).length = fieldSize f := by
  rw [writeField, List.length_append, List.length_append, List.length_cons,
    Bytes.length_bigEndian, length_writeValue, fieldSize]
  omega

theorem length_write (m : Message) : (write m).length = size m := by
  rw [write, List.length_append, Bytes.length_bigEndian, size,
    length_flatMap_of_size length_writeField]

/-! ## Messages one after the other -/

/-- Messages written one after the other are read back in their order, and what follows them is
left unread. Each reports as many bytes as it has written. -/
theorem readEach_flatMap_write (l : List Message) (hl : ∀ m ∈ l, Fits m) (rest : Bytes) :
    readEach l.length (some (l.flatMap write ++ rest)) = (l.map .ok, some rest) ∧
      ∀ m ∈ l, size m = (write m).length := by
  refine ⟨?_, fun m _ => (length_write m).symm⟩
  induction l with
  | nil => rfl
  | cons m l ih =>
    have hhead := readNext_write (hl m List.mem_cons_self) (l.flatMap write ++ rest)
    have htail := ih fun n hn => hl n (List.mem_cons_of_mem _ hn)
    rw [List.length_cons, List.flatMap_cons, List.append_assoc, readEach, hhead]
    simp only [htail, List.map_cons]

/-- An empty message and one with a field of every kind, an empty key among them. -/
def messagesOfEveryKind : List Message :=
  [.empty, .ofList [("", .bytes []), ("gzip", .bool true), ("loc", .int (-1)),
    ("data", .bytes [0, 255]), ("return", .list ["one", ""]),
    ("nodes", .map (.ofList [("prod", []), ("base", ["web"])]))]]

theorem readEach_messagesOfEveryKind :
    (∀ m ∈ messagesOfEveryKind, Fits m) ∧
      readEach messagesOfEveryKind.length (some (messagesOfEveryKind.flatMap write ++ [7])) =
        (messagesOfEveryKind.map .ok, some [7]) ∧
      ∀ m ∈ messagesOfEveryKind, size m = (write m).length :=
  ⟨by decide, readEach_flatMap_write messagesOfEveryKind (by decide) [7]⟩

end FileCourier.Wire
