import FileCourier.Bytes

/-!
Finite maps from byte strings, kept as a list sorted by key. The order of the keys is part of what
the program shows (wire form, listings of a map), so it is part of the type. Main statements: a key
read back after `insert` or `erase`.
-/

namespace FileCourier

/-- A finite map whose entries stand in strictly increasing order of their keys. -/
structure ByteMap (α : Type) where
  toList : List (Bytes × α)
  sorted : toList.Pairwise (fun a b => a.1 < b.1) := by simp
  deriving DecidableEq

namespace ByteMap

variable {α β : Type}

def empty : ByteMap α := ⟨[], .nil⟩

instance : Inhabited (ByteMap α) := ⟨empty⟩

/-- Puts an entry into a sorted list, in place of an entry with the same key. -/
def insertEntry (key : Bytes) (value : α) : List (Bytes × α) → List (Bytes × α)
  | [] => [(key, value)]
  | (k, v) :: r =>
    if key < k then (key, value) :: (k, v) :: r
    else if k < key then (k, v) :: insertEntry key value r
    else (key, value) :: r

theorem key_eq_of_not_lt {a b : Bytes} (h₁ : ¬a < b) (h₂ : ¬b < a) : a = b :=
  List.le_antisymm (List.not_lt.1 h₂) (List.not_lt.1 h₁)

theorem mem_insertEntry {key : Bytes} {value : α} {l : List (Bytes × α)} {e : Bytes × α}
    (h : e ∈ insertEntry key value l) : e = (key, value) ∨ e ∈ l := by
  induction l with
  | nil => simpa [insertEntry] using h
  | cons x r ih =>
    obtain ⟨k, v⟩ := x
    simp only [insertEntry] at h
    split at h
    · simpa using h
    · split at h
      · rcases List.mem_cons.1 h with h | h
        · simp [h]
        · rcases ih h with h | h <;> simp [h]
      · rcases List.mem_cons.1 h with h | h <;> simp [h]

theorem sorted_insertEntry {key : Bytes} {value : α} {l : List (Bytes × α)}
    (h : l.Pairwise fun a b => a.1 < b.1) :
    (insertEntry key value l).Pairwise fun a b => a.1 < b.1 := by
  induction l with
  | nil => simp [insertEntry]
  | cons x r ih =>
    obtain ⟨k, v⟩ := x
    rw [List.pairwise_cons] at h
    simp only [insertEntry]
    split
    · rename_i hlt
      refine List.pairwise_cons.2 ⟨fun e he => ?_, List.pairwise_cons.2 h⟩
      rcases List.mem_cons.1 he with rfl | he
      · exact hlt
      · exact List.lt_trans hlt (h.1 e he)
    · rename_i hge
      split
      · rename_i hlt
        refine List.pairwise_cons.2 ⟨fun e he => ?_, ih h.2⟩
        rcases mem_insertEntry he with rfl | he
        · exact hlt
        · exact h.1 e he
      · rename_i hle
        obtain rfl := key_eq_of_not_lt hge hle
        exact List.pairwise_cons.2 ⟨h.1, h.2⟩

/-- The map with `value` at `key`, whatever was there. -/
def insert (m : ByteMap α) (key : Bytes) (value : α) : ByteMap α :=
  ⟨insertEntry key value m.toList, sorted_insertEntry m.sorted⟩

def erase (m : ByteMap α) (key : Bytes) : ByteMap α :=
  ⟨m.toList.filter fun e => e.1 != key, m.sorted.filter _⟩

def get? (m : ByteMap α) (key : Bytes) : Option α := (m.toList.find? fun e => e.1 == key).map (·.2)

def contains (m : ByteMap α) (key : Bytes) : Bool := m.toList.any fun e => e.1 == key

def size (m : ByteMap α) : Nat := m.toList.length

def isEmpty (m : ByteMap α) : Bool := m.toList.isEmpty

def keys (m : ByteMap α) : List Bytes := m.toList.map (·.1)

/-- The map of the pairs, where a later pair replaces an earlier one with the same key. -/
def ofList (l : List (Bytes × α)) : ByteMap α := l.foldl (fun m e => m.insert e.1 e.2) empty

theorem find?_insertEntry_self (key : Bytes) (value : α) (l : List (Bytes × α)) :
    (insertEntry key value l).find? (fun e => e.1 == key) = some (key, value) := by
  induction l with
  | nil => simp [insertEntry]
  | cons x r ih =>
    obtain ⟨k, v⟩ := x
    simp only [insertEntry]
    split
    · simp
    · split
      · rename_i hlt
        have : (k == key) = false := by
          simpa using fun e : k = key => List.lt_irrefl key (e ▸ hlt)
        simp [this, ih]
      · simp

@[simp] theorem get?_insert_self (m : ByteMap α) (key : Bytes) (value : α) :
    (m.insert key value).get? key = some value := by
  simp [get?, insert, find?_insertEntry_self]

theorem find?_insertEntry_of_ne {key other : Bytes} (h : other ≠ key) (value : α)
    (l : List (Bytes × α)) :
    (insertEntry key value l).find? (fun e => e.1 == other) = l.find? (fun e => e.1 == other) := by
  have hne : (key == other) = false := by simpa using fun e : key = other => h e.symm
  induction l with
  | nil => simp [insertEntry, hne]
  | cons x r ih =>
    obtain ⟨k, v⟩ := x
    simp only [insertEntry]
    split
    · rw [List.find?_cons, hne]
    · split
      · simp [List.find?_cons, ih]
      · rename_i h₁ h₂
        obtain rfl := key_eq_of_not_lt h₁ h₂
        simp [hne]

theorem get?_insert_of_ne (m : ByteMap α) {key other : Bytes} (h : other ≠ key) (value : α) :
    (m.insert key value).get? other = m.get? other := by
  simp [get?, insert, find?_insertEntry_of_ne h]

@[simp] theorem get?_erase_self (m : ByteMap α) (key : Bytes) : (m.erase key).get? key = none := by
  simp [get?, erase]

theorem insertEntry_of_forall_lt {key : Bytes} {l : List (Bytes × α)} (value : α)
    (h : ∀ e ∈ l, e.1 < key) : insertEntry key value l = l ++ [(key, value)] := by
  induction l with
  | nil => rfl
  | cons x r ih =>
    have hlt : x.1 < key := h x List.mem_cons_self
    have hge : ¬key < x.1 := fun hgt => List.lt_irrefl _ (List.lt_trans hlt hgt)
    rw [insertEntry, if_neg hge, if_pos hlt, ih fun e he => h e (List.mem_cons_of_mem _ he),
      List.cons_append]

theorem toList_foldl_insert (l : List (Bytes × α)) (m : ByteMap α)
    (h : (m.toList ++ l).Pairwise fun a b => a.1 < b.1) :
    (l.foldl (fun m e => m.insert e.1 e.2) m).toList = m.toList ++ l := by
  induction l generalizing m with
  | nil => simp
  | cons e r ih =>
    have hlt : ∀ x ∈ m.toList, x.1 < e.1 := fun x hx =>
      (List.pairwise_append.1 h).2.2 x hx e List.mem_cons_self
    have hinsert : (m.insert e.1 e.2).toList = m.toList ++ [e] :=
      insertEntry_of_forall_lt e.2 hlt
    rw [List.foldl_cons, ih, hinsert, List.append_assoc, List.singleton_append]
    rwa [hinsert, List.append_assoc, List.singleton_append]

theorem eq_of_toList_eq {m n : ByteMap α} (h : m.toList = n.toList) : m = n := by
  cases m
  cases n
  cases h
  rfl

/-- A map is the map of its own entries. -/
@[simp] theorem ofList_toList (m : ByteMap α) : ofList m.toList = m :=
  eq_of_toList_eq (toList_foldl_insert m.toList empty m.sorted)

theorem toList_ofList {l : List (Bytes × α)} (h : l.Pairwise fun a b => a.1 < b.1) :
    (ofList l).toList = l :=
  toList_foldl_insert l empty h

theorem mem_foldl_insert {l : List (Bytes × α)} {m : ByteMap α} {e : Bytes × α}
    (h : e ∈ (l.foldl (fun m e => m.insert e.1 e.2) m).toList) : e ∈ m.toList ∨ e ∈ l := by
  induction l generalizing m with
  | nil => exact .inl h
  | cons x r ih =>
    rcases ih h with h | h
    · rcases mem_insertEntry h with rfl | h
      · exact .inr List.mem_cons_self
      · exact .inl h
    · exact .inr (List.mem_cons_of_mem _ h)

/-- The map of some pairs has no other entries. -/
theorem mem_of_mem_ofList {l : List (Bytes × α)} {e : Bytes × α} (h : e ∈ (ofList l).toList) :
    e ∈ l :=
  (mem_foldl_insert h).resolve_left List.not_mem_nil

theorem mem_of_get? {m : ByteMap α} {key : Bytes} {value : α} (h : m.get? key = some value) :
    (key, value) ∈ m.toList := by
  obtain ⟨e, he, rfl⟩ := Option.map_eq_some_iff.1 h
  have hkey : e.1 = key := by simpa using List.find?_some he
  rw [← hkey]
  exact List.mem_of_find?_eq_some he

theorem get?_foldl_insert_of_not_mem {l : List (Bytes × α)} {key : Bytes}
    (h : key ∉ l.map Prod.fst) (m : ByteMap α) :
    (l.foldl (fun m e => m.insert e.1 e.2) m).get? key = m.get? key := by
  induction l generalizing m with
  | nil => rfl
  | cons e r ih =>
    rw [List.map_cons, List.mem_cons, not_or] at h
    rw [List.foldl_cons, ih h.2, get?_insert_of_ne m h.1]

theorem get?_foldl_insert_of_mem {l : List (Bytes × α)} {key : Bytes} {value : α}
    (h : (l.map Prod.fst).Nodup) (hmem : (key, value) ∈ l) (m : ByteMap α) :
    (l.foldl (fun m e => m.insert e.1 e.2) m).get? key = some value := by
  induction l generalizing m with
  | nil => exact absurd hmem List.not_mem_nil
  | cons e r ih =>
    rw [List.map_cons, List.nodup_cons] at h
    rcases List.mem_cons.1 hmem with rfl | hmem
    · rw [List.foldl_cons, get?_foldl_insert_of_not_mem h.1, get?_insert_self]
    · exact ih h.2 hmem _

/-- Where no key stands twice, nothing is replaced. -/
theorem get?_ofList_eq_some_iff {l : List (Bytes × α)} (h : (l.map Prod.fst).Nodup) {key : Bytes}
    {value : α} : (ofList l).get? key = some value ↔ (key, value) ∈ l :=
  ⟨fun hget => mem_of_mem_ofList (mem_of_get? hget), fun hmem => get?_foldl_insert_of_mem h hmem empty⟩

theorem total_insertEntry_le (weight : Bytes × α → Nat) (key : Bytes) (value : α)
    (l : List (Bytes × α)) :
    total weight (insertEntry key value l) ≤ weight (key, value) + total weight l := by
  induction l with
  | nil => exact Nat.le_refl _
  | cons x r ih =>
    obtain ⟨k, v⟩ := x
    simp only [insertEntry]
    split
    · exact Nat.le_refl _
    · split <;> simp only [total] <;> omega

theorem total_foldl_insert_le (weight : Bytes × α → Nat) (l : List (Bytes × α)) (m : ByteMap α) :
    total weight (l.foldl (fun m e => m.insert e.1 e.2) m).toList ≤
      total weight m.toList + total weight l := by
  induction l generalizing m with
  | nil => exact Nat.le_refl _
  | cons e r ih =>
    have hinsert : total weight (m.insert e.1 e.2).toList ≤ weight e + total weight m.toList :=
      total_insertEntry_le weight e.1 e.2 m.toList
    have hrest := ih (m.insert e.1 e.2)
    rw [List.foldl_cons, total]
    omega

/-- Entries that are replaced take their weight with them. -/
theorem total_ofList_le (weight : Bytes × α → Nat) (l : List (Bytes × α)) :
    total weight (ofList l).toList ≤ total weight l := by
  have h := total_foldl_insert_le weight l empty
  rwa [empty, total, Nat.zero_add] at h

theorem size_ofList_le (l : List (Bytes × α)) : (ofList l).size ≤ l.length := by
  have h := total_ofList_le (fun _ => 1) l
  rwa [total_one, total_one] at h

end ByteMap

end FileCourier
