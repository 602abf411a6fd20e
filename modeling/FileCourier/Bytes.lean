

/-!
Byte strings. Names, paths, contents and messages are byte strings; none of them is assumed to be
text. Held here: reading a string literal as bytes, the few searches that paths and addresses need,
big-endian numbers, and the decimal and hexadecimal spellings that occur in answers.
-/

namespace FileCourier

/-- A byte string, ordered lexicographically by unsigned bytes. -/
abbrev Bytes := List UInt8

namespace Bytes

def ofString (s : String) : Bytes := s.toUTF8.data.toList

instance : Coe String Bytes := ⟨ofString⟩

def ascii (c : Char) : UInt8 := UInt8.ofNat c.toNat

/-- The text before and after the first occurrence of `pat`. -/
def breakAt? (pat : Bytes) : Bytes → Option (Bytes × Bytes)
  | [] => if pat.isEmpty then some ([], []) else none
  | c :: r =>
    if pat.isPrefixOf (c :: r) then some ([], (c :: r).drop pat.length)
    else (breakAt? pat r).map fun (before, after) => (c :: before, after)

/-- The text before and after the last occurrence of the byte `sep`. -/
def breakAtLast? (sep : UInt8) : Bytes → Option (Bytes × Bytes)
  | [] => none
  | c :: r =>
    match breakAtLast? sep r with
    | some (before, after) => some (c :: before, after)
    | none => if c = sep then some ([], r) else none

def endsWith (s tail : Bytes) : Bool := tail.isSuffixOf s

/-- A byte string up to its first NUL, which is how the system reads a name. -/
def untilNul (s : Bytes) : Bytes := s.takeWhile (· != 0)

def replace (s : Bytes) (old new : UInt8) : Bytes := s.map fun c => if c = old then new else c

/-- The byte strings in lexicographic order, repetitions kept. -/
def sort (l : List Bytes) : List Bytes := l.mergeSort fun a b => decide (a ≤ b)

/-- The `width` low bytes of `n`, most significant first. -/
def bigEndian : Nat → Nat → Bytes
  | 0, _ => []
  | width + 1, n => bigEndian width (n / 256) ++ [UInt8.ofNat n]

/-- How many numbers can be told apart in `width` bytes. -/
def capacity : Nat → Nat
  | 0 => 1
  | width + 1 => 256 * capacity width

/-- The number that the bytes spell, most significant first. -/
def ofBigEndian (s : Bytes) : Nat := s.foldl (fun n b => n * 256 + b.toNat) 0

/-- The `width` low bytes of `n`, least significant first. -/
def littleEndian : Nat → Nat → Bytes
  | 0, _ => []
  | width + 1, n => UInt8.ofNat n :: littleEndian width (n / 256)

/-- The number that the bytes spell, least significant first. -/
def ofLittleEndian : Bytes → Nat
  | [] => 0
  | b :: r => b.toNat + 256 * ofLittleEndian r

def ofNat (n : Nat) : Bytes := (Nat.toDigits 10 n).map ascii

/-- The decimal spelling of an integer, with a leading minus when it is negative. -/
def ofInt : Int → Bytes
  | .ofNat n => ofNat n
  | .negSucc n => ascii '-' :: ofNat (n + 1)

/-- The lower-case hexadecimal digit of a number below sixteen. -/
def hexDigit (n : Nat) : UInt8 := UInt8.ofNat (if n < 10 then 48 + n else 87 + n)

/-- Two lower-case hexadecimal digits for each byte. -/
def hex (s : Bytes) : Bytes := s.flatMap fun b => [hexDigit (b.toNat / 16), hexDigit (b.toNat % 16)]

/-- White space as the C locale has it: space, tab, line feed, vertical tab, form feed, return. -/
def isSpace (c : UInt8) : Bool := c == 32 || (9 ≤ c && c ≤ 13)

def isLetter (c : UInt8) : Bool := (65 ≤ c && c ≤ 90) || (97 ≤ c && c ≤ 122)

def isDigit (c : UInt8) : Bool := 48 ≤ c && c ≤ 57

/-- ASCII capitals made small, every other byte kept. -/
def lower (c : UInt8) : UInt8 := if 65 ≤ c && c ≤ 90 then c + 32 else c

/-- ASCII small letters made capital, every other byte kept. -/
def upper (c : UInt8) : UInt8 := if 97 ≤ c && c ≤ 122 then c - 32 else c

theorem breakAtLast?_eq_none {sep : UInt8} {s : Bytes} (h : breakAtLast? sep s = none) : sep ∉ s := by
  induction s with
  | nil => simp
  | cons c r ih =>
    simp only [breakAtLast?] at h
    split at h
    · simp at h
    · rename_i hr
      split at h
      · simp at h
      · rename_i hc
        exact fun hm => (List.mem_cons.1 hm).elim (fun e => hc e.symm) (ih hr)

theorem eq_append_of_breakAtLast? {sep : UInt8} {s before after : Bytes}
    (h : breakAtLast? sep s = some (before, after)) : s = before ++ sep :: after ∧ sep ∉ after := by
  induction s generalizing before with
  | nil => simp [breakAtLast?] at h
  | cons c r ih =>
    simp only [breakAtLast?] at h
    split at h
    · rename_i b a hr
      simp only [Option.some.injEq, Prod.mk.injEq] at h
      obtain ⟨rfl, rfl⟩ := h
      exact ⟨by rw [(ih hr).1]; rfl, (ih hr).2⟩
    · rename_i hr
      split at h
      · rename_i hc
        simp only [Option.some.injEq, Prod.mk.injEq] at h
        obtain ⟨rfl, rfl⟩ := h
        exact ⟨by rw [hc]; rfl, breakAtLast?_eq_none hr⟩
      · simp at h

theorem length_bigEndian (width n : Nat) : (bigEndian width n).length = width := by
  induction width generalizing n with
  | zero => rfl
  | succ w ih => simp [bigEndian, ih]

theorem ofBigEndian_append_singleton (s : Bytes) (b : UInt8) :
    ofBigEndian (s ++ [b]) = ofBigEndian s * 256 + b.toNat := by
  simp [ofBigEndian]

theorem ofBigEndian_bigEndian (width n : Nat) :
    ofBigEndian (bigEndian width n) = n % capacity width := by
  induction width generalizing n with
  | zero => simp [bigEndian, ofBigEndian, capacity, Nat.mod_one]
  | succ w ih =>
    rw [bigEndian, ofBigEndian_append_singleton, ih, capacity, Nat.mod_mul, UInt8.toNat_ofNat']
    omega

theorem length_littleEndian (width n : Nat) : (littleEndian width n).length = width := by
  induction width generalizing n with
  | zero => rfl
  | succ w ih => simp [littleEndian, ih]

theorem ofLittleEndian_littleEndian (width n : Nat) :
    ofLittleEndian (littleEndian width n) = n % capacity width := by
  induction width generalizing n with
  | zero => simp [littleEndian, ofLittleEndian, capacity, Nat.mod_one]
  | succ w ih => rw [littleEndian, ofLittleEndian, ih, capacity, Nat.mod_mul, UInt8.toNat_ofNat']

theorem ofBigEndian_lt (s : Bytes) : ofBigEndian s < capacity s.length := by
  generalize hwidth : s.length = width
  induction width generalizing s with
  | zero =>
    obtain rfl := List.length_eq_zero_iff.1 hwidth
    exact Nat.one_pos
  | succ w ih =>
    have hne : s ≠ [] := List.ne_nil_of_length_eq_add_one hwidth
    have hlt := ih s.dropLast (by rw [List.length_dropLast, hwidth, Nat.add_sub_cancel])
    have hlast := (s.getLast hne).toNat_lt
    rw [← List.dropLast_concat_getLast hne, ofBigEndian_append_singleton, capacity]
    omega

theorem bigEndian_ofBigEndian (s : Bytes) : bigEndian s.length (ofBigEndian s) = s := by
  generalize hwidth : s.length = width
  induction width generalizing s with
  | zero =>
    obtain rfl := List.length_eq_zero_iff.1 hwidth
    rfl
  | succ w ih =>
    have hne : s ≠ [] := List.ne_nil_of_length_eq_add_one hwidth
    have hinit := ih s.dropLast (by rw [List.length_dropLast, hwidth, Nat.add_sub_cancel])
    have hlast := (s.getLast hne).toNat_lt
    have hdiv : (ofBigEndian s.dropLast * 256 + (s.getLast hne).toNat) / 256 =
        ofBigEndian s.dropLast := by omega
    have hmod : UInt8.ofNat (ofBigEndian s.dropLast * 256 + (s.getLast hne).toNat) =
        s.getLast hne := by
      rw [← UInt8.toNat_inj, UInt8.toNat_ofNat']
      omega
    conv => lhs; rw [← List.dropLast_concat_getLast hne, ofBigEndian_append_singleton]
    rw [bigEndian, hdiv, hmod, hinit, List.dropLast_concat_getLast hne]

end Bytes

/-- The sum of a measure over a list. -/
def total {α : Type} (f : α → Nat) : List α → Nat
  | [] => 0
  | a :: l => f a + total f l

theorem total_one {α : Type} (l : List α) : total (fun _ => 1) l = l.length := by
  induction l with
  | nil => rfl
  | cons a l ih => rw [total, ih, List.length_cons, Nat.add_comm]

theorem total_map {α β : Type} (f : β → Nat) (g : α → β) (l : List α) :
    total f (l.map g) = total (fun a => f (g a)) l := by
  induction l with
  | nil => rfl
  | cons a l ih => rw [List.map_cons, total, total, ih]

theorem total_append {α : Type} (f : α → Nat) (l m : List α) :
    total f (l ++ m) = total f l + total f m := by
  induction l with
  | nil => exact (Nat.zero_add _).symm
  | cons a l ih => rw [List.cons_append, total, total, ih, Nat.add_assoc]

end FileCourier
