import FileCourier.Yaml
import Mathlib.Data.List.Forall2
import Mathlib.Data.List.Nodup
import Mathlib.Data.List.TakeWhile

/-!
# Reading values out of documents

What a library reads as a text (`Library.IsText`) or as a number (`Library.IsInt`), and lists of texts item
by item (`mapM_asText_eq_ok_iff`). Of numbers it is asked that those of 32 bits are read when they are
spelled in plain decimal digits (`Library.ReadsDecimals`); the library of documents in flow style does
(`flow_readsDecimals`). In a mapping with distinct keys the value at a key is the one that stands there
(`get?_eq_some_iff`), in whatever order its entries stand (`get?_of_perm`).
-/

namespace FileCourier

section Except

variable {ε α β : Type} {x : Except ε α} {f : α → Except ε β} {e : ε} {b : β}

theorem Except.bind_eq_ok_iff : (x >>= f) = .ok b ↔ ∃ a, x = .ok a ∧ f a = .ok b := by
  cases x with
  | error e => exact ⟨nofun, fun ⟨_, h, _⟩ => nomatch h⟩
  | ok a => exact ⟨fun h => ⟨a, rfl, h⟩, fun ⟨_, h, hf⟩ => by cases h; exact hf⟩

theorem Except.bind_eq_error_iff :
    (x >>= f) = .error e ↔ x = .error e ∨ ∃ a, x = .ok a ∧ f a = .error e := by
  cases x with
  | error e' =>
    refine ⟨fun h => .inl (by cases h; rfl), ?_⟩
    rintro (h | ⟨_, h, _⟩)
    · cases h
      rfl
    · cases h
  | ok a =>
    refine ⟨fun h => .inr ⟨a, rfl, h⟩, ?_⟩
    rintro (h | ⟨_, h, hf⟩)
    · cases h
    · cases h
      exact hf

theorem Except.map_eq_ok_iff {g : α → β} : x.map g = .ok b ↔ ∃ a, x = .ok a ∧ b = g a := by
  cases x with
  | error e => exact ⟨nofun, fun ⟨_, h, _⟩ => nomatch h⟩
  | ok a => exact ⟨fun h => ⟨a, rfl, by cases h; rfl⟩, fun ⟨_, h, hb⟩ => by cases h; rw [hb]; rfl⟩

theorem Except.mapError_eq_ok_iff {ε' : Type} {g : ε → ε'} {a : α} :
    x.mapError g = .ok a ↔ x = .ok a := by
  cases x with
  | error e => exact ⟨nofun, nofun⟩
  | ok b => exact ⟨fun h => by cases h; rfl, fun h => by cases h; rfl⟩

/-- The results of a list, if none of its members fails. -/
theorem Except.mapM_eq_ok_iff {l : List α} {r : List β} :
    l.mapM f = .ok r ↔ List.Forall₂ (fun a b => f a = .ok b) l r := by
  induction l generalizing r with
  | nil =>
    rw [List.forall₂_nil_left_iff, List.mapM_nil]
    exact ⟨fun h => by cases h; rfl, fun h => by rw [h]; rfl⟩
  | cons a l ih =>
    rw [List.forall₂_cons_left_iff, List.mapM_cons, bind_eq_ok_iff]
    constructor
    · rintro ⟨b, hb, h⟩
      obtain ⟨r, hr, h⟩ := bind_eq_ok_iff.1 h
      cases h
      exact ⟨b, r, hb, ih.1 hr, rfl⟩
    · rintro ⟨b, r, hb, hr, rfl⟩
      exact ⟨b, hb, bind_eq_ok_iff.2 ⟨r, ih.2 hr, rfl⟩⟩

end Except

namespace Yaml

variable {l : Library} {node : Yaml} {nodes : List Yaml} {text : Bytes} {names : List Bytes}
  {e : YamlError}

namespace Library

/-! ## Texts -/

/-- What a value is read as where a text is wanted. -/
inductive IsText (l : Library) : Yaml → Bytes → Prop
  | scalar (text : Bytes) : IsText l (.scalar text) text
  | null {text : Bytes} : l.nullText? = some text → IsText l .null text

theorem asText_eq_ok_iff : l.asText node = .ok text ↔ l.IsText node text := by
  cases node with
  | scalar t => exact ⟨fun h => by cases h; exact .scalar _, fun h => by cases h; rfl⟩
  | list items | map entries => exact ⟨nofun, nofun⟩
  | null =>
    cases hnull : l.nullText? with
    | none =>
      refine ⟨fun h => ?_, fun h => ?_⟩
      · rw [asText, hnull] at h
        cases h
      · cases h with
        | null htext => cases hnull.symm.trans htext
    | some t =>
      rw [asText, hnull]
      refine ⟨fun h => ?_, fun h => ?_⟩
      · cases h
        exact .null hnull
      · cases h with
        | null htext => rw [← Option.some.inj (hnull.symm.trans htext)]

theorem asText_eq_error_iff :
    l.asText node = .error e ↔ e = .badConversion ∧ ∀ text, ¬l.IsText node text := by
  constructor
  · intro h
    have hnone (text : Bytes) : ¬l.IsText node text := fun htext => by
      cases h.symm.trans (asText_eq_ok_iff.2 htext)
    refine ⟨?_, hnone⟩
    cases node with
    | scalar text => exact absurd (.scalar text) (hnone text)
    | list items | map entries => cases h; rfl
    | null =>
      rw [asText] at h
      split at h
      · cases h
      · cases h
        rfl
  · rintro ⟨rfl, hnone⟩
    cases node with
    | scalar text => exact absurd (.scalar text) (hnone text)
    | list items | map entries => rfl
    | null =>
      cases hnull : l.nullText? with
      | some text => exact absurd (.null hnull) (hnone text)
      | none => rw [asText, hnull]

theorem IsText.unique {other : Bytes} (h : l.IsText node text) (hother : l.IsText node other) :
    other = text := by
  cases (asText_eq_ok_iff.2 hother).symm.trans (asText_eq_ok_iff.2 h)
  rfl

theorem mapM_asText_eq_ok_iff :
    nodes.mapM l.asText = .ok names ↔ List.Forall₂ l.IsText nodes names := by
  simp only [Except.mapM_eq_ok_iff, asText_eq_ok_iff]

theorem forall₂_isText_scalar (names : List Bytes) :
    List.Forall₂ l.IsText (names.map .scalar) names := by
  rw [List.forall₂_map_left_iff]
  exact List.forall₂_same.2 fun name _ => .scalar name

theorem mapM_asText_eq_error_iff : nodes.mapM l.asText = .error e ↔
    e = .badConversion ∧ ∃ node ∈ nodes, ∀ text, ¬l.IsText node text := by
  induction nodes with
  | nil => exact ⟨nofun, fun ⟨_, _, h, _⟩ => absurd h List.not_mem_nil⟩
  | cons node nodes ih =>
    rw [List.mapM_cons, Except.bind_eq_error_iff, asText_eq_error_iff]
    constructor
    · rintro (⟨he, hnode⟩ | ⟨text, -, h⟩)
      · exact ⟨he, node, List.mem_cons_self, hnode⟩
      · obtain h | ⟨_, -, h⟩ := Except.bind_eq_error_iff.1 h
        · obtain ⟨he, other, hother, hnone⟩ := ih.1 h
          exact ⟨he, other, List.mem_cons_of_mem node hother, hnone⟩
        · cases h
    · rintro ⟨he, other, hother, hnone⟩
      cases hfirst : l.asText node with
      | error e' => exact .inl ⟨he, (asText_eq_error_iff.1 hfirst).2⟩
      | ok text =>
        rcases List.mem_cons.1 hother with rfl | hother
        · exact absurd (asText_eq_ok_iff.1 hfirst) (hnone text)
        · exact .inr ⟨text, rfl, Except.bind_eq_error_iff.2 (.inl (ih.2 ⟨he, other, hother, hnone⟩))⟩

/-! ## Numbers -/

/-- What a value is read as where a number is wanted. -/
def IsInt (l : Library) (node : Yaml) (n : Int) : Prop :=
  ∃ text k, node = .scalar text ∧ l.number? text = some k ∧ k.toInt = n

/-- Numbers of 32 bits are read in plain decimal digits, and those that have more bits are not. -/
structure ReadsDecimals (l : Library) : Prop where
  fits : ∀ k : Int32, l.number? (Bytes.ofInt k.toInt) = some k
  exceeds : ∀ n : Int, n < -2147483648 ∨ 2147483647 < n → l.number? (Bytes.ofInt n) = none

variable {n m : Int}

theorem asInt_eq_ok_iff : l.asInt node = .ok n ↔ l.IsInt node n := by
  cases node with
  | null | list items | map entries => exact ⟨nofun, fun ⟨_, _, h, _⟩ => nomatch h⟩
  | scalar text =>
    constructor
    · intro h
      rw [asInt] at h
      split at h
      · rename_i k hk
        cases h
        exact ⟨text, k, rfl, hk, rfl⟩
      · cases h
    · rintro ⟨_, k, h, hk, rfl⟩
      cases h
      rw [asInt, hk]

/-- What is read from the plain decimal digits of a number is that number. -/
theorem ReadsDecimals.eq_of_isInt (h : l.ReadsDecimals) (hread : l.IsInt (.scalar (Bytes.ofInt n)) m) :
    m = n := by
  obtain ⟨_, k, htext, hk, rfl⟩ := hread
  cases htext
  have hrange : -2147483648 ≤ n ∧ n ≤ 2147483647 := by
    by_contra hrange
    cases hk.symm.trans (h.exceeds n (by omega))
  have hn : (Int32.ofInt n).toInt = n := by
    have hsize : (Int32.size : Int) = 4294967296 := rfl
    rw [Int32.toInt_ofInt, Int.bmod_eq_of_le] <;> omega
  rw [← hn, h.fits] at hk
  rw [← Option.some.inj hk, hn]

end Library

/-! ## Decimal digits -/

theorem toNat_ascii_of_isDigit {c : Char} (h : c.isDigit = true) :
    (Bytes.ascii c).toNat = c.toNat := by
  simp only [Char.isDigit, Bool.and_eq_true, decide_eq_true_eq, ge_iff_le, UInt32.le_iff_toNat_le] at h
  have hhigh : c.toNat ≤ 57 := h.2
  rw [Bytes.ascii, UInt8.toNat_ofNat']
  omega

theorem isDigit_of_mem_ofNat {n : Nat} {c : UInt8} (h : c ∈ Bytes.ofNat n) :
    Bytes.isDigit c = true := by
  obtain ⟨d, hd, rfl⟩ := List.mem_map.1 h
  have hdigit := Nat.isDigit_of_mem_toDigits (by decide) (by decide) hd
  have hvalue := toNat_ascii_of_isDigit hdigit
  simp only [Char.isDigit, Bool.and_eq_true, decide_eq_true_eq, ge_iff_le, UInt32.le_iff_toNat_le]
    at hdigit
  have hlow : 48 ≤ d.toNat := hdigit.1
  have hhigh : d.toNat ≤ 57 := hdigit.2
  simp only [Bytes.isDigit, Bool.and_eq_true, decide_eq_true_eq, UInt8.le_iff_toNat_le, hvalue]
  exact ⟨hlow, hhigh⟩

theorem ofNat_ne_nil (n : Nat) : Bytes.ofNat n ≠ [] := by
  intro h
  have hdigits : Nat.toDigits 10 n = [] := List.map_eq_nil_iff.1 h
  have hlength := Nat.length_toDigits_pos (b := 10) (n := n)
  rw [hdigits] at hlength
  exact absurd hlength (by decide)

/-- Digits of characters have the value of the characters. -/
theorem foldl_ascii {digits : List Char} (h : ∀ c ∈ digits, c.isDigit = true) (start : Nat) :
    (digits.map Bytes.ascii).foldl (fun n d => 10 * n + (d.toNat - 48)) start =
      Nat.ofDigitChars 10 digits start := by
  induction digits generalizing start with
  | nil => rfl
  | cons c digits ih =>
    rw [List.map_cons, List.foldl_cons, toNat_ascii_of_isDigit (h c List.mem_cons_self),
      ih fun d hd => h d (List.mem_cons_of_mem c hd)]
    rfl

theorem ofDigits_ofNat (n : Nat) : ofDigits (Bytes.ofNat n) = n := by
  rw [ofDigits, Bytes.ofNat,
    foldl_ascii fun c => Nat.isDigit_of_mem_toDigits (by decide) (by decide),
    Nat.ofDigitChars_toDigits (by decide) (by decide)]

theorem numeral?_ofNat (n : Nat) : numeral? (Bytes.ofNat n) = some n := by
  have htake : (Bytes.ofNat n).takeWhile Bytes.isDigit = Bytes.ofNat n :=
    List.takeWhile_eq_self_iff.2 fun c => isDigit_of_mem_ofNat
  have hdrop : (Bytes.ofNat n).dropWhile Bytes.isDigit = [] :=
    List.dropWhile_eq_nil_iff.2 fun c => isDigit_of_mem_ofNat
  have hempty : (Bytes.ofNat n).isEmpty = false := List.isEmpty_eq_false_iff.2 (ofNat_ne_nil n)
  simp [numeral?, htake, hdrop, hempty, ofDigits_ofNat]

/-- Digits are read as they are, without a sign. -/
theorem signed?_ofNat (n : Nat) : signed? (Bytes.ofNat n) = some n := by
  have hread := numeral?_ofNat n
  have hdigits := @isDigit_of_mem_ofNat n
  cases hn : Bytes.ofNat n with
  | nil => exact absurd hn (ofNat_ne_nil n)
  | cons c r =>
    rw [hn] at hread hdigits
    have hc := hdigits List.mem_cons_self
    have hminus : c ≠ Bytes.ascii '-' := fun heq => absurd (heq ▸ hc) (by decide)
    have hplus : c ≠ Bytes.ascii '+' := fun heq => absurd (heq ▸ hc) (by decide)
    rw [signed?, if_neg hminus, if_neg hplus, hread]
    rfl

theorem signed?_ofInt (n : Int) : signed? (Bytes.ofInt n) = some n := by
  cases n with
  | ofNat n => exact signed?_ofNat n
  | negSucc n =>
    rw [Bytes.ofInt, signed?, if_pos rfl, numeral?_ofNat]
    rfl

theorem isDigit_of_isSpace : ∀ c : UInt8, Bytes.isSpace c = true → Bytes.isDigit c = false := by
  intro c h
  simp only [Bytes.isSpace, Bytes.isDigit, Bool.or_eq_true, Bool.and_eq_true, beq_iff_eq,
    decide_eq_true_eq, Bool.and_eq_false_iff, decide_eq_false_iff_not, UInt8.le_iff_toNat_le] at h ⊢
  rcases h with rfl | h
  · exact .inl (by decide)
  · have hlow : (13 : UInt8).toNat = 13 := rfl
    have hhigh : (48 : UInt8).toNat = 48 := rfl
    exact .inl (by omega)

/-- No decimal spelling starts with white space. -/
theorem dropWhile_ofInt (n : Int) : (Bytes.ofInt n).dropWhile Bytes.isSpace = Bytes.ofInt n := by
  cases n with
  | negSucc n => exact List.dropWhile_cons_of_neg (by decide)
  | ofNat n =>
    have hdigits := @isDigit_of_mem_ofNat n
    rw [Bytes.ofInt]
    cases hn : Bytes.ofNat n with
    | nil => rfl
    | cons c r =>
      have hc := hdigits (hn ▸ List.mem_cons_self)
      refine List.dropWhile_cons_of_neg fun hspace => ?_
      rw [isDigit_of_isSpace c hspace] at hc
      cases hc

theorem flow_readsDecimals : flow.ReadsDecimals where
  fits k := by
    have hlow := Int32.le_toInt k
    have hhigh := Int32.toInt_lt k
    have hread : number? (Bytes.ofInt k.toInt) = some (.ofInt k.toInt) := by
      rw [number?, dropWhile_ofInt, signed?_ofInt]
      exact if_neg (by omega)
    exact hread.trans (congrArg some (Int32.ofInt_toInt k))
  exceeds n hn := by
    have hread : number? (Bytes.ofInt n) = none := by
      rw [number?, dropWhile_ofInt, signed?_ofInt]
      exact if_pos hn
    exact hread

/-! ## Mappings -/

/-- What stands somewhere in a document. -/
inductive Part (part : Yaml) : Yaml → Prop
  | whole : Part part part
  | item {items : List Yaml} {item : Yaml} : item ∈ items → Part part item → Part part (list items)
  | key {entries : List (Yaml × Yaml)} {e : Yaml × Yaml} : e ∈ entries → Part part e.1 →
      Part part (map entries)
  | value {entries : List (Yaml × Yaml)} {e : Yaml × Yaml} : e ∈ entries → Part part e.2 →
      Part part (map entries)

/-- A key as it is read where a text is wanted: a null that has a text is no other key than this text. -/
def Library.asKey (l : Library) : Yaml → Yaml
  | .null => (l.nullText?.map Yaml.scalar).getD .null
  | key => key

/-- No mapping in the document has a key twice. -/
def DistinctKeys (l : Library) (doc : Yaml) : Prop :=
  ∀ entries, Part (map entries) doc → (entries.map fun e => l.asKey e.1).Nodup

variable {entries entries' : List (Yaml × Yaml)} {key : Bytes}

theorem distinctKeys_null : null.DistinctKeys l := by
  intro entries h
  cases h

theorem distinctKeys_scalar (text : Bytes) : (scalar text).DistinctKeys l := by
  intro entries h
  cases h

theorem distinctKeys_list {items : List Yaml} (h : ∀ item ∈ items, item.DistinctKeys l) :
    (list items).DistinctKeys l := by
  intro entries hpart
  cases hpart with
  | item hitem hpart => exact h _ hitem entries hpart

theorem distinctKeys_map (hkeys : (entries.map fun e => l.asKey e.1).Nodup)
    (h : ∀ e ∈ entries, e.1.DistinctKeys l ∧ e.2.DistinctKeys l) : (map entries).DistinctKeys l := by
  intro inner hpart
  cases hpart with
  | whole => exact hkeys
  | key he hpart => exact (h _ he).1 inner hpart
  | value he hpart => exact (h _ he).2 inner hpart

theorem DistinctKeys.nodup (h : (map entries).DistinctKeys l) :
    (entries.map fun e => l.asKey e.1).Nodup :=
  h entries .whole

theorem DistinctKeys.value (h : (map entries).DistinctKeys l) {e : Yaml × Yaml} (he : e ∈ entries) :
    e.2.DistinctKeys l :=
  fun inner hinner => h inner (.value he hinner)

/-- The value at a key is one that stands there. -/
theorem mem_of_get? (h : (map entries).get? key = some node) : (scalar key, node) ∈ entries := by
  obtain ⟨e, he, rfl⟩ := Option.map_eq_some_iff.1 h
  have hmem := List.mem_of_find?_eq_some he
  have hkey := List.find?_some he
  obtain ⟨k, v⟩ := e
  cases k with
  | scalar t => rwa [← beq_iff_eq.1 hkey]
  | null | list _ | map _ => cases hkey

theorem DistinctKeys.get? {doc : Yaml} (h : doc.DistinctKeys l) (hget : doc.get? key = some node) :
    node.DistinctKeys l := by
  cases doc with
  | map entries => exact h.value (mem_of_get? hget)
  | null | scalar _ | list _ => cases hget

theorem get?_eq_some_iff (h : (entries.map fun e => l.asKey e.1).Nodup) :
    (map entries).get? key = some node ↔ (scalar key, node) ∈ entries := by
  refine ⟨mem_of_get?, fun hmem => ?_⟩
  cases hget : (map entries).get? key with
  | some other =>
    -- Both stand at the one entry with this key.
    have hsame := List.inj_on_of_nodup_map h hmem (mem_of_get? hget) rfl
    rw [(Prod.mk.inj hsame).2]
  | none =>
    have hnone := List.find?_eq_none.1 (Option.map_eq_none_iff.1 hget) _ hmem
    exact absurd (beq_self_eq_true key) hnone

/-- The order of the entries does not matter. -/
theorem get?_of_perm (h : (entries.map fun e => l.asKey e.1).Nodup) (hperm : entries.Perm entries')
    (key : Bytes) : (map entries').get? key = (map entries).get? key := by
  have h' : (entries'.map fun e => l.asKey e.1).Nodup := (hperm.map _).nodup_iff.1 h
  refine Option.ext fun node => ?_
  rw [get?_eq_some_iff h, get?_eq_some_iff h', hperm.mem_iff]

end Yaml

end FileCourier
