import FileCourier.Proofs.Cipher.Base64
import FileCourier.Surroundings
import Mathlib.Algebra.Group.Nat.Defs

/-!
# Keys read back from key files

A key file with the written form of a key, and white space anywhere in it, gives the key; any other file
gives an error or a key whose length follows from the digits and the fillers in the file
(`keys_read_back`). Both hold with any decoder that does what is expected of it at the digits of the
file; the library's own does so unless they end in a dash, and so it reads back every key that was
written (`loadKey_of_spaced`). There must be fewer than 2 ^ 31 digits, since sizes are passed on as signed
numbers: a longer key is written as nothing (`write_of_long`). A directory in the place of the file is
opened and then stops the reader with an error of the library underneath (`directory_unread`).
-/

namespace FileCourier.KeyFile

/-- A text, and the same text with white space put in anywhere. -/
inductive Spaced : Bytes → Bytes → Prop
  | nil : Spaced [] []
  | keep (c : UInt8) {s t : Bytes} : Spaced s t → Spaced (c :: s) (c :: t)
  | space {c : UInt8} {s t : Bytes} : Bytes.isSpace c = true → Spaced s t → Spaced s (c :: t)

theorem digits_cons (c : UInt8) (t : Bytes) :
    digits (c :: t) = if Bytes.isSpace c then digits t else c :: digits t := by
  rw [digits, List.filter_cons]
  cases Bytes.isSpace c <;> rfl

theorem digits_of_spaced {s t : Bytes} (h : Spaced s t) (hs : ∀ c ∈ s, Bytes.isSpace c = false) :
    digits t = s := by
  induction h with
  | nil => rfl
  | keep c _ ih =>
    rw [digits_cons, hs c List.mem_cons_self, ih fun x hx => hs x (List.mem_cons_of_mem c hx)]
    rfl
  | space hc _ ih => rw [digits_cons, if_pos hc, ih hs]

/-- Every text is what is left of it, with its white space put in. -/
theorem spaced_digits (t : Bytes) : Spaced (digits t) t := by
  induction t with
  | nil => exact .nil
  | cons c t ih =>
    rw [digits_cons]
    split
    · rename_i hc
      exact .space hc ih
    · exact .keep c ih

/-! ## Fillers -/

theorem fillers_le (s : Bytes) : fillers s ≤ 2 := by
  have hcount : fillers s ≤ (s.drop (s.length - 2)).length := List.count_le_length
  rw [List.length_drop] at hcount
  omega

theorem fillers_append {s t : Bytes} (ht : 2 ≤ t.length) : fillers (s ++ t) = fillers t := by
  have hdrop : (s ++ t).drop ((s ++ t).length - 2) = t.drop (t.length - 2) := by
    rw [List.length_append, Nat.add_sub_assoc ht, List.drop_length_add_append]
  rw [fillers, hdrop, fillers]

theorem fillers_encode (key : Bytes) :
    fillers (Base64.encode key) = Base64.shortfall key.length := by
  fun_induction Base64.encode key with
  | case1 => rfl
  | case2 => rfl
  | case3 a b =>
    have hb := b.toNat_lt
    have hdigit := Base64.digit_ne_filler (b.toNat % 16 * 4) (by omega)
    simp [fillers, Base64.shortfall, hdigit]
  | case4 a b c r ih =>
    have hshort : Base64.shortfall (a :: b :: c :: r).length = Base64.shortfall r.length := by
      simp only [Base64.shortfall, List.length_cons]
      omega
    rw [hshort]
    cases r with
    | nil =>
      have hb := b.toNat_lt
      have hc := c.toNat_lt
      have hthird := Base64.digit_ne_filler (b.toNat % 16 * 4 + c.toNat / 64) (by omega)
      have hfourth := Base64.digit_ne_filler (c.toNat % 64) (by omega)
      simp [fillers, Base64.shortfall, Base64.encode, hthird, hfourth]
    | cons e r =>
      have hlength : 2 ≤ (Base64.encode (e :: r)).length := by
        rw [Base64.length_encode, List.length_cons]
        omega
      rw [← ih]
      exact fillers_append (s := [_, _, _, _]) hlength

/-! ## Sizes -/

theorem passed_eq (n : Nat) : passed n = (n : Int).bmod (2 ^ 32) := Int32.toInt_ofNat'

theorem passed_of_lt {n : Nat} (h : n < 2 ^ 31) : passed n = n := by
  rw [passed_eq, Int.bmod_eq_of_le (by omega) (by omega)]

theorem passed_nonpos {n : Nat} (hlow : 2 ^ 31 ≤ n) (hhigh : n ≤ 2 ^ 32) : passed n ≤ 0 := by
  rw [passed_eq, Int.bmod_def]
  split <;> omega

theorem take_passed {s : Bytes} (h : s.length < 2 ^ 31) : s.take (passed s.length).toNat = s := by
  rw [passed_of_lt h, Int.toNat_natCast, List.take_length]

theorem length_le_encode (key : Bytes) : key.length ≤ (Base64.encode key).length := by
  rw [Base64.length_encode]
  omega

theorem write_of_short {key : Bytes} (h : (Base64.encode key).length < 2 ^ 31) :
    write key = .ok (Base64.encode key) := by
  have hkey : key.take (passed key.length).toNat = key :=
    take_passed (Nat.lt_of_le_of_lt (length_le_encode key) h)
  rw [write, hkey, take_passed h, passed_of_lt h, if_neg (by omega)]

/-- The size of a long key is passed on as a negative number. -/
theorem write_of_long {key : Bytes} (hlow : 2 ^ 31 ≤ key.length) (hhigh : key.length ≤ 2 ^ 32) :
    write key = .ok [] := by
  have hnone : key.take (passed key.length).toNat = [] := by
    rw [Int.toNat_of_nonpos (passed_nonpos hlow hhigh), List.take_zero]
  rw [write, hnone]
  rfl

/-! ## Reading -/

variable {decode? : Bytes → Option Bytes} {file text key : Bytes}

theorem read_eq_ok (hkey : key ≠ []) (htext : digits text = Base64.encode key)
    (hsize : (digits text).length < 2 ^ 31) (hdecode : Base64.Decodes decode? (digits text)) :
    read decode? file text = .ok key := by
  have hlength := Base64.length_encode key
  have hpos := List.length_pos_iff.2 hkey
  have hempty : (digits text).isEmpty = false := by
    rw [List.isEmpty_eq_false_iff, htext]
    exact List.length_pos_iff.1 (by omega)
  have hwhole : ((digits text).length % 4 != 0) = false := by
    rw [htext, hlength, Nat.mul_mod_right]
    rfl
  rw [read, hempty, hwhole, take_passed hsize, hdecode.eq_decodeGroups?, htext, fillers_encode,
    Base64.decodeGroups?_encode]
  simp

/-- A text gives a key, three bytes for each four digits without the fillers, or is malformed. -/
theorem read_cases (file : Bytes) (hsize : (digits text).length < 2 ^ 31)
    (hdecode : Base64.Decodes decode? (digits text)) :
    read decode? file text = .error (.malformed file) ∨ ∃ key, read decode? file text = .ok key ∧
      4 * (key.length + fillers (digits text)) = 3 * (digits text).length := by
  rw [read, take_passed hsize, hdecode.eq_decodeGroups?]
  split
  · exact .inl rfl
  · rename_i hwhole
    have hne : digits text ≠ [] := fun hnil => hwhole (by rw [hnil]; rfl)
    cases hgroups : Base64.decodeGroups? (digits text) with
    | none => exact .inl rfl
    | some key =>
      have hlength := Base64.length_of_decodeGroups? hgroups
      have hpos := List.length_pos_iff.2 hne
      have hfillers := fillers_le (digits text)
      dsimp only
      rw [if_neg (by omega)]
      refine .inr ⟨_, rfl, ?_⟩
      rw [List.length_take]
      omega

/-! ## Key files -/

variable {path : Path} {d : Disk} {place : Place}

theorem isDirectory_of_read (hread : d.read path = .ok (place, text)) (hne : text ≠ []) :
    d.isDirectory path = false := by
  rw [Disk.isDirectory, Disk.entryAt?]
  rw [Disk.read] at hread
  split at hread
  · rename_i hfind
    rw [hfind]
  · cases hread
    exact absurd rfl hne
  · cases hread
  · cases hread

theorem loadKeyBy_of_read (hread : d.read path = .ok (place, text)) (hdir : d.isDirectory path = false) :
    Surroundings.loadKeyBy decode? path d = read decode? path.text text := by
  rw [Surroundings.loadKeyBy, hdir, hread]
  rfl

/-- A key file with the digits of a key in it gives the key. -/
theorem loadKeyBy_of_spaced (hkey : key ≠ []) (hsize : (Base64.encode key).length < 2 ^ 31)
    (hread : d.read path = .ok (place, text)) (hspaced : Spaced (Base64.encode key) text)
    (hdecode : Base64.Decodes decode? (digits text)) :
    Surroundings.loadKeyBy decode? path d = .ok key := by
  have htext := digits_of_spaced hspaced fun c => Base64.isSpace_of_mem_encode
  have hne : text ≠ [] := by
    rintro rfl
    have hlength := Base64.length_encode key
    have hpos := List.length_pos_iff.2 hkey
    rw [← htext] at hlength
    change 0 = _ at hlength
    omega
  rw [loadKeyBy_of_read hread (isDirectory_of_read hread hne)]
  exact read_eq_ok hkey htext (htext ▸ hsize) hdecode

/-- The library's own decoder reads back every key that was written. -/
theorem loadKey_of_spaced (hkey : key ≠ []) (hsize : (Base64.encode key).length < 2 ^ 31)
    (hread : d.read path = .ok (place, text)) (hspaced : Spaced (Base64.encode key) text) :
    Surroundings.loadKey path d = .ok key := by
  have htext := digits_of_spaced hspaced fun c => Base64.isSpace_of_mem_encode
  have hlast : (digits text).getLast? ≠ some 45 := fun h =>
    Base64.ne_dash_of_mem_encode (htext ▸ List.mem_of_getLast? h) rfl
  exact loadKeyBy_of_spaced hkey hsize hread hspaced (Base64.decodes_of_getLast? hlast)

/-- The decoder is given by what is expected of it at the digits of the file. A key is read back from its
written form, and every file but a directory gives an announced error or a key of the length that its
digits tell, if there are fewer than 2 ^ 31 of them. -/
theorem keys_read_back
    (hdecode : ∀ place text, d.read path = .ok (place, text) → Base64.Decodes decode? (digits text)) :
    (∀ key, key ≠ [] → 4 * ((key.length + 2) / 3) < 2 ^ 31 → ∃ written, write key = .ok written ∧
      ∀ place text, d.read path = .ok (place, text) → Spaced written text →
        Surroundings.loadKeyBy decode? path d = .ok key) ∧
    (d.isDirectory path = false →
      (∀ place text, d.read path = .ok (place, text) → (digits text).length < 2 ^ 31) →
      (∃ e, Surroundings.loadKeyBy decode? path d = .error e ∧
        (e = .unreadable path.text ∨ e = .malformed path.text)) ∨
      ∃ place text key, d.read path = .ok (place, text) ∧
        Surroundings.loadKeyBy decode? path d = .ok key ∧
        4 * (key.length + fillers (digits text)) = 3 * (digits text).length) := by
  refine ⟨fun key hkey hsize => ?_, fun hdir hsize => ?_⟩
  · rw [← Base64.length_encode] at hsize
    exact ⟨_, write_of_short hsize, fun place text hread hspaced =>
      loadKeyBy_of_spaced hkey hsize hread hspaced (hdecode place text hread)⟩
  · cases hread : d.read path with
    | error e =>
      refine .inl ⟨.unreadable path.text, ?_, .inl rfl⟩
      rw [Surroundings.loadKeyBy, hdir, hread]
      rfl
    | ok found =>
      obtain ⟨place, text⟩ := found
      rw [loadKeyBy_of_read hread hdir]
      rcases read_cases path.text (hsize place text hread) (hdecode place text hread) with
        hmalformed | ⟨key, hkey, hlength⟩
      · exact .inl ⟨_, hmalformed, .inr rfl⟩
      · exact .inr ⟨place, text, key, rfl, hkey, hlength⟩

/-- A key of four bytes, with white space between its digits and inside its padding. -/
def roomy : Bytes := " AQ\tID\nBA=\x0b=\r\n"

/-- A disk with a key file and a directory of keys. -/
def lodged : Disk := ⟨[(["key"], .file false roomy), (["keys"], .dir Disk.openMode)], []⟩

/-- White space inside the padding is nothing to the library's own decoder. -/
theorem keys_read_back_roomy :
    (∀ place text, lodged.read ⟨"key"⟩ = .ok (place, text) →
      Base64.Decodes Base64.decode? (digits text)) ∧
    lodged.read ⟨"key"⟩ = .ok (["key"], roomy) ∧
      ∃ written, write [1, 2, 3, 4] = .ok written ∧ Spaced written roomy ∧
        Surroundings.loadKeyBy Base64.decode? ⟨"key"⟩ lodged = .ok [1, 2, 3, 4] := by
  have hread : lodged.read ⟨"key"⟩ = .ok (["key"], roomy) := rfl
  have hdecode : ∀ place text, lodged.read ⟨"key"⟩ = .ok (place, text) →
      Base64.Decodes Base64.decode? (digits text) := by
    intro place text h
    cases hread.symm.trans h
    exact Base64.decodes_of_getLast? (by decide)
  obtain ⟨written, hwritten, hloads⟩ :=
    (keys_read_back hdecode).1 [1, 2, 3, 4] (List.cons_ne_nil _ _) (by decide)
  have hdigits : digits roomy = written := by
    rw [write_of_short (by decide)] at hwritten
    cases hwritten
    decide
  have hspaced : Spaced written roomy := hdigits ▸ spaced_digits roomy
  exact ⟨hdecode, hread, written, hwritten, hspaced, hloads _ _ hread hspaced⟩

/-- A directory gives no key, and not one of the errors that are announced. -/
theorem directory_unread :
    ∃ e, Surroundings.loadKey ⟨"keys"⟩ lodged = .error e ∧ e.isAnnounced = false :=
  ⟨.directory, rfl, rfl⟩

end FileCourier.KeyFile
