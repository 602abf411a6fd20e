import FileCourier.Gzip.Code
import Mathlib.Algebra.Group.Nat.Defs

/-!
# Reading what bits spell

Bits are read one after the other (`Reads`), and a number is read from the bits that spell it
(`Reads.take`). The bytes that a bit string fills are read back bit by bit, up to the byte after the
last of them (`reads_pack`).
-/

namespace FileCourier.Gzip.Bits

variable {b b' b'' : Bits} {l l' p : List Bool} {x : Bool} {n v i : Nat} {r : Bytes}

/-- Reading some bits leads from one input to another. -/
inductive Reads : Bits → List Bool → Bits → Prop
  | nil {b : Bits} : Reads b [] b
  | cons {b b' b'' : Bits} {x : Bool} {l : List Bool} : b.next = .ok (x, b') → Reads b' l b'' →
      Reads b (x :: l) b''

theorem Reads.append (h : Reads b l b') (h' : Reads b' l' b'') : Reads b (l ++ l') b'' := by
  induction h with
  | nil => exact h'
  | cons hnext _ ih => exact .cons hnext (ih h')

theorem Reads.of_append (h : Reads b (l ++ l') b'') : ∃ b', Reads b l b' ∧ Reads b' l' b'' := by
  induction l generalizing b with
  | nil => exact ⟨b, .nil, h⟩
  | cons x l ih =>
    cases h with
    | cons hnext hrest =>
      obtain ⟨b', hl, hl'⟩ := ih hrest
      exact ⟨b', .cons hnext hl, hl'⟩

/-! ## Bytes -/

theorem length_ofByte (c : UInt8) : (ofByte c).length = 8 := by simp [ofByte]

theorem size_of_next (h : b.next = .ok (x, b')) : b.size = 1 + b'.size := by
  rw [next.eq_def] at h
  split at h
  · cases h
    simp only [size, List.length_cons]
    omega
  · rename_i c rest
    have hlength := length_ofByte c
    split at h
    · cases h
    · rename_i heq
      cases h
      rw [heq] at hlength
      simp only [size, List.length_cons, List.length_nil] at hlength ⊢
      omega
  · cases h

theorem Reads.size_eq (h : Reads b l b') : b.size = l.length + b'.size := by
  induction h with
  | nil => simp
  | cons hnext _ ih =>
    rw [size_of_next hnext, ih, List.length_cons]
    omega

theorem reads_pending (l p : List Bool) (r : Bytes) : Reads ⟨l ++ p, r⟩ l ⟨p, r⟩ := by
  induction l with
  | nil => exact .nil
  | cons x l ih => exact .cons rfl ih

/-- The bits of the next byte are read once nothing is left of the one before. -/
theorem reads_byte {c : UInt8} (hl : l ≠ []) (hc : ofByte c = l ++ p) :
    Reads ⟨[], c :: r⟩ l ⟨p, r⟩ := by
  cases l with
  | nil => exact absurd rfl hl
  | cons x l =>
    refine .cons ?_ (reads_pending l p r)
    rw [next, hc]
    rfl

/-! ## Numbers -/

theorem toNat_cons (x : Bool) (l : List Bool) : toNat (x :: l) = x.toNat + 2 * toNat l := rfl

theorem toNat_lt (l : List Bool) : toNat l < 2 ^ l.length := by
  induction l with
  | nil => simp [toNat]
  | cons x l ih =>
    have hx : x.toNat ≤ 1 := Bool.toNat_le x
    rw [toNat_cons, List.length_cons, Nat.pow_succ]
    omega

theorem testBit_toNat (l : List Bool) (i : Nat) : (toNat l).testBit i = l.getD i false := by
  induction l generalizing i with
  | nil => simp [toNat]
  | cons x l ih =>
    rw [toNat_cons]
    cases i with
    | zero => cases x <;> simp [Nat.testBit_zero]
    | succ i =>
      have hhalf : (x.toNat + 2 * toNat l) / 2 = toNat l := by
        have hx : x.toNat ≤ 1 := Bool.toNat_le x
        omega
      rw [Nat.testBit_succ, hhalf, ih, List.getD_cons_succ]

theorem length_ofNat (n v : Nat) : (ofNat n v).length = n := by
  induction n generalizing v with
  | zero => rfl
  | succ n ih => rw [ofNat, List.length_cons, ih]

theorem toNat_ofNat (h : v < 2 ^ n) : toNat (ofNat n v) = v := by
  induction n generalizing v with
  | zero => simp [ofNat, toNat, Nat.lt_one_iff.1 h]
  | succ n ih =>
    rw [Nat.pow_succ] at h
    rw [ofNat, toNat_cons, ih (by omega)]
    rcases Nat.mod_two_eq_zero_or_one v with hv | hv <;> simp [hv] <;> omega

/-- A number is read from the bits that spell it. -/
theorem Reads.take (h : Reads b l b') : b.take l.length = .ok (toNat l, b') := by
  induction h with
  | nil => rfl
  | @cons b b₁ b₂ x l hnext _ ih =>
    rw [List.length_cons, Bits.take, hnext]
    change (Bits.take l.length b₁).bind (fun p => .ok (x.toNat + 2 * p.1, p.2)) = _
    rw [ih]
    rfl

theorem Reads.take_ofNat (h : Reads b (ofNat n v) b') (hv : v < 2 ^ n) : b.take n = .ok (v, b') := by
  have htake := h.take
  rwa [length_ofNat, toNat_ofNat hv] at htake

/-! ## Bits packed into bytes -/

theorem ofByte_ofNat (h : l.length = 8) : ofByte (UInt8.ofNat (toNat l)) = l := by
  have hbyte : (UInt8.ofNat (toNat l)).toNat = toNat l := by
    have hlt := toNat_lt l
    rw [h] at hlt
    rw [UInt8.toNat_ofNat']
    exact Nat.mod_eq_of_lt hlt
  refine List.ext_getElem (by rw [length_ofByte, h]) fun i hi hl => ?_
  simp [ofByte, hbyte, testBit_toNat, List.getElem?_eq_getElem hl]

theorem toNat_append_replicate (l : List Bool) (n : Nat) :
    toNat (l ++ List.replicate n false) = toNat l := by
  induction l with
  | nil =>
    induction n with
    | zero => rfl
    | succ n ih =>
      rw [List.replicate_succ, List.nil_append, toNat_cons]
      rw [List.nil_append] at ih
      rw [ih]
      rfl
  | cons x l ih => rw [List.cons_append, toNat_cons, ih, toNat_cons]

/-- A byte that is not full is filled up with zeros. -/
theorem ofByte_ofNat_append (h : l.length ≤ 8) :
    ofByte (UInt8.ofNat (toNat l)) = l ++ List.replicate (8 - l.length) false := by
  rw [← toNat_append_replicate l (8 - l.length)]
  apply ofByte_ofNat
  rw [List.length_append, List.length_replicate]
  omega

/-- The bytes that a bit string fills spell it, and what follows them is left. -/
theorem reads_pack (l : List Bool) (r : Bytes) : ∃ p, Reads ⟨[], pack l ++ r⟩ l ⟨p, r⟩ := by
  induction l using pack.induct with
  | case1 a b c d e f g h l ih =>
    obtain ⟨p, hrest⟩ := ih
    refine ⟨p, ?_⟩
    have hfirst : Reads ⟨[], pack (a :: b :: c :: d :: e :: f :: g :: h :: l) ++ r⟩
        [a, b, c, d, e, f, g, h] ⟨[], pack l ++ r⟩ :=
      reads_byte (List.cons_ne_nil _ _) (ofByte_ofNat rfl)
    exact hfirst.append hrest
  | case2 => exact ⟨[], .nil⟩
  | case3 l hlong hne =>
    have hpack : l.length ≤ 8 ∧ pack l = [UInt8.ofNat (toNat l)] := by
      rcases l with _ | ⟨a, _ | ⟨b, _ | ⟨c, _ | ⟨d, _ | ⟨e, _ | ⟨f, _ | ⟨g, _ | ⟨h, l⟩⟩⟩⟩⟩⟩⟩⟩
      case nil => exact absurd rfl hne
      case cons.cons.cons.cons.cons.cons.cons.cons => exact (hlong _ _ _ _ _ _ _ _ l rfl).elim
      all_goals exact ⟨by simp, rfl⟩
    have hread := reads_byte (r := r) hne (ofByte_ofNat_append hpack.1)
    rw [hpack.2]
    exact ⟨_, hread⟩

end FileCourier.Gzip.Bits
