import FileCourier.MasterLink
import FileCourier.Proofs.Action
import Mathlib.Algebra.Group.Nat.Defs

/-!
# Frames one after the other

A frame begins with its size, so a reader that meets it at the front of an input knows where it ends
(`read?_append`). Frames that follow each other are therefore read back in their order up to the end of
the input, and no frame begins another one (`frames_delimited`).
-/

namespace FileCourier.Frame

variable {f g : Frame} {s t rest : Bytes}

/-- A frame whose kind and size can be written. -/
structure Fits (f : Frame) : Prop where
  kind : f.kind.length ≤ maxKind
  size : 1 + f.kind.length + f.payload.length < 2 ^ 64

instance (f : Frame) : Decidable f.Fits :=
  decidable_of_iff (f.kind.length ≤ maxKind ∧ 1 + f.kind.length + f.payload.length < 2 ^ 64)
    ⟨fun h => ⟨h.1, h.2⟩, fun h => ⟨h.kind, h.size⟩⟩

/-- What is left of an input is shorter than the input. -/
theorem length_lt_of_read? (h : read? s = some (f, rest)) : rest.length < s.length := by
  rw [read?] at h
  split at h
  · cases h
  · rename_i hlong
    dsimp only at h
    split at h
    · cases h
    · obtain ⟨g, -, hg⟩ := Option.map_eq_some_iff.1 h
      cases hg
      simp only [List.length_drop]
      omega

/-- The frames of an input, one after the other, up to its end. -/
def readAll? : Bytes → Option (List Frame)
  | [] => some []
  | b :: s =>
    match _h : read? (b :: s) with
    | none => none
    | some (f, rest) => (readAll? rest).map (f :: ·)
termination_by s => s.length
decreasing_by exact length_lt_of_read? _h

theorem readAll?_of_read? (h : read? s = some (f, rest)) :
    readAll? s = (readAll? rest).map (f :: ·) := by
  cases s with
  | nil => cases h
  | cons b s =>
    rw [readAll?]
    split
    · rename_i hnone
      rw [h] at hnone
      cases hnone
    · rename_i hsome
      rw [h] at hsome
      cases hsome
      rfl

theorem length_body (f : Frame) : f.body.length = 1 + f.kind.length + f.payload.length := by
  simp only [body, List.length_cons, List.length_append]
  omega

theorem write?_of_kind (h : f.kind.length ≤ maxKind) :
    f.write? = some (Bytes.bigEndian 8 f.body.length ++ f.body) := by
  rw [write?, if_neg (Nat.not_lt.2 h), length_body]

theorem write?_eq_none_iff : f.write? = none ↔ maxKind < f.kind.length := by
  rw [write?]
  split
  · exact ⟨fun _ => ‹_›, fun _ => rfl⟩
  · rename_i hkind
    exact ⟨nofun, fun h => absurd h hkind⟩

/-- The length of the kind fits in its byte. -/
theorem ofBody?_body (h : f.kind.length ≤ maxKind) : ofBody? f.body = some f := by
  have hlength : (UInt8.ofNat f.kind.length).toNat = f.kind.length := by
    have hbyte : f.kind.length ≤ 255 := h
    rw [UInt8.toNat_ofNat']
    omega
  rw [body, ofBody?, hlength, if_neg (by simp), List.take_left, List.drop_left]

/-- A frame is read from every input that begins with it, and what follows it is left. -/
theorem read?_append (hf : f.Fits) (hs : f.write? = some s) (t : Bytes) :
    read? (s ++ t) = some (f, t) := by
  rw [write?_of_kind hf.kind] at hs
  cases hs
  have hwidth := Bytes.length_bigEndian 8 f.body.length
  have hsize : Bytes.ofBigEndian (Bytes.bigEndian 8 f.body.length) = f.body.length := by
    rw [Bytes.ofBigEndian_bigEndian]
    apply Nat.mod_eq_of_lt
    rw [length_body]
    exact hf.size
  rw [read?, List.append_assoc, if_neg (by simp [hwidth])]
  dsimp only
  rw [List.take_left' hwidth, List.drop_left' hwidth, hsize, if_neg (by simp), List.take_left,
    List.drop_left, ofBody?_body hf.kind]
  rfl

/-- Of two frames neither begins the other. -/
theorem eq_of_write?_prefix (hf : f.Fits) (hg : g.Fits) (hs : f.write? = some s)
    (ht : g.write? = some t) (h : s <+: t) : f = g := by
  obtain ⟨r, rfl⟩ := h
  have hread := read?_append hf hs r
  have hread' := read?_append hg ht []
  rw [List.append_nil, hread] at hread'
  cases hread'
  rfl

theorem readAll?_flatten {l : List Frame} (hl : ∀ f ∈ l, f.Fits) :
    ∃ ss : List Bytes, l.map write? = ss.map some ∧ readAll? ss.flatten = some l := by
  induction l with
  | nil => exact ⟨[], rfl, by rw [List.flatten_nil, readAll?]⟩
  | cons f l ih =>
    obtain ⟨ss, hss, hread⟩ := ih fun g hg => hl g (List.mem_cons_of_mem _ hg)
    have hf := hl f List.mem_cons_self
    have hwrite := write?_of_kind hf.kind
    refine ⟨(Bytes.bigEndian 8 f.body.length ++ f.body) :: ss, ?_, ?_⟩
    · rw [List.map_cons, List.map_cons, hwrite, hss]
    · rw [List.flatten_cons, readAll?_of_read? (read?_append hf hwrite _), hread]
      rfl

/-- Frames that are written one after the other are read back in their order, so two frames are
written alike only if they are the same, and none is written as a proper beginning of another. A frame
is refused just when its kind is longer than one byte can say, and then nothing is sent. -/
theorem frames_delimited :
    (∀ l : List Frame, (∀ f ∈ l, f.Fits) →
      ∃ ss : List Bytes, l.map write? = ss.map some ∧ readAll? ss.flatten = some l) ∧
    (∀ f g s t, Fits f → Fits g → f.write? = some s → g.write? = some t → s <+: t → f = g) ∧
    (∀ f, write? f = none ↔ 255 < f.kind.length) ∧
    ∀ (σ : Type) (dial : Dialer σ) e p w, 255 < p.kind.length →
      Line.channel dial e p w = (.error (.misuse (.kindTooLong p.kind)), w) := by
  refine ⟨fun l hl => readAll?_flatten hl, fun f g s t hf hg hs ht => eq_of_write?_prefix hf hg hs ht,
    fun f => write?_eq_none_iff, ?_⟩
  intro σ dial e p w hkind
  have hrefused : (Frame.mk p.kind p.payload).write? = none := write?_eq_none_iff.2 hkind
  rw [Line.channel, hrefused]
  rfl

/-- A frame without kind and payload, one whose kind has a length with the highest bit set, and one of
the usual kind. -/
def framesOfEveryLength : List Frame :=
  [⟨[], []⟩, ⟨List.replicate 200 107, [0, 255]⟩, ⟨"aes", "xyz"⟩]

/-- A parcel whose kind is too long for a frame. -/
def oversized : Parcel := ⟨List.replicate 300 107, "xyz", 3, 60⟩

theorem frames_delimited_everyLength :
    (∀ f ∈ framesOfEveryLength, f.Fits) ∧
      (∃ ss : List Bytes, framesOfEveryLength.map write? = ss.map some ∧
        readAll? ss.flatten = some framesOfEveryLength) ∧
      (Frame.mk "aes" "xyz").Fits ∧ (Frame.mk "ae" "sxyz").Fits ∧
      (∃ s t, (Frame.mk "aes" "xyz").write? = some s ∧ (Frame.mk "ae" "sxyz").write? = some t ∧
        ¬s <+: t) ∧
      255 < oversized.kind.length ∧
      Line.channel (fun _ _ _ => pure (.hangs .resolving)) ⟨"salt", 4506⟩ oversized () =
        (.error (.misuse (.kindTooLong oversized.kind)), ()) := by
  have hfits : ∀ f ∈ framesOfEveryLength, f.Fits := by decide +kernel
  have hfirst : (Frame.mk "aes" "xyz").Fits := by decide
  have hsecond : (Frame.mk "ae" "sxyz").Fits := by decide
  have hlong : 255 < oversized.kind.length := by
    rw [oversized, List.length_replicate]
    decide
  obtain ⟨hall, hinjective, -, hrefused⟩ := frames_delimited
  have hwrite := write?_of_kind hfirst.kind
  have hwrite' := write?_of_kind hsecond.kind
  refine ⟨hfits, hall _ hfits, hfirst, hsecond, ⟨_, _, hwrite, hwrite', fun hprefix => ?_⟩, hlong,
    hrefused _ _ _ _ _ hlong⟩
  have heq := hinjective _ _ _ _ hfirst hsecond hwrite hwrite' hprefix
  exact absurd heq (by decide)

end FileCourier.Frame
