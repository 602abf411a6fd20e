import FileCourier.Proofs.Path.Lexical

/-!
# Paths that components make up

The components of a path make up a path with the same names and one slash for several
(`names_combine`). Which names stand before the first NUL of a path follows from all of its names
(`names_untilNul`), so what the system reads of the two paths has the same names.
-/

namespace FileCourier.Path

/-- The path that components make up. -/
def combine (comps : List Bytes) : Path := (Path.mk []).along comps

/-- A path without the slash at its end, as its components make it up. -/
def combineNames (p : Path) : Path := along ⟨if p.isAbsolute then [slash] else []⟩ p.names

theorem combine_components (p : Path) : combine p.components =
    if p.endsInSlash then p.combineNames / ([] : Bytes) else p.combineNames := by
  have hroot : (Path.mk []).along (if p.isAbsolute then [[slash]] else []) =
      ⟨if p.isAbsolute then [slash] else []⟩ := by
    cases p.isAbsolute <;> rfl
  rw [combine, components, along_append, along_append, hroot, ← combineNames]
  cases p.endsInSlash <;> rfl

theorem isAbsolute_combine (p : Path) : (combine p.components).isAbsolute = p.isAbsolute := by
  have hnames : p.combineNames.isAbsolute = p.isAbsolute := by
    rw [combineNames, isAbsolute_along _ fun _ => segment_of_mem_names]
    cases p.isAbsolute <;> rfl
  rw [combine_components]
  split
  · exact (isAbsolute_join (q := ⟨[]⟩) p.combineNames rfl).trans hnames
  · exact hnames

theorem names_combine (p : Path) : (combine p.components).names = p.names := by
  have hnames : p.combineNames.names = p.names := by
    rw [combineNames, names_along _ fun _ => segment_of_mem_names]
    cases p.isAbsolute <;> rfl
  rw [combine_components]
  split
  · exact ((names_join (q := ⟨[]⟩) p.combineNames rfl).trans (List.append_nil _)).trans hnames
  · exact hnames

/-! ## Before the first NUL -/

/-- Pieces of a text, up to the first NUL in them. -/
def cut : List Bytes → List Bytes
  | [] => []
  | n :: ns => if 0 ∈ n then [n.untilNul] else n :: cut ns

theorem untilNul_cons {x : UInt8} (hx : x ≠ 0) (t : Bytes) :
    Bytes.untilNul (x :: t) = x :: t.untilNul :=
  List.takeWhile_cons_of_pos (bne_iff_ne.2 hx)

theorem splitOn_untilNul (t : Bytes) : t.untilNul.splitOn slash = cut (t.splitOn slash) := by
  induction t with
  | nil => rfl
  | cons x t ih =>
    by_cases hslash : x = slash
    · subst hslash
      rw [untilNul_cons (by decide), splitOn_slash_cons, splitOn_slash_cons, ih]
      rfl
    obtain ⟨piece, pieces, hpieces, hcons⟩ := exists_splitOn_cons hslash t
    rw [hcons]
    by_cases hzero : x = 0
    · subst hzero
      rw [cut, if_pos List.mem_cons_self]
      rfl
    · obtain ⟨piece', pieces', hpieces', hcons'⟩ := exists_splitOn_cons hslash (Bytes.untilNul t)
      rw [hpieces', hpieces, cut] at ih
      rw [untilNul_cons hzero, hcons', cut]
      have hmem : (0 ∈ x :: piece) ↔ 0 ∈ piece := by simp [Ne.symm hzero]
      by_cases hpiece : 0 ∈ piece
      · rw [if_pos hpiece] at ih
        rw [if_pos (hmem.2 hpiece), untilNul_cons hzero]
        cases ih
        rfl
      · rw [if_neg hpiece] at ih
        rw [if_neg (mt hmem.1 hpiece)]
        cases ih
        rfl

theorem filter_cut (ns : List Bytes) : (cut ns).filter (fun n => !n.isEmpty) =
    (cut (ns.filter fun n => !n.isEmpty)).filter fun n => !n.isEmpty := by
  induction ns with
  | nil => rfl
  | cons n ns ih =>
    cases n with
    | nil => exact ih
    | cons x n =>
      rw [List.filter_cons_of_pos rfl, cut, cut]
      split
      · rfl
      · rw [List.filter_cons_of_pos rfl, List.filter_cons_of_pos rfl, ih]

theorem names_untilNul (p : Path) :
    (mk p.text.untilNul).names = (cut p.names).filter fun n => !n.isEmpty := by
  rw [names, names, splitOn_untilNul]
  exact filter_cut _

theorem isAbsolute_untilNul (p : Path) : (mk p.text.untilNul).isAbsolute = p.isAbsolute := by
  obtain ⟨text⟩ := p
  cases text with
  | nil => rfl
  | cons x t =>
    by_cases hx : x = 0
    · rw [hx]
      rfl
    · rw [untilNul_cons hx]
      rfl

end FileCourier.Path
