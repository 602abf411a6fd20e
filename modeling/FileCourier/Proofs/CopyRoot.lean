import FileCourier.Proofs.Path.Names
import FileCourier.VirtualPath
import Mathlib.Data.List.DropRight
import Mathlib.Data.Set.Function

/-!
# Copied directories, as texts

A copy root is cut out of a virtual path by two scans from its end: the slashes at the end are dropped,
and what stands before the last slash that is left is the parent. Of any listed text, a path or not, the
root holds what goes on behind the directory and a slash (`CopyRoot.contains_iff`), and the copy of such a
text begins with the last segment of the directory (`CopyRoot.destination?_of_of?`). Slashes behind the
virtual path give the same root.
-/

namespace FileCourier

variable {part P before last : Bytes} {root : CopyRoot}

namespace CopyRoot

/-- What stands behind the last slash of a text, all of it when there is none. -/
def lastSegment (P : Bytes) : Bytes := P.rtakeWhile (· != slash)

theorem lastSegment_of_not_mem (h : slash ∉ P) : lastSegment P = P :=
  List.rtakeWhile_eq_self_iff.2 fun _ hc => bne_iff_ne.2 fun heq => h (heq ▸ hc)

theorem lastSegment_append (h : slash ∉ last) : lastSegment (before ++ slash :: last) = last := by
  have hlast : ∀ c ∈ last.reverse, (c != slash) = true := fun c hc =>
    bne_iff_ne.2 fun heq => h (heq ▸ List.mem_reverse.1 hc)
  rw [lastSegment, List.rtakeWhile, List.reverse_append, List.reverse_cons, List.append_assoc,
    List.takeWhile_append_of_pos hlast, List.singleton_append,
    List.takeWhile_cons_of_neg (by simp), List.append_nil, List.reverse_reverse]

/-- A text that does not begin with a slash loses none. -/
theorem dropSlashes_append (hne : last ≠ []) (h : slash ∉ last) (rest : Bytes) :
    VirtualPath.dropSlashes (last ++ rest) = last ++ rest := by
  obtain ⟨c, r, rfl⟩ := List.exists_cons_of_ne_nil hne
  have hc : ¬(c == slash) = true := fun heq => h (eq_of_beq heq ▸ List.mem_cons_self)
  exact List.dropWhile_cons_of_neg hc

/-! ## The root of a virtual path -/

theorem exists_of?_eq (part : Bytes) : ∃ root, of? (VirtualPath.mark ++ part) = some root ∧
    root.path = part.rdropWhile (· == slash) := by
  rw [of?, VirtualPath.strip?_eq_some_iff.2 rfl]
  exact ⟨_, rfl, rfl⟩

theorem rdropWhile_append_replicate (part : Bytes) (k : Nat) :
    (part ++ List.replicate k slash).rdropWhile (· == slash) = part.rdropWhile (· == slash) := by
  induction k with
  | zero => rw [List.replicate_zero, List.append_nil]
  | succ k ih =>
    rw [List.replicate_succ', ← List.append_assoc, List.rdropWhile_concat_pos _ _ _ (by simp), ih]

/-- Slashes behind a virtual path make no difference. -/
theorem of?_append_replicate (part : Bytes) (k : Nat) :
    of? (VirtualPath.mark ++ (part ++ List.replicate k slash)) = of? (VirtualPath.mark ++ part) := by
  have htrim := rdropWhile_append_replicate part k
  rw [of?, of?, VirtualPath.strip?_eq_some_iff.2 rfl, VirtualPath.strip?_eq_some_iff.2 rfl,
    Option.map_some, Option.map_some]
  simp only [List.rdropWhile, slash] at htrim ⊢
  rw [htrim]

/-- The parent of a root is what stands before the last slash of its path. -/
theorem path_eq_of_of? {virtual : Bytes} (h : of? virtual = some root) :
    slash ∉ root.path ∧ root.parent = [] ∨
      ∃ last, slash ∉ last ∧ root.path = root.parent ++ slash :: last := by
  obtain ⟨rest, -, hrest⟩ := Option.map_eq_some_iff.1 h
  obtain rfl := hrest
  cases hbreak : Bytes.breakAtLast? slash (rest.reverse.dropWhile (· == slash)).reverse with
  | none =>
    refine .inl ⟨Bytes.breakAtLast?_eq_none hbreak, ?_⟩
    dsimp only
    rw [← slash, hbreak]
  | some parts =>
    obtain ⟨before, last⟩ := parts
    have hcut := Bytes.eq_append_of_breakAtLast? hbreak
    refine .inr ⟨last, hcut.2, ?_⟩
    dsimp only
    rw [← slash, hbreak]
    exact hcut.1

theorem contains_iff {listed : Bytes} :
    root.contains listed = true ↔ ∃ rest, listed = root.path ++ slash :: rest := by
  rw [contains, List.isPrefixOf_iff_prefix]
  constructor
  · rintro ⟨rest, hrest⟩
    exact ⟨rest, by rw [← hrest, List.append_assoc]; rfl⟩
  · rintro ⟨rest, rfl⟩
    exact ⟨rest, by rw [List.append_assoc]; rfl⟩

/-- What a root holds goes behind the last segment of its directory. -/
theorem destination?_of_of? {virtual : Bytes} (h : of? virtual = some root) (hne : root.path ≠ [])
    (hend : root.path.getLast? ≠ some slash) (rest : Bytes) :
    root.destination? (root.path ++ slash :: rest) =
      some (lastSegment root.path ++ slash :: rest) := by
  obtain ⟨hno, hparent⟩ | ⟨last, hlast, hpath⟩ := path_eq_of_of? h
  · rw [lastSegment_of_not_mem hno, destination?, hparent]
    exact (if_pos (Nat.zero_le _)).trans (congrArg some (dropSlashes_append hne hno _))
  · -- The slash before the last segment is dropped with the parent, and no other one is.
    have hlastne : last ≠ [] := by
      rintro rfl
      exact hend (by rw [hpath, List.getLast?_concat])
    rw [hpath, lastSegment_append hlast, destination?, List.append_assoc,
      if_pos (by rw [List.length_append]; exact Nat.le_add_right _ _), List.drop_left]
    exact congrArg some (dropSlashes_append hlastne hlast (slash :: rest))

/-- The copy of a virtual directory, doubled, leading and closing slashes and all: it takes exactly the
listed texts that go on behind the directory and a slash, no two of them to one destination, and keeps of
each what stands from the last segment of the directory on. -/
theorem copies_segment (h : ∃ c ∈ part, c ≠ slash) :
    ∃ root, of? (VirtualPath.mark ++ part) = some root ∧
      (∀ listed, root.contains listed = true ↔
        ∃ rest, listed = part.rdropWhile (· == slash) ++ slash :: rest) ∧
      (∀ rest, root.destination? (part.rdropWhile (· == slash) ++ slash :: rest) =
        some (lastSegment (part.rdropWhile (· == slash)) ++ slash :: rest)) ∧
      Set.InjOn root.destination? {listed | root.contains listed} ∧
      ∀ k, of? (VirtualPath.mark ++ (part ++ List.replicate k slash)) = some root := by
  obtain ⟨root, hof, hpath⟩ := exists_of?_eq part
  have hne : root.path ≠ [] := by
    obtain ⟨c, hc, hcne⟩ := h
    rw [hpath, Ne, List.rdropWhile_eq_nil_iff]
    exact fun hall => hcne (eq_of_beq (hall c hc))
  have hend : root.path.getLast? ≠ some slash := by
    rw [hpath] at hne ⊢
    rw [List.getLast?_eq_some_getLast hne, Ne, Option.some_inj]
    exact fun heq => List.rdropWhile_last_not _ _ hne (beq_iff_eq.2 heq)
  have hdest := destination?_of_of? hof hne hend
  refine ⟨root, hof, fun listed => ?_, ?_, ?_, fun k => (of?_append_replicate part k).trans hof⟩
  · rw [← hpath]
    exact contains_iff
  · rw [← hpath]
    exact hdest
  · rintro l hl l' hl' heq
    obtain ⟨rest, rfl⟩ := contains_iff.1 hl
    obtain ⟨rest', rfl⟩ := contains_iff.1 hl'
    rw [hdest, hdest, Option.some_inj] at heq
    rw [List.append_cancel_left heq]

/-- Doubled slashes within the directory belong to it, those at its end do not. -/
theorem copies_segment_doubled :
    (∃ c ∈ ("/a//b//" : Bytes), c ≠ slash) ∧
      ∃ root, of? ("salt:///a//b//" : Bytes) = some root ∧
        root.contains ("/a//b//c" : Bytes) = true ∧
        root.destination? ("/a//b//c" : Bytes) = some "b//c" := by
  have h : ∃ c ∈ ("/a//b//" : Bytes), c ≠ slash := ⟨Bytes.ascii 'a', by decide, by decide⟩
  obtain ⟨root, hof, hcontains, hdest, -⟩ := copies_segment h
  exact ⟨h, root, hof, (hcontains _).2 ⟨"/c", by decide⟩, hdest "/c"⟩

end CopyRoot

end FileCourier
