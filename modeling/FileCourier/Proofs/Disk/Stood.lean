import FileCourier.Proofs.Disk.Listing
import FileCourier.Proofs.Disk.Site
import FileCourier.Proofs.Path.Winding

/-!
# Walks below a directory that find directories only

When every place that a walk comes by is a directory (`Stood`), the walk leads where `Path.wind` says
(`passes_of_stood`), so a path along it is found (`Site.find_stood`) and a name behind it is a name
in that directory (`Site.aims`).
-/

namespace FileCourier.Disk

open FileCourier.Path (Ordinary Reads visited wind)

variable {d : Disk} {absolute : Bool} {P p q r : Place} {names ns done a b s : List Bytes}
  {c : Bytes} {path : Path}

theorem Passes.append (h : Passes d p a q) (h' : Passes d q b r) : Passes d p (a ++ b) r := by
  induction h with
  | nil => exact h'
  | dot _ ih => exact .dot (ih h')
  | dotDot _ ih => exact .dotDot (ih h')
  | dir hc he _ ih => exact .dir hc he (ih h')

/-- What a walk from `P` comes by are directories. -/
def Stood (d : Disk) (P : Place) (ns : List Bytes) : Prop :=
  ∀ s ∈ visited ns, ∃ m, d.get? (P ++ s) = some (.dir m)

theorem Stood.of_prefix (h : d.Stood P ns) (hdone : done <+: ns) : d.Stood P done := by
  intro s hs
  obtain ⟨before, hbefore, hwind⟩ := Path.mem_visited.1 hs
  exact h s (Path.mem_visited.2 ⟨before, hbefore.trans hdone, hwind⟩)

theorem Stood.dir (h : d.Stood P ns) (hs : wind ns = some s) : ∃ m, d.get? (P ++ s) = some (.dir m) :=
  h s (Path.mem_visited.2 ⟨ns, List.prefix_refl ns, hs⟩)

theorem stood_nil (h : ∃ m, d.get? P = some (.dir m)) : d.Stood P [] := by
  intro s hs
  obtain ⟨done, hdone, hwind⟩ := Path.mem_visited.1 hs
  obtain rfl := List.prefix_nil.1 hdone
  cases hwind
  rwa [List.append_nil]

/-- One more component may lead to a directory, or nowhere. -/
theorem Stood.concat (h : d.Stood P ns)
    (hdir : ∀ s', wind (ns ++ [c]) = some s' → ∃ m, d.get? (P ++ s') = some (.dir m)) :
    d.Stood P (ns ++ [c]) := by
  intro s' hs'
  obtain ⟨done, hdone, hwind⟩ := Path.mem_visited.1 hs'
  rcases List.prefix_concat_iff.1 hdone with rfl | hdone
  · exact hdir s' hwind
  · exact h s' (Path.mem_visited.2 ⟨done, hdone, hwind⟩)

/-- A step that names nothing leads from a directory to a directory. -/
theorem Stood.concat_of_not_ordinary (h : d.Stood P ns) (htree : d.IsTree) (hc : ¬Ordinary c) :
    d.Stood P (ns ++ [c]) := by
  refine h.concat fun s' hs' => ?_
  obtain ⟨s, hs, hturn⟩ := Path.exists_turning hs'
  obtain ⟨m, hdir⟩ := h.dir hs
  cases hturn with
  | dot => exact ⟨m, hdir⟩
  | name hname => exact absurd hname hc
  | dotDot hne =>
    refine htree (P ++ s.dropLast) (s.getLast hne) ?_
    rw [List.append_assoc, List.dropLast_concat_getLast]
    exact ne_none_of_get? hdir

theorem passes_of_stood (h : d.Stood P ns) (hs : wind ns = some s) : Passes d P ns (P ++ s) := by
  induction ns using List.reverseRecOn generalizing s with
  | nil =>
    cases hs
    rw [List.append_nil]
    exact .nil
  | append_singleton ns c ih =>
    obtain ⟨s₁, hs₁, hturn⟩ := Path.exists_turning hs
    refine (ih (h.of_prefix (List.prefix_append ns [c])) hs₁).append ?_
    cases hturn with
    | dot => exact .dot .nil
    | dotDot hne =>
      rw [← List.dropLast_append_of_ne_nil hne]
      exact .dotDot .nil
    | name hc =>
      obtain ⟨m, hdir⟩ := h.dir hs
      rw [← List.append_assoc] at hdir ⊢
      exact .dir hc.toNamed hdir .nil

namespace Site

theorem follow_stood (h : Site absolute names P d) (hstood : d.Stood P ns) (hs : wind ns = some s) :
    ∃ m, d.follow true maxLinks (d.base absolute) (names ++ ns) = .ok (.at (P ++ s) (.dir m)) := by
  obtain ⟨m, hfollow⟩ := h.follow_eq
  by_cases hns : ns = []
  · subst hns
    cases hs
    rw [List.append_nil, List.append_nil]
    exact ⟨m, hfollow⟩
  · obtain ⟨m', hdir⟩ := hstood.dir hs
    obtain ⟨k, hk⟩ := follow_append hfollow hns true
    have hpass := follow_of_passes (passes_of_stood hstood hs) true k []
    rw [List.append_nil] at hpass
    rw [hk, hpass, follow, (Ends.here hdir).reach_eq]
    exact ⟨m', rfl⟩

theorem find_stood (h : Site absolute names P d) (hp : Reads absolute (names ++ ns) path)
    (htext : path.text ≠ []) (hshort : path.text.length ≤ maxPath) (hstood : d.Stood P ns)
    (hs : wind ns = some s) : ∃ m, d.find path = .ok (.at (P ++ s) (.dir m)) := by
  rw [find_of_reads hp htext hshort]
  exact h.follow_stood hstood hs

/-- A path that goes on behind a walk by one name leads to that name in the directory. -/
theorem aims (h : Site absolute names P d) (hp : Reads absolute (names ++ (ns ++ [c])) path)
    (hshort : path.text.length ≤ maxPath) (hstood : d.Stood P ns) (hs : wind ns = some s)
    (hc : Ordinary c) : Aims d path (P ++ s) c := by
  obtain ⟨m, hfollow⟩ := h.follow_stood hstood hs
  rw [← List.append_assoc] at hp
  have hinside : P <+: P ++ s ++ [c] := (List.prefix_append P s).trans (List.prefix_append _ [c])
  exact aims_of_follow hp hshort hfollow hc.toNamed fun t => h.noLink hinside

end Site

end FileCourier.Disk
