import FileCourier.Disk

/-!
# What stands where after a change

The entry of each place after `put`, `drop`, `clear` and `append`.
-/

namespace FileCourier.Disk

variable {d : Disk} {p q : Place} {e : Entry}

@[simp] theorem get?_nil (d : Disk) : d.get? [] = some (.dir openMode) := rfl

theorem ne_none_of_get? (h : d.get? p = some e) : d.get? p ≠ none := by
  rw [h]
  exact Option.some_ne_none e

theorem get?_of_ne_nil (h : p ≠ []) :
    d.get? p = (d.entries.find? fun e => e.1 == p).map (·.2) := if_neg h

theorem get?_filter_of_keep {keep : Place × Entry → Bool} (h : ∀ e, keep (q, e) = true) :
    ({ d with entries := d.entries.filter keep } : Disk).get? q = d.get? q := by
  by_cases hq : q = []
  · rw [hq, get?_nil, get?_nil]
  rw [get?_of_ne_nil hq, get?_of_ne_nil hq, List.find?_filter]
  congr 2
  funext x
  obtain ⟨place, e⟩ := x
  by_cases hx : place = q
  · subst hx
    simp [h e]
  · simp [hx]

theorem get?_filter_of_reject {keep : Place × Entry → Bool} (hq : q ≠ [])
    (h : ∀ e, keep (q, e) = false) :
    ({ d with entries := d.entries.filter keep } : Disk).get? q = none := by
  rw [get?_of_ne_nil hq, List.find?_filter, Option.map_eq_none_iff, List.find?_eq_none]
  rintro ⟨place, e⟩ _ hx
  obtain ⟨hkeep, hplace⟩ : keep (place, e) = true ∧ place = q := by simpa using hx
  rw [hplace, h e] at hkeep
  cases hkeep

theorem get?_drop_self (hp : p ≠ []) : (d.drop p).get? p = none :=
  get?_filter_of_reject hp fun _ => by simp

theorem get?_drop_of_ne (h : q ≠ p) : (d.drop p).get? q = d.get? q :=
  get?_filter_of_keep fun _ => by simpa using h

theorem get?_put_self (hp : p ≠ []) : (d.put p e).get? p = some e := by
  simp [get?_of_ne_nil hp, put]

theorem get?_put_of_ne (h : q ≠ p) : (d.put p e).get? q = d.get? q := by
  by_cases hq : q = []
  · rw [hq, get?_nil, get?_nil]
  have hput : (d.put p e).entries = (p, e) :: (d.drop p).entries := rfl
  rw [get?_of_ne_nil hq, hput, List.find?_cons_of_neg (by simpa using Ne.symm h),
    ← get?_of_ne_nil hq, get?_drop_of_ne h]

theorem put_put (d : Disk) (p : Place) (e e' : Entry) : (d.put p e).put p e' = d.put p e' := by
  simp [put, List.filter_filter]

theorem put_drop (d : Disk) (p : Place) (e : Entry) : (d.drop p).put p e = d.put p e := by
  simp [put, drop, List.filter_filter]

theorem drop_comm (d : Disk) (p q : Place) : (d.drop p).drop q = (d.drop q).drop p := by
  simp [drop, List.filter_filter, Bool.and_comm]

theorem get?_clear_of_below (h : p <+: q) (hne : q ≠ p) : (d.clear p).get? q = none := by
  have hq : q ≠ [] := fun e => hne (by rw [e] at h ⊢; exact (List.prefix_nil.1 h).symm)
  exact get?_filter_of_reject hq fun _ => by simpa [List.isPrefixOf_iff_prefix.2 h] using hne

theorem get?_clear_of_not_below (h : ¬(p <+: q ∧ q ≠ p)) : (d.clear p).get? q = d.get? q := by
  refine get?_filter_of_keep fun _ => ?_
  rw [← List.isPrefixOf_iff_prefix] at h
  by_cases hp : p.isPrefixOf q = true
  · simpa [hp] using h
  · simp [hp]

theorem get?_of_get?_clear (h : (d.clear p).get? q = some e) : d.get? q = some e := by
  by_cases hbelow : p <+: q ∧ q ≠ p
  · rw [get?_clear_of_below hbelow.1 hbelow.2] at h
    cases h
  · rwa [get?_clear_of_not_below hbelow] at h

theorem get?_of_get?_drop (h : (d.drop p).get? q = some e) (hp : p ≠ []) : d.get? q = some e := by
  by_cases hq : q = p
  · rw [hq, get?_drop_self hp] at h
    cases h
  · rwa [get?_drop_of_ne hq] at h

theorem children_clear (d : Disk) (p : Place) : (d.clear p).children p = [] := by
  rw [children, List.filterMap_eq_nil_iff]
  rintro ⟨place, e⟩ hmem
  have hkept : ¬(p <+: place ∧ place ≠ p) := by
    rintro ⟨hbelow, hne⟩
    have hkeep := (List.mem_filter.1 hmem).2
    rw [List.isPrefixOf_iff_prefix.2 hbelow, bne_iff_ne.2 hne] at hkeep
    cases hkeep
  cases place.getLast? with
  | none => rfl
  | some name =>
    refine if_neg ?_
    rintro rfl
    exact hkept ⟨List.prefix_append p [name], by simp⟩

theorem append_of_file {x : Bool} {s : Bytes} (h : d.get? p = some (.file x s)) (t : Bytes) :
    d.append p t = d.put p (.file x (s ++ t)) := by
  rw [append, h]

theorem ne_nil_of_file {x : Bool} {s : Bytes} (h : d.get? p = some (.file x s)) : p ≠ [] := by
  rintro rfl
  cases h

end FileCourier.Disk
