import FileCourier.Proofs.Path.Joining
import Mathlib.Data.List.Infix

/-!
# Where paths lie by their spelling

The simplest spelling of a path has its steps up in front (`simple_normalOf`). So a path behind which
nothing steps up above it lies at or below it (`atOrBelow_join`), and what `isWithin` accepts lies at
or below a directory whose simplest spelling does not begin with a step up (`atOrBelow_of_isWithin`).
-/

namespace FileCourier.Path

variable {p q root : Path} {c : Bytes} {ns base : List Bytes} {n b : Normal} {absolute slashed : Bool}

/-! ## Names between slashes -/

theorem segment_of_mem_names (h : c ∈ p.names) : Segment c := by
  obtain ⟨text⟩ := p
  obtain ⟨hmem, hne⟩ := List.mem_filter.1 h
  refine ⟨by simpa using hne, ?_⟩
  clear h hne
  induction text generalizing c with
  | nil =>
    rw [List.mem_singleton.1 hmem]
    exact List.not_mem_nil
  | cons x t ih =>
    by_cases hx : x = slash
    · rw [hx, splitOn_slash_cons] at hmem
      rcases List.mem_cons.1 hmem with rfl | hmem
      · exact List.not_mem_nil
      · exact ih hmem
    · obtain ⟨piece, pieces, hpieces, hcons⟩ := exists_splitOn_cons hx t
      rw [hcons] at hmem
      rw [hpieces] at ih
      rcases List.mem_cons.1 hmem with rfl | hmem
      · exact List.not_mem_cons_of_ne_of_not_mem (Ne.symm hx) (ih List.mem_cons_self)
      · exact ih (List.mem_cons_of_mem _ hmem)

theorem subset_text_of_mem_names (h : c ∈ p.names) : c ⊆ p.text := by
  obtain ⟨text⟩ := p
  have hmem := (List.mem_filter.1 h).1
  clear h
  induction text generalizing c with
  | nil =>
    rw [List.mem_singleton.1 hmem]
    exact List.nil_subset _
  | cons x t ih =>
    by_cases hx : x = slash
    · rw [hx, splitOn_slash_cons] at hmem
      rcases List.mem_cons.1 hmem with rfl | hmem
      · exact List.nil_subset _
      · exact List.Subset.trans (ih hmem) (List.subset_cons_self _ _)
    · obtain ⟨piece, pieces, hpieces, hcons⟩ := exists_splitOn_cons hx t
      rw [hcons] at hmem
      rw [hpieces] at ih
      rcases List.mem_cons.1 hmem with rfl | hmem
      · exact List.cons_subset_cons x (ih List.mem_cons_self)
      · exact List.Subset.trans (ih (List.mem_cons_of_mem _ hmem)) (List.subset_cons_self _ _)

/-- The names of a path without NULs can be joined again. -/
theorem segments_of_no_nul (hnul : 0 ∉ p.text) : ∀ c ∈ p.names, Segment c ∧ 0 ∉ c :=
  fun _ hc => ⟨segment_of_mem_names hc, fun hzero => hnul (subset_text_of_mem_names hc hzero)⟩

/-! ## One more component -/

namespace Normal

/-- What one more component makes of the names. -/
inductive Pushed (n : Normal) : Bytes → List Bytes → Prop
  | stay {c : Bytes} : c = dot ∨ c = [] → Pushed n c n.names
  | stop : n.names = [] → n.absolute = true → Pushed n dotDot []
  | up : n.names = [] ∧ n.absolute = false ∨ n.names.getLast? = some dotDot →
      Pushed n dotDot (n.names ++ [dotDot])
  | back {above : List Bytes} {last : Bytes} : n.names = above ++ [last] → last ≠ dotDot →
      Pushed n dotDot above
  | name {c : Bytes} : c ≠ dot → c ≠ [] → c ≠ dotDot → Pushed n c (n.names ++ [c])

theorem pushed (n : Normal) (c : Bytes) : n.Pushed c (n.push c).names := by
  rw [push]
  split
  · exact .stay ‹_›
  rename_i hstay
  obtain ⟨hdot, hnil⟩ := not_or.1 hstay
  split
  · rename_i hup
    subst hup
    split
    · rename_i hnone
      have hnames := List.getLast?_eq_none_iff.1 hnone
      split
      · rw [hnames]
        exact .stop hnames ‹_›
      · rename_i habsolute
        have hup := Pushed.up (n := n) (.inl ⟨hnames, by simpa using habsolute⟩)
        rwa [hnames] at hup
    · rename_i last hlast
      split
      · exact .up (.inr (by rw [hlast, ‹last = dotDot›]))
      · obtain ⟨above, habove⟩ := List.getLast?_eq_some_iff.1 hlast
        dsimp only
        rw [habove, List.dropLast_concat]
        exact .back habove ‹_›
  · exact .name hdot hnil ‹_›

theorem Pushed.names_eq (h : n.Pushed c ns) : (n.push c).names = ns := by
  have hup : ¬(dotDot = dot ∨ dotDot = []) := by decide
  cases h with
  | stay hc => rw [push, if_pos hc]
  | stop hnames habsolute => rw [push, if_neg hup, if_pos rfl, hnames]; simp [habsolute, hnames]
  | up hstep =>
    rw [push, if_neg hup, if_pos rfl]
    rcases hstep with ⟨hnames, habsolute⟩ | hlast
    · simp [hnames, habsolute]
    · simp [hlast]
  | back hnames hlast =>
    rw [push, if_neg hup, if_pos rfl, hnames]
    simp [hlast]
  | name hdot hnil hne => rw [push, if_neg (not_or.2 ⟨hdot, hnil⟩), if_neg hne]

theorem absolute_push (n : Normal) (c : Bytes) : (n.push c).absolute = n.absolute := by
  rw [push]
  split
  · rfl
  split
  · split
    · split <;> rfl
    · split <;> rfl
  · rfl

/-- What does not step up above its beginning has not done so before. -/
theorem Pushed.not_mem (h : n.Pushed c ns) (hup : dotDot ∉ ns) : dotDot ∉ n.names := by
  cases h with
  | stay => exact hup
  | stop hnames =>
    rw [hnames]
    exact hup
  | up => exact absurd (List.mem_append_right _ List.mem_cons_self) hup
  | back hnames hlast =>
    rw [hnames]
    simpa using ⟨hup, Ne.symm hlast⟩
  | name => exact fun hmem => hup (List.mem_append_left _ hmem)

/-- Behind other names a component that does not step up above its beginning makes the same of the
names. -/
theorem Pushed.behind (h : n.Pushed c ns) (hrel : n.absolute = false) (hup : dotDot ∉ ns)
    (hb : b.names = base ++ n.names) : b.Pushed c (base ++ ns) := by
  cases h with
  | stay hc =>
    rw [← hb]
    exact .stay hc
  | stop _ habsolute => cases hrel.symm.trans habsolute
  | up => exact absurd (List.mem_append_right _ List.mem_cons_self) hup
  | back hnames hlast =>
    rw [hnames, ← List.append_assoc] at hb
    exact .back hb hlast
  | name hdot hnil hne =>
    rw [← List.append_assoc, ← hb]
    exact .name hdot hnil hne

/-- A simplified spelling: its steps up come first, and there are none behind the root. -/
structure Simple (n : Normal) : Prop where
  proper : ∀ c ∈ n.names, c ≠ [] ∧ c ≠ dot
  ups : ∃ k rest, n.names = List.replicate k dotDot ++ rest ∧ dotDot ∉ rest ∧
    (n.absolute = true → k = 0)

theorem simple_nil (absolute slashed : Bool) : (Normal.mk absolute [] slashed).Simple :=
  ⟨nofun, 0, [], rfl, nofun, fun _ => rfl⟩

theorem Simple.push (h : n.Simple) (c : Bytes) : (n.push c).Simple := by
  obtain ⟨k, rest, hups, hrest, hroot⟩ := h.ups
  have hpushed := n.pushed c
  have habsolute := n.absolute_push c
  generalize n.push c = after at hpushed habsolute ⊢
  generalize hnames : after.names = ns at hpushed
  have proper (hproper : ∀ x ∈ ns, x ≠ [] ∧ x ≠ dot)
      (hups : ∃ k rest, ns = List.replicate k dotDot ++ rest ∧ dotDot ∉ rest ∧
        (n.absolute = true → k = 0)) : after.Simple :=
    ⟨hnames ▸ hproper, by rwa [hnames, habsolute]⟩
  have behind {x : Bytes} (hx : x ≠ [] ∧ x ≠ dot) : ∀ y ∈ n.names ++ [x], y ≠ [] ∧ y ≠ dot := by
    intro y hy
    rcases List.mem_append.1 hy with hy | hy
    · exact h.proper y hy
    · rwa [List.mem_singleton.1 hy]
  cases hpushed with
  | stay => exact proper h.proper h.ups
  | stop => exact proper nofun ⟨0, [], rfl, nofun, fun _ => rfl⟩
  | up hstep =>
    -- There is a step up in front of it, or nothing.
    have hnil : rest = [] := by
      rcases hstep with ⟨hnone, -⟩ | hlast
      · rw [hnone] at hups
        exact (List.append_eq_nil_iff.1 hups.symm).2
      · by_contra hne
        apply hrest
        rw [hups, List.getLast?_append_of_ne_nil _ hne] at hlast
        exact List.mem_of_getLast? hlast
    subst hnil
    refine proper (behind (by decide)) ⟨k + 1, [], ?_, nofun, fun habs => ?_⟩
    · rw [hups, List.append_nil, List.append_nil, List.replicate_succ']
    · rcases hstep with ⟨-, hrel⟩ | hlast
      · cases hrel.symm.trans habs
      · rw [hups, hroot habs] at hlast
        cases hlast
  | @back above last hlast hne =>
    refine proper (fun x hx => h.proper x (hlast ▸ List.mem_append_left _ hx)) ?_
    rcases List.eq_nil_or_concat rest with rfl | ⟨rest, x, rfl⟩
    · rw [List.append_nil, hlast] at hups
      have hmem : last ∈ List.replicate k dotDot := hups ▸ List.mem_append_right _ List.mem_cons_self
      exact absurd (List.eq_of_mem_replicate hmem) hne
    · rw [List.concat_eq_append] at hups hrest
      rw [hlast, ← List.append_assoc] at hups
      obtain ⟨habove, -⟩ := List.append_inj' hups rfl
      exact ⟨k, rest, habove, fun hmem => hrest (List.mem_append_left _ hmem), hroot⟩
  | name hdot hnil hup =>
    refine proper (behind ⟨hnil, hdot⟩) ⟨k, rest ++ [c], ?_, ?_, hroot⟩
    · rw [hups, List.append_assoc]
    · simpa using ⟨hrest, Ne.symm hup⟩

end Normal

/-! ## All components -/

theorem absolute_foldl_push (ns : List Bytes) (n : Normal) :
    (ns.foldl Normal.push n).absolute = n.absolute := by
  induction ns generalizing n with
  | nil => rfl
  | cons c ns ih => exact (ih (n.push c)).trans (n.absolute_push c)

theorem simple_foldl_push (h : n.Simple) (ns : List Bytes) : (ns.foldl Normal.push n).Simple := by
  induction ns generalizing n with
  | nil => exact h
  | cons c ns ih => exact ih (h.push c)

theorem foldl_push_concat (n : Normal) (ns : List Bytes) (c : Bytes) :
    (ns ++ [c]).foldl Normal.push n = (ns.foldl Normal.push n).push c := List.foldl_append

/-- Behind other names, names that do not step up above them come to stand as they would alone. -/
theorem names_foldl_push (h : dotDot ∉ (ns.foldl Normal.push ⟨false, [], slashed⟩).names)
    (b : Normal) : (ns.foldl Normal.push b).names =
      b.names ++ (ns.foldl Normal.push ⟨false, [], slashed⟩).names := by
  induction ns using List.reverseRecOn with
  | nil => exact (List.append_nil _).symm
  | append_singleton ns c ih =>
    rw [foldl_push_concat] at h
    rw [foldl_push_concat, foldl_push_concat]
    have hpushed := (ns.foldl Normal.push ⟨false, [], slashed⟩).pushed c
    have hrel := absolute_foldl_push ns ⟨false, [], slashed⟩
    exact (hpushed.behind hrel h (ih (hpushed.not_mem h))).names_eq

/-- The simplified spelling of a path, the slash at its end left out. -/
def normalOf (p : Path) : Normal := p.names.foldl Normal.push ⟨p.isAbsolute, [], false⟩

theorem simple_normalOf (p : Path) : p.normalOf.Simple :=
  simple_foldl_push (Normal.simple_nil _ _) p.names

theorem absolute_normalOf (p : Path) : p.normalOf.absolute = p.isAbsolute :=
  absolute_foldl_push _ _

theorem names_normalOf_join (hq : q.isAbsolute = false) (hup : dotDot ∉ q.normalOf.names) :
    (p / q).normalOf.names = p.normalOf.names ++ q.normalOf.names := by
  rw [normalOf, hq] at hup
  rw [normalOf, names_join p hq, isAbsolute_join p hq, List.foldl_append, names_foldl_push hup,
    normalOf, normalOf, hq]

theorem mem_of_mem_foldl_push (h : c ∈ (ns.foldl Normal.push ⟨absolute, [], slashed⟩).names) :
    c ∈ ns ∨ c = dotDot := by
  induction ns using List.reverseRecOn with
  | nil => cases h
  | append_singleton ns x ih =>
    rw [foldl_push_concat] at h
    have hpushed := (ns.foldl Normal.push ⟨absolute, [], slashed⟩).pushed x
    generalize ns.foldl Normal.push ⟨absolute, [], slashed⟩ = n at ih h hpushed
    generalize (n.push x).names = after at h hpushed
    have before (hmem : c ∈ n.names) : c ∈ ns ++ [x] ∨ c = dotDot :=
      (ih hmem).imp_left (List.mem_append_left [x])
    cases hpushed with
    | stay => exact before h
    | stop => cases h
    | up =>
      rcases List.mem_append.1 h with h | h
      · exact before h
      · exact .inr (List.mem_singleton.1 h)
    | back hnames => exact before (hnames ▸ List.mem_append_left _ h)
    | name =>
      rcases List.mem_append.1 h with h | h
      · exact before h
      · exact .inl (List.mem_append_right _ h)

/-- The simplest spelling has the simplified names, or a single component when there are none. -/
theorem normal_eq_of_text (h : p.text ≠ []) : ∃ tail, (∀ c ∈ tail, c = []) ∧ p.normal =
    if p.normalOf.names = [] then [if p.isAbsolute then [slash] else dot]
    else (if p.isAbsolute then [[slash]] else []) ++ p.normalOf.names ++ tail := by
  have hempty : p.isEmpty = false := List.isEmpty_eq_false_iff.2 h
  have hfold : ∃ m : Normal, m.absolute = p.isAbsolute ∧ m.names = p.normalOf.names ∧
      p.normal = m.components := by
    rw [normal, hempty, if_neg Bool.false_ne_true]
    cases p.endsInSlash with
    | false =>
      rw [if_neg Bool.false_ne_true, List.append_nil]
      exact ⟨_, absolute_normalOf p, rfl, rfl⟩
    | true =>
      rw [if_pos rfl, foldl_push_concat]
      refine ⟨_, (Normal.absolute_push _ _).trans (absolute_normalOf p), ?_, rfl⟩
      exact Normal.Pushed.names_eq (.stay (.inr rfl))
  obtain ⟨m, habsolute, hnames, hnormal⟩ := hfold
  refine ⟨if m.slashed && m.names.getLast? != some dotDot then [[]] else [], ?_, ?_⟩
  · split
    · exact fun c hc => List.mem_singleton.1 hc
    · exact List.forall_mem_nil _
  · rw [hnormal, Normal.components, habsolute, hnames]
    simp only [List.isEmpty_iff]

theorem normal_nil : (Path.mk []).normal = [] := rfl

theorem head?_normal (h : p.text ≠ []) : p.normal.head? =
    if p.isAbsolute then some [slash] else some (p.normalOf.names.head?.getD dot) := by
  obtain ⟨tail, -, hnormal⟩ := normal_eq_of_text h
  rw [hnormal]
  cases hnames : p.normalOf.names <;> cases p.isAbsolute <;> rfl

theorem normal_ne_dot (h : ∀ c ∈ p.names, Ordinary c) (htext : p.text ≠ []) : p.normal ≠ [dot] := by
  have hfilter := filter_normal h htext
  intro hdot
  rw [hdot, List.filter_cons_of_pos (by decide), List.filter_nil] at hfilter
  cases habsolute : p.isAbsolute with
  | true =>
    rw [habsolute] at hfilter
    cases hfilter
  | false =>
    rw [habsolute, if_neg Bool.false_ne_true, List.nil_append] at hfilter
    exact (h dot (hfilter ▸ List.mem_cons_self)).ne_dot rfl

/-- Every simplest spelling but the dot is compared component by component. -/
theorem filter_normal_of_ne_dot (htext : p.text ≠ []) (hdot : p.normal ≠ [dot]) :
    p.normal.filter (fun c => !c.isEmpty) =
      (if p.isAbsolute then [[slash]] else []) ++ p.normalOf.names := by
  obtain ⟨tail, htail, hnormal⟩ := normal_eq_of_text htext
  have hkept : p.normalOf.names.filter (fun c => !c.isEmpty) = p.normalOf.names :=
    List.filter_eq_self.2 fun c hc => by simpa using ((simple_normalOf p).proper c hc).1
  have hdropped : tail.filter (fun c => !c.isEmpty) = [] :=
    List.filter_eq_nil_iff.2 fun c hc => by simp [htail c hc]
  rw [hnormal] at hdot ⊢
  split
  · rename_i hnil
    rw [if_pos hnil] at hdot
    cases habsolute : p.isAbsolute with
    | true =>
      rw [hnil]
      rfl
    | false =>
      rw [habsolute] at hdot
      exact absurd rfl hdot
  · rw [List.filter_append, List.filter_append, hkept, hdropped, List.append_nil]
    cases p.isAbsolute <;> rfl

/-! ## At or below -/

/-- The components of the simplest spelling, without the dot for the directory itself and without
what stands for a slash at the end. -/
def normalNames (p : Path) : List Bytes := p.normal.filter fun c => c ≠ [] ∧ c ≠ dot

theorem normalNames_eq (p : Path) :
    p.normalNames = (if p.isAbsolute then [[slash]] else []) ++ p.normalOf.names := by
  by_cases htext : p.text = []
  · obtain rfl : p = ⟨[]⟩ := congrArg Path.mk htext
    rfl
  obtain ⟨tail, htail, hnormal⟩ := normal_eq_of_text htext
  have hkept : p.normalOf.names.filter (fun c => c ≠ [] ∧ c ≠ dot) = p.normalOf.names :=
    List.filter_eq_self.2 fun c hc => by simpa using (simple_normalOf p).proper c hc
  have hdropped : tail.filter (fun c => c ≠ [] ∧ c ≠ dot) = [] :=
    List.filter_eq_nil_iff.2 fun c hc => by simp [htail c hc]
  rw [normalNames, hnormal]
  split
  · rename_i hnil
    rw [hnil]
    cases p.isAbsolute <;> rfl
  · rw [List.filter_append, List.filter_append, hkept, hdropped, List.append_nil]
    cases p.isAbsolute <;> rfl

theorem dotDot_mem_normalNames : dotDot ∈ p.normalNames ↔ dotDot ∈ p.normalOf.names := by
  rw [normalNames_eq, List.mem_append, or_iff_right]
  cases p.isAbsolute <;> decide

/-- By its spelling, the path is another one or goes on from there without a step up. -/
structure AtOrBelow (p root : Path) : Prop where
  isAbsolute_eq : p.isAbsolute = root.isAbsolute
  behind : ∃ rest, dotDot ∉ rest ∧ p.normalNames = root.normalNames ++ rest

/-- By its spelling, the path goes on from another one without a step up. -/
structure StrictlyBelow (p root : Path) : Prop extends AtOrBelow p root where
  ne : p.normalNames ≠ root.normalNames

theorem atOrBelow_iff : p.AtOrBelow root ↔ p.isAbsolute = root.isAbsolute ∧
    root.normalNames <+: p.normalNames ∧ dotDot ∉ p.normalNames.drop root.normalNames.length := by
  constructor
  · rintro ⟨habsolute, rest, hup, hnames⟩
    rw [hnames, List.drop_left]
    exact ⟨habsolute, List.prefix_append _ rest, hup⟩
  · rintro ⟨habsolute, ⟨rest, hnames⟩, hup⟩
    rw [← hnames, List.drop_left] at hup
    exact ⟨habsolute, rest, hup, hnames.symm⟩

instance : Decidable (AtOrBelow p root) := decidable_of_iff _ atOrBelow_iff.symm

instance : Decidable (StrictlyBelow p root) :=
  decidable_of_iff (p.AtOrBelow root ∧ p.normalNames ≠ root.normalNames)
    ⟨fun h => ⟨h.1, h.2⟩, fun h => ⟨h.toAtOrBelow, h.ne⟩⟩

theorem normalNames_join (hq : q.isAbsolute = false) (hup : dotDot ∉ q.normalNames) :
    (p / q).normalNames = p.normalNames ++ q.normalNames := by
  rw [dotDot_mem_normalNames] at hup
  rw [normalNames_eq, normalNames_eq, normalNames_eq, isAbsolute_join p hq,
    names_normalOf_join hq hup, hq, List.append_assoc]
  rfl

theorem atOrBelow_join (p : Path) (hq : q.isAbsolute = false) (hup : dotDot ∉ q.normalNames) :
    (p / q).AtOrBelow p :=
  ⟨isAbsolute_join p hq, q.normalNames, hup, normalNames_join hq hup⟩

theorem strictlyBelow_join (p : Path) (hq : q.isAbsolute = false) (hup : dotDot ∉ q.normalNames)
    (hne : q.normalNames ≠ []) : (p / q).StrictlyBelow p where
  toAtOrBelow := atOrBelow_join p hq hup
  ne heq := hne (by simpa [normalNames_join hq hup] using heq)

/-- A path whose last name is one that leads on does not come back to where it starts. -/
theorem normalNames_ne_nil (hnames : p.names = ns ++ [c]) (hdot : c ≠ dot) (hup : c ≠ dotDot) :
    p.normalNames ≠ [] := by
  have hc : c ≠ [] := (segment_of_mem_names (hnames ▸ List.mem_append_right ns List.mem_cons_self)).ne_nil
  rw [normalNames_eq, normalOf, hnames, foldl_push_concat, (Normal.Pushed.name hdot hc hup).names_eq]
  simp

theorem slash_not_mem_normalOf (p : Path) : [slash] ∉ p.normalOf.names := by
  intro hmem
  rcases mem_of_mem_foldl_push hmem with hmem | hmem
  · exact (segment_of_mem_names hmem).no_slash List.mem_cons_self
  · exact absurd hmem (by decide)

theorem isAbsolute_iff_head? (h : p.text ≠ []) :
    p.isAbsolute = true ↔ p.normal.head? = some [slash] := by
  rw [head?_normal h]
  cases p.isAbsolute with
  | true => simp
  | false =>
    simp only [Bool.false_eq_true, if_false, false_iff, Option.some.injEq]
    intro hhead
    cases hnames : p.normalOf.names with
    | nil =>
      rw [hnames] at hhead
      exact absurd hhead (by decide)
    | cons c ns =>
      rw [hnames] at hhead
      apply slash_not_mem_normalOf p
      rw [hnames, ← show c = [slash] from hhead]
      exact List.mem_cons_self

/-- A spelling that does not begin with a step up has none. -/
theorem dotDot_not_mem (htext : p.text ≠ []) (h : p.normal.head? ≠ some dotDot) :
    dotDot ∉ p.normalNames := by
  obtain ⟨k, rest, hups, hrest, hroot⟩ := (simple_normalOf p).ups
  rw [absolute_normalOf] at hroot
  rw [dotDot_mem_normalNames, hups]
  cases k with
  | zero => exact hrest
  | succ k =>
    exfalso
    rw [head?_normal htext] at h
    cases habsolute : p.isAbsolute with
    | true => cases hroot habsolute
    | false =>
      rw [habsolute, hups] at h
      exact h rfl

theorem atOrBelow_of_isWithin (h : p.isWithin root = true) (htext : root.text ≠ [])
    (hup : root.normal.head? ≠ some dotDot) : p.AtOrBelow root := by
  obtain ⟨more, hmore⟩ := List.isPrefixOf_iff_prefix.1 h
  have hfirst : ∃ c r, root.normal = c :: r ∧ c ≠ [] := by
    obtain ⟨tail, -, hnormal⟩ := normal_eq_of_text htext
    have hproper := (simple_normalOf root).proper
    rw [hnormal]
    cases hnames : root.normalOf.names with
    | nil => cases root.isAbsolute <;> exact ⟨_, _, rfl, by decide⟩
    | cons c ns =>
      rw [hnames] at hproper
      cases root.isAbsolute with
      | true => exact ⟨_, _, rfl, by decide⟩
      | false => exact ⟨c, _, rfl, (hproper c List.mem_cons_self).1⟩
  -- The root has a first component to compare, so the path starts as the root does.
  obtain ⟨c, r, hroot, hc⟩ := hfirst
  have hhead : p.normal.head? = root.normal.head? := by
    rw [hroot, List.filter_cons_of_pos (by simpa using hc)] at hmore
    rw [← hmore, hroot]
    rfl
  have hptext : p.text ≠ [] := by
    intro hnil
    obtain rfl : p = ⟨[]⟩ := congrArg Path.mk hnil
    rw [normal_nil, hroot] at hhead
    cases hhead
  refine ⟨?_, more.filter fun c => c ≠ [] ∧ c ≠ dot, fun hmem => ?_, ?_⟩
  · rw [Bool.eq_iff_iff, isAbsolute_iff_head? hptext, isAbsolute_iff_head? htext, hhead]
  · refine dotDot_not_mem hptext (hhead ▸ hup) ?_
    rw [normalNames, ← hmore, List.filter_append]
    exact List.mem_append_right _ hmem
  · rw [normalNames, ← hmore, List.filter_append, List.filter_filter, normalNames]
    refine congrArg (· ++ _) (List.filter_congr fun x _ => ?_)
    cases x <;> simp

end FileCourier.Path
