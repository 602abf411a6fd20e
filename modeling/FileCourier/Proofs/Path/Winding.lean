import FileCourier.Proofs.Path.Lexical

/-!
# Components that stay below a directory

A walk from a directory may step up again. `wind` says where it is, seen from that directory, as long
as it never leads above it. Such a walk stays below the directory also by its spelling
(`Reads.isWithin_of_wind`).
-/

namespace FileCourier.Path

variable {ns done s s' base : List Bytes} {c : Bytes} {p root : Path} {absolute : Bool}

/-- Where one more component leads from a place below the directory. -/
def windStep (s : List Bytes) (c : Bytes) : Option (List Bytes) :=
  if c = dot then some s
  else if c = dotDot then if s = [] then none else some s.dropLast
  else if Ordinary c then some (s ++ [c]) else none

/-- Where components lead that never lead above the directory. -/
def wind (comps : List Bytes) : Option (List Bytes) := comps.foldlM windStep []

/-- How one more component changes a place. -/
inductive Turning (s : List Bytes) : Bytes → List Bytes → Prop
  | dot : Turning s dot s
  | dotDot : s ≠ [] → Turning s dotDot s.dropLast
  | name {c : Bytes} : Ordinary c → Turning s c (s ++ [c])

theorem turning_of_windStep (h : windStep s c = some s') : Turning s c s' := by
  rw [windStep] at h
  split at h
  · rename_i hdot
    cases h
    exact hdot ▸ .dot
  split at h
  · rename_i hdotDot
    split at h
    · cases h
    · rename_i hne
      cases h
      exact hdotDot ▸ .dotDot hne
  split at h
  · rename_i hc
    cases h
    exact .name hc
  · cases h

theorem wind_concat (ns : List Bytes) (c : Bytes) :
    wind (ns ++ [c]) = (wind ns).bind fun s => windStep s c := by
  rw [wind, wind, List.foldlM_append]
  refine congrArg _ (funext fun s => ?_)
  exact bind_pure _

/-- The last component leads on from where the others lead. -/
theorem exists_turning (h : wind (ns ++ [c]) = some s') : ∃ s, wind ns = some s ∧ Turning s c s' := by
  rw [wind_concat] at h
  obtain ⟨s, hs, hstep⟩ := Option.bind_eq_some_iff.1 h
  exact ⟨s, hs, turning_of_windStep hstep⟩

theorem wind_of_prefix (hdone : done <+: ns) (h : wind ns = some s) : ∃ s', wind done = some s' := by
  obtain ⟨rest, rfl⟩ := hdone
  rw [wind, List.foldlM_append] at h
  obtain ⟨s', hs', -⟩ := Option.bind_eq_some_iff.1 h
  exact ⟨s', hs'⟩

theorem Turning.ordinary (h : Turning s c s') (hs : ∀ n ∈ s, Ordinary n) : ∀ n ∈ s', Ordinary n := by
  cases h with
  | dot => exact hs
  | dotDot => exact fun n hn => hs n (List.mem_of_mem_dropLast hn)
  | name hc =>
    intro n hn
    rcases List.mem_append.1 hn with hn | hn
    · exact hs n hn
    · rwa [List.mem_singleton.1 hn]

theorem ordinary_of_wind (h : wind ns = some s) : ∀ n ∈ s, Ordinary n := by
  induction ns using List.reverseRecOn generalizing s with
  | nil =>
    cases h
    exact nofun
  | append_singleton ns c ih =>
    obtain ⟨s₁, hs₁, hturn⟩ := exists_turning h
    exact hturn.ordinary (ih hs₁)

/-- A component of a walk is a name between slashes. -/
theorem Turning.segment (h : Turning s c s') : c ≠ [] ∧ slash ∉ c ∧ 0 ∉ c := by
  cases h with
  | dot | dotDot => decide
  | name hc => exact ⟨hc.ne_nil, hc.no_slash, hc.no_nul⟩

theorem segment_of_wind (h : wind ns = some s) : ∀ c ∈ ns, c ≠ [] ∧ slash ∉ c ∧ 0 ∉ c := by
  induction ns using List.reverseRecOn generalizing s with
  | nil => exact nofun
  | append_singleton ns c ih =>
    obtain ⟨s₁, hs₁, hturn⟩ := exists_turning h
    intro x hx
    rcases List.mem_append.1 hx with hx | hx
    · exact ih hs₁ x hx
    · rw [List.mem_singleton.1 hx]
      exact hturn.segment

/-- The places that a walk along components comes by. -/
def visited (comps : List Bytes) : List (List Bytes) := comps.inits.filterMap wind

theorem mem_visited : s ∈ visited ns ↔ ∃ done, done <+: ns ∧ wind done = some s := by
  rw [visited, List.mem_filterMap]
  exact exists_congr fun done => and_congr_left fun _ => List.mem_inits done ns

theorem wind_concat_of_ordinary (h : wind ns = some s) (hc : Ordinary c) :
    wind (ns ++ [c]) = some (s ++ [c]) := by
  rw [wind_concat, h]
  exact (if_neg hc.ne_dot).trans ((if_neg hc.ne_dotDot).trans (if_pos hc))

/-- A walk along names does not wind. -/
theorem wind_of_ordinary (h : ∀ n ∈ ns, Ordinary n) : wind ns = some ns := by
  induction ns using List.reverseRecOn with
  | nil => rfl
  | append_singleton ns n ih =>
    have hwind := ih fun a ha => h a (List.mem_append_left _ ha)
    exact wind_concat_of_ordinary hwind (h n (List.mem_append_right _ List.mem_cons_self))

/-- A walk that goes on by a name comes by it. -/
theorem mem_visited_of_wind (h : wind done = some s) (hc : Ordinary c) (rest : List Bytes) :
    s ++ [c] ∈ visited (done ++ c :: rest) :=
  mem_visited.2 ⟨done ++ [c], ⟨rest, List.append_cons done c rest ▸ rfl⟩,
    wind_concat_of_ordinary h hc⟩

theorem visited_subset_concat (h : s ∈ visited ns) (c : Bytes) : s ∈ visited (ns ++ [c]) := by
  obtain ⟨done, hdone, hs⟩ := mem_visited.1 h
  exact mem_visited.2 ⟨done, hdone.trans (List.prefix_append ns [c]), hs⟩

/-- A walk comes by all places on the way to a place that it comes by. -/
theorem mem_visited_of_prefix (h : s ∈ visited ns) (hs' : s' <+: s) : s' ∈ visited ns := by
  induction ns using List.reverseRecOn generalizing s with
  | nil =>
    obtain ⟨done, hdone, hs⟩ := mem_visited.1 h
    obtain rfl := List.prefix_nil.1 hdone
    cases hs
    obtain rfl := List.prefix_nil.1 hs'
    exact h
  | append_singleton ns c ih =>
    obtain ⟨done, hdone, hs⟩ := mem_visited.1 h
    rcases List.prefix_concat_iff.1 hdone with rfl | hdone
    · obtain ⟨s₁, hs₁, hturn⟩ := exists_turning hs
      have hmem : s₁ ∈ visited ns := mem_visited.2 ⟨ns, List.prefix_refl ns, hs₁⟩
      cases hturn with
      | dot => exact visited_subset_concat (ih hmem hs') _
      | dotDot => exact visited_subset_concat (ih hmem (hs'.trans (List.dropLast_prefix s₁))) _
      | name =>
        rcases List.prefix_concat_iff.1 hs' with rfl | hs'
        · exact h
        · exact visited_subset_concat (ih hmem hs') c
    · exact visited_subset_concat (ih (mem_visited.2 ⟨done, hdone, hs⟩) hs') c

/-! ## By their spelling -/

theorem Turning.push (h : Turning s c s') (hs : ∀ n ∈ s, Ordinary n) (base : List Bytes)
    (absolute slashed : Bool) :
    ∃ slashed', Normal.push ⟨absolute, base ++ s, slashed⟩ c = ⟨absolute, base ++ s', slashed'⟩ := by
  cases h with
  | dot => exact ⟨_, if_pos (.inl rfl)⟩
  | name hc =>
    refine ⟨false, ?_⟩
    rw [Normal.push, if_neg (not_or.2 ⟨hc.ne_dot, hc.ne_nil⟩), if_neg hc.ne_dotDot,
      List.append_assoc]
  | dotDot hne =>
    have hlast := hs _ (List.getLast_mem hne)
    have hget : (base ++ s).getLast? = some (s.getLast hne) := by
      rw [List.getLast?_append_of_ne_nil _ hne, List.getLast?_eq_some_getLast hne]
    have hdotDot : ¬(Path.dotDot = Path.dot ∨ Path.dotDot = []) := by decide
    refine ⟨!(base ++ s.dropLast).isEmpty, ?_⟩
    rw [Normal.push, if_neg hdotDot, if_pos rfl, hget]
    dsimp only
    rw [if_neg hlast.ne_dotDot, List.dropLast_append_of_ne_nil hne]

theorem exists_foldl_push (h : wind ns = some s) (base : List Bytes) (absolute slashed : Bool) : ∃ slashed',
      ns.foldl Normal.push ⟨absolute, base, slashed⟩ = ⟨absolute, base ++ s, slashed'⟩ := by
  induction ns using List.reverseRecOn generalizing s with
  | nil =>
    cases h
    exact ⟨slashed, by rw [List.append_nil]; rfl⟩
  | append_singleton ns c ih =>
    obtain ⟨s₁, hs₁, hturn⟩ := exists_turning h
    obtain ⟨slashed₁, hfold⟩ := ih hs₁
    obtain ⟨slashed', hpush⟩ := hturn.push (ordinary_of_wind hs₁) base absolute slashed₁
    exact ⟨slashed', by rw [List.foldl_append, hfold]; exact hpush⟩

/-- A path that winds below another one and ends in a name lies below it by its spelling, unless that
spelling is the dot, which no other begins with. -/
theorem Reads.isWithin_of_wind (htext : root.text ≠ []) (hdot : root.normal ≠ [dot])
    (h : Reads root.isAbsolute (root.names ++ (ns ++ [c])) p) (hs : wind ns = some s)
    (hc : Ordinary c) : p.isWithin root = true := by
  obtain ⟨slashed, hfold⟩ :=
    exists_foldl_push (wind_concat_of_ordinary hs hc) root.normalOf.names root.isAbsolute
      root.normalOf.slashed
  have hnames : p.normalOf.names = root.normalOf.names ++ (s ++ [c]) := by
    have hroot : root.normalOf =
        ⟨root.isAbsolute, root.normalOf.names, root.normalOf.slashed⟩ := by
      rw [← absolute_normalOf root]
    rw [normalOf, h.names_eq, h.isAbsolute_eq, List.foldl_append, ← normalOf, hroot, hfold]
  obtain ⟨tail, -, hp⟩ := normal_eq_of_text (h.text_ne_nil (by simp))
  rw [hnames, if_neg (by simp), h.isAbsolute_eq] at hp
  rw [Path.isWithin, filter_normal_of_ne_dot htext hdot, hp, List.isPrefixOf_iff_prefix]
  simp only [List.append_assoc]
  exact (List.prefix_append_right_inj _).2 (List.prefix_append _ _)

/-- A path joined from the components of a walk is read along them. -/
theorem Reads.along_of_wind (h : Reads absolute base p) (hs : wind ns = some s) :
    Reads absolute (base ++ ns) (p.along ns) :=
  h.along_segments fun c hc =>
    have hsegment := segment_of_wind hs c hc
    ⟨⟨hsegment.1, hsegment.2.1⟩, hsegment.2.2⟩

end FileCourier.Path
