import FileCourier.LocalRoots
import FileCourier.Proofs.Path.Reading

/-!
# Paths that names are joined to

A relative path with single slashes between its names (`Normalised`) is spelled by its names, so
joining it to a path joins its names one by one (`join_normalised`). Joining makes a path longer by
at least the length of the name, and two joined paths with the same text were joined from the same
names (`along_inj`).
-/

namespace FileCourier.Path

variable {p q r : Path} {c : Bytes} {ns ms : List Bytes}

theorem along_cons (p : Path) (c : Bytes) (ns : List Bytes) : p.along (c :: ns) = (p / c).along ns :=
  rfl

theorem along_append (p : Path) (ns ms : List Bytes) : p.along (ns ++ ms) = (p.along ns).along ms :=
  List.foldl_append

theorem along_singleton (p : Path) (c : Bytes) : p.along [c] = p / c := rfl

theorem Proper.isAbsolute (h : Proper c) : (Path.mk c).isAbsolute = false := h.segment.isAbsolute

theorem Proper.names (h : Proper c) : (Path.mk c).names = [c] := h.segment.names

/-! ## Texts -/

theorem text_join_of_isEmpty (h : p.text = []) : (p / q).text = q.text := by
  rw [join_mk, join, show p.isEmpty = true from List.isEmpty_iff.2 h, Bool.or_true, if_pos rfl]

theorem text_join_of_slash (hp : p.text.getLast? = some slash) (hq : q.isAbsolute = false) :
    (p / q).text = p.text ++ q.text := by
  have hempty : p.isEmpty = false := by
    rw [isEmpty, List.isEmpty_eq_false_iff]
    rintro hnil
    rw [hnil] at hp
    cases hp
  rw [join_mk, join, hq, hempty, hp]
  rfl

theorem text_join_of_name (hne : p.text ≠ []) (hp : p.text.getLast? ≠ some slash)
    (hq : q.isAbsolute = false) : (p / q).text = p.text ++ slash :: q.text := by
  have hempty : p.isEmpty = false := List.isEmpty_eq_false_iff.2 hne
  rw [join_mk, join, hq, hempty, beq_eq_false_iff_ne.2 hp]
  rfl

/-- What joining puts between the two texts does not depend on the second one. -/
theorem exists_text_join (p : Path) : ∃ between, ∀ q : Path, q.isAbsolute = false →
    (p / q).text = p.text ++ (between ++ q.text) := by
  by_cases hempty : p.text = []
  · refine ⟨[], fun q _ => ?_⟩
    rw [text_join_of_isEmpty hempty, hempty]
    rfl
  by_cases hlast : p.text.getLast? = some slash
  · exact ⟨[], fun q hq => text_join_of_slash hlast hq⟩
  · exact ⟨[slash], fun q hq => text_join_of_name hempty hlast hq⟩

theorem le_length_join (p : Path) (hq : q.isAbsolute = false) :
    p.text.length + q.text.length ≤ (p / q).text.length := by
  obtain ⟨between, hjoin⟩ := exists_text_join p
  rw [hjoin q hq, List.length_append, List.length_append]
  omega

theorem text_join_ne_nil (p : Path) (hq : q.text ≠ []) : (p / q).text ≠ [] := by
  intro hnil
  have hlast := getLast?_join p hq
  rw [hnil] at hlast
  exact hq (List.getLast?_eq_none_iff.1 hlast.symm)

theorem text_join_ne_nil_left (hp : p.text ≠ []) (q : Path) : (p / q).text ≠ [] := by
  by_cases hq : q.text = []
  · obtain ⟨between, hjoin⟩ := exists_text_join p
    rw [hjoin q (by rw [isAbsolute, hq]; rfl)]
    exact List.append_ne_nil_of_left_ne_nil hp _
  · exact text_join_ne_nil p hq

/-- An empty path adds a slash, if none is there. -/
theorem getLast?_join_nil (hp : p.text ≠ []) : (p / Path.mk []).text.getLast? = some slash := by
  by_cases hlast : p.text.getLast? = some slash
  · rw [text_join_of_slash hlast rfl, List.append_nil]
    exact hlast
  · rw [text_join_of_name hp hlast rfl]
    exact List.getLast?_concat

theorem join_inj_right (hq : q.isAbsolute = false) (hr : r.isAbsolute = false)
    (h : p / q = p / r) : q = r := by
  obtain ⟨between, hjoin⟩ := exists_text_join p
  have htext : p.text ++ (between ++ q.text) = p.text ++ (between ++ r.text) := by
    rw [← hjoin q hq, ← hjoin r hr, h]
  obtain ⟨q⟩ := q
  obtain ⟨r⟩ := r
  exact congrArg Path.mk (List.append_cancel_left (List.append_cancel_left htext))

theorem join_assoc (p : Path) (hq : q.isAbsolute = false) (hne : q.text ≠ [])
    (hr : r.isAbsolute = false) : p / q / r = p / (q / r) := by
  have hqr : (q / r).isAbsolute = false := (isAbsolute_join q hr).trans hq
  obtain ⟨between, hjoin⟩ := exists_text_join p
  have hlast : (p / q).text.getLast? = q.text.getLast? := getLast?_join p hne
  have hsome : (p / q).text ≠ [] := by
    rw [hjoin q hq]
    exact List.append_ne_nil_of_right_ne_nil _ (List.append_ne_nil_of_right_ne_nil _ hne)
  have htext : (p / q / r).text = (p / (q / r)).text := by
    by_cases hslash : q.text.getLast? = some slash
    · rw [text_join_of_slash (hlast.trans hslash) hr, hjoin q hq, hjoin _ hqr,
        text_join_of_slash hslash hr]
      simp only [List.append_assoc]
    · rw [text_join_of_name hsome (by rwa [hlast]) hr, hjoin q hq, hjoin _ hqr,
        text_join_of_name hne hslash hr]
      simp only [List.append_assoc]
  exact congrArg Path.mk htext

/-! ## Paths along names -/

theorem no_nul_join (hp : 0 ∉ p.text) (hc : Proper c) : 0 ∉ (p / c).text :=
  (reads_join (q := ⟨c⟩) hp hc.plain).no_nul

theorem le_length_along (p : Path) (h : ∀ c ∈ ns, Proper c) :
    p.text.length + ns.length ≤ (p.along ns).text.length := by
  induction ns generalizing p with
  | nil => exact Nat.le_refl _
  | cons c ns ih =>
    have hc := h c List.mem_cons_self
    have hrest := ih (p / c) fun c' hc' => h c' (List.mem_cons_of_mem _ hc')
    have hjoin : p.text.length + c.length ≤ (p / c).text.length := le_length_join p hc.isAbsolute
    have hlength := List.length_pos_iff.2 hc.ne_nil
    rw [along_cons, List.length_cons]
    omega

theorem reads_along (hp : 0 ∉ p.text) (hns : ∀ c ∈ ns, Proper c) (hne : ns ≠ []) :
    Reads p.isAbsolute (p.names ++ ns) (p.along ns) := by
  obtain ⟨c, ns, rfl⟩ := List.exists_cons_of_ne_nil hne
  have hc := hns c List.mem_cons_self
  have hjoin : Reads p.isAbsolute (p.names ++ (Path.mk c).names) (p / Path.mk c) :=
    reads_join hp hc.plain
  rw [hc.names] at hjoin
  rw [List.append_cons]
  exact hjoin.along fun c' hc' => hns c' (List.mem_cons_of_mem _ hc')

theorem no_nul_along (hp : 0 ∉ p.text) (h : ∀ c ∈ ns, Proper c) : 0 ∉ (p.along ns).text := by
  induction ns generalizing p with
  | nil => exact hp
  | cons c ns ih =>
    exact ih (no_nul_join hp (h c List.mem_cons_self)) fun c' hc' => h c' (List.mem_cons_of_mem _ hc')

theorem along_inj (p : Path) (hns : ∀ c ∈ ns, Proper c) (hms : ∀ c ∈ ms, Proper c)
    (h : (p.along ns).names = (p.along ms).names) : ns = ms := by
  rw [names_along p fun c hc => (hns c hc).segment, names_along p fun c hc => (hms c hc).segment] at h
  exact List.append_cancel_left h

/-! ## Above the last name -/

theorem upToSlash_append {s : Bytes} (hs : s.getLast? = some slash) (hc : slash ∉ c) :
    upToSlash (s ++ c) = s := by
  have hname : ∀ x ∈ c.reverse, (x != slash) = true := fun x hx =>
    bne_iff_ne.2 fun heq => hc (heq ▸ List.mem_reverse.1 hx)
  obtain ⟨s, rfl⟩ := List.getLast?_eq_some_iff.1 hs
  rw [upToSlash, List.reverse_append, List.dropWhile_append_of_pos hname, List.reverse_append,
    List.reverse_singleton, List.singleton_append, List.dropWhile_cons_of_neg (by simp),
    List.reverse_cons, List.reverse_reverse]

theorem trimEnd_append_slash (s : Bytes) : trimEnd (s ++ [slash]) = trimEnd s := by
  rw [trimEnd, List.reverse_append, List.reverse_singleton, List.singleton_append,
    List.dropWhile_cons_of_pos (by simp), trimEnd]

/-- The path above a joined name has no slashes at its end, unless it is the root. -/
theorem parent_join (hc : Proper c) (hp : p.text ≠ []) :
    (p / c).parent = if trimEnd p.text = [] then ⟨[slash]⟩ else ⟨trimEnd p.text⟩ := by
  obtain ⟨s, hs, htrim, htext⟩ : ∃ s, s.getLast? = some slash ∧ trimEnd s = trimEnd p.text ∧
      (p / c).text = s ++ c := by
    by_cases hlast : p.text.getLast? = some slash
    · exact ⟨p.text, hlast, rfl, text_join_of_slash hlast hc.isAbsolute⟩
    · refine ⟨p.text ++ [slash], List.getLast?_concat, trimEnd_append_slash _, ?_⟩
      rw [List.append_assoc]
      exact text_join_of_name hp hlast hc.isAbsolute
  have hnames : (p / c).names.isEmpty = false := by
    have hjoin : (p / c).names = p.names ++ (Path.mk c).names := names_join p hc.isAbsolute
    rw [hjoin, hc.names]
    simp
  have hends : (p / c).endsInSlash = false := by
    have hlast : (p / c).text.getLast? = c.getLast? := getLast?_join (q := ⟨c⟩) p hc.ne_nil
    rw [endsInSlash, hlast, beq_eq_false_iff_ne.2 hc.plain.last, Bool.false_and]
  have hhead : ((p / c).text.reverse.dropWhile (· != slash)).reverse = s := by
    rw [htext]
    exact upToSlash_append hs hc.no_slash
  have hsome : s.isEmpty = false := by
    rw [List.isEmpty_eq_false_iff]
    rintro rfl
    cases hs
  rw [parent, hnames, if_neg (by decide), hends, if_neg (by decide), hhead]
  dsimp only
  rw [htrim, hsome, Bool.not_false, Bool.and_true]
  simp only [List.isEmpty_iff]

theorem length_trimEnd_le (s : Bytes) : (trimEnd s).length ≤ s.length := by
  obtain ⟨n, hs⟩ := exists_eq_trimEnd_append s
  rw [hs, List.length_append, ← hs]
  exact Nat.le_add_right _ _

theorem parent_join_of_last (hc : Proper c) (hp : p.text ≠ []) (hlast : p.text.getLast? ≠ some slash) :
    (p / c).parent = p := by
  rw [parent_join hc hp, trimEnd_of_last hlast, if_neg hp]

/-- The path above a joined name is read as the path it was joined to. -/
theorem reads_parent_join (hc : Proper c) (hp : p.text ≠ []) (hnul : 0 ∉ p.text) :
    Reads p.isAbsolute p.names (p / c).parent ∧ (p / c).parent.text ≠ [] ∧
      (p / c).parent.text.length ≤ p.text.length := by
  have hreads : Reads p.isAbsolute (p.names ++ [c]) (p / c) :=
    reads_along hnul (fun n hn => List.mem_singleton.1 hn ▸ hc) (List.cons_ne_nil c [])
  have hparent := parent_join hc hp
  have htext : (p / c).parent.text ≠ [] ∧ (p / c).parent.text.length ≤ p.text.length := by
    rw [hparent]
    split
    · exact ⟨List.cons_ne_nil _ _, List.length_pos_iff.2 hp⟩
    · exact ⟨‹_›, length_trimEnd_le _⟩
  exact ⟨hreads.parent (List.isEmpty_eq_false_iff.2 htext.1), htext⟩

/-! ## Normalised paths -/

theorem spell_cons (c : Bytes) (ns : List Bytes) :
    spell false (c :: ns) = (Path.mk c).along ns := by
  rw [spell, along_cons]
  have hfirst : (Path.mk [] : Path) / c = Path.mk c :=
    congrArg Path.mk (text_join_of_isEmpty (q := ⟨c⟩) rfl)
  exact congrArg (along · ns) hfirst

/-- Joining a path that was joined from names joins the names. -/
theorem join_along (p : Path) (hq : q.isAbsolute = false) (hne : q.text ≠ [])
    (h : ∀ c ∈ ns, Proper c) : p / q.along ns = (p / q).along ns := by
  induction ns generalizing q with
  | nil => rfl
  | cons c ns ih =>
    have hc := h c List.mem_cons_self
    have hqc : (q / c).isAbsolute = false := (isAbsolute_join q hc.isAbsolute).trans hq
    have hassoc : p / q / c = p / (q / c) := join_assoc p hq hne hc.isAbsolute
    rw [along_cons, along_cons, hassoc]
    exact ih hqc (text_join_ne_nil (q := ⟨c⟩) q hc.ne_nil) fun c' hc' => h c' (List.mem_cons_of_mem _ hc')

theorem join_spell (p : Path) (h : ∀ c ∈ ns, Proper c) (hne : ns ≠ []) :
    p / spell false ns = p.along ns := by
  obtain ⟨c, ns, rfl⟩ := List.exists_cons_of_ne_nil hne
  have hc := h c List.mem_cons_self
  rw [spell_cons]
  exact join_along p hc.isAbsolute hc.ne_nil fun c' hc' => h c' (List.mem_cons_of_mem _ hc')

theorem reads_spell (h : ∀ c ∈ ns, Proper c) (hne : ns ≠ []) : Reads false ns (spell false ns) :=
  reads_along (p := ⟨[]⟩) (by decide) h hne

theorem plain_spell (h : ∀ c ∈ ns, Proper c) (hne : ns ≠ []) : Plain (spell false ns) := by
  have hreads := reads_spell h hne
  refine ⟨hreads.isAbsolute_eq, by rwa [hreads.names_eq], fun hnil => ?_, hreads.last hne⟩
  have hnames := hreads.names_eq
  rw [Path.names, hnil] at hnames
  exact hne hnames.symm

/-- A relative path of proper names with single slashes between them. -/
structure Normalised (p : Path) : Prop extends Plain p where
  spell_names : spell false p.names = p

instance : Decidable (Normalised p) :=
  decidable_of_iff (Plain p ∧ spell false p.names = p)
    ⟨fun h => ⟨h.1, h.2⟩, fun h => ⟨h.toPlain, h.spell_names⟩⟩

theorem normalised_spell (h : ∀ c ∈ ns, Proper c) (hne : ns ≠ []) : Normalised (spell false ns) :=
  ⟨plain_spell h hne, by rw [(reads_spell h hne).names_eq]⟩

theorem join_normalised (p : Path) (hq : Normalised q) : p / q = p.along q.names := by
  conv => lhs; rw [← hq.spell_names]
  exact join_spell p hq.proper hq.names_ne_nil

/-- The text of names with a slash before each. -/
def behindSlashes (ns : List Bytes) : Bytes := ns.flatMap fun n => slash :: n

theorem text_along_of_name (hne : p.text ≠ []) (hlast : p.text.getLast? ≠ some slash)
    (h : ∀ c ∈ ns, Proper c) : (p.along ns).text = p.text ++ behindSlashes ns := by
  induction ns generalizing p with
  | nil => exact (List.append_nil _).symm
  | cons c ns ih =>
    have hc := h c List.mem_cons_self
    have hjoin : (p / c).text = p.text ++ slash :: c := text_join_of_name hne hlast hc.isAbsolute
    have hlast' : (p / c).text.getLast? ≠ some slash := fun hslash =>
      hc.plain.last ((getLast?_join (q := ⟨c⟩) p hc.ne_nil).symm.trans hslash)
    rw [along_cons,
      ih (text_join_ne_nil (q := ⟨c⟩) p hc.ne_nil) hlast' fun c' hc' => h c' (List.mem_cons_of_mem _ hc'),
      hjoin, List.append_assoc, behindSlashes, behindSlashes, List.flatMap_cons]

theorem text_spell_cons (h : ∀ n ∈ c :: ns, Proper n) :
    (spell false (c :: ns)).text = c ++ behindSlashes ns := by
  have hc := h c List.mem_cons_self
  rw [spell_cons]
  exact text_along_of_name hc.ne_nil hc.plain.last fun n hn => h n (List.mem_cons_of_mem _ hn)

theorem listed_cons (c : Bytes) (ns : List Bytes) :
    LocalRoots.listed (c :: ns) = c ++ behindSlashes ns := by
  induction ns generalizing c with
  | nil => rfl
  | cons n ns ih =>
    have hrest : LocalRoots.listed (c :: n :: ns) = c ++ slash :: LocalRoots.listed (n :: ns) := rfl
    rw [hrest, ih, behindSlashes, behindSlashes, List.flatMap_cons, List.cons_append]

theorem listed_singleton (c : Bytes) : LocalRoots.listed [c] = c := by
  rw [listed_cons, behindSlashes, List.flatMap_nil, List.append_nil]

/-- A path below a root is listed as it is spelled. -/
theorem listed_eq_spell (h : ∀ c ∈ ns, Proper c) : LocalRoots.listed ns = (spell false ns).text := by
  cases ns with
  | nil => rfl
  | cons c ns => rw [listed_cons, text_spell_cons h]

/-- A path joined from names between slashes is read along them. -/
theorem Reads.along_segments {absolute : Bool} (h : Reads absolute ns p)
    (hms : ∀ c ∈ ms, Segment c ∧ 0 ∉ c) : Reads absolute (ns ++ ms) (p.along ms) := by
  induction ms generalizing p ns with
  | nil => rwa [List.append_nil]
  | cons c ms ih =>
    obtain ⟨hc, hnul⟩ := hms c List.mem_cons_self
    rw [List.append_cons]
    exact ih (h.join_name hc hnul) fun c' hc' => hms c' (List.mem_cons_of_mem _ hc')

theorem listed_append (hns : ns ≠ []) (hms : ms ≠ []) :
    LocalRoots.listed (ns ++ ms) = LocalRoots.listed ns ++ slash :: LocalRoots.listed ms := by
  obtain ⟨c, ns, rfl⟩ := List.exists_cons_of_ne_nil hns
  obtain ⟨a, ms, rfl⟩ := List.exists_cons_of_ne_nil hms
  rw [List.cons_append, listed_cons, listed_cons, listed_cons, behindSlashes, List.flatMap_append,
    List.flatMap_cons, List.append_assoc]
  rfl

theorem names_listed (h : ∀ n ∈ ns, Segment n) : (Path.mk (LocalRoots.listed ns)).names = ns := by
  induction ns with
  | nil => rfl
  | cons c ns ih =>
    have hc := h c List.mem_cons_self
    have hone : (Path.mk (LocalRoots.listed [c])).names = [c] := by
      rw [listed_singleton]
      exact names_mk_of_no_slash hc.ne_nil hc.no_slash
    by_cases hne : ns = []
    · rw [hne]
      exact hone
    · rw [← List.singleton_append, listed_append (List.cons_ne_nil c []) hne,
        names_mk_append_slash, hone, ih fun n hn => h n (List.mem_cons_of_mem c hn)]

theorem listed_ne_nil (h : ∀ n ∈ ns, Segment n) (hne : ns ≠ []) : LocalRoots.listed ns ≠ [] := by
  intro htext
  have hnames := names_listed h
  rw [htext] at hnames
  exact hne hnames.symm

theorem getLast?_listed (h : ∀ n ∈ ns, Segment n) :
    (LocalRoots.listed ns).getLast? ≠ some slash := by
  rcases List.eq_nil_or_concat ns with rfl | ⟨above, c, rfl⟩
  · exact nofun
  · rw [List.concat_eq_append] at h ⊢
    have hc := h c (List.mem_append_right _ List.mem_cons_self)
    have hlast : c.getLast? ≠ some slash := fun hlast => hc.no_slash (List.mem_of_getLast? hlast)
    by_cases hne : above = []
    · rwa [hne, List.nil_append, listed_singleton]
    · rwa [listed_append hne (List.cons_ne_nil c []), listed_singleton, List.append_cons,
        getLast?_append_of_ne_nil _ hc.ne_nil]

theorem isAbsolute_listed (h : ∀ n ∈ ns, Segment n) :
    (Path.mk (LocalRoots.listed ns)).isAbsolute = false := by
  cases ns with
  | nil => rfl
  | cons c ns =>
    have hc := h c List.mem_cons_self
    obtain ⟨x, c, rfl⟩ := List.exists_cons_of_ne_nil hc.ne_nil
    have hx : x ≠ slash := fun heq => hc.no_slash (heq ▸ List.mem_cons_self)
    rw [listed_cons]
    simpa [isAbsolute] using hx

/-- What stands before a slash of a path as it is listed is such a path again. -/
theorem exists_listed_of_slash {before after : Bytes} (h : ∀ n ∈ ns, Segment n)
    (htext : LocalRoots.listed ns = before ++ slash :: after) :
    ∃ above, above ≠ [] ∧ above <+: ns ∧ before = LocalRoots.listed above := by
  induction ns generalizing before with
  | nil => exact absurd htext (List.append_ne_nil_of_right_ne_nil before (List.cons_ne_nil _ _)).symm
  | cons c ns ih =>
    have hc := h c List.mem_cons_self
    have first : ∃ above, above ≠ [] ∧ above <+: c :: ns ∧ c = LocalRoots.listed above :=
      ⟨[c], List.cons_ne_nil c [], List.prefix_append [c] ns, (listed_singleton c).symm⟩
    by_cases hne : ns = []
    · rw [hne, listed_singleton] at htext
      exact absurd (htext ▸ List.mem_append_right before List.mem_cons_self) hc.no_slash
    · rw [← List.singleton_append, listed_append (List.cons_ne_nil c []) hne,
        listed_singleton] at htext
      rcases List.append_eq_append_iff.1 htext with ⟨x, rfl, hx⟩ | ⟨x, rfl, hx⟩
      · cases x with
        | nil => rwa [List.append_nil]
        | cons y x =>
          -- The slash is one behind the first name.
          obtain ⟨rfl, hrest⟩ := List.cons.inj hx
          obtain ⟨above, habove, hpre, rfl⟩ :=
            ih (fun n hn => h n (List.mem_cons_of_mem c hn)) hrest
          refine ⟨c :: above, List.cons_ne_nil c above, List.cons_prefix_cons.2 ⟨rfl, hpre⟩, ?_⟩
          have happend := listed_append (List.cons_ne_nil c []) habove
          rw [listed_singleton] at happend
          exact happend.symm
      · cases x with
        | nil =>
          simp only [List.append_nil] at first ⊢
          exact first
        | cons y x =>
          obtain ⟨rfl, -⟩ := List.cons.inj hx
          exact absurd (List.mem_append_right before List.mem_cons_self) hc.no_slash

theorem trimEnd_append_replicate {s : Bytes} (hs : s.getLast? ≠ some slash) (k : Nat) :
    trimEnd (s ++ List.replicate k slash) = s := by
  induction k with
  | zero => rw [List.replicate_zero, List.append_nil, trimEnd_of_last hs]
  | succ k ih => rw [List.replicate_succ', ← List.append_assoc, trimEnd_append_slash, ih]

theorem length_behindSlashes (ns : List Bytes) : (behindSlashes ns).length = weight ns := by
  induction ns with
  | nil => rfl
  | cons n ns ih =>
    rw [behindSlashes, List.flatMap_cons, List.length_append, ← behindSlashes, ih, weight_cons,
      List.length_cons]

theorem Normalised.weight_names (h : Normalised p) : weight p.names = p.text.length + 1 := by
  obtain ⟨c, ns, hnames⟩ := List.exists_cons_of_ne_nil h.names_ne_nil
  have hproper := h.proper
  have hspell := h.spell_names
  rw [hnames] at hproper hspell ⊢
  rw [← hspell, text_spell_cons hproper, weight_cons, List.length_append, length_behindSlashes]
  omega

/-- No two slashes follow each other in a normalised path. -/
theorem Normalised.no_double_slash (h : Normalised p) (s t : Bytes) :
    p.text ≠ s ++ slash :: slash :: t := by
  intro htext
  have hnames : p.names = (Path.mk s).names ++ (Path.mk t).names := by
    rw [show p = Path.mk (s ++ slash :: slash :: t) from congrArg Path.mk htext, names_mk_append_slash]
    exact congrArg _ (names_mk_append_slash [] t)
  have hweight := h.weight_names
  have hs := weight_names_le (Path.mk s)
  have ht := weight_names_le (Path.mk t)
  rw [hnames, weight_append, htext, List.length_append, List.length_cons, List.length_cons] at hweight
  dsimp only at hs ht
  omega

theorem Normalised.strip?_eq_none (h : Normalised p) : VirtualPath.strip? p.text = none := by
  rw [Option.eq_none_iff_forall_not_mem]
  intro rest hrest
  have htext := VirtualPath.strip?_eq_some_iff.1 hrest
  exact h.no_double_slash "salt:" rest htext

end FileCourier.Path
