import FileCourier.Proofs.Disk.Walk

/-!
# Names of paths as they are written

The names of a text around a slash are those of its two parts, so joining appends names
(`names_join`) and taking the parent drops the last (`Spells.parent`). `spell` is the shortest path
with given names.
-/

namespace FileCourier.Path

variable {p q : Path} {s t c : Bytes} {absolute : Bool} {ns : List Bytes}

/-! ## Pieces between slashes -/

theorem names_mk_append_slash (s t : Bytes) :
    (mk (s ++ slash :: t)).names = (mk s).names ++ (mk t).names := by
  have hpieces : (s ++ slash :: t).splitOn slash = s.splitOn slash ++ t.splitOn slash := by
    simp only [List.splitOn_eq_splitOnP]
    exact List.splitOnP_append_cons s t (beq_self_eq_true slash)
  rw [names, names, names, hpieces, List.filter_append]

theorem names_mk_of_no_slash (hne : c ≠ []) (h : slash ∉ c) : (mk c).names = [c] := by
  have hpieces : c.splitOn slash = [c] := by
    rw [List.splitOn_eq_splitOnP]
    exact List.splitOnP_eq_singleton fun x hx => beq_eq_false_iff_ne.2 fun e => h (e ▸ hx)
  rw [names, hpieces, List.filter_cons_of_pos (by simpa using hne), List.filter_nil]

theorem names_append_replicate_slash (s : Bytes) (n : Nat) :
    (mk (s ++ List.replicate n slash)).names = (mk s).names := by
  induction n with
  | zero => rw [List.replicate_zero, List.append_nil]
  | succ n ih =>
    rw [List.replicate_succ', ← List.append_assoc, names_mk_append_slash, ih]
    exact List.append_nil _

theorem splitOn_slash_cons (t : Bytes) : (slash :: t).splitOn slash = [] :: t.splitOn slash := by
  rw [List.splitOn_eq_splitOnP, List.splitOnP_cons_eq_if_modifyHead,
    if_pos (beq_self_eq_true slash), List.splitOn_eq_splitOnP]

/-- A byte that is no slash begins the first piece. -/
theorem exists_splitOn_cons {x : UInt8} (hx : x ≠ slash) (t : Bytes) :
    ∃ piece pieces, t.splitOn slash = piece :: pieces ∧
      (x :: t).splitOn slash = (x :: piece) :: pieces := by
  have hne : t.splitOn slash ≠ [] := by
    rw [List.splitOn_eq_splitOnP]
    exact List.splitOnP_ne_nil (· == slash) t
  obtain ⟨piece, pieces, hpieces⟩ := List.exists_cons_of_ne_nil hne
  refine ⟨piece, pieces, hpieces, ?_⟩
  rw [List.splitOn_eq_splitOnP] at hpieces ⊢
  rw [List.splitOnP_cons_eq_if_modifyHead, if_neg (by simpa using hx), hpieces,
    List.modifyHead_cons]

/-- So many bytes are needed for names and a slash behind each. -/
def weight (ns : List Bytes) : Nat := total (fun n => n.length + 1) ns

theorem weight_cons (n : Bytes) (ns : List Bytes) : weight (n :: ns) = n.length + 1 + weight ns :=
  rfl

theorem weight_append (ns rest : List Bytes) : weight (ns ++ rest) = weight ns + weight rest :=
  total_append _ ns rest

theorem weight_splitOn (t : Bytes) : weight (t.splitOn slash) = t.length + 1 := by
  induction t with
  | nil => rfl
  | cons x t ih =>
    by_cases hx : x = slash
    · rw [hx, splitOn_slash_cons, weight_cons, ih, List.length_nil, List.length_cons]
      omega
    · obtain ⟨piece, pieces, hpieces, hcons⟩ := exists_splitOn_cons hx t
      rw [hpieces, weight_cons] at ih
      rw [hcons, weight_cons, List.length_cons, List.length_cons]
      omega

theorem weight_filter_le (keep : Bytes → Bool) (ns : List Bytes) :
    weight (ns.filter keep) ≤ weight ns := by
  induction ns with
  | nil => exact Nat.le_refl _
  | cons n ns ih =>
    rw [List.filter_cons]
    split
    · exact Nat.add_le_add_left ih _
    · exact Nat.le_trans ih (Nat.le_add_left _ _)

/-- A text has room for its names, a slash behind each but the last, and one before them when it is
absolute. -/
theorem weight_names_le (p : Path) :
    weight p.names + (if p.isAbsolute then 1 else 0) ≤ p.text.length + 1 := by
  obtain ⟨text⟩ := p
  rw [← weight_splitOn, names]
  split
  · rename_i habsolute
    cases text with
    | nil => cases habsolute
    | cons x t =>
      obtain rfl : x = slash := by simpa [isAbsolute] using habsolute
      rw [splitOn_slash_cons, List.filter_cons_of_neg (by decide)]
      exact Nat.le_trans (Nat.add_le_add_right (weight_filter_le _ _) 1)
        (Nat.le_of_eq (Nat.add_comm _ _))
  · exact weight_filter_le _ _

/-- A byte that is no slash stands in a name. -/
theorem exists_mem_names {x : UInt8} (hx : x ≠ slash) (h : x ∈ p.text) :
    ∃ n ∈ p.names, x ∈ n := by
  obtain ⟨text⟩ := p
  have hpiece : ∃ piece ∈ text.splitOn slash, x ∈ piece := by
    induction text with
    | nil => cases h
    | cons y t ih =>
      by_cases hy : y = slash
      · rcases List.mem_cons.1 h with hxy | h
        · exact absurd (hxy.trans hy) hx
        · obtain ⟨piece, hmem, hxp⟩ := ih h
          rw [hy, splitOn_slash_cons]
          exact ⟨piece, List.mem_cons_of_mem _ hmem, hxp⟩
      · obtain ⟨piece, pieces, hpieces, hcons⟩ := exists_splitOn_cons hy t
        rw [hcons]
        rcases List.mem_cons.1 h with rfl | h
        · exact ⟨x :: piece, List.mem_cons_self, List.mem_cons_self⟩
        · obtain ⟨n, hn, hxn⟩ := ih h
          rw [hpieces] at hn
          rcases List.mem_cons.1 hn with rfl | hn
          · exact ⟨y :: n, List.mem_cons_self, List.mem_cons_of_mem _ hxn⟩
          · exact ⟨n, List.mem_cons_of_mem _ hn, hxn⟩
  obtain ⟨piece, hmem, hxp⟩ := hpiece
  refine ⟨piece, List.mem_filter.2 ⟨hmem, ?_⟩, hxp⟩
  cases piece with
  | nil => cases hxp
  | cons => rfl

/-! ## Joining -/

theorem join_mk (p q : Path) : p / q = join p q := rfl

theorem names_join (p : Path) (h : q.isAbsolute = false) : (p / q).names = p.names ++ q.names := by
  obtain ⟨s⟩ := p
  obtain ⟨t⟩ := q
  rw [join_mk, join, h, Bool.false_or]
  split
  · rename_i hempty
    obtain rfl : s = [] := by simpa [isEmpty] using hempty
    rfl
  · split
    · rename_i hlast
      obtain ⟨u, rfl⟩ := List.getLast?_eq_some_iff.1 (eq_of_beq hlast)
      have hslash : (mk (u ++ [slash])).names = (mk u).names :=
        (names_mk_append_slash u []).trans (List.append_nil _)
      rw [hslash, List.append_assoc]
      exact names_mk_append_slash u t
    · exact names_mk_append_slash s t

theorem isAbsolute_join (p : Path) (h : q.isAbsolute = false) :
    (p / q).isAbsolute = p.isAbsolute := by
  obtain ⟨s⟩ := p
  rw [join_mk, join, h, Bool.false_or]
  cases s with
  | nil => exact h
  | cons x s =>
    simp only [isEmpty, List.isEmpty_cons, Bool.false_eq_true, if_false]
    split <;> rfl

theorem getLast?_append_of_ne_nil (s : Bytes) (h : t ≠ []) :
    (s ++ t).getLast? = t.getLast? := by
  rw [List.getLast?_append, Option.or_of_isSome]
  rwa [List.getLast?_isSome]

theorem getLast?_join (p : Path) (h : q.text ≠ []) :
    (p / q).text.getLast? = q.text.getLast? := by
  rw [join_mk, join]
  split
  · rfl
  · split
    · exact getLast?_append_of_ne_nil _ h
    · exact (getLast?_append_of_ne_nil p.text (List.cons_ne_nil _ _)).trans
        (getLast?_append_of_ne_nil [slash] h)

theorem length_join_le (p q : Path) : (p / q).text.length ≤ p.text.length + q.text.length + 1 := by
  rw [join_mk, join]
  split
  · omega
  · split
    · rw [List.length_append]
      omega
    · rw [List.length_append, List.length_cons]
      omega

/-! ## Slashes at the end -/

theorem getLast?_trimEnd (s : Bytes) : (trimEnd s).getLast? ≠ some slash := by
  intro h
  rw [trimEnd, List.getLast?_reverse] at h
  have hhead := List.head?_dropWhile_not (· == slash) s.reverse
  rw [h] at hhead
  cases hhead

theorem exists_eq_trimEnd_append (s : Bytes) : ∃ n, s = trimEnd s ++ List.replicate n slash := by
  refine ⟨(s.reverse.takeWhile (· == slash)).length, ?_⟩
  have hslashes : s.reverse.takeWhile (· == slash) =
      List.replicate (s.reverse.takeWhile (· == slash)).length slash :=
    List.eq_replicate_of_mem fun x hx => eq_of_beq (List.all_eq_true.1 List.all_takeWhile x hx)
  rw [trimEnd, ← List.reverse_inj, List.reverse_append, List.reverse_reverse,
    List.reverse_replicate, ← hslashes, List.takeWhile_append_dropWhile]

theorem trimEnd_of_last (h : s.getLast? ≠ some slash) : trimEnd s = s := by
  obtain ⟨n, hn⟩ := exists_eq_trimEnd_append s
  cases n with
  | zero =>
    rw [List.replicate_zero, List.append_nil] at hn
    exact hn.symm
  | succ n =>
    rw [List.replicate_succ', ← List.append_assoc] at hn
    rw [hn, List.getLast?_concat] at h
    exact absurd rfl h

theorem names_trimEnd (s : Bytes) : (mk (trimEnd s)).names = (mk s).names := by
  obtain ⟨n, hn⟩ := exists_eq_trimEnd_append s
  have hnames := names_append_replicate_slash (trimEnd s) n
  rw [← hn] at hnames
  exact hnames.symm

/-! ## Ordinary names -/

/-- A name between slashes. -/
structure Segment (n : Bytes) : Prop where
  ne_nil : n ≠ []
  no_slash : slash ∉ n

theorem segment_iff : Segment c ↔ c ≠ [] ∧ slash ∉ c :=
  ⟨fun h => ⟨h.ne_nil, h.no_slash⟩, fun ⟨ne_nil, no_slash⟩ => ⟨ne_nil, no_slash⟩⟩

instance : Decidable (Segment c) := decidable_of_iff _ segment_iff.symm

theorem Segment.isAbsolute (h : Segment c) : (Path.mk c).isAbsolute = false := by
  obtain ⟨x, c, rfl⟩ := List.exists_cons_of_ne_nil h.ne_nil
  have hx : x ≠ slash := fun e => h.no_slash (e ▸ List.mem_cons_self)
  simpa [Path.isAbsolute] using hx

theorem Segment.names (h : Segment c) : (Path.mk c).names = [c] :=
  names_mk_of_no_slash h.ne_nil h.no_slash

/-- A name that a file or directory can have. -/
structure Ordinary (c : Bytes) : Prop extends Disk.Named c where
  ne_nil : c ≠ []
  no_slash : slash ∉ c
  no_nul : 0 ∉ c

theorem Ordinary.segment (h : Ordinary c) : Segment c := ⟨h.ne_nil, h.no_slash⟩

theorem ordinary_iff : Ordinary c ↔
    (c ≠ dot ∧ c ≠ dotDot ∧ c.length ≤ Disk.maxName) ∧ c ≠ [] ∧ slash ∉ c ∧ 0 ∉ c :=
  ⟨fun h => ⟨⟨h.ne_dot, h.ne_dotDot, h.short⟩, h.ne_nil, h.no_slash, h.no_nul⟩,
    fun ⟨⟨ne_dot, ne_dotDot, short⟩, ne_nil, no_slash, no_nul⟩ =>
      ⟨⟨ne_dot, ne_dotDot, short⟩, ne_nil, no_slash, no_nul⟩⟩

instance : Decidable (Ordinary c) := decidable_of_iff _ ordinary_iff.symm

theorem Ordinary.isAbsolute (h : Ordinary c) : (Path.mk c).isAbsolute = false :=
  h.segment.isAbsolute

theorem Ordinary.names (h : Ordinary c) : (Path.mk c).names = [c] := h.segment.names

theorem no_nul_of_names (h : ∀ n ∈ p.names, Ordinary n) : 0 ∉ p.text := by
  intro hnul
  obtain ⟨n, hn, hnul⟩ := exists_mem_names (by decide) hnul
  exact (h n hn).no_nul hnul

/-- The names make up a path that ends in the last of them and is not too long. -/
structure Spells (absolute : Bool) (ns : List Bytes) (p : Path) : Prop where
  isAbsolute_eq : p.isAbsolute = absolute
  names_eq : p.names = ns
  last : p.text.getLast? ≠ some slash
  short : p.text.length ≤ Disk.maxPath

theorem Spells.endsInSlash (h : Spells absolute ns p) : p.endsInSlash = false := by
  rw [Path.endsInSlash, beq_eq_false_iff_ne.2 h.last, Bool.false_and]

theorem Spells.components (h : Spells absolute ns p) :
    p.components = (if absolute then [[slash]] else []) ++ ns := by
  rw [Path.components, h.isAbsolute_eq, h.names_eq, h.endsInSlash]
  exact List.append_nil _

/-- A relative path of ordinary names that ends in a name. -/
structure Relative (p : Path) : Prop where
  isAbsolute_eq : p.isAbsolute = false
  ordinary : ∀ n ∈ p.names, Ordinary n
  text_ne_nil : p.text ≠ []
  last : p.text.getLast? ≠ some slash

theorem relative_iff : Relative p ↔ p.isAbsolute = false ∧ (∀ n ∈ p.names, Ordinary n) ∧
    p.text ≠ [] ∧ p.text.getLast? ≠ some slash :=
  ⟨fun h => ⟨h.isAbsolute_eq, h.ordinary, h.text_ne_nil, h.last⟩, fun ⟨h₁, h₂, h₃, h₄⟩ =>
    ⟨h₁, h₂, h₃, h₄⟩⟩

instance : Decidable (Relative p) := decidable_of_iff _ relative_iff.symm

/-- The path that names lead to from another. -/
def along (p : Path) (ns : List Bytes) : Path := ns.foldl (fun (p : Path) (n : Bytes) => p / n) p

/-- The path that is made by joining names. -/
def spell (absolute : Bool) (ns : List Bytes) : Path := along ⟨if absolute then [slash] else []⟩ ns

theorem spell_append_singleton (absolute : Bool) (ns : List Bytes) (c : Bytes) :
    spell absolute (ns ++ [c]) = spell absolute ns / c := List.foldl_append

theorem names_along (p : Path) (h : ∀ n ∈ ns, Segment n) : (along p ns).names = p.names ++ ns := by
  induction ns generalizing p with
  | nil => exact (List.append_nil _).symm
  | cons n ns ih =>
    have hn := h n List.mem_cons_self
    have hjoin : (p / n).names = p.names ++ (mk n).names := names_join p hn.isAbsolute
    rw [along, List.foldl_cons, ← along, ih _ fun n h' => h n (List.mem_cons_of_mem _ h'), hjoin,
      hn.names, List.append_assoc, List.singleton_append]

theorem isAbsolute_along (p : Path) (h : ∀ n ∈ ns, Segment n) :
    (along p ns).isAbsolute = p.isAbsolute := by
  induction ns generalizing p with
  | nil => rfl
  | cons n ns ih =>
    rw [along, List.foldl_cons, ← along, ih _ fun n h' => h n (List.mem_cons_of_mem _ h')]
    exact isAbsolute_join p (h n List.mem_cons_self).isAbsolute

theorem length_along_le (p : Path) (ns : List Bytes) :
    (along p ns).text.length ≤ weight ns + p.text.length := by
  induction ns generalizing p with
  | nil => exact Nat.le_add_left _ _
  | cons n ns ih =>
    have hrest := ih (p / n)
    have hjoin : (p / n).text.length ≤ p.text.length + n.length + 1 := length_join_le p ⟨n⟩
    rw [along, List.foldl_cons, ← along, weight_cons]
    omega

theorem names_spell (h : ∀ n ∈ ns, Ordinary n) : (spell absolute ns).names = ns := by
  rw [spell, names_along _ fun n hn => (h n hn).segment]
  cases absolute <;> rfl

theorem isAbsolute_spell (h : ∀ n ∈ ns, Ordinary n) :
    (spell absolute ns).isAbsolute = absolute := by
  rw [spell, isAbsolute_along _ fun n hn => (h n hn).segment]
  cases absolute <;> rfl

/-- Joined names have a slash between them, but none behind the last. -/
theorem length_spell_lt (absolute : Bool) (hne : ns ≠ []) :
    (spell absolute ns).text.length < weight ns + if absolute then 1 else 0 := by
  obtain ⟨n, ns, rfl⟩ := List.exists_cons_of_ne_nil hne
  have hfirst : ((⟨if absolute then [slash] else []⟩ : Path) / n).text.length ≤
      n.length + if absolute then 1 else 0 := by
    cases absolute with
    | false =>
      have hjoin : (⟨[]⟩ : Path) / n = ⟨n⟩ := if_pos (Bool.or_true _)
      exact Nat.le_of_eq (congrArg (fun p : Path => p.text.length) hjoin)
    | true =>
      rw [if_pos rfl, if_pos rfl, show (⟨[slash]⟩ : Path) / n = join ⟨[slash]⟩ ⟨n⟩ from rfl, join]
      split
      · exact Nat.le_succ _
      · exact Nat.le_refl _
  have hrest := length_along_le ((⟨if absolute then [slash] else []⟩ : Path) / n) ns
  have hspell : spell absolute (n :: ns) =
      along ((⟨if absolute then [slash] else []⟩ : Path) / n) ns := rfl
  rw [hspell, weight_cons]
  omega

theorem spells_spell (h : ∀ n ∈ ns, Ordinary n) (hne : ns ≠ [])
    (hshort : weight ns + (if absolute then 1 else 0) ≤ Disk.maxPath) :
    Spells absolute ns (spell absolute ns) where
  isAbsolute_eq := isAbsolute_spell h
  names_eq := names_spell h
  last := by
    obtain ⟨c, hc⟩ := List.getLast?_isSome.2 hne |> Option.isSome_iff_exists.1
    obtain ⟨ns, rfl⟩ := List.getLast?_eq_some_iff.1 hc
    have hordinary := h c (List.mem_append_right _ List.mem_cons_self)
    rw [spell_append_singleton]
    intro hlast
    have hjoin := getLast?_join (q := ⟨c⟩) (spell absolute ns) hordinary.ne_nil
    exact hordinary.no_slash (List.mem_of_getLast? (hjoin.symm.trans hlast))
  short := Nat.le_trans (Nat.le_of_lt (length_spell_lt absolute hne)) hshort

/-! ## Parents -/

/-- A text up to its last slash. -/
def upToSlash (s : Bytes) : Bytes := (s.reverse.dropWhile (· != slash)).reverse

/-- A text that does not end in a slash, cut behind its last slash. -/
theorem names_eq_upToSlash_append (hne : s ≠ []) (hlast : s.getLast? ≠ some slash) :
    ∃ seg, s = upToSlash s ++ seg ∧ (mk s).names = (mk (upToSlash s)).names ++ [seg] := by
  have hs : s = upToSlash s ++ (s.reverse.takeWhile (· != slash)).reverse := by
    rw [upToSlash, ← List.reverse_append, List.takeWhile_append_dropWhile, List.reverse_reverse]
  refine ⟨_, hs, ?_⟩
  have hseg : (s.reverse.takeWhile (· != slash)).reverse ≠ [] := by
    rw [← List.head?_reverse] at hlast
    obtain ⟨x, r, hx⟩ := List.exists_cons_of_ne_nil (List.reverse_ne_nil_iff.2 hne)
    rw [hx] at hlast ⊢
    have hslash : (x != slash) = true := bne_iff_ne.2 fun e => hlast (congrArg some e)
    simp [hslash]
  have hno : slash ∉ (s.reverse.takeWhile (· != slash)).reverse := fun hmem =>
    absurd (List.all_eq_true.1 List.all_takeWhile slash (List.mem_reverse.1 hmem)) (by simp)
  have hhead := List.head?_dropWhile_not (· != slash) s.reverse
  rw [upToSlash] at hs ⊢
  generalize (s.reverse.takeWhile (· != slash)).reverse = seg at hs hseg hno ⊢
  generalize s.reverse.dropWhile (· != slash) = rest at hs hhead ⊢
  cases rest with
  | nil =>
    rw [hs]
    exact names_mk_of_no_slash hseg hno
  | cons x rest =>
    obtain rfl : x = slash := by simpa using hhead
    have hslash : (mk (rest.reverse ++ [slash])).names = (mk rest.reverse).names :=
      (names_mk_append_slash rest.reverse []).trans (List.append_nil _)
    rw [List.reverse_cons, List.append_assoc] at hs
    rw [List.reverse_cons, hslash, ← names_mk_of_no_slash hseg hno, hs]
    exact names_mk_append_slash rest.reverse seg

theorem Spells.text_ne_nil (h : Spells absolute ns p) (hne : ns ≠ []) : p.text ≠ [] := by
  intro htext
  have hnames := h.names_eq
  rw [Path.names, htext] at hnames
  exact hne hnames.symm

/-- The parent is what is left before the last name and the slashes in front of it, or the root
when that is nothing but slashes. -/
theorem exists_parent_eq (hnames : p.names = ns ++ [c]) (hlast : p.text.getLast? ≠ some slash) :
    ∃ above k seg, p.text = above ++ (List.replicate k slash ++ seg) ∧ (mk above).names = ns ∧
      above.getLast? ≠ some slash ∧
      p.parent = if above = [] ∧ k ≠ 0 then ⟨[slash]⟩ else ⟨above⟩ := by
  have htext : p.text ≠ [] := by
    intro htext
    rw [names, htext] at hnames
    exact absurd hnames.symm (by simp)
  obtain ⟨seg, hcut, hseg⟩ := names_eq_upToSlash_append htext hlast
  obtain ⟨k, hhead⟩ := exists_eq_trimEnd_append (upToSlash p.text)
  have hp : (mk p.text).names = ns ++ [c] := hnames
  rw [hp] at hseg
  obtain ⟨hns, -⟩ := List.append_inj' hseg rfl
  refine ⟨trimEnd (upToSlash p.text), k, seg, ?_, (names_trimEnd _).trans hns.symm,
    getLast?_trimEnd _, ?_⟩
  · rw [← List.append_assoc, ← hhead, ← hcut]
  · have hsome : p.names.isEmpty = false := by simp [hnames]
    have hends : p.endsInSlash = false := by
      rw [endsInSlash, beq_eq_false_iff_ne.2 hlast, Bool.false_and]
    have hslashes : trimEnd (upToSlash p.text) = [] ∧ ¬upToSlash p.text = [] ↔
        trimEnd (upToSlash p.text) = [] ∧ k ≠ 0 := by
      refine and_congr_right fun hnil => not_congr ?_
      rw [hhead, hnil, List.nil_append, List.replicate_eq_nil_iff]
    rw [upToSlash] at hslashes ⊢
    simp only [parent, hsome, hends, Bool.false_eq_true, if_false, Bool.and_eq_true,
      Bool.not_eq_true', List.isEmpty_iff, List.isEmpty_eq_false_iff]
    exact ite_congr (propext hslashes) (fun _ => rfl) fun _ => rfl

theorem Spells.parent (h : Spells absolute (ns ++ [c]) p) (hne : ns ≠ []) :
    Spells absolute ns p.parent := by
  obtain ⟨above, k, seg, htext, hnames, hlast, hparent⟩ := exists_parent_eq h.names_eq h.last
  have habove : above ≠ [] := by
    rintro rfl
    exact hne hnames.symm
  rw [hparent, if_neg fun hroot => habove hroot.1]
  obtain ⟨x, r, rfl⟩ := List.exists_cons_of_ne_nil habove
  refine ⟨?_, hnames, hlast, ?_⟩
  · rw [← h.isAbsolute_eq, Path.isAbsolute, Path.isAbsolute, htext]
    rfl
  · refine Nat.le_trans ?_ h.short
    rw [htext, List.length_append]
    exact Nat.le_add_right _ _

/-! ## Lying below -/

theorem foldl_push (n : Normal) (h : ∀ c ∈ ns, Ordinary c) :
    ns.foldl Normal.push n =
      ⟨n.absolute, n.names ++ ns, if ns = [] then n.slashed else false⟩ := by
  induction ns generalizing n with
  | nil =>
    rw [List.append_nil]
    rfl
  | cons c ns ih =>
    have hc := h c List.mem_cons_self
    have hpush : n.push c = ⟨n.absolute, n.names ++ [c], false⟩ := by
      rw [Normal.push, if_neg (not_or.2 ⟨hc.ne_dot, hc.ne_nil⟩), if_neg hc.ne_dotDot]
    rw [List.foldl_cons, hpush, ih _ fun c h' => h c (List.mem_cons_of_mem _ h'),
      List.append_assoc, List.singleton_append, if_neg (List.cons_ne_nil _ _)]
    simp

/-- A path of ordinary names is its own simplest spelling, up to a slash at its end. -/
theorem normal_eq (h : ∀ c ∈ p.names, Ordinary c) (hne : p.names ≠ []) :
    p.normal = (if p.isAbsolute then [[slash]] else []) ++ p.names ++
      (if p.endsInSlash then [[]] else []) := by
  have htext : p.isEmpty = false := by
    rw [Path.isEmpty, List.isEmpty_eq_false_iff]
    intro htext
    rw [Path.names, htext] at hne
    exact hne rfl
  have hsome : p.names.isEmpty = false := List.isEmpty_eq_false_iff.2 hne
  have hlast : p.names.getLast? ≠ some dotDot := fun hlast =>
    (h dotDot (List.mem_of_getLast? hlast)).ne_dotDot rfl
  rw [normal, htext, List.foldl_append, foldl_push _ h]
  cases p.endsInSlash with
  | false => simp [Normal.components, hne]
  | true => simp [Normal.components, Normal.push, hne, hlast]

theorem isAbsolute_of_names_nil (hne : p.names = []) (htext : p.text ≠ []) :
    p.isAbsolute = true := by
  obtain ⟨x, r, hx⟩ := List.exists_cons_of_ne_nil htext
  have hslash : x = slash := Decidable.byContradiction fun hx' => by
    obtain ⟨n, hn, -⟩ := exists_mem_names (p := p) hx' (by rw [hx]; exact List.mem_cons_self)
    rw [hne] at hn
    cases hn
  rw [isAbsolute, hx, hslash]
  rfl

theorem filter_normal (h : ∀ c ∈ p.names, Ordinary c) (htext : p.text ≠ []) :
    p.normal.filter (fun c => !c.isEmpty) =
      (if p.isAbsolute then [[slash]] else []) ++ p.names := by
  by_cases hne : p.names = []
  · have habsolute := isAbsolute_of_names_nil hne htext
    have hends : p.endsInSlash = false := by
      rw [endsInSlash, hne]
      exact Bool.and_false _
    have hempty : p.isEmpty = false := List.isEmpty_eq_false_iff.2 htext
    rw [normal, hempty, hne, hends, habsolute]
    rfl
  · have hnames : p.names.filter (fun c => !c.isEmpty) = p.names :=
      List.filter_eq_self.2 fun c hc => by simpa using (h c hc).ne_nil
    rw [normal_eq h hne, List.filter_append, List.filter_append, hnames]
    cases p.isAbsolute <;> cases p.endsInSlash <;> simp

theorem Relative.exists_names (h : Relative p) : ∃ ns c, p.names = ns ++ [c] := by
  rcases List.eq_nil_or_concat p.names with hnil | ⟨ns, c, hconcat⟩
  · have habsolute := isAbsolute_of_names_nil hnil h.text_ne_nil
    rw [h.isAbsolute_eq] at habsolute
    cases habsolute
  · exact ⟨ns, c, by rw [hconcat, List.concat_eq_append]⟩

/-- A path of ordinary names lies at or below another when its names begin with those of the
other. -/
theorem Spells.isWithin {root : Path} (h : Spells root.isAbsolute ns p)
    (hns : ∀ c ∈ ns, Ordinary c) (hne : ns ≠ []) (htext : root.text ≠ [])
    (hroot : root.names <+: ns) : p.isWithin root = true := by
  have hrootNames : ∀ c ∈ root.names, Ordinary c := fun c hc => hns c (hroot.subset hc)
  have hp : p.normal = (if root.isAbsolute then [[slash]] else []) ++ ns := by
    rw [normal_eq (by rwa [h.names_eq]) (by rwa [h.names_eq]), h.isAbsolute_eq, h.names_eq,
      h.endsInSlash]
    exact List.append_nil _
  rw [Path.isWithin, filter_normal hrootNames htext, hp, List.isPrefixOf_iff_prefix]
  exact (List.prefix_append_right_inj _).2 hroot

end FileCourier.Path
