import FileCourier.Proofs.Path.Names

/-!
# Paths that are read name by name

`Reads` says along which names the system walks a path. Joining a plain relative path adds its names
(`reads_join`), and the parent has all names but the last (`Reads.parent`), however long the
path is.
-/

namespace FileCourier.Path

variable {absolute : Bool} {ns : List Bytes} {p q : Path} {c : Bytes}

/-- A name that leads to an entry of a directory and is read to its end. -/
structure Proper (c : Bytes) : Prop where
  ne_dot : c ≠ dot
  ne_dotDot : c ≠ dotDot
  ne_nil : c ≠ []
  no_slash : slash ∉ c
  no_nul : 0 ∉ c

theorem proper_iff :
    Proper c ↔ c ≠ dot ∧ c ≠ dotDot ∧ c ≠ [] ∧ slash ∉ c ∧ 0 ∉ c :=
  ⟨fun h => ⟨h.ne_dot, h.ne_dotDot, h.ne_nil, h.no_slash, h.no_nul⟩, fun ⟨h₁, h₂, h₃, h₄, h₅⟩ =>
    ⟨h₁, h₂, h₃, h₄, h₅⟩⟩

instance : Decidable (Proper c) := decidable_of_iff _ proper_iff.symm

theorem Proper.segment (h : Proper c) : Segment c := ⟨h.ne_nil, h.no_slash⟩

theorem Ordinary.proper (h : Ordinary c) : Proper c :=
  ⟨h.ne_dot, h.ne_dotDot, h.ne_nil, h.no_slash, h.no_nul⟩

/-- A relative path of proper names that ends in a name. -/
structure Plain (p : Path) : Prop where
  isAbsolute_eq : p.isAbsolute = false
  proper : ∀ n ∈ p.names, Proper n
  text_ne_nil : p.text ≠ []
  last : p.text.getLast? ≠ some slash

theorem plain_iff : Plain p ↔ p.isAbsolute = false ∧ (∀ n ∈ p.names, Proper n) ∧
    p.text ≠ [] ∧ p.text.getLast? ≠ some slash :=
  ⟨fun h => ⟨h.isAbsolute_eq, h.proper, h.text_ne_nil, h.last⟩, fun ⟨h₁, h₂, h₃, h₄⟩ =>
    ⟨h₁, h₂, h₃, h₄⟩⟩

instance : Decidable (Plain p) := decidable_of_iff _ plain_iff.symm

theorem Proper.plain (h : Proper c) : Plain ⟨c⟩ where
  isAbsolute_eq := h.segment.isAbsolute
  proper n hn := by
    rw [h.segment.names, List.mem_singleton] at hn
    rwa [hn]
  text_ne_nil := h.ne_nil
  last hlast := h.no_slash (List.mem_of_getLast? hlast)

theorem no_nul_of_proper (h : ∀ n ∈ p.names, Proper n) : 0 ∉ p.text := by
  intro hnul
  obtain ⟨n, hn, hnul⟩ := exists_mem_names (by decide) hnul
  exact (h n hn).no_nul hnul

theorem Plain.no_nul (h : Plain p) : 0 ∉ p.text := no_nul_of_proper h.proper

theorem Plain.names_ne_nil (h : Plain p) : p.names ≠ [] := by
  intro hnil
  have habsolute := isAbsolute_of_names_nil hnil h.text_ne_nil
  rw [h.isAbsolute_eq] at habsolute
  cases habsolute

/-- The system walks the path along these names, from the root or from where it is. -/
structure Reads (absolute : Bool) (ns : List Bytes) (p : Path) : Prop where
  isAbsolute_eq : p.isAbsolute = absolute
  names_eq : p.names = ns
  endsInSlash_eq : p.endsInSlash = false
  no_nul : 0 ∉ p.text

theorem reads_empty : Reads false [] ⟨[]⟩ := ⟨rfl, rfl, rfl, by decide⟩

theorem reads_slash : Reads true [] ⟨[slash]⟩ := ⟨rfl, rfl, rfl, by decide⟩

theorem Reads.components (h : Reads absolute ns p) :
    p.components = (if absolute then [[slash]] else []) ++ ns := by
  rw [Path.components, h.isAbsolute_eq, h.names_eq, h.endsInSlash_eq]
  exact List.append_nil _

theorem Reads.last (h : Reads absolute ns p) (hne : ns ≠ []) : p.text.getLast? ≠ some slash := by
  intro hlast
  have hends := h.endsInSlash_eq
  rw [endsInSlash, hlast, h.names_eq, List.isEmpty_eq_false_iff.2 hne, beq_self_eq_true] at hends
  cases hends

theorem Reads.text_ne_nil (h : Reads absolute ns p) (hne : ns ≠ []) : p.text ≠ [] := by
  intro htext
  have hnames := h.names_eq
  rw [names, htext] at hnames
  exact hne hnames.symm

theorem mem_text_join {x : UInt8} (h : x ∈ (p / q).text) :
    x ∈ p.text ∨ x = slash ∨ x ∈ q.text := by
  rw [join_mk, join] at h
  split at h
  · exact .inr (.inr h)
  · split at h
    · rcases List.mem_append.1 h with h | h
      · exact .inl h
      · exact .inr (.inr h)
    · rcases List.mem_append.1 h with h | h
      · exact .inl h
      · exact .inr (List.mem_cons.1 h)

theorem reads_join (hp : 0 ∉ p.text) (hq : Plain q) :
    Reads p.isAbsolute (p.names ++ q.names) (p / q) where
  isAbsolute_eq := isAbsolute_join p hq.isAbsolute_eq
  names_eq := names_join p hq.isAbsolute_eq
  endsInSlash_eq := by
    rw [endsInSlash, getLast?_join p hq.text_ne_nil, beq_eq_false_iff_ne.2 hq.last, Bool.false_and]
  no_nul hnul := by
    rcases mem_text_join hnul with hnul | hnul | hnul
    · exact hp hnul
    · exact absurd hnul (by decide)
    · exact hq.no_nul hnul

theorem Reads.append (h : Reads absolute ns p) (hq : Plain q) :
    Reads absolute (ns ++ q.names) (p / q) := by
  obtain ⟨rfl, rfl, -, hnul⟩ := h
  exact reads_join hnul hq

theorem Reads.join_name (h : Reads absolute ns p) (hc : Segment c) (hnul : 0 ∉ c) :
    Reads absolute (ns ++ [c]) (p / c) := by
  obtain ⟨rfl, rfl, -, hp⟩ := h
  have hlast : c.getLast? ≠ some slash := fun hlast => hc.no_slash (List.mem_of_getLast? hlast)
  have habsolute := hc.isAbsolute
  refine ⟨isAbsolute_join p habsolute, ?_, ?_, fun hmem => ?_⟩
  · rw [← hc.names]
    exact names_join p habsolute
  · have hjoin : (p / c).text.getLast? = c.getLast? := getLast?_join (q := ⟨c⟩) p hc.ne_nil
    rw [endsInSlash, hjoin, beq_eq_false_iff_ne.2 hlast, Bool.false_and]
  · have hmem : 0 ∈ (p / Path.mk c).text := hmem
    rcases mem_text_join hmem with hmem | hmem | hmem
    · exact hp hmem
    · exact absurd hmem (by decide)
    · exact hnul hmem

theorem Reads.join (h : Reads absolute ns p) (hc : Proper c) :
    Reads absolute (ns ++ [c]) (p / c) := h.join_name hc.segment hc.no_nul

theorem Reads.along (h : Reads absolute ns p) {comps : List Bytes} (hcomps : ∀ c ∈ comps, Proper c) :
    Reads absolute (ns ++ comps) (p.along comps) := by
  induction comps generalizing p ns with
  | nil => rwa [List.append_nil]
  | cons c comps ih =>
    rw [List.append_cons]
    exact ih (h.join (hcomps c List.mem_cons_self)) fun c' hc' =>
      hcomps c' (List.mem_cons_of_mem _ hc')

theorem mem_trimEnd {x : UInt8} {s : Bytes} (h : x ∈ trimEnd s) : x ∈ s := by
  obtain ⟨n, hs⟩ := exists_eq_trimEnd_append s
  rw [hs]
  exact List.mem_append_left _ h

theorem mem_text_parent {x : UInt8} (h : x ∈ p.parent.text) : x ∈ p.text := by
  have hhead {y : UInt8} (hy : y ∈ (p.text.reverse.dropWhile (· != slash)).reverse) : y ∈ p.text :=
    List.mem_reverse.1 ((List.dropWhile_suffix _).subset (List.mem_reverse.1 hy))
  rw [parent] at h
  split at h
  · exact h
  split at h
  · exact mem_trimEnd h
  dsimp only at h
  split at h
  · -- Only slashes are left before the last name, and the parent is the first of them.
    rename_i hroot
    obtain rfl : x = slash := List.mem_singleton.1 h
    obtain ⟨htrim, hne⟩ := Bool.and_eq_true_iff.1 hroot
    obtain ⟨n, hs⟩ := exists_eq_trimEnd_append (p.text.reverse.dropWhile (· != slash)).reverse
    rw [List.isEmpty_iff.1 htrim, List.nil_append] at hs
    refine hhead ?_
    rw [hs]
    refine List.mem_replicate.2 ⟨fun hn => ?_, rfl⟩
    rw [hs, hn] at hne
    cases hne
  · exact hhead (mem_trimEnd h)

/-- The parent of a path that ends in a name has all names but the last, if it is not empty. -/
theorem reads_parent_of_last (hnames : p.names = ns ++ [c]) (hlast : p.text.getLast? ≠ some slash)
    (hne : p.parent.isEmpty = false) (hnul : 0 ∉ p.parent.text) :
    Reads p.isAbsolute ns p.parent := by
  obtain ⟨above, k, seg, htext, hnames, hlast, hparent⟩ := exists_parent_eq hnames hlast
  rw [hparent] at hne hnul ⊢
  split
  · rename_i hroot
    obtain ⟨rfl, hk⟩ := hroot
    obtain ⟨k, rfl⟩ := Nat.exists_eq_succ_of_ne_zero hk
    obtain rfl : [] = ns := hnames
    have habsolute : p.isAbsolute = true := by
      rw [isAbsolute, htext]
      rfl
    rw [habsolute]
    exact reads_slash
  · rename_i hroot
    rw [if_neg hroot] at hne hnul
    obtain ⟨x, r, rfl⟩ := List.exists_cons_of_ne_nil (List.isEmpty_eq_false_iff.1 hne)
    refine ⟨?_, hnames, ?_, hnul⟩
    · rw [isAbsolute, isAbsolute, htext]
      rfl
    · rw [endsInSlash, beq_eq_false_iff_ne.2 hlast, Bool.false_and]

/-- The parent is read along all names but the last. -/
theorem Reads.parent (h : Reads absolute (ns ++ [c]) p) (hne : p.parent.isEmpty = false) :
    Reads absolute ns p.parent := by
  have hparent := reads_parent_of_last h.names_eq (h.last (by simp)) hne fun hnul =>
    h.no_nul (mem_text_parent hnul)
  rwa [h.isAbsolute_eq] at hparent

/-- The names of the parent of a path. Behind the last name a slash is taken away first. -/
def aboveLast (p : Path) : List Bytes := if p.endsInSlash then p.names else p.names.dropLast

theorem aboveLast_join (p : Path) (hq : q.isAbsolute = false) (hne : q.names ≠ []) :
    (p / q).aboveLast = p.names ++ q.aboveLast := by
  have htext : q.text ≠ [] := fun htext => hne (by rw [names, htext]; rfl)
  have hnames := names_join p hq
  have hsome : (p / q).names ≠ [] := hnames ▸ List.append_ne_nil_of_right_ne_nil _ hne
  have hends : (p / q).endsInSlash = q.endsInSlash := by
    rw [endsInSlash, endsInSlash, getLast?_join p htext, List.isEmpty_eq_false_iff.2 hsome,
      List.isEmpty_eq_false_iff.2 hne]
  rw [aboveLast, aboveLast, hends, hnames]
  split
  · rfl
  · exact List.dropLast_append_of_ne_nil hne

theorem last_of_not_endsInSlash (hnames : p.names ≠ []) (h : p.endsInSlash = false) :
    p.text.getLast? ≠ some slash := by
  intro hlast
  rw [endsInSlash, hlast, List.isEmpty_eq_false_iff.2 hnames] at h
  cases h

theorem parent_of_endsInSlash (hnames : p.names ≠ []) (h : p.endsInSlash = true) :
    p.parent = ⟨trimEnd p.text⟩ := by
  rw [parent, List.isEmpty_eq_false_iff.2 hnames, h]
  rfl

theorem names_parent (hnames : p.names ≠ []) : p.parent.names = p.aboveLast := by
  rw [aboveLast]
  cases hends : p.endsInSlash with
  | true =>
    rw [parent_of_endsInSlash hnames hends, if_pos rfl]
    exact names_trimEnd p.text
  | false =>
    obtain ⟨above, k, seg, -, habove, -, hparent⟩ := exists_parent_eq
      (List.dropLast_concat_getLast hnames).symm (last_of_not_endsInSlash hnames hends)
    rw [hparent, if_neg Bool.false_ne_true, ← habove]
    split
    · rename_i hroot
      rw [hroot.1]
      rfl
    · rfl

theorem reads_parent (hnames : p.names ≠ []) (hne : p.parent.isEmpty = false)
    (hnul : ∀ n ∈ p.aboveLast, 0 ∉ n) : Reads p.isAbsolute p.aboveLast p.parent := by
  have hparent : 0 ∉ p.parent.text := fun hmem => by
    obtain ⟨n, hn, hzero⟩ := exists_mem_names (by decide) hmem
    rw [names_parent hnames] at hn
    exact hnul n hn hzero
  refine ⟨?_, names_parent hnames, ?_, hparent⟩
  · cases hends : p.endsInSlash with
    | true =>
      rw [parent_of_endsInSlash hnames hends] at hne ⊢
      obtain ⟨n, hs⟩ := exists_eq_trimEnd_append p.text
      obtain ⟨x, r, hcons⟩ := List.exists_cons_of_ne_nil (List.isEmpty_eq_false_iff.1 hne)
      have hhead : p.text.head? = (trimEnd p.text).head? := by
        conv => lhs; rw [hs]
        rw [show trimEnd p.text = x :: r from hcons]
        rfl
      rw [isAbsolute, isAbsolute, hhead]
    | false =>
      exact (reads_parent_of_last (List.dropLast_concat_getLast hnames).symm
        (last_of_not_endsInSlash hnames hends) hne hparent).isAbsolute_eq
  · cases hends : p.endsInSlash with
    | true =>
      rw [parent_of_endsInSlash hnames hends, endsInSlash,
        beq_eq_false_iff_ne.2 (getLast?_trimEnd _), Bool.false_and]
    | false =>
      exact (reads_parent_of_last (List.dropLast_concat_getLast hnames).symm
        (last_of_not_endsInSlash hnames hends) hne hparent).endsInSlash_eq

theorem Reads.isEmpty_parent (h : Reads absolute (ns ++ [c]) p) (hns : ns ≠ []) :
    p.parent.isEmpty = false := by
  obtain ⟨above, k, seg, -, hnames, -, hparent⟩ := exists_parent_eq h.names_eq (h.last (by simp))
  have habove : above ≠ [] := by
    rintro rfl
    exact hns hnames.symm
  rw [hparent, if_neg fun hroot => habove hroot.1]
  exact List.isEmpty_eq_false_iff.2 habove

end FileCourier.Path
