import FileCourier.Proofs.Disk.Exploring
import FileCourier.Proofs.LocalRoots.Serving

/-!
# Listings that fit together

The three listings of a root make up one tree: what is above a listed file or above an empty directory
are the listed directories (`Surveyable.coherent`). For that the root must be read to its end, and each
directory below which nothing is found must have a path that can be looked up (`Surveyable`).
-/

namespace FileCourier.LocalRoots

open Disk (Found maxPath)
open FileCourier.Path (Ordinary Segment)

variable {σ : Type} {d : Disk} {root : Path} {t f : Bytes} {ns ms : List Bytes} {x y : Found}

/-- A listed path leads through another one. -/
def Above (t f : Bytes) : Prop := ∃ rest, f = t ++ slash :: rest

/-- The listings of a root fit together. -/
structure Contents.Coherent (c : Contents) : Prop where
  sorted_files : c.files.Pairwise (· < ·)
  sorted_directories : c.directories.Pairwise (· < ·)
  sorted_emptyDirectories : c.emptyDirectories.Pairwise (· < ·)
  disjoint : ∀ t ∈ c.files, t ∉ c.directories
  listed_empty : ∀ t ∈ c.emptyDirectories, t ∈ c.directories
  dot : Path.dot ∈ c.directories
  dot_empty : Path.dot ∈ c.emptyDirectories ↔ c.files = [] ∧ c.directories = [Path.dot]
  directory_iff : ∀ t, t ≠ Path.dot →
    (t ∈ c.directories ↔ (∃ f ∈ c.files, Above t f) ∨ ∃ e ∈ c.emptyDirectories, t = e ∨ Above t e)

/-- A directory that is read to its end, and below which each directory without a find below it can be
looked up. -/
structure Surveyable (d : Disk) (root : Path) : Prop where
  directory : d.isDirectory root = true
  no_nul : 0 ∉ root.text
  short : ∀ x ∈ d.below root, x.isDirectory d = true →
    (∀ y ∈ d.below root, x.names <+: y.names → y.names = x.names) → x.path.text.length ≤ maxPath

/-! ## Listed names -/

theorem listed_ne_dot (h : ∀ n ∈ ns, Ordinary n) : listed ns ≠ Path.dot := by
  intro hdot
  have hnames := Path.names_listed fun n hn => (h n hn).segment
  rw [hdot] at hnames
  have hmem : Path.dot ∈ ns := hnames ▸ List.mem_cons_self
  exact (h _ hmem).ne_dot rfl

theorem listed_inj (hns : ∀ n ∈ ns, Segment n) (hms : ∀ n ∈ ms, Segment n)
    (h : listed ns = listed ms) : ns = ms := by
  rw [← Path.names_listed hns, h, Path.names_listed hms]

theorem above_listed (hns : ns ≠ []) (hpre : ns <+: ms) (hne : ms ≠ ns) :
    Above (listed ns) (listed ms) := by
  obtain ⟨rest, rfl⟩ := hpre
  have hrest : rest ≠ [] := fun hnil => hne (by rw [hnil, List.append_nil])
  exact ⟨listed rest, Path.listed_append hns hrest⟩

/-- What is above a listed path is a listed path too, of names that it begins with. -/
theorem exists_listed_of_above (h : ∀ n ∈ ns, Segment n) (habove : Above t (listed ns)) :
    ∃ above rest, ns = above ++ rest ∧ above ≠ [] ∧ rest ≠ [] ∧ t = listed above := by
  obtain ⟨after, htext⟩ := habove
  obtain ⟨above, hne, ⟨rest, rfl⟩, rfl⟩ := Path.exists_listed_of_slash h htext
  refine ⟨above, rest, rfl, hne, ?_, rfl⟩
  rintro rfl
  rw [List.append_nil] at htext
  exact absurd (congrArg List.length htext) (by simp)

/-! ## Finds and listings -/

/-- What a root lists as directories. -/
theorem mem_directories_iff : t ∈ (contents d root).directories ↔ d.isDirectory root = true ∧
    (t = Path.dot ∨ ∃ x ∈ d.below root, x.isDirectory d = true ∧ listed x.names = t) := by
  cases hroot : d.isDirectory root with
  | false => simp [contents, hroot]
  | true => simp [contents, hroot, Bytes.mem_sort, and_assoc]

theorem ordinary_of_mem_below (hd : d.Sound) (hx : x ∈ d.below root) : ∀ n ∈ x.names, Ordinary n :=
  (hd.along_of_mem_below hx).2.1

theorem eq_of_listed (hd : d.Sound) (hx : x ∈ d.below root) (hy : y ∈ d.below root)
    (h : listed x.names = listed y.names) : x = y :=
  hd.eq_of_names hx hy (listed_inj (fun n hn => (ordinary_of_mem_below hd hx n hn).segment)
    (fun n hn => (ordinary_of_mem_below hd hy n hn).segment) h)

/-- Finds are listed without repetitions. -/
theorem nodup_listed (hd : d.Sound) (keep : Found → Bool) :
    (((d.below root).filter keep).map fun x => listed x.names).Nodup := by
  apply (((hd.nodup_below root).of_map _).filter keep).map_on
  intro x hx y hy h
  exact eq_of_listed hd (List.mem_of_mem_filter hx) (List.mem_of_mem_filter hy) h

theorem dot_not_mem_listed (hd : d.Sound) (keep : Found → Bool) :
    Path.dot ∉ ((d.below root).filter keep).map fun x => listed x.names := by
  intro hmem
  obtain ⟨x, hx, hdot⟩ := List.mem_map.1 hmem
  exact listed_ne_dot (ordinary_of_mem_below hd (List.mem_of_mem_filter hx)) hdot

/-- From each directory that is found, something that is found lies behind it or at it: a file or an
empty directory. -/
theorem Surveyable.exists_leaf (h : Surveyable d root) (hd : d.Sound) (hx : x ∈ d.below root)
    (hdir : x.isDirectory d = true) : ∃ y ∈ d.below root, x.names <+: y.names ∧
      (y.isDirectory d = false ∧ y.names ≠ x.names ∨
        y.isDirectory d = true ∧ d.isEmptyDirectory y.path = true) := by
  -- On how many names can still come: each find in the directory has more of them.
  induction hroom : maxPath + 1 - x.names.length using Nat.strongRecOn generalizing x with
  | ind room ih =>
    by_cases hlast : ∀ y ∈ d.below root, x.names <+: y.names → y.names = x.names
    · have hempty := hd.isEmptyDirectory_of_last h.no_nul hx hdir (h.short x hx hdir hlast) hlast
      exact ⟨x, hx, List.prefix_refl _, .inr ⟨hdir, hempty⟩⟩
    · obtain ⟨y, hy, hpre, hne⟩ : ∃ y ∈ d.below root, x.names <+: y.names ∧ y.names ≠ x.names := by
        simpa using hlast
      cases hydir : y.isDirectory d with
      | false => exact ⟨y, hy, hpre, .inl ⟨hydir, hne⟩⟩
      | true =>
        have hlt : x.names.length < y.names.length :=
          Nat.lt_of_le_of_ne hpre.length_le fun heq => hne (hpre.eq_of_length heq).symm
        have hle := hd.length_names_le hy
        obtain ⟨z, hz, hyz, hleaf⟩ := ih _ (by omega) hy hydir rfl
        refine ⟨z, hz, hpre.trans hyz, hleaf.imp_left fun ⟨hfile, _⟩ => ⟨hfile, fun heq => ?_⟩⟩
        have hzle := hyz.length_le
        rw [heq] at hzle
        omega

/-- What is above a find is listed as a directory. -/
theorem mem_directories_of_above (hd : d.Sound) (hroot : d.isDirectory root = true)
    (hx : x ∈ d.below root) (habove : Above t (listed x.names)) :
    t ∈ (contents d root).directories := by
  obtain ⟨above, rest, hnames, hne, hrest, rfl⟩ := exists_listed_of_above
    (fun n hn => (ordinary_of_mem_below hd hx n hn).segment) habove
  obtain ⟨y, hy, hdir, rfl⟩ := hd.exists_above hx hnames hne hrest
  exact mem_directories_iff.2 ⟨hroot, .inr ⟨y, hy, hdir, rfl⟩⟩

theorem directory_iff (h : Surveyable d root) (hd : d.Sound) (ht : t ≠ Path.dot) :
    t ∈ (contents d root).directories ↔ (∃ f ∈ (contents d root).files, Above t f) ∨
      ∃ e ∈ (contents d root).emptyDirectories, t = e ∨ Above t e := by
  constructor
  · intro hmem
    obtain ⟨-, hdot | ⟨x, hx, hdir, rfl⟩⟩ := mem_directories_iff.1 hmem
    · exact absurd hdot ht
    have hne := (hd.along_of_mem_below hx).1
    obtain ⟨y, hy, hpre, ⟨hfile, hother⟩ | ⟨hydir, hempty⟩⟩ := h.exists_leaf hd hx hdir
    · exact .inl ⟨_, mem_files_iff.2 ⟨h.directory, y, hy, hfile, rfl⟩, above_listed hne hpre hother⟩
    · refine .inr ⟨_, mem_emptyDirectories_iff.2 ⟨h.directory, .inr ⟨y, hy, hempty, hydir, rfl⟩⟩, ?_⟩
      by_cases heq : y.names = x.names
      · exact .inl (by rw [heq])
      · exact .inr (above_listed hne hpre heq)
  · rintro (⟨f, hf, habove⟩ | ⟨e, he, hte⟩)
    · obtain ⟨-, x, hx, -, rfl⟩ := mem_files_iff.1 hf
      exact mem_directories_of_above hd h.directory hx habove
    · obtain ⟨-, ⟨-, rfl⟩ | ⟨x, hx, -, hdir, rfl⟩⟩ := mem_emptyDirectories_iff.1 he
      · rcases hte with rfl | ⟨rest, hrest⟩
        · exact absurd rfl ht
        · have hslash : slash ∈ Path.dot := hrest ▸ List.mem_append_right t List.mem_cons_self
          exact absurd hslash (by decide)
      · rcases hte with rfl | habove
        · exact mem_directories_iff.2 ⟨h.directory, .inr ⟨x, hx, hdir, rfl⟩⟩
        · exact mem_directories_of_above hd h.directory hx habove

theorem contents_of_isDirectory (h : d.isDirectory root = true) : contents d root =
    { files := Bytes.sort (((d.below root).filter fun x => !x.isDirectory d).map fun x => listed x.names)
      directories := Bytes.sort
        (Path.dot :: ((d.below root).filter fun x => x.isDirectory d).map fun x => listed x.names)
      emptyDirectories := Bytes.sort ((if d.isEmptyDirectory root then [Path.dot] else []) ++
        ((d.below root).filter fun x => d.isEmptyDirectory x.path && x.isDirectory d).map
          fun x => listed x.names) } := by
  rw [contents, h]
  simp only [Bool.not_true, Bool.false_eq_true, if_false, List.filter_filter]

theorem Surveyable.coherent (h : Surveyable d root) (hd : d.Sound) : (contents d root).Coherent where
  sorted_files := by
    rw [contents_of_isDirectory h.directory]
    exact Bytes.pairwise_lt_sort (nodup_listed hd _)
  sorted_directories := by
    rw [contents_of_isDirectory h.directory]
    exact Bytes.pairwise_lt_sort (List.nodup_cons.2 ⟨dot_not_mem_listed hd _, nodup_listed hd _⟩)
  sorted_emptyDirectories := by
    rw [contents_of_isDirectory h.directory]
    apply Bytes.pairwise_lt_sort
    split
    · exact List.nodup_cons.2 ⟨dot_not_mem_listed hd _, nodup_listed hd _⟩
    · exact nodup_listed hd _
  disjoint t hfile hdirectory := by
    obtain ⟨-, x, hx, hxdir, rfl⟩ := mem_files_iff.1 hfile
    obtain ⟨-, hdot | ⟨y, hy, hydir, heq⟩⟩ := mem_directories_iff.1 hdirectory
    · exact listed_ne_dot (ordinary_of_mem_below hd hx) hdot
    · rw [eq_of_listed hd hy hx heq, hxdir] at hydir
      cases hydir
  listed_empty t ht := by
    obtain ⟨-, ⟨-, rfl⟩ | ⟨x, hx, -, hdir, rfl⟩⟩ := mem_emptyDirectories_iff.1 ht
    · exact mem_directories_iff.2 ⟨h.directory, .inl rfl⟩
    · exact mem_directories_iff.2 ⟨h.directory, .inr ⟨x, hx, hdir, rfl⟩⟩
  dot := mem_directories_iff.2 ⟨h.directory, .inl rfl⟩
  dot_empty := by
    have hempty : Path.dot ∈ (contents d root).emptyDirectories ↔ d.below root = [] := by
      rw [mem_emptyDirectories_iff, ← hd.isEmptyDirectory_iff h.directory]
      constructor
      · rintro ⟨-, ⟨hempty, -⟩ | ⟨x, hx, -, -, hdot⟩⟩
        · exact hempty
        · exact absurd hdot (listed_ne_dot (ordinary_of_mem_below hd hx))
      · exact fun hempty => ⟨h.directory, .inl ⟨hempty, rfl⟩⟩
    rw [hempty]
    constructor
    · intro hnil
      rw [contents_of_isDirectory h.directory, hnil]
      exact ⟨Bytes.sort_nil, Bytes.sort_singleton _⟩
    · rintro ⟨hfiles, hdirectories⟩
      apply List.eq_nil_iff_forall_not_mem.2
      intro x hx
      cases hdir : x.isDirectory d with
      | false =>
        have hmem := mem_files_iff.2 ⟨h.directory, x, hx, hdir, rfl⟩
        rw [hfiles] at hmem
        cases hmem
      | true =>
        have hmem := mem_directories_iff.2 ⟨h.directory, .inr ⟨x, hx, hdir, rfl⟩⟩
        rw [hdirectories] at hmem
        exact listed_ne_dot (ordinary_of_mem_below hd hx) (List.mem_singleton.1 hmem)
  directory_iff _ := directory_iff h hd

/-- The listings of a root fit together, and those of an environment are those of its roots one after
the other. -/
theorem listings_cohere (l : LocalRoots σ) (env : Bytes) (w : World σ) (hd : w.disk.Sound) :
    (∀ root, Surveyable w.disk root → (contents w.disk root).Coherent) ∧
    l.source.files env w =
      (.ok (some ((rootsOf l.settings env).flatMap fun root => (contents w.disk root).files)), w) ∧
    l.source.directories env w =
      (.ok (some ((rootsOf l.settings env).flatMap fun root => (contents w.disk root).directories)), w) ∧
    l.source.emptyDirectories env w =
      (.ok (some ((rootsOf l.settings env).flatMap fun root =>
        (contents w.disk root).emptyDirectories)), w) :=
  ⟨fun _ h => h.coherent hd, rfl, rfl, rfl⟩

/-- Two roots. In the first one there are an empty directory, a link to the second one and a link that
leads nowhere. -/
def linked : World Unit where
  disk := ⟨[(["one"], .dir Disk.openMode), (["one", "d"], .dir Disk.openMode),
    (["one", "d", "bare"], .dir Disk.openMode), (["one", "lost"], .link "nowhere"),
    (["one", "way"], .link "../two"), (["two"], .dir Disk.openMode),
    (["two", "f"], .file false "text")], []⟩
  beyond := ()

theorem sound_linked : linked.disk.Sound where
  once := by decide
  ordinary := by decide
  tree := Disk.isTree_of_entries (by decide)
  cwd := ⟨_, rfl⟩

/-- Behind a link there is a listed file, so the link is a listed directory. -/
theorem listings_cohere_linked :
    linked.disk.Sound ∧ ∀ root ∈ rootsOf twoRoots.settings "base", Surveyable linked.disk root ∧
      (contents linked.disk root).Coherent := by
  have hsurveyable : ∀ root ∈ rootsOf twoRoots.settings "base", Surveyable linked.disk root := by
    intro root hroot
    refine ⟨?_, ?_, ?_⟩ <;> revert root <;> decide +kernel
  obtain ⟨hcoherent, -⟩ := listings_cohere twoRoots "base" linked sound_linked
  exact ⟨sound_linked, fun root hroot =>
    ⟨hsurveyable root hroot, hcoherent root (hsurveyable root hroot)⟩⟩

/-- A directory that holds an empty directory. -/
def nested : Disk := ⟨[(["srv"], .dir Disk.openMode), (["srv", "a directory"], .dir Disk.openMode)], []⟩

theorem sound_nested : nested.Sound where
  once := by decide
  ordinary := by decide
  tree := Disk.isTree_of_entries (by decide)
  cwd := ⟨_, rfl⟩

theorem unlinked_nested (q : Place) (t : Bytes) : nested.get? q ≠ some (.link t) :=
  Disk.get?_ne_link_of_entries (by decide) q t

/-- By a root from which the empty directory cannot be looked up, it is listed as a directory, but
neither as an empty one nor above anything. -/
theorem contents_nested (hfind : nested.find root = .ok (.at ["srv"] (.dir Disk.openMode)))
    (hlost : nested.isEmptyDirectory (root / Path.mk "a directory") = false) :
    ("a directory" : Bytes) ∈ (contents nested root).directories ∧ (contents nested root).files = [] ∧
      (contents nested root).emptyDirectories = [] := by
  have hroot := Disk.isDirectory_of_find hfind
  have hfound : nested.below root =
      [⟨["a directory"], root / Path.mk "a directory", .dir Disk.openMode⟩] := by
    rw [Disk.below, hfind]
    rfl
  have hbare : nested.isEmptyDirectory root = false := by
    rw [Disk.isEmptyDirectory, hfind]
    rfl
  refine ⟨mem_directories_iff.2 ⟨hroot, .inr ?_⟩, ?_, ?_⟩
  · rw [hfound]
    exact ⟨_, List.mem_cons_self, rfl, rfl⟩
  · rw [contents_of_isDirectory hroot, hfound]
    exact Bytes.sort_nil
  · rw [contents_of_isDirectory hroot, hfound, hbare]
    simp only [List.filter_cons, hlost, Bool.false_and, Bool.false_eq_true, if_false]
    exact Bytes.sort_nil

/-- A root whose path is almost as long as a path can be. -/
def longRoot : Path := ⟨("srv" : Bytes) ++ List.replicate 4088 slash⟩

theorem length_longRoot : longRoot.text.length = 4091 := by
  rw [longRoot, List.length_append, List.length_replicate]
  rfl

theorem names_longRoot : longRoot.names = ["srv"] :=
  (Path.names_append_replicate_slash _ _).trans (by decide)

theorem no_nul_longRoot : 0 ∉ longRoot.text :=
  Path.no_nul_of_names (by rw [names_longRoot]; decide)

theorem find_longRoot : nested.find longRoot = .ok (.at ["srv"] (.dir Disk.openMode)) := by
  have hshort : longRoot.text.length ≤ maxPath := by
    rw [length_longRoot]
    decide
  refine Disk.find_of_follow_names no_nul_longRoot
    (List.append_ne_nil_of_left_ne_nil (by decide) _) hshort ?_
  rw [names_longRoot, show longRoot.isAbsolute = false from rfl]
  decide

/-- A path that is too long leads to no directory. -/
theorem isEmptyDirectory_longRoot :
    nested.isEmptyDirectory (longRoot / Path.mk "a directory") = false := by
  have hrel : (Path.mk "a directory").isAbsolute = false := by decide
  have hnul : 0 ∉ (longRoot / Path.mk "a directory" : Path).text :=
    (Path.reads_join no_nul_longRoot (by decide)).no_nul
  rw [Disk.isEmptyDirectory]
  split
  · rename_i hfind
    have hle := Path.le_length_join longRoot hrel
    rw [length_longRoot] at hle
    exact absurd (Nat.le_trans hle (Disk.short_of_find hnul hfind)) (by decide)
  · rfl

/-- A root that is not read to its end. -/
def cutRoot : Path := ⟨("srv" : Bytes) ++ 0 :: ("x" : Bytes)⟩

/-- By these roots an empty directory is listed as a directory, and nothing else at it or behind it. -/
theorem listings_fall_apart :
    nested.Sound ∧ (∀ q t, nested.get? q ≠ some (.link t)) ∧
      ∀ root ∈ [longRoot, cutRoot], nested.isDirectory root = true ∧
        ("a directory" : Bytes) ∈ (contents nested root).directories ∧
        (contents nested root).files = [] ∧ (contents nested root).emptyDirectories = [] ∧
        ¬(contents nested root).Coherent := by
  refine ⟨sound_nested, unlinked_nested, ?_⟩
  intro root hroot
  have hlost : nested.find root = .ok (.at ["srv"] (.dir Disk.openMode)) ∧
      nested.isEmptyDirectory (root / Path.mk "a directory") = false := by
    rcases List.mem_cons.1 hroot with rfl | hroot
    · exact ⟨find_longRoot, isEmptyDirectory_longRoot⟩
    · rw [List.mem_singleton.1 hroot]
      decide
  obtain ⟨hfind, hlost⟩ := hlost
  obtain ⟨hlisted, hfiles, hempty⟩ := contents_nested hfind hlost
  refine ⟨Disk.isDirectory_of_find hfind, hlisted, hfiles, hempty, ?_⟩
  intro hcoherent
  rcases (hcoherent.directory_iff "a directory" (by decide)).1 hlisted with ⟨f, hf, -⟩ | ⟨e, he, -⟩
  · rw [hfiles] at hf
    cases hf
  · rw [hempty] at he
    cases he

end FileCourier.LocalRoots
