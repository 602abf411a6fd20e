import FileCourier.LocalRoots
import FileCourier.Proofs.Cache.Taking
import FileCourier.Proofs.Path.Joining
import Mathlib.Data.List.Nodup
import Mathlib.Data.List.Pairwise

/-!
# Trees of files

A tree of files (`FileTree`) is what a source serves in one environment, and what stands below a place
of the disk. A source lists its files and its empty directories by their names. What lies below a
virtual directory is a tree again, whose names begin with the last segment of the directory
(`FileTree.below`): a copy root takes exactly these from a listing (`FileTree.filter_listedFiles`,
`FileTree.filter_listedDirectories`) and says where each of them goes
(`CopyRoot.destination?_listed`).
-/

namespace FileCourier

open LocalRoots (listed)
open FileCourier.Path (Segment)

/-- The names that lead to each file, with its content, and the names that lead to each directory
without entries. -/
structure FileTree where
  files : List (List Bytes × Bytes)
  emptyDirectories : List (List Bytes)
  deriving DecidableEq, Repr

variable {above ns ms P : List Bytes} {seg s : Bytes} {t : FileTree}

/-- Whether names lie strictly below others. -/
def liesBelow (P ns : List Bytes) : Bool := P.isPrefixOf ns && P != ns

theorem liesBelow_iff : liesBelow P ns = true ↔ ∃ rest, rest ≠ [] ∧ ns = P ++ rest := by
  rw [liesBelow, Bool.and_eq_true, List.isPrefixOf_iff_prefix, bne_iff_ne]
  constructor
  · rintro ⟨⟨rest, rfl⟩, hne⟩
    exact ⟨rest, fun hnil => hne (by rw [hnil, List.append_nil]), rfl⟩
  · rintro ⟨rest, hne, rfl⟩
    exact ⟨List.prefix_append P rest, by simpa using hne⟩

/-! ## Copy roots -/

namespace CopyRoot

/-- A copy root whose directory is written as it would be listed. -/
structure Names (root : CopyRoot) (above : List Bytes) (seg : Bytes) : Prop where
  segments : ∀ n ∈ above ++ [seg], Segment n
  path : root.path = listed (above ++ [seg])

/-- Before the last slash stand the names above. -/
theorem breakAtLast?_listed (h : ∀ n ∈ above ++ [seg], Segment n) :
    (match Bytes.breakAtLast? (Bytes.ascii '/') (listed (above ++ [seg])) with
      | some (before, _) => before
      | none => []) = listed above := by
  have hseg := h seg (List.mem_append_right _ List.mem_cons_self)
  cases hbreak : Bytes.breakAtLast? (Bytes.ascii '/') (listed (above ++ [seg])) with
  | none =>
    have hno := Bytes.breakAtLast?_eq_none hbreak
    by_cases hnil : above = []
    · rw [hnil]
      rfl
    · rw [Path.listed_append hnil (List.cons_ne_nil seg [])] at hno
      exact absurd (List.mem_append_right _ List.mem_cons_self) hno
  | some parts =>
    obtain ⟨before, last⟩ := parts
    have hcut : listed (above ++ [seg]) = before ++ slash :: last ∧ slash ∉ last :=
      Bytes.eq_append_of_breakAtLast? hbreak
    obtain ⟨htext, hlast⟩ := hcut
    by_cases hnil : above = []
    · rw [hnil, List.nil_append, Path.listed_singleton] at htext
      exact absurd (htext ▸ List.mem_append_right _ List.mem_cons_self) hseg.no_slash
    · -- The last slash of the text is the one before the last segment.
      rw [Path.listed_append hnil (List.cons_ne_nil seg []), Path.listed_singleton, List.append_cons,
        List.append_cons before] at htext
      have hcut := congrArg Path.upToSlash htext
      rw [Path.upToSlash_append List.getLast?_concat hseg.no_slash,
        Path.upToSlash_append List.getLast?_concat hlast] at hcut
      exact (List.append_cancel_right hcut).symm

/-- Slashes behind a virtual directory make no difference, and the copy keeps its last segment. -/
theorem of?_listed (h : ∀ n ∈ above ++ [seg], Segment n) (k : Nat) :
    CopyRoot.of? (VirtualPath.mark ++ (listed (above ++ [seg]) ++ List.replicate k slash)) =
      some ⟨listed (above ++ [seg]), listed above⟩ := by
  have htrim : ((listed (above ++ [seg]) ++ List.replicate k slash).reverse.dropWhile
      (· == Bytes.ascii '/')).reverse = listed (above ++ [seg]) :=
    Path.trimEnd_append_replicate (Path.getLast?_listed h) k
  rw [CopyRoot.of?, VirtualPath.strip?_eq_some_iff.2 rfl, Option.map_some, htrim]
  exact congrArg (fun parent => some (CopyRoot.mk _ parent)) (breakAtLast?_listed h)

/-- The parent of a copy root is written as it would be listed when the directory is. -/
theorem Names.eq {virtual : Bytes} {root : CopyRoot} (h : root.Names above seg)
    (hroot : CopyRoot.of? virtual = some root) : root = ⟨listed (above ++ [seg]), listed above⟩ := by
  obtain ⟨rest, -, hrest⟩ := Option.map_eq_some_iff.1 hroot
  obtain rfl := hrest
  have hpath : (rest.reverse.dropWhile (· == Bytes.ascii '/')).reverse = listed (above ++ [seg]) :=
    h.path
  dsimp only
  rw [hpath]
  exact congrArg (CopyRoot.mk _) (breakAtLast?_listed h.segments)

/-- A copy root holds what lies strictly below its names. -/
theorem contains_listed {parent : Bytes} (hP : ∀ n ∈ P, Segment n) (hne : P ≠ [])
    (hns : ∀ n ∈ ns, Segment n) :
    (CopyRoot.mk (listed P) parent).contains (listed ns) = liesBelow P ns := by
  rw [Bool.eq_iff_iff, contains, List.isPrefixOf_iff_prefix, liesBelow_iff]
  constructor
  · rintro ⟨t, ht⟩
    have htext : listed ns = listed P ++ slash :: t := by
      rw [← ht, List.append_assoc]
      rfl
    have hnames := Path.names_listed hns
    rw [htext, Path.names_mk_append_slash, Path.names_listed hP] at hnames
    refine ⟨(Path.mk t).names, fun hnil => ?_, hnames.symm⟩
    -- Nothing but slashes would follow, but no slash is at the end.
    rw [hnil, List.append_nil] at hnames
    rw [← hnames] at htext
    have hlength := congrArg List.length htext
    rw [List.length_append, List.length_cons] at hlength
    omega
  · rintro ⟨rest, hrest, rfl⟩
    refine ⟨listed rest, ?_⟩
    rw [Path.listed_append hne hrest, List.append_assoc]
    rfl

/-- A directory that is not written as it would be listed holds nothing that is listed. -/
theorem not_contains_listed {root : CopyRoot} (hroot : ∀ above seg, ¬root.Names above seg)
    (hns : ∀ n ∈ ns, Segment n) : root.contains (listed ns) = false := by
  rw [Bool.eq_false_iff, Ne, contains, List.isPrefixOf_iff_prefix]
  rintro ⟨rest, hrest⟩
  rw [List.append_assoc] at hrest
  obtain ⟨P, hne, hpre, hpath⟩ := Path.exists_listed_of_slash hns hrest.symm
  obtain ⟨above, seg, rfl⟩ : ∃ above seg, P = above ++ [seg] :=
    ⟨_, _, (List.dropLast_concat_getLast hne).symm⟩
  exact hroot above seg ⟨fun n hn => hns n (hpre.subset hn), hpath⟩

/-- A dot holds no slash. -/
theorem contains_dot (root : CopyRoot) : root.contains Path.dot = false := by
  rw [Bool.eq_false_iff, Ne, contains, List.isPrefixOf_iff_prefix]
  intro hpre
  exact absurd (hpre.subset (List.mem_append_right root.path List.mem_cons_self)) (by decide)

/-- The destination keeps the names from the last segment of the directory on. -/
theorem destination?_listed {rest : List Bytes} (h : ∀ n ∈ above ++ seg :: rest, Segment n) :
    (CopyRoot.mk (listed (above ++ [seg])) (listed above)).destination? (listed (above ++ seg :: rest)) =
      some (listed (seg :: rest)) := by
  have hdrop : VirtualPath.dropSlashes (listed (seg :: rest)) = listed (seg :: rest) :=
    Cache.dropSlashes_of_isAbsolute
      (Path.isAbsolute_listed fun n hn => h n (List.mem_append_right _ hn))
  by_cases hnil : above = []
  · rw [hnil, List.nil_append, destination?]
    exact (if_pos (Nat.zero_le _)).trans (congrArg some hdrop)
  · rw [destination?, Path.listed_append hnil (List.cons_ne_nil seg rest)]
    dsimp only
    rw [if_pos (by rw [List.length_append]; exact Nat.le_add_right _ _), List.drop_left]
    exact congrArg some hdrop

end CopyRoot

/-! ## Trees -/

namespace FileTree

/-- The names that lead to the files and to the empty directories. -/
def leaves (t : FileTree) : List (List Bytes) := t.files.map (·.1) ++ t.emptyDirectories

theorem mem_leaves_of_file {f : List Bytes × Bytes} (hf : f ∈ t.files) : f.1 ∈ t.leaves :=
  List.mem_append_left _ (List.mem_map_of_mem hf)

theorem mem_leaves_of_directory (hns : ns ∈ t.emptyDirectories) : ns ∈ t.leaves :=
  List.mem_append_right _ hns

/-- The names lead to a directory: the root, an empty one, or one above a leaf. -/
def IsDirectory (t : FileTree) (ns : List Bytes) : Prop :=
  ns = [] ∨ (∃ dir ∈ t.emptyDirectories, ns <+: dir) ∨ ∃ f ∈ t.files, ns <+: f.1 ∧ ns ≠ f.1

instance (t : FileTree) (ns : List Bytes) : Decidable (t.IsDirectory ns) :=
  inferInstanceAs (Decidable (ns = [] ∨ (∃ dir ∈ t.emptyDirectories, ns <+: dir) ∨
    ∃ f ∈ t.files, ns <+: f.1 ∧ ns ≠ f.1))

/-- Neither names are at or above the others. -/
def Apart (ns ms : List Bytes) : Prop := ¬ns <+: ms ∧ ¬ms <+: ns

instance (ns ms : List Bytes) : Decidable (Apart ns ms) :=
  inferInstanceAs (Decidable (¬ns <+: ms ∧ ¬ms <+: ns))

instance : Std.Symm Apart := ⟨fun _ _ h => ⟨h.2, h.1⟩⟩

/-- Each file has a name, all names are segments of a path, and no leaf is at or above another. -/
structure Consistent (t : FileTree) : Prop where
  ne_nil : ∀ f ∈ t.files, f.1 ≠ []
  segments : ∀ ns ∈ t.leaves, ∀ n ∈ ns, Segment n
  apart : t.leaves.Pairwise Apart

/-- A tree without leaves. -/
def empty : FileTree := ⟨[], []⟩

def addFile (t : FileTree) (f : List Bytes × Bytes) : FileTree := { t with files := t.files ++ [f] }

def addDirectory (t : FileTree) (ns : List Bytes) : FileTree :=
  { t with emptyDirectories := t.emptyDirectories ++ [ns] }

/-- What lies strictly below a virtual directory, from the last segment of that on. -/
def below (t : FileTree) (above : List Bytes) (seg : Bytes) : FileTree where
  files := (t.files.filter fun f => liesBelow (above ++ [seg]) f.1).map fun f =>
    (f.1.drop above.length, f.2)
  emptyDirectories := (t.emptyDirectories.filter (liesBelow (above ++ [seg]))).map
    (·.drop above.length)

theorem Apart.of_append (h : Apart (P ++ ns) (P ++ ms)) : Apart ns ms :=
  ⟨fun hpre => h.1 ((List.prefix_append_right_inj P).2 hpre),
    fun hpre => h.2 ((List.prefix_append_right_inj P).2 hpre)⟩

theorem leaves_below (t : FileTree) (above : List Bytes) (seg : Bytes) :
    (t.below above seg).leaves =
      (t.leaves.filter (liesBelow (above ++ [seg]))).map (·.drop above.length) := by
  rw [leaves, leaves, List.filter_append, List.map_append, List.filter_map]
  simp [below, Function.comp_def]

theorem mem_leaves_below : ns ∈ (t.below above seg).leaves ↔
    ∃ rest, rest ≠ [] ∧ above ++ seg :: rest ∈ t.leaves ∧ ns = seg :: rest := by
  rw [leaves_below, List.mem_map]
  constructor
  · rintro ⟨ms, hms, rfl⟩
    obtain ⟨hms, hbelow⟩ := List.mem_filter.1 hms
    obtain ⟨rest, hrest, rfl⟩ := liesBelow_iff.1 hbelow
    rw [List.append_assoc] at hms ⊢
    exact ⟨rest, hrest, hms, List.drop_left⟩
  · rintro ⟨rest, hrest, hmem, rfl⟩
    refine ⟨_, List.mem_filter.2 ⟨hmem, liesBelow_iff.2 ⟨rest, hrest, ?_⟩⟩, List.drop_left⟩
    rw [List.append_assoc]
    rfl

theorem mem_files_below : (ns, s) ∈ (t.below above seg).files ↔
    ∃ rest, rest ≠ [] ∧ (above ++ seg :: rest, s) ∈ t.files ∧ ns = seg :: rest := by
  rw [below, List.mem_map]
  constructor
  · rintro ⟨⟨ms, s'⟩, hms, heq⟩
    obtain ⟨hms, hbelow⟩ := List.mem_filter.1 hms
    obtain ⟨rest, hrest, rfl⟩ := liesBelow_iff.1 hbelow
    cases heq
    rw [List.append_assoc] at hms ⊢
    exact ⟨rest, hrest, hms, List.drop_left⟩
  · rintro ⟨rest, hrest, hmem, rfl⟩
    refine ⟨_, List.mem_filter.2 ⟨hmem, liesBelow_iff.2 ⟨rest, hrest, ?_⟩⟩, ?_⟩
    · rw [List.append_assoc]
      rfl
    · exact Prod.ext List.drop_left rfl

/-- What lies below a virtual directory keeps apart. -/
theorem Consistent.below (h : t.Consistent) (above : List Bytes) (seg : Bytes) :
    (t.below above seg).Consistent where
  ne_nil f hf := by
    obtain ⟨rest, -, -, heq⟩ := mem_files_below.1 hf
    exact heq ▸ List.cons_ne_nil seg rest
  segments ns hns n hn := by
    obtain ⟨rest, -, hmem, rfl⟩ := mem_leaves_below.1 hns
    exact h.segments _ hmem n (List.mem_append_right above hn)
  apart := by
    rw [leaves_below, List.pairwise_map]
    refine (h.apart.filter _).imp_of_mem fun {ns ms} hns hms hapart => ?_
    obtain ⟨x, -, rfl⟩ := liesBelow_iff.1 (List.mem_filter.1 hns).2
    obtain ⟨y, -, rfl⟩ := liesBelow_iff.1 (List.mem_filter.1 hms).2
    rw [List.append_assoc, List.append_assoc] at hapart ⊢
    rw [List.drop_left, List.drop_left]
    exact hapart.of_append

theorem Consistent.apart_directory (h : t.Consistent) {f : List Bytes × Bytes} (hf : f ∈ t.files)
    (hns : ns ∈ t.emptyDirectories) : Apart f.1 ns :=
  (List.pairwise_append.1 h.apart).2.2 _ (List.mem_map_of_mem hf) _ hns

theorem Consistent.apart_of_ne (h : t.Consistent) (hns : ns ∈ t.leaves) (hms : ms ∈ t.leaves)
    (hne : ns ≠ ms) : Apart ns ms :=
  h.apart.forall hns hms hne

/-- The names of a file say which file it is. -/
theorem Consistent.eq_of_names (h : t.Consistent) {f f' : List Bytes × Bytes} (hf : f ∈ t.files)
    (hf' : f' ∈ t.files) (heq : f.1 = f'.1) : f = f' := by
  have hnodup : (t.files.map (·.1)).Nodup := (List.pairwise_append.1 h.apart).1.imp
    fun {ns ms} (hapart : Apart ns ms) (hsame : ns = ms) => hapart.1 (hsame ▸ List.prefix_refl ns)
  exact List.inj_on_of_nodup_map hnodup hf hf' heq

/-- Behind whatever names, files are listed under different texts. -/
theorem Consistent.nodup_listed (h : t.Consistent) (habove : ∀ n ∈ above, Segment n) :
    (t.files.map fun f => listed (above ++ f.1)).Nodup := by
  have hnodup : t.files.Nodup := List.Nodup.of_map (·.1) <| (List.pairwise_append.1 h.apart).1.imp
    fun {ns ms} (hapart : Apart ns ms) (hsame : ns = ms) => hapart.1 (hsame ▸ List.prefix_refl ns)
  have segments {f : List Bytes × Bytes} (hf : f ∈ t.files) : ∀ n ∈ above ++ f.1, Segment n :=
    List.forall_mem_append.2 ⟨habove, h.segments _ (mem_leaves_of_file hf)⟩
  refine hnodup.map_on fun f hf f' hf' heq => h.eq_of_names hf hf' ?_
  have hnames := congrArg (fun text => (Path.mk text).names) heq
  rw [Path.names_listed (segments hf), Path.names_listed (segments hf')] at hnames
  exact List.append_cancel_left hnames

/-- A file keeps apart from those that are listed before it. -/
theorem Consistent.apart_before (h : t.Consistent) {before after : List (List Bytes × Bytes)}
    {f : List Bytes × Bytes} (hsplit : t.files = before ++ f :: after) :
    ∀ ms ∈ before.map (·.1), Apart ms f.1 := by
  have hfiles := (List.pairwise_append.1 h.apart).1
  rw [hsplit, List.map_append] at hfiles
  exact fun ms hms => (List.pairwise_append.1 hfiles).2.2 ms hms f.1 List.mem_cons_self

/-- Leaves are met by no other names on the way to a leaf: those that lead to a file lead nowhere
else. -/
theorem not_isDirectory_of_apart (hne : ns ≠ []) (h : ∀ ms ∈ t.leaves, Apart ms ns) :
    ¬t.IsDirectory ns := by
  rintro (hnil | ⟨dir, hdir, hpre⟩ | ⟨f, hf, hpre, -⟩)
  · exact hne hnil
  · exact (h dir (mem_leaves_of_directory hdir)).2 hpre
  · exact (h f.1 (mem_leaves_of_file hf)).2 hpre

/-! ### Listings -/

/-- A directory as it is listed; the root of the tree is a dot. -/
def listedDirectory (ns : List Bytes) : Bytes := if ns = [] then Path.dot else listed ns

def listedFiles (t : FileTree) : List Bytes := t.files.map fun f => listed f.1

def listedDirectories (t : FileTree) : List Bytes := t.emptyDirectories.map listedDirectory

/-- Of the names that lie below others, those that are left are behind the same names. -/
theorem append_drop_of_liesBelow (h : liesBelow (above ++ [seg]) ns = true) :
    above ++ ns.drop above.length = ns := by
  obtain ⟨rest, -, rfl⟩ := liesBelow_iff.1 h
  rw [List.append_assoc, List.drop_left]

theorem not_contains_of_mem_listedFiles {root : CopyRoot} {name : Bytes} (h : t.Consistent)
    (hroot : ∀ above seg, ¬root.Names above seg) (hname : name ∈ t.listedFiles) :
    root.contains name = false := by
  obtain ⟨f, hf, rfl⟩ := List.mem_map.1 hname
  exact CopyRoot.not_contains_listed hroot
    (h.segments _ (mem_leaves_of_file hf))

theorem not_contains_of_mem_listedDirectories {root : CopyRoot} {name : Bytes} (h : t.Consistent)
    (hroot : ∀ above seg, ¬root.Names above seg) (hname : name ∈ t.listedDirectories) :
    root.contains name = false := by
  obtain ⟨ns, hns, rfl⟩ := List.mem_map.1 hname
  by_cases hnil : ns = []
  · rw [listedDirectory, if_pos hnil]
    exact root.contains_dot
  · rw [listedDirectory, if_neg hnil]
    exact CopyRoot.not_contains_listed hroot (h.segments _ (mem_leaves_of_directory hns))

theorem filter_listedFiles (h : t.Consistent) (hP : ∀ n ∈ above ++ [seg], Segment n) (parent : Bytes) :
    t.listedFiles.filter (CopyRoot.mk (listed (above ++ [seg])) parent).contains =
      (t.below above seg).files.map fun f => listed (above ++ f.1) := by
  have hne : above ++ [seg] ≠ [] := List.append_ne_nil_of_right_ne_nil above (List.cons_ne_nil seg [])
  rw [listedFiles, List.filter_map, below, List.map_map]
  have hfilter : t.files.filter ((CopyRoot.mk (listed (above ++ [seg])) parent).contains ∘
      fun f => listed f.1) = t.files.filter fun f => liesBelow (above ++ [seg]) f.1 :=
    List.filter_congr fun f hf => CopyRoot.contains_listed hP hne
      (h.segments _ (mem_leaves_of_file hf))
  rw [hfilter]
  refine List.map_congr_left fun f hf => ?_
  exact congrArg listed (append_drop_of_liesBelow (List.mem_filter.1 hf).2).symm

theorem contains_listedDirectory {parent : Bytes} (hP : ∀ n ∈ P, Segment n) (hne : P ≠ [])
    (hns : ∀ n ∈ ns, Segment n) :
    (CopyRoot.mk (listed P) parent).contains (listedDirectory ns) = liesBelow P ns := by
  by_cases hnil : ns = []
  · subst hnil
    have hbelow : liesBelow P [] = false := by
      rw [Bool.eq_false_iff, Ne, liesBelow_iff]
      rintro ⟨rest, -, heq⟩
      exact hne (List.append_eq_nil_iff.1 heq.symm).1
    rw [hbelow]
    exact CopyRoot.contains_dot _
  · rw [listedDirectory, if_neg hnil]
    exact CopyRoot.contains_listed hP hne hns

theorem filter_listedDirectories (h : t.Consistent) (hP : ∀ n ∈ above ++ [seg], Segment n)
    (parent : Bytes) :
    t.listedDirectories.filter (CopyRoot.mk (listed (above ++ [seg])) parent).contains =
      (t.below above seg).emptyDirectories.map fun ns => listed (above ++ ns) := by
  have hne : above ++ [seg] ≠ [] := List.append_ne_nil_of_right_ne_nil above (List.cons_ne_nil seg [])
  rw [listedDirectories, List.filter_map, below, List.map_map]
  have hfilter : t.emptyDirectories.filter
      ((CopyRoot.mk (listed (above ++ [seg])) parent).contains ∘ listedDirectory) =
        t.emptyDirectories.filter (liesBelow (above ++ [seg])) :=
    List.filter_congr fun ns hns => contains_listedDirectory hP hne
      (h.segments _ (mem_leaves_of_directory hns))
  rw [hfilter]
  refine List.map_congr_left fun ns hns => ?_
  have hbelow := (List.mem_filter.1 hns).2
  have hsome : ns ≠ [] := fun hnil => by
    obtain ⟨rest, -, heq⟩ := liesBelow_iff.1 hbelow
    rw [hnil] at heq
    exact hne (List.append_eq_nil_iff.1 heq.symm).1
  exact (if_neg hsome).trans (congrArg listed (append_drop_of_liesBelow hbelow).symm)

/-! ### Directories -/

theorem IsDirectory.upwards (h : t.IsDirectory ms) (hpre : ns <+: ms) : t.IsDirectory ns := by
  rcases h with rfl | ⟨dir, hdir, hms⟩ | ⟨f, hf, hms, hne⟩
  · exact .inl (List.prefix_nil.1 hpre)
  · exact .inr (.inl ⟨dir, hdir, hpre.trans hms⟩)
  · refine .inr (.inr ⟨f, hf, hpre.trans hms, fun heq => hne ?_⟩)
    exact hms.eq_of_length_le (heq ▸ hpre.length_le)

theorem isDirectory_addDirectory : (t.addDirectory ms).IsDirectory ns ↔
    t.IsDirectory ns ∨ ns <+: ms := by
  simp only [IsDirectory, addDirectory, List.mem_append, List.mem_singleton]
  constructor
  · rintro (hnil | ⟨dir, hdir | rfl, hpre⟩ | hfile)
    · exact .inl (.inl hnil)
    · exact .inl (.inr (.inl ⟨dir, hdir, hpre⟩))
    · exact .inr hpre
    · exact .inl (.inr (.inr hfile))
  · rintro ((hnil | ⟨dir, hdir, hpre⟩ | hfile) | hpre)
    · exact .inl hnil
    · exact .inr (.inl ⟨dir, .inl hdir, hpre⟩)
    · exact .inr (.inr hfile)
    · exact .inr (.inl ⟨ms, .inr rfl, hpre⟩)

theorem isDirectory_addFile : (t.addFile (ms, s)).IsDirectory ns ↔
    t.IsDirectory ns ∨ ns <+: ms ∧ ns ≠ ms := by
  simp only [IsDirectory, addFile, List.mem_append, List.mem_singleton]
  constructor
  · rintro (hnil | hdir | ⟨f, hf | rfl, hpre⟩)
    · exact .inl (.inl hnil)
    · exact .inl (.inr (.inl hdir))
    · exact .inl (.inr (.inr ⟨f, hf, hpre⟩))
    · exact .inr hpre
  · rintro ((hnil | hdir | ⟨f, hf, hpre⟩) | hpre)
    · exact .inl hnil
    · exact .inr (.inl hdir)
    · exact .inr (.inr ⟨f, .inl hf, hpre⟩)
    · exact .inr (.inr ⟨(ms, s), .inr rfl, hpre⟩)

end FileTree

end FileCourier
