import FileCourier.Proofs.Disk.Standing
import FileCourier.Proofs.LocalRoots.Fetching

/-!
# Local roots that hold a tree

When the only root of an environment holds a tree of directories and files (`Hosts`), its listings are
those of the tree (`Hosts.mem_files_iff`, `Hosts.mem_emptyDirectories_iff`), and each file of the tree
is found where it stands (`Hosts.find_eq`). A root without links always holds a tree (`hosts_treeAt`).
-/

namespace FileCourier

open Disk (Rooted maxPath)
open FileCourier.Path (Ordinary)

namespace Disk

variable {d : Disk} {here : Path} {root place : Place} {ns : List Bytes} {e : Entry} {f : Found}
  {t : FileTree} {m : Nat}

/-- Where there are no links, a walk comes to all that stands below. -/
theorem descends_iff_get? (htree : d.IsTree) (hlink : ∀ q t, place <+: q → d.get? q ≠ some (.link t)) :
    Descends d here place ns e ↔ ns ≠ [] ∧ d.get? (place ++ ns) = some e := by
  constructor
  · intro h
    refine ⟨h.ne_nil, ?_⟩
    induction h with
    | child he => exact he
    | dir _ _ ih =>
      rw [List.append_cons]
      exact ih fun q t hq => hlink q t ((List.prefix_append _ _).trans hq)
    | link he => exact absurd he (hlink _ _ (List.prefix_append _ _))
  · rintro ⟨hne, he⟩
    induction ns generalizing here place with
    | nil => exact absurd rfl hne
    | cons c ns ih =>
      by_cases hnil : ns = []
      · subst hnil
        exact .child he
      · rw [List.append_cons] at he
        obtain ⟨m, hdir⟩ := exists_dir_of_below (fun _ => htree _ _) List.nil_prefix hnil
          (ne_none_of_get? he)
        exact .dir hdir (ih (fun q t hq => hlink q t ((List.prefix_append _ _).trans hq)) hnil he)

/-- What is found below a directory without links is what stands there. -/
theorem Rooted.mem_below_iff (h : Rooted here root d) (hd : d.Sound)
    (hfind : d.find here = .ok (.at root (.dir m))) : f ∈ d.below here ↔
      ∃ ns e, ns ≠ [] ∧ ns.length ≤ maxPath + 1 ∧ d.get? (root ++ ns) = some e ∧
        f = ⟨ns, here.along ns, e⟩ := by
  have hdescends (ns : List Bytes) (e : Entry) :
      Descends d here root ns e ↔ ns ≠ [] ∧ d.get? (root ++ ns) = some e :=
    descends_iff_get? hd.tree fun _ _ => h.site.noLink
  rw [below, hfind]
  simp only [mem_walk_iff hd, hdescends, List.nil_append]
  constructor
  · rintro ⟨ns, e, hlength, ⟨hne, he⟩, rfl⟩
    exact ⟨ns, e, hne, hlength, he, rfl⟩
  · rintro ⟨ns, e, hne, hlength, he, rfl⟩
    exact ⟨ns, e, hlength, ⟨hne, he⟩, rfl⟩

/-- Something stands all along the names of a leaf. -/
theorem Holding.ne_none_of_leaf (h : d.Holding root t) {ms : List Bytes} (hms : ms ∈ t.leaves)
    (hpre : ns <+: ms) : d.get? (root ++ ns) ≠ none := by
  have directory (hdir : t.IsDirectory ns) : d.get? (root ++ ns) ≠ none := by
    obtain ⟨m, hm⟩ := h.dir.2 hdir
    exact ne_none_of_get? hm
  rcases List.mem_append.1 hms with hfile | hdir
  · obtain ⟨⟨ms, s⟩, hmem, rfl⟩ := List.mem_map.1 hfile
    by_cases heq : ns = ms
    · obtain ⟨x, hx⟩ := h.file.2 hmem
      rw [heq, hx]
      exact Option.some_ne_none _
    · exact directory (.inr (.inr ⟨_, hmem, hpre, heq⟩))
  · exact directory (.inr (.inl ⟨ms, hdir, hpre⟩))

/-- The directories of a tree that have no entries are those that it lists as empty. -/
theorem Holding.children_eq_nil_iff (h : d.Holding root t) (hd : d.Sound) (ht : t.Consistent)
    (hne : ns ≠ []) (hdir : d.get? (root ++ ns) = some (.dir m)) :
    d.children (root ++ ns) = [] ↔ ns ∈ t.emptyDirectories := by
  rw [hd.children_eq_nil_iff]
  simp only [List.append_assoc]
  constructor
  · intro hbare
    have last {ms : List Bytes} (hms : ms ∈ t.leaves) (hpre : ns <+: ms) : ns = ms := by
      obtain ⟨x, rfl⟩ := hpre
      cases x with
      | nil => exact (List.append_nil ns).symm
      | cons c x =>
        rw [List.append_cons] at hms
        exact absurd (hbare c) (h.ne_none_of_leaf hms (List.prefix_append _ x))
    rcases h.dir.1 ⟨m, hdir⟩ with hnil | ⟨ms, hms, hpre⟩ | ⟨f, hf, hpre, hother⟩
    · exact absurd hnil hne
    · exact last (FileTree.mem_leaves_of_directory hms) hpre ▸ hms
    · exact absurd (last (FileTree.mem_leaves_of_file hf) hpre) hother
  · intro hmem c
    have apart {ms : List Bytes} (hms : ms ∈ t.leaves) (hpre : ns ++ [c] <+: ms) : False := by
      have hns : ns ∈ t.leaves := FileTree.mem_leaves_of_directory hmem
      by_cases heq : ns = ms
      · have hlength := hpre.length_le
        rw [← heq, List.length_append] at hlength
        exact Nat.not_succ_le_self _ hlength
      · exact (ht.apart_of_ne hns hms heq).1 ((List.prefix_append ns [c]).trans hpre)
    refine h.get?_eq_none (fun s hfile => ?_) ?_
    · exact apart (FileTree.mem_leaves_of_file hfile) (List.prefix_refl _)
    · rintro (hnil | ⟨ms, hms, hpre⟩ | ⟨f, hf, hpre, -⟩)
      · exact List.append_ne_nil_of_right_ne_nil ns (List.cons_ne_nil c []) hnil
      · exact apart (FileTree.mem_leaves_of_directory hms) hpre
      · exact apart (FileTree.mem_leaves_of_file hf) hpre

/-- A path to an empty directory leads to the place that its names spell. -/
theorem Rooted.children_of_isEmptyDirectory (h : Rooted here root d) (hns : ∀ n ∈ ns, Ordinary n)
    (hne : ns ≠ []) (hempty : d.isEmptyDirectory (here.along ns) = true) :
    d.children (root ++ ns) = [] := by
  have hbehind := h.behind (fun n hn => (hns n hn).proper) hne
  rw [isEmptyDirectory] at hempty
  split at hempty
  · rename_i place m hfind
    have hplace : place = root ++ ns :=
      h.site.place_eq hbehind.proper hne (follow_of_find hbehind.reads hfind)
    rw [← hplace]
    exact List.isEmpty_iff.1 hempty
  · cases hempty

theorem Rooted.isEmptyDirectory (h : Rooted here root d) (hns : ∀ n ∈ ns, Ordinary n) (hne : ns ≠ [])
    (hshort : (here.along ns).text.length ≤ maxPath) (hdir : d.get? (root ++ ns) = some (.dir m))
    (hbare : d.children (root ++ ns) = []) : d.isEmptyDirectory (here.along ns) = true := by
  rw [Disk.isEmptyDirectory, h.find_at hns hne hshort hdir]
  exact List.isEmpty_iff.2 hbare

end Disk

namespace LocalRoots

variable {d : Disk} {s : Settings} {env name content : Bytes} {root : Path} {R : Place} {t : FileTree}
  {ns : List Bytes}

/-- The only root of an environment is a directory that holds a tree, all of which can be looked up. -/
structure Hosts (s : Settings) (env : Bytes) (root : Path) (R : Place) (t : FileTree) (d : Disk) :
    Prop where
  only : rootsOf s env = [root]
  sound : d.Sound
  no_nul : 0 ∉ root.text
  find : ∃ m, d.find root = .ok (.at R (.dir m))
  holding : d.Holding R t
  consistent : t.Consistent
  short : ∀ ns ∈ t.leaves, (root.along ns).text.length ≤ maxPath

/-- What a root lists as empty directories. -/
theorem mem_emptyDirectories_iff : name ∈ (contents d root).emptyDirectories ↔
    d.isDirectory root = true ∧ (d.isEmptyDirectory root = true ∧ name = Path.dot ∨
      ∃ x ∈ d.below root, d.isEmptyDirectory x.path = true ∧ x.isDirectory d = true ∧
        listed x.names = name) := by
  cases hroot : d.isDirectory root with
  | false => simp [contents, hroot]
  | true =>
    cases hempty : d.isEmptyDirectory root with
    | false => simp [contents, hroot, hempty, Bytes.mem_sort, and_assoc]
    | true => simp [contents, hroot, hempty, Bytes.mem_sort, and_assoc]

/-- A root without links hosts the tree that stands there, when all of it can be looked up. -/
theorem hosts_treeAt (honly : rootsOf s env = [root]) (hd : d.Sound) (hnul : 0 ∉ root.text)
    (hfind : ∃ m, d.find root = .ok (.at R (.dir m)))
    (hlink : ∀ {ns l}, d.get? (R ++ ns) ≠ some (.link l))
    (hshort : ∀ ns ∈ (d.treeAt R).leaves, (root.along ns).text.length ≤ maxPath) :
    Hosts s env root R (d.treeAt R) d := by
  obtain ⟨m, hm⟩ := hfind
  have hroot : ∃ m, d.get? R = some (.dir m) := ⟨m, Disk.get?_of_find hm⟩
  exact ⟨honly, hd, hnul, ⟨m, hm⟩, hd.holding_treeAt hroot hlink, hd.consistent_treeAt hroot, hshort⟩

namespace Hosts

theorem listing_eq (h : Hosts s env root R t d) (part : Contents → List Bytes) :
    listing s part env d = part (contents d root) := by
  rw [listing, h.only, List.flatMap_singleton]

theorem rooted (h : Hosts s env root R t d) : Rooted root R d := by
  obtain ⟨m, hfind⟩ := h.find
  refine Disk.rooted_of_find h.sound.grounded h.no_nul hfind ?_
  rintro q l ⟨ns, rfl⟩
  exact h.holding.noLink

theorem isDirectory (h : Hosts s env root R t d) : d.isDirectory root = true := by
  obtain ⟨m, hfind⟩ := h.find
  exact Disk.isDirectory_of_find hfind

theorem ordinary (h : Hosts s env root R t d) (hsome : d.get? (R ++ ns) ≠ none) :
    ∀ n ∈ ns, Ordinary n := by
  intro n hn
  obtain ⟨e, he⟩ := Option.ne_none_iff_exists'.1 hsome
  have hne : R ++ ns ≠ [] := List.append_ne_nil_of_right_ne_nil R (List.ne_nil_of_mem hn)
  exact h.sound.ordinary _ (Disk.mem_entries_of_get? hne he) n (List.mem_append_right R hn)

theorem ordinary_of_leaf (h : Hosts s env root R t d) (hns : ns ∈ t.leaves) : ∀ n ∈ ns, Ordinary n :=
  h.ordinary (h.holding.ne_none_of_leaf hns (List.prefix_refl ns))

theorem length_le_of_leaf (h : Hosts s env root R t d) (hns : ns ∈ t.leaves) :
    ns.length ≤ maxPath + 1 := by
  have hle := Path.le_length_along root fun n hn => (h.ordinary_of_leaf hns n hn).proper
  have hshort := h.short ns hns
  omega

theorem mem_files_iff (h : Hosts s env root R t d) :
    name ∈ (contents d root).files ↔ name ∈ t.listedFiles := by
  obtain ⟨m, hfind⟩ := h.find
  rw [LocalRoots.mem_files_iff, h.isDirectory, FileTree.listedFiles, List.mem_map]
  simp only [h.rooted.mem_below_iff h.sound hfind]
  constructor
  · rintro ⟨-, x, ⟨ns, e, -, -, he, rfl⟩, hdir, rfl⟩
    cases e with
    | file b content => exact ⟨(ns, content), h.holding.file.1 ⟨b, he⟩, rfl⟩
    | dir m => cases hdir
    | link l => exact absurd he h.holding.noLink
  · rintro ⟨⟨ns, content⟩, hmem, rfl⟩
    have hleaf : ns ∈ t.leaves := FileTree.mem_leaves_of_file hmem
    obtain ⟨b, he⟩ := h.holding.file.2 hmem
    exact ⟨trivial, _, ⟨ns, _, h.consistent.ne_nil _ hmem, h.length_le_of_leaf hleaf, he, rfl⟩, rfl, rfl⟩

/-- The dot says only that the root itself is empty. -/
theorem mem_emptyDirectories_iff (h : Hosts s env root R t d) (hname : name ≠ Path.dot) :
    name ∈ (contents d root).emptyDirectories ↔ name ∈ t.listedDirectories := by
  obtain ⟨m, hfind⟩ := h.find
  rw [LocalRoots.mem_emptyDirectories_iff, h.isDirectory, FileTree.listedDirectories, List.mem_map]
  simp only [h.rooted.mem_below_iff h.sound hfind]
  constructor
  · rintro ⟨-, ⟨-, hdot⟩ | ⟨x, ⟨ns, e, hne, -, he, rfl⟩, hempty, hdir, rfl⟩⟩
    · exact absurd hdot hname
    · have hordinary := h.ordinary (Disk.ne_none_of_get? he)
      cases e with
      | file b content => cases hdir
      | dir m =>
        have hbare := h.rooted.children_of_isEmptyDirectory hordinary hne hempty
        exact ⟨ns, (h.holding.children_eq_nil_iff h.sound h.consistent hne he).1 hbare, if_neg hne⟩
      | link l => exact absurd he h.holding.noLink
  · rintro ⟨ns, hmem, rfl⟩
    have hne : ns ≠ [] := fun hnil => hname (if_pos hnil)
    have hleaf : ns ∈ t.leaves := FileTree.mem_leaves_of_directory hmem
    obtain ⟨k, he⟩ := h.holding.dir.2 (.inr (.inl ⟨ns, hmem, List.prefix_refl ns⟩))
    have hbare := (h.holding.children_eq_nil_iff h.sound h.consistent hne he).2 hmem
    have hempty := h.rooted.isEmptyDirectory (h.ordinary_of_leaf hleaf) hne (h.short ns hleaf) he hbare
    exact ⟨trivial, .inr ⟨_, ⟨ns, _, hne, h.length_le_of_leaf hleaf, he, rfl⟩, hempty, rfl,
      (if_neg hne).symm⟩⟩

/-- A file of the tree is found where it stands, unless its name begins with the escape marker. -/
theorem find_eq (h : Hosts s env root R t d) (hmem : (ns, content) ∈ t.files)
    (hhead : (listed ns).head? ≠ some (Bytes.ascii '|')) :
    LocalRoots.find s (listed ns) env d = some (root.along ns) := by
  have hleaf : ns ∈ t.leaves := FileTree.mem_leaves_of_file hmem
  have hproper := fun n hn => (h.ordinary_of_leaf hleaf n hn).proper
  have hne := h.consistent.ne_nil _ hmem
  have hplain := Path.plain_spell hproper hne
  have hjoin : root / Path.mk (listed ns) = root.along ns := by
    rw [Path.listed_eq_spell hproper]
    exact Path.join_spell root hproper hne
  obtain ⟨b, he⟩ := h.holding.file.2 hmem
  have hfile : d.isFile (root.along ns) = true := by
    rw [Disk.isFile, Disk.entryAt?_of_find
      (h.rooted.find_at (h.ordinary_of_leaf hleaf) hne (h.short ns hleaf) he)]
  have hrelative : relative? (listed ns) = some (listed ns) := by
    refine relative?_eq_some ?_ ?_ hhead
    · rw [Path.listed_eq_spell hproper]
      exact hplain.text_ne_nil
    · rw [Path.listed_eq_spell hproper]
      exact hplain.isAbsolute_eq
  rw [LocalRoots.find, hrelative, Option.bind_some, h.only]
  change [root / Path.mk (listed ns)].find? d.isFile = _
  rw [hjoin, List.find?_singleton, hfile, if_pos rfl]

end Hosts

end LocalRoots

end FileCourier
