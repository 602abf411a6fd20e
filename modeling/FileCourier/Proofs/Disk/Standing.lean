import FileCourier.Proofs.Disk.Holding
import FileCourier.Proofs.Disk.Listing
import Mathlib.Algebra.Order.BigOperators.Group.List
import Mathlib.Algebra.Order.Group.Nat

/-!
# Trees that stand on a disk

What stands below a directory without links is a tree, and on a disk that is in order this tree can be
read off the entries (`Disk.treeAt`, `Sound.holding_treeAt`, `Sound.consistent_treeAt`).
-/

namespace FileCourier.Disk

variable {d : Disk} {root place : Place} {ns : List Bytes} {s : Bytes} {e : Entry}

theorem Sound.children_eq_nil_iff (hd : d.Sound) :
    d.children place = [] ↔ ∀ c, d.get? (place ++ [c]) = none := by
  rw [List.eq_nil_iff_forall_not_mem]
  constructor
  · intro h c
    cases he : d.get? (place ++ [c]) with
    | none => rfl
    | some e => exact absurd (hd.mem_children_iff.2 he) (h (c, e))
  · rintro h ⟨c, e⟩ hmem
    have he := hd.mem_children_iff.1 hmem
    rw [h c] at he
    cases he

/-- What stands at a place and below it, with the names that lead there. -/
def standing (d : Disk) (root : Place) : List (List Bytes × Entry) :=
  (d.entries.filter fun x => x.1 ≠ [] ∧ root <+: x.1).map fun x => (x.1.drop root.length, x.2)

/-- A file with its names. -/
def fileOf? (x : List Bytes × Entry) : Option (List Bytes × Bytes) :=
  match x.2 with
  | .file _ s => some (x.1, s)
  | _ => none

/-- The files at a place and below it, and the directories there that have no entries. -/
def treeAt (d : Disk) (root : Place) : FileTree where
  files := (d.standing root).filterMap fileOf?
  emptyDirectories :=
    ((d.standing root).filter fun x => Entry.isDir x.2 && (d.children (root ++ x.1)).isEmpty).map (·.1)

theorem fileOf?_eq_some_iff {x : List Bytes × Entry} :
    fileOf? x = some (ns, s) ↔ ∃ b, x = (ns, .file b s) := by
  obtain ⟨ms, e⟩ := x
  cases e <;> simp [fileOf?]

namespace Sound

theorem mem_standing_iff (h : d.Sound) :
    (ns, e) ∈ d.standing root ↔ root ++ ns ≠ [] ∧ d.get? (root ++ ns) = some e := by
  rw [standing, List.mem_map]
  constructor
  · rintro ⟨⟨place, e'⟩, hmem, heq⟩
    obtain ⟨hmem, hplace⟩ := List.mem_filter.1 hmem
    obtain ⟨hne, ms, rfl⟩ := of_decide_eq_true hplace
    rw [List.drop_left] at heq
    cases heq
    exact ⟨hne, h.get?_of_mem hne hmem⟩
  · rintro ⟨hne, he⟩
    refine ⟨(root ++ ns, e), List.mem_filter.2 ⟨mem_entries_of_get? hne he, ?_⟩, ?_⟩
    · exact decide_eq_true ⟨hne, List.prefix_append root ns⟩
    · rw [List.drop_left]

/-- No names lead to two things that stand. -/
theorem nodup_standing (h : d.Sound) : ((d.standing root).map (·.1)).Nodup := by
  have hpairwise : (d.entries.filter fun x => x.1 ≠ [] ∧ root <+: x.1).Pairwise (·.1 ≠ ·.1) :=
    (List.pairwise_map.1 h.once).filter _
  rw [standing, List.map_map]
  refine List.pairwise_map.2 (hpairwise.imp_of_mem fun {x y} hx hy hne heq => hne ?_)
  obtain ⟨-, ms, hms⟩ := of_decide_eq_true (List.mem_filter.1 hx).2
  obtain ⟨-, ms', hms'⟩ := of_decide_eq_true (List.mem_filter.1 hy).2
  have hdrop : x.1.drop root.length = y.1.drop root.length := heq
  rw [← hms, ← hms', List.drop_left, List.drop_left] at hdrop
  rw [← hms, ← hms', hdrop]

theorem mem_files_treeAt (h : d.Sound) :
    (ns, s) ∈ (d.treeAt root).files ↔ ∃ b, d.get? (root ++ ns) = some (.file b s) := by
  simp only [treeAt, List.mem_filterMap, fileOf?_eq_some_iff]
  constructor
  · rintro ⟨x, hx, b, rfl⟩
    exact ⟨b, (h.mem_standing_iff.1 hx).2⟩
  · rintro ⟨b, he⟩
    have hne : root ++ ns ≠ [] := fun hnil => by
      rw [hnil, get?_nil] at he
      cases he
    exact ⟨_, h.mem_standing_iff.2 ⟨hne, he⟩, b, rfl⟩

theorem mem_emptyDirectories_treeAt (h : d.Sound) : ns ∈ (d.treeAt root).emptyDirectories ↔
    root ++ ns ≠ [] ∧ (∃ m, d.get? (root ++ ns) = some (.dir m)) ∧ d.children (root ++ ns) = [] := by
  rw [treeAt, List.mem_map]
  constructor
  · rintro ⟨⟨ms, e⟩, hmem, rfl⟩
    obtain ⟨hmem, hbare⟩ := List.mem_filter.1 hmem
    obtain ⟨hne, he⟩ := h.mem_standing_iff.1 hmem
    obtain ⟨hdir, hbare⟩ := Bool.and_eq_true_iff.1 hbare
    cases e with
    | file | link => cases hdir
    | dir m => exact ⟨hne, ⟨m, he⟩, List.isEmpty_iff.1 hbare⟩
  · rintro ⟨hne, ⟨m, he⟩, hbare⟩
    refine ⟨(ns, .dir m), List.mem_filter.2 ⟨h.mem_standing_iff.2 ⟨hne, he⟩, ?_⟩, rfl⟩
    exact Bool.and_eq_true_iff.2 ⟨rfl, List.isEmpty_iff.2 hbare⟩

theorem nodup_leaves_treeAt (h : d.Sound) : (d.treeAt root).leaves.Nodup := by
  have hstanding : (d.standing root).Pairwise (·.1 ≠ ·.1) := List.pairwise_map.1 h.nodup_standing
  refine List.nodup_append.2 ⟨?files, ?directories, ?disjoint⟩
  case files =>
    refine List.pairwise_map.2 (List.pairwise_filterMap.2 (hstanding.imp fun {x y} hne => ?_))
    rintro ⟨ns, s⟩ hns ⟨ms, s'⟩ hms
    obtain ⟨b, rfl⟩ := fileOf?_eq_some_iff.1 hns
    obtain ⟨b', rfl⟩ := fileOf?_eq_some_iff.1 hms
    exact hne
  case directories => exact List.pairwise_map.2 (hstanding.filter _)
  case disjoint =>
    rintro ns hfile ms hdir rfl
    obtain ⟨⟨ns, s⟩, hmem, rfl⟩ := List.mem_map.1 hfile
    obtain ⟨b, he⟩ := h.mem_files_treeAt.1 hmem
    obtain ⟨-, ⟨m, hm⟩, -⟩ := h.mem_emptyDirectories_treeAt.1 hdir
    rw [he] at hm
    cases hm

/-- A leaf stands on the disk, and nothing stands below it. -/
theorem leaf_treeAt (h : d.Sound) (hns : ns ∈ (d.treeAt root).leaves) : d.get? (root ++ ns) ≠ none ∧
    ∀ ms, ms ≠ [] → d.get? (root ++ (ns ++ ms)) = none := by
  have bare {e : Entry} (he : d.get? (root ++ ns) = some e)
      (hchildren : ∀ m, e = .dir m → d.children (root ++ ns) = []) (ms : List Bytes) (hms : ms ≠ []) :
      d.get? (root ++ (ns ++ ms)) = none := by
    rw [← List.append_assoc]
    exact h.tree.below_of_children he hchildren (List.prefix_append _ ms)
      fun heq => hms (List.append_right_eq_self.1 heq)
  rcases List.mem_append.1 hns with hfile | hdir
  · obtain ⟨⟨ms, s⟩, hmem, rfl⟩ := List.mem_map.1 hfile
    obtain ⟨b, he⟩ := h.mem_files_treeAt.1 hmem
    exact ⟨ne_none_of_get? he, bare he fun m heq => by cases heq⟩
  · obtain ⟨-, ⟨m, he⟩, hbare⟩ := h.mem_emptyDirectories_treeAt.1 hdir
    exact ⟨ne_none_of_get? he, bare he fun _ _ => hbare⟩

/-- Each directory leads to a leaf: the way down ends because the disk is finite. -/
theorem isDirectory_treeAt (h : d.Sound) (hlink : ∀ {ns l}, d.get? (root ++ ns) ≠ some (.link l))
    (hdir : ∃ m, d.get? (root ++ ns) = some (.dir m)) : (d.treeAt root).IsDirectory ns := by
  obtain ⟨bound, hbound⟩ : ∃ bound, ∀ x ∈ d.entries, x.1.length ≤ bound :=
    ⟨(d.entries.map (·.1.length)).sum, fun x hx => List.le_sum_of_mem (List.mem_map_of_mem hx)⟩
  induction hk : bound - (root ++ ns).length using Nat.strong_induction_on generalizing ns with
  | _ k ih =>
    subst hk
    by_cases hnil : ns = []
    · exact .inl hnil
    have hne : root ++ ns ≠ [] := List.append_ne_nil_of_right_ne_nil root hnil
    by_cases hbare : d.children (root ++ ns) = []
    · exact .inr (.inl ⟨ns, h.mem_emptyDirectories_treeAt.2 ⟨hne, hdir, hbare⟩, List.prefix_refl ns⟩)
    obtain ⟨⟨c, e⟩, hchild⟩ := List.exists_mem_of_ne_nil _ hbare
    have he := h.mem_children_iff.1 hchild
    have hlength := hbound _ (mem_entries_of_get? (by simp) he)
    rw [List.append_assoc] at he
    cases e with
    | file b s =>
      exact .inr (.inr ⟨_, h.mem_files_treeAt.2 ⟨b, he⟩, List.prefix_append ns [c], by simp⟩)
    | dir m =>
      refine (ih _ ?_ ⟨m, he⟩ rfl).upwards (List.prefix_append ns [c])
      simp only [List.length_append, List.length_singleton] at hlength ⊢
      omega
    | link l => exact absurd he hlink

/-- What stands below a directory without links is a tree. -/
theorem holding_treeAt (h : d.Sound) (hroot : ∃ m, d.get? root = some (.dir m))
    (hlink : ∀ {ns l}, d.get? (root ++ ns) ≠ some (.link l)) : d.Holding root (d.treeAt root) where
  file := h.mem_files_treeAt.symm
  dir {ns} := by
    have above {ms : List Bytes} (hsome : d.get? (root ++ ms) ≠ none) (hpre : ns <+: ms)
        (hne : ns ≠ ms) : ∃ m, d.get? (root ++ ns) = some (.dir m) := by
      obtain ⟨x, rfl⟩ := hpre
      rw [← List.append_assoc] at hsome
      exact exists_dir_of_below (fun _ => h.tree _ _) List.nil_prefix
        (fun hnil => hne (by rw [hnil, List.append_nil])) hsome
    refine ⟨h.isDirectory_treeAt hlink, ?_⟩
    rintro (rfl | ⟨ms, hms, hpre⟩ | ⟨f, hf, hpre, hne⟩)
    · rwa [List.append_nil]
    · by_cases hne : ns = ms
      · exact hne ▸ (h.mem_emptyDirectories_treeAt.1 hms).2.1
      · exact above (h.leaf_treeAt (FileTree.mem_leaves_of_directory hms)).1 hpre hne
    · exact above (h.leaf_treeAt (FileTree.mem_leaves_of_file hf)).1 hpre hne
  noLink := hlink

theorem consistent_treeAt (h : d.Sound) (hroot : ∃ m, d.get? root = some (.dir m)) :
    (d.treeAt root).Consistent where
  ne_nil := by
    rintro ⟨ns, s⟩ hf rfl
    obtain ⟨b, he⟩ := h.mem_files_treeAt.1 hf
    obtain ⟨m, hm⟩ := hroot
    rw [List.append_nil, hm] at he
    cases he
  segments ns hns n hn := by
    obtain ⟨e, he⟩ := Option.ne_none_iff_exists'.1 (h.leaf_treeAt hns).1
    have hne : root ++ ns ≠ [] := List.append_ne_nil_of_right_ne_nil root (List.ne_nil_of_mem hn)
    exact (h.ordinary _ (mem_entries_of_get? hne he) n (List.mem_append_right root hn)).proper.segment
  apart := by
    have apart {ns ms : List Bytes} (hns : ns ∈ (d.treeAt root).leaves)
        (hms : ms ∈ (d.treeAt root).leaves) (hne : ns ≠ ms) : ¬ns <+: ms := by
      rintro ⟨x, rfl⟩
      obtain ⟨-, hbare⟩ := h.leaf_treeAt hns
      exact (h.leaf_treeAt hms).1 (hbare x fun hnil => hne (by rw [hnil, List.append_nil]))
    refine (nodup_leaves_treeAt h).imp_of_mem fun {ns ms} hns hms hne => ?_
    exact ⟨apart hns hms hne, apart hms hns hne.symm⟩

end Sound

end FileCourier.Disk
