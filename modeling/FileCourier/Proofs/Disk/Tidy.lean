import FileCourier.Proofs.Disk.Linkless
import FileCourier.Proofs.Disk.Missing
import FileCourier.Proofs.Disk.Site

/-!
# Disks in order without links

Where there are no links, a path of ordinary names names exactly the place that its names spell
(`Tidy.aims`, `Tidy.reads_of_find`). A directory or a file that is put under an ordinary name leaves
such a disk (`Tidy.put`), and a directory can be made where no file is in the way
(`Creatable.not_file`).
-/

namespace FileCourier.Disk

open FileCourier.Path (Ordinary Reads)

variable {d d' : Disk} {absolute : Bool} {parent q : Place} {ns : List Bytes} {c : Bytes} {path : Path}
  {e : Entry} {m : Nat} {x : Bool} {t : Bytes}

/-- A disk in order on which there are no links. -/
structure Tidy (d : Disk) : Prop extends Sound d where
  noLink : ∀ q t, d.get? q ≠ some (.link t)

namespace Tidy

theorem linkless (h : d.Tidy) : d.Linkless := ⟨h.toSound.grounded, h.noLink⟩

/-- What is no link can be put under an ordinary name in a directory where no directory stands. -/
theorem put (h : d.Tidy) (hparent : ∃ m, d.get? parent = some (.dir m)) (hc : Ordinary c)
    (hdir : ∀ m, d.get? (parent ++ [c]) ≠ some (.dir m)) (he : Entry.isLink e = false) :
    (d.put (parent ++ [c]) e).Tidy := by
  have hne : parent ++ [c] ≠ [] := by simp
  refine ⟨⟨?once, ?ordinary, ?tree, ?cwd⟩, ?noLink⟩
  case once =>
    refine List.nodup_cons.2 ⟨fun hmem => ?_, h.once.sublist (List.filter_sublist.map _)⟩
    obtain ⟨y, hy, heq⟩ := List.mem_map.1 hmem
    exact bne_iff_ne.1 (List.mem_filter.1 hy).2 heq
  case ordinary =>
    intro y hy n hn
    rcases List.mem_cons.1 hy with rfl | hy
    · rcases List.mem_append.1 hn with hn | hn
      · obtain ⟨m, hparent⟩ := hparent
        exact h.ordinary _ (mem_entries_of_get? (List.ne_nil_of_mem hn) hparent) n hn
      · rwa [List.mem_singleton.1 hn]
    · exact h.ordinary y (List.mem_filter.1 hy).1 n hn
  case tree =>
    refine h.tree.put (fun p y heq => ?_) hne (.inr fun r => h.tree.get?_below hdir)
    obtain ⟨rfl, -⟩ := List.append_inj' heq rfl
    exact hparent
  case cwd =>
    obtain ⟨k, hcwd⟩ := h.cwd
    refine ⟨k, (get?_put_of_ne ?_).trans hcwd⟩
    rintro heq
    exact hdir k (heq ▸ hcwd)
  case noLink =>
    intro p l hl
    by_cases hp : p = parent ++ [c]
    · rw [hp, get?_put_self hne] at hl
      cases hl
      cases he
    · rw [get?_put_of_ne hp] at hl
      exact h.noLink p l hl

/-! ## Paths of ordinary names -/

/-- A path leads to its last name in the directory that the names before it spell, also after changes
that put no link there. -/
theorem aims_of_keeps (h : d.Tidy) (hp : Reads absolute (ns ++ [c]) path)
    (hns : ∀ n ∈ ns ++ [c], Ordinary n) (hshort : path.text.length ≤ maxPath)
    (hdir : ∃ m, d.get? (d.base absolute ++ ns) = some (.dir m)) (hk : Keeps d d')
    (hlink : ∀ t, d'.get? (d.base absolute ++ ns ++ [c]) ≠ some (.link t)) :
    Aims d' path (d.base absolute ++ ns) c := by
  obtain ⟨m, hdir⟩ := hdir
  have hpasses : Passes d (d.base absolute) ns (d.base absolute ++ ns) :=
    passes_of_below (fun _ => h.tree _ _) List.nil_prefix
      (fun n hn => (hns n (List.mem_append_left _ hn)).toNamed) hdir
  have hend : d.follow true maxLinks (d.base absolute ++ ns) [] =
      .ok (.at (d.base absolute ++ ns) (.dir m)) := by rw [follow, (Ends.here hdir).reach_eq]
  have hfollow := (follow_of_passes hpasses true maxLinks []).trans hend
  rw [List.append_nil] at hfollow
  obtain ⟨m', hfollow'⟩ := hk.exists_follow hfollow
  exact aims_of_follow hp hshort hfollow' (hns c (by simp)).toNamed hlink

theorem aims (h : d.Tidy) (hp : Reads absolute (ns ++ [c]) path) (hns : ∀ n ∈ ns ++ [c], Ordinary n)
    (hshort : path.text.length ≤ maxPath)
    (hdir : ∃ m, d.get? (d.base absolute ++ ns) = some (.dir m)) :
    Aims d path (d.base absolute ++ ns) c :=
  h.aims_of_keeps hp hns hshort hdir (keeps_refl d) (h.noLink _)

/-- A file whose path has ordinary names is read along them and stands at the place that they spell. -/
theorem reads_of_find (h : d.Tidy) (hns : ∀ n ∈ path.names, Ordinary n)
    (hfind : d.find path = .ok (.at q (.file x t))) :
    Reads path.isAbsolute path.names path ∧ q = d.base path.isAbsolute ++ path.names := by
  have hnul := Path.no_nul_of_names hns
  have hfile : d.isFile path = true := by rw [isFile, entryAt?_of_find hfind]
  have hreads : Reads path.isAbsolute path.names path :=
    ⟨rfl, rfl, h.linkless.endsInSlash_of_isFile hnul hfile, hnul⟩
  exact ⟨hreads, place_of_follow (fun q t _ => h.noLink q t) (List.prefix_refl _)
    (fun n hn => (hns n hn).proper) (follow_of_find hreads hfind)⟩

end Tidy

/-! ## Directories that can be made -/

theorem IsTree.exists_dir_of_append (htree : d.IsTree) (hdir : d.get? (q ++ ns) = some (.dir m)) :
    ∃ m, d.get? q = some (.dir m) := by
  by_cases hns : ns = []
  · rw [hns, List.append_nil] at hdir
    exact ⟨m, hdir⟩
  · exact exists_dir_of_below (fun _ => htree _ _) List.nil_prefix hns (ne_none_of_get? hdir)

/-- A directory is at the end of the path, or can come to be there with nothing taken away. -/
def Creatable (d : Disk) (path : Path) : Prop :=
  ∃ d', Grows d d' ∧ d'.Linkless ∧ d'.isDirectory path = true

/-- No file is on the way to a directory that can be made. -/
theorem Creatable.not_file (h : d.Creatable path) (hns : ∀ n ∈ path.names, Ordinary n)
    (hpre : ns <+: path.names) : d.get? (d.base path.isAbsolute ++ ns) ≠ some (.file x t) := by
  intro hfile
  obtain ⟨d', hgrows, hd', hdirectory⟩ := h
  obtain ⟨q, m, hfind⟩ := find_of_isDirectory hdirectory
  have hfollow := follow_names_of_find hd'.tree (hd'.base _) (Path.no_nul_of_names hns) hfind
  have hplace : q = d'.base path.isAbsolute ++ path.names :=
    place_of_follow (fun q t _ => hd'.noLink q t) (List.prefix_refl _)
      (fun n hn => (hns n hn).proper) hfollow
  have hdir := get?_of_find hfind
  obtain ⟨rest, hrest⟩ := hpre
  rw [hplace, ← hrest, ← List.append_assoc] at hdir
  obtain ⟨k, hk⟩ := hd'.tree.exists_dir_of_append hdir
  rw [base, hgrows.cwd, ← base, hgrows.get? hfile] at hk
  cases hk

end FileCourier.Disk
