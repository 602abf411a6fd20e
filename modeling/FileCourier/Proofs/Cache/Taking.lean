import FileCourier.Proofs.Action
import FileCourier.Proofs.Cache.Making

/-!
# A cache can take a file

When a cache is an existing directory without links in it, the directories above the place of a file
can be made in it for any ordinary name that is not too long (`Ready.exists_destination`), whatever
the cache holds at that place or on the way to it.
-/

/-! ## Destinations in the cache -/

namespace FileCourier.Cache

variable {c : Cache} {p q : Path} {d d' : Disk}

theorem prepare_apply (c : Cache) (p : Path) (d : Disk) :
    c.prepare p d =
      match if p.parent.isEmpty then (.ok (), d) else c.ensureDirectory p.parent d with
      | (.ok (), d) => (.ok p, d)
      | (.error e, d) => (.error e, d) := by
  rw [prepare]
  cases hempty : p.parent.isEmpty with
  | true => rfl
  | false =>
    simp only [Bool.not_false, if_true, Bool.false_eq_true, if_false]
    cases hensure : c.ensureDirectory p.parent d with
    | mk result d' =>
      cases result with
      | error e => exact Action.bind_error hensure
      | ok u => exact Action.bind_ok hensure

theorem eq_of_prepare (h : c.prepare p d = (.ok q, d')) : q = p := by
  rw [prepare_apply] at h
  split at h
  · cases h
    rfl
  · cases h

end FileCourier.Cache

namespace FileCourier

open Disk (Points maxPath)
open FileCourier.Path (Ordinary Relative Spells weight)

/-- A directory in a region is removed with everything below it. -/
theorem Disk.Points.exists_removeAll {ground d : Disk} {P parent : Place} {path : Path} {a : Bytes}
    {m : Nat} (h : Points ground P d path parent a)
    (hdir : d.get? (parent ++ [a]) = some (.dir m)) :
    ∃ d', Chores.removeAll path d = (.ok (), d') ∧ Points ground P d' path parent a ∧
      d'.get? (parent ++ [a]) = none := by
  have hcleared : (d.clear (parent ++ [a])).get? (parent ++ [a]) = some (.dir m) := by
    rwa [Disk.get?_clear_of_not_below fun hbelow => hbelow.2 rfl]
  have hremove := h.clear.aims.remove_dir hcleared (Disk.children_clear d _)
  refine ⟨(d.clear (parent ++ [a])).drop (parent ++ [a]), ?_, ?_, Disk.get?_drop_self (by simp)⟩
  · rw [Chores.removeAll, Action.get_bind, h.aims.emptied_eq hdir]
    refine (Action.bind_ok rfl).trans ?_
    rw [Chores.remove, Action.get_bind, hremove]
    rfl
  · exact h.clear.drop fun _ => Disk.get?_clear_of_below

namespace Cache

variable {c : Cache} {env name : Bytes} {d : Disk}

/-- The cache is an existing directory with only directories and files in it, on the way to which
nothing in the cache is passed. -/
structure Ready (c : Cache) (d : Disk) : Prop where
  tree : d.IsTree
  root : ∃ P m, (d.clear P).find c.root = .ok (.at P (.dir m)) ∧
    ∀ q t, P <+: q → d.get? q ≠ some (.link t)
  ordinary : ∀ n ∈ c.root.names, Ordinary n

/-- On a disk without links every cache directory of ordinary names that exists is ready. -/
theorem ready_of_no_links (htree : d.IsTree) (hlink : ∀ q t, d.get? q ≠ some (.link t))
    (hnames : ∀ n ∈ c.root.names, Ordinary n) (h : d.isDirectory c.root = true) : c.Ready d := by
  refine ⟨htree, ?_, hnames⟩
  rw [Disk.isDirectory, Disk.entryAt?] at h
  split at h
  · rename_i m hentry
    split at hentry
    · rename_i P e hfind
      cases hentry
      exact ⟨P, m, Disk.find_clear hlink hnames hfind, fun q t _ => hlink q t⟩
    · cases hentry
  · cases h

/-- Where the files of an environment are kept, from the root of the cache. -/
def filesNames (env : Bytes) : List Bytes := ["files", env]

theorem ordinary_files : Ordinary "files" := by decide

theorem isAbsolute_dropSlashes (name : Bytes) :
    (Path.mk (VirtualPath.dropSlashes name)).isAbsolute = false := by
  have hhead := List.head?_dropWhile_not (· == slash) name
  rw [Path.isAbsolute, VirtualPath.dropSlashes]
  cases hx : (name.dropWhile (· == slash)).head? with
  | none =>
    rw [show Bytes.ascii '/' = slash from rfl, hx]
    rfl
  | some x =>
    rw [hx] at hhead
    rw [show Bytes.ascii '/' = slash from rfl, hx]
    exact hhead

theorem dropSlashes_of_isAbsolute (h : (Path.mk name).isAbsolute = false) :
    VirtualPath.dropSlashes name = name := by
  cases name with
  | nil => rfl
  | cons x s =>
    have hx : x ≠ slash := by
      rintro rfl
      cases h
    have hkept : (x == Bytes.ascii '/') = false := beq_eq_false_iff_ne.2 hx
    rw [VirtualPath.dropSlashes, List.dropWhile_cons, hkept]
    rfl

theorem names_dropSlashes (name : Bytes) :
    (Path.mk (VirtualPath.dropSlashes name)).names = (Path.mk name).names := by
  induction name with
  | nil => rfl
  | cons x s ih =>
    by_cases hx : x = slash
    · subst hx
      exact ih.trans (Path.names_mk_append_slash [] s).symm
    · have hrelative : (Path.mk (x :: s)).isAbsolute = false := beq_eq_false_iff_ne.2 (by simpa using hx)
      rw [dropSlashes_of_isAbsolute hrelative]

theorem dropSlashes_of_relative (h : Relative ⟨name⟩) : VirtualPath.dropSlashes name = name :=
  dropSlashes_of_isAbsolute h.isAbsolute_eq

/-- The place of a file has the names of the cache, those of the environment and its own. -/
theorem spells_filePath (henv : Ordinary env) (hname : Relative ⟨name⟩)
    (hshort : (c.filePath env name).text.length ≤ maxPath) :
    Spells c.root.isAbsolute (c.root.names ++ filesNames env ++ (Path.mk name).names)
      (c.filePath env name) := by
  have hpath : c.filePath env name = ((c.root / Path.mk "files") / Path.mk env) / Path.mk name := by
    rw [filePath, dropSlashes_of_relative hname]
    rfl
  refine ⟨?_, ?_, ?_, hshort⟩
  · rw [hpath, Path.isAbsolute_join _ hname.isAbsolute_eq, Path.isAbsolute_join _ henv.isAbsolute,
      Path.isAbsolute_join _ ordinary_files.isAbsolute]
  · rw [hpath, Path.names_join _ hname.isAbsolute_eq, Path.names_join _ henv.isAbsolute,
      Path.names_join _ ordinary_files.isAbsolute, henv.names, ordinary_files.names,
      List.append_assoc c.root.names]
    rfl
  · rw [hpath, Path.getLast?_join _ hname.text_ne_nil]
    exact hname.last

/-- The directories above the place of a file can be made. -/
theorem Ready.exists_destination (h : c.Ready d) (henv : Ordinary env) (hname : Relative ⟨name⟩)
    (hshort : (c.filePath env name).text.length ≤ maxPath) :
    ∃ ground P parent a d', c.destination env name d = (.ok (c.filePath env name), d') ∧
      Points ground P d' (c.filePath env name) parent a := by
  obtain ⟨P, m, hfind, hlink⟩ := h.root
  have hway := Disk.way_of_find (h.tree.clear P) h.ordinary hfind
  have htext : c.root.text ≠ [] := fun htext => by
    rw [Disk.find, Disk.systemText, htext] at hfind
    cases hfind
  have hdir : ∃ m, d.get? P = some (.dir m) :=
    ⟨m, Disk.get?_of_get?_clear (Disk.get?_of_find hfind)⟩
  obtain ⟨above, a, hnames⟩ := hname.exists_names
  have hspells := spells_filePath henv hname hshort
  rw [hnames, ← List.append_assoc, List.append_assoc c.root.names] at hspells
  have hord : ∀ n ∈ c.root.names ++ (filesNames env ++ above) ++ [a], Ordinary n := by
    intro n hn
    rw [List.append_assoc, List.append_assoc, ← hnames] at hn
    rcases List.mem_append.1 hn with hn | hn
    · exact h.ordinary n hn
    rcases List.mem_append.1 hn with hn | hn
    · rcases List.mem_cons.1 hn with rfl | hn
      · exact ordinary_files
      · rwa [List.mem_singleton.1 hn]
    · exact hname.ordinary n hn
  have habove : c.root.names ++ (filesNames env ++ above) ≠ [] :=
    List.append_ne_nil_of_right_ne_nil _ (List.cons_ne_nil _ _)
  have hparent := hspells.parent habove
  have hweight : weight (c.root.names ++ (filesNames env ++ above)) +
      (if c.root.isAbsolute then 1 else 0) ≤ maxPath := by
    have hall := Path.weight_names_le (c.filePath env name)
    have hlast : weight [a] = a.length + 1 := rfl
    have ha := List.length_pos_iff.2 (hord a (by simp)).ne_nil
    rw [hspells.names_eq, hspells.isAbsolute_eq, Path.weight_append, hlast] at hall
    omega
  obtain ⟨d', hmade, hregion, hdir'⟩ := exists_ensureDirectory (Disk.region_clear h.tree hlink) hway
    htext hdir hparent.components (fun n hn => hord n (List.mem_append_left _ hn)) hweight
  refine ⟨_, P, P ++ (filesNames env ++ above), a, d', ?_, hregion, hdir', _, _, _, hway, rfl,
    hspells, hord⟩
  have hnonempty : (c.filePath env name).parent.isEmpty = false :=
    List.isEmpty_eq_false_iff.2 (hparent.text_ne_nil habove)
  rw [destination, prepare_apply, hnonempty, if_neg (by decide), hmade]

end Cache

end FileCourier
