import FileCourier.Proofs.Cache.Building
import FileCourier.Proofs.Cache.Taking

/-!
# Places in a cache

Where the files of an environment are in a cache, as names from its root (`keptNames`), and what the
making of directories for them changes there.
-/

namespace FileCourier.Cache

open Disk (Behind Fills Site)
open Making (OnWay)
open FileCourier.Path (Plain Proper Reads)

variable {c : Cache} {p : Path} {d d' : Disk} {P : Place} {ns : List Bytes}
  {env name : Bytes}

/-- The cache is the directory `P`, below which there are no links. -/
def At (c : Cache) (P : Place) (d : Disk) : Prop := Site c.root.isAbsolute c.root.names P d

/-- The names of a file of an environment, from the root of the cache. -/
def keptNames (env name : Bytes) : List Bytes :=
  filesNames env ++ (Path.mk (VirtualPath.dropSlashes name)).names

theorem exists_keptNames_eq (hname : Plain ⟨VirtualPath.dropSlashes name⟩) :
    ∃ above n, keptNames env name = above ++ [n] ∧ above ≠ [] := by
  have hsplit := List.dropLast_concat_getLast hname.names_ne_nil
  refine ⟨filesNames env ++ (Path.mk (VirtualPath.dropSlashes name)).names.dropLast,
    (Path.mk (VirtualPath.dropSlashes name)).names.getLast hname.names_ne_nil, ?_,
    List.cons_ne_nil _ _⟩
  rw [keptNames, List.append_assoc, hsplit]

theorem proper_filesNames (henv : Proper env) : ∀ n ∈ filesNames env, Proper n := by
  intro n hn
  rcases List.mem_cons.1 hn with rfl | hn
  · exact ordinary_files.proper
  · rwa [List.mem_singleton.1 hn]

theorem proper_keptNames (henv : Proper env) (hname : Plain ⟨VirtualPath.dropSlashes name⟩) :
    ∀ n ∈ keptNames env name, Proper n := by
  intro n hn
  rcases List.mem_append.1 hn with hn | hn
  · exact proper_filesNames henv n hn
  · exact hname.proper n hn

theorem reads_filesRoot (hroot : ∀ n ∈ c.root.names, Proper n) (henv : Proper env) :
    Reads c.root.isAbsolute (c.root.names ++ filesNames env) (c.filesRoot env) := by
  have hfiles := Path.reads_join (Path.no_nul_of_proper hroot) ordinary_files.proper.plain
  rw [ordinary_files.names] at hfiles
  have henv' := hfiles.join henv
  rwa [List.append_assoc] at henv'

theorem reads_filePath (hroot : ∀ n ∈ c.root.names, Proper n) (henv : Proper env)
    (hname : Plain ⟨VirtualPath.dropSlashes name⟩) :
    Reads c.root.isAbsolute (c.root.names ++ keptNames env name) (c.filePath env name) := by
  have hreads := (reads_filesRoot hroot henv).append hname
  rwa [List.append_assoc] at hreads

theorem behind_filePath (hroot : ∀ n ∈ c.root.names, Proper n) (henv : Proper env)
    (hname : Plain ⟨VirtualPath.dropSlashes name⟩) :
    Behind c.root.isAbsolute c.root.names (keptNames env name) (c.filePath env name) :=
  ⟨reads_filePath hroot henv hname, List.cons_ne_nil _ _, proper_keptNames henv hname⟩

theorem ensureDirectory_snd (c : Cache) (p : Path) (d : Disk) :
    (c.ensureDirectory p d).2 = (Making.complete c.root p d).2 := by
  rw [ensureDirectory]
  split <;> simp_all

/-- However it ends, making a directory in the cache fills places on the way to it. -/
theorem At.ensureDirectory (h : c.At P d) (hroot : ∀ n ∈ c.root.names, Proper n)
    (hns : ∀ n ∈ ns, Proper n) {rest : List Bytes}
    (hp : Reads c.root.isAbsolute rest p) (hrest : rest <+: c.root.names ++ ns) :
    c.At P (c.ensureDirectory p d).2 ∧ Fills (OnWay P ns) d (c.ensureDirectory p d).2 := by
  have hbuilt := Making.built_complete c.root p d
  rw [hp.components] at hbuilt
  rw [ensureDirectory_snd]
  refine hbuilt.of_slash.site h (Making.reads_origin _) hrest fun n hn => ?_
  rcases List.mem_append.1 hn with hn | hn
  · exact hroot n hn
  · exact hns n hn

/-- The directories for a file are made on the way to it. -/
theorem destination_apply (hroot : ∀ n ∈ c.root.names, Proper n) (henv : Proper env)
    (hname : Plain ⟨VirtualPath.dropSlashes name⟩) : ∃ parent above n,
      keptNames env name = above ++ [n] ∧
      Reads c.root.isAbsolute (c.root.names ++ above) parent ∧
      ∀ d, c.destination env name d =
        match c.ensureDirectory parent d with
        | (.ok (), d) => (.ok (c.filePath env name), d)
        | (.error e, d) => (.error e, d) := by
  obtain ⟨above, n, hnames, hne⟩ := exists_keptNames_eq hname
  have hreads := reads_filePath hroot henv hname
  rw [hnames, ← List.append_assoc] at hreads
  have hempty := hreads.isEmpty_parent (List.append_ne_nil_of_right_ne_nil _ hne)
  refine ⟨(c.filePath env name).parent, above, n, hnames, hreads.parent hempty, fun d => ?_⟩
  rw [destination, prepare_apply, hempty]
  rfl

theorem At.destination (h : c.At P d) (hroot : ∀ n ∈ c.root.names, Proper n) (henv : Proper env)
    (hname : Plain ⟨VirtualPath.dropSlashes name⟩) :
    c.At P (c.destination env name d).2 ∧
      Fills (OnWay P (keptNames env name)) d (c.destination env name d).2 := by
  obtain ⟨parent, above, n, hnames, hparent, happly⟩ := destination_apply hroot henv hname
  have hprefix : c.root.names ++ above <+: c.root.names ++ keptNames env name := by
    rw [hnames, ← List.append_assoc]
    exact List.prefix_append _ [n]
  have hmade := h.ensureDirectory hroot (proper_keptNames henv hname) hparent hprefix
  rw [happly]
  generalize c.ensureDirectory parent d = made at hmade ⊢
  obtain ⟨result, d'⟩ := made
  cases result <;> exact hmade

end FileCourier.Cache
