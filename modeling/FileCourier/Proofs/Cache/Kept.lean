import FileCourier.Proofs.Cache.Places

/-!
# What a cache keeps

A cache seen as a map from names to the contents of its files (`Cache.files`). Storing a file binds
its names: files on the way to them and behind them are lost, all others stay (`Files.bind`,
`At.files_of_touched`). A cache whose directory does not exist yet is an empty map, and making
directories on the way to it leaves it empty (`Orderly.exists_at`).
-/

namespace FileCourier

/-- Contents of files by the names that lead to them. -/
abbrev Files := List Bytes → Option Bytes

namespace Files

variable {f : Files} {ns q : List Bytes}

/-- Binds names to a content. The names on the way to them and those behind them are bound to nothing
afterwards. -/
def bind (f : Files) (ns : List Bytes) (s : Bytes) : Files := fun q =>
  if q = ns then some s else if q <+: ns ∨ ns <+: q then none else f q

/-- The files behind some names. -/
def behind (f : Files) (ns : List Bytes) : Files := fun q => f (ns ++ q)

theorem bind_of_apart (s : Bytes) (h : ¬(q <+: ns ∨ ns <+: q)) : f.bind ns s q = f q := by
  have hne : q ≠ ns := fun heq => h (.inl (heq ▸ List.prefix_refl q))
  rw [bind, if_neg hne, if_neg h]

theorem behind_bind (f : Files) (above ns : List Bytes) (s : Bytes) :
    (f.bind (above ++ ns) s).behind above = (f.behind above).bind ns s := by
  funext q
  simp only [behind, bind, List.append_cancel_left_eq, List.prefix_append_right_inj]

/-- Files behind other names stay. -/
theorem behind_bind_of_apart {above : List Bytes} (f : Files) (s : Bytes)
    (h : ¬(above <+: ns ∨ ns <+: above)) : (f.bind ns s).behind above = f.behind above := by
  funext q
  refine bind_of_apart s ?_
  rintro (hq | hq)
  · exact h (.inl ((List.prefix_append above q).trans hq))
  · exact h (List.prefix_or_prefix_of_prefix (List.prefix_append above q) hq)

end Files

/-- What the file at a place holds, if it is a file. -/
def Disk.content? (d : Disk) (p : Place) : Option Bytes :=
  match d.get? p with
  | some (.file _ s) => some s
  | _ => none

namespace Cache

open Disk (Fills Site Within maxLinks)
open Making (Built OnWay Unbuilt)
open FileCourier.Path (Plain Proper)

variable {c : Cache} {d d' : Disk} {P : Place} {ns rest : List Bytes} {env name : Bytes}
  {path : Path}

/-- The directory of the cache, if there is one. -/
def place? (c : Cache) (d : Disk) : Option Place :=
  match d.follow true maxLinks (d.base c.root.isAbsolute) c.root.names with
  | .ok (.at P (.dir _)) => some P
  | _ => none

/-- The files of the cache, by their names from its directory on. -/
def files (c : Cache) (d : Disk) : Files := fun ns =>
  (c.place? d).bind fun P => d.content? (P ++ ns)

/-- The files kept of an environment, by their names from its directory on. -/
def keptFiles (c : Cache) (d : Disk) (env : Bytes) : Files := (c.files d).behind (filesNames env)

/-- A cache that holds nothing but directories and files, or does not exist yet. -/
structure Orderly (c : Cache) (d : Disk) : Prop where
  tree : d.IsTree
  base : ∃ m, d.get? (d.base c.root.isAbsolute) = some (.dir m)
  noLink : ∀ {P q t}, c.place? d = some P → P <+: q → d.get? q ≠ some (.link t)

theorem exists_follow_of_place? (h : c.place? d = some P) :
    ∃ m, d.follow true maxLinks (d.base c.root.isAbsolute) c.root.names = .ok (.at P (.dir m)) := by
  rw [place?] at h
  split at h
  · rename_i m hfollow
    cases h
    exact ⟨m, hfollow⟩
  · cases h

theorem At.place?_eq (h : c.At P d) : c.place? d = some P := by
  obtain ⟨m, hfollow⟩ := Site.follow_eq h
  rw [place?, hfollow]

theorem At.files_eq (h : c.At P d) : c.files d = fun ns => d.content? (P ++ ns) := by
  funext ns
  rw [files, h.place?_eq, Option.bind_some]

theorem At.orderly (h : c.At P d) : c.Orderly d where
  tree := h.tree
  base := Site.base_dir h
  noLink hplace := by
    rw [h.place?_eq] at hplace
    cases hplace
    exact h.noLink

theorem Orderly.at (h : c.Orderly d) (hplace : c.place? d = some P) : c.At P d := by
  obtain ⟨m, hfollow⟩ := exists_follow_of_place? hplace
  exact ⟨h.tree, h.noLink hplace, Disk.way_of_follow h.tree h.base hfollow⟩

theorem Orderly.unbuilt (h : c.Orderly d) (hplace : c.place? d = none) :
    Unbuilt c.root.isAbsolute c.root.names d where
  tree := h.tree
  base := h.base
  nothing hfollow := by
    rw [place?, hfollow] at hplace
    cases hplace

/-- A directory that holds nothing is a cache without files. -/
theorem files_of_unbuilt {k : Nat} (h : Unbuilt c.root.isAbsolute c.root.names d)
    (hfollow : d.follow true maxLinks (d.base c.root.isAbsolute) c.root.names =
      .ok (.at P (.dir k))) : c.files d = fun _ => none := by
  rw [At.files_eq (h.site hfollow)]
  funext ns
  cases ns with
  | nil => rw [List.append_nil, Disk.content?, Disk.spot_of_follow hfollow]
  | cons n ns =>
    rw [Disk.content?, h.nothing hfollow (List.prefix_append P _) (by simp)]

/-- A maker that gets to the end of its path comes by the directory of the cache, which keeps what
it kept before. -/
theorem Orderly.exists_at (h : c.Orderly d) (hroot : ∀ n ∈ c.root.names, Proper n)
    (hbuilt : Built (Making.origin c.root.isAbsolute) (c.root.names ++ rest) d .finished d') :
    ∃ P d₁, c.At P d₁ ∧ c.files d₁ = c.files d ∧
      Built ((Making.origin c.root.isAbsolute).along c.root.names) rest d₁ .finished d' := by
  have horigin := Making.reads_origin c.root.isAbsolute
  rcases hbuilt.of_append with ⟨fault, hfailed⟩ | ⟨d₁, hfirst, hlast⟩
  · cases hfailed
  cases hplace : c.place? d with
  | some P =>
    have hat := h.at hplace
    obtain ⟨hat₁, hfills⟩ : c.At P d₁ ∧ Fills (OnWay P []) d d₁ :=
      hfirst.site hat horigin (by simp) (by simpa using hroot)
    refine ⟨P, d₁, hat₁, ?_, hlast⟩
    -- Nothing lies on the way behind the names of the cache.
    have hsame : ∀ q, d₁.get? q = d.get? q := fun q => hfills.get? fun hq => by
      obtain ⟨⟨x, hx, hxnil, -⟩, -⟩ := hq
      exact hx (List.prefix_nil.1 hxnil)
    rw [At.files_eq hat₁, hat.files_eq]
    funext ns
    rw [Disk.content?, Disk.content?, hsame]
  | none =>
    obtain ⟨hu₁, hend⟩ := hfirst.unbuilt (h.unbuilt hplace) hroot horigin (List.prefix_refl _)
    have hnames : c.root.names ≠ [] := fun hnil => by
      obtain ⟨m, hbase⟩ := h.base
      rw [place?, hnil, Disk.follow, Disk.reach, hbase] at hplace
      cases hplace
    obtain ⟨P, k, hfollow⟩ := hend rfl hnames
    refine ⟨P, d₁, hu₁.site hfollow, ?_, hlast⟩
    rw [files_of_unbuilt hu₁ hfollow]
    funext ns
    rw [files, hplace, Option.bind_none]

theorem finished_of_ensureDirectory {u : Unit} (h : c.ensureDirectory path d = (.ok u, d')) :
    Making.complete c.root path d = (.finished, d') := by
  rw [ensureDirectory] at h
  split at h
  · rename_i hcomplete
    cases h
    exact hcomplete
  · cases h
  · cases h

/-- After the directories for a file were made, the cache is there, and on its way to the file it has
filled places where no directory stood. -/
theorem Orderly.destination (h : c.Orderly d) (hroot : ∀ n ∈ c.root.names, Proper n)
    (henv : Proper env) (hname : Plain ⟨VirtualPath.dropSlashes name⟩)
    (hrun : c.destination env name d = (.ok path, d')) :
    ∃ P d₁, c.At P d₁ ∧ c.files d₁ = c.files d ∧ c.At P d' ∧
      Fills (OnWay P (keptNames env name)) d₁ d' := by
  obtain ⟨parent, above, n, hnames, hparent, happly⟩ := destination_apply hroot henv hname
  rw [happly] at hrun
  split at hrun
  · rename_i d'' hmade
    cases hrun
    have hbuilt := Making.built_complete c.root parent d
    rw [finished_of_ensureDirectory hmade, hparent.components] at hbuilt
    obtain ⟨P, d₁, hat₁, hfiles, hlast⟩ := h.exists_at hroot hbuilt.of_slash
    have hhere := (Making.reads_origin c.root.isAbsolute).along hroot
    have hprefix : [] ++ c.root.names ++ above <+: c.root.names ++ keptNames env name := by
      rw [hnames, List.nil_append, ← List.append_assoc]
      exact List.prefix_append _ [n]
    obtain ⟨hat, hfills⟩ := hlast.site hat₁ hhere hprefix fun n hn => by
      rcases List.mem_append.1 hn with hn | hn
      · exact hroot n hn
      · exact proper_keptNames henv hname n hn
    exact ⟨P, d₁, hat₁, hfiles, hat, hfills⟩
  · cases hrun

/-! ## Storing a file -/

/-- Where only the place of a file, what is below it and files on the way to it were changed, its
names are bound to what it holds. -/
theorem At.files_of_touched {x : Bool} {s : Bytes} (h : c.At P d) (h' : c.At P d')
    (hwithin : Within (fun q => q <+: P ++ ns ∨ P ++ ns <+: q) d d')
    (hfile : d'.get? (P ++ ns) = some (.file x s)) : c.files d' = (c.files d).bind ns s := by
  rw [h.files_eq, h'.files_eq]
  funext q
  by_cases hq : q = ns
  · rw [hq, Disk.content?, hfile, Files.bind, if_pos rfl]
  by_cases happart : q <+: ns ∨ ns <+: q
  · rw [Files.bind, if_neg hq, if_pos happart]
    rcases happart with ⟨x, rfl⟩ | hbelow
    · have hx : x ≠ [] := fun hx => hq (by rw [hx, List.append_nil])
      rw [← List.append_assoc] at hfile
      obtain ⟨m, hdir⟩ := Disk.exists_dir_of_below (fun _ => h'.tree _ _) List.nil_prefix hx
        (Disk.ne_none_of_get? hfile)
      rw [Disk.content?, hdir]
    · have hnone := h'.tree.get?_below (fun m => by simp [hfile])
        ((List.prefix_append_right_inj P).2 hbelow) fun heq => hq (List.append_cancel_left heq)
      rw [Disk.content?, hnone]
  · rw [Files.bind_of_apart s happart, Disk.content?, Disk.content?, hwithin.get?]
    simpa only [List.prefix_append_right_inj] using happart

end Cache

end FileCourier
