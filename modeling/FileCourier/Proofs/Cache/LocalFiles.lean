import FileCourier.Proofs.Cache.Founding
import FileCourier.Proofs.Cache.Listing
import FileCourier.Proofs.Cache.Taking

/-!
# Local files that are copied into the cache

Where there are no links, a local file is copied to the place that its names spell below the cache,
whether or not the cache exists yet (`storeLocalFile_copies`). The copy is looked up and listed under
the path that is given back (`KeepsCopy`). Only what the system cannot look up is not copied
(`storeLocalFile_of_long`).
-/

namespace FileCourier.Cache

open Disk (Aims Fills Keeps Tidy maxPath)
open Making (OnWay)
open FileCourier.Path (Ordinary Plain Proper Reads weight)

variable {c : Cache} {s dest : Path} {d d' : Disk} {origin parent : Place} {x : Bool} {bytes t : Bytes}
  {ns : List Bytes} {absolute : Bool} {env last : Bytes}

/-! ## The path of a copy -/

/-- What follows the slashes of a path is a plain path, if the path ends in a name. -/
theorem plain_dropSlashes_of_reads (h : Reads absolute ns s) (hns : ∀ n ∈ ns, Proper n) (hne : ns ≠ []) :
    Plain ⟨VirtualPath.dropSlashes s.text⟩ := by
  have hnames : (Path.mk (VirtualPath.dropSlashes s.text)).names = ns :=
    (names_dropSlashes s.text).trans h.names_eq
  have htext : VirtualPath.dropSlashes s.text ≠ [] := by
    intro hnil
    rw [hnil] at hnames
    exact hne hnames.symm
  obtain ⟨before, hbefore⟩ := List.dropWhile_suffix (l := s.text) (· == Bytes.ascii '/')
  have hlast : s.text.getLast? = (VirtualPath.dropSlashes s.text).getLast? := by
    conv => lhs; rw [← hbefore]
    exact Path.getLast?_append_of_ne_nil before htext
  exact ⟨isAbsolute_dropSlashes s.text, hnames ▸ hns, htext, hlast ▸ h.last hne⟩

theorem reads_localPath (hroot : ∀ n ∈ c.root.names, Proper n) (h : Reads absolute ns s)
    (hns : ∀ n ∈ ns, Proper n) (hne : ns ≠ []) :
    Reads c.root.isAbsolute (c.root.names ++ ("localfiles" : Bytes) :: ns) (c.localPath s.text) := by
  have hreads := (reads_localFilesRoot hroot).append (plain_dropSlashes_of_reads h hns hne)
  rwa [names_dropSlashes, show (Path.mk s.text).names = ns from h.names_eq, List.append_assoc] at hreads

/-- Where the copy of a local file stands. -/
def copyPlace (c : Cache) (s : Path) (d : Disk) : Place :=
  d.base c.root.isAbsolute ++ (c.localPath s.text).names

/-- An absolute path does not carry the mark. -/
theorem strip?_of_isAbsolute (h : s.isAbsolute = true) : VirtualPath.strip? s.text = none := by
  cases hstrip : VirtualPath.strip? s.text with
  | none => rfl
  | some rest =>
    rw [Path.isAbsolute, VirtualPath.strip?_eq_some_iff.1 hstrip] at h
    cases h

/-! ## Copies are found -/

theorem isCached_of_isFile (habsolute : s.isAbsolute = true)
    (hfile : d.isFile (c.localPath s.text) = true) (env : Bytes) :
    c.isCached s.text env d = some (c.localPath s.text) := by
  rw [isCached_unmarked (strip?_of_isAbsolute habsolute)]
  exact List.find?_cons_of_pos (isPresent_of_isFile hfile)

/-- A copy is listed, though the listing may spell its path with fewer slashes. -/
theorem exists_mem_listCached (hd : d.Sound) (hroot : ∀ n ∈ c.root.names, Proper n)
    (h : Reads absolute ns s) (hns : ∀ n ∈ ns, Proper n) (hne : ns ≠ [])
    (hfile : d.isFile (c.localPath s.text) = true) (env : Bytes) :
    ∃ p ∈ c.listCached env d, p.key = (c.localPath s.text).key := by
  have hcopy := reads_localPath hroot h hns hne
  have hlocal := reads_localFilesRoot hroot
  have hlocalText : c.localFilesRoot.text ≠ [] := hlocal.text_ne_nil (by simp)
  have halong := hlocal.along hns
  rw [List.append_assoc, List.singleton_append] at halong
  have hnames : c.root.names ++ ("localfiles" : Bytes) :: ns ≠ [] := by simp
  have hplain := plain_dropSlashes_of_reads h hns hne
  -- With single slashes the path is not longer, and it is walked along the same names.
  have hshort : (c.localFilesRoot.along ns).text.length ≤ (c.localPath s.text).text.length := by
    have hspelled := Path.length_along_le c.localFilesRoot ns
    have hweight := Path.weight_names_le ⟨VirtualPath.dropSlashes s.text⟩
    rw [names_dropSlashes, show (Path.mk s.text).names = ns from h.names_eq] at hweight
    have hjoin : (c.localPath s.text).text =
        c.localFilesRoot.text ++ slash :: VirtualPath.dropSlashes s.text :=
      Path.text_join_of_name hlocalText (hlocal.last (by simp)) hplain.isAbsolute_eq
    rw [hjoin, List.length_append, List.length_cons]
    dsimp only at hweight
    omega
  have halongFile : d.isFile (c.localFilesRoot.along ns) = true := by
    obtain ⟨q, y, t, hfind⟩ := Disk.find_of_isFile hfile
    have hlimit := Disk.short_of_find hcopy.no_nul hfind
    rw [Disk.find_of_reads hcopy (hcopy.text_ne_nil hnames) hlimit,
      ← Disk.find_of_reads halong (halong.text_ne_nil hnames) (Nat.le_trans hshort hlimit)] at hfind
    rw [Disk.isFile, Disk.entryAt?_of_find hfind]
  have hmem := mem_filesBelow_of_isFile hd hlocal.no_nul hlocalText hns hne halongFile
  obtain ⟨p, hp, hkey⟩ := Path.exists_mem_sortUnique
    (List.mem_append_right (filesBelow d (c.filesRoot env)) hmem)
  refine ⟨p, hp, hkey.trans ?_⟩
  rw [halong.key_eq, hcopy.key_eq]

/-! ## Copies are made -/

/-- A file was copied into the cache: it stands at its place, nothing else was changed but where no
directory stood on the way there, and it is found by its path. -/
structure KeepsCopy (c : Cache) (s : Path) (bytes : Bytes) (d d' : Disk) : Prop where
  held : ∃ x, d'.find (c.localPath s.text) = .ok (.at (c.copyPlace s d) (.file x bytes))
  changes : Fills (OnWay (d.base c.root.isAbsolute) (c.localPath s.text).names) d d'
  kept : ∀ p q x t, d.find p = .ok (.at q (.file x t)) → ¬q <+: c.copyPlace s d →
    d'.find p = .ok (.at q (.file x t))
  cached : ∀ env, c.isCached s.text env d' = some (c.localPath s.text)
  listed : ∀ env, ∃ p ∈ c.listCached env d', p.key = (c.localPath s.text).key

/-- The directories for a copy can be made. -/
theorem exists_localDestination (hd : d.Tidy) (htext : c.root.text ≠ [])
    (hroot : d.Creatable c.root) {above : List Bytes} {last : Bytes}
    (hcopy : Reads c.root.isAbsolute (c.root.names ++ (above ++ [last])) (c.localPath s.text))
    (hne : above ≠ []) (hord : ∀ n ∈ c.root.names ++ (above ++ [last]), Ordinary n)
    (hshort : (c.localPath s.text).text.length ≤ maxPath) :
    ∃ d', c.localDestination s.text d = (.ok (c.localPath s.text), d') ∧ d'.Tidy ∧
      Fills (OnWay (d.base c.root.isAbsolute) (c.root.names ++ above)) d d' ∧
      Aims d' (c.localPath s.text) (d.base c.root.isAbsolute ++ (c.root.names ++ above)) last := by
  rw [← List.append_assoc] at hcopy hord
  have hnames : c.root.names ++ above ≠ [] := List.append_ne_nil_of_right_ne_nil _ hne
  have hempty := hcopy.isEmpty_parent hnames
  have hordAbove : ∀ n ∈ c.root.names ++ above, Ordinary n :=
    fun n hn => hord n (List.mem_append_left _ hn)
  have hweight := Path.weight_names_le (c.localPath s.text)
  rw [hcopy.names_eq, hcopy.isAbsolute_eq, Path.weight_append, Path.weight_cons] at hweight
  obtain ⟨d', hmade, hd', hfills, hdir⟩ :=
    exists_ensureDirectory_tidy hd htext hroot (hcopy.parent hempty) hordAbove (by omega)
  have hbase : d'.base c.root.isAbsolute = d.base c.root.isAbsolute := by
    rw [Disk.base, hfills.cwd, ← Disk.base]
  refine ⟨d', ?_, hd', hfills, ?_⟩
  · rw [localDestination, prepare_apply, hempty, if_neg Bool.false_ne_true, hmade]
  · rw [← hbase] at hdir ⊢
    exact hd'.aims hcopy hord hshort hdir

/-- Where no directory is found for a copy, none stands. -/
theorem not_dir_of_isDirectory (hd : d.Tidy) (hcopy : Reads absolute (ns ++ [last]) s)
    (hord : ∀ n ∈ ns ++ [last], Ordinary n) (hshort : s.text.length ≤ maxPath)
    (hvacant : d.isDirectory s = false) (m : Nat) :
    d.get? (d.base absolute ++ ns ++ [last]) ≠ some (.dir m) := by
  intro hdir
  have haims := hd.aims hcopy hord hshort (hd.tree.exists_dir_of_append hdir)
  rw [Disk.isDirectory, haims.entryAt?_eq, hdir] at hvacant
  cases hvacant

/-- When the directories are made, a file that stands elsewhere is copied where no directory stands. -/
theorem exists_storeLocalFile_of_aims (hprepare : c.localDestination s.text d = (.ok dest, d'))
    (haims : Aims d' dest parent last) (hnodir : ∀ m, d'.get? (parent ++ [last]) ≠ some (.dir m))
    (hread : d.read s = .ok (origin, bytes)) (hapart : parent ++ [last] ≠ origin) :
    ∃ y, c.storeLocalFile s d = (.ok dest, d'.put (parent ++ [last]) (.file y bytes)) ∧
      (d'.put (parent ++ [last]) (.file y bytes)).find dest =
        .ok (.at (parent ++ [last]) (.file y bytes)) := by
  obtain ⟨y, hopen⟩ := haims.exists_openForWriting_eq hnodir
  have hempty : (d'.put (parent ++ [last]) (.file y [])).get? (parent ++ [last]) =
      some (.file y []) := Disk.get?_put_self (by simp)
  have hwritten : (d'.put (parent ++ [last]) (.file y [])).append (parent ++ [last]) bytes =
      d'.put (parent ++ [last]) (.file y bytes) :=
    (Disk.append_of_file hempty bytes).trans (Disk.put_put d' _ _ _)
  refine ⟨y, ?_, ?_⟩
  · rw [storeLocalFile, Action.get_bind, hread]
    dsimp only
    refine (Action.bind_ok hprepare).trans ?_
    rw [Action.get_bind, hopen]
    dsimp only
    rw [if_neg hapart, hwritten]
    rfl
  · obtain ⟨y', hfound⟩ := Disk.find_of_openForWriting hopen
    obtain rfl : y' = y := by
      have hstands := Disk.get?_of_find hfound
      rw [hempty] at hstands
      cases hstands
      rfl
    rw [← hwritten]
    exact Disk.find_append hfound bytes

/-- What makes a copy: it is found at its place, and only its place and those above it changed. -/
theorem keepsCopy_of_find (hd : d.Tidy) (hd' : d'.Tidy) (hroot : ∀ n ∈ c.root.names, Proper n)
    (habsolute : s.isAbsolute = true) (hs : Reads absolute ns s) (hns : ∀ n ∈ ns, Proper n)
    (hne : ns ≠ []) (hfound : d'.find (c.localPath s.text) =
      .ok (.at (c.copyPlace s d) (.file x bytes)))
    (hchanges : Fills (OnWay (d.base c.root.isAbsolute) (c.localPath s.text).names) d d') :
    c.KeepsCopy s bytes d d' := by
  have hisFile : d'.isFile (c.localPath s.text) = true := by
    rw [Disk.isFile, Disk.entryAt?_of_find hfound]
  refine ⟨⟨x, hfound⟩, hchanges, fun p q y t hp hq => ?_, isCached_of_isFile habsolute hisFile,
    exists_mem_listCached hd'.toSound hroot hs hns hne hisFile⟩
  refine Disk.find_of_keeps (hd.linkless.keeps_of_fills hchanges) hp rfl ?_ rfl
  refine (hchanges.get? fun hway => hq ?_).trans (Disk.get?_of_find hp)
  obtain ⟨⟨ms, -, hms, rfl⟩, -⟩ := hway
  exact (List.prefix_append_right_inj _).2 hms

/-- A copy does not stand where its source is read: its place has more names. -/
theorem copyPlace_ne (habsolute : s.isAbsolute = true)
    (hcopy : (c.localPath s.text).names = c.root.names ++ ("localfiles" : Bytes) :: s.names) (d : Disk) :
    c.copyPlace s d ≠ d.base s.isAbsolute ++ s.names := by
  intro heq
  rw [habsolute, copyPlace, hcopy] at heq
  have hlength := congrArg List.length heq
  simp only [Disk.base, if_true, List.length_append, List.length_cons, List.nil_append] at hlength
  omega

/-- A file is copied to where no directory stands. -/
theorem exists_storeLocalFile_tidy (hd : d.Tidy) (hroot : ∀ n ∈ c.root.names, Ordinary n)
    (htext : c.root.text ≠ []) (hcreatable : d.Creatable c.root) (habsolute : s.isAbsolute = true)
    (hs : ∀ n ∈ s.names, Ordinary n) (hsource : d.find s = .ok (.at origin (.file x bytes)))
    (hvacant : d.isDirectory (c.localPath s.text) = false)
    (hshort : (c.localPath s.text).text.length ≤ maxPath) :
    ∃ d', c.storeLocalFile s d = (.ok (c.localPath s.text), d') ∧ c.KeepsCopy s bytes d d' := by
  obtain ⟨hreads, horigin⟩ := hd.reads_of_find hs hsource
  have hrootProper : ∀ n ∈ c.root.names, Proper n := fun n hn => (hroot n hn).proper
  have hne : s.names ≠ [] := by
    intro hnil
    obtain ⟨m, hbase⟩ := hd.base s.isAbsolute
    have hstands := Disk.get?_of_find hsource
    rw [horigin, hnil, List.append_nil, hbase] at hstands
    cases hstands
  obtain ⟨above, last, hnames⟩ : ∃ above last, s.names = above ++ [last] :=
    ⟨_, _, (List.dropLast_concat_getLast hne).symm⟩
  have hproper : ∀ n ∈ s.names, Proper n := fun n hn => (hs n hn).proper
  have hord : ∀ n ∈ c.root.names ++ ("localfiles" : Bytes) :: s.names, Ordinary n :=
    List.forall_mem_append.2 ⟨hroot, List.forall_mem_cons.2 ⟨by decide, hs⟩⟩
  have hcopy := reads_localPath hrootProper hreads hproper hne
  have hplace : c.copyPlace s d = d.base c.root.isAbsolute ++
      (c.root.names ++ ("localfiles" : Bytes) :: above) ++ [last] := by
    rw [copyPlace, hcopy.names_eq, hnames]
    simp only [List.append_assoc, List.cons_append]
  have hapart : c.copyPlace s d ≠ origin := by
    rw [horigin]
    exact copyPlace_ne habsolute hcopy.names_eq d
  rw [hnames, ← List.cons_append] at hcopy hord
  obtain ⟨d₁, hprepare, hd₁, hfills, haims⟩ :=
    exists_localDestination hd htext hcreatable hcopy (List.cons_ne_nil _ _) hord hshort
  rw [hplace] at hapart
  have hnodir : ∀ m, d₁.get? (d.base c.root.isAbsolute ++
      (c.root.names ++ ("localfiles" : Bytes) :: above) ++ [last]) ≠ some (.dir m) := by
    intro m hdir
    rw [hfills.get? ?_] at hdir
    · rw [← List.append_assoc] at hcopy hord
      exact not_dir_of_isDirectory hd hcopy hord hshort hvacant m hdir
    · rintro ⟨⟨y, -, hy, heq⟩, -⟩
      rw [List.append_assoc] at heq
      have hle := hy.length_le
      rw [← List.append_cancel_left heq, List.length_append] at hle
      exact absurd hle (Nat.not_le_of_lt (Nat.lt_succ_self _))
  have hread : d.read s = .ok (origin, bytes) := by rw [Disk.read, hsource]
  obtain ⟨y, hstored, hfound⟩ := exists_storeLocalFile_of_aims hprepare haims hnodir hread hapart
  refine ⟨_, hstored, keepsCopy_of_find hd (hd₁.put haims.dir (hord _ (by simp)) hnodir rfl)
    hrootProper habsolute hreads hproper hne (hfound.trans (by rw [hplace])) ?_⟩
  rw [hcopy.names_eq]
  refine (hfills.mono ?_).trans (Disk.within_put _ ⟨?_, hnodir⟩ d₁ _)
  · rintro q ⟨ms, hms, hpre, rfl⟩
    exact ⟨ms, hms, hpre.trans ⟨[last], List.append_assoc _ _ _⟩, rfl⟩
  · exact ⟨_, by simp, List.prefix_refl _, by rw [List.append_assoc, List.append_assoc]⟩

/-- Storing a local file that cannot be opened fails and changes nothing. A file of any size is copied
to the path below the cache that its own path spells, if no directory stands there and that path is
not too long to be looked up; the cache need not exist before, and the file may itself give way to a
directory of the copy. -/
theorem storeLocalFile_copies (hd : d.Tidy) (hroot : ∀ n ∈ c.root.names, Ordinary n)
    (htext : c.root.text ≠ []) (hcreatable : d.Creatable c.root) (habsolute : s.isAbsolute = true)
    (hs : ∀ n ∈ s.names, Ordinary n) :
    (∀ cause, d.read s = .error cause →
      c.storeLocalFile s d = (.error (.store (.unreadable s)), d)) ∧
    ∀ origin x bytes, d.find s = .ok (.at origin (.file x bytes)) →
      d.isDirectory (c.localPath s.text) = false → (c.localPath s.text).text.length ≤ maxPath →
      ∃ d', c.storeLocalFile s d = (.ok (c.localPath s.text), d') ∧ c.KeepsCopy s bytes d d' := by
  refine ⟨fun cause hread => ?_, fun origin x bytes hsource hvacant hshort =>
    exists_storeLocalFile_tidy hd hroot htext hcreatable habsolute hs hsource hvacant hshort⟩
  rw [storeLocalFile, Action.get_bind, hread]
  rfl

/-- A cache in which an old file stands where the copies of local files go. -/
def oldLocalFiles : Disk where
  entries := [
    (["cache"], .dir Disk.openMode),
    (["cache", "kept"], .file false "kept"),
    (["cache", "localfiles"], .file false "old")]
  cwd := []

theorem tidy_oldLocalFiles : oldLocalFiles.Tidy where
  once := by decide
  ordinary := by decide
  tree := Disk.isTree_of_entries (by decide)
  cwd := ⟨_, rfl⟩
  noLink := Disk.get?_ne_link_of_entries (by decide)

/-- The old file is copied to a path below its own and gives way to the directories of the copy. -/
theorem storeLocalFile_copies_itself :
    let c : Cache := ⟨"cache"⟩
    let s : Path := "/cache/localfiles"
    oldLocalFiles.Tidy ∧ oldLocalFiles.Creatable c.root ∧
      oldLocalFiles.read "/cache/none" = .error .missing ∧
      c.storeLocalFile "/cache/none" oldLocalFiles =
        (.error (.store (.unreadable "/cache/none")), oldLocalFiles) ∧
      oldLocalFiles.find s = .ok (.at ["cache", "localfiles"] (.file false "old")) ∧
      ∃ d', c.storeLocalFile s oldLocalFiles = (.ok "cache/localfiles/cache/localfiles", d') ∧
        c.KeepsCopy s "old" oldLocalFiles d' ∧
        d'.isDirectory s = true ∧
        d'.find "cache/kept" = .ok (.at ["cache", "kept"] (.file false "kept")) := by
  intro c s
  have hcreatable : oldLocalFiles.Creatable c.root :=
    ⟨_, .refl _, tidy_oldLocalFiles.linkless, by decide⟩
  have hmissing : oldLocalFiles.read "/cache/none" = .error .missing := by decide
  have hsource : oldLocalFiles.find s = .ok (.at ["cache", "localfiles"] (.file false "old")) := by
    decide
  obtain ⟨hfails, -⟩ := storeLocalFile_copies (c := c) (s := "/cache/none") tidy_oldLocalFiles
    (by decide) (by decide) hcreatable (by decide) (by decide)
  obtain ⟨-, hcopies⟩ := storeLocalFile_copies (c := c) (s := s) tidy_oldLocalFiles
    (by decide) (by decide) hcreatable (by decide) (by decide)
  obtain ⟨d', hstored, hkeeps⟩ := hcopies _ _ _ hsource (by decide) (by decide)
  refine ⟨tidy_oldLocalFiles, hcreatable, hmissing, hfails _ hmissing, hsource, d', hstored, hkeeps,
    ?_, hkeeps.kept _ _ _ _ (by decide) (by decide)⟩
  have hgiven : (c.storeLocalFile s oldLocalFiles).2.isDirectory s = true := by decide +kernel
  rwa [hstored] at hgiven

/-! ## Paths that are too long -/

theorem find_of_long (hnul : 0 ∉ s.text) (hlong : maxPath < s.text.length) (d : Disk) :
    d.find s = .error .tooLong := by
  have hne : s.text ≠ [] := by
    intro hnil
    rw [hnil] at hlong
    exact Nat.not_lt_zero _ hlong
  rw [Disk.find_of_no_nul hnul, Disk.locate, List.isEmpty_eq_false_iff.2 hne, if_neg (by decide),
    if_pos hlong]

/-- A file is not copied to a path that is too long, whatever there is on the disk. -/
theorem storeLocalFile_of_long (hnul : 0 ∉ (c.localPath s.text).text)
    (hlong : maxPath < (c.localPath s.text).text.length) (d : Disk) :
    ∃ fault d', c.storeLocalFile s d = (.error fault, d') := by
  rw [storeLocalFile, Action.get_bind]
  cases d.read s with
  | error cause => exact ⟨_, d, rfl⟩
  | ok found =>
    obtain ⟨origin, bytes⟩ := found
    dsimp only
    cases hprepare : c.localDestination s.text d with
    | mk result d₁ =>
      cases result with
      | error fault => exact ⟨fault, d₁, Action.bind_error hprepare⟩
      | ok dest =>
        obtain rfl := eq_of_prepare hprepare
        refine ⟨.store (.notCreated (c.localPath s.text)), d₁, (Action.bind_ok hprepare).trans ?_⟩
        rw [Action.get_bind, Disk.openForWriting, find_of_long hnul hlong]
        rfl

/-- In a cache whose own path is almost as long as a path can be, there is no room for a copy. -/
theorem longCache_copies_nothing :
    let s : Path := "/c/files/base/a file with a name"
    smallCache.Tidy ∧ (∀ n ∈ longCache.root.names, Ordinary n) ∧ longCache.root.text ≠ [] ∧
      smallCache.Creatable longCache.root ∧ s.isAbsolute = true ∧ (∀ n ∈ s.names, Ordinary n) ∧
      smallCache.find s =
        .ok (.at ["c", "files", "base", "a file with a name"] (.file false "kept")) ∧
      smallCache.isDirectory (longCache.localPath s.text) = false ∧
      ¬∃ d', longCache.storeLocalFile s smallCache = (.ok (longCache.localPath s.text), d') := by
  intro s
  have htidy : smallCache.Tidy := ⟨sound_smallCache, Disk.get?_ne_link_of_entries (by decide)⟩
  have hord : ∀ n ∈ longCache.root.names, Ordinary n := by
    rw [names_longCache]
    decide
  have htext : longCache.root.text ≠ [] := List.cons_ne_nil _ _
  have hreads : Reads true ["c", "files", "base", "a file with a name"] s :=
    ⟨by decide, by decide, by decide, by decide⟩
  have hcopy := reads_localPath proper_longCache hreads (by decide) (by decide)
  have hlong : maxPath < (longCache.localPath s.text).text.length := by
    have hlocal := Path.le_length_join longCache.root (q := ⟨"localfiles"⟩) (by decide)
    have hfile := Path.le_length_join longCache.localFilesRoot
      (q := ⟨VirtualPath.dropSlashes s.text⟩) (by decide)
    rw [length_longCache] at hlocal
    exact Nat.lt_of_lt_of_le (by decide) (Nat.le_trans (Nat.add_le_add_right hlocal _) hfile)
  have hroot : smallCache.find longCache.root = .ok (.at ["c"] (.dir Disk.openMode)) := by
    refine Disk.find_of_follow_names (Path.no_nul_of_names hord) htext ?_ ?_
    · rw [length_longCache]
      decide
    · rw [names_longCache]
      decide
  have hnowhere := find_of_long hcopy.no_nul hlong smallCache
  refine ⟨htidy, hord, htext, ⟨_, .refl _, htidy.linkless, Disk.isDirectory_of_find hroot⟩, by decide,
    by decide, by decide, ?_, ?_⟩
  · rw [Disk.isDirectory, Disk.entryAt?, hnowhere]
  · obtain ⟨fault, d₁, hfails⟩ := storeLocalFile_of_long hcopy.no_nul hlong smallCache
    rintro ⟨d', hstored⟩
    rw [hfails] at hstored
    cases hstored

end FileCourier.Cache
