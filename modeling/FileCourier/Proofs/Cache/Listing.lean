import FileCourier.Proofs.Cache.Places
import FileCourier.Proofs.Disk.Listing
import FileCourier.Proofs.Sorting

/-!
# What a cache lists and where it looks

A listing of the cache has, in path order and each once, the files below the directory of the
environment and below that of the local files (`mem_listCached_iff`), and looking a path up in the
cache agrees with it. Only paths that the system can look up count, and a path leads below a
directory of the cache if it has no step up.
-/

namespace FileCourier

open Disk (maxPath)
open FileCourier.Path (Normalised Ordinary Plain Proper Reads)

namespace Path

theorem Reads.key_eq {absolute : Bool} {ns : List Bytes} {p : Path} (h : Reads absolute ns p) :
    p.key = (if absolute then [slash] else []) :: ns := by
  rw [key, h.isAbsolute_eq, h.names_eq, h.endsInSlash_eq]
  exact congrArg _ (List.append_nil ns)

end Path

namespace Cache

variable {c : Cache} {d : Disk} {env rel x : Bytes} {root p : Path} {ns : List Bytes}

theorem mem_filesBelow_iff : p ∈ filesBelow d root ↔
    ∃ f ∈ d.below root, f.isFile d = true ∧ f.path = p := by
  rw [filesBelow, List.mem_map]
  refine exists_congr fun f => ?_
  rw [List.mem_filter, and_assoc]

theorem along_of_mem_filesBelow (hd : d.Sound) (h : p ∈ filesBelow d root) :
    ∃ ns, ns ≠ [] ∧ (∀ n ∈ ns, Ordinary n) ∧ p = root.along ns := by
  obtain ⟨f, hf, -, rfl⟩ := mem_filesBelow_iff.1 h
  obtain ⟨hne, hns, hpath⟩ := hd.along_of_mem_below hf
  exact ⟨f.names, hne, hns, hpath⟩

/-- A listed path that can be looked up leads to a file. -/
theorem isFile_of_mem_filesBelow (hd : d.Sound) (hnul : 0 ∉ root.text) (h : p ∈ filesBelow d root)
    (hshort : p.text.length ≤ maxPath) : d.isFile p = true := by
  obtain ⟨f, hf, hfile, rfl⟩ := mem_filesBelow_iff.1 h
  rwa [← hd.isFile_eq hnul hf hshort]

/-- Every path below the directory that leads to a file is listed. -/
theorem mem_filesBelow_of_isFile (hd : d.Sound) (hnul : 0 ∉ root.text) (htext : root.text ≠ [])
    (hns : ∀ n ∈ ns, Proper n) (hne : ns ≠ []) (hfile : d.isFile (root.along ns) = true) :
    root.along ns ∈ filesBelow d root := by
  obtain ⟨q, x, t, hfind⟩ := Disk.find_of_isFile hfile
  obtain ⟨f, hf, -, hpath⟩ := hd.exists_mem_below hnul htext hns hne hfind
  have hshort := Disk.short_of_find (Path.no_nul_along hnul hns) hfind
  refine mem_filesBelow_iff.2 ⟨f, hf, ?_, hpath⟩
  rwa [hd.isFile_eq hnul hf (by rwa [hpath]), hpath]

/-! ## The two directories -/

/-- A directory of which the files are listed: that of the environment, or that of the local
files. -/
inductive Holds (c : Cache) (env : Bytes) : Path → Prop
  | files : Holds c env (c.filesRoot env)
  | localFiles : Holds c env c.localFilesRoot

/-- The path has names behind one of these directories. -/
def Inside (c : Cache) (env : Bytes) (p : Path) : Prop :=
  ∃ root, c.Holds env root ∧ ∃ ns, ns ≠ [] ∧ (∀ n ∈ ns, Proper n) ∧ p = root.along ns

theorem proper_localfiles : Proper "localfiles" := by decide

/-- Cached files and local files are kept under different names. -/
theorem files_ne_localfiles : ("files" : Bytes) ≠ "localfiles" := by decide

theorem reads_localFilesRoot (hroot : ∀ n ∈ c.root.names, Proper n) :
    Reads c.root.isAbsolute (c.root.names ++ [("localfiles" : Bytes)]) c.localFilesRoot := by
  have hreads := Path.reads_join (Path.no_nul_of_proper hroot) proper_localfiles.plain
  rwa [proper_localfiles.names] at hreads

theorem reads_filesRoot_of_plain (hroot : ∀ n ∈ c.root.names, Proper n) (henv : Plain ⟨env⟩) :
    Reads c.root.isAbsolute (c.root.names ++ ("files" : Bytes) :: (Path.mk env).names)
      (c.filesRoot env) := by
  have hfiles := Path.reads_join (Path.no_nul_of_proper hroot) ordinary_files.proper.plain
  rw [ordinary_files.names] at hfiles
  have henv' := hfiles.append henv
  rwa [List.append_assoc] at henv'

theorem Holds.reads (hroot : ∀ n ∈ c.root.names, Proper n) (henv : Plain ⟨env⟩)
    (h : c.Holds env root) : Reads c.root.isAbsolute root.names root := by
  cases h with
  | files =>
    have hreads := reads_filesRoot_of_plain hroot henv
    rwa [hreads.names_eq]
  | localFiles =>
    have hreads := reads_localFilesRoot hroot
    rwa [hreads.names_eq]

theorem Holds.text_ne_nil (hroot : ∀ n ∈ c.root.names, Proper n) (henv : Plain ⟨env⟩)
    (h : c.Holds env root) : root.text ≠ [] := by
  intro htext
  have hnil : root.names = [] := by
    rw [Path.names, htext]
    rfl
  cases h with
  | files =>
    rw [(reads_filesRoot_of_plain hroot henv).names_eq] at hnil
    exact List.append_ne_nil_of_right_ne_nil c.root.names (List.cons_ne_nil _ _) hnil
  | localFiles =>
    rw [(reads_localFilesRoot hroot).names_eq] at hnil
    exact List.append_ne_nil_of_right_ne_nil c.root.names (List.cons_ne_nil _ _) hnil

/-- Nothing lies below both. -/
theorem Holds.eq_of_names (hroot : ∀ n ∈ c.root.names, Proper n) (henv : Plain ⟨env⟩)
    {root' : Path} {l l' : List Bytes} (h : c.Holds env root) (h' : c.Holds env root')
    (heq : root.names ++ l = root'.names ++ l') : root = root' := by
  have hfiles := (reads_filesRoot_of_plain hroot henv).names_eq
  have hlocal := (reads_localFilesRoot hroot).names_eq
  have apart {l l' : List Bytes} (hcons : ("files" : Bytes) :: l = ("localfiles" : Bytes) :: l') :
      False := files_ne_localfiles (List.cons.inj hcons).1
  cases h with
  | files =>
    cases h' with
    | files => rfl
    | localFiles =>
      rw [hfiles, hlocal, List.append_assoc, List.append_assoc] at heq
      exact (apart (List.append_cancel_left heq)).elim
  | localFiles =>
    cases h' with
    | files =>
      rw [hfiles, hlocal, List.append_assoc, List.append_assoc] at heq
      exact (apart (List.append_cancel_left heq).symm).elim
    | localFiles => rfl

/-- A listed path is given by its directory and the names behind it. -/
theorem mem_listCached_iff (hd : d.Sound) (hroot : ∀ n ∈ c.root.names, Proper n)
    (henv : Plain ⟨env⟩) :
    p ∈ c.listCached env d ↔ ∃ root, c.Holds env root ∧ p ∈ filesBelow d root := by
  have hmem (p : Path) : p ∈ filesBelow d (c.filesRoot env) ++ filesBelow d c.localFilesRoot ↔
      ∃ root, c.Holds env root ∧ p ∈ filesBelow d root := by
    rw [List.mem_append]
    constructor
    · rintro (h | h)
      · exact ⟨_, .files, h⟩
      · exact ⟨_, .localFiles, h⟩
    · rintro ⟨root, hholds, h⟩
      cases hholds with
      | files => exact .inl h
      | localFiles => exact .inr h
  rw [listCached, Path.mem_sortUnique_iff, hmem]
  intro p hp q hq hkey
  obtain ⟨root, hholds, hp⟩ := (hmem p).1 hp
  obtain ⟨root', hholds', hq⟩ := (hmem q).1 hq
  obtain ⟨ns, -, hns, rfl⟩ := along_of_mem_filesBelow hd hp
  obtain ⟨ms, -, hms, rfl⟩ := along_of_mem_filesBelow hd hq
  have hreads := (hholds.reads hroot henv).along fun n hn => (hns n hn).proper
  have hreads' := (hholds'.reads hroot henv).along fun n hn => (hms n hn).proper
  rw [hreads.key_eq, hreads'.key_eq] at hkey
  have hnames := (List.cons.inj hkey).2
  obtain rfl := hholds.eq_of_names hroot henv hholds' hnames
  rw [List.append_cancel_left hnames]

theorem inside_of_mem_listCached (hd : d.Sound) (hroot : ∀ n ∈ c.root.names, Proper n)
    (henv : Plain ⟨env⟩) (h : p ∈ c.listCached env d) : c.Inside env p := by
  obtain ⟨root, hholds, hmem⟩ := (mem_listCached_iff hd hroot henv).1 h
  obtain ⟨ns, hne, hns, hp⟩ := along_of_mem_filesBelow hd hmem
  exact ⟨root, hholds, ns, hne, fun n hn => (hns n hn).proper, hp⟩

/-- The listed paths that can be looked up are the paths below the two directories that lead to
files. -/
theorem mem_listCached_iff_of_short (hd : d.Sound) (hroot : ∀ n ∈ c.root.names, Proper n)
    (henv : Plain ⟨env⟩) (hshort : p.text.length ≤ maxPath) :
    p ∈ c.listCached env d ↔ c.Inside env p ∧ d.isFile p = true := by
  constructor
  · intro h
    obtain ⟨root, hholds, hmem⟩ := (mem_listCached_iff hd hroot henv).1 h
    exact ⟨inside_of_mem_listCached hd hroot henv h,
      isFile_of_mem_filesBelow hd (hholds.reads hroot henv).no_nul hmem hshort⟩
  · rintro ⟨⟨root, hholds, ns, hne, hns, rfl⟩, hfile⟩
    exact (mem_listCached_iff hd hroot henv).2 ⟨root, hholds, mem_filesBelow_of_isFile hd
      (hholds.reads hroot henv).no_nul (hholds.text_ne_nil hroot henv) hns hne hfile⟩

/-! ## Looking up what is listed -/

/-- What is left of a listed path behind one of the directories is normalised. -/
theorem Holds.normalised_of_listed (hd : d.Sound) (hroot : ∀ n ∈ c.root.names, Proper n)
    (henv : Plain ⟨env⟩) (h : c.Holds env root) (hrel : (Path.mk rel).isAbsolute = false)
    (hmem : root / rel ∈ c.listCached env d) : Normalised ⟨rel⟩ := by
  obtain ⟨root', hholds', hmem⟩ := (mem_listCached_iff hd hroot henv).1 hmem
  obtain ⟨ns, hne, hns, hjoin⟩ := along_of_mem_filesBelow hd hmem
  have hproper := fun n hn => (hns n hn).proper
  have hnames := Path.names_join root hrel
  rw [hjoin, Path.names_along root' fun n hn => (hproper n hn).segment] at hnames
  obtain rfl := hholds'.eq_of_names hroot henv h hnames
  have hspelled := Path.normalised_spell hproper hne
  rw [← Path.join_spell root' hproper hne] at hjoin
  rwa [Path.join_inj_right hrel hspelled.isAbsolute_eq hjoin]

theorem isPresent_of_isFile (h : d.isFile p = true) : d.isPresent p = true := by
  obtain ⟨q, x, t, hfind⟩ := Disk.find_of_isFile h
  rw [Disk.isPresent, Disk.entryAt?_of_find hfind]
  rfl

theorem filePath_of_relative (h : (Path.mk rel).isAbsolute = false) :
    c.filePath env rel = c.filesRoot env / rel := by
  rw [filePath, dropSlashes_of_isAbsolute h]

theorem localPath_of_relative (h : (Path.mk rel).isAbsolute = false) :
    c.localPath rel = c.localFilesRoot / rel := by
  rw [localPath, dropSlashes_of_isAbsolute h]

/-- With the mark, a path is looked for among the files of the environment only. -/
theorem isCached_marked (c : Cache) (rel env : Bytes) (d : Disk) :
    c.isCached (VirtualPath.mark ++ rel) env d = [c.filePath env rel].find? d.isPresent := by
  rw [isCached, VirtualPath.strip?_eq_some_iff.2 rfl]

/-- A path that is too long is not found, whether or not it is listed. -/
theorem isCached_of_long (hrel : Plain ⟨rel⟩) (hnul : 0 ∉ (c.filesRoot env).text)
    (hlong : maxPath < (c.filesRoot env / rel).text.length) :
    c.isCached (VirtualPath.mark ++ rel) env d = none := by
  rw [isCached_marked, filePath_of_relative hrel.isAbsolute_eq, List.find?_eq_none]
  intro p hp hpresent
  obtain ⟨e, he⟩ := Option.isSome_iff_exists.1 hpresent
  obtain ⟨q, hfind⟩ := Disk.find_of_entryAt? he
  rw [List.mem_singleton.1 hp] at hfind
  exact Nat.not_le_of_lt hlong (Disk.short_of_find (Path.reads_join hnul hrel).no_nul hfind)

/-- Without it, a path is looked for among the local files first. -/
theorem isCached_unmarked (h : VirtualPath.strip? rel = none) (c : Cache) (env : Bytes) (d : Disk) :
    c.isCached rel env d = [c.localPath rel, c.filePath env rel].find? d.isPresent := by
  rw [isCached, h]

/-- Where a normalised path is looked for is below one of the two directories. -/
theorem Holds.of_isCached (hrel : Normalised ⟨rel⟩) (hx : x = rel ∨ x = VirtualPath.mark ++ rel)
    (h : c.isCached x env d = some p) : ∃ root, c.Holds env root ∧ p = root / rel := by
  have hfile : c.filePath env rel = c.filesRoot env / rel := filePath_of_relative hrel.isAbsolute_eq
  have hlocal : c.localPath rel = c.localFilesRoot / rel := localPath_of_relative hrel.isAbsolute_eq
  rcases hx with rfl | rfl
  · rw [isCached_unmarked hrel.strip?_eq_none, hfile, hlocal] at h
    rcases List.mem_cons.1 (List.mem_of_find?_eq_some h) with rfl | hmem
    · exact ⟨_, .localFiles, rfl⟩
    · exact ⟨_, .files, List.mem_singleton.1 hmem⟩
  · rw [isCached_marked, hfile] at h
    exact ⟨_, .files, List.mem_singleton.1 (List.mem_of_find?_eq_some h)⟩

/-- The listing is in strictly increasing path order and lies inside the two directories; of the
paths inside that can be looked up it has exactly those that lead to files; and looking up agrees
with it: a listed path is found under what follows its directory, with the mark or without it, and a
file that is found under a normalised path is listed. -/
theorem listCached_agrees (hd : d.Sound) (hroot : ∀ n ∈ c.root.names, Proper n)
    (henv : Plain ⟨env⟩) :
    ((c.listCached env d).Pairwise fun p q => p.key < q.key) ∧
    (∀ p ∈ c.listCached env d, c.Inside env p) ∧
    (∀ p : Path, p.text.length ≤ maxPath →
      (p ∈ c.listCached env d ↔ c.Inside env p ∧ d.isFile p = true)) ∧
    (∀ rel : Bytes, (Path.mk rel).isAbsolute = false →
      (c.filesRoot env / rel).text.length ≤ maxPath → c.filesRoot env / rel ∈ c.listCached env d →
        c.isCached (VirtualPath.mark ++ rel) env d = some (c.filesRoot env / rel)) ∧
    (∀ rel : Bytes, (Path.mk rel).isAbsolute = false →
      (c.localFilesRoot / rel).text.length ≤ maxPath →
        c.localFilesRoot / rel ∈ c.listCached env d →
          c.isCached rel env d = some (c.localFilesRoot / rel)) ∧
    (∀ x rel : Bytes, (x = rel ∨ x = VirtualPath.mark ++ rel) → Normalised ⟨rel⟩ →
      ∀ p, c.isCached x env d = some p → d.isFile p = true → p ∈ c.listCached env d) := by
  have hlisted {p : Path} (hshort : p.text.length ≤ maxPath) :=
    mem_listCached_iff_of_short hd hroot henv hshort
  refine ⟨Path.pairwise_sortUnique _, fun p => inside_of_mem_listCached hd hroot henv,
    fun p => hlisted, ?marked, ?unmarked, ?found⟩
  case marked =>
    intro rel hrel hshort hmem
    have hpresent := isPresent_of_isFile ((hlisted hshort).1 hmem).2
    rw [isCached_marked, filePath_of_relative hrel]
    exact List.find?_cons_of_pos hpresent
  case unmarked =>
    intro rel hrel hshort hmem
    have hpresent := isPresent_of_isFile ((hlisted hshort).1 hmem).2
    have hnormalised := Holds.normalised_of_listed hd hroot henv .localFiles hrel hmem
    rw [isCached_unmarked hnormalised.strip?_eq_none, localPath_of_relative hrel]
    exact List.find?_cons_of_pos hpresent
  case found =>
    intro x rel hx hrel p hcached hfile
    obtain ⟨root, hholds, rfl⟩ := Holds.of_isCached hrel hx hcached
    obtain ⟨q, y, t, hfind⟩ := Disk.find_of_isFile hfile
    have hnul := (Path.reads_join (hholds.reads hroot henv).no_nul hrel.toPlain).no_nul
    refine (hlisted (Disk.short_of_find hnul hfind)).2 ⟨⟨root, hholds, ?_⟩, hfile⟩
    exact ⟨_, hrel.names_ne_nil, hrel.proper, Path.join_normalised root hrel⟩

/-- A cache with a file of the environment `base`, a local file of the same name, a link that leads
around in a circle and one that leads nowhere. -/
def circularCache : Disk where
  entries := [
    (["c"], .dir Disk.openMode),
    (["c", "files"], .dir Disk.openMode),
    (["c", "files", "base"], .dir Disk.openMode),
    (["c", "files", "base", "f"], .file false "kept"),
    (["c", "files", "base", "again"], .link "."),
    (["c", "files", "base", "lost"], .link "nowhere"),
    (["c", "localfiles"], .dir Disk.openMode),
    (["c", "localfiles", "f"], .file false "local")]
  cwd := []

theorem sound_circularCache : circularCache.Sound where
  once := by decide
  ordinary := by decide
  tree := Disk.isTree_of_entries (by decide)
  cwd := ⟨_, rfl⟩

/-- Behind the link that leads around in a circle the file is listed again, and is found there. -/
theorem listCached_agrees_around :
    circularCache.Sound ∧ (∀ n ∈ (Path.mk "c").names, Proper n) ∧ Plain ⟨"base"⟩ ∧
      Path.mk "c/files/base/again/f" ∈ (Cache.mk ⟨"c"⟩).listCached "base" circularCache ∧
      (Cache.mk ⟨"c"⟩).isCached "salt://again/f" "base" circularCache =
        some ⟨"c/files/base/again/f"⟩ ∧
      (Cache.mk ⟨"c"⟩).isCached "f" "base" circularCache = some ⟨"c/localfiles/f"⟩ := by
  have hroot : ∀ n ∈ (Path.mk "c").names, Proper n := by decide
  have henv : Plain ⟨"base"⟩ := by decide
  obtain ⟨-, -, hlisted, hmarked, hunmarked, -⟩ :=
    listCached_agrees (c := ⟨⟨"c"⟩⟩) (d := circularCache) sound_circularCache hroot henv
  have hagain : Path.mk "c/files/base/again/f" ∈ (Cache.mk ⟨"c"⟩).listCached "base" circularCache :=
    (hlisted _ (by decide)).2
      ⟨⟨_, .files, ["again", "f"], by decide, by decide, by decide⟩, by decide⟩
  have hlocal : Path.mk "c/localfiles/f" ∈ (Cache.mk ⟨"c"⟩).listCached "base" circularCache :=
    (hlisted _ (by decide)).2 ⟨⟨_, .localFiles, ["f"], by decide, by decide, by decide⟩, by decide⟩
  exact ⟨sound_circularCache, hroot, henv, hagain,
    hmarked "again/f" (by decide) (by decide) hagain, hunmarked "f" (by decide) (by decide) hlocal⟩

/-- A cache with one file, of the environment `base`. -/
def smallCache : Disk where
  entries := [
    (["c"], .dir Disk.openMode),
    (["c", "files"], .dir Disk.openMode),
    (["c", "files", "base"], .dir Disk.openMode),
    (["c", "files", "base", "a file with a name"], .file false "kept"),
    (["c", "localfiles"], .dir Disk.openMode)]
  cwd := []

theorem sound_smallCache : smallCache.Sound where
  once := by decide
  ordinary := by decide
  tree := Disk.isTree_of_entries (by decide)
  cwd := ⟨_, rfl⟩

/-- A cache whose path is almost as long as a path can be. -/
def longCache : Cache := ⟨⟨("c" : Bytes) ++ List.replicate 4080 slash⟩⟩

theorem names_longCache : longCache.root.names = ["c"] :=
  (Path.names_append_replicate_slash _ _).trans (by decide)

theorem proper_longCache : ∀ n ∈ longCache.root.names, Proper n := by
  rw [names_longCache]
  decide

theorem length_longCache : longCache.root.text.length = 4081 := by
  rw [longCache, List.length_append, List.length_replicate]
  rfl

theorem filesRoot_longCache : longCache.filesRoot "base" = longCache.root / Path.mk "files/base" :=
  (Path.join_assoc longCache.root (q := ⟨"files"⟩) (r := ⟨"base"⟩) (by decide) (by decide)
    (by decide)).trans (congrArg (longCache.root / ·) (by decide))

theorem find_longCache : smallCache.find (longCache.filesRoot "base") =
    .ok (.at ["c", "files", "base"] (.dir Disk.openMode)) := by
  have henv : Plain ⟨"base"⟩ := by decide
  have hreads := reads_filesRoot_of_plain proper_longCache henv
  have hshort : (longCache.filesRoot "base").text.length ≤ maxPath := by
    rw [filesRoot_longCache]
    refine Nat.le_trans (Path.length_join_le _ _) ?_
    rw [length_longCache]
    decide
  rw [names_longCache] at hreads
  rw [Disk.find_of_reads hreads (Holds.text_ne_nil proper_longCache henv .files) hshort]
  cases longCache.root.isAbsolute <;> decide

theorem mem_listCached_longCache : longCache.filesRoot "base" / ("a file with a name" : Bytes) ∈
    longCache.listCached "base" smallCache := by
  have hchild : Disk.Descends smallCache (longCache.filesRoot "base") ["c", "files", "base"]
      ["a file with a name"] (.file false "kept") := .child (by decide)
  have hfound := sound_smallCache.mem_below_of_descends find_longCache (by decide) hchild
  exact (mem_listCached_iff sound_smallCache proper_longCache (by decide)).2
    ⟨_, .files, mem_filesBelow_iff.2 ⟨_, hfound, rfl, rfl⟩⟩

theorem isCached_longCache :
    longCache.isCached (VirtualPath.mark ++ ("a file with a name" : Bytes)) "base" smallCache =
      none := by
  refine isCached_of_long (by decide) (reads_filesRoot_of_plain proper_longCache (by decide)).no_nul ?_
  have hname := Path.le_length_join (longCache.filesRoot "base") (q := ⟨"a file with a name"⟩)
    (by decide)
  have hfiles := Path.le_length_join longCache.root (q := ⟨"files/base"⟩) (by decide)
  rw [length_longCache] at hfiles
  rw [filesRoot_longCache] at hname ⊢
  exact Nat.lt_of_lt_of_le (by decide) (Nat.le_trans (Nat.add_le_add_right hfiles _) hname)

/-- A listed path that is too long is not found, while a step up, or what follows a NUL, leads to a
file by a path that is not listed. -/
theorem listCached_disagrees :
    (let place := longCache.filesRoot "base" / ("a file with a name" : Bytes)
     place ∈ longCache.listCached "base" smallCache ∧
      longCache.isCached (VirtualPath.mark ++ ("a file with a name" : Bytes)) "base" smallCache =
        none) ∧
    (let c : Cache := ⟨⟨"c"⟩⟩
     let place : Path := ⟨"c/localfiles/../files/base/a file with a name"⟩
     c.isCached "../files/base/a file with a name" "base" smallCache = some place ∧
      smallCache.isFile place = true ∧ place ∉ c.listCached "base" smallCache) ∧
    (let c : Cache := ⟨⟨"c"⟩⟩
     let name : Bytes := ("a file with a name" : Bytes) ++ [0]
     let place : Path := c.filesRoot "base" / name
     c.isCached (VirtualPath.mark ++ name) "base" smallCache = some place ∧
      smallCache.isFile place = true ∧ place ∉ c.listCached "base" smallCache) := by
  have outside {c : Cache} {place : Path} (h : place ∉ filesBelow smallCache (c.filesRoot "base") ++
      filesBelow smallCache c.localFilesRoot) : place ∉ c.listCached "base" smallCache :=
    fun hmem => h (Path.mem_of_mem_sortUnique hmem)
  exact ⟨⟨mem_listCached_longCache, isCached_longCache⟩,
    ⟨by decide +kernel, by decide +kernel, outside (by decide +kernel)⟩,
    ⟨by decide +kernel, by decide +kernel, outside (by decide +kernel)⟩⟩

end Cache

end FileCourier
