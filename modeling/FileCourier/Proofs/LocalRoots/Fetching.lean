import FileCourier.Proofs.Courier.Caching
import FileCourier.Proofs.Disk.Listing
import FileCourier.Proofs.Sorting
import Mathlib.Data.List.Forall2

/-!
# Fetching what local roots list

A listing of local roots and a look for a file in them agree on the files that keep their name and
that can be looked up (`Fetchable`): each is found in the first root that has it as a file
(`listed_fetched`). A listed name that begins with the escape marker is looked for without it, and a
link that leads nowhere is listed too.
-/

namespace FileCourier

open FileCourier.Path (Ordinary)

variable {σ : Type} {d : Disk} {s : Settings} {env f : Bytes} {root : Path} {w : World σ}

namespace LocalRoots

/-- A courier over local roots. -/
def courier (l : LocalRoots σ) (web : Web σ) (engines : Engines) : Courier σ where
  settings := l.settings
  source := l.source
  web := web
  engines := engines

/-- What a root lists as files: everything below it that is no directory. -/
theorem mem_files_iff : f ∈ (contents d root).files ↔
    d.isDirectory root = true ∧ ∃ x ∈ d.below root, x.isDirectory d = false ∧ listed x.names = f := by
  cases hroot : d.isDirectory root with
  | false => simp [contents, hroot]
  | true => simp [contents, hroot, Bytes.mem_sort, and_assoc]

/-- A listed file that is a regular file and keeps its name when it is fetched. -/
structure Fetchable (s : Settings) (env : Bytes) (d : Disk) (f : Bytes) : Prop where
  exists_root : ∃ root ∈ rootsOf s env, f ∈ (contents d root).files ∧ d.isFile (root / f) = true
  unescaped : f.head? ≠ some (Bytes.ascii '|')

/-- The first root of the environment in which a path leads to a file. -/
def IsFirst (s : Settings) (env : Bytes) (d : Disk) (f : Bytes) (root : Path) : Prop :=
  ∃ before after, rootsOf s env = before ++ root :: after ∧
    (∀ earlier ∈ before, d.isFile (earlier / f) = false) ∧ d.isFile (root / f) = true

/-- A listed path is spelled by names that files can have. -/
theorem exists_names_of_mem_files (hd : d.Sound) (h : f ∈ (contents d root).files) :
    ∃ ns, ns ≠ [] ∧ (∀ n ∈ ns, Ordinary n) ∧ f = (Path.spell false ns).text := by
  obtain ⟨-, x, hx, -, rfl⟩ := mem_files_iff.1 h
  obtain ⟨hne, hns, -⟩ := hd.along_of_mem_below hx
  exact ⟨x.names, hne, hns, Path.listed_eq_spell fun n hn => (hns n hn).proper⟩

theorem relative_of_mem_files (hd : d.Sound) (h : f ∈ (contents d root).files) :
    (Path.mk f).isAbsolute = false ∧ f ≠ [] := by
  obtain ⟨ns, hne, hns, rfl⟩ := exists_names_of_mem_files hd h
  have hplain := Path.plain_spell (fun n hn => (hns n hn).proper) hne
  exact ⟨hplain.isAbsolute_eq, hplain.text_ne_nil⟩

/-- A listed file whose path leads somewhere is a file. -/
theorem isFile_of_mem_files (hd : d.Sound) (hnul : 0 ∉ root.text)
    (h : f ∈ (contents d root).files) (hpresent : d.isPresent (root / f) = true) :
    d.isFile (root / f) = true := by
  obtain ⟨-, x, hx, hdir, rfl⟩ := mem_files_iff.1 h
  obtain ⟨hne, hns, hpath⟩ := hd.along_of_mem_below hx
  have hproper := fun n hn => (hns n hn).proper
  have hjoin : root / Path.mk (listed x.names) = x.path := by
    rw [Path.listed_eq_spell hproper, hpath]
    exact Path.join_spell root hproper hne
  rw [hjoin] at hpresent ⊢
  exact hd.isFile_of_not_isDirectory hnul hx hdir hpresent

/-- Among what is listed only the links that lead nowhere and the names that are escaped cannot be
fetched. -/
theorem fetchable_of_isPresent (hd : d.Sound) (hroot : root ∈ rootsOf s env) (hnul : 0 ∉ root.text)
    (h : f ∈ (contents d root).files) (hpresent : d.isPresent (root / f) = true)
    (hhead : f.head? ≠ some (Bytes.ascii '|')) : Fetchable s env d f :=
  ⟨⟨root, hroot, h, isFile_of_mem_files hd hnul h hpresent⟩, hhead⟩

/-- A path that is not escaped and not absolute is looked for as it is. -/
theorem relative?_eq_some (hne : f ≠ []) (hrel : (Path.mk f).isAbsolute = false)
    (hhead : f.head? ≠ some (Bytes.ascii '|')) : relative? f = some f := by
  have hunescape : VirtualPath.unescape f = f := by
    cases f with
    | nil => rfl
    | cons x f => exact if_neg fun hx => hhead (congrArg some hx)
  rw [relative?, hunescape, Cache.dropSlashes_of_isAbsolute hrel]
  split
  · exact absurd rfl hne
  · rfl

/-- A fetchable file is found in the first root that has it as a file. -/
theorem Fetchable.find_eq (hd : d.Sound) (h : Fetchable s env d f) :
    f ≠ [] ∧ ∃ root, IsFirst s env d f root ∧ find s f env d = some (root / f) := by
  obtain ⟨root, hroot, hf, hfile⟩ := h.exists_root
  obtain ⟨hrel, hne⟩ := relative_of_mem_files hd hf
  have hfind : find s f env d =
      ((rootsOf s env).map fun (root : Path) => root / Path.mk f).find? d.isFile := by
    rw [find, relative?_eq_some hne hrel h.unescaped]
    rfl
  have hsome : ((rootsOf s env).find? fun root => d.isFile (root / Path.mk f)).isSome = true :=
    List.find?_isSome.2 ⟨root, hroot, hfile⟩
  obtain ⟨first, hfirst⟩ := Option.isSome_iff_exists.1 hsome
  obtain ⟨hfirstFile, before, after, hsplit, hbefore⟩ := List.find?_eq_some_iff_append.1 hfirst
  refine ⟨hne, first, ⟨before, after, hsplit, fun earlier hearlier => ?_, hfirstFile⟩, ?_⟩
  · simpa using hbefore earlier hearlier
  · rw [hfind, List.find?_map, Function.comp_def, hfirst]
    rfl

/-! ## Through the courier -/

/-- The text of the place at which a path is found, empty when it is not. -/
def placeText (s : Settings) (env : Bytes) (d : Disk) (path : Bytes) : Bytes :=
  ((find s path env d).map (·.text)).getD []

theorem getFile_apply (s : Settings) (path env dest : Bytes) (makeParents : Bool) (gzip : Int)
    (w : World σ) :
    getFile s ⟨VirtualPath.mark ++ path, dest, makeParents, env, gzip⟩ w =
      (.ok (match find s path env w.disk with
        | some place => .stored place
        | none => .notFound), w) := by
  have hresolve : resolve s (VirtualPath.mark ++ path) env w =
      (.ok (find s path env w.disk), w) := by
    rw [resolve, VirtualPath.strip?_eq_some_iff.2 rfl]
    rfl
  rw [getFile, Action.bind_ok hresolve]
  cases find s path env w.disk with
  | none => rfl
  | some place => rfl

variable {l : LocalRoots σ} {web : Web σ} {engines : Engines}

theorem cacheFile_apply (l : LocalRoots σ) (web : Web σ) (engines : Engines) (path env : Bytes)
    (w : World σ) : (l.courier web engines).cacheFile (VirtualPath.mark ++ path) env w =
      (.ok (placeText l.settings env w.disk path), w) := by
  have hget : (l.courier web engines).getFile (Courier.cacheRequest path env) w = _ :=
    getFile_apply l.settings path env [] true 0 w
  rw [Courier.cacheFile_apply, hget, placeText]
  cases find l.settings path env w.disk <;> rfl

theorem Fetchable.placeText_eq (hd : d.Sound) (h : Fetchable s env d f) :
    ∃ root, IsFirst s env d f root ∧ placeText s env d f = (root / f).text ∧
      placeText s env d f ≠ [] := by
  obtain ⟨hne, root, hfirst, hfind⟩ := h.find_eq hd
  have htext : placeText s env d f = (root / f).text := by
    rw [placeText, hfind]
    rfl
  exact ⟨root, hfirst, htext, htext ▸ Path.text_join_ne_nil root hne⟩

/-- Caching everything that is listed gives for each file where it is. -/
theorem cacheMaster_apply (l : LocalRoots σ) (web : Web σ) (engines : Engines) (env : Bytes)
    (w : World σ) : (l.courier web engines).cacheMaster env w =
      (.ok ((listing l.settings (·.files) env w.disk).map (placeText l.settings env w.disk)), w) := by
  have hfiles : (l.courier web engines).source.files env w =
      (.ok (some (listing l.settings (·.files) env w.disk)), w) := rfl
  have hall : (l.courier web engines).cacheFiles
      ((listing l.settings (·.files) env w.disk).map (VirtualPath.mark ++ ·)) env w =
        (.ok ((listing l.settings (·.files) env w.disk).map (placeText l.settings env w.disk)), w) := by
    rw [Courier.cacheFiles, List.mapM_map]
    exact Action.mapM_of_unchanged fun f _ => cacheFile_apply l web engines f env w
  rw [Courier.cacheMaster, Action.bind_ok hfiles]
  exact hall

theorem cacheListed_apply (l : LocalRoots σ) (web : Web σ) (engines : Engines) (files : List Bytes)
    (env : Bytes) (w : World σ) : (l.courier web engines).cacheListed files env w =
      (.ok ((files.map (placeText l.settings env w.disk)).filter fun place => !place.isEmpty), w) := by
  have hall : files.mapM (fun listed => (l.courier web engines).cacheFile (VirtualPath.mark ++ listed) env)
      w = (.ok (files.map (placeText l.settings env w.disk)), w) :=
    Action.mapM_of_unchanged fun f _ => cacheFile_apply l web engines f env w
  exact Action.bind_ok hall

/-- The files of a virtual directory that are cached. -/
def cachedBelow (s : Settings) (root : CopyRoot) (env : Bytes) (d : Disk) : List Bytes :=
  (((listing s (·.files) env d).filter fun f => !Courier.isBlank f && root.contains f).map
    (placeText s env d)).filter fun place => !place.isEmpty

theorem cacheDir_apply (l : LocalRoots σ) (web : Web σ) (engines : Engines) (path env : Bytes)
    (w : World σ) {root : CopyRoot} (hroot : CopyRoot.of? path = some root) :
    (l.courier web engines).cacheDir path env false w =
        (.ok (cachedBelow l.settings root env w.disk), w) ∧
      ∀ all w', (l.courier web engines).cacheDir path env true w = (.ok all, w') →
        cachedBelow l.settings root env w.disk <+: all := by
  have hcopy : (Courier.copyRoot path : Action (World σ) CopyRoot) w = (.ok root, w) := by
    rw [Courier.copyRoot, hroot]
    rfl
  have hfiles : (l.courier web engines).source.files env w =
      (.ok (some (listing l.settings (·.files) env w.disk)), w) := rfl
  have hcached := cacheListed_apply l web engines
    ((listing l.settings (·.files) env w.disk).filter fun f => !Courier.isBlank f && root.contains f)
    env w
  constructor
  · rw [Courier.cacheDir, Action.bind_ok hcopy, Action.bind_ok hfiles, Option.getD_some,
      Action.bind_ok hcached]
    rfl
  · intro all w' hall
    rw [Courier.cacheDir, Action.bind_ok hcopy, Action.bind_ok hfiles, Option.getD_some,
      Action.bind_ok hcached] at hall
    obtain ⟨directories, w₁, -, hall⟩ := Action.exists_of_bind_ok hall
    obtain ⟨made, w₂, -, hall⟩ := Action.exists_of_bind_ok hall
    cases hall
    exact List.prefix_append _ made

/-- Every listed file that is fetchable is fetched from the first root that has it, and nothing
changes; so caching all that is listed, or all that is listed below a virtual directory, gives for
each of them the place where it is, which is never empty. -/
theorem listed_fetched (l : LocalRoots σ) (web : Web σ) (engines : Engines) (env : Bytes)
    (hd : w.disk.Sound) :
    (∀ f, Fetchable l.settings env w.disk f → ∃ root, IsFirst l.settings env w.disk f root ∧
      (l.courier web engines).getFile { path := VirtualPath.mark ++ f, env } w =
        (.ok (.stored (root / f)), w)) ∧
    (∃ places, (l.courier web engines).cacheMaster env w = (.ok places, w) ∧
      List.Forall₂ (fun f place => Fetchable l.settings env w.disk f → place ≠ [] ∧
          ∃ root, IsFirst l.settings env w.disk f root ∧ place = (root / f).text)
        (listing l.settings (·.files) env w.disk) places) ∧
    (∀ path copy, CopyRoot.of? path = some copy → ∃ cached,
      (l.courier web engines).cacheDir path env false w = (.ok cached, w) ∧
      (∀ all w', (l.courier web engines).cacheDir path env true w = (.ok all, w') → cached <+: all) ∧
      [] ∉ cached ∧
      ∀ f, Fetchable l.settings env w.disk f → copy.contains f = true →
        Courier.isBlank f = false →
          ∃ root, IsFirst l.settings env w.disk f root ∧ (root / f).text ∈ cached) := by
  refine ⟨?single, ?master, ?below⟩
  case single =>
    intro f hf
    obtain ⟨-, root, hfirst, hfind⟩ := hf.find_eq hd
    refine ⟨root, hfirst, ?_⟩
    have hget : (l.courier web engines).getFile { path := VirtualPath.mark ++ f, env } w = _ :=
      getFile_apply l.settings f env [] false 0 w
    rw [hget, hfind]
  case master =>
    refine ⟨_, cacheMaster_apply l web engines env w, List.forall₂_map_right_iff.2 ?_⟩
    refine List.forall₂_same.2 fun f _ hf => ?_
    obtain ⟨root, hfirst, htext, hne⟩ := hf.placeText_eq hd
    exact ⟨hne, root, hfirst, htext⟩
  case below =>
    intro path copy hcopy
    obtain ⟨hcached, hall⟩ := cacheDir_apply l web engines path env w hcopy
    refine ⟨_, hcached, hall, fun hnil => ?_, fun f hf hcontains hblank => ?_⟩
    · have hnonempty := (List.mem_filter.1 hnil).2
      cases hnonempty
    · obtain ⟨root, hfirst, htext, hne⟩ := hf.placeText_eq hd
      obtain ⟨listedIn, hroot, hlisted, -⟩ := hf.exists_root
      have hmem : f ∈ listing l.settings (·.files) env w.disk :=
        List.mem_flatMap.2 ⟨listedIn, hroot, hlisted⟩
      refine ⟨root, hfirst, List.mem_filter.2 ⟨List.mem_map.2 ⟨f, ?_, htext⟩, ?_⟩⟩
      · exact List.mem_filter.2 ⟨hmem, by rw [hblank, hcontains]; rfl⟩
      · rw [← htext]
        simpa using hne

/-- Two roots for the environment `base`. -/
def twoRoots : LocalRoots Unit where
  settings := { Settings.defaults with fileRoots := .ofList [("base", ["one", "two"])] }
  digests := Digest.library
  yaml := Yaml.flow
  searchPath := none
  run := fun _ => pure []

/-- Two roots that overlap. In the first one there are a name that begins with the escape marker and
a link that leads nowhere. -/
def overlapping : World Unit where
  disk := ⟨[(["one"], .dir Disk.openMode), (["one", "|x"], .file false "escaped"),
    (["one", "lost"], .link "nowhere"), (["one", "d"], .dir Disk.openMode),
    (["one", "d", "f"], .file false "first"), (["two"], .dir Disk.openMode),
    (["two", "d"], .dir Disk.openMode), (["two", "d", "f"], .file false "second"),
    (["two", "d", "g"], .file false "only")], []⟩
  beyond := ()

theorem sound_overlapping : overlapping.disk.Sound where
  once := by decide
  ordinary := by decide
  tree := Disk.isTree_of_entries (by decide)
  cwd := ⟨_, rfl⟩

/-- The file of both roots is taken from the first one. -/
theorem listed_fetched_from_first :
    overlapping.disk.Sound ∧ Fetchable twoRoots.settings "base" overlapping.disk "d/f" ∧
      (∃ root, IsFirst twoRoots.settings "base" overlapping.disk "d/f" root ∧
        (twoRoots.courier MasterFiles.noWeb .empty).getFile
          { path := VirtualPath.mark ++ "d/f", env := "base" } overlapping =
            (.ok (.stored (root / Path.mk "d/f")), overlapping)) ∧
      ((twoRoots.courier MasterFiles.noWeb .empty).getFile
        { path := "salt://d/f", env := "base" } overlapping).1 = .ok (.stored ⟨"one/d/f"⟩) := by
  have hlisted : ("d/f" : Bytes) ∈ (contents overlapping.disk ⟨"one"⟩).files :=
    mem_files_iff.2 (by decide +kernel)
  have hroot : Path.mk "one" ∈ rootsOf twoRoots.settings "base" := by decide
  have hfetchable : Fetchable twoRoots.settings "base" overlapping.disk "d/f" :=
    fetchable_of_isPresent sound_overlapping hroot (by decide) hlisted (by decide) (by decide)
  obtain ⟨hsingle, -⟩ := listed_fetched twoRoots MasterFiles.noWeb .empty "base" sound_overlapping
  exact ⟨sound_overlapping, hfetchable, hsingle "d/f" hfetchable, rfl⟩

/-- A listed name that begins with the escape marker is not found, although it is a file, and neither
is a listed link that leads nowhere; caching all that is listed gives an empty place for each. -/
theorem listed_unfetched :
    overlapping.disk.Sound ∧ overlapping.disk.isFile ⟨"one/|x"⟩ = true ∧
      (∀ f ∈ [("|x" : Bytes), ("lost" : Bytes)],
        f ∈ listing twoRoots.settings (·.files) "base" overlapping.disk ∧
          (twoRoots.courier MasterFiles.noWeb .empty).getFile
            { path := VirtualPath.mark ++ f, env := "base" } overlapping =
              (.ok .notFound, overlapping)) ∧
      ∃ places, (twoRoots.courier MasterFiles.noWeb .empty).cacheMaster "base" overlapping =
        (.ok places, overlapping) ∧ [] ∈ places := by
  have hlisted {f : Bytes} (h : f ∈ [("|x" : Bytes), ("lost" : Bytes)]) :
      f ∈ listing twoRoots.settings (·.files) "base" overlapping.disk := by
    refine List.mem_flatMap.2 ⟨⟨"one"⟩, by decide, mem_files_iff.2 ?_⟩
    revert f
    decide +kernel
  refine ⟨sound_overlapping, by decide, fun f hf => ⟨hlisted hf, ?_⟩, _,
    cacheMaster_apply twoRoots _ .empty "base" overlapping, ?_⟩
  · rcases List.mem_cons.1 hf with rfl | hf
    · rfl
    · rw [List.mem_singleton.1 hf]
      rfl
  · exact List.mem_map.2 ⟨"|x", hlisted List.mem_cons_self, by decide⟩

end LocalRoots

end FileCourier
