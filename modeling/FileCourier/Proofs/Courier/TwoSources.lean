import FileCourier.Proofs.Courier.Copying
import FileCourier.Proofs.LocalRoots.Serving

/-!
# Copies of the same directory from both sources

The same tree is offered by a master and held by a local root. Copying a directory of it leaves the same
empty directories from both sources (`getDir_two_sources`), but only the master's files are copied: the
local ones stay where they are, and that is where the copy says they are (`getDir_of_hosts`).
-/

namespace FileCourier

open Disk (Copied Creates Grows Reachable Rooted maxPath)
open LocalRoots (Hosts listed)
open FileCourier.Path (Ordinary Segment)

variable {σ τ α β : Type} {env path dest : Bytes} {w : World σ} {d d₁ d' : Disk} {root here : Path}
  {R D : Place} {t : FileTree} {above ns ms : List Bytes} {seg : Bytes}

/-- A list whose items are those of a mapped list is a mapped list. -/
theorem exists_map_eq {l : List β} {m : List α} {g : α → β}
    (hinj : ∀ a ∈ m, ∀ b ∈ m, g a = g b → a = b) (h : ∀ x, x ∈ l ↔ x ∈ m.map g) :
    ∃ m' : List α, l = m'.map g ∧ ∀ a, a ∈ m' ↔ a ∈ m := by
  have hsome {l : List β} (hl : ∀ x ∈ l, ∃ a ∈ m, g a = x) :
      ∃ m' : List α, l = m'.map g ∧ ∀ a ∈ m', a ∈ m := by
    induction l with
    | nil => exact ⟨[], rfl, fun _ ha => absurd ha List.not_mem_nil⟩
    | cons x l ih =>
      obtain ⟨a, ha, rfl⟩ := hl x List.mem_cons_self
      obtain ⟨m', rfl, hm'⟩ := ih fun x hx => hl x (List.mem_cons_of_mem _ hx)
      exact ⟨a :: m', rfl, List.forall_mem_cons.2 ⟨ha, hm'⟩⟩
  obtain ⟨m', rfl, hm'⟩ := hsome fun x hx => List.mem_map.1 ((h x).1 hx)
  refine ⟨m', rfl, fun a => ⟨hm' a, fun ha => ?_⟩⟩
  obtain ⟨b, hb, heq⟩ := List.mem_map.1 ((h (g a)).2 (List.mem_map_of_mem ha))
  rwa [← hinj b (hm' b hb) a ha heq]

namespace FileTree

/-- What is listed below a directory says which leaf it is. -/
theorem Consistent.listed_append_inj (ht : t.Consistent) (hns : ns ∈ (t.below above seg).leaves)
    (hms : ms ∈ (t.below above seg).leaves) (h : listed (above ++ ns) = listed (above ++ ms)) :
    ns = ms := by
  have names {ns : List Bytes} (hns : ns ∈ (t.below above seg).leaves) :
      (Path.mk (listed (above ++ ns))).names = above ++ ns := by
    obtain ⟨rest, -, hmem, rfl⟩ := mem_leaves_below.1 hns
    exact Path.names_listed (ht.segments _ hmem)
  have heq := names hns
  rw [h, names hms] at heq
  exact (List.append_cancel_left heq).symm

end FileTree

namespace LocalRoots

/-- A name that is listed below a directory begins as the directory does. -/
theorem head?_listed_append {rest : List Bytes} (hP : ∀ n ∈ above ++ [seg], Segment n)
    (hrest : rest ≠ []) : (listed (above ++ seg :: rest)).head? = (listed (above ++ [seg])).head? := by
  have hne : above ++ [seg] ≠ [] := List.append_ne_nil_of_right_ne_nil above (List.cons_ne_nil seg [])
  rw [List.append_cons, Path.listed_append hne hrest]
  exact List.head?_append_of_ne_nil _ (Path.listed_ne_nil hP hne)

/-- The files that are listed below a directory are those of the tree, in some order. -/
theorem Hosts.exists_files_below {s : Settings} (h : Hosts s env root R t d)
    (hP : ∀ n ∈ above ++ [seg], Segment n) (parent : Bytes) : ∃ files : List (List Bytes × Bytes),
      (listing s (·.files) env d).filter (CopyRoot.mk (listed (above ++ [seg])) parent).contains =
        files.map (fun f => listed (above ++ f.1)) ∧
      ∀ f, f ∈ files ↔ f ∈ (t.below above seg).files := by
  have ht := h.consistent
  refine exists_map_eq (fun f hf f' hf' heq => ?_) fun name => ?_
  · exact (ht.below above seg).eq_of_names hf hf' (ht.listed_append_inj
      (FileTree.mem_leaves_of_file hf)
      (FileTree.mem_leaves_of_file hf') heq)
  · rw [h.listing_eq (·.files), ← FileTree.filter_listedFiles ht hP parent, List.mem_filter,
      List.mem_filter, h.mem_files_iff]

theorem Hosts.exists_directories_below {s : Settings} (h : Hosts s env root R t d)
    (hP : ∀ n ∈ above ++ [seg], Segment n) (parent : Bytes) : ∃ directories : List (List Bytes),
      (listing s (·.emptyDirectories) env d).filter
          (CopyRoot.mk (listed (above ++ [seg])) parent).contains =
        directories.map (fun ns => listed (above ++ ns)) ∧
      ∀ ns, ns ∈ directories ↔ ns ∈ (t.below above seg).emptyDirectories := by
  have ht := h.consistent
  refine exists_map_eq (fun ns hns ns' hns' => ?_) fun name => ?_
  · exact ht.listed_append_inj (FileTree.mem_leaves_of_directory hns)
      (FileTree.mem_leaves_of_directory hns')
  · rw [h.listing_eq (·.emptyDirectories), ← FileTree.filter_listedDirectories ht hP parent,
      List.mem_filter, List.mem_filter]
    refine and_congr_left fun hcontains => h.mem_emptyDirectories_iff ?_
    rintro rfl
    rw [CopyRoot.contains_dot] at hcontains
    cases hcontains

/-- Files of a tree that a local root holds are found where they are, and nothing changes. -/
theorem getListed_of_hosts (l : LocalRoots σ) (web : Web σ) (engines : Engines) (dest : Bytes)
    (gzip : Int) (h : Hosts l.settings env root R t w.disk) (hP : ∀ n ∈ above ++ [seg], Segment n)
    (hhead : (listed (above ++ [seg])).head? ≠ some (Bytes.ascii '|'))
    {files : List (List Bytes × Bytes)} (hfiles : ∀ f ∈ files, f ∈ (t.below above seg).files) :
    (l.courier web engines).getListed ⟨listed (above ++ [seg]), listed above⟩ dest env gzip
        (files.map fun f => listed (above ++ f.1)) w =
      (.ok (files.map fun f => (root.along (above ++ f.1)).text), w) := by
  obtain ⟨w', hrun, rfl⟩ : ∃ w', (l.courier web engines).getListed
      ⟨listed (above ++ [seg]), listed above⟩ dest env gzip
      (files.map fun f => listed (above ++ f.1)) w =
        (.ok (files.map fun f => (root.along (above ++ f.1)).text), w') ∧ w' = w := by
    refine Courier.getListed_run (I := fun _ w' => w' = w) gzip hP (fun f hf => ?names) ?step rfl
    case names =>
      obtain ⟨rest, -, hfile, heq⟩ := FileTree.mem_files_below.1 (hfiles f hf)
      have hleaf : above ++ seg :: rest ∈ t.leaves :=
        FileTree.mem_leaves_of_file hfile
      refine ⟨rest, heq, fun n hn => h.ordinary_of_leaf hleaf n (List.mem_append_right above ?_)⟩
      rwa [← heq]
    case step =>
      rintro before ⟨ns, content⟩ after w' hsplit rfl
      have hmem := hfiles _ (hsplit ▸ List.mem_append_right before List.mem_cons_self)
      obtain ⟨rest, hrest, hfile, rfl⟩ := FileTree.mem_files_below.1 hmem
      have hget := getFile_apply l.settings (listed (above ++ seg :: rest)) env
        ((Path.mk dest).along (seg :: rest)).text true gzip w'
      rw [h.find_eq hfile (head?_listed_append hP hrest ▸ hhead)] at hget
      exact ⟨_, hget, rfl⟩
  exact hrun

/-- A directory that a local root holds: its empty directories are made, and its files are said to be
where they are. -/
theorem getDir_of_hosts (l : LocalRoots σ) (web : Web σ) (engines : Engines) (gzip : Int)
    (hroot : CopyRoot.of? path = some ⟨listed (above ++ [seg]), listed above⟩)
    (h : Hosts l.settings env root R t w.disk) (hcreates : Creates w.disk ⟨dest⟩ D d₁)
    (hP : ∀ n ∈ above ++ [seg], Segment n) (hfits : (t.below above seg).Fits ⟨dest⟩)
    (hhead : (listed (above ++ [seg])).head? ≠ some (Bytes.ascii '|')) :
    ∃ found w', (l.courier web engines).getDir path dest env gzip w = (.ok found, w') ∧
      (∀ place, place ∈ found ↔
        (∃ f ∈ (t.below above seg).files, place = (root.along (above ++ f.1)).text) ∨
          ∃ ns ∈ (t.below above seg).emptyDirectories, place = ((Path.mk dest).along ns).text) ∧
      Copied w.disk ⟨dest⟩ D d₁ ⟨[], (t.below above seg).emptyDirectories⟩ w'.disk := by
  obtain ⟨files, hfiles, hfilesIff⟩ := h.exists_files_below hP (listed above)
  obtain ⟨directories, hdirectories, hdirectoriesIff⟩ := h.exists_directories_below hP (listed above)
  have hgot := getListed_of_hosts l web engines dest gzip h hP hhead fun f => (hfilesIff f).1
  have hnames : ∀ ns ∈ directories, (∃ rest, ns = seg :: rest) ∧ Reachable ⟨dest⟩ ns ∧
      ∀ f ∈ ([] : List (List Bytes × Bytes)), ¬f.1 <+: ns := fun ns hns => by
    have hmem := (hdirectoriesIff ns).1 hns
    exact ⟨FileTree.exists_of_mem_emptyDirectories hmem, hfits.reachable hmem,
      fun f hf => absurd hf List.not_mem_nil⟩
  obtain ⟨w', hmade, -, hcopied⟩ :=
    Courier.makeListed_run (w := w) h.sound.grounded hcreates hP hnames .nothing
  rw [← hfiles] at hgot
  rw [← hdirectories] at hmade
  refine ⟨_, w', Courier.getDir_apply hroot rfl hgot rfl hmade, fun place => ?_,
    hcopied.congr hdirectoriesIff⟩
  rw [Bytes.mem_sort, List.mem_append, List.mem_map, List.mem_map]
  simp only [hfilesIff, hdirectoriesIff, eq_comm]

/-- Nothing is copied for a directory that is not written as those of the root are listed. -/
theorem getDir_of_not_names {copy : CopyRoot} (l : LocalRoots σ) (web : Web σ) (engines : Engines)
    (dest : Bytes) (gzip : Int) (hcopy : CopyRoot.of? path = some copy)
    (hunlisted : ∀ above seg, ¬copy.Names above seg) (h : Hosts l.settings env root R t w.disk) :
    (l.courier web engines).getDir path dest env gzip w = (.ok [], w) := by
  refine Courier.getDir_of_unlisted hcopy rfl rfl (fun name hname => ?files)
    fun name hname => ?directories
  case files =>
    rw [h.listing_eq (·.files)] at hname
    exact FileTree.not_contains_of_mem_listedFiles h.consistent hunlisted (h.mem_files_iff.1 hname)
  case directories =>
    rw [h.listing_eq (·.emptyDirectories)] at hname
    by_cases hdot : name = Path.dot
    · rw [hdot]
      exact copy.contains_dot
    · exact FileTree.not_contains_of_mem_listedDirectories h.consistent hunlisted
        ((h.mem_emptyDirectories_iff hdot).1 hname)

end LocalRoots

namespace Disk

/-- What stands below a directory is present at its path. -/
theorem Rooted.isPresent (h : Rooted here D d) (hns : ∀ n ∈ ns, Ordinary n) (hne : ns ≠ [])
    (hshort : (here.along ns).text.length ≤ maxPath) (hsome : d.get? (D ++ ns) ≠ none) :
    d.isPresent (here.along ns) = true := by
  obtain ⟨e, he⟩ := Option.ne_none_iff_exists'.1 hsome
  rw [Disk.isPresent, entryAt?_of_find (h.find_at hns hne hshort he)]
  rfl

/-- The leaves that were copied are present behind the path of the copy. -/
theorem Copied.isPresent {u : FileTree} (h : Copied d here D d₁ u d') (hns : ns ∈ u.leaves)
    (hne : ns ≠ []) (hordinary : ∀ n ∈ ns, Ordinary n)
    (hshort : (here.along ns).text.length ≤ maxPath) : d'.isPresent (here.along ns) = true := by
  obtain ⟨-, hstands⟩ := h.stands_or_nothing.resolve_right fun hnothing =>
    List.ne_nil_of_mem hns hnothing.1
  exact hstands.rooted.isPresent hordinary hne hshort
    (hstands.holding.ne_none_of_leaf hns (List.prefix_refl ns))

end Disk

/-- What a root holds stays present when entries are only added. -/
theorem LocalRoots.Hosts.isPresent_of_grows {s : Settings} (h : Hosts s env root R t d)
    (hns : ns ∈ t.leaves) (hne : ns ≠ []) (hgrows : Grows d d') :
    d'.isPresent (root.along ns) = true := by
  obtain ⟨e, he⟩ := Option.ne_none_iff_exists'.1 (h.holding.ne_none_of_leaf hns (List.prefix_refl ns))
  have hlink : Disk.Entry.isLink e = false := by
    cases e with
    | file | dir => rfl
    | link l => exact absurd he h.holding.noLink
  have hfind := Disk.find_of_keeps hgrows.keeps
    (h.rooted.find_at (h.ordinary_of_leaf hns) hne (h.short ns hns) he) hlink (hgrows.get? he) hlink
  rw [Disk.isPresent, Disk.entryAt?_of_find hfind]
  rfl

/-- The same directory of the same tree, copied from a local root and from a master to where nothing
stands: both leave its empty directories, but only from the master its files. What the copy from the
master gives is behind the destination. What the local copy gives is there as well, but its files are
where the root has them. Of a directory that is not written as the directories of the tree are listed,
neither copies anything. -/
theorem getDir_two_sources (l : LocalRoots σ) (m : MasterFiles τ) (web : Web σ) (web' : Web τ)
    (engines engines' : Engines) (t : FileTree) (env path dest : Bytes) (copy : CopyRoot) (gzip : Int)
    (root : Path) (w : World σ) (v : World τ) (R D E : Place) (d₁ e₁ : Disk)
    (hcopy : CopyRoot.of? path = some copy) (hhosts : Hosts l.settings env root R t w.disk)
    (hoffers : m.Offers env t) (hlocal : Creates w.disk ⟨dest⟩ D d₁) (hv : v.disk.Grounded)
    (hremote : Creates v.disk ⟨dest⟩ E e₁) :
    (∀ above seg, copy.Names above seg → copy.path.head? ≠ some (Bytes.ascii '|') →
      (t.below above seg).Fits ⟨dest⟩ → ∃ found w' copied v',
        (l.courier web engines).getDir path dest env gzip w = (.ok found, w') ∧
        (m.courier web' engines').getDir path dest env gzip v = (.ok copied, v') ∧
        Copied w.disk ⟨dest⟩ D d₁ ⟨[], (t.below above seg).emptyDirectories⟩ w'.disk ∧
        Copied v.disk ⟨dest⟩ E e₁ (t.below above seg) v'.disk ∧
        (∀ place, place ∈ copied ↔
          ∃ ns ∈ (t.below above seg).leaves, place = ((Path.mk dest).along ns).text) ∧
        (∀ place, place ∈ found ↔
          (∃ f ∈ (t.below above seg).files, place = (root.along (above ++ f.1)).text) ∨
            ∃ ns ∈ (t.below above seg).emptyDirectories, place = ((Path.mk dest).along ns).text) ∧
        (∀ place ∈ copied, v'.disk.isPresent ⟨place⟩ = true) ∧
        ∀ place ∈ found, w'.disk.isPresent ⟨place⟩ = true) ∧
    ((∀ above seg, ¬copy.Names above seg) → ∃ v',
      (l.courier web engines).getDir path dest env gzip w = (.ok [], w) ∧
      (m.courier web' engines').getDir path dest env gzip v = (.ok [], v') ∧ v'.disk = v.disk) := by
  refine ⟨fun above seg hnames hhead hfits => ?_, fun hunlisted => ?_⟩
  · have hroot := hnames.eq hcopy ▸ hcopy
    rw [hnames.path] at hhead
    obtain ⟨found, w', hfoundRun, hfound, hmade⟩ :=
      LocalRoots.getDir_of_hosts l web engines gzip hroot hhosts hlocal hnames.segments hfits hhead
    obtain ⟨v', hcopiedRun, hcopied⟩ := MasterFiles.getDir_of_offers web' engines' gzip hroot hv hremote
      hhosts.consistent hoffers hnames.segments hfits
    refine ⟨found, w', _, v', hfoundRun, hcopiedRun, hmade, hcopied, ?places, hfound, ?copied, ?found⟩
    case places =>
      intro place
      rw [Bytes.mem_sort, List.mem_map]
      simp only [eq_comm]
    case copied =>
      intro place hplace
      rw [Bytes.mem_sort, List.mem_map] at hplace
      obtain ⟨ns, hns, rfl⟩ := hplace
      obtain ⟨rest, -, -, rfl⟩ := FileTree.mem_leaves_below.1 hns
      exact hcopied.isPresent hns (List.cons_ne_nil seg rest) (hfits.ordinary _ hns)
        (hfits.short _ hns)
    case found =>
      intro place hplace
      rcases (hfound place).1 hplace with ⟨f, hf, rfl⟩ | ⟨ns, hns, rfl⟩
      · obtain ⟨rest, -, hfile, hrest⟩ := FileTree.mem_files_below.1 hf
        rw [hrest]
        exact hhosts.isPresent_of_grows (FileTree.mem_leaves_of_file hfile)
          (hhosts.consistent.ne_nil _ hfile) (hmade.grows hhosts.sound.grounded hlocal)
      · have hreachable := hfits.reachable hns
        exact hmade.isPresent hns hreachable.ne_nil hreachable.ordinary hreachable.short
  · obtain ⟨beyond, hrun⟩ := MasterFiles.getDir_of_not_names web' engines' dest gzip hcopy hunlisted
      hhosts.consistent hoffers v
    exact ⟨_, LocalRoots.getDir_of_not_names l web engines dest gzip hcopy hunlisted hhosts, hrun, rfl⟩

/-- A root that holds a directory with a file and with an empty directory. -/
def hosting : World Unit where
  disk := ⟨[(["srv"], .dir Disk.openMode), (["srv", "d"], .dir Disk.openMode),
    (["srv", "d", "f"], .file false "new"), (["srv", "d", "e"], .dir Disk.openMode)], []⟩
  beyond := ()

def hosted : FileTree := ⟨[(["d", "f"], "new")], [["d", "e"]]⟩

def hostedRoots : LocalRoots Unit where
  settings := { Settings.defaults with fileRoots := .ofList [("base", ["srv"])] }
  digests := Digest.library
  yaml := Yaml.flow
  searchPath := none
  run := fun _ => pure []

theorem hosts_hosting : Hosts hostedRoots.settings "base" ⟨"srv"⟩ ["srv"] hosted hosting.disk := by
  have htree : hosting.disk.treeAt ["srv"] = hosted := by decide
  rw [← htree]
  exact LocalRoots.hosts_treeAt rfl
    ⟨by decide, by decide, Disk.isTree_of_entries (by decide), ⟨_, rfl⟩⟩ (by decide) ⟨_, rfl⟩
    (Disk.get?_ne_link_of_entries (by decide) _ _) (by decide)

theorem offers_hosted : (MasterFiles.ofTree hosted 10).Offers "base" hosted :=
  MasterFiles.offers_ofTree hosts_hosting.consistent (by decide) (by decide) "base"

theorem fits_hosted : (hosted.below [] "d").Fits ⟨"out"⟩ :=
  ⟨by decide, by decide, by decide, by decide⟩

theorem creates_hosting : Creates hosting.disk ⟨"out"⟩ ["out"] (hosting.disk.makeDirectories ⟨"out"⟩).2 :=
  ⟨by decide, by decide, rfl, ⟨_, rfl⟩, by decide⟩

theorem creates_apart : Creates MasterFiles.beforeCopy.disk ⟨"out"⟩ ["out"]
    (MasterFiles.beforeCopy.disk.makeDirectories ⟨"out"⟩).2 :=
  ⟨by decide, by decide, rfl, ⟨_, rfl⟩, by decide⟩

/-- What a local copy gives for the file is where the root has it. -/
theorem getDir_two_sources_hosted : ∃ found w' copied v',
    (hostedRoots.courier MasterFiles.noWeb .empty).getDir "salt://d/" "out" "base" 0 hosting =
      (.ok found, w') ∧
    ((MasterFiles.ofTree hosted 10).courier MasterFiles.noWeb .empty).getDir "salt://d/" "out" "base" 0
      MasterFiles.beforeCopy = (.ok copied, v') ∧
    w'.disk.Holding ["out"] ⟨[], [["d", "e"]]⟩ ∧ v'.disk.Holding ["out"] hosted ∧
    Bytes.ofString "srv/d/f" ∈ found ∧ Bytes.ofString "out/d/f" ∈ copied := by
  obtain ⟨hcopies, -⟩ := getDir_two_sources hostedRoots (MasterFiles.ofTree hosted 10) MasterFiles.noWeb
    MasterFiles.noWeb .empty .empty hosted "base" "salt://d/" "out" _ 0 ⟨"srv"⟩ hosting
    MasterFiles.beforeCopy ["srv"] ["out"] ["out"] _ _ rfl hosts_hosting offers_hosted creates_hosting
    ⟨Disk.isTree_of_entries (by decide), ⟨_, rfl⟩⟩ creates_apart
  obtain ⟨found, w', copied, v', hfoundRun, hcopiedRun, hmade, hcopied, hcopiedIff, hfoundIff, -, -⟩ :=
    hcopies [] "d" ⟨by decide, rfl⟩ (by decide) fits_hosted
  obtain ⟨-, hlocal⟩ := hmade.stands_or_nothing.resolve_right fun h => absurd h.1 (by decide)
  obtain ⟨-, hremote⟩ := hcopied.stands_or_nothing.resolve_right fun h => absurd h.1 (by decide)
  refine ⟨found, w', copied, v', hfoundRun, hcopiedRun, hlocal.holding, hremote.holding, ?_, ?_⟩
  · exact (hfoundIff _).2 (.inl ⟨(["d", "f"], "new"), by decide, by decide⟩)
  · exact (hcopiedIff _).2 ⟨["d", "f"], by decide, by decide⟩

/-- The file that the copy from a master leaves is not there after the local copy, which gives a path
that does not lead below the destination. -/
theorem sources_differ :
    Hosts hostedRoots.settings "base" ⟨"srv"⟩ ["srv"] hosted hosting.disk ∧
      (MasterFiles.ofTree hosted 10).Offers "base" hosted ∧ hosting.disk.isPresent ⟨"out"⟩ = false ∧
      MasterFiles.beforeCopy.disk.isPresent ⟨"out"⟩ = false ∧
      ∃ found w' copied v',
        (hostedRoots.courier MasterFiles.noWeb .empty).getDir "salt://d" "out" "base" 0 hosting =
          (.ok found, w') ∧
        ((MasterFiles.ofTree hosted 10).courier MasterFiles.noWeb .empty).getDir "salt://d" "out" "base" 0
          MasterFiles.beforeCopy = (.ok copied, v') ∧
        w'.disk.get? ["out", "d", "f"] = none ∧
        (∃ x, v'.disk.get? ["out", "d", "f"] = some (.file x "new")) ∧
        Bytes.ofString "srv/d/f" ∈ found ∧ ¬Bytes.ofString "out/" <+: Bytes.ofString "srv/d/f" := by
  have hP : ∀ n ∈ [] ++ [Bytes.ofString "d"], Segment n := by decide
  have hroot : CopyRoot.of? "salt://d" = some ⟨listed ([] ++ [Bytes.ofString "d"]), listed []⟩ :=
    CopyRoot.of?_listed hP 0
  obtain ⟨found, w', hfoundRun, hfound, hmade⟩ := LocalRoots.getDir_of_hosts hostedRoots
    MasterFiles.noWeb .empty 0 hroot hosts_hosting creates_hosting hP fits_hosted (by decide)
  obtain ⟨v', hcopiedRun, hcopied⟩ := MasterFiles.getDir_of_offers MasterFiles.noWeb .empty 0 hroot
    ⟨Disk.isTree_of_entries (by decide), ⟨_, rfl⟩⟩ creates_apart hosts_hosting.consistent offers_hosted
    hP fits_hosted
  obtain ⟨-, hlocal⟩ := hmade.stands_or_nothing.resolve_right fun h => absurd h.1 (by decide)
  obtain ⟨-, hremote⟩ := hcopied.stands_or_nothing.resolve_right fun h => absurd h.1 (by decide)
  refine ⟨hosts_hosting, offers_hosted, by decide, by decide, found, w', _, v', hfoundRun, hcopiedRun,
    hlocal.holding.get?_eq_none (fun _ => List.not_mem_nil) (by decide),
    hremote.holding.file.2 (by decide), ?_, by decide⟩
  exact (hfound _).2 (.inl ⟨(["d", "f"], "new"), by decide, by decide⟩)

end FileCourier
