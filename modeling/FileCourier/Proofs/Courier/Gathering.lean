import FileCourier.Proofs.Courier.Reaching
import FileCourier.Proofs.MasterFiles.Filling

/-!
# Trees that come into a cache from a master that is out of reach now and then

A directory of a tree that is offered whenever the master is reached comes into the cache as far as it
was within reach (`cacheDir_reached`), and so do all files of the tree (`cacheMaster_reached`).
-/

namespace FileCourier

open LocalRoots (listed)
open FileCourier.Path (Segment)

variable {σ : Type} {m : MasterFiles σ} {web : Web σ} {engines : Engines} {t : FileTree}
  {path env : Bytes} {root : CopyRoot} {above ns : List Bytes} {seg : Bytes} {w : World σ}
  {d d₁ : Disk} {P : Place}

/-- Of values that may be empty, those that are not. -/
theorem filter_map_ite {α : Type} (p : α → Prop) [DecidablePred p] {g : α → Bytes} {l : List α}
    (hne : ∀ a ∈ l, g a ≠ []) :
    (l.map fun a => if p a then g a else []).filter (fun place => !place.isEmpty) =
      (l.filter p).map g := by
  induction l with
  | nil => rfl
  | cons a l ih =>
    have hrest := ih fun b hb => hne b (List.mem_cons_of_mem a hb)
    have ha := List.isEmpty_eq_false_iff.2 (hne a List.mem_cons_self)
    by_cases h : p a
    · rw [List.map_cons, if_pos h, List.filter_cons_of_pos (by simpa using ha), hrest,
        List.filter_cons_of_pos (by simpa using h), List.map_cons]
    · rw [List.map_cons, if_neg h, List.filter_cons_of_neg (by simp), hrest,
        List.filter_cons_of_neg (by simpa using h)]

/-- Where the files of a tree lie in the cache, and its empty directories if these are asked for. -/
def Cache.placesOf (c : Cache) (env : Bytes) (above : List Bytes) (t : FileTree)
    (includeEmpty : Bool) : List Bytes :=
  (if includeEmpty then t.leaves else t.files.map (·.1)).map fun ns =>
    (c.filePath env (listed (above ++ ns))).text

/-- The places in the cache of the files of a tree, each empty if by the record one of the requests for
the file timed out. -/
def Cache.placesByRecord (c : Cache) (env : Bytes) (t : FileTree) (log : List Exchange) : List Bytes :=
  (if Answered log "cmd" "_file_list" then t.files else []).map fun f =>
    if Answered log "path" (listed f.1) then (c.filePath env (listed f.1)).text else []

/-- The files of a tree that come into the cache, by the record of their listing and of the requests for
them. -/
theorem Cache.filter_results {c : Cache} {x : Exchange} {log after : List Exchange}
    {runs : List ((List Bytes × Bytes) × Bytes × List Exchange)} (ht : t.Consistent)
    (habove : ∀ n ∈ above, Segment n) (hfits : ∀ ns ∈ t.leaves, c.Accepts env (above ++ ns))
    (hx : x.request = MasterFiles.listingRequest "_file_list" env)
    (hafter : ∀ y ∈ after, y.request = MasterFiles.listingRequest "_file_list_emptydirs" env)
    (hruns : ∀ y ∈ runs,
      Brings above (fun ns => (c.filePath env (listed (above ++ ns))).text) [] y)
    (hfst : runs.map Prod.fst = if x.TimedOut then [] else t.files)
    (hlog : log = [x] ++ runs.flatMap (fun y => y.2.2) ++ after) :
    (runs.map fun y => y.2.1).filter (fun place => !place.isEmpty) =
      (t.reached above log).files.map fun f => (c.filePath env (listed (above ++ f.1))).text := by
  have hne : ∀ f ∈ (if Answered log "cmd" "_file_list" then t.files else []),
      (c.filePath env (listed (above ++ f.1))).text ≠ [] := by
    intro f hf
    split at hf
    · exact (hfits _ (FileTree.mem_leaves_of_file hf)).place_ne_nil
    · cases hf
  rw [results_of_listing ht habove hx hafter hruns hfst hlog, filter_map_ite _ hne,
    FileTree.files_reached]

namespace Courier

variable {c : Courier σ} {w₁ w₂ w₃ w₄ : World σ} {files directories : Listing}
  {cached made : List Bytes}

/-- What lies in a directory is not blank. -/
theorem not_isBlank_of_contains {name : Bytes} (h : root.contains name = true) :
    isBlank name = false := by
  rw [CopyRoot.contains, List.isPrefixOf_iff_prefix] at h
  rw [Bool.eq_false_iff, Ne, isBlank, List.all_eq_true]
  intro hblank
  have hslash := hblank slash (h.subset (List.mem_append_right root.path List.mem_cons_self))
  exact absurd hslash (by decide)

theorem filter_not_isBlank (root : CopyRoot) (l : List Bytes) :
    l.filter (fun name => !isBlank name && root.contains name) = l.filter root.contains := by
  refine List.filter_congr fun name _ => ?_
  cases hheld : root.contains name with
  | false => exact Bool.and_false _
  | true => rw [not_isBlank_of_contains hheld]; rfl

/-- A directory comes into the cache from its parts. -/
theorem cacheDir_apply (hroot : CopyRoot.of? path = some root)
    (hfiles : c.source.files env w = (.ok files, w₁))
    (hcached : c.cacheListed ((files.getD []).filter root.contains) env w₁ = (.ok cached, w₂))
    (hdirectories : c.source.emptyDirectories env w₂ = (.ok directories, w₃))
    (hmade : c.cacheDirectories ((directories.getD []).filter root.contains) env w₃ =
      (.ok made, w₄)) (includeEmpty : Bool) :
    c.cacheDir path env includeEmpty w =
      if includeEmpty then (.ok (cached ++ made), w₄) else (.ok cached, w₂) := by
  have hcopy : (copyRoot path : Action (World σ) CopyRoot) w = (.ok root, w) := by
    rw [copyRoot, hroot]
    rfl
  rw [cacheDir, Action.bind_ok hcopy, Action.bind_ok hfiles, filter_not_isBlank,
    Action.bind_ok hcached]
  cases includeEmpty with
  | false => rfl
  | true =>
    refine (Action.bind_ok hdirectories).trans ?_
    exact Action.bind_ok hmade

end Courier

namespace MasterFiles

section

variable (hopens : m.cache.Opens d d₁) (hsettled : m.cache.Settled P d₁)
include hopens hsettled

/-- Whatever came into the cache before, the requests for the next file are its own, and its place is
given unless one of them timed out. -/
theorem cacheFile_reached (web : Web (σ × List Exchange)) (engines : Engines)
    {f : List Bytes × Bytes} {w : World (σ × List Exchange)} (h : m.cache.Filled P d w.disk)
    (hns : m.cache.Accepts env (above ++ f.1))
    (hserves : m.ServesWhenReached (Courier.cacheRequest (listed (above ++ f.1)) env)
      (listed (above ++ f.1)) f.2 (listed (above ++ f.1))) (hpatience : f.2.length < m.patience) :
    ∃ place log w', (m.recorded.courier web engines).cacheFile
        (VirtualPath.mark ++ listed (above ++ f.1)) env w = (.ok place, w') ∧
      w'.beyond.2 = w.beyond.2 ++ log ∧
      Brings above (fun ns => (m.cache.filePath env (listed (above ++ ns))).text) []
        (f, place, log) ∧
      m.cache.Filled P d w'.disk := by
  obtain ⟨hresult, hfilled⟩ := getFile_filled (w := w.plain) hopens hsettled h hns hserves hpatience
  obtain ⟨log, w', hget, hlog, hafter, hasks⟩ := getFile_logged rfl w hresult
  have hcache := cacheFile_apply m.recorded web engines (listed (above ++ f.1)) env w
  rw [hget] at hcache
  refine ⟨_, log, w', hcache, hlog, ⟨hasks, ?_⟩, hafter ▸ hfilled⟩
  exact apply_ite Fetched.pathText (∃ x ∈ log, x.TimedOut) _ _

/-- Files come into the cache one after the other. -/
theorem cacheFiles_reached (web : Web (σ × List Exchange)) (engines : Engines) (env : Bytes)
    (above : List Bytes) {fs : List (List Bytes × Bytes)} {w : World (σ × List Exchange)} (h : m.cache.Filled P d w.disk)
    (hfs : ∀ f ∈ fs, m.cache.Accepts env (above ++ f.1) ∧
      m.ServesWhenReached (Courier.cacheRequest (listed (above ++ f.1)) env)
        (listed (above ++ f.1)) f.2 (listed (above ++ f.1)) ∧ f.2.length < m.patience) :
    ∃ (runs : List ((List Bytes × Bytes) × Bytes × List Exchange)) (w' : World (σ × List Exchange)),
      runs.map Prod.fst = fs ∧
      (fs.map fun f => listed (above ++ f.1)).mapM (fun name =>
        (m.recorded.courier web engines).cacheFile (VirtualPath.mark ++ name) env) w =
          (.ok (runs.map fun y => y.2.1), w') ∧
      w'.beyond.2 = w.beyond.2 ++ runs.flatMap (fun y => y.2.2) ∧
      (∀ y ∈ runs, Brings above (fun ns => (m.cache.filePath env (listed (above ++ ns))).text) [] y) ∧
      m.cache.Filled P d w'.disk := by
  rw [List.mapM_map]
  refine Action.exists_mapM_recorded (I := fun runs d' =>
    (∀ y ∈ runs, Brings above (fun ns => (m.cache.filePath env (listed (above ++ ns))).text) [] y) ∧
      m.cache.Filled P d d') ?_ ⟨List.forall_mem_nil _, h⟩
  intro before f after w hsplit h
  obtain ⟨hns, hserves, hpatience⟩ := hfs f (hsplit ▸ List.mem_append_right _ List.mem_cons_self)
  obtain ⟨place, log, w', hrun, hlog, hbrings, hfilled⟩ :=
    cacheFile_reached hopens hsettled web engines h.2 hns hserves hpatience
  refine ⟨place, log, w', hrun, hlog, List.forall_mem_append.2 ⟨h.1, fun y hy => ?_⟩, hfilled⟩
  exact List.mem_singleton.1 hy ▸ hbrings

/-- Directories come into the cache one after the other. -/
theorem cacheDirectories_reached (web : Web (σ × List Exchange)) (engines : Engines) (env : Bytes)
    (above : List Bytes) (directories : List (List Bytes)) {w : World (σ × List Exchange)}
    (h : m.cache.Filled P d w.disk)
    (hdirectories : ∀ ns ∈ directories, m.cache.Accepts env (above ++ ns)) :
    ∃ w', (m.recorded.courier web engines).cacheDirectories
        (directories.map fun ns => listed (above ++ ns)) env w =
          (.ok (directories.map fun ns => (m.cache.filePath env (listed (above ++ ns))).text), w') ∧
      w'.beyond = w.beyond := by
  have hstep {before ns after} {w' : World (σ × List Exchange)}
      (hsplit : directories = before ++ ns :: after)
      (h : w'.beyond = w.beyond ∧ m.cache.Filled P d w'.disk) :
      ∃ w'', (do
        let place := m.cache.filesRoot env / listed (above ++ ns)
        Action.onDisk (m.cache.ensureDirectory place)
        return place.text : Action (World (σ × List Exchange)) Bytes) w' =
          (.ok (m.cache.filePath env (listed (above ++ ns))).text, w'') ∧
        w''.beyond = w.beyond ∧ m.cache.Filled P d w''.disk := by
    have hns := hdirectories ns (hsplit ▸ List.mem_append_right _ List.mem_cons_self)
    have hplace : m.cache.filePath env (listed (above ++ ns)) =
        m.cache.filesRoot env / listed (above ++ ns) := by
      rw [Cache.filePath, hns.dropSlashes_eq]
    obtain ⟨d', hmade, hsettled'⟩ := Cache.ensureDirectory_filled hopens hsettled h.2 hns
    have hmake : Action.onDisk
        (m.cache.ensureDirectory (m.cache.filesRoot env / listed (above ++ ns))) w' =
          (.ok (), { w' with disk := d' }) := by
      rw [Action.onDisk, ← hplace, hmade]
    rw [hplace]
    exact ⟨{ w' with disk := d' }, Action.bind_ok hmake, h.1, .settled hsettled'⟩
  obtain ⟨w', hrun, hbeyond, -⟩ := Action.mapM_run (I := fun _ (w' : World (σ × List Exchange)) =>
    w'.beyond = w.beyond ∧ m.cache.Filled P d w'.disk) hstep ⟨rfl, h⟩
  refine ⟨w', ?_, hbeyond⟩
  rw [Courier.cacheDirectories, List.mapM_map]
  exact hrun

end

/-- A directory that is offered whenever the master is reached comes into the cache as far as it was
within reach. -/
theorem cacheDir_reached (web : Web σ) (engines : Engines) (hroot : CopyRoot.of? path = some root)
    (hnames : root.Names above seg) (hopens : m.cache.Opens w.disk d₁) (ht : t.Consistent)
    (hoffers : m.OffersWhenReached env t)
    (hfits : ∀ ns ∈ (t.below above seg).leaves, m.cache.Accepts env (above ++ ns))
    (includeEmpty : Bool) :
    ((m.courier web engines).perform (.cacheDir path env includeEmpty) w).1 =
      .ok (.places (m.cache.placesOf env above ((t.below above seg).reached above
        (m.exchangesOf web engines (.cacheDir path env includeEmpty) w)) includeEmpty)) := by
  obtain ⟨P, hsettled⟩ := hopens.ready.exists_settled
  obtain rfl := hnames.eq hroot
  have hP := hnames.segments
  have habove : ∀ n ∈ above, Segment n := fun n hn => hP n (List.mem_append_left _ hn)
  obtain ⟨x, beyond₁, hx, hfiles⟩ := listing_recorded hoffers.files ⟨w.disk, w.beyond, []⟩
  have hsub := (isPrefix_cut x.TimedOut (t.below above seg).files).subset
  let w₁ : World (σ × List Exchange) := ⟨w.disk, beyond₁, [] ++ [x]⟩
  obtain ⟨runs, w₂, hfst, hrun₂, hlog₂, hbrings, hfilled⟩ :=
    cacheFiles_reached (w := w₁) hopens hsettled web.beside engines env above .untouched
      fun f hf => by
        obtain ⟨rest, -, hfile, hname⟩ := FileTree.mem_files_below.1 (hsub hf)
        rw [← hname] at hfile
        exact ⟨hfits _ (FileTree.mem_leaves_of_file (hsub hf)), hoffers.serves _ hfile _ rfl,
          hoffers.patience (above ++ f.1, f.2) hfile⟩
  obtain ⟨y, beyond₃, hy, hdirectories⟩ := listing_recorded hoffers.emptyDirectories w₂
  let w₃ : World (σ × List Exchange) := ⟨w₂.disk, beyond₃, w₂.beyond.2 ++ [y]⟩
  obtain ⟨w₄, hmade, hbeyond⟩ := cacheDirectories_reached (w := w₃) hopens hsettled web.beside engines
    env above (if y.TimedOut then [] else (t.below above seg).emptyDirectories) hfilled
    fun ns hns => hfits ns (FileTree.mem_leaves_of_directory ((isPrefix_cut _ _).subset hns))
  have hcached : (m.recorded.courier web.beside engines).cacheListed _ env w₁ = _ :=
    Action.bind_ok hrun₂
  rw [← filter_listing (FileTree.filter_listedFiles ht hP (listed above))] at hcached
  rw [← filter_listing (FileTree.filter_listedDirectories ht hP (listed above))] at hmade
  have hcache := Courier.cacheDir_apply (c := m.recorded.courier web.beside engines) hroot hfiles
    hcached hdirectories hmade includeEmpty
  -- The second listing is in the record only if the directories are asked for.
  cases includeEmpty with
  | false =>
    have hperform : (m.recorded.courier web.beside engines).perform (.cacheDir path env false)
        ⟨w.disk, w.beyond, []⟩ = (.ok (.places _), w₂) := Action.bind_ok hcache
    obtain ⟨hrun, hexchanged⟩ := perform_of_recorded hperform
    have hlog : m.exchangesOf web engines (.cacheDir path env false) w =
        [x] ++ runs.flatMap (fun y => y.2.2) ++ [] := by
      rw [hexchanged, List.append_nil]
      exact hlog₂
    rw [hrun, Cache.filter_results (ht.below above seg) habove hfits hx (List.forall_mem_nil _) hbrings
      hfst hlog, Cache.placesOf, if_neg Bool.false_ne_true, List.map_map]
    rfl
  | true =>
    have hperform : (m.recorded.courier web.beside engines).perform (.cacheDir path env true)
        ⟨w.disk, w.beyond, []⟩ = (.ok (.places _), w₄) := Action.bind_ok hcache
    obtain ⟨hrun, hexchanged⟩ := perform_of_recorded hperform
    have hlog : m.exchangesOf web engines (.cacheDir path env true) w =
        [x] ++ runs.flatMap (fun y => y.2.2) ++ [y] := by
      rw [hexchanged]
      exact (congrArg Prod.snd hbeyond).trans (congrArg (· ++ [y]) hlog₂)
    have hafter : ∀ z ∈ [y], z.request = listingRequest "_file_list_emptydirs" env :=
      fun z hz => List.mem_singleton.1 hz ▸ hy
    rw [hrun, Cache.filter_results (ht.below above seg) habove hfits hx hafter hbrings hfst hlog,
      Cache.placesOf, if_pos rfl, FileTree.leaves, List.map_append, List.map_map,
      FileTree.emptyDirectories_reached hx hy hbrings hlog]
    rfl

/-- The files of a tree that is offered whenever the master is reached come into the cache as far as
they were within reach. -/
theorem cacheMaster_reached (web : Web σ) (engines : Engines) (hopens : m.cache.Opens w.disk d₁)
    (ht : t.Consistent) (hoffers : m.OffersWhenReached env t)
    (hfits : ∀ f ∈ t.files, m.cache.Accepts env f.1) :
    ((m.courier web engines).perform (.cacheMaster env) w).1 =
      .ok (.places (m.cache.placesByRecord env t
        (m.exchangesOf web engines (.cacheMaster env) w))) := by
  obtain ⟨P, hsettled⟩ := hopens.ready.exists_settled
  obtain ⟨x, beyond₁, hx, hfiles⟩ := listing_recorded hoffers.files ⟨w.disk, w.beyond, []⟩
  have hsub := (isPrefix_cut x.TimedOut t.files).subset
  let w₁ : World (σ × List Exchange) := ⟨w.disk, beyond₁, [] ++ [x]⟩
  obtain ⟨runs, w₂, hfst, hrun₂, hlog₂, hbrings, -⟩ :=
    cacheFiles_reached (w := w₁) hopens hsettled web.beside engines env [] .untouched
      fun f hf =>
        ⟨hfits f (hsub hf), hoffers.serves f (hsub hf) _ rfl, hoffers.patience f (hsub hf)⟩
  have hcache : (m.recorded.courier web.beside engines).cacheMaster env ⟨w.disk, w.beyond, []⟩ =
      (.ok (runs.map fun y => y.2.1), w₂) := by
    rw [Courier.cacheMaster]
    refine (Action.bind_ok hfiles).trans ?_
    by_cases hcut : x.TimedOut
    · rw [if_pos hcut] at hrun₂ ⊢
      exact hrun₂
    · rw [if_neg hcut, List.mapM_map] at hrun₂
      rw [if_neg hcut]
      dsimp only
      rw [Courier.cacheFiles, FileTree.listedFiles, List.mapM_map, List.mapM_map]
      exact hrun₂
  have hperform : (m.recorded.courier web.beside engines).perform (.cacheMaster env)
      ⟨w.disk, w.beyond, []⟩ = (.ok (.places _), w₂) := Action.bind_ok hcache
  obtain ⟨hrun, hexchanged⟩ := perform_of_recorded hperform
  have hlog : m.exchangesOf web engines (.cacheMaster env) w =
      [x] ++ runs.flatMap (fun y => y.2.2) ++ [] := by
    rw [hexchanged, List.append_nil]
    exact hlog₂
  rw [hrun, results_of_listing ht (List.forall_mem_nil _) hx (List.forall_mem_nil _) hbrings hfst hlog]
  rfl

/-- Whatever the master is reached for, nothing comes into the cache for a directory that is not written
as the offered ones are listed. -/
theorem cacheDir_unnamed (web : Web σ) (engines : Engines) (hroot : CopyRoot.of? path = some root)
    (hunlisted : ∀ above seg, ¬root.Names above seg) (ht : t.Consistent)
    (hoffers : m.OffersWhenReached env t) (includeEmpty : Bool) (w : World σ) :
    ((m.courier web engines).perform (.cacheDir path env includeEmpty) w).1 = .ok (.places []) := by
  obtain ⟨files, beyond₁, hfiles, hsub₁⟩ := exists_listing hoffers.files w
  obtain ⟨directories, beyond₂, hdirectories, hsub₂⟩ :=
    exists_listing hoffers.emptyDirectories ⟨w.disk, beyond₁⟩
  have hnofile := Courier.filter_contains_eq_nil fun name hname =>
    FileTree.not_contains_of_mem_listedFiles ht hunlisted (hsub₁ hname)
  have hnodirectory := Courier.filter_contains_eq_nil fun name hname =>
    FileTree.not_contains_of_mem_listedDirectories ht hunlisted (hsub₂ hname)
  have hcached : (m.courier web engines).cacheListed ((files.getD []).filter root.contains) env
      ⟨w.disk, beyond₁⟩ = (.ok [], ⟨w.disk, beyond₁⟩) := by
    rw [hnofile]
    rfl
  have hmade : (m.courier web engines).cacheDirectories ((directories.getD []).filter root.contains)
      env ⟨w.disk, beyond₂⟩ = (.ok [], ⟨w.disk, beyond₂⟩) := by
    rw [hnodirectory]
    rfl
  have hcache := Courier.cacheDir_apply (c := m.courier web engines) hroot hfiles hcached
    hdirectories hmade includeEmpty
  cases includeEmpty with
  | false => exact congrArg Prod.fst (Action.bind_ok hcache)
  | true => exact congrArg Prod.fst (Action.bind_ok hcache)

end MasterFiles

end FileCourier
