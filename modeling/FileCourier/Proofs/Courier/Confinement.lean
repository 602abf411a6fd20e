import FileCourier.Proofs.Courier.Caching
import FileCourier.Proofs.MasterFiles.Confined

/-!
# What the master cannot reach

While the names that the master sends are tame, whatever it sends stays in the tree that was asked
for: what is cached stays below the directory of its environment, and a copied directory below its
destination (`tame_confined`). Names that lead up or away reach other files
(`wild_unconfined`).
-/

namespace FileCourier

open Disk (Behind Below Site Within siteGuard)
open FileCourier.Path (Plain Proper)

variable {σ : Type} {m : MasterFiles σ} {web : Web σ} {engines : Engines} {G : Action.Guard Disk}
  {name path env dest listed relative : Bytes} {root : CopyRoot} {w : World σ} {P : Place}
  {listing : Listing}

/-! ## Where listed paths go -/

theorem Cache.plain_dropSlashes (h : Plain ⟨listed⟩) : Plain ⟨VirtualPath.dropSlashes listed⟩ := by
  rwa [Cache.dropSlashes_of_isAbsolute h.isAbsolute_eq]

/-- What follows a slash in a plain path is plain. -/
theorem Path.Plain.of_append_slash {s t : Bytes} (h : Plain ⟨s ++ slash :: t⟩)
    (ht : (Path.mk t).isAbsolute = false) (hne : t ≠ []) : Plain ⟨t⟩ where
  isAbsolute_eq := ht
  proper n hn := by
    refine h.proper n ?_
    rw [names_mk_append_slash]
    exact List.mem_append_right _ hn
  text_ne_nil := hne
  last hlast := h.last (by simp [List.getLast?_append, List.getLast?_cons, hlast])

/-- Of a virtual directory the copy keeps its last segment. -/
theorem CopyRoot.parent_cases (h : CopyRoot.of? path = some root) : root.parent = [] ∨
    ∃ last, root.path = root.parent ++ slash :: last ∧ slash ∉ last ∧ last ≠ [] := by
  rw [CopyRoot.of?, Option.map_eq_some_iff] at h
  obtain ⟨rest, -, rfl⟩ := h
  dsimp only
  cases hbreak : Bytes.breakAtLast? (Bytes.ascii '/')
      (rest.reverse.dropWhile (· == Bytes.ascii '/')).reverse with
  | none => exact .inl rfl
  | some parts =>
    obtain ⟨before, last⟩ := parts
    obtain ⟨htrimmed, hlast⟩ := Bytes.eq_append_of_breakAtLast? hbreak
    refine .inr ⟨last, htrimmed, hlast, fun hnil => Path.getLast?_trimEnd rest ?_⟩
    rw [Path.trimEnd, show slash = Bytes.ascii '/' from rfl, htrimmed, hnil]
    simp

/-- A listed path that goes below the destination goes there under a plain path. -/
theorem CopyRoot.plain_destination (hroot : CopyRoot.of? path = some root)
    (hcontains : root.contains listed = true) (hlisted : Plain ⟨listed⟩)
    (hdest : root.destination? listed = some relative) : Plain ⟨relative⟩ := by
  rw [CopyRoot.destination?] at hdest
  split at hdest
  · cases hdest
    rcases CopyRoot.parent_cases hroot with hnil | ⟨last, hpath, hlast, hne⟩
    · rw [hnil]
      exact Cache.plain_dropSlashes hlisted
    · rw [CopyRoot.contains, List.isPrefixOf_iff_prefix, hpath] at hcontains
      obtain ⟨t, rfl⟩ := hcontains
      have htext : root.parent ++ slash :: last ++ [Bytes.ascii '/'] ++ t =
          root.parent ++ slash :: (last ++ slash :: t) := by simp [slash]
      have hrelative : (Path.mk (last ++ slash :: t)).isAbsolute = false := by
        obtain ⟨x, s, rfl⟩ := List.exists_cons_of_ne_nil hne
        have hx : x ≠ slash := fun heq => hlast (heq ▸ List.mem_cons_self)
        simpa [Path.isAbsolute] using hx
      rw [htext] at hlisted ⊢
      have hdrop : VirtualPath.dropSlashes
          ((root.parent ++ slash :: (last ++ slash :: t)).drop root.parent.length) =
            last ++ slash :: t := by
        rw [List.drop_left]
        exact Cache.dropSlashes_of_isAbsolute hrelative
      rw [hdrop]
      exact hlisted.of_append_slash hrelative (by simp)
  · cases hdest

/-! ## Listings -/

namespace MasterFiles

theorem command_apply (m : MasterFiles σ) (request : Message) (w : World σ) :
    m.command request w =
      match m.ask request w.beyond with
      | (.ok reply, beyond) => (.ok (some reply), ⟨w.disk, beyond⟩)
      | (.error (.unreachable _ _), beyond) => (.ok none, ⟨w.disk, beyond⟩)
      | (.error e, beyond) => (.error e, ⟨w.disk, beyond⟩) := by
  rw [command, Action.reached, Action.onBeyond]
  cases m.ask request w.beyond with
  | mk answer beyond =>
    cases answer with
    | ok reply => rfl
    | error e => cases e <;> rfl

theorem guarded_listing (m : MasterFiles σ) (name env : Bytes) :
    Action.Guarded G.inWorld (m.listing name env) := by
  refine Action.Guarded.map (Action.guarded_of_disk_eq fun w => ?_) _
  rw [command_apply]
  split <;> rfl

theorem Tame.plain_listing (h : m.Tame) (hrun : (m.listing name env w).1 = .ok listing) :
    ∀ p ∈ listing.getD [], Plain ⟨p⟩ := by
  rw [MasterFiles.listing] at hrun
  generalize Message.ofList [("env", .bytes env), ("cmd", .bytes name)] = request at hrun
  cases hcommand : m.command request w with
  | mk result w' =>
    cases result with
    | error e =>
      rw [Action.bind_error hcommand] at hrun
      cases hrun
    | ok answered =>
      rw [Action.bind_ok hcommand] at hrun
      cases hrun
      rw [command_apply] at hcommand
      split at hcommand
      · rename_i reply beyond hask
        cases hcommand
        exact h.listed (congrArg Prod.fst hask)
      · cases hcommand
        exact nofun
      · cases hcommand

/-! ## Into the cache -/

theorem guarded_cacheFile (htame : m.Tame) (hroot : ∀ n ∈ m.cache.root.names, Proper n)
    (henv : Proper env) (hpath : Plain ⟨VirtualPath.dropSlashes path⟩) :
    Action.Guarded (m.cache.guard P env).inWorld
      ((m.courier web engines).cacheFile (VirtualPath.mark ++ path) env) := by
  have hstrip : VirtualPath.strip? (Courier.cacheRequest path env).path = some path :=
    VirtualPath.strip?_eq_some_iff.2 rfl
  have hget : Action.Guarded (m.cache.guard P env).inWorld
      (m.getFile (Courier.cacheRequest path env)) :=
    guarded_getFile_inCache htame hroot henv rfl hstrip hpath
  intro w hat
  obtain ⟨hchanges, hholds⟩ := hget w hat
  rw [cacheFile_apply]
  generalize m.getFile (Courier.cacheRequest path env) w = run at hchanges hholds
  obtain ⟨result, w'⟩ := run
  cases result with
  | error e => exact ⟨hchanges, nofun⟩
  | ok fetched => exact ⟨hchanges, fun _ _ => hholds fetched rfl⟩

theorem guarded_cacheMaster (htame : m.Tame) (hroot : ∀ n ∈ m.cache.root.names, Proper n)
    (henv : Proper env) :
    Action.Guarded (m.cache.guard P env).inWorld ((m.courier web engines).cacheMaster env) := by
  refine (guarded_listing m "_file_list" env).bind fun w listing hlisting => ?_
  have hplain := htame.plain_listing hlisting
  cases listing with
  | none => exact Action.guarded_pure _
  | some files =>
    refine Action.guarded_mapM fun text htext => ?_
    obtain ⟨listed, hmem, rfl⟩ := List.mem_map.1 htext
    exact guarded_cacheFile htame hroot henv (Cache.plain_dropSlashes (hplain listed hmem))

theorem guarded_cacheDirectories (hroot : ∀ n ∈ m.cache.root.names, Proper n) (henv : Proper env)
    {directories : List Bytes} (hplain : ∀ p ∈ directories, Plain ⟨p⟩) :
    Action.Guarded (m.cache.guard P env).inWorld
      ((m.courier web engines).cacheDirectories directories env) := by
  refine Action.guarded_mapM fun listed hmem => ?_
  refine Action.Guarded.map (Action.guarded_onDisk fun d hat => ?_) _
  have hlisted := hplain listed hmem
  have hreads := (Cache.reads_filesRoot hroot henv).append hlisted
  rw [List.append_assoc] at hreads
  have hproper : ∀ n ∈ Cache.filesNames env ++ (Path.mk listed).names, Proper n := fun n hn => by
    rcases List.mem_append.1 hn with hn | hn
    · exact Cache.proper_filesNames henv n hn
    · exact hlisted.proper n hn
  obtain ⟨hat', hfills⟩ := Cache.At.ensureDirectory hat hroot hproper hreads (List.prefix_refl _)
  refine ⟨Cache.confined_of_touched hlisted.names_ne_nil ?_, fun _ _ => hat'⟩
  exact Within.mono hfills fun q hq => .inl hq

theorem guarded_cacheListed (htame : m.Tame) (hroot : ∀ n ∈ m.cache.root.names, Proper n)
    (henv : Proper env) {files : List Bytes} (hplain : ∀ p ∈ files, Plain ⟨p⟩) :
    Action.Guarded (m.cache.guard P env).inWorld
      ((m.courier web engines).cacheListed files env) := by
  refine Action.Guarded.map (Action.guarded_mapM fun listed hmem => ?_) _
  exact guarded_cacheFile htame hroot henv (Cache.plain_dropSlashes (hplain listed hmem))

theorem guarded_cacheDir (htame : m.Tame) (hroot : ∀ n ∈ m.cache.root.names, Proper n)
    (henv : Proper env) (path : Bytes) (includeEmpty : Bool) :
    Action.Guarded (m.cache.guard P env).inWorld
      ((m.courier web engines).cacheDir path env includeEmpty) := by
  refine (Action.guarded_ofOption _ _).bind fun _ root _ => ?_
  refine (guarded_listing m "_file_list" env).bind fun w listing hlisting => ?_
  have hplain := htame.plain_listing hlisting
  refine (guarded_cacheListed htame hroot henv fun p hp => ?_).bind fun _ cached _ => ?_
  · exact hplain p (List.mem_filter.1 hp).1
  cases includeEmpty with
  | false => exact Action.guarded_pure _
  | true =>
    refine (guarded_listing m "_file_list_emptydirs" env).bind fun w listing hlisting => ?_
    have hplain := htame.plain_listing hlisting
    refine (guarded_cacheDirectories hroot henv fun p hp => ?_).map _
    exact hplain p (List.mem_filter.1 hp).1

/-! ## Below a destination -/

/-- A listed path that goes below a destination leads to a place behind it. -/
theorem behind_of_targetOf {target : Path} (hdest : 0 ∉ dest) (hroot : CopyRoot.of? path = some root)
    (hlisted : Plain ⟨listed⟩) (hcontains : root.contains listed = true)
    (htarget : (Courier.targetOf root dest listed w).1 = .ok target) :
    ∃ ns, Behind (Path.mk dest).isAbsolute (Path.mk dest).names ns target := by
  rw [Courier.targetOf] at htarget
  cases hrelative : root.destination? listed with
  | none =>
    rw [hrelative] at htarget
    cases htarget
  | some relative =>
    rw [hrelative] at htarget
    cases htarget
    have hplain := CopyRoot.plain_destination hroot hcontains hlisted hrelative
    exact ⟨_, Path.reads_join hdest hplain, hplain.names_ne_nil, hplain.proper⟩

variable {D : Place}

theorem guarded_targetOf (root : CopyRoot) (dest listed : Bytes) :
    Action.Guarded G.inWorld (Courier.targetOf root dest listed : Action (World σ) Path) :=
  (Action.guarded_ofOption _ _).map _

theorem guarded_getListed (hdest : 0 ∉ dest) (hroot : CopyRoot.of? path = some root) (gzip : Int)
    {files : List Bytes} (hplain : ∀ p ∈ files, Plain ⟨p⟩ ∧ root.contains p = true) :
    Action.Guarded (siteGuard (Path.mk dest).isAbsolute (Path.mk dest).names D).inWorld
      ((m.courier web engines).getListed root dest env gzip files) := by
  refine Action.Guarded.map (Action.guarded_mapM fun listed hmem => ?_) _
  obtain ⟨hlisted, hcontains⟩ := hplain listed hmem
  refine (guarded_targetOf root dest listed).bind fun w target htarget => ?_
  obtain ⟨ns, hbehind⟩ := behind_of_targetOf hdest hroot hlisted hcontains htarget
  refine Action.Guarded.map ?_ _
  exact guarded_getFile_below hbehind

theorem guarded_makeListed (hdest : 0 ∉ dest) (hroot : CopyRoot.of? path = some root)
    {directories : List Bytes} (hplain : ∀ p ∈ directories, Plain ⟨p⟩ ∧ root.contains p = true) :
    Action.Guarded (siteGuard (Path.mk dest).isAbsolute (Path.mk dest).names D).inWorld
      (Courier.makeListed root dest directories : Action (World σ) (List Bytes)) := by
  refine Action.guarded_mapM fun listed hmem => ?_
  obtain ⟨hlisted, hcontains⟩ := hplain listed hmem
  refine (guarded_targetOf root dest listed).bind fun w target htarget => ?_
  obtain ⟨ns, hbehind⟩ := behind_of_targetOf hdest hroot hlisted hcontains htarget
  refine Action.Guarded.map (Action.guarded_onDisk ?_) _
  exact Disk.guarded_makeDirectories hbehind.reads hbehind.proper

theorem guarded_getDir (htame : m.Tame) (hdest : 0 ∉ dest) (path env : Bytes) (gzip : Int) :
    Action.Guarded (siteGuard (Path.mk dest).isAbsolute (Path.mk dest).names D).inWorld
      ((m.courier web engines).getDir path dest env gzip) := by
  refine (Action.guarded_ofOption _ _).bind fun _ root hcopied => ?_
  have hroot := Action.eq_some_of_ofOption hcopied
  have inRoot {listing : List Bytes} (hplain : ∀ p ∈ listing, Plain ⟨p⟩) :
      ∀ p ∈ listing.filter root.contains, Plain ⟨p⟩ ∧ root.contains p = true := fun p hp =>
    ⟨hplain p (List.mem_filter.1 hp).1, (List.mem_filter.1 hp).2⟩
  refine (guarded_listing m "_file_list" env).bind fun w listing hlisting => ?_
  have hfiles := inRoot (htame.plain_listing hlisting)
  refine (guarded_getListed hdest hroot gzip hfiles).bind fun _ copied _ => ?_
  refine (guarded_listing m "_file_list_emptydirs" env).bind fun w listing hlisting => ?_
  have hdirectories := inRoot (htame.plain_listing hlisting)
  exact (guarded_makeListed hdest hroot hdirectories).map _

/-! ## Whatever else the master sends -/

/-- Whatever a tame master answers, and however it ends: caching a file, a directory or everything of
an environment in a cache without links changes nothing but what is below the directory of the
environment, and the way there where no directory stood; copying a directory to one without links
changes nothing but what is below that. -/
theorem tame_confined (m : MasterFiles σ) (web : Web σ) (engines : Engines) (htame : m.Tame) :
    (∀ (P : Place) (env : Bytes) (w : World σ), (∀ n ∈ m.cache.root.names, Proper n) →
      Proper env → m.cache.At P w.disk →
      (∀ path, Plain ⟨VirtualPath.dropSlashes path⟩ → Cache.Confined P env w.disk
        ((m.courier web engines).cacheFile (VirtualPath.mark ++ path) env w).2.disk) ∧
      (∀ path includeEmpty, Cache.Confined P env w.disk
        ((m.courier web engines).cacheDir path env includeEmpty w).2.disk) ∧
      Cache.Confined P env w.disk ((m.courier web engines).cacheMaster env w).2.disk) ∧
    ∀ (dest : Bytes) (D : Place) (w : World σ), 0 ∉ dest →
      Site (Path.mk dest).isAbsolute (Path.mk dest).names D w.disk →
      ∀ path env gzip, Within (Below D) w.disk
        ((m.courier web engines).getDir path dest env gzip w).2.disk := by
  refine ⟨fun P env w hroot henv hat => ⟨fun path hpath => ?_, fun path includeEmpty => ?_, ?_⟩,
    fun dest D w hdest hsite path env gzip => ?_⟩
  · exact (guarded_cacheFile htame hroot henv hpath w hat).1
  · exact (guarded_cacheDir htame hroot henv path includeEmpty w hat).1
  · exact (guarded_cacheMaster htame hroot henv w hat).1
  · exact (guarded_getDir htame hdest path env gzip w hsite).1

/-- A master that lists files and empty directories, and serves one content for each of them. -/
def offering (files directories : List Bytes) (content : Bytes) : MasterFiles Unit where
  settings := { Settings.defaults with cachedir := "cache" }
  digests := Digest.library
  ask := fun request s =>
    if request.bytesOr "cmd" [] = Bytes.ofString "_serve_file" then (serving content).ask request s
    else if request.bytesOr "cmd" [] = Bytes.ofString "_file_list" then
      (.ok (.ofList [("return", .list files)]), s)
    else (.ok (.ofList [("return", .list directories)]), s)
  patience := 10

theorem tame_offering {files directories : List Bytes} (hfiles : ∀ p ∈ files, Plain ⟨p⟩)
    (hdirectories : ∀ p ∈ directories, Plain ⟨p⟩) (content : Bytes) :
    (offering files directories content).Tame where
  dest := by
    intro r relative n s reply hrelative hask
    have hcmd : (pieceRequest r relative n).bytesOr "cmd" [] = Bytes.ofString "_serve_file" := by
      rw [Message.bytesOr, (asksFor_pieceRequest r relative n).cmd]
    have hserve : (offering files directories content).ask (pieceRequest r relative n) s =
        (serving content).ask (pieceRequest r relative n) s := if_pos hcmd
    rw [hserve] at hask
    rcases honest_serving content r relative n s reply hask with hnil | heq
    · exact .inl hnil
    · exact .inr (heq.symm ▸ hrelative)
  listed := by
    intro request s reply hask p hp
    simp only [offering] at hask
    split at hask
    · cases hask
      cases hp
    split at hask
    · cases hask
      exact hfiles p hp
    · cases hask
      exact hdirectories p hp

/-- An empty cache, a directory to copy to, and a file beside them. -/
def besides : Disk := ⟨[(["cache"], .dir 0o755), (["out"], .dir 0o755), (["keep"], .dir 0o755),
  (["keep", "old"], .file false "old")], []⟩

theorem site_besides {absolute : Bool} {names : List Bytes} {root : Place} {k : Nat}
    (hbase : ∃ m, besides.get? (besides.base absolute) = some (.dir m))
    (hfollow : besides.follow true Disk.maxLinks (besides.base absolute) names =
      .ok (.at root (.dir k))) : Site absolute names root besides where
  tree := Disk.isTree_of_entries (by decide)
  noLink _ := Disk.get?_ne_link_of_entries (by decide) _ _
  way := Disk.way_of_follow (Disk.isTree_of_entries (by decide)) hbase hfollow

/-- The disk after a directory was cached. -/
def cachedDir (m : MasterFiles Unit) (path : Bytes) (d : Disk) : Disk :=
  ((m.courier noWeb .empty).cacheDir path "base" true ⟨d, ()⟩).2.disk

/-- The disk after a directory was copied. -/
def copiedDir (m : MasterFiles Unit) (path dest : Bytes) (d : Disk) : Disk :=
  ((m.courier noWeb .empty).getDir path dest "base" 0 ⟨d, ()⟩).2.disk

theorem tame_confined_nested :
    Cache.Confined ["cache"] "base" besides
        (cachedDir (offering ["d/f"] ["d/e"] "new") "salt://d" besides) ∧
      (cachedDir (offering ["d/f"] ["d/e"] "new") "salt://d" besides).get?
        ["cache", "files", "base", "d", "f"] = some (.file false "new") ∧
      Within (Below ["out"]) besides
        (copiedDir (offering ["d/f"] ["d/e"] "new") "salt://d" "out" besides) ∧
      (copiedDir (offering ["d/f"] ["d/e"] "new") "salt://d" "out" besides).get?
        ["out", "d", "f"] = some (.file false "new") := by
  have htame : (offering ["d/f"] ["d/e"] "new").Tame := tame_offering (by decide) (by decide) _
  obtain ⟨hcache, hcopy⟩ := tame_confined _ noWeb .empty htame
  obtain ⟨-, hcacheDir, -⟩ := hcache ["cache"] "base" ⟨besides, ()⟩ (by decide) (by decide)
    (site_besides ⟨_, rfl⟩ rfl)
  exact ⟨hcacheDir _ _, rfl,
    hcopy "out" ["out"] ⟨besides, ()⟩ (by decide) (site_besides ⟨_, rfl⟩ rfl) _ _ _, rfl⟩

/-- A master that gives the replies of a list for the files of a cache. -/
def replying : MasterFiles (List Message) :=
  { playing with settings := { Settings.defaults with cachedir := "cache" } }

/-- A place that leads up takes a directory beside the cache away, and a listed path that leads up
puts a directory beside the cache, or a file beside the destination of a copy. -/
theorem wild_unconfined :
    replying.cache.At ["cache"] besides ∧
      Site (Path.mk "out").isAbsolute (Path.mk "out").names ["out"] besides ∧
      ((replying.courier noWeb .empty).cacheFile "salt://f" "base"
        ⟨besides, [.ofList [("dest", .bytes "../../../keep"), ("data", .bytes "new")],
          .empty]⟩).2.disk.get? ["keep", "old"] = none ∧
      (cachedDir (offering [] ["d/../../../../made"] "new") "salt://d" besides).get? ["made"] =
        some (.dir Disk.ownerMode) ∧
      (copiedDir (offering ["d/../../made"] [] "new") "salt://d" "out" besides).get? ["made"] =
        some (.file false "new") :=
  ⟨site_besides ⟨_, rfl⟩ rfl, site_besides ⟨_, rfl⟩ rfl, rfl, rfl, rfl⟩

end MasterFiles

end FileCourier
