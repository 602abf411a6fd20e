import FileCourier.Courier
import FileCourier.Proofs.MasterFiles.Keeping
import FileCourier.Proofs.Url
import Mathlib.Algebra.Group.Nat.Defs

/-!
# Caching files one after the other

For a courier over a master, what a cache keeps is a map from names to contents for each environment,
and caching a file binds its names in one of them (`keep`). Whatever was kept before, each call is
that step, and a run of calls all of them in turn (`cacheFile_refines`).
-/

namespace FileCourier

open FileCourier.Path (Plain Proper)

variable {σ : Type} {m : MasterFiles σ} {web : Web σ} {engines : Engines} {w w' : World σ}
  {path place env : Bytes} {d d' : Disk} {c : Cache}

/-! ## Virtual addresses -/

theorem Url.isVirtual_marked (path : Bytes) : (Url.parse (VirtualPath.mark ++ path)).isVirtual = true := by
  have hvalid : Url.validScheme "salt" = true := by decide
  have hparse : Url.parse (VirtualPath.mark ++ path) = Url.ofHierarchy "salt" path :=
    Url.parse_of_scheme hvalid path
  rw [hparse]
  rfl

/-- A courier over the files of a master. -/
def MasterFiles.courier (m : MasterFiles σ) (web : Web σ) (engines : Engines) : Courier σ where
  settings := m.settings
  source := m.source
  web := web
  engines := engines

/-- The request for a file that is to be cached. -/
def Courier.cacheRequest (path env : Bytes) : FileRequest :=
  { path := VirtualPath.mark ++ path, makeParents := true, env }

/-- Caching a file gives the text of the place that its source gives. -/
theorem Courier.cacheFile_apply (c : Courier σ) (path env : Bytes) (w : World σ) :
    c.cacheFile (VirtualPath.mark ++ path) env w =
      match c.getFile (Courier.cacheRequest path env) w with
      | (.ok fetched, w) => (.ok fetched.pathText, w)
      | (.error e, w) => (.error e, w) := by
  rw [Courier.cacheFile, Courier.getUrl, if_pos (Url.isVirtual_marked path)]
  change (c.getFile (Courier.cacheRequest path env) >>= fun fetched => pure fetched.pathText) w = _
  cases hget : c.getFile (Courier.cacheRequest path env) w with
  | mk result w' =>
    cases result with
    | error e => exact Action.bind_error hget
    | ok fetched => exact Action.bind_ok hget

theorem MasterFiles.cacheFile_apply (m : MasterFiles σ) (web : Web σ) (engines : Engines)
    (path env : Bytes) (w : World σ) :
    (m.courier web engines).cacheFile (VirtualPath.mark ++ path) env w =
      match m.getFile (Courier.cacheRequest path env) w with
      | (.ok fetched, w) => (.ok fetched.pathText, w)
      | (.error e, w) => (.error e, w) :=
  Courier.cacheFile_apply (m.courier web engines) path env w

/-- Caching a file gives a place only where the file was stored. -/
theorem MasterFiles.stored_of_cacheFile
    (h : (m.courier web engines).cacheFile (VirtualPath.mark ++ path) env w = (.ok place, w'))
    (hne : place ≠ []) :
    m.getFile (Courier.cacheRequest path env) w = (.ok (.stored ⟨place⟩), w') := by
  rw [MasterFiles.cacheFile_apply] at h
  split at h
  · rename_i fetched w'' hget
    rw [hget]
    cases fetched with
    | stored path =>
      cases h
      rfl
    | _ =>
      cases h
      exact absurd rfl hne
  · cases h

/-! ## Files by environment -/

/-- A file of an environment, under names that stay in the directory of the environment. -/
structure Item where
  env : Bytes
  name : Bytes
  env_proper : Proper env
  name_plain : Plain ⟨name⟩

namespace Item

def address (i : Item) : Bytes := VirtualPath.mark ++ i.name

def request (i : Item) : FileRequest := Courier.cacheRequest i.name i.env

/-- The names of the file from the directory of its environment on. -/
def names (i : Item) : List Bytes := (Path.mk i.name).names

theorem dropSlashes_name (i : Item) : VirtualPath.dropSlashes i.name = i.name :=
  Cache.dropSlashes_of_isAbsolute i.name_plain.isAbsolute_eq

theorem keptNames_eq (i : Item) : Cache.keptNames i.env i.name = Cache.filesNames i.env ++ i.names := by
  rw [Cache.keptNames, dropSlashes_name]
  rfl

end Item

/-- Binds the names of a file to its content among the files of its environment. -/
def keep (kept : Bytes → Files) (x : Item × Bytes) : Bytes → Files :=
  Function.update kept x.1.env ((kept x.1.env).bind x.1.names x.2)

namespace Cache

/-- The copies of local files. -/
def localFiles (c : Cache) (d : Disk) : Files := (c.files d).behind ["localfiles"]

/-- The files from foreign hosts. -/
def foreignFiles (c : Cache) (d : Disk) : Files := (c.files d).behind ["extrn_files"]

/-- The cache of `d'` is that of `d`, but that `kept` are the files of its environments. -/
structure Keeps (c : Cache) (d d' : Disk) (kept : Bytes → Files) : Prop where
  orderly : c.Orderly d'
  keptFiles_eq : c.keptFiles d' = kept
  localFiles_eq : c.localFiles d' = c.localFiles d
  foreignFiles_eq : c.foreignFiles d' = c.foreignFiles d

theorem keeps_of_bind {i : Item} {s : Bytes} (h : c.Orderly d')
    (hfiles : c.files d' = (c.files d).bind (keptNames i.env i.name) s) :
    c.Keeps d d' (keep (c.keptFiles d) (i, s)) := by
  rw [i.keptNames_eq] at hfiles
  have other {above : Bytes} (hne : above ≠ Bytes.ofString "files") :
      (c.files d').behind [above] = (c.files d).behind [above] := by
    rw [hfiles]
    refine Files.behind_bind_of_apart _ s ?_
    simp [filesNames, hne, hne.symm]
  refine ⟨h, ?_, other (by decide), other (by decide)⟩
  funext env
  rw [keptFiles, hfiles, keep]
  by_cases henv : env = i.env
  · subst henv
    rw [Function.update_self]
    exact Files.behind_bind _ _ _ _
  · rw [Function.update_of_ne henv]
    refine Files.behind_bind_of_apart _ s ?_
    simp [filesNames, henv, Ne.symm henv]

end Cache

/-! ## Runs -/

namespace MasterFiles

/-- Files cached one after the other, each with the bytes that were delivered of it. -/
inductive Caches (m : MasterFiles σ) (web : Web σ) (engines : Engines) :
    World σ → List (Item × Bytes) → World σ → Prop
  | nil {w : World σ} : Caches m web engines w [] w
  | cons {w w' w'' : World σ} {i : Item} {place : Bytes} {rest : List (Item × Bytes)} :
      (m.courier web engines).cacheFile i.address i.env w = (.ok place, w') → place ≠ [] →
      Caches m web engines w' rest w'' →
      Caches m web engines w ((i, m.delivered i.request w) :: rest) w''

theorem cacheFile_keeps (hroot : ∀ n ∈ m.cache.root.names, Proper n) (hhonest : m.Honest) {i : Item}
    (h : m.cache.Orderly w.disk)
    (hcache : (m.courier web engines).cacheFile i.address i.env w = (.ok place, w'))
    (hne : place ≠ []) :
    m.cache.Keeps w.disk w'.disk
      (keep (m.cache.keptFiles w.disk) (i, m.delivered i.request w)) := by
  have hget := stored_of_cacheFile hcache hne
  have hstored : (m.getFile i.request w).1 = .ok (.stored ⟨place⟩) := by
    rw [Item.request, hget]
  have hname : Plain ⟨VirtualPath.dropSlashes i.name⟩ := by
    rw [i.dropSlashes_name]
    exact i.name_plain
  have hstrip : VirtualPath.strip? i.request.path = some i.name :=
    VirtualPath.strip?_eq_some_iff.2 rfl
  obtain ⟨horderly, hfiles⟩ := getFile_keeps h hroot hhonest rfl i.env_proper hstrip hname hstored
  rw [Item.request, hget] at horderly hfiles
  exact Cache.keeps_of_bind horderly hfiles

theorem isCached_of_cacheFile (hhonest : m.Honest) {i : Item}
    (hcache : (m.courier web engines).cacheFile i.address i.env w = (.ok place, w'))
    (hne : place ≠ []) :
    (m.courier web engines).isCached i.address i.env w' = (.ok place, w') := by
  have hget := stored_of_cacheFile hcache hne
  have hstored : (m.getFile i.request w).1 = .ok (.stored ⟨place⟩) := by
    rw [Item.request, hget]
  have hstrip : VirtualPath.strip? i.address = some i.name :=
    VirtualPath.strip?_eq_some_iff.2 rfl
  obtain ⟨hplace, x, hentry⟩ := exists_entryAt?_of_stored hstrip rfl hhonest hstored
  rw [Item.request, hget] at hentry
  have hpresent : w'.disk.isPresent ⟨place⟩ = true := by
    rw [Disk.isPresent, hentry]
    rfl
  have hkept : m.cache.filePath i.env i.name = ⟨place⟩ := hplace.symm
  have hfound : (m.courier web engines).cache.isCached i.address i.env w'.disk = some ⟨place⟩ := by
    rw [Cache.isCached, hstrip]
    change [m.cache.filePath i.env i.name].find? w'.disk.isPresent = _
    rw [hkept, List.find?_cons_of_pos hpresent]
  rw [Courier.isCached, Action.looking, hfound]

/-- Whatever an orderly cache kept before: caching a file binds its names among the files of its
environment to what was delivered, which is all of a content that is served, and changes no other
file of the cache; the file is then found under the path that was given for it. A run of such calls
binds the files of all of them, one after the other. -/
theorem cacheFile_refines (m : MasterFiles σ) (web : Web σ) (engines : Engines)
    (hroot : ∀ n ∈ m.cache.root.names, Proper n) (hhonest : m.Honest) :
    (∀ (i : Item) (w w' : World σ) (place : Bytes), m.cache.Orderly w.disk →
      (m.courier web engines).cacheFile i.address i.env w = (.ok place, w') → place ≠ [] →
      m.cache.Keeps w.disk w'.disk
        (keep (m.cache.keptFiles w.disk) (i, m.delivered i.request w)) ∧
      (∀ content, m.Serves i.request i.name content i.name →
        m.delivered i.request w = content) ∧
      (m.courier web engines).isCached i.address i.env w' = (.ok place, w')) ∧
    ∀ (w w' : World σ) (calls : List (Item × Bytes)), m.cache.Orderly w.disk →
      m.Caches web engines w calls w' →
      m.cache.Keeps w.disk w'.disk (calls.foldl keep (m.cache.keptFiles w.disk)) := by
  refine ⟨fun i w w' place horderly hcache hne => ?_, fun w w' calls horderly hrun => ?_⟩
  · have hget := stored_of_cacheFile hcache hne
    have hstrip : VirtualPath.strip? i.request.path = some i.name :=
      VirtualPath.strip?_eq_some_iff.2 rfl
    refine ⟨cacheFile_keeps hroot hhonest horderly hcache hne, fun content hserves => ?_,
      isCached_of_cacheFile hhonest hcache hne⟩
    exact delivered_of_serves hstrip hserves (congrArg Prod.fst hget)
  · induction hrun with
    | nil => exact ⟨horderly, rfl, rfl, rfl⟩
    | cons hcache hne _ ih =>
      have hstep := cacheFile_keeps hroot hhonest horderly hcache hne
      have hrest := ih hstep.orderly
      refine ⟨hrest.orderly, ?_, hrest.localFiles_eq.trans hstep.localFiles_eq,
        hrest.foreignFiles_eq.trans hstep.foreignFiles_eq⟩
      rw [hrest.keptFiles_eq, hstep.keptFiles_eq]
      rfl

/-- A master that serves one content under whatever path it is asked for. -/
def serving (content : Bytes) : MasterFiles Unit where
  settings := { Settings.defaults with cachedir := "cache" }
  digests := Digest.library
  ask := fun request s =>
    (.ok (.ofList [("dest", .bytes (request.bytesOr "path" [])),
      ("data", .bytes (content.drop (request.intOr "loc" 0).toInt.toNat))]), s)
  patience := 10

theorem honest_serving (content : Bytes) : (serving content).Honest := by
  intro r relative n s reply hreply
  cases hreply
  right
  have hpath : (pieceRequest r relative n).bytesOr "path" [] = relative := by
    rw [Message.bytesOr, (asksFor_pieceRequest r relative n).path]
  exact hpath

theorem serves_serving {l : Digests} {r : FileRequest} {relative content : Bytes} {n : Nat} (s : Unit)
    (hn : n ≤ content.length) (hsize : content.length < 2 ^ 63) :
    ∃ reply, ((serving content).ask (pieceRequest r relative n) s).1 = .ok reply ∧
      ServesFrom l r content relative n reply := by
  have hasks := asksFor_pieceRequest r relative n
  have hpath : (pieceRequest r relative n).bytesOr "path" [] = relative := by
    rw [Message.bytesOr, hasks.path]
  have hloc : ((pieceRequest r relative n).intOr "loc" 0).toInt.toNat = n := by
    rw [Message.intOr, hasks.loc]
    change (Int64.ofNat n).toInt.toNat = n
    rw [Int64.toInt_ofNat_of_lt (Nat.lt_of_le_of_lt hn hsize)]
    rfl
  refine ⟨_, rfl, ?_⟩
  rw [hpath, hloc]
  rcases Nat.lt_or_ge n content.length with hlt | hge
  · refine .raw rfl ?_ (List.prefix_refl _) fun h => by cases h.2
    exact fun hnil => absurd (List.drop_eq_nil_iff.1 hnil) (Nat.not_le.2 hlt)
  · exact .closing rfl (List.drop_eq_nil_of_le hge) hge (.inl rfl)

/-- A web out of reach. -/
def noWeb : Web σ := fun _ => throw .impatient

/-- A cache that keeps a file where a directory belongs. -/
def crowdedCache : World Unit where
  disk := ⟨[(["cache"], .dir 0o755), (["cache", "files"], .dir 0o700),
    (["cache", "files", "base"], .dir 0o700), (["cache", "files", "base", "d"], .file false "old"),
    (["cache", "files", "prod"], .dir 0o700), (["cache", "files", "prod", "f"], .file false "old")],
    []⟩
  beyond := ()

theorem orderly_crowdedCache : (serving "new").cache.Orderly crowdedCache.disk :=
  ⟨Disk.isTree_of_entries (by decide), ⟨_, rfl⟩, fun _ _ =>
    Disk.get?_ne_link_of_entries (by decide) _ _⟩

/-- A file in a directory. -/
def nestedItem : Item := ⟨"base", "d/f", by decide, by decide⟩

theorem cacheFile_refines_overFile : ∃ w',
    (serving "new").Caches noWeb .empty crowdedCache [(nestedItem, "new")] w' ∧
      (serving "new").cache.Keeps crowdedCache.disk w'.disk
        (List.foldl keep ((serving "new").cache.keptFiles crowdedCache.disk)
          [(nestedItem, Bytes.ofString "new")]) ∧
      ((serving "new").courier noWeb .empty).isCached nestedItem.address nestedItem.env w' =
        (.ok "cache/files/base/d/f", w') := by
  have hplace : (((serving "new").courier noWeb .empty).cacheFile nestedItem.address nestedItem.env
      crowdedCache).1 = .ok "cache/files/base/d/f" := rfl
  have hdelivered : (serving "new").delivered nestedItem.request crowdedCache = "new" := by
    decide +kernel
  have hrun := Caches.cons (Prod.ext hplace rfl) (by decide) .nil
  rw [hdelivered] at hrun
  obtain ⟨hcall, hcalls⟩ := cacheFile_refines (serving "new") noWeb .empty (by decide)
    (honest_serving "new")
  obtain ⟨-, -, hcached⟩ := hcall nestedItem crowdedCache _ _ orderly_crowdedCache
    (Prod.ext hplace rfl) (by decide)
  exact ⟨_, hrun, hcalls _ _ _ orderly_crowdedCache hrun, hcached⟩

/-- A name that the system does not read to its end is kept under another one, and a name that leads
out of the directory of its environment is kept in another. -/
theorem kept_elsewhere :
    (serving "new").Honest ∧ (serving "new").cache.Orderly crowdedCache.disk ∧
    (Path.normal ⟨[102, 0, 103]⟩ = [[102, 0, 103]] ∧
      (((serving "new").courier noWeb .empty).cacheFile (VirtualPath.mark ++ [102, 0, 103]) "base"
        crowdedCache).1 = .ok (Bytes.ofString "cache/files/base/" ++ [102, 0, 103]) ∧
      (serving "new").cache.keptFiles (((serving "new").courier noWeb .empty).cacheFile
        (VirtualPath.mark ++ [102, 0, 103]) "base" crowdedCache).2.disk "base" [[102, 0, 103]] =
          none) ∧
    Path.normal ⟨"../prod/f"⟩ = [Path.dotDot, "prod", "f"] ∧
      (serving "new").cache.keptFiles crowdedCache.disk "prod" ["f"] = some "old" ∧
      (((serving "new").courier noWeb .empty).cacheFile "salt://../prod/f" "base" crowdedCache).1 =
        .ok "cache/files/base/../prod/f" ∧
      (serving "new").cache.keptFiles (((serving "new").courier noWeb .empty).cacheFile
        "salt://../prod/f" "base" crowdedCache).2.disk "prod" ["f"] = some "new" :=
  ⟨honest_serving "new", orderly_crowdedCache, ⟨by decide, rfl, by decide +kernel⟩, by decide,
    by decide +kernel, rfl, by decide +kernel⟩

end MasterFiles

end FileCourier
