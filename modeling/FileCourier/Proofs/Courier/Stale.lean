import FileCourier.Proofs.Cache.Putting
import FileCourier.Proofs.Cache.Turns
import FileCourier.Proofs.Courier.Caching
import FileCourier.Proofs.WebFetch

/-!
# Caching over stale content

Whatever directories and files a cache holds: a file of the master, a local file and a file from a
foreign host are cached with exactly their bytes (`stale_content_never_blocks`). A file of the master
also takes the place of an old directory; the other two need a place where none stands.
-/

namespace FileCourier

open Cache (Vacant foreignPlace localPlace placeOf)
open Disk (Within)
open FileCourier.Path (Ordinary)

variable {σ : Type} {m : MasterFiles σ} {web : Web σ} {engines : Engines} {w : World σ}
  {c : Courier σ} {P origin : Place} {env name relative text content : Bytes} {d : Disk}
  {x : Bool} {t : Transfer} {beyond : σ}

/-- An action gives a path that then leads to a file with the content. -/
def Action.Gives (a : Action (World σ) Bytes) (w : World σ) (place : Path) (content : Bytes) : Prop :=
  ∃ w' x, a w = (.ok place.text, w') ∧ w'.disk.entryAt? place = some (.file x content)

/-! ## Local files and files from foreign hosts -/

namespace Courier

theorem cacheLocalFile_gives (hat : c.cache.At P w.disk)
    (hroot : ∀ n ∈ c.cache.root.names, Ordinary n) (htext : c.cache.root.text ≠ [])
    (htakes : c.cache.Takes (localPlace name)) (hvacant : Vacant w.disk P (localPlace name))
    (hsource : w.disk.find ⟨name⟩ = .ok (.at origin (.file x content))) (houtside : ¬P <+: origin) :
    (c.cacheLocalFile name).Gives w (c.cache.localPath name) content := by
  obtain ⟨d', y, hstore, hentry⟩ : ∃ d' y, c.cache.storeLocalFile ⟨name⟩ w.disk =
      (.ok (c.cache.localPath name), d') ∧
      d'.entryAt? (c.cache.localPath name) = some (.file y content) :=
    Cache.exists_storeLocalFile htakes hvacant hat hroot htext hsource houtside
  have hrun : (do return (← c.cache.storeLocalFile ⟨name⟩).text : Action Disk Bytes) w.disk =
      (.ok (c.cache.localPath name).text, d') := Action.bind_ok hstore
  exact ⟨{ w with disk := d' }, y, Action.onDisk_apply hrun, hentry⟩

theorem cacheFile_foreign {target : Path} {w' : World σ} {d' : Disk}
    (hvirtual : (Url.parse text).isVirtual = false) (hscheme : (Url.parse text).scheme ≠ [])
    (hdestination : c.cache.foreignDestination env (Url.parse text).host (Url.parse text).path
      w.disk = (.ok target, d'))
    (hfetch : WebFetch.fetch c.web (Url.parse text) target { w with disk := d' } = (.ok (), w')) :
    c.cacheFile text env w = (.ok target.text, w') := by
  have htarget : c.foreignTarget (Url.parse text) [] true env w.disk = (.ok (some target), d') :=
    Action.bind_ok hdestination
  rw [cacheFile, getUrl, if_neg (Bool.not_eq_true _ ▸ hvirtual),
    if_neg (by rw [List.isEmpty_iff]; exact hscheme), Action.bind_ok (Action.onDisk_apply htarget)]
  exact Action.bind_ok hfetch

theorem cacheFile_gives_foreign (hat : c.cache.At P w.disk)
    (hroot : ∀ n ∈ c.cache.root.names, Ordinary n) (htext : c.cache.root.text ≠ [])
    (hvirtual : (Url.parse text).isVirtual = false) (hscheme : (Url.parse text).scheme ≠ [])
    (hhost : Ordinary (Url.parse text).host) (henv : (Path.mk env).isAbsolute = false)
    (htakes : c.cache.Takes (foreignPlace env (Url.parse text).host (Url.parse text).path))
    (hvacant : Vacant w.disk P (foreignPlace env (Url.parse text).host (Url.parse text).path))
    (htransfer : c.web (WebFetch.requestOf (Url.parse text)) w.beyond = (.ok t, beyond))
    (hdelivers : t.Delivers content) :
    (c.cacheFile text env).Gives w
      (c.cache.foreignPath env (Url.parse text).host (Url.parse text).path) content := by
  obtain ⟨d₁, place, d₂, hprepare, hopen, -⟩ := htakes.exists_opened hvacant hat hroot htext
  rw [← Cache.foreignPath_eq _ henv hhost.isAbsolute] at hprepare hopen
  obtain ⟨d', y, hstore, hfind⟩ := WebFetch.exists_store (Url.parse text) hdelivers hopen
  refine ⟨⟨d', beyond⟩, y, cacheFile_foreign hvirtual hscheme hprepare ?_, Disk.entryAt?_of_find hfind⟩
  have hasked : Action.onBeyond (c.web (WebFetch.requestOf (Url.parse text))) { w with disk := d₁ } =
      (.ok t, ⟨d₁, beyond⟩) := by
    rw [Action.onBeyond, htransfer]
  rw [WebFetch.fetch, Action.bind_ok hasked]
  exact Action.onDisk_apply hstore

end Courier

/-! ## Files of the master -/

namespace MasterFiles

/-- A file can be started in the cache over whatever is kept there, also when its path winds. -/
theorem exists_startInCache_of_takes (hroot : ∀ n ∈ m.cache.root.names, Ordinary n)
    (htext : m.cache.root.text ≠ []) (hat : m.cache.At P d)
    (hway : (d.clear P).Way m.cache.root.isAbsolute m.cache.root.names P)
    (henv : (Path.mk env).isAbsolute = false) (htakes : m.cache.Takes (placeOf env name)) :
    ∃ dl d', m.startInCache {} env name d = (.ok dl, d') := by
  obtain ⟨d₁, hprepare, hat₁, hstood, hwithin⟩ := htakes.exists_prepare hat hroot htext
  have hinside : Within (P <+: ·) d d₁ :=
    hwithin.mono fun q ⟨s, _, hq⟩ => hq ▸ List.prefix_append P s
  rw [startInCache_apply, Cache.destination, Cache.filePath_eq _ henv, hprepare]
  dsimp only
  cases hdirectory : d₁.isDirectory (m.cache.root / placeOf env name) with
  | true =>
    obtain ⟨d₂, hremove, place, d₃, hopen⟩ :=
      htakes.exists_removeAll hway hroot hat₁ hstood hinside hdirectory
    obtain ⟨dl, hstart⟩ := exists_act_start hopen {}
    rw [if_pos rfl, hremove]
    exact ⟨dl, d₃, hstart⟩
  | false =>
    have hvacant := htakes.vacant_of_not_isDirectory hat₁ hroot hstood hdirectory
    obtain ⟨place, d₂, hopen, -⟩ := htakes.exists_openForWriting hvacant hat₁ hroot hstood
    obtain ⟨dl, hstart⟩ := exists_act_start hopen {}
    exact ⟨dl, d₂, hstart⟩

theorem name_ne_nil_of_takes {c : Cache} (h : c.Takes (placeOf env name)) : name ≠ [] := by
  rintro rfl
  have hnames : (placeOf env []).names ≠ [] := by
    rw [h.names_eq]
    exact List.append_ne_nil_of_right_ne_nil _ (List.cons_ne_nil _ _)
  have hdirectory : (Path.mk "files" / Path.mk env).text ≠ [] :=
    Path.text_join_ne_nil_left (List.cons_ne_nil _ _) _
  exact Path.last_of_not_endsInSlash hnames h.endsInSlash (Path.getLast?_join_nil hdirectory)

theorem cacheFile_gives (hroot : ∀ n ∈ m.cache.root.names, Ordinary n)
    (htext : m.cache.root.text ≠ []) (hat : m.cache.At P w.disk)
    (hway : (w.disk.clear P).Way m.cache.root.isAbsolute m.cache.root.names P)
    (henv : (Path.mk env).isAbsolute = false) (htakes : m.cache.Takes (placeOf env name))
    (hserves : m.Serves (Courier.cacheRequest relative env) relative content name)
    (hpatience : content.length < m.patience) :
    ((m.courier web engines).cacheFile (VirtualPath.mark ++ relative) env).Gives w
      (m.cache.filePath env name) content := by
  obtain ⟨dl, d', hstart⟩ := exists_startInCache_of_takes hroot htext hat hway henv htakes
  obtain ⟨hresult, ⟨x, hentry⟩, -⟩ := run_of_serves rfl hserves hpatience
    (.cached rfl (name_ne_nil_of_takes htakes) hstart)
  refine ⟨_, x, ?_, hentry⟩
  rw [MasterFiles.cacheFile_apply]
  cases hget : m.getFile (Courier.cacheRequest relative env) w with
  | mk result w' =>
    rw [hget] at hresult
    cases hresult
    rfl

/-- Whatever directories and files a cache holds, a file that the master serves, a local file and a file
that is delivered from a foreign host are cached with exactly their bytes, the latter two if no
directory stands at their place. -/
theorem stale_content_never_blocks (m : MasterFiles σ) (web : Web σ) (engines : Engines)
    (w : World σ) {k : Nat} (htree : w.disk.IsTree)
    (hcache : w.disk.find m.cache.root = .ok (.at P (.dir k)))
    (hlink : ∀ q t, P <+: q → w.disk.get? q ≠ some (.link t))
    (hroot : ∀ n ∈ m.cache.root.names, Ordinary n) :
    (∀ env relative name content, (w.disk.clear P).find m.cache.root = .ok (.at P (.dir k)) →
      (Path.mk env).isAbsolute = false → m.cache.Takes (placeOf env name) →
      m.Serves (Courier.cacheRequest relative env) relative content name →
      content.length < m.patience →
      ((m.courier web engines).cacheFile (VirtualPath.mark ++ relative) env).Gives w
        (m.cache.filePath env name) content) ∧
    (∀ name origin x content, m.cache.Takes (localPlace name) → Vacant w.disk P (localPlace name) →
      w.disk.find ⟨name⟩ = .ok (.at origin (.file x content)) → ¬P <+: origin →
      ((m.courier web engines).cacheLocalFile name).Gives w (m.cache.localPath name) content) ∧
    ∀ text env t beyond content, (Url.parse text).isVirtual = false →
      (Url.parse text).scheme ≠ [] → Ordinary (Url.parse text).host →
      (Path.mk env).isAbsolute = false →
      m.cache.Takes (foreignPlace env (Url.parse text).host (Url.parse text).path) →
      Vacant w.disk P (foreignPlace env (Url.parse text).host (Url.parse text).path) →
      web (WebFetch.requestOf (Url.parse text)) w.beyond = (.ok t, beyond) → t.Delivers content →
      ((m.courier web engines).cacheFile text env).Gives w
        (m.cache.foreignPath env (Url.parse text).host (Url.parse text).path) content := by
  have htext : m.cache.root.text ≠ [] := Disk.text_ne_nil_of_find (Path.no_nul_of_names hroot) hcache
  have hat : m.cache.At P w.disk := ⟨htree, hlink _ _, Disk.way_of_find htree hroot hcache⟩
  refine ⟨fun env relative name content hclear henv htakes hserves hpatience => ?_,
    fun name origin x content htakes hvacant hsource houtside => ?_,
    fun text env t beyond content hvirtual hscheme hhost henv htakes hvacant htransfer hdelivers => ?_⟩
  · have hway := Disk.way_of_find (htree.clear P) hroot hclear
    exact cacheFile_gives hroot htext hat hway henv htakes hserves hpatience
  · exact Courier.cacheLocalFile_gives (c := m.courier web engines) hat hroot htext htakes hvacant
      hsource houtside
  · exact Courier.cacheFile_gives_foreign (c := m.courier web engines) hat hroot htext hvirtual
      hscheme hhost henv htakes hvacant htransfer hdelivers

/-- A cache with a file in the place of a directory among the files of each kind, with a directory in the
place of a file of the master, and with older files. -/
def staleWorld : World Unit where
  disk := ⟨[(["cache"], .dir 0o755), (["cache", "files"], .dir 0o700),
    (["cache", "files", "base"], .dir 0o700), (["cache", "files", "base", "f"], .dir 0o700),
    (["cache", "files", "base", "f", "old"], .file false "old"),
    (["cache", "localfiles"], .file false "old"), (["cache", "extrn_files"], .dir 0o700),
    (["cache", "extrn_files", "base"], .file false "old"), (["a"], .dir 0o755),
    (["a", "b"], .file false "local")], []⟩
  beyond := ()

/-- A web that delivers a text in two chunks. -/
def deliveringWeb : Web Unit := fun _ =>
  pure ⟨[.header "HTTP/1.1 200 OK", .body "for", .header "Age: 0", .body "eign"], none⟩

theorem stale_content_never_blocks_any :
    (((serving "new").courier deliveringWeb .empty).cacheFile "salt://f" "base").Gives staleWorld
      "cache/files/base/f" "new" ∧
    (((serving "new").courier deliveringWeb .empty).cacheLocalFile "a/b").Gives staleWorld
      "cache/localfiles/a/b" "local" ∧
    (((serving "new").courier deliveringWeb .empty).cacheFile "http://h/x?q" "base").Gives staleWorld
      "cache/extrn_files/base/h/x" "foreign" := by
  have htree : staleWorld.disk.IsTree := Disk.isTree_of_entries (by decide)
  have hlink : ∀ q t, staleWorld.disk.get? q ≠ some (.link t) :=
    Disk.get?_ne_link_of_entries (by decide)
  have hcache : staleWorld.disk.find (serving "new").cache.root = .ok (.at ["cache"] (.dir 0o755)) := by
    decide
  obtain ⟨hmaster, hlocal, hforeign⟩ := stale_content_never_blocks (serving "new") deliveringWeb
    .empty staleWorld htree hcache (fun q t _ => hlink q t) (by decide)
  have vacant {place : Path} (hnone : ((Path.wind place.names).bind fun s =>
      staleWorld.disk.get? ((["cache"] : Place) ++ s)) = none) :
      Vacant staleWorld.disk ["cache"] place := by
    intro s hs k hdir
    rw [hs] at hnone
    cases hnone.symm.trans hdir
  refine ⟨hmaster "base" "f" "f" "new" (by decide) (by decide) ?_ (fun n s hn => ?_)
    (by decide), hlocal "a/b" ["a", "b"] false "local" ?_ (vacant (by decide)) (by decide)
    (by decide), hforeign "http://h/x?q" "base" _ () "foreign" (by decide) (by decide) (by decide)
    (by decide) ?_ (vacant (by decide)) rfl ⟨rfl, by decide, by decide⟩⟩
  · exact ⟨by decide, by decide, by decide, ⟨["files", "base"], by decide, by decide⟩, by decide⟩
  · exact serves_serving s hn (by decide)
  · exact ⟨by decide, by decide, by decide, ⟨["localfiles", "a"], by decide, by decide⟩, by decide⟩
  · exact ⟨by decide, by decide, by decide, ⟨["extrn_files", "base", "h"], by decide, by decide⟩,
      by decide⟩

/-- A cache with directories in the places of files. -/
def blockedWorld : World Unit where
  disk := ⟨[(["cache"], .dir 0o755), (["cache", "localfiles"], .dir 0o700),
    (["cache", "localfiles", "a"], .dir 0o700), (["cache", "extrn_files"], .dir 0o700),
    (["cache", "extrn_files", "base"], .dir 0o700), (["cache", "extrn_files", "base", "h"], .dir 0o700),
    (["cache", "extrn_files", "base", "h", "a"], .dir 0o700), (["a"], .file false "local")], []⟩
  beyond := ()

/-- An old directory is not removed for a local file, nor for one from a foreign host, and an address
without a path has no place but the directory of its host. -/
theorem stale_content_blocks :
    blockedWorld.disk.IsTree ∧ (∀ q t, blockedWorld.disk.get? q ≠ some (.link t)) ∧
    blockedWorld.disk.find (serving "new").cache.root = .ok (.at ["cache"] (.dir 0o755)) ∧
    (blockedWorld.disk.find "a" = .ok (.at ["a"] (.file false "local")) ∧
      (((serving "new").courier deliveringWeb .empty).cacheLocalFile "a" blockedWorld).1 =
        .error (.store (.notCreated "cache/localfiles/a"))) ∧
    (∃ t, deliveringWeb (WebFetch.requestOf (Url.parse "http://h/a")) () = (.ok t, ()) ∧
      t.Delivers "foreign" ∧
      (((serving "new").courier deliveringWeb .empty).cacheFile "http://h/a" "base" blockedWorld).1 =
        .error (.web (.broken "http://h/a" WebFetch.notTaken))) ∧
    ∃ t, deliveringWeb (WebFetch.requestOf (Url.parse "http://k")) () = (.ok t, ()) ∧
      t.Delivers "foreign" ∧
      (((serving "new").courier deliveringWeb .empty).cacheFile "http://k" "base" blockedWorld).1 =
        .error (.web (.broken "http://k" WebFetch.notTaken)) :=
  ⟨Disk.isTree_of_entries (by decide), Disk.get?_ne_link_of_entries (by decide), by decide,
    ⟨by decide, by decide +kernel⟩,
    ⟨_, rfl, ⟨rfl, by decide, by decide⟩, by decide +kernel⟩,
    ⟨_, rfl, ⟨rfl, by decide, by decide⟩, by decide +kernel⟩⟩

end MasterFiles

end FileCourier
