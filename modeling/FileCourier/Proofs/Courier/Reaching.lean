import FileCourier.Proofs.Courier.Answered

/-!
# Copies from a master that is out of reach now and then

A master may offer a tree whenever it is reached (`OffersWhenReached`), and be out of reach for any of
the requests. A directory of the tree is then copied as far as it was within reach
(`getDir_reached`).
-/

namespace FileCourier

open Disk (Copied Creates)
open LocalRoots (listed)
open FileCourier.Path (Segment)

variable {σ β : Type} {m : MasterFiles σ} {web : Web σ} {engines : Engines} {t : FileTree}
  {path env dest : Bytes} {gzip : Int} {root : CopyRoot} {above : List Bytes} {seg : Bytes}
  {w : World σ} {d d₁ : Disk} {D : Place} {x : Exchange} {log after : List Exchange}

/-! ## Results by the record -/

section

variable {runs : List ((List Bytes × Bytes) × β × List Exchange)} {place : List Bytes → β}
  {nothing : β}

theorem answered_listing {name cmd : Bytes} (hx : x.request = MasterFiles.listingRequest name env) :
    Answered [x] "cmd" cmd ↔ (name = cmd → ¬x.TimedOut) := by
  have hcmd : x.request.bytesOr "cmd" [] = name := by
    rw [hx]
    rfl
  simp [Answered, hcmd]

/-- A listing is asked for by no path. -/
theorem answered_path_of_listing {value : Bytes} (hvalue : value ≠ [])
    (h : ∀ x ∈ log, ∃ name, x.request = MasterFiles.listingRequest name env) :
    Answered log "path" value := by
  refine answered_of_ne fun x hx => ?_
  obtain ⟨name, hrequest⟩ := h x hx
  rw [hrequest]
  exact hvalue.symm

/-- What the files of a tree brought, by the record of a listing and of the requests for what it
lists. -/
theorem results_of_listing (ht : t.Consistent) (habove : ∀ n ∈ above, Segment n)
    (hx : x.request = MasterFiles.listingRequest "_file_list" env)
    (hafter : ∀ y ∈ after, y.request = MasterFiles.listingRequest "_file_list_emptydirs" env)
    (hruns : ∀ y ∈ runs, Brings above place nothing y)
    (hfst : runs.map Prod.fst = if x.TimedOut then [] else t.files)
    (hlog : log = [x] ++ runs.flatMap (fun y => y.2.2) ++ after) :
    runs.map (fun y => y.2.1) = (if Answered log "cmd" "_file_list" then t.files else []).map fun f =>
      if Answered log "path" (listed (above ++ f.1)) then place f.1 else nothing := by
  subst hlog
  have hlisting : Answered ([x] ++ runs.flatMap (fun y => y.2.2) ++ after) "cmd" "_file_list" ↔
      ¬x.TimedOut := by
    have hother : Answered after "cmd" "_file_list" := fun y hy hcmd => by
      rw [hafter y hy] at hcmd
      exact absurd hcmd (by decide : Bytes.ofString "_file_list_emptydirs" ≠ "_file_list")
    rw [answered_cmd_of_brings hruns (by decide), answered_listing hx, and_iff_left hother]
    exact ⟨fun h => h rfl, fun h _ => h⟩
  have hsub : ∀ y ∈ runs, y.1 ∈ t.files := by
    intro y hy
    have hmem : y.1 ∈ runs.map Prod.fst := List.mem_map_of_mem hy
    rw [hfst] at hmem
    split at hmem
    · cases hmem
    · exact hmem
  have hfiles : (if Answered ([x] ++ runs.flatMap (fun y => y.2.2) ++ after) "cmd" "_file_list"
      then t.files else []) = runs.map Prod.fst := by
    rw [hfst]
    by_cases hcut : x.TimedOut
    · rw [if_pos hcut, if_neg fun h => hlisting.1 h hcut]
    · rw [if_neg hcut, if_pos (hlisting.2 hcut)]
  have hne {y : (List Bytes × Bytes) × β × List Exchange} (hy : y ∈ runs) :
      listed (above ++ y.1.1) ≠ [] := by
    have hfile := hsub y hy
    exact Path.listed_ne_nil (List.forall_mem_append.2
      ⟨habove, ht.segments _ (FileTree.mem_leaves_of_file hfile)⟩)
      (List.append_ne_nil_of_right_ne_nil above (ht.ne_nil _ hfile))
  rw [hfiles]
  refine results_eq hruns ?_ fun y hy => ⟨?_, ?_⟩
  · have hmap : (runs.map fun y => listed (above ++ y.1.1)) =
        (runs.map Prod.fst).map fun f => listed (above ++ f.1) := by
      rw [List.map_map]
      rfl
    rw [hmap, hfst]
    split
    · exact List.nodup_nil
    · exact ht.nodup_listed habove
  · exact answered_path_of_listing (hne hy) fun z hz => ⟨_, List.mem_singleton.1 hz ▸ hx⟩
  · exact answered_path_of_listing (hne hy) fun z hz => ⟨_, hafter z hz⟩

theorem FileTree.files_reached (t : FileTree) (above : List Bytes) (log : List Exchange) :
    (t.reached above log).files = (if Answered log "cmd" "_file_list" then t.files else []).filter
      fun f => Answered log "path" (listed (above ++ f.1)) := by
  rw [reached]
  dsimp only
  split
  · rfl
  · rfl

theorem FileTree.emptyDirectories_reached {y : Exchange}
    (hx : x.request = MasterFiles.listingRequest "_file_list" env)
    (hy : y.request = MasterFiles.listingRequest "_file_list_emptydirs" env)
    (hruns : ∀ y ∈ runs, Brings above place nothing y)
    (hlog : log = [x] ++ runs.flatMap (fun y => y.2.2) ++ [y]) :
    (t.reached above log).emptyDirectories = if y.TimedOut then [] else t.emptyDirectories := by
  have hother : Bytes.ofString "_file_list" ≠ "_file_list_emptydirs" := by decide
  have hlisting : Answered log "cmd" "_file_list_emptydirs" ↔ ¬y.TimedOut := by
    rw [hlog, answered_cmd_of_brings hruns (by decide), answered_listing hx, answered_listing hy,
      and_iff_right fun heq => absurd heq hother]
    exact ⟨fun h => h rfl, fun h _ => h⟩
  rw [reached]
  dsimp only
  by_cases hcut : y.TimedOut
  · rw [if_pos hcut, if_neg fun h => hlisting.1 h hcut]
  · rw [if_neg hcut, if_pos (hlisting.2 hcut)]

end

/-! ## Copies -/

/-- Files of a copy have been begun: each stands there under its name, with some content. -/
def Disk.Begun (d : Disk) (here : Path) (D : Place) (d₁ : Disk) (names : List (List Bytes))
    (d' : Disk) : Prop :=
  ∃ files : List (List Bytes × Bytes), files.map Prod.fst = names ∧ Copied d here D d₁ ⟨files, []⟩ d'

/-- Of values that may be missing, those that are there. -/
theorem filterMap_id_map_ite {α : Type} (p : α → Prop) [DecidablePred p] (g : α → β) (l : List α) :
    (l.map fun a => if p a then some (g a) else none).filterMap id = (l.filter p).map g := by
  induction l with
  | nil => rfl
  | cons a l ih =>
    by_cases h : p a
    · rw [List.map_cons, if_pos h, List.filterMap_cons_some (f := id) rfl, ih,
        List.filter_cons_of_pos (by simpa using h), List.map_cons]
    · rw [List.map_cons, if_neg h, List.filterMap_cons_none (f := id) rfl, ih,
        List.filter_cons_of_neg (by simpa using h)]

namespace MasterFiles

/-- The master offers a tree in an environment whenever it is reached. -/
structure OffersWhenReached (m : MasterFiles σ) (env : Bytes) (t : FileTree) : Prop where
  files : m.Replies (listingRequest "_file_list" env) fun reply =>
    reply.list "return" = t.listedFiles
  emptyDirectories : m.Replies (listingRequest "_file_list_emptydirs" env) fun reply =>
    reply.list "return" = t.listedDirectories
  serves : ∀ f ∈ t.files, ∀ r : FileRequest, r.env = env →
    m.ServesWhenReached r (listed f.1) f.2 (listed f.1)
  patience : ∀ f ∈ t.files, f.2.length < m.patience

/-- An errand brings what it brings with a record, and what is recorded then was exchanged. -/
theorem perform_of_recorded {e : Errand} {result : Except Fault Errand.Outcome}
    {w' : World (σ × List Exchange)}
    (h : (m.recorded.courier web.beside engines).perform e ⟨w.disk, w.beyond, []⟩ = (result, w')) :
    (m.courier web engines).perform e w = (result, w'.plain) ∧
      m.exchangesOf web engines e w = w'.beyond.2 := by
  have hunrecorded := perform_recorded m web engines e ⟨w.disk, w.beyond, []⟩
  rw [h] at hunrecorded
  exact ⟨hunrecorded, by rw [exchangesOf, h]⟩

section

variable (hd : d.Grounded) (hcreates : Creates d ⟨dest⟩ D d₁) (ht : t.Consistent)
  (hoffers : m.OffersWhenReached env t) (hfits : (t.below above seg).Fits ⟨dest⟩)
include hd hcreates ht hoffers hfits

/-- The next file of a copy is begun, and it is stored unless one of its requests timed out. -/
theorem getFile_begun (gzip : Int) {before after' : List (List Bytes × Bytes)} {f : List Bytes × Bytes}
    {w : World (σ × List Exchange)} (hsplit : (t.below above seg).files = before ++ f :: after')
    (h : d.Begun ⟨dest⟩ D d₁ (before.map Prod.fst) w.disk) :
    ∃ log w', m.recorded.getFile
        (Courier.copyRequest (listed (above ++ f.1)) ((Path.mk dest).along f.1) env gzip) w =
          (.ok (if ∃ x ∈ log, x.TimedOut then .timeout else .stored ((Path.mk dest).along f.1)), w') ∧
      w'.beyond.2 = w.beyond.2 ++ log ∧
      (∀ x ∈ log, x.request.bytesOr "path" [] = listed (above ++ f.1) ∧
        x.request.bytesOr "cmd" [] = Bytes.ofString "_serve_file") ∧
      d.Begun ⟨dest⟩ D d₁ ((before ++ [f]).map Prod.fst) w'.disk := by
  obtain ⟨files, hnames, h⟩ := h
  obtain ⟨ns, content⟩ := f
  have hmem : (ns, content) ∈ (t.below above seg).files :=
    hsplit ▸ List.mem_append_right _ List.mem_cons_self
  obtain ⟨middle, n, rfl, hfile, hreachable, hn⟩ := hfits.exists_name hmem
  have hapart : ∀ ms ∈ (FileTree.mk files []).leaves, FileTree.Apart ms (middle ++ [n]) := by
    have hleaves : (FileTree.mk files []).leaves = before.map Prod.fst :=
      (List.append_nil _).trans hnames
    rw [hleaves]
    exact (ht.below above seg).apart_before hsplit
  let r := Courier.copyRequest (listed (above ++ (middle ++ [n])))
    ((Path.mk dest).along (middle ++ [n])) env gzip
  -- Its place is opened before the first request, so the file stands there whatever is answered.
  obtain ⟨htext, hwritable, x, s, d₂, hdisk, -, hcopied⟩ := getFile_adds (r := r) m h hd hcreates
    (VirtualPath.strip?_eq_some_iff.2 rfl) rfl rfl hreachable hn
    (hfits.short _ (FileTree.mem_leaves_of_file hmem)) hapart w.beyond.1
  obtain ⟨dl, d', hbegin⟩ := exists_begin htext hwritable
  have hresult : (m.getFile r w.plain).1 = .ok .timeout ∨
      (m.getFile r w.plain).1 = .ok (.stored ((Path.mk dest).along (middle ++ [n]))) := by
    rcases run_of_reached (w := w.plain) rfl (hoffers.serves _ hfile r rfl) (hoffers.patience _ hfile)
      (.asked htext hbegin) with ⟨htimeout, -⟩ | ⟨hstored, -⟩
    · exact .inl htimeout
    · rw [target, if_neg htext] at hstored
      exact .inr hstored
  obtain ⟨log, w', hget, hlog, hafter, hasks⟩ := getFile_logged rfl w hresult
  refine ⟨log, w', hget, hlog, hasks, files ++ [(middle ++ [n], s)], ?_, ?_⟩
  · rw [List.map_append, List.map_append, hnames]
    rfl
  · rw [hafter]
    exact hdisk ▸ hcopied

/-- The requests for the next file are its own, and its place is given unless one of them timed
out. -/
theorem getOne_begun (web : Web (σ × List Exchange)) (engines : Engines) (gzip : Int)
    (hP : ∀ n ∈ above ++ [seg], Segment n) {before after' : List (List Bytes × Bytes)}
    {f : List Bytes × Bytes} {w : World (σ × List Exchange)}
    (hsplit : (t.below above seg).files = before ++ f :: after')
    (h : d.Begun ⟨dest⟩ D d₁ (before.map Prod.fst) w.disk) :
    ∃ place log w', (m.recorded.courier web engines).getOne
        ⟨listed (above ++ [seg]), listed above⟩ dest env gzip (listed (above ++ f.1)) w =
          (.ok place, w') ∧
      w'.beyond.2 = w.beyond.2 ++ log ∧
      Brings above (fun ns => some ((Path.mk dest).along ns).text) none (f, place, log) ∧
      d.Begun ⟨dest⟩ D d₁ ((before ++ [f]).map Prod.fst) w'.disk := by
  have hmem : f ∈ (t.below above seg).files := hsplit ▸ List.mem_append_right _ List.mem_cons_self
  obtain ⟨rest, -, -, hname⟩ := FileTree.mem_files_below.1 hmem
  have hordinary := hfits.ordinary _ (FileTree.mem_leaves_of_file hmem)
  obtain ⟨log, w', hget, hlog, hasks, hbegun⟩ :=
    getFile_begun hd hcreates ht hoffers hfits gzip hsplit h
  rw [hname] at hordinary
  have hone := Courier.getOne_apply (c := m.recorded.courier web engines) gzip hP hordinary dest
    (hname ▸ hget)
  rw [← hname] at hone
  refine ⟨_, log, w', hone, hlog, ⟨hasks, ?_⟩, hbegun⟩
  exact apply_ite (fun fetched : Fetched => fetched.path?.map fun path => path.text)
    (∃ x ∈ log, x.TimedOut) _ _

/-- The first files of a directory that is offered are begun one after the other. -/
theorem getListed_reached {fs : List (List Bytes × Bytes)} {w : World (σ × List Exchange)}
    (web : Web (σ × List Exchange)) (engines : Engines) (gzip : Int)
    (hP : ∀ n ∈ above ++ [seg], Segment n) (hfs : fs <+: (t.below above seg).files)
    (hw : w.disk = d) :
    ∃ (runs : List ((List Bytes × Bytes) × Option Bytes × List Exchange))
        (w' : World (σ × List Exchange)), runs.map Prod.fst = fs ∧
      (m.recorded.courier web engines).getListed ⟨listed (above ++ [seg]), listed above⟩ dest env gzip
        (fs.map fun f => listed (above ++ f.1)) w =
          (.ok ((runs.map fun y => y.2.1).filterMap id), w') ∧
      w'.beyond.2 = w.beyond.2 ++ runs.flatMap (fun y => y.2.2) ∧
      (∀ y ∈ runs, Brings above (fun ns => some ((Path.mk dest).along ns).text) none y) ∧
      d.Begun ⟨dest⟩ D d₁ (fs.map Prod.fst) w'.disk := by
  obtain ⟨rest, hrest⟩ := hfs
  obtain ⟨runs, w', rfl, hrun, hlog, hbrings, hbegun⟩ := Action.exists_mapM_recorded (l := fs)
    (f := fun f => (m.recorded.courier web engines).getOne
      ⟨listed (above ++ [seg]), listed above⟩ dest env gzip (listed (above ++ f.1)))
    (I := fun runs d' =>
      (∀ y ∈ runs, Brings above (fun ns => some ((Path.mk dest).along ns).text) none y) ∧
      d.Begun ⟨dest⟩ D d₁ ((runs.map Prod.fst).map Prod.fst) d') (w := w)
    (fun {before f after w} hsplit h => by
      rw [hsplit, List.append_assoc] at hrest
      obtain ⟨place, log, w', hone, hlog, hbrings, hbegun⟩ :=
        getOne_begun hd hcreates ht hoffers hfits web engines gzip hP hrest.symm h.2
      refine ⟨place, log, w', hone, hlog, List.forall_mem_append.2 ⟨h.1, fun y hy => ?_⟩, ?_⟩
      · exact List.mem_singleton.1 hy ▸ hbrings
      · rwa [List.map_append])
    ⟨List.forall_mem_nil _, [], rfl, hw ▸ .nothing⟩
  refine ⟨runs, w', rfl, ?_, hlog, hbrings, hbegun⟩
  rw [Courier.getListed_eq, List.mapM_map]
  exact Action.bind_ok hrun

omit hoffers

/-- Directories of a copy are made when its files have been begun. -/
theorem makeListed_begun {fs : List (List Bytes × Bytes)} {ds : List (List Bytes)} {w : World σ}
    (hP : ∀ n ∈ above ++ [seg], Segment n) (hfs : fs <+: (t.below above seg).files)
    (hds : ds <+: (t.below above seg).emptyDirectories)
    (h : d.Begun ⟨dest⟩ D d₁ (fs.map Prod.fst) w.disk) :
    ∃ w', Courier.makeListed ⟨listed (above ++ [seg]), listed above⟩ dest
        (ds.map fun ns => listed (above ++ ns)) w =
          (.ok (ds.map fun ns => ((Path.mk dest).along ns).text), w') ∧ w'.beyond = w.beyond := by
  obtain ⟨files, hnames, h⟩ := h
  have hempty : ∀ ns ∈ ds, (∃ rest, ns = seg :: rest) ∧ Disk.Reachable ⟨dest⟩ ns ∧
      ∀ f ∈ files, ¬f.1 <+: ns := by
    intro ns hns
    have hmem := hds.subset hns
    refine ⟨FileTree.exists_of_mem_emptyDirectories hmem, hfits.reachable hmem, fun f hf => ?_⟩
    have hname : f.1 ∈ fs.map Prod.fst := hnames ▸ List.mem_map_of_mem hf
    obtain ⟨f', hf', heq⟩ := List.mem_map.1 hname
    exact heq ▸ ((ht.below above seg).apart_directory (hfs.subset hf') hmem).1
  obtain ⟨w', hmade, hbeyond, -⟩ := Courier.makeListed_run hd hcreates hP hempty h
  exact ⟨w', hmade, hbeyond⟩

end

/-- What is left of a listing that may have timed out is at its beginning. -/
theorem isPrefix_cut {α : Type} (p : Prop) [Decidable p] (l : List α) : (if p then [] else l) <+: l := by
  split
  · exact List.nil_prefix
  · exact List.prefix_refl l

/-- A copy root takes nothing from a listing that timed out. -/
theorem filter_listing {root : CopyRoot} {l : List Bytes} {fs : List β} {g : β → Bytes}
    (h : l.filter root.contains = fs.map g) (p : Prop) [Decidable p] :
    ((if p then none else some l : Listing).getD []).filter root.contains =
      (if p then [] else fs).map g := by
  split
  · rfl
  · exact h

/-- A directory that is offered whenever the master is reached is copied as far as it was within
reach. -/
theorem getDir_reached (web : Web σ) (engines : Engines) (gzip : Int)
    (hroot : CopyRoot.of? path = some root) (hnames : root.Names above seg) (hd : w.disk.Grounded)
    (hcreates : Creates w.disk ⟨dest⟩ D d₁) (ht : t.Consistent) (hoffers : m.OffersWhenReached env t)
    (hfits : (t.below above seg).Fits ⟨dest⟩) :
    ((m.courier web engines).perform (.getDir path dest env gzip) w).1 =
      .ok (.places (Bytes.sort (((t.below above seg).reached above
        (m.exchangesOf web engines (.getDir path dest env gzip) w)).leaves.map fun ns =>
          ((Path.mk dest).along ns).text))) := by
  obtain rfl := hnames.eq hroot
  have hP := hnames.segments
  obtain ⟨x, beyond₁, hx, hfiles⟩ := listing_recorded hoffers.files ⟨w.disk, w.beyond, []⟩
  obtain ⟨runs, w₂, hfst, hcopied, hlog₂, hbrings, hbegun⟩ :=
    getListed_reached (w := ⟨w.disk, beyond₁, [] ++ [x]⟩) hd hcreates ht hoffers hfits web.beside
      engines gzip hP (isPrefix_cut x.TimedOut _) rfl
  obtain ⟨y, beyond₃, hy, hdirectories⟩ := listing_recorded hoffers.emptyDirectories w₂
  let w₃ : World (σ × List Exchange) := ⟨w₂.disk, beyond₃, w₂.beyond.2 ++ [y]⟩
  obtain ⟨w₄, hmade, hbeyond⟩ := makeListed_begun (w := w₃) hd hcreates ht hfits hP
    (isPrefix_cut x.TimedOut _) (isPrefix_cut y.TimedOut _) hbegun
  rw [← filter_listing (FileTree.filter_listedFiles ht hP (listed above))] at hcopied
  rw [← filter_listing (FileTree.filter_listedDirectories ht hP (listed above))] at hmade
  have hget := Courier.getDir_apply (c := m.recorded.courier web.beside engines) hroot hfiles hcopied
    hdirectories hmade
  have hperform : (m.recorded.courier web.beside engines).perform (.getDir path dest env gzip)
      ⟨w.disk, w.beyond, []⟩ = (.ok (.places _), w₄) := Action.bind_ok hget
  obtain ⟨hrun, hexchanged⟩ := perform_of_recorded hperform
  have hlog : m.exchangesOf web engines (.getDir path dest env gzip) w =
      [x] ++ runs.flatMap (fun y => y.2.2) ++ [y] := by
    rw [hexchanged]
    exact (congrArg Prod.snd hbeyond).trans (congrArg (· ++ [y]) hlog₂)
  have hafter : ∀ z ∈ [y], z.request = listingRequest "_file_list_emptydirs" env :=
    fun z hz => List.mem_singleton.1 hz ▸ hy
  have hresults := results_of_listing (ht.below above seg) (fun n hn => hP n (List.mem_append_left _ hn))
    hx hafter hbrings hfst hlog
  rw [hrun, hresults, filterMap_id_map_ite, FileTree.leaves, List.map_append, List.map_map,
    FileTree.files_reached, FileTree.emptyDirectories_reached hx hy hbrings hlog]
  rfl

theorem exists_listing {name : Bytes} {l : List Bytes}
    (h : m.Replies (listingRequest name env) fun reply => reply.list "return" = l) (w : World σ) :
    ∃ files beyond, m.listing name env w = (.ok files, ⟨w.disk, beyond⟩) ∧ files.getD [] ⊆ l := by
  obtain ⟨x, beyond, -, hrun⟩ := listing_recorded h ⟨w.disk, w.beyond, []⟩
  have hunrecorded := m.unrecorded_listing name env ⟨w.disk, w.beyond, []⟩
  rw [hrun] at hunrecorded
  refine ⟨_, beyond, hunrecorded, ?_⟩
  split
  · exact List.nil_subset l
  · exact List.Subset.refl l

/-- Whatever the master is reached for, nothing is copied for a directory that is not written as the
offered ones are listed. -/
theorem getDir_unnamed (web : Web σ) (engines : Engines) (dest : Bytes) (gzip : Int)
    (hroot : CopyRoot.of? path = some root) (hunlisted : ∀ above seg, ¬root.Names above seg)
    (ht : t.Consistent) (hoffers : m.OffersWhenReached env t) (w : World σ) :
    ((m.courier web engines).perform (.getDir path dest env gzip) w).1 = .ok (.places []) := by
  obtain ⟨files, beyond₁, hfiles, hsub₁⟩ := exists_listing hoffers.files w
  obtain ⟨directories, beyond₂, hdirectories, hsub₂⟩ :=
    exists_listing hoffers.emptyDirectories ⟨w.disk, beyond₁⟩
  have hget : (m.courier web engines).getDir path dest env gzip w = _ :=
    Courier.getDir_of_unlisted hroot hfiles hdirectories
      (fun name hname => FileTree.not_contains_of_mem_listedFiles ht hunlisted (hsub₁ hname))
      (fun name hname => FileTree.not_contains_of_mem_listedDirectories ht hunlisted (hsub₂ hname))
  exact congrArg Prod.fst (Action.bind_ok hget)

end MasterFiles

end FileCourier
