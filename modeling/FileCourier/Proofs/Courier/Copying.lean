import FileCourier.Proofs.Courier.Confinement
import FileCourier.Proofs.MasterFiles.Placed
import FileCourier.Proofs.Sorting
import Mathlib.Algebra.Group.Nat.Defs

/-!
# Copies of served directories

A master offers a tree of files when it lists the tree and serves its files (`Offers`). A directory of
the tree is copied to a place where nothing stands as it is: below the destination stands what lies
below the directory, and nothing else changes (`getDir_copies`).
-/

namespace FileCourier

open Disk (Below Copied Creates Reachable Within maxMissing maxPath)
open LocalRoots (listed)
open FileCourier.Path (Ordinary Segment)

variable {σ : Type} {m : MasterFiles σ} {web : Web σ} {engines : Engines} {c : Courier σ}
  {path env dest : Bytes} {gzip : Int} {root : CopyRoot} {w w₁ w₂ w₃ w₄ : World σ} {d d₁ : Disk}
  {here : Path} {D : Place} {t : FileTree} {above ns : List Bytes} {seg s n : Bytes}

/-! ## Trees that fit behind a path -/

namespace FileTree

/-- The system can take a tree behind a path: its names are names that files can have, its leaves can be
looked up, and the directories at and above them can be made. -/
structure Fits (t : FileTree) (here : Path) : Prop where
  ordinary : ∀ ns ∈ t.leaves, ∀ n ∈ ns, Ordinary n
  short : ∀ ns ∈ t.leaves, (here.along ns).text.length ≤ maxPath
  room : ∀ ns ∈ t.emptyDirectories, here.names.length + ns.length ≤ maxMissing
  room_above : ∀ f ∈ t.files, here.names.length + f.1.length ≤ maxMissing + 1

theorem exists_of_mem_emptyDirectories (hmem : ns ∈ (t.below above seg).emptyDirectories) :
    ∃ rest, ns = seg :: rest := by
  obtain ⟨rest, -, -, heq⟩ := mem_leaves_below.1 (mem_leaves_of_directory hmem)
  exact ⟨rest, heq⟩

theorem Fits.reachable (h : (t.below above seg).Fits here)
    (hmem : ns ∈ (t.below above seg).emptyDirectories) : Reachable here ns where
  ne_nil := by
    obtain ⟨rest, rfl⟩ := exists_of_mem_emptyDirectories hmem
    exact List.cons_ne_nil seg rest
  ordinary := h.ordinary ns (mem_leaves_of_directory hmem)
  short := h.short ns (mem_leaves_of_directory hmem)
  room := h.room ns hmem

theorem Fits.reachable_above (h : t.Fits here) (hmem : (above ++ [n], s) ∈ t.files)
    (hne : above ≠ []) : Reachable here above := by
  have hleaf : above ++ [n] ∈ t.leaves := mem_leaves_of_file hmem
  refine ⟨hne, fun a ha => h.ordinary _ hleaf a (List.mem_append_left _ ha), ?_, ?_⟩
  · have hshort := h.short _ hleaf
    have hn : Ordinary n := h.ordinary _ hleaf n (List.mem_append_right _ List.mem_cons_self)
    have hle : (here.along above).text.length + n.length ≤ (here.along above / n).text.length :=
      Path.le_length_join _ hn.proper.isAbsolute
    rw [Path.along_append, Path.along_singleton] at hshort
    omega
  · have hroom := h.room_above _ hmem
    rw [List.length_append, ← Nat.add_assoc] at hroom
    exact Nat.le_of_succ_le_succ hroom

/-- A file below a virtual directory belongs into a directory that can be reached. -/
theorem Fits.exists_name (h : (t.below above seg).Fits here)
    (hmem : (ns, s) ∈ (t.below above seg).files) :
    ∃ middle n, ns = middle ++ [n] ∧ (above ++ ns, s) ∈ t.files ∧ Reachable here middle ∧
      Ordinary n := by
  obtain ⟨rest, hrest, hfile, rfl⟩ := mem_files_below.1 hmem
  obtain ⟨middle, n, rfl⟩ : ∃ middle n, rest = middle ++ [n] :=
    ⟨_, _, (List.dropLast_concat_getLast hrest).symm⟩
  refine ⟨seg :: middle, n, rfl, hfile, h.reachable_above hmem (List.cons_ne_nil seg middle), ?_⟩
  exact h.ordinary _ (mem_leaves_of_file hmem) n
    (List.mem_append_right (seg :: middle) List.mem_cons_self)

/-- The leaves of a tree are different paths. -/
theorem Fits.nodup (h : t.Fits here) (ht : t.Consistent) :
    (t.leaves.map fun ns => (here.along ns).text).Nodup := by
  refine List.pairwise_map.2 (ht.apart.imp_of_mem fun {ns ms} hns hms hapart htext => ?_)
  have hpath : here.along ns = here.along ms := congrArg Path.mk htext
  have heq := Path.along_inj here (fun n hn => (h.ordinary ns hns n hn).proper)
    (fun n hn => (h.ordinary ms hms n hn).proper) (congrArg Path.names hpath)
  exact hapart.1 (heq ▸ List.prefix_refl ns)

end FileTree

/-! ## The parts of a copy -/

namespace Courier

/-- The request for a listed file that is copied to a path. -/
def copyRequest (name : Bytes) (target : Path) (env : Bytes) (gzip : Int) : FileRequest :=
  { path := VirtualPath.mark ++ name, dest := target.text, makeParents := true, env, gzip }

theorem segments_append {rest : List Bytes} (hP : ∀ n ∈ above ++ [seg], Segment n)
    (h : ∀ n ∈ seg :: rest, Segment n) : ∀ n ∈ above ++ seg :: rest, Segment n :=
  List.forall_mem_append.2 ⟨fun n hn => hP n (List.mem_append_left _ hn), h⟩

theorem targetOf_apply {rest : List Bytes} (h : ∀ n ∈ above ++ seg :: rest, Segment n)
    (hproper : ∀ n ∈ seg :: rest, Ordinary n) (dest : Bytes) (w : World σ) :
    targetOf ⟨listed (above ++ [seg]), listed above⟩ dest (listed (above ++ seg :: rest)) w =
      (.ok ((Path.mk dest).along (seg :: rest)), w) := by
  have hns := fun n hn => (hproper n hn).proper
  have hjoin : Path.mk dest / Path.mk (listed (seg :: rest)) = (Path.mk dest).along (seg :: rest) := by
    rw [Path.listed_eq_spell hns]
    exact Path.join_spell _ hns (List.cons_ne_nil seg rest)
  rw [targetOf, CopyRoot.destination?_listed h]
  exact congrArg (fun p => (Except.ok p, w)) hjoin

/-- A copy from its parts. -/
theorem getDir_apply {files directories : Listing} {copied made : List Bytes}
    (hroot : CopyRoot.of? path = some root)
    (hfiles : c.source.files env w = (.ok files, w₁))
    (hcopied : c.getListed root dest env gzip ((files.getD []).filter root.contains) w₁ =
      (.ok copied, w₂))
    (hdirectories : c.source.emptyDirectories env w₂ = (.ok directories, w₃))
    (hmade : makeListed root dest ((directories.getD []).filter root.contains) w₃ = (.ok made, w₄)) :
    c.getDir path dest env gzip w = (.ok (Bytes.sort (copied ++ made)), w₄) := by
  have hcopy : (copyRoot path : Action (World σ) CopyRoot) w = (.ok root, w) := by
    rw [copyRoot, hroot]
    rfl
  rw [getDir, Action.bind_ok hcopy, Action.bind_ok hfiles, Action.bind_ok hcopied,
    Action.bind_ok hdirectories, Action.bind_ok hmade]
  rfl

/-- A directory that holds nothing of a listing takes nothing from it. -/
theorem filter_contains_eq_nil {l : List Bytes} (h : ∀ name ∈ l, root.contains name = false) :
    l.filter root.contains = [] :=
  List.filter_eq_nil_iff.2 fun name hname => Bool.eq_false_iff.1 (h name hname)

/-- Nothing is copied when the directory holds nothing that is listed. -/
theorem getDir_of_unlisted {files directories : Listing} (hroot : CopyRoot.of? path = some root)
    (hfiles : c.source.files env w = (.ok files, w₁))
    (hdirectories : c.source.emptyDirectories env w₁ = (.ok directories, w₂))
    (hnofile : ∀ name ∈ files.getD [], root.contains name = false)
    (hnodirectory : ∀ name ∈ directories.getD [], root.contains name = false) :
    c.getDir path dest env gzip w = (.ok [], w₂) := by
  have hcopied : c.getListed root dest env gzip ((files.getD []).filter root.contains) w₁ =
      (.ok [], w₁) := by
    rw [filter_contains_eq_nil hnofile]
    rfl
  have hmade : makeListed root dest ((directories.getD []).filter root.contains) w₂ =
      (.ok [], w₂) := by
    rw [filter_contains_eq_nil hnodirectory]
    rfl
  rw [getDir_apply hroot hfiles hcopied hdirectories hmade]
  exact congrArg (fun l => (Except.ok l, w₂)) List.mergeSort_nil

/-- Gets a listed file for a copy and gives its place, if it was stored. -/
def getOne (c : Courier σ) (root : CopyRoot) (dest env : Bytes) (gzip : Int) (name : Bytes) :
    Action (World σ) (Option Bytes) := do
  let target ← targetOf root dest name
  let fetched ← c.getFile (copyRequest name target env gzip)
  return fetched.path?.map fun path => path.text

theorem getListed_eq (c : Courier σ) (root : CopyRoot) (dest env : Bytes) (gzip : Int)
    (files : List Bytes) : c.getListed root dest env gzip files =
      files.mapM (c.getOne root dest env gzip) >>= fun places => pure (places.filterMap id) := rfl

/-- Getting a listed file for a copy is one `getFile`. -/
theorem getOne_apply {rest : List Bytes} (gzip : Int) (hP : ∀ n ∈ above ++ [seg], Segment n)
    (hns : ∀ n ∈ seg :: rest, Ordinary n) (dest : Bytes) {fetched : Fetched}
    (hrun : c.getFile (copyRequest (listed (above ++ seg :: rest))
      ((Path.mk dest).along (seg :: rest)) env gzip) w = (.ok fetched, w₁)) :
    c.getOne ⟨listed (above ++ [seg]), listed above⟩ dest env gzip
        (listed (above ++ seg :: rest)) w = (.ok (fetched.path?.map fun path => path.text), w₁) := by
  have hsegments := segments_append hP fun n hn => (hns n hn).proper.segment
  rw [getOne, Action.bind_ok (targetOf_apply hsegments hns dest w), Action.bind_ok hrun]
  rfl

/-- The files of a listing are got one after the other, each at the path where it belongs. -/
theorem getListed_run {files : List (List Bytes × Bytes)} {place : List Bytes × Bytes → Path}
    {I : List (List Bytes × Bytes) → World σ → Prop} (gzip : Int)
    (hP : ∀ n ∈ above ++ [seg], Segment n)
    (hnames : ∀ f ∈ files, ∃ rest, f.1 = seg :: rest ∧ ∀ n ∈ f.1, Ordinary n)
    (hstep : ∀ {before f after w}, files = before ++ f :: after → I before w →
      ∃ w', c.getFile (copyRequest (listed (above ++ f.1)) ((Path.mk dest).along f.1) env gzip) w =
        (.ok (.stored (place f)), w') ∧ I (before ++ [f]) w')
    (h : I [] w) :
    ∃ w', c.getListed ⟨listed (above ++ [seg]), listed above⟩ dest env gzip
        (files.map fun f => listed (above ++ f.1)) w =
          (.ok (files.map fun f => (place f).text), w') ∧ I files w' := by
  have hone {before f after} {w : World σ} (hsplit : files = before ++ f :: after)
      (h : I before w) : ∃ w', c.getOne ⟨listed (above ++ [seg]), listed above⟩ dest env gzip
        (listed (above ++ f.1)) w = (.ok (some (place f).text), w') ∧ I (before ++ [f]) w' := by
    obtain ⟨rest, hrest, hordinary⟩ :=
      hnames f (hsplit ▸ List.mem_append_right _ List.mem_cons_self)
    obtain ⟨w', hrun, h'⟩ := hstep hsplit h
    rw [hrest] at hrun hordinary
    refine ⟨w', ?_, h'⟩
    rw [hrest]
    exact getOne_apply gzip hP hordinary dest hrun
  obtain ⟨w', hrun, h'⟩ := Action.mapM_run hone h
  refine ⟨w', ?_, h'⟩
  rw [getListed_eq, List.mapM_map]
  refine (Action.bind_ok hrun).trans ?_
  have hplaces : (files.map fun f => some (place f).text).filterMap id =
      files.map fun f => (place f).text := by
    rw [List.filterMap_map]
    exact congrFun List.filterMap_eq_map files
  rw [hplaces]
  rfl

/-- The directories of a listing are made behind files that are in the way of none of them. -/
theorem makeListed_run {files : List (List Bytes × Bytes)} {directories : List (List Bytes)}
    (hd : d.Grounded) (hcreates : Creates d ⟨dest⟩ D d₁) (hP : ∀ n ∈ above ++ [seg], Segment n)
    (hnames : ∀ ns ∈ directories, (∃ rest, ns = seg :: rest) ∧ Reachable ⟨dest⟩ ns ∧
      ∀ f ∈ files, ¬f.1 <+: ns)
    (h : Copied d ⟨dest⟩ D d₁ ⟨files, []⟩ w.disk) :
    ∃ w', makeListed ⟨listed (above ++ [seg]), listed above⟩ dest
        (directories.map fun ns => listed (above ++ ns)) w =
          (.ok (directories.map fun ns => ((Path.mk dest).along ns).text), w') ∧
      w'.beyond = w.beyond ∧ Copied d ⟨dest⟩ D d₁ ⟨files, directories⟩ w'.disk := by
  rw [makeListed, List.mapM_map]
  refine Action.mapM_run (I := fun before (w' : World σ) =>
    w'.beyond = w.beyond ∧ Copied d ⟨dest⟩ D d₁ ⟨files, before⟩ w'.disk) ?_ ⟨rfl, h⟩
  rintro before ns after w hsplit ⟨hbeyond, h⟩
  obtain ⟨⟨rest, rfl⟩, hreachable, hfiles⟩ :=
    hnames ns (hsplit ▸ List.mem_append_right _ List.mem_cons_self)
  have hsegments := segments_append hP fun n hn => (hreachable.ordinary n hn).proper.segment
  have htarget := targetOf_apply hsegments hreachable.ordinary dest w
  obtain ⟨d', hmade, hcopied⟩ := h.addDirectory hd hcreates hreachable hfiles
  have hmake : Action.onDisk (Chores.makeDirectories ((Path.mk dest).along (seg :: rest))) w =
      (.ok (), { w with disk := d' }) := by
    rw [Action.onDisk, Chores.makeDirectories, hmade]
  refine ⟨{ w with disk := d' }, ?_, hbeyond, hcopied⟩
  rw [Function.comp, Action.bind_ok htarget, Action.bind_ok hmake]
  rfl

end Courier

/-! ## From a master -/

namespace MasterFiles

/-- Whatever has happened before, the master answers a request for a listing with these items. -/
def Lists (m : MasterFiles σ) (name env : Bytes) (l : List Bytes) : Prop :=
  ∀ s, ∃ reply, (m.ask (.ofList [("env", .bytes env), ("cmd", .bytes name)]) s).1 = .ok reply ∧
    reply.list "return" = l

/-- The master offers a tree in an environment: it lists the files and the empty directories, and
serves each file under its name. -/
structure Offers (m : MasterFiles σ) (env : Bytes) (t : FileTree) : Prop where
  files : m.Lists "_file_list" env t.listedFiles
  emptyDirectories : m.Lists "_file_list_emptydirs" env t.listedDirectories
  serves : ∀ f ∈ t.files, ∀ r : FileRequest, r.env = env → m.Serves r (listed f.1) f.2 (listed f.1)
  patience : ∀ f ∈ t.files, f.2.length < m.patience

/-- A master that offers a tree in every environment, and serves what is left of a file in one piece. -/
def ofTree (t : FileTree) (patience : Nat) : MasterFiles Unit where
  settings := { Settings.defaults with cachedir := "cache" }
  digests := Digest.library
  ask := fun request s =>
    if request.bytesOr "cmd" [] = Bytes.ofString "_serve_file" then
      match t.files.find? fun f => listed f.1 = request.bytesOr "path" [] with
      | some f => (serving f.2).ask request s
      | none => (.ok .empty, s)
    else if request.bytesOr "cmd" [] = Bytes.ofString "_file_list" then
      (.ok (.ofList [("return", .list t.listedFiles)]), s)
    else (.ok (.ofList [("return", .list t.listedDirectories)]), s)
  patience := patience

theorem offers_ofTree (ht : t.Consistent) {patience : Nat}
    (hsize : ∀ f ∈ t.files, f.2.length < 2 ^ 63) (hpatience : ∀ f ∈ t.files, f.2.length < patience)
    (env : Bytes) : (ofTree t patience).Offers env t where
  files _ := ⟨_, rfl, rfl⟩
  emptyDirectories _ := ⟨_, rfl, rfl⟩
  patience := hpatience
  serves f hf r _ n s hn := by
    have hasks := asksFor_pieceRequest r (listed f.1) n
    have hcmd : (pieceRequest r (listed f.1) n).bytesOr "cmd" [] = Bytes.ofString "_serve_file" := by
      rw [Message.bytesOr, hasks.cmd]
    have hpath : (pieceRequest r (listed f.1) n).bytesOr "path" [] = listed f.1 := by
      rw [Message.bytesOr, hasks.path]
    have hfind : t.files.find? (fun f' => listed f'.1 = listed f.1) = some f := by
      have hsome : (t.files.find? fun f' => listed f'.1 = listed f.1).isSome = true :=
        List.find?_isSome.2 ⟨f, hf, decide_eq_true rfl⟩
      obtain ⟨f', hf'⟩ := Option.isSome_iff_exists.1 hsome
      have hmem := List.mem_of_find?_eq_some hf'
      have segments {f : List Bytes × Bytes} (hf : f ∈ t.files) : ∀ n ∈ f.1, Segment n :=
        ht.segments _ (FileTree.mem_leaves_of_file hf)
      have hlisted := (List.find?_eq_some_iff_append.1 hf').1
      have hnames : f'.1 = f.1 := by
        rw [← Path.names_listed (segments hmem), ← Path.names_listed (segments hf),
          of_decide_eq_true hlisted]
      rw [hf', ht.eq_of_names hmem hf hnames]
    have hask : (ofTree t patience).ask (pieceRequest r (listed f.1) n) s =
        (serving f.2).ask (pieceRequest r (listed f.1) n) s := by
      refine (if_pos hcmd).trans ?_
      rw [hpath, hfind]
    rw [hask]
    exact serves_serving s hn (hsize f hf)

theorem Lists.listing_apply {name : Bytes} {l : List Bytes} (h : m.Lists name env l) (w : World σ) :
    ∃ beyond, m.listing name env w = (.ok (some l), { w with beyond }) := by
  obtain ⟨reply, hreply, rfl⟩ := h w.beyond
  have hcommand := command_apply m (.ofList [("env", .bytes env), ("cmd", .bytes name)]) w
  cases hask : m.ask (.ofList [("env", .bytes env), ("cmd", .bytes name)]) w.beyond with
  | mk answer beyond =>
    rw [hask] at hreply hcommand
    rw [show answer = .ok reply from hreply] at hcommand
    exact ⟨beyond, Action.bind_ok hcommand⟩

/-- A file of a directory that is offered is stored where it belongs. -/
theorem getListed_step {before after : List (List Bytes × Bytes)} {f : List Bytes × Bytes}
    (gzip : Int) (hd : d.Grounded) (hcreates : Creates d ⟨dest⟩ D d₁) (ht : t.Consistent)
    (hoffers : m.Offers env t) (hfits : (t.below above seg).Fits ⟨dest⟩)
    (hsplit : (t.below above seg).files = before ++ f :: after)
    (h : Copied d ⟨dest⟩ D d₁ ⟨before, []⟩ w.disk) :
    ∃ w', m.getFile (Courier.copyRequest (listed (above ++ f.1)) ((Path.mk dest).along f.1) env gzip) w =
        (.ok (.stored ((Path.mk dest).along f.1)), w') ∧
      Copied d ⟨dest⟩ D d₁ ⟨before ++ [f], []⟩ w'.disk := by
  obtain ⟨ns, content⟩ := f
  have hmem : (ns, content) ∈ (t.below above seg).files :=
    hsplit ▸ List.mem_append_right _ List.mem_cons_self
  obtain ⟨middle, n, rfl, hfile, hreachable, hn⟩ := hfits.exists_name hmem
  have hapart : ∀ ms ∈ (FileTree.mk before []).leaves, FileTree.Apart ms (middle ++ [n]) := by
    rw [FileTree.leaves, List.append_nil]
    exact (ht.below above seg).apart_before hsplit
  let r := Courier.copyRequest (listed (above ++ (middle ++ [n])))
    ((Path.mk dest).along (middle ++ [n])) env gzip
  have hserves : m.Serves r (listed (above ++ (middle ++ [n]))) content _ :=
    hoffers.serves _ hfile r rfl
  obtain ⟨d₂, beyond', hrun, hcopied⟩ := getFile_added h hd hcreates rfl hserves
    (hoffers.patience _ hfile) rfl rfl hreachable hn
    (hfits.short _ (FileTree.mem_leaves_of_file hmem)) hapart
  exact ⟨_, hrun, hcopied⟩

/-- The files of a directory that is offered are stored one after the other. -/
theorem getListed_of_offers (web : Web σ) (engines : Engines) (gzip : Int) (hd : d.Grounded)
    (hcreates : Creates d ⟨dest⟩ D d₁) (ht : t.Consistent) (hoffers : m.Offers env t)
    (hP : ∀ n ∈ above ++ [seg], Segment n) (hfits : (t.below above seg).Fits ⟨dest⟩)
    (hw : w.disk = d) :
    ∃ w', (m.courier web engines).getListed ⟨listed (above ++ [seg]), listed above⟩ dest env gzip
        ((t.below above seg).files.map fun f => listed (above ++ f.1)) w =
          (.ok ((t.below above seg).files.map fun f => ((Path.mk dest).along f.1).text), w') ∧
      Copied d ⟨dest⟩ D d₁ ⟨(t.below above seg).files, []⟩ w'.disk := by
  refine Courier.getListed_run
    (I := fun before (w : World σ) => Copied d ⟨dest⟩ D d₁ ⟨before, []⟩ w.disk) gzip hP ?_
    (getListed_step gzip hd hcreates ht hoffers hfits) (hw ▸ .nothing)
  intro f hf
  obtain ⟨rest, -, -, heq⟩ := FileTree.mem_files_below.1 hf
  exact ⟨rest, heq, hfits.ordinary _ (FileTree.mem_leaves_of_file hf)⟩

/-- A directory that is offered is copied to where nothing stands. -/
theorem getDir_of_offers (web : Web σ) (engines : Engines) (gzip : Int)
    (hroot : CopyRoot.of? path = some ⟨listed (above ++ [seg]), listed above⟩)
    (hd : w.disk.Grounded) (hcreates : Creates w.disk ⟨dest⟩ D d₁) (ht : t.Consistent)
    (hoffers : m.Offers env t) (hP : ∀ n ∈ above ++ [seg], Segment n)
    (hfits : (t.below above seg).Fits ⟨dest⟩) :
    ∃ w', (m.courier web engines).getDir path dest env gzip w =
        (.ok (Bytes.sort ((t.below above seg).leaves.map fun ns => ((Path.mk dest).along ns).text)),
          w') ∧
      Copied w.disk ⟨dest⟩ D d₁ (t.below above seg) w'.disk := by
  obtain ⟨beyond₁, hfiles⟩ := hoffers.files.listing_apply w
  obtain ⟨w₂, hcopied, h₂⟩ := getListed_of_offers (w := ⟨w.disk, beyond₁⟩) web engines gzip hd hcreates
    ht hoffers hP hfits rfl
  obtain ⟨beyond₃, hdirectories⟩ := hoffers.emptyDirectories.listing_apply w₂
  obtain ⟨w₄, hmade, -, h₄⟩ := Courier.makeListed_run (w := ⟨w₂.disk, beyond₃⟩) hd hcreates hP
    (fun ns hns => ⟨FileTree.exists_of_mem_emptyDirectories hns, hfits.reachable hns, fun f hf =>
      ((ht.below above seg).apart_directory hf hns).1⟩) h₂
  rw [← FileTree.filter_listedFiles ht hP (listed above)] at hcopied
  rw [← FileTree.filter_listedDirectories ht hP (listed above)] at hmade
  refine ⟨w₄, ?_, h₄⟩
  rw [Courier.getDir_apply hroot hfiles hcopied hdirectories hmade, FileTree.leaves, List.map_append,
    List.map_map]
  rfl

/-- Nothing is copied for a directory that is not written as the offered ones are listed. -/
theorem getDir_of_not_names (web : Web σ) (engines : Engines) (dest : Bytes) (gzip : Int)
    (hroot : CopyRoot.of? path = some root) (hunlisted : ∀ above seg, ¬root.Names above seg)
    (ht : t.Consistent) (hoffers : m.Offers env t) (w : World σ) :
    ∃ beyond, (m.courier web engines).getDir path dest env gzip w = (.ok [], { w with beyond }) := by
  obtain ⟨beyond₁, hfiles⟩ := hoffers.files.listing_apply w
  obtain ⟨beyond₂, hdirectories⟩ := hoffers.emptyDirectories.listing_apply ⟨w.disk, beyond₁⟩
  exact ⟨beyond₂, Courier.getDir_of_unlisted hroot hfiles hdirectories
    (fun _ => FileTree.not_contains_of_mem_listedFiles ht hunlisted)
    (fun _ => FileTree.not_contains_of_mem_listedDirectories ht hunlisted)⟩

/-- Whatever has happened before, a directory of a tree that is offered is copied to where nothing
stands but a directory can be made: the places that are given are, in the order of their bytes, those of
the files and of the empty directories below the directory. They are what stands there afterwards, with
their contents and the directories above them, and nothing else has changed; when nothing lies below the
directory, nothing is made at all. -/
theorem getDir_copies (m : MasterFiles σ) (web : Web σ) (engines : Engines) (t : FileTree)
    (env dest : Bytes) (gzip : Int) (above : List Bytes) (seg : Bytes) (k : Nat) (w : World σ)
    (D : Place) (d₁ : Disk) (hoffers : m.Offers env t) (ht : t.Consistent)
    (hP : ∀ n ∈ above ++ [seg], Segment n) (hd : w.disk.Grounded)
    (hcreates : Creates w.disk ⟨dest⟩ D d₁) (hfits : (t.below above seg).Fits ⟨dest⟩) :
    ∃ places w', (m.courier web engines).getDir
        (VirtualPath.mark ++ (listed (above ++ [seg]) ++ List.replicate k slash)) dest env gzip w =
          (.ok places, w') ∧
      places.Pairwise (· < ·) ∧
      (∀ place, place ∈ places ↔ ∃ rest, rest ≠ [] ∧ above ++ seg :: rest ∈ t.leaves ∧
        place = ((Path.mk dest).along (seg :: rest)).text) ∧
      Disk.Grows w.disk w'.disk ∧
      ((t.below above seg).leaves ≠ [] →
        w'.disk.Holding D (t.below above seg) ∧ Within (Below D) d₁ w'.disk) ∧
      ((t.below above seg).leaves = [] → places = [] ∧ w'.disk = w.disk) := by
  obtain ⟨w', hrun, hcopied⟩ :=
    getDir_of_offers web engines gzip (CopyRoot.of?_listed hP k) hd hcreates ht hoffers hP hfits
  refine ⟨_, w', hrun, ?sorted, fun place => ?mem, hcopied.grows hd hcreates, ?some, ?none⟩
  case sorted => exact Bytes.pairwise_lt_sort (hfits.nodup (ht.below above seg))
  case mem =>
    rw [Bytes.mem_sort, List.mem_map]
    constructor
    · rintro ⟨ns, hns, rfl⟩
      obtain ⟨rest, hrest, hmem, rfl⟩ := FileTree.mem_leaves_below.1 hns
      exact ⟨rest, hrest, hmem, rfl⟩
    · rintro ⟨rest, hrest, hmem, rfl⟩
      exact ⟨_, FileTree.mem_leaves_below.2 ⟨rest, hrest, hmem, rfl⟩, rfl⟩
  case some =>
    intro hsome
    obtain ⟨-, h⟩ := hcopied.stands_or_nothing.resolve_right fun hnothing => hsome hnothing.1
    exact ⟨h.holding, h.within⟩
  case none =>
    intro hnil
    obtain ⟨-, hsame⟩ := hcopied.stands_or_nothing.resolve_left fun hstands => hstands.1 hnil
    refine ⟨?_, hsame⟩
    rw [hnil]
    exact List.mergeSort_nil

/-- A tree with a directory whose name begins like that of another, and with empty directories. -/
def siblings : FileTree where
  files := [(["a", "d", "f"], "new"), (["a", "d", "b", "g"], []), (["a", "dd", "f"], "other"),
    (["d"], "top")]
  emptyDirectories := [["a", "d", "e"], ["a", "de"], ["x"]]

theorem consistent_siblings : siblings.Consistent := ⟨by decide, by decide, by decide⟩

/-- A disk on which a file stands beside the destination of a copy. -/
def beforeCopy : World Unit := ⟨⟨[(["srv"], .dir 0o755), (["srv", "keep"], .file false "old")], []⟩, ()⟩

def copyPlace : Place := ["srv", "new", "out"]

theorem creates_beforeCopy : Creates beforeCopy.disk ⟨"srv/new/out"⟩ copyPlace
    (beforeCopy.disk.makeDirectories ⟨"srv/new/out"⟩).2 where
  no_nul := by decide
  absent := by decide
  made := rfl
  find := ⟨_, rfl⟩
  bare := by decide

theorem getDir_copies_siblings : ∃ places w',
    ((ofTree siblings 10).courier noWeb .empty).getDir "salt://a/d//" "srv/new/out" "base" 0 beforeCopy =
        (.ok places, w') ∧
      places.Pairwise (· < ·) ∧
      (∀ place, place ∈ places ↔ ∃ rest, rest ≠ [] ∧
        [Bytes.ofString "a"] ++ Bytes.ofString "d" :: rest ∈ siblings.leaves ∧
        place = ((Path.mk "srv/new/out").along (Bytes.ofString "d" :: rest)).text) ∧
      Disk.Grows beforeCopy.disk w'.disk ∧
      w'.disk.Holding copyPlace (siblings.below ["a"] "d") ∧
      Within (Below copyPlace) (beforeCopy.disk.makeDirectories ⟨"srv/new/out"⟩).2 w'.disk := by
  obtain ⟨places, w', hrun, hsorted, hmem, hgrows, hsome, -⟩ :=
    getDir_copies (ofTree siblings 10) noWeb .empty siblings "base" "srv/new/out" 0 ["a"] "d" 2
      beforeCopy copyPlace _ (offers_ofTree consistent_siblings (by decide) (by decide) "base")
      consistent_siblings (by decide) ⟨Disk.isTree_of_entries (by decide), ⟨_, rfl⟩⟩ creates_beforeCopy
      ⟨by decide, by decide, by decide, by decide⟩
  obtain ⟨hholding, hwithin⟩ := hsome (by decide)
  exact ⟨places, w', hrun, hsorted, hmem, hgrows, hholding, hwithin⟩

/-- A tree of one file. -/
def only (ns : List Bytes) : FileTree := ⟨[(ns, "new")], []⟩

theorem offers_only {ns : List Bytes} (ht : (only ns).Consistent) :
    (ofTree (only ns) 10).Offers "base" (only ns) := by
  have hcontent : ∀ f ∈ (only ns).files, f.2 = Bytes.ofString "new" := fun f hf =>
    congrArg Prod.snd (List.mem_singleton.1 hf)
  refine offers_ofTree ht (fun f hf => ?_) (fun f hf => ?_) "base"
  · rw [hcontent f hf]
    decide
  · rw [hcontent f hf]
    decide

/-- A copy of a directory of a tree of one file. -/
def copyOnly (ns : List Bytes) (path dest : Bytes) : Except Fault (List Bytes) × World Unit :=
  ((ofTree (only ns) 10).courier noWeb .empty).getDir path dest "base" 0 beforeCopy

/-- A file whose name is too long is not stored, and one with a NUL byte in its name is stored under
another name; a directory that leads up puts its file beside the destination, and a destination that
leads up is found to be a directory in which something stands. -/
theorem getDir_copies_otherwise :
    ((only ["d", List.replicate 256 97]).Consistent ∧
      (ofTree (only ["d", List.replicate 256 97]) 10).Offers "base"
        (only ["d", List.replicate 256 97]) ∧
      (copyOnly ["d", List.replicate 256 97] "salt://d" "srv/new/out").1.toOption = none) ∧
    ((only ["d", [102, 0, 103]]).Consistent ∧
      (ofTree (only ["d", [102, 0, 103]]) 10).Offers "base" (only ["d", [102, 0, 103]]) ∧
      (copyOnly ["d", [102, 0, 103]] "salt://d" "srv/new/out").2.disk.get?
        ["srv", "new", "out", "d", "f"] = some (.file false "new")) ∧
    ((only [Path.dotDot, "f"]).Consistent ∧
      (ofTree (only [Path.dotDot, "f"]) 10).Offers "base" (only [Path.dotDot, "f"]) ∧
      (copyOnly [Path.dotDot, "f"] "salt://.." "srv/new/out").2.disk.get? ["srv", "new", "f"] =
        some (.file false "new")) ∧
    beforeCopy.disk.isPresent ⟨"srv/new/.."⟩ = false ∧
      (beforeCopy.disk.makeDirectories ⟨"srv/new/.."⟩).1 = .ok () ∧
      (only ["d", "f"]).Consistent ∧
      (ofTree (only ["d", "f"]) 10).Offers "base" (only ["d", "f"]) ∧
      (copyOnly ["d", "f"] "salt://d" "srv/new/..").2.disk.isFile ⟨"srv/new/../keep"⟩ = true := by
  have hlong : (only ["d", List.replicate 256 97]).Consistent :=
    ⟨by decide, by decide +kernel, by decide⟩
  have hnul : (only ["d", [102, 0, 103]]).Consistent := ⟨by decide, by decide, by decide⟩
  have hup : (only [Path.dotDot, "f"]).Consistent := ⟨by decide, by decide, by decide⟩
  have hplain : (only ["d", "f"]).Consistent := ⟨by decide, by decide, by decide⟩
  exact ⟨⟨hlong, offers_only hlong, by decide +kernel⟩, ⟨hnul, offers_only hnul, by decide +kernel⟩,
    ⟨hup, offers_only hup, by decide +kernel⟩, by decide, rfl, hplain, offers_only hplain,
    by decide +kernel⟩

end MasterFiles

end FileCourier
