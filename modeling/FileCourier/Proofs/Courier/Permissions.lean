import FileCourier.Proofs.Cache.Permissions
import FileCourier.Proofs.Courier.Confinement
import FileCourier.Proofs.Courier.Stale
import FileCourier.Proofs.LocalRoots.Fetching
import FileCourier.Rehearsal.Fixture
import Mathlib.Logic.Relation

/-!
# Who may read what is cached

Whatever is done without a destination, over either source, comes down to calls each of which is
discreet: the directories that it finds keep their permissions, and those that it makes are for their
owner alone (`operations_discreet`). The exception is a rendered template that is put in a directory which is
not there: that is made for everybody to read.
-/

namespace FileCourier

open Disk (Builds Discreet Sheds ownerMode)
open Relation (ReflTransGen)

variable {σ : Type} {c : Courier σ} {w w' : World σ} {text env : Bytes} {makeParents : Bool}
  {url : Url} {path : Path} {d : Disk} {r : FileRequest}

/-! ## Single calls -/

theorem WebFetch.sheds_fetch (web : Web σ) (url : Url) (dest : Path) (w : World σ) :
    Sheds w.disk (fetch web url dest w).2.disk := by
  rw [fetch]
  cases hasked : Action.onBeyond (web (requestOf url)) w with
  | mk result w₁ =>
    have hdisk : w₁.disk = w.disk := congrArg (fun run => run.2.disk) hasked.symm
    cases result with
    | error =>
      rw [Action.bind_error hasked, hdisk]
      exact .refl _
    | ok t =>
      rw [Action.bind_ok hasked, ← hdisk]
      exact sheds_store url dest t w₁.disk

/-- Sources that fetch into a cache discreetly and list without touching the disk. -/
structure Source.Discreet (s : Source σ) : Prop where
  getFile : ∀ r w, r.dest = [] → Disk.Discreet w.disk (s.getFile r w).2.disk
  files : ∀ env w, (s.files env w).2.disk = w.disk
  emptyDirectories : ∀ env w, (s.emptyDirectories env w).2.disk = w.disk

theorem MasterFiles.disk_listing (m : MasterFiles σ) (name env : Bytes) (w : World σ) :
    (m.listing name env w).2.disk = w.disk := by
  let unchanged : Action.Guard Disk := ⟨fun _ => True, fun d d' => d' = d, fun _ => rfl,
    fun h h' => h'.trans h⟩
  exact (m.guarded_listing (G := unchanged) name env w trivial).1

theorem MasterFiles.discreet_source (m : MasterFiles σ) : m.source.Discreet where
  getFile _ w hdest := m.discreet_getFile hdest w
  files := m.disk_listing "_file_list"
  emptyDirectories := m.disk_listing "_file_list_emptydirs"

theorem LocalRoots.discreet_source (l : LocalRoots σ) : l.source.Discreet where
  getFile r w _ := by
    have hworld : (l.source.getFile r w).2 = w := by
      change (getFile l.settings r w).2 = w
      rw [getFile, resolve]
      cases VirtualPath.strip? r.path with
      | none => rfl
      | some relative =>
        refine (congrArg Prod.snd (Action.bind_ok rfl)).trans ?_
        cases find l.settings relative r.env w.disk <;> rfl
    rw [hworld]
    exact (Sheds.refl _).discreet
  files _ _ := rfl
  emptyDirectories _ _ := rfl

/-- No directory is made above a path when it is there or must not be made. -/
theorem Chores.prepareParent_of_spared {dir : Path}
    (h : makeParents = true → dir.isEmpty = true ∨ d.isDirectory dir = true) :
    ∃ ready, prepareParent dir makeParents d = (.ok ready, d) := by
  rw [prepareParent, Action.get_bind]
  split
  · exact ⟨true, rfl⟩
  · rename_i hmissing
    cases makeParents with
    | false => exact ⟨false, rfl⟩
    | true => exact absurd (Bool.or_eq_true_iff.2 (h rfl)) hmissing

/-! ## Engines -/

/-- An engine that keeps the permissions of all directories, and makes none but for the owner alone. -/
def Engine.Discreet (engine : Engine) : Prop :=
  ∀ source parameters d, Disk.Discreet d (engine source parameters d).2

def Engines.Discreet (engines : Engines) : Prop :=
  ∀ name engine, engines.get? name = some (some engine) → Engine.Discreet engine

theorem Engines.discreet_empty : Engines.Discreet .empty := nofun

theorem Engines.Discreet.insert {engines : Engines} {engine : Engine} (h : Engines.Discreet engines)
    (hengine : Engine.Discreet engine) (name : Bytes) :
    Engines.Discreet (ByteMap.insert engines name (some engine)) := by
  intro other engine' hget
  by_cases hname : other = name
  · rw [hname, ByteMap.get?_insert_self] at hget
    cases hget
    exact hengine
  · rw [ByteMap.get?_insert_of_ne _ hname] at hget
    exact h other engine' hget

theorem Engines.Discreet.render {engines : Engines} (h : Engines.Discreet engines) (name : Bytes)
    (source : Path) (parameters : Parameters) (d : Disk) :
    Disk.Discreet d (engines.render name source parameters d).2 := by
  rw [Engines.render]
  cases hengine : engines.get? name with
  | none => exact (Sheds.refl d).discreet
  | some engine? =>
    cases engine? with
    | none => exact (Sheds.refl d).discreet
    | some engine => exact h name engine hengine source parameters d

namespace Courier

/-- However it ends, getting a file into the cache is discreet. -/
theorem discreet_getUrl (hsource : c.source.Discreet) (text : Bytes) (makeParents : Bool) (env : Bytes)
    (w : World σ) : Discreet w.disk (c.getUrl text [] makeParents env w).2.disk := by
  rw [getUrl]
  split
  · rw [Action.snd_bind_pure]
    exact hsource.getFile { path := text, makeParents, env } w rfl
  split
  · exact (Sheds.refl _).discreet
  · refine discreet_bind World.disk ?_ fun target w' => ?_
    · change Builds w.disk (c.foreignTarget (Url.parse text) [] makeParents env w.disk).2
      rw [foreignTarget, if_pos List.isEmpty_nil, Action.snd_bind_pure]
      exact c.cache.builds_prepare _ w.disk
    · cases target with
      | none => exact .refl _
      | some target =>
        rw [Action.snd_bind_pure]
        exact WebFetch.sheds_fetch c.web (Url.parse text) target w'

/-- Gets a template and renders it. -/
def rendered (c : Courier σ) (text engine env : Bytes) (parameters : Parameters) :
    Action (World σ) (Option Bytes) := do
  let source ← c.cacheFile text env
  if source.isEmpty || !(← get).disk.isPresent source || !c.engines.contains engine then return none
  match ← Action.onDisk (c.engines.render engine source (parameters.insert "env" env)) with
  | .failed _ => return none
  | .rendered path => return some path

/-- A rendered template is put in its place. -/
theorem getTemplate_eq (c : Courier σ) (text dest engine : Bytes) (makeParents : Bool) (env : Bytes)
    (parameters : Parameters) : c.getTemplate text dest engine makeParents env parameters =
      c.rendered text engine env parameters >>= fun
        | none => pure []
        | some path => Action.onDisk (c.placeRendered path (Url.parse text) dest makeParents env) := by
  rw [getTemplate, rendered, bind_assoc]
  refine congrArg _ (funext fun source => ?_)
  rw [bind_assoc]
  refine congrArg _ (funext fun w => ?_)
  split
  · rfl
  · rw [bind_assoc]
    refine congrArg _ (funext fun rendering => ?_)
    cases rendering <;> rfl

/-- A file that was rendered is put in a directory that is there, or discarded. -/
theorem sheds_placeRendered (hfile : d.NamesFile path)
    (hparent : makeParents = true →
      (c.cache.foreignPath env url.host url.path).parent.isEmpty = true ∨
        d.isDirectory (c.cache.foreignPath env url.host url.path).parent = true) :
    Sheds d (c.placeRendered path url [] makeParents env d).2 := by
  rw [placeRendered, if_pos List.isEmpty_nil]
  obtain ⟨ready, hready⟩ := Chores.prepareParent_of_spared hparent
  rw [Action.bind_ok hready]
  cases ready with
  | false =>
    rw [if_neg Bool.false_ne_true, Action.snd_bind_pure]
    exact Chores.sheds_discard path d
  | true =>
    rw [if_pos rfl, Action.snd_bind_pure]
    exact Chores.sheds_move c.apart _ hfile

/-! ## Operations -/

/-- What can be done without a destination. -/
inductive Operation where
  | cacheFile (text env : Bytes)
  | cacheFiles (texts : List Bytes) (env : Bytes)
  | cacheMaster (env : Bytes)
  | cacheDir (path env : Bytes) (includeEmpty : Bool)
  | cacheLocalFile (path : Bytes)
  | getUrl (text : Bytes) (makeParents : Bool) (env : Bytes)
  | getTemplate (text engine : Bytes) (makeParents : Bool) (env : Bytes) (parameters : Parameters)
  | getState (state env : Bytes)

/-- The world after an operation, however it has ended. -/
def after (c : Courier σ) (w : World σ) : Operation → World σ
  | .cacheFile text env => (c.cacheFile text env w).2
  | .cacheFiles texts env => (c.cacheFiles texts env w).2
  | .cacheMaster env => (c.cacheMaster env w).2
  | .cacheDir path env includeEmpty => (c.cacheDir path env includeEmpty w).2
  | .cacheLocalFile path => (c.cacheLocalFile path w).2
  | .getUrl text makeParents env => (c.getUrl text [] makeParents env w).2
  | .getTemplate text engine makeParents env parameters =>
    (c.getTemplate text [] engine makeParents env parameters w).2
  | .getState state env => (c.getState state env w).2

/-- The calls of which operations are made. -/
inductive Call (c : Courier σ) : World σ → World σ → Prop
  | elsewhere (w : World σ) (beyond : σ) : Call c w { w with beyond }
  | getUrl (w : World σ) (text : Bytes) (makeParents : Bool) (env : Bytes) :
      Call c w (c.getUrl text [] makeParents env w).2
  | cacheLocalFile (w : World σ) (path : Bytes) : Call c w (c.cacheLocalFile path w).2
  | ensureDirectory (w : World σ) (place : Path) :
      Call c w (Action.onDisk (c.cache.ensureDirectory place) w).2
  | render (w : World σ) (engine : Bytes) (source : Path) (parameters : Parameters) :
      Call c w (Action.onDisk (c.engines.render engine source parameters) w).2
  | placeRendered (w : World σ) (path : Path) (url : Url) (makeParents : Bool) (env : Bytes) :
      Call c w (Action.onDisk (c.placeRendered path url [] makeParents env) w).2

/-- One call after the other, each of them discreet. -/
def Discreetly (c : Courier σ) : World σ → World σ → Prop :=
  ReflTransGen fun w w' => c.Call w w' ∧ Discreet w.disk w'.disk

/-- A template that an operation renders is a file, and it is not put in a directory that is missing
and would have to be made. -/
def Spares (c : Courier σ) (w : World σ) : Operation → Prop
  | .getTemplate text engine makeParents env parameters =>
    ∀ path w', c.rendered text engine env parameters w = (.ok (some path), w') →
      w'.disk.NamesFile path ∧ (makeParents = true →
        (c.cache.foreignPath env (Url.parse text).host (Url.parse text).path).parent.isEmpty = true ∨
          w'.disk.isDirectory
            (c.cache.foreignPath env (Url.parse text).host (Url.parse text).path).parent = true)
  | _ => True

/-- Operations one after the other. -/
inductive Runs (c : Courier σ) : World σ → List Operation → World σ → Prop
  | nil {w : World σ} : Runs c w [] w
  | cons {w w' : World σ} {op : Operation} {ops : List Operation} :
      c.Spares w op → Runs c (c.after w op) ops w' → Runs c w (op :: ops) w'

/-! ## Operations are made of calls -/

/-- Everything that is made of discreet calls. -/
def discreetly (c : Courier σ) : Action.Guard (World σ) where
  holds _ := True
  changes := c.Discreetly
  refl _ := .refl
  trans := .trans

variable {α : Type} {x : Action (World σ) α}

theorem guarded_of_call (hcall : ∀ w, c.Call w (x w).2)
    (hdiscreet : ∀ w, Discreet w.disk (x w).2.disk) : Action.Guarded c.discreetly x :=
  fun w _ => ⟨.single ⟨hcall w, hdiscreet w⟩, fun _ _ => trivial⟩

theorem guarded_elsewhere (h : ∀ w, (x w).2.disk = w.disk) : Action.Guarded c.discreetly x := by
  refine guarded_of_call (fun w => ?_) fun w => ?_
  · have hworld : (x w).2 = { w with beyond := (x w).2.beyond } := by rw [← h w]
    rw [hworld]
    exact .elsewhere w _
  · rw [h]
    exact (Sheds.refl _).discreet

theorem guarded_getUrl (hsource : c.source.Discreet) (text : Bytes) (makeParents : Bool)
    (env : Bytes) : Action.Guarded c.discreetly (c.getUrl text [] makeParents env) :=
  guarded_of_call (fun w => .getUrl w text makeParents env)
    fun w => discreet_getUrl hsource text makeParents env w

theorem guarded_cacheFiles (hsource : c.source.Discreet) (texts : List Bytes) (env : Bytes) :
    Action.Guarded c.discreetly (c.cacheFiles texts env) :=
  Action.guarded_mapM fun text _ => guarded_getUrl hsource text true env

theorem guarded_cacheMaster (hsource : c.source.Discreet) (env : Bytes) :
    Action.Guarded c.discreetly (c.cacheMaster env) := by
  refine (guarded_elsewhere (hsource.files env)).bind fun _ listing _ => ?_
  cases listing with
  | none => exact Action.guarded_pure _
  | some files => exact guarded_cacheFiles hsource _ env

theorem guarded_cacheDir (hsource : c.source.Discreet) (path env : Bytes) (includeEmpty : Bool) :
    Action.Guarded c.discreetly (c.cacheDir path env includeEmpty) := by
  refine (Action.guarded_ofOption _ _).bind fun _ root _ => ?_
  refine (guarded_elsewhere (hsource.files env)).bind fun _ listing _ => ?_
  refine Action.Guarded.bind (Action.Guarded.map (Action.guarded_mapM fun listed _ => ?_) _)
    fun _ cached _ => ?_
  · exact guarded_getUrl hsource _ true env
  cases includeEmpty with
  | false => exact Action.guarded_pure _
  | true =>
    refine (guarded_elsewhere (hsource.emptyDirectories env)).bind fun _ listing _ => ?_
    refine Action.Guarded.map (Action.guarded_mapM fun listed _ => Action.Guarded.map ?_ _) _
    exact guarded_of_call (fun w => .ensureDirectory w _)
      fun w => (c.cache.builds_ensureDirectory _ w.disk).discreet

theorem guarded_cacheLocalFile (path : Bytes) :
    Action.Guarded c.discreetly (c.cacheLocalFile path) := by
  refine guarded_of_call (fun w => .cacheLocalFile w path) fun w => ?_
  change Discreet w.disk ((c.cache.storeLocalFile path >>= fun place => pure place.text) w.disk).2
  rw [Action.snd_bind_pure]
  exact c.cache.discreet_storeLocalFile path w.disk

theorem guarded_firstState (hsource : c.source.Discreet) (env : Bytes) (candidates : List Bytes) :
    Action.Guarded c.discreetly (c.firstState env candidates) := by
  induction candidates with
  | nil => exact Action.guarded_pure _
  | cons candidate rest ih =>
    refine (guarded_getUrl hsource candidate true env).bind fun _ place _ => ?_
    cases place with
    | nil => exact ih
    | cons => exact Action.guarded_pure _

theorem guarded_rendered (hsource : c.source.Discreet) (hengines : Engines.Discreet c.engines)
    (text engine env : Bytes) (parameters : Parameters) :
    Action.Guarded c.discreetly (c.rendered text engine env parameters) := by
  refine (guarded_getUrl hsource text true env).bind fun _ source _ => ?_
  refine (Action.guarded_of_unchanged fun _ => rfl).bind fun _ w _ => ?_
  split
  · exact Action.guarded_pure _
  · refine Action.Guarded.bind (guarded_of_call (fun w => .render w engine source _) fun w => ?_)
      fun _ rendering _ => ?_
    · exact hengines.render engine source _ w.disk
    · cases rendering <;> exact Action.guarded_pure _

theorem discreetly_getTemplate (hsource : c.source.Discreet) (hengines : Engines.Discreet c.engines)
    {engine : Bytes} {parameters : Parameters}
    (hspares : c.Spares w (.getTemplate text engine makeParents env parameters)) :
    c.Discreetly w (c.getTemplate text [] engine makeParents env parameters w).2 := by
  obtain ⟨hrendered, -⟩ := guarded_rendered hsource hengines text engine env parameters w trivial
  rw [getTemplate_eq]
  cases hrun : c.rendered text engine env parameters w with
  | mk result w' =>
    rw [hrun] at hrendered
    cases result with
    | error =>
      rw [Action.bind_error hrun]
      exact hrendered
    | ok path? =>
      rw [Action.bind_ok hrun]
      cases path? with
      | none => exact hrendered
      | some path =>
        obtain ⟨hfile, hparent⟩ := hspares path w' hrun
        refine hrendered.tail ⟨.placeRendered w' path (Url.parse text) makeParents env, ?_⟩
        exact (sheds_placeRendered hfile hparent).discreet

/-- An operation is made of calls, each of them discreet. -/
theorem discreetly_after (hsource : c.source.Discreet) (hengines : Engines.Discreet c.engines)
    {op : Operation} (hspares : c.Spares w op) : c.Discreetly w (c.after w op) := by
  cases op with
  | cacheFile text env => exact (guarded_getUrl hsource text true env w trivial).1
  | cacheFiles texts env => exact (guarded_cacheFiles hsource texts env w trivial).1
  | cacheMaster env => exact (guarded_cacheMaster hsource env w trivial).1
  | cacheDir path env includeEmpty => exact (guarded_cacheDir hsource path env includeEmpty w trivial).1
  | cacheLocalFile path => exact (guarded_cacheLocalFile path w trivial).1
  | getUrl text makeParents env => exact (guarded_getUrl hsource text makeParents env w trivial).1
  | getTemplate => exact discreetly_getTemplate hsource hengines hspares
  | getState state env => exact (guarded_firstState hsource env _ w trivial).1

/-- What was done discreetly leaves no directory but those with the permissions that one had before, and
those that are for their owner alone. -/
theorem Discreetly.eq_or_owner (h : c.Discreetly w w') {p : Place} {m : Nat}
    (hdir : w'.disk.get? p = some (.dir m)) :
    w.disk.get? p = some (.dir m) ∨ m = ownerMode := by
  induction h with
  | refl => exact .inl hdir
  | tail _ hcall ih =>
    rcases hcall.2 p m hdir with hdir | ⟨-, hm⟩
    · exact ih hdir
    · exact .inr hm

/-- Operations without a destination, over either source, come down to calls that are discreet: each
leaves the permissions of the directories that it finds, and makes new ones for their owner alone. So
at the end every directory has the permissions that one in its place had before, or is for its owner
alone. -/
theorem operations_discreet (c : Courier σ)
    (hsource : (∃ m : MasterFiles σ, c.source = m.source) ∨ ∃ l : LocalRoots σ, c.source = l.source)
    (hengines : Engines.Discreet c.engines) {ops : List Operation} (hruns : c.Runs w ops w') :
    c.Discreetly w w' ∧ ∀ p m, w'.disk.get? p = some (.dir m) →
      w.disk.get? p = some (.dir m) ∨ m = ownerMode := by
  have hdiscreet : c.source.Discreet := by
    rcases hsource with ⟨m, hm⟩ | ⟨l, hl⟩
    · rw [hm]
      exact m.discreet_source
    · rw [hl]
      exact l.discreet_source
  have hcalls : c.Discreetly w w' := by
    induction hruns with
    | nil => exact .refl
    | cons hspares _ ih => exact (discreetly_after hdiscreet hengines hspares).trans ih
  exact ⟨hcalls, fun _ _ hdir => hcalls.eq_or_owner hdir⟩

/-! ## A cache on its own -/

theorem discreet_upper : Engine.Discreet Rehearsal.Engine.upper := by
  intro source parameters d
  refine Sheds.discreet ?_
  rw [Rehearsal.Engine.upper, Action.get_bind, Action.get_bind]
  cases d.read source with
  | ok | error =>
    cases hopen : d.openForWriting ⟨source.text ++ Bytes.ofString ".rendered"⟩ with
    | ok => exact (Disk.sheds_openForWriting hopen).trans (Disk.sheds_append _ _ _)
    | error => exact .refl d

/-- A courier over a master that serves one content, with an engine. -/
def renderingCourier : Courier Unit :=
  (MasterFiles.serving "new").courier MasterFiles.deliveringWeb
    (ByteMap.insert .empty "jinja" (some Rehearsal.Engine.upper))

theorem discreet_renderingCourier : Engines.Discreet renderingCourier.engines :=
  Engines.discreet_empty.insert discreet_upper "jinja"

/-- The cache with old content after two files were cached in it. -/
def fedWorld : World Unit :=
  renderingCourier.after (renderingCourier.after MasterFiles.staleWorld (.cacheFile "salt://f" "base"))
    (.cacheLocalFile "a/b")

/-- A template from a foreign host is rendered and put where it was cached. -/
def placesTemplate : Operation := .getTemplate "http://h/x" "jinja" true "base" .empty

theorem spares_placesTemplate : renderingCourier.Spares fedWorld placesTemplate := by
  intro path w' hrendered
  have hpath : (renderingCourier.rendered "http://h/x" "jinja" "base" .empty fedWorld).1 =
      .ok (some "cache/extrn_files/base/h/x.rendered") := by decide +kernel
  rw [hrendered] at hpath
  cases hpath
  have hworld : w' = (renderingCourier.rendered "http://h/x" "jinja" "base" .empty fedWorld).2 := by
    rw [hrendered]
  rw [hworld]
  exact ⟨Disk.namesFile_of_entries (by decide +kernel), fun _ => .inr (by decide +kernel)⟩

theorem operations_discreet_mixed : ∃ w',
    renderingCourier.Runs MasterFiles.staleWorld
      [.cacheFile "salt://f" "base", .cacheLocalFile "a/b", placesTemplate] w' ∧
      renderingCourier.Discreetly MasterFiles.staleWorld w' ∧
      w'.disk.get? ["cache", "extrn_files", "base", "h"] = some (.dir 0o700) ∧
      w'.disk.get? ["cache", "extrn_files", "base", "h", "x"] =
        some (.file false "FOREIGN env=base") := by
  have hruns : renderingCourier.Runs MasterFiles.staleWorld
      [.cacheFile "salt://f" "base", .cacheLocalFile "a/b", placesTemplate] _ :=
    .cons trivial (.cons trivial (.cons spares_placesTemplate .nil))
  obtain ⟨hcalls, -⟩ := operations_discreet renderingCourier (.inl ⟨MasterFiles.serving "new", rfl⟩)
    discreet_renderingCourier hruns
  exact ⟨_, hruns, hcalls, by decide +kernel, by decide +kernel⟩

/-- A template of the master is put in directories that are made for everybody to read. -/
theorem operations_indiscreet :
    Engines.Discreet renderingCourier.engines ∧
      MasterFiles.newCache.disk.get? ["cache", "extrn_files"] = none ∧
      (renderingCourier.getTemplate "salt://a/b" [] "jinja" true "base" .empty MasterFiles.newCache).1 =
        .ok "cache/extrn_files/base/a/b" ∧
      (renderingCourier.after MasterFiles.newCache
        (.getTemplate "salt://a/b" "jinja" true "base" .empty)).disk.get? ["cache", "files"] =
          some (.dir ownerMode) ∧
      (renderingCourier.after MasterFiles.newCache
        (.getTemplate "salt://a/b" "jinja" true "base" .empty)).disk.get? ["cache", "extrn_files"] =
          some (.dir 0o755) :=
  ⟨discreet_renderingCourier, rfl, by decide +kernel, by decide +kernel, by decide +kernel⟩

end Courier

end FileCourier
