import FileCourier.Proofs.Courier.Caching

/-!
# Errands and what is exchanged during them

Whatever a courier can be asked to do is an errand (`Courier.perform`). A record of the exchanges with
the master changes nothing else, whatever the errand (`perform_recorded`); so what was exchanged is what
such a record holds (`MasterFiles.exchangesOf`).
-/

namespace FileCourier

open FileCourier.Action (Mirrors mirrors_get_bind mirrors_mapM mirrors_ofOption mirrors_pure mirrors_throw)

variable {σ τ α : Type}

/-- Whatever a courier can be asked to do. -/
inductive Errand where
  | getFile (r : FileRequest)
  | files (env : Bytes)
  | directories (env : Bytes)
  | emptyDirectories (env : Bytes)
  | environment (env : Bytes)
  | digest (path env : Bytes)
  | options
  | classes
  | getUrl (text dest : Bytes) (makeParents : Bool) (env : Bytes)
  | cacheFile (text env : Bytes)
  | cacheFiles (texts : List Bytes) (env : Bytes)
  | cacheMaster (env : Bytes)
  | cacheDir (path env : Bytes) (includeEmpty : Bool)
  | cacheLocalFile (path : Bytes)
  | getDir (path dest env : Bytes) (gzip : Int)
  | getTemplate (text dest engine : Bytes) (makeParents : Bool) (env : Bytes)
    (parameters : Parameters)
  | getState (state env : Bytes)
  | listStates (env : Bytes)
  | listCached (env : Bytes)
  | isCached (path env : Bytes)

/-- What an errand brings. -/
inductive Errand.Outcome where
  | fetched (f : Fetched)
  | listing (l : Listing)
  | digest (record : Option DigestRecord)
  | options (options : Option Message)
  | classes (classes : Option (ByteMap (List Bytes)))
  | place (text : Bytes)
  | places (texts : List Bytes)
  | state (file : Option StateFile)

/-- A courier on an errand. -/
def Courier.perform (c : Courier σ) : Errand → Action (World σ) Errand.Outcome
  | .getFile r => return .fetched (← c.getFile r)
  | .files env => return .listing (← c.source.files env)
  | .directories env => return .listing (← c.source.directories env)
  | .emptyDirectories env => return .listing (← c.source.emptyDirectories env)
  | .environment env => return .listing (← c.source.environment env)
  | .digest path env => return .digest (← c.source.digest path env)
  | .options => return .options (← c.source.options)
  | .classes => return .classes (← c.source.classes)
  | .getUrl text dest makeParents env => return .place (← c.getUrl text dest makeParents env)
  | .cacheFile text env => return .place (← c.cacheFile text env)
  | .cacheFiles texts env => return .places (← c.cacheFiles texts env)
  | .cacheMaster env => return .places (← c.cacheMaster env)
  | .cacheDir path env includeEmpty => return .places (← c.cacheDir path env includeEmpty)
  | .cacheLocalFile path => return .place (← c.cacheLocalFile path)
  | .getDir path dest env gzip => return .places (← c.getDir path dest env gzip)
  | .getTemplate text dest engine makeParents env parameters =>
    return .place (← c.getTemplate text dest engine makeParents env parameters)
  | .getState state env => return .state (← c.getState state env)
  | .listStates env => return .places (← c.listStates env)
  | .listCached env => return .places (← c.listCached env)
  | .isCached path env => return .place (← c.isCached path env)

/-- The web beside something else. -/
def Web.beside (web : Web σ) : Web (σ × τ) := fun request s =>
  match web request s.1 with
  | (result, beyond) => (result, beyond, s.2)

/-- The exchanges with the master during an errand. -/
def MasterFiles.exchangesOf (m : MasterFiles σ) (web : Web σ) (engines : Engines) (e : Errand)
    (w : World σ) : List Exchange :=
  ((m.recorded.courier web.beside engines).perform e ⟨w.disk, w.beyond, []⟩).2.beyond.2

/-! ## A record changes nothing else -/

/-- An action does without a record what the other one does with it. -/
def Action.Unrecorded (x : Action (World σ) α) (y : Action (World (σ × List Exchange)) α) : Prop :=
  Mirrors World.plain x y

theorem Action.unrecorded_onDisk (x : Action Disk α) : Unrecorded (σ := σ) (onDisk x) (onDisk x) :=
  fun _ => rfl

theorem Web.unrecorded_fetch (web : Web σ) (url : Url) (dest : Path) :
    (WebFetch.fetch web url dest).Unrecorded (WebFetch.fetch web.beside url dest) := by
  have hasked : Mirrors Prod.fst (web (WebFetch.requestOf url))
      (web.beside (WebFetch.requestOf url) : Action (σ × List Exchange) Transfer) := fun _ => rfl
  exact hasked.onBeyond.bind fun t => Action.unrecorded_onDisk _

namespace MasterFiles

variable {m : MasterFiles σ} {web : Web σ} {engines : Engines}

theorem unrecorded_getFile (m : MasterFiles σ) (r : FileRequest) :
    (m.getFile r).Unrecorded (m.recorded.getFile r) := getFile_recorded m r

theorem unrecorded_command (m : MasterFiles σ) (request : Message) :
    (m.command request).Unrecorded (m.recorded.command request) := by
  have hasked : Mirrors Prod.fst (m.ask request) (m.recorded.ask request) := fun _ => rfl
  exact hasked.onBeyond.reached

theorem unrecorded_listing (m : MasterFiles σ) (name env : Bytes) :
    (m.listing name env).Unrecorded (m.recorded.listing name env) :=
  (m.unrecorded_command _).map _

theorem unrecorded_digest (m : MasterFiles σ) (path env : Bytes) :
    (m.digest path env).Unrecorded (m.recorded.digest path env) := by
  rw [digest, digest]
  cases VirtualPath.strip? path with
  | none =>
    refine mirrors_get_bind fun w => ?_
    have hplain : w.plain.disk = w.disk := rfl
    rw [hplain]
    change Action.Unrecorded (_ >>= _) (Action.ofExcept id (DigestRecord.ofFile m.digests _ _ _) >>= _)
    cases DigestRecord.ofFile m.digests w.disk path Digest.defaultName <;> exact fun _ => rfl
  | some relative => exact (m.unrecorded_command _).map _

theorem unrecorded_getUrl (m : MasterFiles σ) (web : Web σ) (engines : Engines) (text dest : Bytes)
    (makeParents : Bool) (env : Bytes) :
    ((m.courier web engines).getUrl text dest makeParents env).Unrecorded
      ((m.recorded.courier web.beside engines).getUrl text dest makeParents env) := by
  rw [Courier.getUrl, Courier.getUrl]
  split
  · exact (m.unrecorded_getFile _).map _
  split
  · exact mirrors_throw _
  · refine Mirrors.bind (Action.unrecorded_onDisk _) fun target => ?_
    cases target with
    | none => exact mirrors_pure _
    | some target => exact (web.unrecorded_fetch _ _).map _

theorem unrecorded_cacheListed (m : MasterFiles σ) (web : Web σ) (engines : Engines)
    (files : List Bytes) (env : Bytes) :
    ((m.courier web engines).cacheListed files env).Unrecorded
      ((m.recorded.courier web.beside engines).cacheListed files env) :=
  Mirrors.map (mirrors_mapM fun _ _ => m.unrecorded_getUrl web engines _ _ _ _) _

theorem unrecorded_cacheDirectories (m : MasterFiles σ) (web : Web σ) (engines : Engines)
    (directories : List Bytes) (env : Bytes) :
    ((m.courier web engines).cacheDirectories directories env).Unrecorded
      ((m.recorded.courier web.beside engines).cacheDirectories directories env) :=
  mirrors_mapM fun _ _ => Mirrors.map (Action.unrecorded_onDisk _) _

theorem unrecorded_getListed (m : MasterFiles σ) (web : Web σ) (engines : Engines) (root : CopyRoot)
    (dest env : Bytes) (gzip : Int) (files : List Bytes) :
    ((m.courier web engines).getListed root dest env gzip files).Unrecorded
      ((m.recorded.courier web.beside engines).getListed root dest env gzip files) := by
  refine Mirrors.map (mirrors_mapM fun listed _ => ?_) _
  refine Mirrors.bind (Mirrors.map (mirrors_ofOption _ _) _) fun target => ?_
  exact (m.unrecorded_getFile _).map _

theorem unrecorded_makeListed (root : CopyRoot) (dest : Bytes) (directories : List Bytes) :
    (Courier.makeListed root dest directories).Unrecorded (σ := σ)
      (Courier.makeListed root dest directories) := by
  refine mirrors_mapM fun listed _ => ?_
  refine Mirrors.bind (Mirrors.map (mirrors_ofOption _ _) _) fun target => ?_
  exact Mirrors.map (Action.unrecorded_onDisk _) _

theorem unrecorded_getTemplate (m : MasterFiles σ) (web : Web σ) (engines : Engines)
    (text dest engine : Bytes) (makeParents : Bool) (env : Bytes) (parameters : Parameters) :
    ((m.courier web engines).getTemplate text dest engine makeParents env parameters).Unrecorded
      ((m.recorded.courier web.beside engines).getTemplate text dest engine makeParents env
        parameters) := by
  refine Mirrors.bind (m.unrecorded_getUrl web engines _ _ _ _) fun source => ?_
  refine mirrors_get_bind fun w => ?_
  have hcourier : (source.isEmpty || !w.plain.disk.isPresent source ||
      !(m.courier web engines).engines.contains engine) =
      (source.isEmpty || !w.disk.isPresent source ||
        !(m.recorded.courier web.beside engines).engines.contains engine) := rfl
  rw [hcourier]
  split
  · exact mirrors_pure _
  · refine Mirrors.bind (Action.unrecorded_onDisk _) fun rendering => ?_
    cases rendering with
    | failed => exact mirrors_pure _
    | rendered path => exact Action.unrecorded_onDisk _

theorem unrecorded_firstState (m : MasterFiles σ) (web : Web σ) (engines : Engines) (env : Bytes)
    (candidates : List Bytes) :
    ((m.courier web engines).firstState env candidates).Unrecorded
      ((m.recorded.courier web.beside engines).firstState env candidates) := by
  induction candidates with
  | nil => exact mirrors_pure _
  | cons candidate rest ih =>
    refine Mirrors.bind (m.unrecorded_getUrl web engines _ _ _ _) fun place => ?_
    cases place with
    | nil => exact ih
    | cons => exact mirrors_pure _

theorem unrecorded_cacheMaster (m : MasterFiles σ) (web : Web σ) (engines : Engines) (env : Bytes) :
    ((m.courier web engines).cacheMaster env).Unrecorded
      ((m.recorded.courier web.beside engines).cacheMaster env) := by
  refine Mirrors.bind (m.unrecorded_listing _ env) fun listing => ?_
  cases listing with
  | none => exact mirrors_pure _
  | some files => exact mirrors_mapM fun _ _ => m.unrecorded_getUrl web engines _ _ _ _

theorem unrecorded_cacheDir (m : MasterFiles σ) (web : Web σ) (engines : Engines) (path env : Bytes)
    (includeEmpty : Bool) :
    ((m.courier web engines).cacheDir path env includeEmpty).Unrecorded
      ((m.recorded.courier web.beside engines).cacheDir path env includeEmpty) := by
  refine Mirrors.bind (mirrors_ofOption _ _) fun root => ?_
  refine Mirrors.bind (m.unrecorded_listing _ env) fun files => ?_
  refine Mirrors.bind (m.unrecorded_cacheListed web engines _ env) fun cached => ?_
  cases includeEmpty with
  | false => exact mirrors_pure _
  | true =>
    refine Mirrors.bind (m.unrecorded_listing _ env) fun directories => ?_
    exact Mirrors.map (m.unrecorded_cacheDirectories web engines _ env) _

theorem unrecorded_getDir (m : MasterFiles σ) (web : Web σ) (engines : Engines)
    (path dest env : Bytes) (gzip : Int) :
    ((m.courier web engines).getDir path dest env gzip).Unrecorded
      ((m.recorded.courier web.beside engines).getDir path dest env gzip) := by
  refine Mirrors.bind (mirrors_ofOption _ _) fun root => ?_
  refine Mirrors.bind (m.unrecorded_listing _ env) fun files => ?_
  refine Mirrors.bind (m.unrecorded_getListed web engines root dest env gzip _) fun copied => ?_
  refine Mirrors.bind (m.unrecorded_listing _ env) fun directories => ?_
  exact Mirrors.map (unrecorded_makeListed root dest _) _

/-- A record of the exchanges changes nothing else, whatever the errand. -/
theorem perform_recorded (m : MasterFiles σ) (web : Web σ) (engines : Engines) (e : Errand) :
    ((m.courier web engines).perform e).Unrecorded
      ((m.recorded.courier web.beside engines).perform e) := by
  cases e with
  | getFile r => exact (m.unrecorded_getFile r).map _
  | files env | directories env | emptyDirectories env | environment env =>
    exact (m.unrecorded_listing _ env).map _
  | digest path env => exact (m.unrecorded_digest path env).map _
  | options => exact (m.unrecorded_command _).map _
  | classes => exact Mirrors.map (Mirrors.map (m.unrecorded_command _) _) _
  | getUrl | cacheFile => exact Mirrors.map (m.unrecorded_getUrl web engines _ _ _ _) _
  | cacheFiles =>
    exact Mirrors.map (mirrors_mapM fun _ _ => m.unrecorded_getUrl web engines _ _ _ _) _
  | cacheMaster env => exact Mirrors.map (m.unrecorded_cacheMaster web engines env) _
  | cacheDir path env includeEmpty =>
    exact Mirrors.map (m.unrecorded_cacheDir web engines path env includeEmpty) _
  | cacheLocalFile => exact Mirrors.map (Action.unrecorded_onDisk _) _
  | getDir path dest env gzip => exact Mirrors.map (m.unrecorded_getDir web engines path dest env gzip) _
  | getTemplate => exact Mirrors.map (m.unrecorded_getTemplate web engines _ _ _ _ _ _) _
  | getState state env => exact Mirrors.map (m.unrecorded_firstState web engines env _) _
  | listStates env => exact Mirrors.map (Mirrors.map (m.unrecorded_listing _ env) _) _
  | listCached | isCached => exact fun _ => rfl

end MasterFiles

end FileCourier
