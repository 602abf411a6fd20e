import FileCourier.Proofs.Courier.Errands
import FileCourier.Proofs.Courier.Failing

/-!
# Nothing fails because the master is out of reach

A master that is out of reach is a fault of the request alone. Whatever asks the master turns it into a
value, and nothing else raises it (`MasterFiles.perform_absorbs`).
-/

namespace FileCourier

variable {σ α β : Type}

namespace Action

/-- The action never fails because the master is out of reach. -/
def Absorbs (x : Action σ α) : Prop := ∀ s what last, (x s).1 ≠ .error (.unreachable what last)

variable {x : Action σ α}

theorem absorbs_iff : x.Absorbs ↔ x.FailsOnly Fault.Reachable := by
  constructor
  · rintro h s e he what last rfl
    exact h s what last he
  · exact fun h s what last he => h s _ he what last rfl

theorem absorbs_throw {e : Fault} (h : ∀ what last, e ≠ .unreachable what last) :
    (throw e : Action σ α).Absorbs := absorbs_iff.2 (failsOnly_throw h)

end Action

open FileCourier.Action FileCourier.Fault

/-- Engines that never fail because the master is out of reach. -/
def Engines.Absorb (engines : Engines) : Prop :=
  ∀ name engine, engines.get? name = some (some engine) →
    ∀ source parameters, (engine source parameters).Absorbs

theorem Engines.Absorb.render {engines : Engines} (h : engines.Absorb) (name : Bytes) (source : Path)
    (parameters : Parameters) : (engines.render name source parameters).FailsOnly Reachable := by
  rw [Engines.render]
  split
  · exact absorbs_iff.1 (h _ _ ‹_› source parameters)
  · exact failsOnly_pure _

namespace MasterFiles

variable (m : MasterFiles σ) {web : Web σ} (engines : Engines)

/-- Whatever the master fails with, it is out of reach or not. -/
theorem reachable_ask (request : Message) :
    (m.ask request).FailsOnly fun e => e.Reachable → e.Reachable := fun _ _ _ => id

theorem reachable_command (request : Message) : (m.command request).FailsOnly Reachable :=
  m.failsOnly_command m.reachable_ask request

theorem reachable_getFile (r : FileRequest) : (m.getFile r).FailsOnly Reachable :=
  m.failsOnly_getFile m.reachable_ask (fun _ => Usual.reachable) fun _ _ _ => nofun

theorem reachable_listing (name env : Bytes) : (m.listing name env).FailsOnly Reachable :=
  (m.reachable_command _).map _

theorem reachable_digest (path env : Bytes) : (m.digest path env).FailsOnly Reachable := by
  rw [digest]
  split
  · refine failsOnly_get_bind fun w => FailsOnly.map (failsOnly_ofExcept ?_) _
    exact fun e he => (DigestRecord.usual_of_ofFile he).reachable
  · exact (m.reachable_command _).map _

theorem reachable_copyRoot (path : Bytes) :
    (Courier.copyRoot path : Action (World σ) CopyRoot).FailsOnly Reachable :=
  failsOnly_ofOption fun _ _ _ => nofun

theorem reachable_targetOf (root : CopyRoot) (dest listed : Bytes) :
    (Courier.targetOf root dest listed : Action (World σ) Path).FailsOnly Reachable :=
  (failsOnly_ofOption fun _ _ _ => nofun).map _

theorem reachable_getDir (path dest env : Bytes) (gzip : Int) :
    ((m.courier web engines).getDir path dest env gzip).FailsOnly Reachable := by
  refine (reachable_copyRoot path).bind fun root => (m.reachable_listing _ env).bind fun files => ?_
  refine FailsOnly.bind (FailsOnly.map (failsOnly_mapM fun listed _ => ?_) _) fun copied => ?_
  · refine (reachable_targetOf root dest listed).bind fun target => ?_
    exact (m.reachable_getFile _).map _
  refine (m.reachable_listing _ env).bind fun directories =>
    FailsOnly.map (failsOnly_mapM fun listed _ => ?_) _
  refine (reachable_targetOf root dest listed).bind fun target => ?_
  exact ((Chores.usual_makeDirectories target).mono fun _ => Usual.reachable).onDisk.map _

section

variable (hweb : ∀ request, (web request).Absorbs)
include hweb

theorem reachable_getUrl (text dest : Bytes) (makeParents : Bool) (env : Bytes) :
    ((m.courier web engines).getUrl text dest makeParents env).FailsOnly Reachable :=
  Courier.failsOnly_getUrl (c := m.courier web engines) (fun _ => Usual.reachable)
    (fun request => absorbs_iff.1 (hweb request))
    (fun r _ _ => m.reachable_getFile r) dest makeParents env

theorem reachable_cacheDir (path env : Bytes) (includeEmpty : Bool) :
    ((m.courier web engines).cacheDir path env includeEmpty).FailsOnly Reachable := by
  refine (reachable_copyRoot path).bind fun root => (m.reachable_listing _ env).bind fun files => ?_
  refine FailsOnly.bind (FailsOnly.map (failsOnly_mapM fun listed _ => ?_) _) fun cached => ?_
  · exact m.reachable_getUrl engines hweb _ _ _ _
  cases includeEmpty with
  | false => exact failsOnly_pure _
  | true =>
    refine (m.reachable_listing _ env).bind fun directories =>
      FailsOnly.map (failsOnly_mapM fun _ _ => ?_) _
    exact ((Cache.usual_ensureDirectory _ _).mono fun _ => Usual.reachable).onDisk.map _

theorem reachable_firstState (env : Bytes) (candidates : List Bytes) :
    ((m.courier web engines).firstState env candidates).FailsOnly Reachable := by
  induction candidates with
  | nil => exact failsOnly_pure none
  | cons candidate rest ih =>
    refine (m.reachable_getUrl engines hweb _ _ _ _).bind fun place => ?_
    cases place with
    | nil => exact ih
    | cons => exact failsOnly_pure _

/-- No errand fails because the master is out of reach. -/
theorem perform_absorbs (hengines : engines.Absorb) (e : Errand) :
    ((m.courier web engines).perform e).Absorbs := by
  have hurl := m.reachable_getUrl engines hweb
  rw [absorbs_iff]
  cases e with
  | getFile r => exact (m.reachable_getFile r).map _
  | files env | directories env | emptyDirectories env | environment env =>
    exact (m.reachable_listing _ env).map _
  | digest path env => exact (m.reachable_digest path env).map _
  | options => exact (m.reachable_command _).map _
  | classes => exact FailsOnly.map ((m.reachable_command _).map _) _
  | getUrl | cacheFile => exact (hurl _ _ _ _).map _
  | cacheFiles => exact FailsOnly.map (failsOnly_mapM fun _ _ => hurl _ _ _ _) _
  | cacheMaster env =>
    refine FailsOnly.map ((m.reachable_listing _ env).bind fun listing => ?_) _
    cases listing with
    | none => exact failsOnly_pure []
    | some files => exact failsOnly_mapM fun _ _ => hurl _ _ _ _
  | cacheDir path env includeEmpty => exact (m.reachable_cacheDir engines hweb path env includeEmpty).map _
  | cacheLocalFile path =>
    refine FailsOnly.map (FailsOnly.onDisk ?_) _
    exact ((Cache.usual_storeLocalFile _ _).mono fun _ => Usual.reachable).map _
  | getDir path dest env gzip => exact (m.reachable_getDir engines path dest env gzip).map _
  | getTemplate text dest engine makeParents env parameters =>
    exact (Courier.failsOnly_getTemplate (c := m.courier web engines) (fun _ => Usual.reachable)
      (fun request => absorbs_iff.1 (hweb request)) (fun r _ _ => m.reachable_getFile r)
      hengines.render dest engine makeParents env parameters).map _
  | getState state env => exact (m.reachable_firstState engines hweb env _).map _
  | listStates env => exact FailsOnly.map ((m.reachable_listing _ env).map _) _
  | listCached | isCached => exact fun _ _ => nofun

end

end MasterFiles

end FileCourier
