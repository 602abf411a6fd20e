import FileCourier.LocalRoots
import FileCourier.Proofs.Courier.Caching

/-!
# What actions fail with

Two faults say something about what was asked for rather than about how it went: that a path carries no
mark, and that the master is out of reach. All others are usual (`Fault.Usual`), and work on the disk and in
the cache fails with these alone. What a request fails with beyond them is what the master, the web and the
engines fail with (`Courier.failsOnly_getUrl`, `Courier.failsOnly_getTemplate`).
-/

namespace FileCourier

variable {σ α β : Type}

namespace Fault

/-- A fault that is not that of a path without the mark and not that of a master out of reach. -/
def Usual : Fault → Prop
  | unmarked _ | unreachable _ _ => False
  | _ => True

/-- A fault that is not that of a master out of reach. -/
def Reachable (e : Fault) : Prop := ∀ what last, e ≠ unreachable what last

theorem Usual.reachable {e : Fault} (h : e.Usual) : e.Reachable := by
  rintro what last rfl
  exact h

end Fault

namespace Action

/-- Whatever the action fails with is such a fault. -/
def FailsOnly (P : Fault → Prop) (x : Action σ α) : Prop := ∀ s e, (x s).1 = .error e → P e

variable {P Q : Fault → Prop} {x : Action σ α} {f : α → Action σ β}

theorem FailsOnly.mono (hx : x.FailsOnly P) (h : ∀ e, P e → Q e) : x.FailsOnly Q :=
  fun s e he => h e (hx s e he)

theorem failsOnly_pure (a : α) : (pure a : Action σ α).FailsOnly P := fun _ _ => nofun

theorem failsOnly_set (s : σ) : (set s : Action σ PUnit).FailsOnly P := fun _ _ => nofun

theorem failsOnly_throw {e : Fault} (h : P e) : (throw e : Action σ α).FailsOnly P := by
  intro s e' heq
  cases heq
  exact h

theorem FailsOnly.bind (hx : x.FailsOnly P) (hf : ∀ a, (f a).FailsOnly P) : (x >>= f).FailsOnly P := by
  intro s e heq
  cases hrun : x s with
  | mk result s' =>
    cases result with
    | error e' =>
      rw [bind_error hrun] at heq
      cases heq
      exact hx s e (by rw [hrun])
    | ok a =>
      rw [bind_ok hrun] at heq
      exact hf a s' e heq

theorem FailsOnly.map (hx : x.FailsOnly P) (g : α → β) : (x >>= fun a => pure (g a)).FailsOnly P :=
  hx.bind fun _ => failsOnly_pure _

theorem failsOnly_mapM {l : List α} (h : ∀ a ∈ l, (f a).FailsOnly P) : (l.mapM f).FailsOnly P := by
  induction l with
  | nil => exact failsOnly_pure []
  | cons a l ih =>
    rw [List.mapM_cons]
    refine (h a List.mem_cons_self).bind fun _ => ?_
    exact (ih fun a' ha' => h a' (List.mem_cons_of_mem _ ha')).map _

theorem failsOnly_get_bind {f : σ → Action σ β} (h : ∀ s, (f s).FailsOnly P) :
    (get >>= f).FailsOnly P := by
  intro s
  rw [get_bind]
  exact h s s

theorem failsOnly_ofOption {fault : Fault} {r : Option α} (h : r = none → P fault) :
    (ofOption fault r : Action σ α).FailsOnly P := by
  cases r with
  | none => exact failsOnly_throw (h rfl)
  | some a => exact failsOnly_pure a

theorem failsOnly_ofExcept {ε : Type} {blame : ε → Fault} {r : Except ε α}
    (h : ∀ e, r = .error e → P (blame e)) : (ofExcept blame r : Action σ α).FailsOnly P := by
  cases r with
  | error e => exact failsOnly_throw (h e rfl)
  | ok a => exact failsOnly_pure a

/-- The master out of reach becomes a value. -/
theorem failsOnly_reached (h : x.FailsOnly fun e => e.Reachable → P e) : x.reached.FailsOnly P := by
  intro s e heq
  rw [reached] at heq
  cases hrun : x s with
  | mk result s' =>
    rw [hrun] at heq
    cases result with
    | ok a => cases heq
    | error e' =>
      have herror : (x s).1 = .error e' := by rw [hrun]
      cases e' with
      | unreachable => cases heq
      | _ =>
        cases heq
        refine h s _ herror ?_
        rintro _ _ ⟨⟩

theorem FailsOnly.onDisk {x : Action Disk α} (h : x.FailsOnly P) :
    (onDisk x : Action (World σ) α).FailsOnly P := fun w => h w.disk

theorem FailsOnly.onBeyond (h : x.FailsOnly P) : (onBeyond x).FailsOnly P := fun w => h w.beyond

end Action

open FileCourier.Action FileCourier.Fault

/-! ## On the disk -/

namespace Chores

theorem usual_refuse (action : Bytes) (paths : List Path) (cause : Errno) :
    (refuse action paths cause : Action Disk α).FailsOnly Usual := failsOnly_throw trivial

theorem usual_makeDirectories (p : Path) : (makeDirectories p).FailsOnly Usual := by
  intro d
  rw [makeDirectories]
  cases d.makeDirectories p with
  | mk result d' =>
    cases result with
    | ok => exact nofun
    | error e => exact usual_refuse _ _ e d'

theorem usual_remove (p : Path) : (remove p).FailsOnly Usual := by
  refine failsOnly_get_bind fun d => ?_
  cases d.remove p with
  | error e => exact usual_refuse _ _ e
  | ok removed =>
    cases removed with
    | none => exact failsOnly_pure ()
    | some d' => exact failsOnly_set d'

theorem usual_removeAll (p : Path) : (removeAll p).FailsOnly Usual := by
  refine failsOnly_get_bind fun d => ?_
  cases d.emptied p with
  | error e => exact usual_refuse _ _ e
  | ok emptied =>
    cases emptied with
    | none => exact failsOnly_pure ()
    | some d' =>
      exact (failsOnly_set d').bind fun _ => usual_remove p

theorem usual_moveAsCopy (source target : Path) : (moveAsCopy source target).FailsOnly Usual := by
  refine failsOnly_get_bind fun d => ?_
  split
  · exact usual_refuse _ _ _
  · exact (failsOnly_set _).bind fun _ => usual_remove source

theorem usual_move (apart : Place → Place → Bool) (source target : Path) :
    (move apart source target).FailsOnly Usual := by
  refine failsOnly_get_bind fun d => ?_
  split
  · exact failsOnly_set _
  · exact usual_moveAsCopy source target

theorem usual_discard (p : Path) : (discard p).FailsOnly Usual := fun _ _ => nofun

theorem usual_prepareParent (dir : Path) (make : Bool) : (prepareParent dir make).FailsOnly Usual := by
  refine failsOnly_get_bind fun d => ?_
  split
  · exact failsOnly_pure true
  split
  · exact failsOnly_pure false
  · exact (usual_makeDirectories dir).map _

end Chores

/-- A maker that gets stuck has the system or the cache to blame. -/
theorem Making.usual_of_run (root : Path) {m : Making} (h : ∀ e, m = failed e → e.Usual) (n : Nat)
    (d : Disk) : ∀ e, (run root n m d).1 = failed e → e.Usual := by
  have next_usual (here : Path) (rest : List Bytes) : ∀ e, next here rest = failed e → e.Usual := by
    cases rest <;> rintro e ⟨⟩
  have step_usual {m : Making} (h : ∀ e, m = failed e → e.Usual) (d : Disk) :
      ∀ e, (step root m d).1 = failed e → e.Usual := by
    have blames (fault : Fault) (hfault : fault.Usual) : ∀ e, failed fault = failed e → e.Usual := by
      rintro e ⟨⟩
      exact hfault
    cases m with
    | finished => rintro e ⟨⟩
    | failed fault => exact h
    | «at» stage here rest =>
      cases stage with
      | look =>
        rw [step]
        dsimp only
        split
        · exact next_usual here rest
        · rintro e ⟨⟩
      | judge | remove => rintro e ⟨⟩
      | make =>
        rw [step]
        split <;> rintro e ⟨⟩
      | restrict => exact next_usual here rest
      | recheck =>
        rw [step]
        split
        · exact blames _ trivial
        · dsimp only
          split
          · exact next_usual here rest
          · exact blames _ trivial
  induction n generalizing m d with
  | zero => exact h
  | succ n ih => exact ih (step_usual h d) _

namespace Cache

variable (c : Cache)

theorem usual_ensureDirectory (p : Path) : (c.ensureDirectory p).FailsOnly Usual := by
  intro d e heq
  have hstart : ∀ e, Making.start p = .failed e → e.Usual := by
    rw [Making.start]
    cases p.components <;> rintro e ⟨⟩
  have hrun := Making.usual_of_run c.root hstart (Making.stepsEach * p.components.length) d
  rw [ensureDirectory] at heq
  split at heq
  · cases heq
  · rename_i fault d' hcomplete
    cases heq
    exact hrun e (congrArg Prod.fst hcomplete)
  · cases heq
    trivial

theorem usual_prepare (p : Path) : (c.prepare p).FailsOnly Usual := by
  rw [prepare]
  split
  · exact (c.usual_ensureDirectory p.parent).map _
  · exact failsOnly_pure p

theorem usual_storeLocalFile (source : Path) : (c.storeLocalFile source).FailsOnly Usual := by
  refine failsOnly_get_bind fun d => ?_
  cases d.read source with
  | error => exact failsOnly_throw trivial
  | ok found =>
    refine (c.usual_prepare _).bind fun dest => failsOnly_get_bind fun d => ?_
    cases d.openForWriting dest with
    | error => exact failsOnly_throw trivial
    | ok opened => exact fun _ _ => nofun

end Cache

theorem Download.usual_act (r : Disk → Except StoreError Unit × Download × Disk) :
    (Download.act r).FailsOnly Usual := by
  intro d e heq
  rw [act] at heq
  split at heq <;> cases heq
  trivial

theorem DigestRecord.usual_of_ofFile {l : Digests} {d : Disk} {path : Path} {name : Bytes} {e : Fault}
    (h : ofFile l d path name = .error e) : e.Usual := by
  rw [ofFile] at h
  split at h
  · rename_i content _
    cases hhex : l.hexOf name content <;> rw [hhex] at h <;> cases h
    trivial
  · cases h
    trivial

theorem DigestRecord.usual_of_verifies {l : Digests} {record : DigestRecord} {d : Disk} {path : Path}
    {e : Fault} (h : record.verifies l d path = .error e) : e.Usual := by
  rw [verifies] at h
  cases hfile : ofFile l d path record.algorithm with
  | error e' =>
    rw [hfile] at h
    cases h
    exact usual_of_ofFile hfile
  | ok => rw [hfile] at h; cases h

/-! ## From the sources -/

namespace MasterFiles

variable (m : MasterFiles σ)

theorem usual_startInCache (d : Download) (env relative : Bytes) :
    (m.startInCache d env relative).FailsOnly Usual := by
  refine (m.cache.usual_prepare _).bind fun dest => failsOnly_get_bind fun disk => ?_
  split
  · exact (Chores.usual_removeAll dest).bind fun _ => Download.usual_act _
  · exact Download.usual_act _

theorem usual_conclude (d : Download) (reply : Message) : (m.conclude d reply).FailsOnly Usual := by
  rw [conclude]
  cases announced reply with
  | none => exact failsOnly_pure _
  | some record =>
    refine failsOnly_get_bind fun disk => FailsOnly.bind (failsOnly_ofExcept ?_) fun good => ?_
    · exact fun e => DigestRecord.usual_of_verifies
    · split
      · exact failsOnly_pure _
      · exact (Download.usual_act _).map _

theorem usual_take (r : FileRequest) (relative : Bytes) (d : Download) (reply : Message) :
    (m.take r relative d reply).FailsOnly Usual := by
  rw [take]
  split
  · rw [takeEnd]
    split
    · exact m.usual_conclude d reply
    · split
      · exact failsOnly_pure _
      · exact (m.usual_startInCache d r.env _).bind fun d => m.usual_conclude d reply
  · rw [takePiece]
    have write (d : Download) (data : Bytes) :
        (Action.ofExcept .gzip (pieceOf r reply data) >>= fun piece =>
          Download.act (d.write piece) >>= fun d => pure (Turn.more d) :
            Action Disk Turn).FailsOnly Usual :=
      FailsOnly.bind (failsOnly_ofExcept fun _ _ => trivial) fun piece => (Download.usual_act _).map _
    split
    · exact write d _
    · split <;> exact (m.usual_startInCache d r.env _).bind fun d => write d _

theorem usual_begin (r : FileRequest) : (begin r).FailsOnly Usual := by
  rw [begin]
  split
  · exact failsOnly_pure _
  · refine (Chores.usual_prepareParent _ _).bind fun ready => ?_
    split
    · exact (Download.usual_act _).map _
    · exact failsOnly_pure _

variable {P : Fault → Prop} (hask : ∀ request, (m.ask request).FailsOnly fun e => e.Reachable → P e)
include hask

theorem failsOnly_command (request : Message) : (m.command request).FailsOnly P :=
  failsOnly_reached (hask request).onBeyond

variable (husual : ∀ e : Fault, e.Usual → P e)
include husual

theorem failsOnly_fetch (r : FileRequest) (relative : Bytes) (n : Nat) (d : Download) :
    (m.fetch r relative n d).FailsOnly P := by
  induction n generalizing d with
  | zero => exact failsOnly_throw (husual _ trivial)
  | succ n ih =>
    rw [fetch]
    refine FailsOnly.bind ?turn fun turn => ?next
    case turn =>
      refine (failsOnly_reached (hask _).onBeyond).bind fun answer => ?_
      cases answer with
      | none => exact failsOnly_pure _
      | some reply => exact ((m.usual_take r relative d reply).mono husual).onDisk
    case next =>
      cases turn with
      | done result => exact failsOnly_pure result
      | more d => exact ih d

/-- A request fails for its own path only when that carries no mark. -/
theorem failsOnly_getFile {r : FileRequest}
    (hpath : VirtualPath.strip? r.path = none → P (.unmarked r.path)) : (m.getFile r).FailsOnly P := by
  refine (failsOnly_ofOption hpath).bind fun relative => ?_
  refine ((usual_begin r).mono husual).onDisk.bind fun d => ?_
  cases d with
  | none => exact failsOnly_pure _
  | some d => exact m.failsOnly_fetch hask husual r relative m.patience d

end MasterFiles

theorem LocalRoots.failsOnly_getFile {P : Fault → Prop} {s : Settings} {r : FileRequest}
    (hpath : VirtualPath.strip? r.path = none → P (.unmarked r.path)) :
    (getFile s r : Action (World σ) Fetched).FailsOnly P := by
  have hresolve : (resolve s r.path r.env : Action (World σ) (Option Path)).FailsOnly P :=
    (failsOnly_ofOption hpath).bind fun relative => failsOnly_get_bind fun w => failsOnly_pure _
  refine hresolve.bind fun found => ?_
  cases found with
  | none => exact failsOnly_pure _
  | some place => exact failsOnly_pure _

/-! ## From the web -/

theorem WebFetch.usual_store (url : Url) (dest : Path) (t : Transfer) :
    (store url dest t).FailsOnly Usual := by
  refine failsOnly_get_bind fun d => ?_
  dsimp only
  refine (failsOnly_set _).bind fun _ => ?_
  split
  · exact (Chores.usual_discard dest).bind fun _ => failsOnly_throw trivial
  · split
    · exact (Chores.usual_discard dest).bind fun _ => failsOnly_throw trivial
    · refine failsOnly_get_bind fun d => ?_
      split
      · exact failsOnly_set _
      · exact failsOnly_throw trivial

/-! ## By address -/

namespace Courier

variable {P : Fault → Prop} {c : Courier σ} {text : Bytes} (husual : ∀ e : Fault, e.Usual → P e)
  (hweb : ∀ request, (c.web request).FailsOnly P)
  (hfile : ∀ r, r.path = text → (Url.parse text).isVirtual = true → (c.getFile r).FailsOnly P)
include husual hweb hfile

/-- What is got by an address fails as the source does under that path, if the address names one, and as
the web does. -/
theorem failsOnly_getUrl (dest : Bytes) (makeParents : Bool) (env : Bytes) :
    (c.getUrl text dest makeParents env).FailsOnly P := by
  rw [getUrl]
  split
  · exact (hfile _ rfl ‹_›).map _
  split
  · exact failsOnly_throw (husual _ trivial)
  · refine FailsOnly.bind (FailsOnly.onDisk ?target) fun target => ?fetch
    case target =>
      rw [foreignTarget]
      split
      · exact ((Cache.usual_prepare _ _).mono husual).map _
      · refine ((Chores.usual_prepareParent _ _).mono husual).bind fun ready => ?_
        split <;> exact failsOnly_pure _
    case fetch =>
      cases target with
      | none => exact failsOnly_pure []
      | some target =>
        refine FailsOnly.map ((hweb _).onBeyond.bind fun t => ?_) _
        exact ((WebFetch.usual_store _ target t).mono husual).onDisk

theorem failsOnly_getTemplate
    (hrender : ∀ name source parameters, (c.engines.render name source parameters).FailsOnly P)
    (dest engine : Bytes) (makeParents : Bool) (env : Bytes) (parameters : Parameters) :
    (c.getTemplate text dest engine makeParents env parameters).FailsOnly P := by
  refine (failsOnly_getUrl husual hweb hfile [] true env).bind fun source =>
    failsOnly_get_bind fun w => ?_
  split
  · exact failsOnly_pure _
  · refine (hrender _ _ _).onDisk.bind fun rendering => ?_
    cases rendering with
    | failed => exact failsOnly_pure _
    | rendered path =>
      refine FailsOnly.onDisk (((Chores.usual_prepareParent _ _).mono husual).bind fun ready => ?_)
      split
      · exact ((Chores.usual_move _ _ _).mono husual).map _
      · exact ((Chores.usual_discard path).mono husual).map _

end Courier

end FileCourier
