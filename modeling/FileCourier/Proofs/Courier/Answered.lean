import FileCourier.Proofs.Courier.Copying
import FileCourier.Proofs.Courier.Errands
import FileCourier.Proofs.MasterFiles.Endings

/-!
# What was answered

Of several files that are fetched one after the other, each has requests of its own: which of them were
answered can be read off the whole record (`Answered`, `results_eq`). So it says which part of a tree
was within reach (`FileTree.reached`).
-/

namespace FileCourier

open LocalRoots (listed)

/-- None of the requests with a value in a field has timed out. -/
def Answered (log : List Exchange) (field value : Bytes) : Prop :=
  ∀ x ∈ log, x.request.bytesOr field [] = value → ¬x.TimedOut

instance (log : List Exchange) (field value : Bytes) : Decidable (Answered log field value) :=
  inferInstanceAs (Decidable (∀ x ∈ log, x.request.bytesOr field [] = value → ¬x.TimedOut))

/-- The part of a tree below some names that was within reach: the files for which the listing of the
files and all of their own requests were answered, and the empty directories if their listing was. -/
def FileTree.reached (t : FileTree) (above : List Bytes) (log : List Exchange) : FileTree where
  files :=
    if Answered log "cmd" "_file_list" then
      t.files.filter fun f => Answered log "path" (listed (above ++ f.1))
    else []
  emptyDirectories :=
    if Answered log "cmd" "_file_list_emptydirs" then t.emptyDirectories else []

variable {σ α β : Type} {m : MasterFiles σ} {log before after : List Exchange} {x : Exchange}
  {field value env name relative : Bytes} {above : List Bytes} {r : FileRequest} {place : Path}

theorem answered_append :
    Answered (before ++ after) field value ↔ Answered before field value ∧ Answered after field value :=
  List.forall_mem_append

theorem answered_of_ne (h : ∀ x ∈ log, x.request.bytesOr field [] ≠ value) :
    Answered log field value := fun x hx heq => absurd heq (h x hx)

/-- What an answer to a command comes to. -/
def Exchange.outcome (x : Exchange) : Except Fault (Option Message) :=
  match x.answer with
  | .ok reply => .ok (some reply)
  | .error (.unreachable _ _) => .ok none
  | .error e => .error e

theorem Exchange.outcome_eq_none_iff (x : Exchange) : x.outcome = .ok none ↔ x.TimedOut := by
  rw [outcome, TimedOut]
  cases x.answer with
  | ok reply => simp
  | error e => cases e <;> simp

theorem Exchange.outcome_of_ok {reply : Message} (h : x.answer = .ok reply) :
    x.outcome = .ok (some reply) := by
  rw [outcome, h]

theorem Exchange.not_timedOut_of_ok {reply : Message} (h : x.answer = .ok reply) : ¬x.TimedOut := by
  rintro ⟨what, last, htimedOut⟩
  cases h.symm.trans htimedOut

/-! ## Runs with a record -/

/-- Actions one after the other, each of which adds to the record what was exchanged for it. -/
theorem Action.exists_mapM_recorded {l : List α} {f : α → Action (World (σ × List Exchange)) β}
    {I : List (α × β × List Exchange) → Disk → Prop} {w : World (σ × List Exchange)}
    (hstep : ∀ {before a after} {w : World (σ × List Exchange)},
      l = before.map Prod.fst ++ a :: after → I before w.disk →
      ∃ b log w', f a w = (.ok b, w') ∧ w'.beyond.2 = w.beyond.2 ++ log ∧
        I (before ++ [(a, b, log)]) w'.disk)
    (h : I [] w.disk) : ∃ done w', done.map Prod.fst = l ∧
      l.mapM f w = (.ok (done.map fun x => x.2.1), w') ∧
      w'.beyond.2 = w.beyond.2 ++ done.flatMap (fun x => x.2.2) ∧ I done w'.disk := by
  obtain ⟨pairs, w', hpairs, hrun, done, rfl, hlog, hend⟩ := exists_mapM (l := l) (f := f) (s := w)
    (I := fun pairs w' => ∃ done : List (α × β × List Exchange),
      done.map (fun x => (x.1, x.2.1)) = pairs ∧
      w'.beyond.2 = w.beyond.2 ++ done.flatMap (fun x => x.2.2) ∧ I done w'.disk)
    (fun {before a after w'} hl hbefore => by
      obtain ⟨done, rfl, hlog, hend⟩ := hbefore
      rw [List.map_map] at hl
      obtain ⟨b, log, w'', hrun, hadded, hend'⟩ := hstep hl hend
      refine ⟨b, w'', hrun, done ++ [(a, b, log)], List.map_append, ?_, hend'⟩
      rw [hadded, hlog, List.flatMap_append, List.flatMap_singleton, List.append_assoc])
    ⟨[], rfl, by rw [List.flatMap_nil, List.append_nil], h⟩
  rw [List.map_map] at hpairs hrun
  exact ⟨done, w', hpairs, hrun, hlog, hend⟩

namespace MasterFiles

/-- The request for a listing. -/
def listingRequest (name env : Bytes) : Message := .ofList [("env", .bytes env), ("cmd", .bytes name)]

/-- A command is one exchange. -/
theorem command_recorded (m : MasterFiles σ) (request : Message) (w : World (σ × List Exchange)) :
    ∃ x beyond, x.request = request ∧ x.answer = (m.ask request w.beyond.1).1 ∧
      m.recorded.command request w = (x.outcome, ⟨w.disk, beyond, w.beyond.2 ++ [x]⟩) := by
  refine ⟨⟨request, (m.ask request w.beyond.1).1⟩, (m.ask request w.beyond.1).2, rfl, rfl, ?_⟩
  have happly := command_apply m.recorded request w
  have hask : m.recorded.ask request w.beyond = _ := Master.recorded_apply m.ask request w.beyond
  rw [hask] at happly
  rw [happly, Exchange.outcome]
  cases (m.ask request w.beyond.1).1 with
  | ok reply => rfl
  | error e => cases e <;> rfl

/-- A listing is one exchange: it is nothing when that timed out, and what is listed else. -/
theorem listing_recorded {l : List Bytes}
    (h : m.Replies (listingRequest name env) fun reply => reply.list "return" = l)
    (w : World (σ × List Exchange)) :
    ∃ x beyond, x.request = listingRequest name env ∧
      m.recorded.listing name env w =
        (.ok (if x.TimedOut then none else some l), ⟨w.disk, beyond, w.beyond.2 ++ [x]⟩) := by
  obtain ⟨x, beyond, hrequest, hanswer, hrun⟩ :=
    command_recorded m (listingRequest name env) w
  refine ⟨x, beyond, hrequest, ?_⟩
  rcases h w.beyond.1 with ⟨what, last, htimedOut⟩ | ⟨reply, hreply, rfl⟩
  · have hcut : x.TimedOut := ⟨what, last, hanswer.trans htimedOut⟩
    rw [x.outcome_eq_none_iff.2 hcut] at hrun
    rw [if_pos hcut]
    exact Action.bind_ok hrun
  · have hok := hanswer.trans hreply
    rw [Exchange.outcome_of_ok hok] at hrun
    rw [if_neg (Exchange.not_timedOut_of_ok hok)]
    exact Action.bind_ok hrun

/-- A file that is stored or timed out is stored if none of its requests timed out. -/
theorem getFile_logged (hpath : r.path = VirtualPath.mark ++ relative) (w : World (σ × List Exchange))
    (hresult : (m.getFile r w.plain).1 = .ok .timeout ∨ (m.getFile r w.plain).1 = .ok (.stored place)) :
    ∃ log w', m.recorded.getFile r w =
        (.ok (if ∃ x ∈ log, x.TimedOut then .timeout else .stored place), w') ∧
      w'.beyond.2 = w.beyond.2 ++ log ∧ w'.disk = (m.getFile r w.plain).2.disk ∧
      ∀ x ∈ log, x.request.bytesOr "path" [] = relative ∧
        x.request.bytesOr "cmd" [] = Bytes.ofString "_serve_file" := by
  have hrecorded := getFile_recorded m r w
  have htimedOut := getFile_timeout_iff m r w.plain
  refine ⟨m.exchanges r w.plain, (m.recorded.getFile r w).2, Prod.ext ?_ rfl, log_getFile m r w,
    by rw [hrecorded]; rfl, fun x hx => ?_⟩
  · have hsame : (m.recorded.getFile r w).1 = (m.getFile r w.plain).1 := by rw [hrecorded]
    rw [hsame]
    rcases hresult with htimeout | hstored
    · rw [if_pos (htimedOut.1 htimeout), htimeout]
    · have hnone : ¬∃ x ∈ m.exchanges r w.plain, x.TimedOut := fun hsome => by
        cases hstored.symm.trans (htimedOut.2 hsome)
      rw [if_neg hnone, hstored]
  · obtain ⟨relative', k, s, hstrip, hrequest, -⟩ := request_of_mem_exchanges hx
    obtain rfl : relative = relative' :=
      Option.some.inj ((VirtualPath.strip?_eq_some_iff.2 hpath).symm.trans hstrip)
    have hasks := asksFor_pieceRequest r relative k
    rw [hrequest, Message.bytesOr, Message.bytesOr, hasks.path, hasks.cmd]
    exact ⟨rfl, rfl⟩

end MasterFiles

/-! ## Requests of their own -/

/-- A file below some names was asked for by requests of its own, and what it brought was nothing if one
of them timed out. -/
structure Brings (above : List Bytes) (place : List Bytes → β) (nothing : β)
    (x : (List Bytes × Bytes) × β × List Exchange) : Prop where
  asks : ∀ e ∈ x.2.2, e.request.bytesOr "path" [] = listed (above ++ x.1.1) ∧
    e.request.bytesOr "cmd" [] = Bytes.ofString "_serve_file"
  result : x.2.1 = if ∃ e ∈ x.2.2, e.TimedOut then nothing else place x.1.1

variable {runs : List ((List Bytes × Bytes) × β × List Exchange)} {place : List Bytes → β}
  {nothing : β}

/-- Whether a file was within reach can be told by its path from all that was exchanged. -/
theorem answered_path_iff (hruns : ∀ x ∈ runs, Brings above place nothing x)
    (hnodup : (runs.map fun x => listed (above ++ x.1.1)).Nodup)
    (hbefore : Answered before "path" value) (hafter : Answered after "path" value)
    {x : (List Bytes × Bytes) × β × List Exchange} (hx : x ∈ runs)
    (hvalue : listed (above ++ x.1.1) = value) :
    Answered (before ++ runs.flatMap (fun x => x.2.2) ++ after) "path" value ↔
      ¬∃ e ∈ x.2.2, e.TimedOut := by
  rw [answered_append, answered_append]
  constructor
  · rintro ⟨⟨-, hanswered⟩, -⟩ ⟨e, he, htimedOut⟩
    have hpath := ((hruns x hx).asks e he).1
    exact hanswered e (List.mem_flatMap.2 ⟨x, hx, he⟩) (hpath.trans hvalue) htimedOut
  · intro hnone
    refine ⟨⟨hbefore, fun e he hpath htimedOut => ?_⟩, hafter⟩
    obtain ⟨y, hy, he⟩ := List.mem_flatMap.1 he
    have hsame : listed (above ++ y.1.1) = listed (above ++ x.1.1) :=
      ((hruns y hy).asks e he).1.symm.trans (hpath.trans hvalue.symm)
    obtain rfl := List.inj_on_of_nodup_map hnodup hy hx hsame
    exact hnone ⟨e, he, htimedOut⟩

/-- Files that were asked for one after the other brought what was within reach of the record. -/
theorem results_eq (hruns : ∀ x ∈ runs, Brings above place nothing x)
    (hnodup : (runs.map fun x => listed (above ++ x.1.1)).Nodup)
    (hothers : ∀ x ∈ runs, Answered before "path" (listed (above ++ x.1.1)) ∧
      Answered after "path" (listed (above ++ x.1.1))) :
    runs.map (fun x => x.2.1) = (runs.map Prod.fst).map fun f =>
      if Answered (before ++ runs.flatMap (fun x => x.2.2) ++ after) "path" (listed (above ++ f.1))
      then place f.1 else nothing := by
  rw [List.map_map]
  refine List.map_congr_left fun x hx => ?_
  obtain ⟨hbefore, hafter⟩ := hothers x hx
  have hiff := answered_path_iff hruns hnodup hbefore hafter hx rfl
  rw [(hruns x hx).result]
  by_cases hnone : ∃ e ∈ x.2.2, e.TimedOut
  · rw [if_pos hnone]
    exact (if_neg fun hanswered => hiff.1 hanswered hnone).symm
  · rw [if_neg hnone]
    exact (if_pos (hiff.2 hnone)).symm

/-- The requests for files say nothing of a listing. -/
theorem answered_cmd_of_brings (hruns : ∀ x ∈ runs, Brings above place nothing x)
    (hvalue : Bytes.ofString "_serve_file" ≠ value) :
    Answered (before ++ runs.flatMap (fun x => x.2.2) ++ after) "cmd" value ↔
      Answered before "cmd" value ∧ Answered after "cmd" value := by
  have hserved : Answered (runs.flatMap fun x => x.2.2) "cmd" value := by
    refine answered_of_ne fun e he => ?_
    obtain ⟨x, hx, he⟩ := List.mem_flatMap.1 he
    rw [((hruns x hx).asks e he).2]
    exact hvalue
  rw [answered_append, answered_append, and_iff_left hserved]

end FileCourier
