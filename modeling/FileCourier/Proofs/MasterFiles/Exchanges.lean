import FileCourier.Proofs.MasterFiles.Tally

/-!
# What is asked of the master and what it answers

`exchanges` is the list of the requests of one `getFile` with their answers, as a master that keeps
a record of them sees it; the record changes nothing else (`getFile_recorded`). Once the file is
open, the exchanges follow the tally of the answers (`Course`, `exists_course`).
-/

namespace FileCourier

/-- One request and the answer to it. -/
structure Exchange where
  request : Message
  answer : Except Fault Message

/-- The master could not be reached. -/
def Exchange.TimedOut (x : Exchange) : Prop :=
  ∃ what last, x.answer = .error (.unreachable what last)

/-- The decision of `TimedOut`. -/
def Exchange.timedOut (x : Exchange) : Bool :=
  match x.answer with
  | .error (.unreachable _ _) => true
  | _ => false

theorem Exchange.timedOut_iff {x : Exchange} : x.timedOut = true ↔ x.TimedOut := by
  rw [timedOut]
  constructor
  · intro h
    split at h
    · exact ⟨_, _, ‹_›⟩
    · cases h
  · rintro ⟨what, last, hanswer⟩
    rw [hanswer]

instance (x : Exchange) : Decidable x.TimedOut := decidable_of_iff _ Exchange.timedOut_iff

/-- The master together with a record of what it was asked and what it answered, in order. -/
def Master.recorded {σ : Type} (ask : Master σ) : Master (σ × List Exchange) :=
  fun request s =>
    match ask request s.1 with
    | (answer, beyond) => (answer, beyond, s.2 ++ [⟨request, answer⟩])

/-- The master that gives the replies of a list one after the other, and is out of reach when there
are none left. -/
def Master.playing : Master (List Message) := fun _ replies =>
  match replies with
  | [] => (.error (.unreachable [] .timeout), [])
  | reply :: replies => (.ok reply, replies)

/-- The world without the record. -/
def World.plain {σ : Type} (w : World (σ × List Exchange)) : World σ := ⟨w.disk, w.beyond.1⟩

/-- The world with a record that begins with what was exchanged before. -/
def World.after {σ : Type} (before : List Exchange) :
    World (σ × List Exchange) → World (σ × List Exchange) :=
  Action.beyondPart fun s => (s.1, before ++ s.2)

theorem Master.recorded_apply {σ : Type} (ask : Master σ) (request : Message)
    (s : σ × List Exchange) : ask.recorded request s =
      ((ask request s.1).1, (ask request s.1).2, s.2 ++ [⟨request, (ask request s.1).1⟩]) := rfl

namespace MasterFiles

variable {σ : Type} {m : MasterFiles σ} {l : Digests} {r : FileRequest} {relative : Bytes} {dest : Path}
  {t t' : Tally} {d : Download} {disk disk' : Disk} {w : World σ} {result : Except Fault Fetched}

/-- Files from the same master, whose exchanges are recorded. -/
def recorded (m : MasterFiles σ) : MasterFiles (σ × List Exchange) where
  settings := m.settings
  digests := m.digests
  ask := m.ask.recorded
  patience := m.patience

/-- Files from a master that gives the replies of a list. -/
def playing : MasterFiles (List Message) := ⟨.defaults, Digest.library, Master.playing, 10⟩

/-- The exchanges with the master during one `getFile`. -/
def exchanges (m : MasterFiles σ) (r : FileRequest) (w : World σ) : List Exchange :=
  (m.recorded.getFile r ⟨w.disk, w.beyond, []⟩).2.beyond.2

/-! ## Runs -/

theorem turn_apply (m : MasterFiles σ) (r : FileRequest) (relative : Bytes) (d : Download)
    (w : World σ) :
    m.turn r relative d w =
      match m.ask (pieceRequest r relative d.offset) w.beyond with
      | (answer, beyond) =>
        match m.respond r relative d answer w.disk with
        | (step, disk) => (step, ⟨disk, beyond⟩) := by
  rw [turn]
  cases hask : m.ask (pieceRequest r relative d.offset) w.beyond with
  | mk answer beyond =>
    have hbeyond : Action.onBeyond (m.ask (pieceRequest r relative d.offset)) w =
        (answer, { w with beyond }) := by
      rw [Action.onBeyond, hask]
    cases answer with
    | ok reply =>
      have hreached : Action.reached (Action.onBeyond (m.ask (pieceRequest r relative d.offset))) w =
          (.ok (some reply), { w with beyond }) := by
        rw [Action.reached, hbeyond]
      rw [Action.bind_ok hreached]
      rfl
    | error e =>
      cases e with
      | unreachable what last =>
        have hreached : Action.reached
            (Action.onBeyond (m.ask (pieceRequest r relative d.offset))) w =
            (.ok none, { w with beyond }) := by
          rw [Action.reached, hbeyond]
        rw [Action.bind_ok hreached]
        rfl
      | _ =>
        refine Action.bind_error ?_
        rw [Action.reached, hbeyond]

theorem fetch_succ_apply (m : MasterFiles σ) (r : FileRequest) (relative : Bytes) (n : Nat)
    (d : Download) (w : World σ) :
    m.fetch r relative (n + 1) d w =
      match m.turn r relative d w with
      | (.ok (.more d), w) => m.fetch r relative n d w
      | (.ok (.done result), w) => (.ok result, w)
      | (.error e, w) => (.error e, w) := by
  rw [fetch]
  cases hturn : m.turn r relative d w with
  | mk step w' =>
    cases step with
    | error e => exact Action.bind_error hturn
    | ok step =>
      rw [Action.bind_ok hturn]
      cases step <;> rfl

theorem getFile_apply (m : MasterFiles σ) (w : World σ)
    (h : VirtualPath.strip? r.path = some relative) :
    m.getFile r w =
      match begin r w.disk with
      | (.ok (some d), disk) => m.fetch r relative m.patience d ⟨disk, w.beyond⟩
      | (.ok none, disk) => (.ok .destinationUnavailable, ⟨disk, w.beyond⟩)
      | (.error e, disk) => (.error e, ⟨disk, w.beyond⟩) := by
  have hrelative : (Action.ofOption (.unmarked r.path) (VirtualPath.strip? r.path) :
      Action (World σ) Bytes) w = (.ok relative, w) := by
    rw [h]
    rfl
  rw [getFile, Action.bind_ok hrelative]
  cases hbegin : begin r w.disk with
  | mk begun disk =>
    have honDisk : (Action.onDisk (begin r) : Action (World σ) _) w = (begun, { w with disk }) := by
      rw [Action.onDisk, hbegin]
    cases begun with
    | error e => exact Action.bind_error honDisk
    | ok d =>
      rw [Action.bind_ok honDisk]
      cases d <;> rfl

theorem getFile_unmarked (m : MasterFiles σ) (w : World σ)
    (h : VirtualPath.strip? r.path = none) :
    m.getFile r w = (.error (.unmarked r.path), w) := by
  rw [getFile, h]
  rfl

/-- Keeping a record changes nothing else. -/
theorem fetch_recorded (m : MasterFiles σ) (r : FileRequest) (relative : Bytes) (n : Nat)
    (d : Download) (w : World (σ × List Exchange)) :
    m.fetch r relative n d w.plain =
      ((m.recorded.fetch r relative n d w).1, (m.recorded.fetch r relative n d w).2.plain) := by
  induction n generalizing d w with
  | zero => rfl
  | succ n ih =>
    have hturn : m.turn r relative d w.plain =
        ((m.recorded.turn r relative d w).1, (m.recorded.turn r relative d w).2.plain) := by
      rw [turn_apply, turn_apply]
      rfl
    rw [fetch_succ_apply, fetch_succ_apply, hturn]
    cases m.recorded.turn r relative d w with
    | mk step w' =>
      cases step with
      | error e => rfl
      | ok step =>
        cases step with
        | more d' => exact ih d' w'
        | done result => rfl

/-- Keeping a record changes nothing else. -/
theorem getFile_recorded (m : MasterFiles σ) (r : FileRequest)
    (w : World (σ × List Exchange)) :
    m.getFile r w.plain = ((m.recorded.getFile r w).1, (m.recorded.getFile r w).2.plain) := by
  cases hstrip : VirtualPath.strip? r.path with
  | none => rw [getFile_unmarked m w.plain hstrip, getFile_unmarked m.recorded w hstrip]
  | some relative =>
    rw [getFile_apply m w.plain hstrip, getFile_apply m.recorded w hstrip]
    have hdisk : w.plain.disk = w.disk := rfl
    rw [hdisk]
    cases begin r w.disk with
    | mk begun disk =>
      cases begun with
      | error e => rfl
      | ok d =>
        cases d with
        | none => rfl
        | some d => exact fetch_recorded m r relative m.patience d ⟨disk, w.beyond⟩

/-! ## What is recorded -/

theorem log_turn (m : MasterFiles σ) (r : FileRequest) (relative : Bytes) (d : Download)
    (w : World (σ × List Exchange)) :
    (m.recorded.turn r relative d w).2.beyond.2 = w.beyond.2 ++
      [⟨pieceRequest r relative d.offset, (m.ask (pieceRequest r relative d.offset) w.beyond.1).1⟩] := by
  rw [turn_apply]
  rfl

/-- What is added to the record is a request for a piece and an answer of the master to it. -/
theorem answer_of_mem_log_fetch (m : MasterFiles σ) (r : FileRequest) (relative : Bytes) (n : Nat)
    (d : Download) (w : World (σ × List Exchange)) {x : Exchange}
    (h : x ∈ (m.recorded.fetch r relative n d w).2.beyond.2) :
    x ∈ w.beyond.2 ∨
      ∃ k s, x.request = pieceRequest r relative k ∧ x.answer = (m.ask x.request s).1 := by
  induction n generalizing d w with
  | zero => exact .inl h
  | succ n ih =>
    have hlog := log_turn m r relative d w
    have mem {w' : World (σ × List Exchange)} (hw' : w'.beyond.2 = w.beyond.2 ++
        [⟨pieceRequest r relative d.offset,
          (m.ask (pieceRequest r relative d.offset) w.beyond.1).1⟩]) (h : x ∈ w'.beyond.2) :
        x ∈ w.beyond.2 ∨
          ∃ k s, x.request = pieceRequest r relative k ∧ x.answer = (m.ask x.request s).1 := by
      rw [hw'] at h
      rcases List.mem_append.1 h with h | h
      · exact .inl h
      · obtain rfl := List.mem_singleton.1 h
        exact .inr ⟨d.offset, w.beyond.1, rfl, rfl⟩
    rw [fetch_succ_apply] at h
    cases hturn : m.recorded.turn r relative d w with
    | mk step w' =>
      rw [hturn] at h hlog
      cases step with
      | error e => exact mem hlog h
      | ok step =>
        cases step with
        | done result => exact mem hlog h
        | more d' =>
          rcases ih d' w' h with h | h
          · exact mem hlog h
          · exact .inr h

/-- The exchanges of a `getFile` are requests for pieces of its file, answered by the master. -/
theorem request_of_mem_exchanges {x : Exchange} (h : x ∈ m.exchanges r w) :
    ∃ relative k s, VirtualPath.strip? r.path = some relative ∧
      x.request = pieceRequest r relative k ∧ x.answer = (m.ask x.request s).1 := by
  rw [exchanges] at h
  cases hstrip : VirtualPath.strip? r.path with
  | none =>
    rw [getFile_unmarked m.recorded _ hstrip] at h
    cases h
  | some relative =>
    rw [getFile_apply m.recorded _ hstrip] at h
    cases hbegin : begin r w.disk with
    | mk begun disk =>
      simp only [hbegin] at h
      cases begun with
      | error e => cases h
      | ok d =>
        cases d with
        | none => cases h
        | some d =>
          rcases answer_of_mem_log_fetch m r relative _ d _ h with h | ⟨k, s, hrequest, hanswer⟩
          · cases h
          · exact ⟨relative, k, s, rfl, hrequest, hanswer⟩

/-- Every answer in the exchanges of a `getFile` is one of the master. -/
theorem answer_of_mem_exchanges {x : Exchange} (h : x ∈ m.exchanges r w) :
    ∃ s, x.answer = (m.ask x.request s).1 := by
  obtain ⟨relative, k, s, -, -, hanswer⟩ := request_of_mem_exchanges h
  exact ⟨s, hanswer⟩

theorem mirrors_turn_after (m : MasterFiles σ) (before : List Exchange) (r : FileRequest)
    (relative : Bytes) (d : Download) :
    Action.Mirrors (World.after before) (m.recorded.turn r relative d)
      (m.recorded.turn r relative d) := by
  have hask : Action.Mirrors (fun s : σ × List Exchange => (s.1, before ++ s.2))
      (m.recorded.ask (pieceRequest r relative d.offset))
      (m.recorded.ask (pieceRequest r relative d.offset)) := fun s => by
    change m.ask.recorded _ _ = ((m.ask.recorded _ _).1, (m.ask.recorded _ _).2.1,
      before ++ (m.ask.recorded _ _).2.2)
    rw [Master.recorded_apply, Master.recorded_apply, List.append_assoc]
  refine Action.Mirrors.bind hask.onBeyond.reached fun reply => ?_
  cases reply with
  | none => exact Action.mirrors_pure _
  | some reply => exact Action.mirrors_onDisk _

theorem mirrors_getFile_after (m : MasterFiles σ) (before : List Exchange) (r : FileRequest) :
    Action.Mirrors (World.after before) (m.recorded.getFile r) (m.recorded.getFile r) := by
  have mirrors_fetch (relative : Bytes) (n : Nat) (d : Download) : Action.Mirrors (World.after before)
      (m.recorded.fetch r relative n d) (m.recorded.fetch r relative n d) := by
    induction n generalizing d with
    | zero => exact Action.mirrors_throw _
    | succ n ih =>
      refine (mirrors_turn_after m before r relative d).bind fun step => ?_
      cases step with
      | more d => exact ih d
      | done result => exact Action.mirrors_pure _
  refine (Action.mirrors_ofOption _ _).bind fun relative => ?_
  refine Action.Mirrors.bind (Action.mirrors_onDisk _) fun d => ?_
  cases d with
  | none => exact Action.mirrors_pure _
  | some d => exact mirrors_fetch relative _ d

/-- The exchanges of a `getFile` are added to what was recorded before. -/
theorem log_getFile (m : MasterFiles σ) (r : FileRequest) (w : World (σ × List Exchange)) :
    (m.recorded.getFile r w).2.beyond.2 = w.beyond.2 ++ m.exchanges r w.plain := by
  have hafter := mirrors_getFile_after m w.beyond.2 r ⟨w.disk, w.beyond.1, []⟩
  have hworld : World.after w.beyond.2 ⟨w.disk, w.beyond.1, []⟩ = w := by
    rw [World.after, Action.beyondPart, List.append_nil]
  rw [hworld] at hafter
  rw [hafter]
  rfl

/-! ## The course of an open download -/

/-- The exchanges of a download that is open at `dest`, with its result, from one tally to another,
when so many replies are awaited: each request asks for the piece behind the content so far. -/
inductive Course (l : Digests) (r : FileRequest) (relative : Bytes) (dest : Path) :
    Nat → Tally → List Exchange → Except Fault Fetched → Tally → Prop
  | impatient {t : Tally} : Course l r relative dest 0 t [] (.error .impatient) t
  | stored {n : Nat} {t : Tally} {answer : Except Fault Message} : t.next l r answer = .stored →
      Course l r relative dest (n + 1) t [⟨pieceRequest r relative t.content.length, answer⟩]
        (.ok (.stored dest)) t
  | timeout {n : Nat} {t : Tally} {answer : Except Fault Message} : t.next l r answer = .timeout →
      Course l r relative dest (n + 1) t [⟨pieceRequest r relative t.content.length, answer⟩]
        (.ok .timeout) t
  | fault {n : Nat} {t : Tally} {answer : Except Fault Message} {e : Fault} :
      t.next l r answer = .fault e →
      Course l r relative dest (n + 1) t [⟨pieceRequest r relative t.content.length, answer⟩]
        (.error e) t
  | more {n : Nat} {t t' t'' : Tally} {answer : Except Fault Message} {log : List Exchange}
      {result : Except Fault Fetched} : t.next l r answer = .more t' →
      Course l r relative dest n t' log result t'' →
      Course l r relative dest (n + 1) t (⟨pieceRequest r relative t.content.length, answer⟩ :: log)
        result t''

/-- A course stores no file but its own. -/
theorem Course.dest_of_stored {n : Nat} {log : List Exchange} {path : Path}
    (h : Course l r relative dest n t log result t') (hstored : result = .ok (.stored path)) :
    path = dest := by
  induction h with
  | stored =>
    cases hstored
    rfl
  | more _ _ ih => exact ih hstored
  | _ => cases hstored

/-- An open download runs through a course, which begins with the request that is due, and leaves
its file with the content of the last tally. -/
theorem exists_course (m : MasterFiles σ) (r : FileRequest) (relative : Bytes)
    (h : Tracks dest t d disk) (n : Nat) (beyond : σ) (log : List Exchange) :
    ∃ course result t' disk' beyond',
      m.recorded.fetch r relative n d ⟨disk, beyond, log⟩ =
        (result, ⟨disk', beyond', log ++ course⟩) ∧
      Course m.digests r relative dest n t course result t' ∧
      (∃ x, disk'.entryAt? dest = some (.file x t'.content)) ∧
      (n ≠ 0 → ∃ rest, course = ⟨pieceRequest r relative d.offset,
        (m.ask (pieceRequest r relative d.offset) beyond).1⟩ :: rest) := by
  have hfile {t : Tally} {d : Download} {disk : Disk} (h : Tracks dest t d disk) :
      ∃ x, disk.entryAt? dest = some (.file x t.content) := by
    rw [← h.dest_eq]
    exact h.holds.entryAt?
  -- `Tracks` is what a turn keeps while tally, download and disk change.
  induction n generalizing t d disk beyond log with
  | zero =>
    have hrun : m.recorded.fetch r relative 0 d ⟨disk, beyond, log⟩ =
        (.error .impatient, ⟨disk, beyond, log ++ []⟩) := by
      rw [List.append_nil]
      rfl
    exact ⟨[], _, t, disk, beyond, hrun, .impatient, hfile h, fun h => absurd rfl h⟩
  | succ n ih =>
    have hoffset := h.holds.offset
    rw [fetch_succ_apply, turn_apply, hoffset]
    cases hask : m.ask (pieceRequest r relative t.content.length) beyond with
    | mk answer beyond' =>
      have hrecorded : m.recorded.ask (pieceRequest r relative t.content.length) (beyond, log) =
          (answer, beyond', log ++ [⟨pieceRequest r relative t.content.length, answer⟩]) := by
        change m.ask.recorded _ _ = _
        rw [Master.recorded, hask]
      rw [hrecorded]
      have hstep : (t.next m.digests r answer).Realised dest disk _ :=
        respond_of_tracks m.recorded r relative h answer
      dsimp only
      cases hnext : t.next m.digests r answer with
      | stored =>
        rw [hnext, Tally.Next.Realised] at hstep
        rw [hstep]
        exact ⟨_, _, t, disk, beyond', rfl, .stored hnext, hfile h, fun _ => ⟨_, rfl⟩⟩
      | timeout =>
        rw [hnext, Tally.Next.Realised] at hstep
        rw [hstep]
        exact ⟨_, _, t, disk, beyond', rfl, .timeout hnext, hfile h, fun _ => ⟨_, rfl⟩⟩
      | fault e =>
        rw [hnext, Tally.Next.Realised] at hstep
        rw [hstep]
        exact ⟨_, _, t, disk, beyond', rfl, .fault hnext, hfile h, fun _ => ⟨_, rfl⟩⟩
      | more t' =>
        rw [hnext] at hstep
        obtain ⟨d', disk', hmore, htracks⟩ := hstep
        rw [hmore]
        obtain ⟨course, result, t'', disk'', beyond'', hrun, hcourse, hend, -⟩ :=
          ih htracks beyond' (log ++ [⟨pieceRequest r relative t.content.length, answer⟩])
        rw [← List.append_cons] at hrun
        exact ⟨_ :: course, result, t'', disk'', beyond'', hrun, .more hnext hcourse, hend,
          fun _ => ⟨_, rfl⟩⟩

end MasterFiles

end FileCourier
