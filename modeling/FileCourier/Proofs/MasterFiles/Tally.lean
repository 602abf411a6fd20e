import FileCourier.MasterFiles
import FileCourier.Proofs.Action
import FileCourier.Proofs.Download

/-!
# What the replies for one file amount to

`Tally` is the course of a download told by the replies alone: the bytes taken since the file was
last empty, and how many digests did not match. `respond_of_tracks` shows that an open download
goes through the disk as its tally goes through the replies.
-/

namespace FileCourier.MasterFiles

/-- What a reply without data says of the bytes that were taken. -/
inductive Verdict where
  | unannounced
  | matched
  | mismatched
  | undigested (cause : DigestError)
  deriving DecidableEq

/-- The verdict of a reply without data: no digest, the digest of the content, another one, or one
under a name for which there is no digest of the content. -/
def verdict (l : Digests) (content : Bytes) (reply : Message) : Verdict :=
  match announced reply with
  | none => .unannounced
  | some record =>
    match l.hexOf record.algorithm content with
    | .error cause => .undigested cause
    | .ok sum => if sum = record.sum then .matched else .mismatched

/-- The bytes taken since the file was last opened or emptied, and how often it was emptied because
of a digest. -/
structure Tally where
  content : Bytes := []
  mismatches : Nat := 0
  deriving DecidableEq

/-- What follows an answer. -/
inductive Tally.Next where
  | more (t : Tally)
  | stored
  | timeout
  | fault (e : Fault)
  deriving DecidableEq

/-- What an answer brings: a piece is added, the file is complete, or it is emptied and asked for
again. A file that does not match for the third time is kept. -/
def Tally.next (l : Digests) (r : FileRequest) (t : Tally) : Except Fault Message → Next
  | .error (.unreachable _ _) => .timeout
  | .error e => .fault e
  | .ok reply =>
    match reply.bytesOr "data" [] with
    | [] =>
      match verdict l t.content reply with
      | .unannounced | .matched => .stored
      | .mismatched =>
        if t.mismatches + 1 < maxAttempts then .more ⟨[], t.mismatches + 1⟩ else .stored
      | .undigested cause => .fault (.digest cause)
    | data =>
      match pieceOf r reply data with
      | .ok piece => .more { t with content := t.content ++ piece }
      | .error e => .fault (.gzip e)

variable {l : Digests}

/-- A download goes on after a piece, which is added, or after one of the first mismatches, which
empties the file. -/
theorem Tally.next_more {r : FileRequest} {t t' : Tally} {answer : Except Fault Message}
    (h : t.next l r answer = .more t') :
    ∃ reply, answer = .ok reply ∧
      ((reply.bytesOr "data" [] ≠ [] ∧ t'.mismatches = t.mismatches) ∨
        (reply.bytesOr "data" [] = [] ∧ verdict l t.content reply = .mismatched ∧
          t.mismatches + 1 < maxAttempts ∧ t' = ⟨[], t.mismatches + 1⟩)) := by
  cases answer with
  | error e => cases e <;> cases h
  | ok reply =>
    refine ⟨reply, rfl, ?_⟩
    rw [next] at h
    cases hdata : reply.bytesOr "data" [] with
    | nil =>
      simp only [hdata] at h
      right
      cases hverdict : verdict l t.content reply with
      | mismatched =>
        simp only [hverdict] at h
        split at h
        · rename_i hfew
          cases h
          exact ⟨rfl, rfl, hfew, rfl⟩
        · cases h
      | unannounced | matched | undigested =>
        simp only [hverdict] at h
        cases h
    | cons byte bytes =>
      simp only [hdata] at h
      left
      split at h <;> cases h
      exact ⟨List.cons_ne_nil _ _, rfl⟩

/-- A file is stored on a reply without data that announces no digest or that of the content, or on
the last mismatch. -/
theorem Tally.next_stored {r : FileRequest} {t : Tally} {answer : Except Fault Message}
    (h : t.next l r answer = .stored) :
    ∃ reply, answer = .ok reply ∧ reply.bytesOr "data" [] = [] ∧
      (verdict l t.content reply = .unannounced ∨ verdict l t.content reply = .matched ∨
        verdict l t.content reply = .mismatched ∧ maxAttempts ≤ t.mismatches + 1) := by
  cases answer with
  | error e => cases e <;> cases h
  | ok reply =>
    refine ⟨reply, rfl, ?_⟩
    rw [next] at h
    cases hdata : reply.bytesOr "data" [] with
    | nil =>
      simp only [hdata] at h
      refine ⟨rfl, ?_⟩
      cases hverdict : verdict l t.content reply with
      | unannounced => exact .inl rfl
      | matched => exact .inr (.inl rfl)
      | mismatched =>
        simp only [hverdict] at h
        split at h
        · cases h
        · rename_i hmany
          exact .inr (.inr ⟨rfl, Nat.not_lt.1 hmany⟩)
      | undigested =>
        simp only [hverdict] at h
        cases h
    | cons byte bytes =>
      simp only [hdata] at h
      split at h <;> cases h

/-- A download that is open at `dest` and holds what its tally says. -/
structure Tracks (dest : Path) (t : Tally) (d : Download) (disk : Disk) : Prop where
  holds : d.Holds disk t.content
  dest_eq : d.dest = dest
  attempts_eq : d.attempts = t.mismatches

variable {σ : Type} {m : MasterFiles σ} {r : FileRequest} {dest : Path} {t : Tally} {d : Download}
  {disk : Disk}

/-- What a download makes of an answer. -/
def respond (m : MasterFiles σ) (r : FileRequest) (relative : Bytes) (d : Download) :
    Except Fault Message → Action Disk Turn
  | .ok reply => m.take r relative d reply
  | .error (.unreachable _ _) => return .done .timeout
  | .error e => throw e

/-- A step of a download, by what follows in its tally. -/
def Tally.Next.Realised (dest : Path) (disk : Disk) (step : Except Fault Turn × Disk) : Next → Prop
  | .more t => ∃ d disk', step = (.ok (.more d), disk') ∧ Tracks dest t d disk'
  | .stored => step = (.ok (.done (.stored dest)), disk)
  | .timeout => step = (.ok (.done .timeout), disk)
  | .fault e => step = (.error e, disk)

theorem verifies_of_holds {s : Bytes} (h : d.Holds disk s) (record : DigestRecord) :
    record.verifies l disk d.dest =
      match l.hexOf record.algorithm s with
      | .ok sum => .ok (sum == record.sum)
      | .error cause => .error (.digest cause) := by
  obtain ⟨x, hentry⟩ := h.entryAt?
  simp only [DigestRecord.verifies, DigestRecord.ofFile, hentry]
  cases l.hexOf record.algorithm s <;> rfl

theorem conclude_of_announced {reply : Message} {record : DigestRecord}
    (h : announced reply = some record) : m.conclude d reply disk =
      (Action.ofExcept id (record.verifies m.digests disk d.dest) >>= fun good =>
        if good || decide (maxAttempts ≤ d.attempts + 1) then pure (.done (.stored d.dest))
        else Download.act d.countAttempt.restart >>= fun d => pure (.more d) : Action Disk Turn)
        disk := by
  rw [conclude, h]
  rfl

/-- The end of a pass over an open download. -/
theorem conclude_of_tracks (h : Tracks dest t d disk) {reply : Message}
    (hdata : reply.bytesOr "data" [] = []) :
    (t.next m.digests r (.ok reply)).Realised dest disk (m.conclude d reply disk) := by
  rw [Tally.next, hdata]
  cases hannounced : announced reply with
  | none =>
    simp only [conclude, verdict, hannounced, ← h.dest_eq]
    rfl
  | some record =>
    have hverifies := verifies_of_holds (l := m.digests) h.holds record
    rw [conclude_of_announced hannounced]
    cases hhex : m.digests.hexOf record.algorithm t.content with
    | error cause =>
      rw [hhex] at hverifies
      simp only [verdict, hannounced, hhex]
      exact Action.bind_error (Action.ofExcept_error hverifies)
    | ok sum =>
      rw [hhex] at hverifies
      rw [Action.bind_ok (Action.ofExcept_ok hverifies), h.attempts_eq, h.dest_eq]
      by_cases hsum : sum = record.sum
      · simp only [verdict, hannounced, hhex, hsum, beq_self_eq_true, Bool.true_or]
        rfl
      · have hne : (sum == record.sum) = false := by simpa using hsum
        simp only [verdict, hannounced, hhex, if_neg hsum, hne, Bool.false_or, decide_eq_true_eq]
        by_cases hlast : maxAttempts ≤ t.mismatches + 1
        · rw [if_pos hlast, if_neg (Nat.not_lt.2 hlast)]
          rfl
        · rw [if_neg hlast, if_pos (Nat.not_le.1 hlast)]
          have hcounted : d.countAttempt.Holds disk t.content := ⟨h.holds.file, h.holds.offset⟩
          obtain ⟨d', disk', hrestart, hholds, hdest, hattempts⟩ := hcounted.restart
          rw [Action.bind_ok hrestart]
          refine ⟨d', disk', rfl, hholds, hdest.trans h.dest_eq, hattempts.trans ?_⟩
          exact congrArg (· + 1) h.attempts_eq

theorem takeEnd_of_isOpen (m : MasterFiles σ) (r : FileRequest) (h : d.isOpen = true)
    (reply : Message) : m.takeEnd r d reply = m.conclude d reply := if_pos h

theorem takePiece_of_isOpen (m : MasterFiles σ) (r : FileRequest) (relative : Bytes)
    (h : d.isOpen = true) (reply : Message) (data : Bytes) :
    m.takePiece r relative d reply data =
      (Action.ofExcept .gzip (pieceOf r reply data) >>= fun piece =>
        Download.act (d.write piece) >>= fun d => pure (.more d) : Action Disk Turn) := by
  rw [takePiece, if_pos h]
  rfl

/-- An open download goes on as its tally does. -/
theorem respond_of_tracks (m : MasterFiles σ) (r : FileRequest) (relative : Bytes)
    (h : Tracks dest t d disk) (answer : Except Fault Message) :
    (t.next m.digests r answer).Realised dest disk (m.respond r relative d answer disk) := by
  cases answer with
  | error e => cases e <;> rfl
  | ok reply =>
    rw [respond, take]
    cases hdata : reply.bytesOr "data" [] with
    | nil =>
      simp only [takeEnd_of_isOpen m r h.holds.isOpen]
      exact conclude_of_tracks h hdata
    | cons byte bytes =>
      simp only [takePiece_of_isOpen m r relative h.holds.isOpen, Tally.next, hdata]
      cases hdecoded : pieceOf r reply (byte :: bytes) with
      | error e => exact Action.bind_error rfl
      | ok piece =>
        obtain ⟨d', disk', hwrite, hholds, hdest, hattempts⟩ := h.holds.write piece
        have hwritten : (Action.ofExcept .gzip (.ok piece : Except GzipError Bytes) >>= fun piece =>
            Download.act (d.write piece) >>= fun d => pure (Turn.more d) : Action Disk Turn) disk =
            (.ok (.more d'), disk') := by
          rw [Action.bind_ok (Action.ofExcept_ok rfl), Action.bind_ok hwrite]
          rfl
        exact ⟨d', disk', hwritten, hholds, hdest.trans h.dest_eq, hattempts.trans h.attempts_eq⟩

end FileCourier.MasterFiles
