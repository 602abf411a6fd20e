import FileCourier.Proofs.Attempt
import FileCourier.Proofs.Frame
import FileCourier.Rehearsal.ScriptedLine

/-!
# Trying again

A channel makes one try after the other until one brings a reply (`tried`), and what it comes to is what
the last of them came to (`outcome`). It gives each try the same frame, as a dialer that keeps a record
sees it; the record changes nothing else (`channel_recorded`).
-/

namespace FileCourier

variable {σ : Type}

/-- The dialer together with a record of what it was given for each try, in order. -/
def Dialer.recorded (dial : Dialer σ) : Dialer (σ × List (Endpoint × Int × Bytes)) :=
  fun e timeout frame s =>
    match dial e timeout frame s.1 with
    | (a, t) => (a, t, s.2 ++ [(e, timeout, frame)])

namespace Line

open FileCourier.Action FileCourier.Rehearsal

theorem tryUpTo_recorded (dial : Dialer σ) (e : Endpoint) (timeout : Int) (frame : Bytes) (n : Nat)
    (last : NetworkError) :
    Mirrors Prod.fst (tryUpTo (dial e timeout frame) n last)
      (tryUpTo (dial.recorded e timeout frame) n last) := by
  induction n generalizing last with
  | zero => exact mirrors_pure _
  | succ n ih =>
    refine Mirrors.bind (fun _ => rfl) fun a => ?_
    cases a.reply with
    | ok reply => exact mirrors_pure _
    | error last => exact ih last

/-- The record changes nothing else. -/
theorem channel_recorded (dial : Dialer σ) (e : Endpoint) (p : Parcel) :
    Mirrors Prod.fst (channel dial e p) (channel dial.recorded e p) := by
  rw [channel, channel]
  cases (Frame.mk p.kind p.payload).write? with
  | none => exact mirrors_throw _
  | some frame =>
    refine (tryUpTo_recorded dial e p.timeout frame _ _).bind fun r => ?_
    cases r with
    | ok reply => exact mirrors_pure _
    | error last => exact mirrors_throw _

/-! ## Tries along a script -/

/-- The tries that are made of a script, at most `n`: up to the first that brings a reply. When the
script is used up the connection is refused. -/
def tried : Nat → List Attempt → List Attempt
  | 0, _ => []
  | n + 1, script =>
    let a := script.headD (.fails .connecting)
    match a.reply with
    | .ok _ => [a]
    | .error _ => a :: tried n script.tail

theorem length_tried (n : Nat) (script : List Attempt) :
    (tried n script).length =
      match script.findIdx? (fun a => a.reply.isOk) with
      | some i => min n (i + 1)
      | none => n := by
  induction n generalizing script with
  | zero => cases script.findIdx? (fun a => a.reply.isOk) <;> simp [tried]
  | succ n ih =>
    cases script with
    | nil =>
      have hrest := ih []
      rw [List.findIdx?_nil] at hrest ⊢
      rw [tried]
      exact congrArg (· + 1) hrest
    | cons a script =>
      rw [tried, List.findIdx?_cons, List.headD_cons]
      cases a.reply with
      | ok reply => simp [Except.isOk, Except.toBool]
      | error e =>
        dsimp only
        rw [List.length_cons, List.tail_cons, ih script]
        cases script.findIdx? (fun a => a.reply.isOk) <;> simp [Except.isOk, Except.toBool]

theorem eq_getD_of_tried {n : Nat} {script : List Attempt} {i : Nat} {a : Attempt}
    (h : (tried n script)[i]? = some a) : a = script.getD i (.fails .connecting) := by
  induction n generalizing script i with
  | zero => cases h
  | succ n ih =>
    have hfirst : script.headD (.fails .connecting) = script.getD 0 (.fails .connecting) := by
      cases script <;> rfl
    have hlater : script.tail.getD (i - 1) (.fails .connecting) =
        script.getD (i - 1 + 1) (.fails .connecting) := by
      cases script <;> rfl
    rw [tried] at h
    cases hreply : (script.headD (.fails .connecting)).reply with
    | ok reply =>
      simp only [hreply] at h
      cases i with
      | zero => exact (Option.some.inj h).symm.trans hfirst
      | succ i => cases h
    | error e =>
      simp only [hreply] at h
      cases i with
      | zero => exact (Option.some.inj h).symm.trans hfirst
      | succ i => exact (ih h).trans hlater

/-- What tries come to: what the last of them came to, or `last` if there is none. -/
def outcome (last : NetworkError) (tries : List Attempt) : Except NetworkError Bytes :=
  match tries.getLast? with
  | none => .error last
  | some a => a.reply

theorem outcome_cons {a : Attempt} {e : NetworkError} (ha : a.reply = .error e) (last : NetworkError)
    (tries : List Attempt) : outcome last (a :: tries) = outcome e tries := by
  rw [outcome, outcome, List.getLast?_cons]
  cases tries.getLast? with
  | none => exact ha
  | some b => rfl

/-- What the channel makes of its tries. -/
def verdict (e : Endpoint) (tries : List Attempt) : Except Fault Bytes :=
  match outcome .timeout tries with
  | .ok reply => .ok reply
  | .error last => .error (.unreachable ("Request to " ++ e.text ++ " timed out") last)

/-- What is seen of a try. -/
def sights (e : Endpoint) (frame : Bytes) (a : Attempt) : List Sight :=
  .resolving e :: if a.wrote then [.wrote frame] else []

/-- The script after some tries have been made of it. -/
def after (e : Endpoint) (frame : Bytes) (tries : List Attempt) (s : ScriptedLine) : ScriptedLine :=
  ⟨s.attempts.drop tries.length, s.seen ++ tries.flatMap (sights e frame)⟩

variable {e : Endpoint} {frame : Bytes} {timeout : Int} {p : Parcel}

theorem after_cons (a : Attempt) (tries : List Attempt) (s : ScriptedLine) :
    after e frame (a :: tries) s =
      after e frame tries ⟨s.attempts.tail, s.seen ++ sights e frame a⟩ := by
  simp [after, List.drop_tail]

theorem dial_recorded (s : ScriptedLine) (log : List (Endpoint × Int × Bytes)) :
    Dialer.recorded ScriptedLine.dial e timeout frame (s, log) =
      (.ok (s.attempts.headD (.fails .connecting)),
        ⟨s.attempts.tail, s.seen ++ sights e frame (s.attempts.headD (.fails .connecting))⟩,
        log ++ [(e, timeout, frame)]) := rfl

/-- Each try takes the next attempt of the script, and is given the same frame. -/
theorem tryUpTo_scripted (n : Nat) (last : NetworkError) (s : ScriptedLine)
    (log : List (Endpoint × Int × Bytes)) :
    tryUpTo (Dialer.recorded ScriptedLine.dial e timeout frame) n last (s, log) =
      (.ok (outcome last (tried n s.attempts)), after e frame (tried n s.attempts) s,
        log ++ List.replicate (tried n s.attempts).length (e, timeout, frame)) := by
  induction n generalizing last s log with
  | zero =>
    rw [tried, after]
    simp only [List.length_nil, List.drop_zero, List.flatMap_nil, List.append_nil, List.replicate_zero]
    rfl
  | succ n ih =>
    rw [tryUpTo, bind_ok (dial_recorded s log), tried]
    cases hreply : (s.attempts.headD (.fails .connecting)).reply with
    | ok reply =>
      dsimp only
      rw [after_cons, outcome]
      simp only [List.getLast?_singleton, hreply, List.length_singleton, List.replicate_one, after,
        List.length_nil, List.drop_zero, List.flatMap_nil, List.append_nil]
      rfl
    | error err =>
      dsimp only
      rw [after_cons, outcome_cons hreply, ih, List.append_assoc, List.length_cons, List.replicate_succ]
      rfl

/-- A channel makes tries until one brings a reply, but no more than it was asked for; for each it writes
the same frame. A try brings a reply just when the size of one arrives, is not above the limit, and is
followed by as many bytes; in which pieces makes no difference. If none does, the fault carries the error
of the last try, or a timeout if there was none. -/
theorem channel_tries (e : Endpoint) (p : Parcel) (s : ScriptedLine) (hkind : p.kind.length ≤ 255) :
    (∃ frame tries,
      (Frame.mk p.kind p.payload).write? = some frame ∧
      tries.length =
        (match s.attempts.findIdx? (fun a => a.reply.isOk) with
        | some i => min p.tries.toNat (i + 1)
        | none => p.tries.toNat) ∧
      (∀ i a, tries[i]? = some a → a = s.attempts.getD i (.fails .connecting)) ∧
      channel ScriptedLine.dial e p s = (verdict e tries, after e frame tries s) ∧
      channel (Dialer.recorded ScriptedLine.dial) e p (s, []) =
        (verdict e tries, after e frame tries s,
          List.replicate tries.length (e, p.timeout, frame))) ∧
    (∀ a : Attempt, ∀ reply, a.reply = .ok reply ↔
      ∃ size rest silent, a = .answers (size ++ reply ++ rest) silent ∧
        size.length = 8 ∧ Bytes.ofBigEndian size ≤ 2 ^ 32 ∧ Bytes.ofBigEndian size = reply.length) ∧
    (∀ pieces silent, ((Attempt.dialogue pieces silent).foldl Progress.step .resolving).result =
      (Attempt.answers pieces.flatten silent).reply) ∧
    (∀ a : Attempt, a.reply = .error .malformedReply ↔
      ∃ size rest silent, a = .answers (size ++ rest) silent ∧
        size.length = 8 ∧ 2 ^ 32 < Bytes.ofBigEndian size) ∧
    ∀ a : Attempt, a.reply ≠ .error .success := by
  refine ⟨?_, fun a reply => Attempt.reply_eq_ok_iff, Attempt.result_dialogue,
    fun a => Attempt.reply_eq_malformed_iff, Attempt.reply_ne_success⟩
  have hframe := Frame.write?_of_kind (f := ⟨p.kind, p.payload⟩) hkind
  let tries := tried p.tries.toNat s.attempts
  have hrecorded : ∀ {frame}, (Frame.mk p.kind p.payload).write? = some frame →
      channel (Dialer.recorded ScriptedLine.dial) e p (s, []) =
        (verdict e tries, after e frame tries s,
          List.replicate tries.length (e, p.timeout, frame)) := by
    intro frame hframe
    rw [channel, hframe]
    dsimp only
    rw [bind_ok (tryUpTo_scripted _ _ _ _), verdict]
    cases outcome .timeout tries <;> rfl
  refine ⟨_, tries, hframe, length_tried _ _, fun i a h => eq_getD_of_tried h, ?_, hrecorded hframe⟩
  have hrun := channel_recorded ScriptedLine.dial e p (s, [])
  rwa [hrecorded hframe] at hrun

/-- A connection that is refused, one that closes within the reply, and one that brings it. -/
def droppedTwice : ScriptedLine :=
  ⟨[.fails .connecting, .answers [0, 0, 0, 0, 0, 0, 0, 2, 111] false,
    .answers [0, 0, 0, 0, 0, 0, 0, 2, 111, 107] true, .hangs .resolving], []⟩

theorem channel_tries_droppedTwice :
    (Parcel.mk "aes" "xyz" 5 60).kind.length ≤ 255 ∧
      ∃ frame tries, (Frame.mk "aes" "xyz").write? = some frame ∧ tries.length = 3 ∧
        channel ScriptedLine.dial ⟨"salt", 4506⟩ ⟨"aes", "xyz", 5, 60⟩ droppedTwice =
          (verdict ⟨"salt", 4506⟩ tries, after ⟨"salt", 4506⟩ frame tries droppedTwice) := by
  have hkind : (Parcel.mk "aes" "xyz" 5 60).kind.length ≤ 255 := by decide
  obtain ⟨⟨frame, tries, hframe, hlength, -, hrun, -⟩, -⟩ :=
    channel_tries ⟨"salt", 4506⟩ ⟨"aes", "xyz", 5, 60⟩ droppedTwice hkind
  exact ⟨hkind, frame, tries, hframe, hlength.trans (by decide), hrun⟩

end Line

end FileCourier
