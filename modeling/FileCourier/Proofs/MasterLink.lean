import FileCourier.MasterLink
import FileCourier.Proofs.Action
import FileCourier.Proofs.Cipher.Envelope
import FileCourier.Proofs.Wire.Canonical

/-!
# One request over the link

A link gives its channel one parcel for each request (`sent`, as a channel that keeps a record sees
it; the record changes nothing else, `ask_recorded`). What comes back is an answer only if it is an
envelope made under the same key around a body that can be read (`verdict_eq_ok_iff`), whatever the
channel does.
-/

namespace FileCourier

variable {σ : Type}

namespace Channel

/-- The channel together with a record of the parcels it was given, in order. -/
def recorded (send : Channel σ) : Channel (σ × List Parcel) := fun parcel s =>
  match send parcel s.1 with
  | (reply, t) => (reply, t, s.2 ++ [parcel])

/-- The channel leads to a peer that opens and reads each request, and puts the answer that `h`
gives to it into an envelope under the same key. -/
def Answers (key : SessionKey) (h : Message → Message) (send : Channel σ) : Prop :=
  ∀ parcel s body q, Envelope.unpack key parcel.payload = .ok body → Wire.read body = .ok q →
    ∃ iv t, send parcel s = (.ok (Envelope.pack key iv (Wire.write (h q))), t)

end Channel

namespace MasterLink

/-- The link over the recorded channel. -/
def recorded (link : MasterLink σ) : MasterLink (σ × List Parcel) where
  channel := link.channel.recorded
  key := link.key
  fresh s :=
    match link.fresh s.1 with
    | (iv, t) => (iv, t, s.2)
  tries := link.tries
  timeout := link.timeout

/-- The parcels that are sent for one request. -/
def sent (link : MasterLink σ) (request : Message) (s : σ) : List Parcel :=
  (link.recorded.ask request (s, [])).2.2

/-- What is sent for a request after a random block. -/
def parcel (link : MasterLink σ) (request : Message) (iv : Aes.Block) : Parcel :=
  ⟨kind, Envelope.pack link.key iv (Wire.write request), link.tries, link.timeout⟩

/-- What is made of that which the channel brings. -/
def verdict (key : SessionKey) : Except Fault Bytes → Except Fault Message
  | .error fault => .error fault
  | .ok reply =>
    match Envelope.unpack key reply with
    | .error e => .error (.envelope e)
    | .ok body =>
      match Wire.read body with
      | .error e => .error (.wire e)
      | .ok answer => .ok answer

variable {link : MasterLink σ} {key : SessionKey} {request answer : Message} {s t u : σ}
  {iv : Aes.Block} {reply : Except Fault Bytes} {fault : Fault} {log : List Parcel}

/-! ## Runs -/

theorem ask_of_not_fresh (h : link.fresh s = (.error fault, t)) :
    link.ask request s = (.error fault, t) :=
  Action.bind_error h

theorem ask_of_fresh (h : link.fresh s = (.ok iv, t))
    (hsend : link.channel (link.parcel request iv) t = (reply, u)) :
    link.ask request s = (verdict link.key reply, u) := by
  refine (Action.bind_ok h).trans ?_
  cases reply with
  | error fault => exact Action.bind_error hsend
  | ok reply =>
    refine (Action.bind_ok hsend).trans ?_
    rw [verdict]
    cases Envelope.unpack link.key reply with
    | error e => exact Action.bind_error (Action.ofExcept_error rfl)
    | ok body =>
      refine (Action.bind_ok (Action.ofExcept_ok rfl)).trans ?_
      dsimp only
      cases Wire.read body with
      | error e => exact Action.ofExcept_error rfl
      | ok answer => exact Action.ofExcept_ok rfl

theorem recorded_fresh {r : Except Fault Aes.Block} (h : link.fresh s = (r, t)) :
    link.recorded.fresh (s, log) = (r, t, log) := by
  change (match link.fresh s with | (iv, t) => (iv, t, log)) = _
  rw [h]

theorem recorded_channel {p : Parcel} (h : link.channel p s = (reply, t)) :
    link.recorded.channel p (s, log) = (reply, t, log ++ [p]) := by
  change (match link.channel p s with | (reply, t) => (reply, t, log ++ [p])) = _
  rw [h]

theorem recorded_ask_of_fresh (h : link.fresh s = (.ok iv, t))
    (hsend : link.channel (link.parcel request iv) t = (reply, u)) :
    link.recorded.ask request (s, log) =
      (verdict link.key reply, u, log ++ [link.parcel request iv]) :=
  ask_of_fresh (recorded_fresh h) (recorded_channel hsend)

/-- A record of what is sent changes nothing else. -/
theorem ask_recorded (link : MasterLink σ) (request : Message) (s : σ) (log : List Parcel) :
    link.ask request s =
      ((link.recorded.ask request (s, log)).1, (link.recorded.ask request (s, log)).2.1) := by
  cases hfresh : link.fresh s with
  | mk block t =>
    cases block with
    | error fault => rw [ask_of_not_fresh hfresh, ask_of_not_fresh (recorded_fresh hfresh)]
    | ok iv =>
      cases hsend : link.channel (link.parcel request iv) t with
      | mk reply u => rw [ask_of_fresh hfresh hsend, recorded_ask_of_fresh hfresh hsend]

theorem sent_of_not_fresh (h : link.fresh s = (.error fault, t)) : link.sent request s = [] := by
  rw [sent, ask_of_not_fresh (recorded_fresh h)]

theorem sent_of_fresh (h : link.fresh s = (.ok iv, t)) :
    link.sent request s = [link.parcel request iv] := by
  cases hsend : link.channel (link.parcel request iv) t with
  | mk reply u => rw [sent, recorded_ask_of_fresh h hsend, List.nil_append]

/-! ## Replies -/

theorem verdict_pack_eq_ok_iff {body : Bytes} :
    verdict key (.ok (Envelope.pack key iv body)) = .ok answer ↔ Wire.read body = .ok answer := by
  rw [verdict, Envelope.unpack_pack]
  dsimp only
  cases Wire.read body <;> simp

/-- The master is out of reach for a request exactly when the channel says so. -/
theorem verdict_unreachable_iff :
    (∃ what last, verdict key reply = .error (.unreachable what last)) ↔
      ∃ what last, reply = .error (.unreachable what last) := by
  cases reply with
  | error fault =>
    constructor
    · rintro ⟨what, last, ⟨⟩⟩
      exact ⟨what, last, rfl⟩
    · rintro ⟨what, last, ⟨⟩⟩
      exact ⟨what, last, rfl⟩
  | ok reply =>
    have hok : ¬∃ what last, (Except.ok reply : Except Fault Bytes) = .error (.unreachable what last) :=
      nofun
    rw [verdict, iff_false_right hok]
    rintro ⟨what, last, heq⟩
    split at heq
    · cases heq
    · split at heq <;> cases heq

/-- Only an envelope under the same key brings an answer. -/
theorem verdict_eq_ok_iff :
    verdict key reply = .ok answer ↔
      ∃ iv body, reply = .ok (Envelope.pack key iv body) ∧ Wire.read body = .ok answer := by
  constructor
  · intro h
    cases reply with
    | error fault => cases h
    | ok reply =>
      rcases Envelope.pack_or_refused key reply with ⟨iv, body, rfl⟩ | ⟨e, he⟩
      · exact ⟨iv, body, rfl, verdict_pack_eq_ok_iff.1 h⟩
      · rw [verdict, he.unpack_eq] at h
        cases h
  · rintro ⟨iv, body, rfl, hread⟩
    exact verdict_pack_eq_ok_iff.2 hread

theorem verdict_ok (key : SessionKey) (reply : Bytes) :
    (∃ answer, verdict key (.ok reply) = .ok answer) ∨
      (∃ e, verdict key (.ok reply) = .error (.envelope e)) ∨
      ∃ e, verdict key (.ok reply) = .error (.wire e) := by
  rw [verdict]
  cases Envelope.unpack key reply with
  | error e => exact .inr (.inl ⟨e, rfl⟩)
  | ok body =>
    dsimp only
    cases Wire.read body with
    | error e => exact .inr (.inr ⟨e, rfl⟩)
    | ok answer => exact .inl ⟨answer, rfl⟩

/-- A request is sent once, in an envelope that opens and reads as the request, and nothing else is
done; without a random block for it nothing is sent. The channel brings an answer just when it
brings an envelope under the same key around a body that reads as that answer. What it fails with is
passed on, and for all else the envelope or the body is to blame. So what a peer answers with `h` is
heard, as long as it is within the limits of the wire form. -/
theorem ask_exchanges_once (link : MasterLink σ) {request : Message} (hfits : Wire.Fits request)
    (s : σ) :
    (∀ fault t, link.fresh s = (.error fault, t) →
      link.ask request s = (.error fault, t) ∧ link.sent request s = []) ∧
    ∀ iv t, link.fresh s = (.ok iv, t) →
      ∃ parcel, link.sent request s = [parcel] ∧
        parcel.kind = ("aes" : String) ∧ parcel.tries = link.tries ∧
        parcel.timeout = link.timeout ∧
        (∃ body, Envelope.unpack link.key parcel.payload = .ok body ∧
          Wire.read body = .ok request) ∧
        (link.ask request s).2 = (link.channel parcel t).2 ∧
        (∀ answer, (link.ask request s).1 = .ok answer ↔
          ∃ iv body, (link.channel parcel t).1 = .ok (Envelope.pack link.key iv body) ∧
            Wire.read body = .ok answer) ∧
        (∀ fault, (link.channel parcel t).1 = .error fault →
          (link.ask request s).1 = .error fault) ∧
        (∀ reply, (link.channel parcel t).1 = .ok reply →
          (∃ answer, (link.ask request s).1 = .ok answer) ∨
            (∃ e, (link.ask request s).1 = .error (.envelope e)) ∨
            ∃ e, (link.ask request s).1 = .error (.wire e)) ∧
        ∀ h, link.channel.Answers link.key h →
          ((link.ask request s).1 = .ok (h request) ↔ Wire.Fits (h request)) := by
  refine ⟨fun fault t h => ⟨ask_of_not_fresh h, sent_of_not_fresh h⟩, ?_⟩
  intro iv t hfresh
  have hunpack : Envelope.unpack link.key (link.parcel request iv).payload =
      .ok (Wire.write request) := Envelope.unpack_pack link.key iv _
  have hread := Wire.read_write hfits
  cases hsend : link.channel (link.parcel request iv) t with
  | mk reply u =>
    have hask := ask_of_fresh hfresh hsend
    refine ⟨link.parcel request iv, sent_of_fresh hfresh, rfl, rfl, rfl, ⟨_, hunpack, hread⟩, ?_⟩
    rw [hsend, hask]
    refine ⟨rfl, fun answer => verdict_eq_ok_iff, ?_, ?_, ?_⟩
    · rintro fault rfl
      rfl
    · rintro reply rfl
      exact verdict_ok link.key reply
    · -- the peer reads the request back, so its answer is the one to this request
      intro h hanswers
      obtain ⟨iv', u', hanswer⟩ := hanswers _ t _ _ hunpack hread
      cases hsend.symm.trans hanswer
      exact verdict_pack_eq_ok_iff.trans Wire.read_write_iff

/-- A channel to a peer that answers whatever it can open and read, always after the block `iv`. -/
def answering (key : SessionKey) (iv : Aes.Block) (h : Message → Message) : Channel Unit :=
  fun parcel _ =>
    match verdict key (.ok parcel.payload) with
    | .ok q => (.ok (Envelope.pack key iv (Wire.write (h q))), ())
    | .error fault => (.error fault, ())

theorem answers_answering (key : SessionKey) (iv : Aes.Block) (h : Message → Message) :
    (answering key iv h).Answers key h := by
  intro parcel s body q hunpack hread
  refine ⟨iv, (), ?_⟩
  rw [answering, verdict, hunpack]
  dsimp only
  rw [hread]

/-- The answer that names the command it answers to. -/
def echo (request : Message) : Message := .ofList [("echo", .bytes (request.bytesOr "cmd" []))]

def fileList : Message := .ofList [("cmd", .bytes "_file_list"), ("saltenv", .bytes "prod")]

/-- A link to a peer that answers with `echo`, under a key of zeros. -/
def toEcho : MasterLink Unit :=
  let key : SessionKey := ⟨List.replicate SessionKey.length 0, List.length_replicate⟩
  ⟨answering key .zero echo, key, fun _ => (.ok .zero, ()), 5, 30⟩

theorem ask_exchanges_once_fileList :
    Wire.Fits fileList ∧
      ∃ parcel, toEcho.sent fileList () = [parcel] ∧
        parcel.kind = ("aes" : String) ∧ parcel.tries = 5 ∧ parcel.timeout = 30 ∧
        (∃ body, Envelope.unpack toEcho.key parcel.payload = .ok body ∧
          Wire.read body = .ok fileList) ∧
        (toEcho.ask fileList ()).1 = .ok (echo fileList) := by
  have hfits : Wire.Fits fileList := by decide
  obtain ⟨-, hruns⟩ := ask_exchanges_once toEcho hfits ()
  obtain ⟨parcel, hsent, hkind, htries, htimeout, hbody, -, -, -, -, hpeer⟩ := hruns .zero () rfl
  have hanswer := (hpeer echo (answers_answering _ _ _)).2 (by decide)
  exact ⟨hfits, parcel, hsent, hkind, htries, htimeout, hbody, hanswer⟩

end MasterLink

end FileCourier
