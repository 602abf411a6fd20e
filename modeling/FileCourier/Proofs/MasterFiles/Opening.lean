import FileCourier.Proofs.Cache.Taking
import FileCourier.Proofs.MasterFiles.Exchanges

/-!
# Where a file goes

The destination of a `getFile` is opened before the first request when it was asked for, and else
by the first reply, which names its place in the cache (`opened?`). Either way the exchanges are
those of a course from the start; without a destination there is at most one (`getFile_account`).
-/

namespace FileCourier.MasterFiles

variable {σ : Type} {m : MasterFiles σ} {r : FileRequest} {relative env name : Bytes}
  {d : Download} {disk disk' : Disk} {reply : Message} {w : World σ}

/-- The name in the cache under which a first reply opens a file. A reply with neither data nor a
name opens none. -/
def nameIn (relative : Bytes) (reply : Message) : Option Bytes :=
  match reply.bytesOr "dest" [] with
  | [] => if reply.bytesOr "data" [] = [] then none else some relative
  | name => some name

/-- The destination that is opened by a request, or else by the first of its exchanges. -/
def opened? (m : MasterFiles σ) (r : FileRequest) (relative : Bytes) (disk : Disk)
    (log : List Exchange) : Option Path :=
  match begin r disk with
  | (.ok (some d), disk) =>
    if d.isOpen then some d.dest
    else
      match log with
      | ⟨_, .ok reply⟩ :: _ =>
        match (nameIn relative reply).map fun name => m.startInCache d r.env name disk with
        | some (.ok d, _) => some d.dest
        | _ => none
      | _ => none
  | _ => none

/-- The destination that a `getFile` opens. -/
def destination? (m : MasterFiles σ) (r : FileRequest) (w : World σ) : Option Path :=
  (VirtualPath.strip? r.path).bind fun relative =>
    m.opened? r relative w.disk (m.exchanges r w)

/-! ## Opening -/

theorem begin_of_dest_nil (h : r.dest = []) (disk : Disk) :
    begin r disk = (.ok (some {}), disk) := by
  rw [begin, h]
  rfl

/-- A destination that was asked for is open and empty before the first request. -/
theorem tracks_of_begin (hdest : r.dest ≠ []) (h : begin r disk = (.ok (some d), disk')) :
    Tracks ⟨r.dest⟩ {} d disk' := by
  have hne : r.dest.isEmpty = false := by simpa using hdest
  rw [begin, hne] at h
  obtain ⟨ready, disk'', -, hstart⟩ := Action.exists_of_bind_ok h
  cases ready with
  | false => cases hstart
  | true =>
    obtain ⟨d', disk''', hstart, hd⟩ := Action.exists_of_bind_ok hstart
    cases hd
    obtain ⟨hholds, hdest, hattempts⟩ := Download.holds_of_start (Download.of_act_ok hstart)
    exact ⟨hholds, hdest, hattempts⟩

theorem startInCache_apply (m : MasterFiles σ) (d : Download) (env name : Bytes) (disk : Disk) :
    m.startInCache d env name disk =
      match m.cache.destination env name disk with
      | (.error e, disk) => (.error e, disk)
      | (.ok dest, disk) =>
        if disk.isDirectory dest then
          match Chores.removeAll dest disk with
          | (.ok (), disk) => Download.act (d.start dest) disk
          | (.error e, disk) => (.error e, disk)
        else Download.act (d.start dest) disk := by
  rw [startInCache]
  cases hdest : m.cache.destination env name disk with
  | mk result disk₁ =>
    cases result with
    | error e => exact Action.bind_error hdest
    | ok dest =>
      rw [Action.bind_ok hdest, Action.get_bind]
      dsimp only
      split
      · cases hremove : Chores.removeAll dest disk₁ with
        | mk result disk₂ =>
          cases result with
          | error e => exact Action.bind_error hremove
          | ok u => exact Action.bind_ok hremove
      · rfl

/-- A file that was started in the cache is open and empty. -/
theorem tracks_of_startInCache (h : m.startInCache {} env name disk = (.ok d, disk')) :
    Tracks (m.cache.filePath env name) {} d disk' := by
  have started {disk : Disk} (h : Download.act (Download.start {} (m.cache.filePath env name)) disk =
      (.ok d, disk')) : Tracks (m.cache.filePath env name) {} d disk' := by
    obtain ⟨hholds, hdest, hattempts⟩ := Download.holds_of_start (Download.of_act_ok h)
    exact ⟨hholds, hdest, hattempts⟩
  rw [startInCache_apply] at h
  cases hdest : m.cache.destination env name disk with
  | mk result disk₁ =>
    cases result with
    | error e =>
      rw [hdest] at h
      cases h
    | ok dest =>
      obtain rfl := Cache.eq_of_prepare hdest
      rw [hdest] at h
      dsimp only at h
      split at h
      · split at h
        · exact started h
        · cases h
      · exact started h

/-- A first reply opens the file that it is to be added to, if it names one. -/
theorem respond_unopened (m : MasterFiles σ) (r : FileRequest) (relative : Bytes)
    (reply : Message) (disk : Disk) :
    m.respond r relative {} (.ok reply) disk =
      match nameIn relative reply with
      | none => (.ok (.done .notFound), disk)
      | some name =>
        match m.startInCache {} r.env name disk with
        | (.ok d, disk) => m.respond r relative d (.ok reply) disk
        | (.error e, disk) => (.error e, disk) := by
  have opened {name : Bytes} {k : Download → Action Disk Turn}
      (h : ∀ {d : Download}, d.isOpen = true → m.respond r relative d (.ok reply) = k d) :
      (m.startInCache {} r.env name >>= k) disk =
        match m.startInCache {} r.env name disk with
        | (.ok d, disk) => m.respond r relative d (.ok reply) disk
        | (.error e, disk) => (.error e, disk) := by
    cases hstart : m.startInCache {} r.env name disk with
    | mk result disk' =>
      cases result with
      | error e => exact Action.bind_error hstart
      | ok d =>
        rw [Action.bind_ok hstart]
        simp only [h (tracks_of_startInCache hstart).holds.isOpen]
  have hclosed : ({} : Download).isOpen = false := rfl
  simp only [respond, take] at opened ⊢
  rw [nameIn]
  cases hdata : reply.bytesOr "data" [] with
  | nil =>
    simp only [hdata] at opened ⊢
    rw [takeEnd, hclosed]
    cases hdest : reply.bytesOr "dest" [] with
    | nil => rfl
    | cons byte bytes => exact opened fun h => takeEnd_of_isOpen m r h reply
  | cons byte bytes =>
    simp only [hdata] at opened ⊢
    rw [takePiece, hclosed]
    cases hdest : reply.bytesOr "dest" [] with
    | nil => exact opened fun h => takePiece_of_isOpen m r relative h reply (byte :: bytes)
    | cons _ _ => exact opened fun h => takePiece_of_isOpen m r relative h reply (byte :: bytes)

/-- A download that its first reply opens goes on as one that was open before. -/
theorem fetch_unopened {beyond beyond' : σ} (n : Nat)
    (hask : m.ask (pieceRequest r relative 0) beyond = (.ok reply, beyond'))
    (hname : nameIn relative reply = some name)
    (hstart : m.startInCache {} r.env name disk = (.ok d, disk')) :
    m.fetch r relative (n + 1) {} ⟨disk, beyond⟩ =
      m.fetch r relative (n + 1) d ⟨disk', beyond⟩ := by
  have hoffset : d.offset = 0 := (tracks_of_startInCache hstart).holds.offset
  have hclosed : ({} : Download).offset = 0 := rfl
  rw [fetch_succ_apply, fetch_succ_apply, turn_apply, turn_apply, hoffset, hclosed, hask]
  simp only [respond_unopened m r relative reply disk, hname, hstart]

/-! ## What was opened -/

theorem nameIn_of_dest (h : reply.bytesOr "dest" [] = name) (hne : name ≠ []) (relative : Bytes) :
    nameIn relative reply = some name := by
  rw [nameIn, h]
  cases name with
  | nil => exact absurd rfl hne
  | cons byte bytes => rfl

theorem opened?_of_dest_ne_nil {log : List Exchange} {dest : Path} (hdest : r.dest ≠ [])
    (h : m.opened? r relative disk log = some dest) : dest = r.dest := by
  rw [opened?] at h
  split at h
  · rename_i d disk' hbegin
    have htracks := tracks_of_begin hdest hbegin
    rw [if_pos htracks.holds.isOpen, htracks.dest_eq] at h
    cases h
    rfl
  · cases h

/-- Without a destination that was asked for, the first reply has opened a file in the cache. -/
theorem opened?_of_dest_nil {log : List Exchange} {dest : Path} (hdest : r.dest = [])
    (h : m.opened? r relative disk log = some dest) :
    ∃ request reply rest name, log = ⟨request, .ok reply⟩ :: rest ∧
      nameIn relative reply = some name ∧ dest = m.cache.filePath r.env name := by
  have hclosed : ({} : Download).isOpen = false := rfl
  simp only [opened?, begin_of_dest_nil hdest, hclosed, Bool.false_eq_true, if_false] at h
  split at h
  · rename_i request reply rest
    refine ⟨request, reply, rest, ?_⟩
    cases hname : nameIn relative reply with
    | none =>
      rw [hname] at h
      cases h
    | some name =>
      refine ⟨name, rfl, rfl, ?_⟩
      simp only [hname, Option.map_some] at h
      split at h
      · rename_i d disk' hstart
        have htracks := tracks_of_startInCache (Option.some.inj hstart)
        cases h
        exact htracks.dest_eq
      · cases h
  · cases h

/-! ## Runs from the start -/

/-- A `getFile` that opens nothing: its exchanges, its result and the disk it leaves. -/
inductive Unopened (m : MasterFiles σ) (r : FileRequest) (relative : Bytes) (disk : Disk) :
    List Exchange → Except Fault Fetched → Disk → Prop
  | unavailable {disk' : Disk} : begin r disk = (.ok none, disk') →
      Unopened m r relative disk [] (.ok .destinationUnavailable) disk'
  | refused {e : Fault} {disk' : Disk} : begin r disk = (.error e, disk') →
      Unopened m r relative disk [] (.error e) disk'
  | impatient : r.dest = [] → m.patience = 0 →
      Unopened m r relative disk [] (.error .impatient) disk
  | timeout {what : Bytes} {last : NetworkError} : r.dest = [] →
      Unopened m r relative disk [⟨pieceRequest r relative 0, .error (.unreachable what last)⟩]
        (.ok .timeout) disk
  | fault {e : Fault} : r.dest = [] → (∀ what last, e ≠ .unreachable what last) →
      Unopened m r relative disk [⟨pieceRequest r relative 0, .error e⟩] (.error e) disk
  | notFound {reply : Message} : r.dest = [] → nameIn relative reply = none →
      Unopened m r relative disk [⟨pieceRequest r relative 0, .ok reply⟩] (.ok .notFound) disk
  | unstarted {reply : Message} {name : Bytes} {e : Fault} {disk' : Disk} : r.dest = [] →
      nameIn relative reply = some name →
      m.startInCache {} r.env name disk = (.error e, disk') →
      Unopened m r relative disk [⟨pieceRequest r relative 0, .ok reply⟩] (.error e) disk'

theorem getFile_eq_recorded (m : MasterFiles σ) (r : FileRequest) (w : World σ) :
    m.getFile r w = ((m.recorded.getFile r ⟨w.disk, w.beyond, []⟩).1,
      (m.recorded.getFile r ⟨w.disk, w.beyond, []⟩).2.plain) :=
  getFile_recorded m r ⟨w.disk, w.beyond, []⟩

/-- A run opens its destination and goes through a course from the start, or opens nothing. -/
inductive Account (m : MasterFiles σ) (r : FileRequest) (relative : Bytes) (disk : Disk)
    (log : List Exchange) (result : Except Fault Fetched) (disk' : Disk) : Prop
  | opened {dest : Path} {t : Tally} : m.opened? r relative disk log = some dest →
      Course m.digests r relative dest m.patience {} log result t →
      (∃ x, disk'.entryAt? dest = some (.file x t.content)) →
      Account m r relative disk log result disk'
  | unopened : m.opened? r relative disk log = none →
      Unopened m r relative disk log result disk' → Account m r relative disk log result disk'

/-- The run of a request without a destination, whose file the first reply opens. -/
theorem fetch_account_of_dest_nil (m : MasterFiles σ) (relative : Bytes) (w : World σ)
    (hdest : r.dest = []) :
    Account m r relative w.disk
      (m.recorded.fetch r relative m.patience {} ⟨w.disk, w.beyond, []⟩).2.beyond.2
      (m.recorded.fetch r relative m.patience {} ⟨w.disk, w.beyond, []⟩).1
      (m.recorded.fetch r relative m.patience {} ⟨w.disk, w.beyond, []⟩).2.disk := by
  have hbegin := begin_of_dest_nil hdest w.disk
  have hclosed : ({} : Download).isOpen = false := rfl
  cases hpatience : m.patience with
  | zero =>
    refine .unopened ?_ (.impatient hdest hpatience)
    simp only [opened?, hbegin, hclosed]
    rfl
  | succ n =>
    cases hask : m.ask (pieceRequest r relative 0) w.beyond with
    | mk answer beyond =>
      have hrecorded : m.recorded.ask (pieceRequest r relative 0) (w.beyond, []) =
          (answer, beyond, [⟨pieceRequest r relative 0, answer⟩]) := by
        change m.ask.recorded _ _ = _
        rw [Master.recorded, hask]
        rfl
      have hoffset : ({} : Download).offset = 0 := rfl
      cases answer with
      | error e =>
        rw [fetch_succ_apply, turn_apply, hoffset, hrecorded]
        cases e with
        | unreachable what last =>
          refine .unopened ?_ (.timeout hdest)
          simp only [opened?, hbegin, hclosed]
          rfl
        | _ =>
          refine .unopened ?_ (.fault hdest (by simp))
          simp only [opened?, hbegin, hclosed]
          rfl
      | ok reply =>
        cases hname : nameIn relative reply with
        | none =>
          rw [fetch_succ_apply, turn_apply, hoffset, hrecorded]
          simp only [respond_unopened m.recorded r relative reply w.disk, hname]
          refine .unopened ?_ (.notFound hdest hname)
          simp only [opened?, hbegin, hclosed, hname]
          rfl
        | some name =>
          cases hstart : m.startInCache {} r.env name w.disk with
          | mk started disk =>
            have hstart' : m.recorded.startInCache {} r.env name w.disk = (started, disk) := hstart
            cases started with
            | error e =>
              rw [fetch_succ_apply, turn_apply, hoffset, hrecorded]
              simp only [respond_unopened m.recorded r relative reply w.disk, hname, hstart']
              refine .unopened ?_ (.unstarted hdest hname hstart)
              simp only [opened?, hbegin, hclosed, hname, Option.map_some, hstart]
              rfl
            | ok d =>
              -- The reply opens its file and is then taken as by a download that was open before.
              have htracks := tracks_of_startInCache hstart
              obtain ⟨course, result, t, disk', beyond', hrun, hcourse, hend, hfirst⟩ :=
                exists_course m r relative htracks (n + 1) w.beyond []
              obtain ⟨rest, hcons⟩ := hfirst (Nat.succ_ne_zero n)
              rw [htracks.holds.offset, List.length_nil, hask] at hcons
              subst hcons
              rw [fetch_unopened n hrecorded hname hstart', hrun]
              refine .opened ?_ (hpatience ▸ hcourse) hend
              simp only [opened?, hbegin, hclosed, List.nil_append, hname, Option.map_some, hstart,
                htracks.dest_eq]
              rfl

/-- A `getFile` opens its destination and runs through a course, or opens nothing. -/
theorem getFile_account (m : MasterFiles σ) (w : World σ)
    (h : VirtualPath.strip? r.path = some relative) :
    Account m r relative w.disk (m.exchanges r w) (m.getFile r w).1 (m.getFile r w).2.disk := by
  have hexchanges : m.exchanges r w = (m.recorded.getFile r ⟨w.disk, w.beyond, []⟩).2.beyond.2 := rfl
  rw [getFile_eq_recorded, hexchanges, getFile_apply m.recorded _ h]
  by_cases hdest : r.dest = []
  · rw [begin_of_dest_nil hdest]
    exact fetch_account_of_dest_nil m relative w hdest
  cases hbegin : begin r w.disk with
  | mk begun disk =>
    cases begun with
    | error e =>
      refine .unopened ?_ (.refused hbegin)
      simp only [opened?, hbegin]
    | ok begun =>
      cases begun with
      | none =>
        refine .unopened ?_ (.unavailable hbegin)
        simp only [opened?, hbegin]
      | some d =>
        have htracks := tracks_of_begin hdest hbegin
        obtain ⟨course, result, t, disk', beyond', hrun, hcourse, hend, -⟩ :=
          exists_course m r relative htracks m.patience w.beyond []
        have hpatience : m.recorded.patience = m.patience := rfl
        dsimp only
        rw [hpatience, hrun]
        refine .opened ?_ hcourse hend
        simp only [opened?, hbegin, htracks.holds.isOpen, htracks.dest_eq, if_true]

end FileCourier.MasterFiles
