import FileCourier.Proofs.MasterFiles.Accepted
import FileCourier.Proofs.MasterFiles.Served

/-!
# Ends without a file

A `getFile` that stores nothing but does not fail says why: the destination is out of reach, the
master has no such file, or it could not be reached. What was asked and what was changed by then is
said by `getFile_unstored`. A master that has no such file is understood only when no destination
was asked for; a destination that was asked for is emptied and passes for a file
(`getFile_of_absent`).
-/

namespace FileCourier

/-- A reply that carries data or says where the file belongs. -/
def Exchange.Opens (x : Exchange) : Prop :=
  ∃ reply, x.answer = .ok reply ∧ (reply.bytesOr "data" [] ≠ [] ∨ reply.bytesOr "dest" [] ≠ [])

theorem Chores.eq_of_prepareParent_false {dir : Path} {make : Bool} {d d' : Disk}
    (h : prepareParent dir make d = (.ok false, d')) : d' = d := by
  rw [prepareParent, Action.get_bind] at h
  split at h
  · cases h
  split at h
  · cases h
    rfl
  · obtain ⟨u, d'', -, hlast⟩ := Action.exists_of_bind_ok h
    cases hlast

namespace MasterFiles

variable {σ : Type} {m : MasterFiles σ} {r : FileRequest} {relative name : Bytes} {dest : Path}
  {n : Nat} {t t' : Tally} {disk disk' : Disk} {reply : Message} {log : List Exchange}
  {result : Except Fault Fetched}

theorem eq_of_begin_none (h : begin r disk = (.ok none, disk')) : disk' = disk := by
  rw [begin] at h
  split at h
  · cases h
  obtain ⟨ready, disk'', hprepared, hrest⟩ := Action.exists_of_bind_ok h
  cases ready with
  | true =>
    obtain ⟨d, _, -, hlast⟩ := Action.exists_of_bind_ok hrest
    cases hlast
  | false =>
    cases hrest
    exact Chores.eq_of_prepareParent_false hprepared

theorem nameIn_eq_none_iff : nameIn relative reply = none ↔
    reply.bytesOr "dest" [] = [] ∧ reply.bytesOr "data" [] = [] := by
  rw [nameIn]
  cases reply.bytesOr "dest" [] with
  | nil => by_cases h : reply.bytesOr "data" [] = [] <;> simp [h]
  | cons byte bytes => simp

theorem opens_of_nameIn {request : Message} (h : nameIn relative reply = some name) :
    (⟨request, .ok reply⟩ : Exchange).Opens := by
  refine ⟨reply, rfl, ?_⟩
  by_cases hdata : reply.bytesOr "data" [] = []
  · refine .inr fun hdest => ?_
    rw [nameIn_eq_none_iff.2 ⟨hdest, hdata⟩] at h
    cases h
  · exact .inl hdata

/-! ## Courses without a file -/

/-- A reply is no sign that the master is out of reach. -/
theorem Tally.next_ok_ne_timeout : t.next l r (.ok reply) ≠ .timeout := by
  intro htimeout
  rw [Tally.next] at htimeout
  cases hdata : reply.bytesOr "data" [] with
  | nil =>
    simp only [hdata] at htimeout
    split at htimeout
    · cases htimeout
    · cases htimeout
    · split at htimeout <;> cases htimeout
    · cases htimeout
  | cons byte bytes =>
    simp only [hdata] at htimeout
    split at htimeout <;> cases htimeout

/-- A course is cut short by the last of its exchanges. -/
theorem Course.exists_timedOut (h : Course l r relative dest n t log result t')
    (hresult : result = .ok .timeout) : ∃ pre x, log = pre ++ [x] ∧ x.TimedOut := by
  induction h with
  | @timeout _ t answer hnext =>
    refine ⟨[], _, rfl, ?_⟩
    cases answer with
    | error e =>
      cases e with
      | unreachable what last => exact ⟨what, last, rfl⟩
      | _ => cases hnext
    | ok reply => exact absurd hnext Tally.next_ok_ne_timeout
  | @more _ t _ _ answer _ _ _ _ ih =>
    obtain ⟨pre, x, rfl, hx⟩ := ih hresult
    exact ⟨_ :: pre, x, rfl, hx⟩
  | impatient | stored | fault => cases hresult

theorem Course.timeout_of_mem (h : Course l r relative dest n t log result t') {x : Exchange}
    (hx : x ∈ log) (htimedOut : x.TimedOut) : result = .ok .timeout := by
  obtain ⟨what, last, hanswer⟩ := htimedOut
  induction h with
  | impatient => cases hx
  | timeout => rfl
  | stored hnext | fault hnext =>
    obtain rfl := List.mem_singleton.1 hx
    obtain rfl := hanswer
    cases hnext
  | more hnext _ ih =>
    rcases List.mem_cons.1 hx with rfl | hx
    · obtain rfl := hanswer
      cases hnext
    · exact ih hx

/-- A `getFile` finds the master out of reach exactly when one of its requests did. -/
theorem getFile_timeout_iff (m : MasterFiles σ) (r : FileRequest) (w : World σ) :
    (m.getFile r w).1 = .ok .timeout ↔ ∃ x ∈ m.exchanges r w, x.TimedOut := by
  cases hstrip : VirtualPath.strip? r.path with
  | none =>
    rw [getFile_unmarked m w hstrip]
    constructor
    · exact nofun
    · rintro ⟨x, hx, -⟩
      obtain ⟨relative, k, s, hsome, -⟩ := request_of_mem_exchanges hx
      cases hstrip.symm.trans hsome
  | some relative =>
    have account := getFile_account m w hstrip
    generalize m.exchanges r w = log at account ⊢
    generalize (m.getFile r w).1 = result at account ⊢
    generalize (m.getFile r w).2.disk = disk' at account
    cases account with
    | opened _ hcourse =>
      constructor
      · intro hresult
        obtain ⟨pre, x, rfl, hx⟩ := hcourse.exists_timedOut hresult
        exact ⟨x, List.mem_append_right pre List.mem_cons_self, hx⟩
      · rintro ⟨x, hx, htimedOut⟩
        exact hcourse.timeout_of_mem hx htimedOut
    | unopened _ hunopened =>
      cases hunopened with
      | unavailable | impatient | refused => simp
      | timeout => simp [Exchange.TimedOut]
      | fault _ hother => simp [Exchange.TimedOut, hother]
      | notFound | unstarted => simp [Exchange.TimedOut]

theorem Course.ne_unavailable (h : Course l r relative dest n t log result t') :
    result ≠ .ok .destinationUnavailable := by
  induction h with
  | more _ _ ih => exact ih
  | _ => exact nofun

theorem Course.ne_notFound (h : Course l r relative dest n t log result t') :
    result ≠ .ok .notFound := by
  induction h with
  | more _ _ ih => exact ih
  | _ => exact nofun

/-- Where nothing is stored, nothing has been changed either: no request is sent to a destination
out of reach, a file is found missing by the only request, for which no destination was asked, and
the master is out of reach at the last request, before which only a reply that opens a file has
touched a disk on which no destination was asked for. -/
theorem getFile_unstored (m : MasterFiles σ) (r : FileRequest) (w : World σ) :
    ((m.getFile r w).1 = .ok .destinationUnavailable →
      m.exchanges r w = [] ∧ (m.getFile r w).2.disk = w.disk) ∧
    ((m.getFile r w).1 = .ok .notFound →
      (m.exchanges r w).length = 1 ∧ r.dest = [] ∧ (m.getFile r w).2.disk = w.disk) ∧
    ((m.getFile r w).1 = .ok .timeout →
      ∃ pre x, m.exchanges r w = pre ++ [x] ∧ x.TimedOut ∧
        (r.dest = [] → (∀ y ∈ pre, ¬y.Opens) → (m.getFile r w).2.disk = w.disk)) := by
  cases hstrip : VirtualPath.strip? r.path with
  | none =>
    rw [getFile_unmarked m w hstrip]
    exact ⟨nofun, nofun, nofun⟩
  | some relative =>
    have account := getFile_account m w hstrip
    generalize m.exchanges r w = log at account ⊢
    generalize (m.getFile r w).1 = result at account ⊢
    generalize (m.getFile r w).2.disk = disk' at account ⊢
    cases account with
    | @opened dest t hopened hcourse hend =>
      refine ⟨fun h => absurd h hcourse.ne_unavailable, fun h => absurd h hcourse.ne_notFound,
        fun h => ?_⟩
      obtain ⟨pre, x, rfl, hx⟩ := hcourse.exists_timedOut h
      refine ⟨pre, x, rfl, hx, fun hdest hpre => ?_⟩
      -- The reply that opened the file is not the last answer.
      obtain ⟨request, reply, rest, name, hlog, hname, -⟩ := opened?_of_dest_nil hdest hopened
      cases pre with
      | nil =>
        obtain ⟨rfl, -⟩ := List.cons.inj hlog
        obtain ⟨what, last, hanswer⟩ := hx
        cases hanswer
      | cons y pre =>
        obtain ⟨rfl, -⟩ := List.cons.inj hlog
        exact absurd (opens_of_nameIn hname) (hpre _ List.mem_cons_self)
    | unopened _ hunopened =>
      cases hunopened with
      | unavailable hbegin => exact ⟨fun _ => ⟨rfl, eq_of_begin_none hbegin⟩, nofun, nofun⟩
      | timeout hdest => exact ⟨nofun, nofun, fun _ => ⟨[], _, rfl, ⟨_, _, rfl⟩, fun _ _ => rfl⟩⟩
      | notFound hdest => exact ⟨nofun, fun _ => ⟨rfl, hdest, rfl⟩, nofun⟩
      | refused | impatient | fault | unstarted => exact ⟨nofun, nofun, nofun⟩

/-- A request for a file in a directory that is missing. -/
def outOfReachRequest : FileRequest := { path := "salt://f", dest := "gone/f", env := "base" }

/-- A file on the disk, and a master that has nothing of what it is asked for. -/
def nothingServed : World (List Message) := ⟨⟨[(["f"], .file false "old")], []⟩, [.empty]⟩

/-- A file on the disk, and a master that is out of reach. -/
def silent : World (List Message) := { nothingServed with beyond := [] }

theorem getFile_unstored_eachWay :
    ((playing.getFile outOfReachRequest nothingServed).1 = .ok .destinationUnavailable ∧
      playing.exchanges outOfReachRequest nothingServed = [] ∧
      (playing.getFile outOfReachRequest nothingServed).2.disk = nothingServed.disk) ∧
    ((playing.getFile cachedRequest nothingServed).1 = .ok .notFound ∧
      (playing.exchanges cachedRequest nothingServed).length = 1 ∧
      (playing.getFile cachedRequest nothingServed).2.disk = nothingServed.disk) ∧
    (playing.getFile cachedRequest silent).1 = .ok .timeout ∧
      ∃ pre x, playing.exchanges cachedRequest silent = pre ++ [x] ∧ x.TimedOut := by
  have unavailable : (playing.getFile outOfReachRequest nothingServed).1 =
      .ok .destinationUnavailable := rfl
  have notFound : (playing.getFile cachedRequest nothingServed).1 = .ok .notFound := rfl
  have timeout : (playing.getFile cachedRequest silent).1 = .ok .timeout := rfl
  obtain ⟨hasked, -, hdisk⟩ := (getFile_unstored playing _ nothingServed).2.1 notFound
  obtain ⟨pre, x, hlog, hx, -⟩ := (getFile_unstored playing _ silent).2.2 timeout
  exact ⟨⟨unavailable, (getFile_unstored playing _ nothingServed).1 unavailable⟩,
    ⟨notFound, hasked, hdisk⟩, timeout, pre, x, hlog, hx⟩

/-! ## Files that the master does not have -/

/-- A reply that the master has no such file: no data, no place for it and no digest. -/
structure Absent (reply : Message) : Prop where
  data : reply.bytesOr "data" [] = []
  dest : reply.bytesOr "dest" [] = []
  hsum : reply.has "hsum" = false

theorem Absent.next_eq (h : Absent reply) (r : FileRequest) (t : Tally) :
    t.next l r (.ok reply) = .stored := by
  have hverdict : verdict l t.content reply = .unannounced := by
    simp only [verdict, announced, h.hsum, Bool.false_eq_true, if_false]
  simp only [Tally.next, h.data, hverdict]

/-- An open download ends at once, with what it holds. -/
theorem fetch_of_absent {d : Download} (h : Tracks dest t d disk) (habsent : Absent reply)
    {beyond : σ} (hask : (m.ask (pieceRequest r relative d.offset) beyond).1 = .ok reply) (n : Nat) :
    m.fetch r relative (n + 1) d ⟨disk, beyond⟩ = (.ok (.stored dest),
      ⟨disk, (m.ask (pieceRequest r relative d.offset) beyond).2⟩) := by
  have hstep := respond_of_tracks m r relative h (.ok reply)
  rw [habsent.next_eq, Tally.Next.Realised] at hstep
  rw [fetch_succ_apply, turn_apply]
  cases hanswer : m.ask (pieceRequest r relative d.offset) beyond with
  | mk answer beyond' =>
    rw [hanswer] at hask
    cases hask
    dsimp only
    rw [hstep]

/-- When the first reply says that the master has no such file, a request without a destination
finds none and changes nothing. A destination that was asked for has been emptied by then: it is
reported as the file, with nothing in it, whatever it held. -/
theorem getFile_of_absent (m : MasterFiles σ) (r : FileRequest) (w : World σ) (relative : Bytes)
    (reply : Message) (hpath : r.path = VirtualPath.mark ++ relative) (hpatience : 0 < m.patience)
    (hask : (m.ask (pieceRequest r relative 0) w.beyond).1 = .ok reply) (habsent : Absent reply) :
    (r.dest = [] → (m.getFile r w).1 = .ok .notFound ∧ (m.getFile r w).2.disk = w.disk) ∧
    (r.dest ≠ [] → ∀ d disk, begin r w.disk = (.ok (some d), disk) →
      (m.getFile r w).1 = .ok (.stored r.dest) ∧ (m.getFile r w).2.disk = disk ∧
        ∃ x, disk.entryAt? r.dest = some (.file x [])) := by
  obtain ⟨n, hn⟩ : ∃ n, m.patience = n + 1 := ⟨m.patience - 1, by omega⟩
  rw [getFile_apply m w (VirtualPath.strip?_eq_some_iff.2 hpath), hn]
  constructor
  · intro hdest
    have hoffset : ({} : Download).offset = 0 := rfl
    have hnone : nameIn relative reply = none := nameIn_eq_none_iff.2 ⟨habsent.dest, habsent.data⟩
    rw [begin_of_dest_nil hdest]
    dsimp only
    rw [fetch_succ_apply, turn_apply, hoffset]
    cases hanswer : m.ask (pieceRequest r relative 0) w.beyond with
    | mk answer beyond =>
      rw [hanswer] at hask
      cases hask
      simp only [respond_unopened m r relative reply w.disk, hnone]
      exact ⟨trivial, trivial⟩
  · intro hdest d disk hbegin
    have htracks := tracks_of_begin hdest hbegin
    have hoffset : d.offset = 0 := htracks.holds.offset
    rw [hbegin]
    dsimp only
    rw [fetch_of_absent htracks habsent (hoffset.symm ▸ hask)]
    obtain ⟨x, hentry⟩ := htracks.holds.entryAt?
    rw [htracks.dest_eq] at hentry
    exact ⟨rfl, rfl, x, hentry⟩

theorem absent_empty : Absent .empty := ⟨by decide, by decide, by decide⟩

theorem getFile_of_absent_bothWays :
    (playing.getFile cachedRequest nothingServed).1 = .ok .notFound ∧
      (playing.getFile plainRequest nothingServed).1 = .ok (.stored ⟨"f"⟩) := by
  have hbegin : ∃ d disk, begin plainRequest nothingServed.disk = (.ok (some d), disk) :=
    exists_begin (by decide) ⟨nothingServed.disk, rfl, .inr ⟨_, _, _, rfl⟩⟩
  obtain ⟨d, disk, hbegin⟩ := hbegin
  constructor
  · exact ((getFile_of_absent playing _ nothingServed "f" .empty (by decide) (by decide) rfl
      absent_empty).1 rfl).1
  · exact ((getFile_of_absent playing plainRequest nothingServed "f" .empty (by decide)
      (by decide) rfl absent_empty).2 (by decide) d disk hbegin).1

/-- A file that the master does not have is reported as stored, and the file that stood there has
lost its content. -/
theorem absent_but_stored :
    nothingServed.beyond.head? = some .empty ∧ Absent .empty ∧
      nothingServed.disk.entryAt? plainRequest.dest = some (.file false "old") ∧
      (playing.getFile plainRequest nothingServed).1 = .ok (.stored ⟨"f"⟩) ∧
      (playing.getFile plainRequest nothingServed).2.disk.entryAt? plainRequest.dest =
        some (.file false []) :=
  ⟨rfl, absent_empty, rfl, rfl, rfl⟩

end MasterFiles

end FileCourier
